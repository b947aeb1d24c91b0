import HtmlMarkdown.Proofs.Phrasing
import HtmlMarkdown.Proofs.Unmarked

/-!
# The conversion of HTML without marks

Inside of anchors and of nothing else, a token without marks is converted by itself: to its chunk,
with the marks of a block at the ends of a table, and with the gap that is already due in the place
of another one. Only a start tag directly before its end tag is left out together with that.
-/

namespace HtmlMarkdown

open Conversion (Gap)

def Chunk.drafted (front : Front) : Chunk (List Markdown.Token) → List Markdown.Token
  | run us => us
  | gap g =>
    match front with
    | .start => []
    | .behind due => [(due.getD g).token]
  | opens us => .startBlock :: us
  | closes us => us ++ [.endBlock]

def draft (front : Front) : List (Chunk (List Markdown.Token)) → List Markdown.Token
  | [] => []
  | c :: cs => c.drafted front ++ draft (front.next c) cs

namespace Conversion

open Markdown (Token)

variable {w : Window} {s : State} {rest : List Html.Token} {t u : Html.Token} {name : String}
  {ctx : Context} {depth : Nat}

def draftOf (t : Html.Token) : List Token := (t.drafted?.map (Chunk.drafted .start)).getD []

def inAnchors (depth : Nat) : Context := { anchor := depth, anchorAsTag := depth }

section Tags

theorem autolink_eq (t : Html.Token) (ctx : Context) : autolink {} t ctx =
    .emit ctx (if t.kind = .startTag then [.anchorSimple t.address] else []) := by
  have hurl : bareLinkUrl t.tagName t = t.tagName ++ "//" ++
      "/".intercalate (t.attributes.keys.map (·.localName)) ++
        t.attributes.values.getLast?.elim "" fun value =>
          if value = "" then "" else "=" ++ value := by
    unfold bareLinkUrl
    cases t.attributes.values.getLast? with
    | none => rfl
    | some value =>
      by_cases hv : value = ""
      · simp [hv, Option.filter_some]
      · simp [hv, Option.filter_some]
  unfold autolink Html.Token.address
  dsimp only
  rw [hurl]
  split_ifs <;> first | rfl | simp_all

theorem otherTag_table (hname : t.tagName = "table") : otherTag {} t ctx =
    .ok (.emit ctx (if t.kind = .startTag then [.startBlock, .html (({} : Options).clean t)]
      else [.html (({} : Options).clean t), .endBlock])) := by
  have hnamed : Html.hasMarkdown "table" = false ∧ ({} : Options).isPassthrough "table" = true ∧
      ({} : Options).isPassthroughBlock "table" = true ∧ "table" ≠ Html.fragmentTag := by decide
  unfold otherTag
  dsimp only
  rw [hname, hnamed.1, hnamed.2.1, hnamed.2.2.1, if_neg hnamed.2.2.2, if_neg Bool.false_ne_true,
    if_neg (by decide), if_neg (by decide)]
  split_ifs <;> rfl

theorem otherTag_part (hname : Html.tableParts.contains t.tagName = true) :
    otherTag {} t ctx = .ok (.emit ctx [.html (({} : Options).clean t)]) := by
  have hnamed : ∀ name ∈ Html.tableParts, Html.hasMarkdown name = false ∧
      ({} : Options).isPassthrough name = true ∧
        ({} : Options).isPassthroughBlock name = false ∧ name ≠ Html.fragmentTag := by decide
  obtain ⟨hmark, hkept, hblock, hfragment⟩ := hnamed t.tagName (by simpa using hname)
  unfold otherTag
  dsimp only
  rw [if_neg hfragment, hmark, hkept, hblock, if_neg Bool.false_ne_true, if_neg (by decide),
    if_pos (by decide)]

theorem isPassthrough_eq_false (htable : name ≠ "table")
    (hpart : Html.tableParts.contains name = false) :
    ({} : Options).isPassthrough name = false := by
  change (_ :: Html.tableParts).contains _ = false
  rw [List.contains_cons, hpart, Bool.or_false]
  exact beq_eq_false_iff_ne.mpr htable

/-- The tags of an element without any rule are left out. -/
theorem otherTag_unknown (hmark : Html.hasMarkdown t.tagName = false) (htable : t.tagName ≠ "table")
    (hpart : Html.tableParts.contains t.tagName = false) :
    ∃ notices, otherTag {} t ctx = .ok { context := ctx, notices } := by
  unfold otherTag
  dsimp only
  rw [hmark, isPassthrough_eq_false htable hpart]
  split_ifs <;> first | exact ⟨_, rfl⟩ | contradiction

theorem otherTag_unmarked (hrole : Html.roleOf t.tagName = .other)
    (hmark : Html.hasMarkdown t.tagName = false) (hkind : t.kind = .startTag ∨ t.kind = .endTag) :
    ∃ notices, otherTag {} t ctx = .ok { context := ctx, produced := draftOf t, notices } := by
  have hanchor : t.tagName ≠ "a" := fun h => by
    rw [h] at hrole
    exact absurd hrole (by decide)
  unfold draftOf Html.Token.drafted?
  by_cases htable : t.tagName = "table"
  · refine ⟨[], otherTag_table htable |>.trans ?_⟩
    rcases hkind with hk | hk <;> simp [hk, htable, Chunk.drafted, Reaction.emit]
  by_cases hpart : Html.tableParts.contains t.tagName = true
  · refine ⟨[], (otherTag_part hpart).trans ?_⟩
    rcases hkind with hk | hk <;>
      simp only [hk, if_neg htable, if_neg hanchor, if_pos hpart] <;> rfl
  · obtain ⟨notices, htag⟩ := otherTag_unknown hmark htable (by simpa using hpart)
    have hbare : Html.roleOf t.tagName ≠ .bareLink := by simp [hrole]
    refine ⟨notices, htag.trans ?_⟩
    rcases hkind with hk | hk <;>
      simp only [hk, if_neg htable, if_neg hanchor, if_neg hpart, if_neg hbare] <;> rfl

/-- A bare link is a link, and its end tag nothing. -/
theorem draftOf_bareLink (hrole : Html.roleOf t.tagName = .bareLink)
    (hkind : t.kind = .startTag ∨ t.kind = .endTag) :
    draftOf t = if t.kind = .startTag then [.anchorSimple t.address] else [] := by
  have hroles : ∀ name ∈ "table" :: "a" :: Html.tableParts, Html.roleOf name ≠ .bareLink := by
    decide
  have htable : t.tagName ≠ "table" := fun h => hroles _ (by simp [h]) hrole
  have hanchor : t.tagName ≠ "a" := fun h => hroles _ (by simp [h]) hrole
  have hpart : ¬Html.tableParts.contains t.tagName = true := fun h =>
    hroles t.tagName (by simp_all) hrole
  unfold draftOf Html.Token.drafted?
  rcases hkind with hk | hk <;>
    simp only [hk, if_neg htable, if_neg hanchor, if_neg hpart, if_pos hrole] <;> rfl

theorem flatText?_of_holdsText (h : Html.holdsText w.after = false) : w.flatText? = none := by
  unfold Window.flatText?
  split
  · next text next ts hafter =>
    rw [hafter] at h
    exact if_neg fun hflat => by simp [Html.holdsText, hflat.1, hflat.2] at h
  · rfl

/-- The tags of an anchor that stays. -/
theorem anchor_stays (hname : w.token.name = some "a")
    (hkind : w.token.kind = .startTag ∨ w.token.kind = .endTag)
    (hstays : w.token.anchorStays depth w.after = true) :
    anchor {} w (w.token.kind == .startTag) (inAnchors depth) =
      .ok (.emit (inAnchors (w.token.anchorsBehind depth)) (draftOf w.token)) := by
  have htag : w.token.tagName = "a" := by simp [Html.Token.tagName, hname]
  have hdraft : draftOf w.token = [.html (({} : Options).clean w.token)] := by
    unfold draftOf Html.Token.drafted?
    have htable : "a" ≠ "table" := by decide
    rcases hkind with hk | hk <;> simp only [hk, htag, if_neg htable, if_true] <;> rfl
  rw [hdraft]
  rcases hkind with hk | hk
  · have hflat : w.flatText? = none := flatText?_of_holdsText
      (by simpa [Html.Token.anchorStays, Html.Token.isNamed, hk, hname] using hstays)
    rw [hk]
    simp only [anchor, openAnchor, hflat, beq_self_eq_true, if_true, ite_self]
    simp [Html.Token.anchorsBehind, Html.Token.isNamed, hk, hname]
    rfl
  · obtain ⟨n, rfl⟩ : ∃ n, depth = n + 1 := Nat.exists_eq_succ_of_ne_zero
      (by simpa [Html.Token.anchorStays, Html.Token.isNamed, hk, hname] using hstays)
    rw [hk]
    simp [Html.Token.anchorsBehind, Html.Token.isNamed, hk, hname]
    rfl

theorem anchorsBehind_of_name (h : t.name ≠ some "a") (depth : Nat) :
    t.anchorsBehind depth = depth := by
  simp [Html.Token.anchorsBehind, Html.Token.isNamed, h]

theorem anchorsBehind_of_kind (hstart : t.kind ≠ .startTag) (hend : t.kind ≠ .endTag)
    (depth : Nat) : t.anchorsBehind depth = depth := by
  simp [Html.Token.anchorsBehind, Html.Token.isNamed, hstart, hend]

theorem tag_unmarked (hname : w.token.name = some name)
    (hrole : name = "a" ∨ Html.roleOf name = .bareLink ∨
      Html.roleOf name = .other ∧ Html.hasMarkdown name = false)
    (hkind : w.token.kind = .startTag ∨ w.token.kind = .endTag)
    (hfull : Html.roleOf name ≠ .bareLink → w.isEmptyPair name = false)
    (hstays : w.token.anchorStays depth w.after = true) :
    ∃ notices, tag {} w (inAnchors depth) = .ok
      { context := inAnchors (w.token.anchorsBehind depth), produced := draftOf w.token,
        notices } := by
  obtain rfl : w.token.tagName = name := by simp [Html.Token.tagName, hname]
  rcases hrole with hanchor | hbare | ⟨hother, hmark⟩
  · have hrole : Html.roleOf w.token.tagName = .anchor := by
      rw [hanchor]
      decide
    rw [tag_of_content hname (hfull (by simp [hrole]))]
    simp only [pairedTag, hrole]
    rw [hanchor] at hname
    exact ⟨[], anchor_stays hname hkind hstays⟩
  · have hlink : autolink {} w.token (inAnchors depth) =
        .emit (inAnchors depth) (draftOf w.token) := by
      rw [autolink_eq, draftOf_bareLink hbare hkind]
    refine ⟨[], ?_⟩
    rw [anchorsBehind_of_name]
    cases hempty : w.isEmptyPair w.token.tagName with
    | true =>
      rw [tag_of_emptyPair hname hempty, emptyPair,
        if_pos (Html.isBareLink_of_roleOf hbare), hlink]
      rfl
    | false =>
      rw [tag_of_content hname hempty]
      simp only [pairedTag, hbare, hlink]
      rfl
    · rw [hname]
      rintro h
      rw [Option.some.inj h] at hbare
      exact absurd hbare (by decide)
  · rw [tag_of_content hname (hfull (by simp [hother]))]
    simp only [pairedTag, hother]
    rw [anchorsBehind_of_name]
    · exact otherTag_unmarked hother hmark hkind
    · rw [hname]
      rintro h
      rw [Option.some.inj h] at hother
      exact absurd hother (by decide)

end Tags

theorem draftOf_characters (hk : t.kind = .characters) :
    draftOf t = textTokens (Text.flowChars false t.content.toList) := by
  unfold draftOf Html.Token.drafted?
  simp only [hk]
  split_ifs with hflow
  · rw [hflow]
    rfl
  · rfl

theorem draftOf_comment (hk : t.kind = .comment) : draftOf t = [.html t] := by
  unfold draftOf Html.Token.drafted?
  simp only [hk]
  rfl

/-- A void tag without any rule is left out, and so is an image without an address. -/
theorem emptyTag_unmarked (hk : t.kind = .emptyTag) (h : t.isUnmarked = true) (last : Option Token)
    (ctx : Context) : ∃ notices, emptyTag {} t last ctx = { context := ctx, notices } := by
  simp only [Html.Token.isUnmarked, hk, Bool.or_eq_true, Bool.and_eq_true, beq_iff_eq,
    Option.isNone_iff_eq_none, Bool.not_eq_true'] at h
  unfold emptyTag
  obtain ⟨himage, hsource⟩ | hother := h
  · refine ⟨[.imageWithoutSource], ?_⟩
    dsimp only
    rw [if_pos himage, image, hsource]
    rfl
  · simp only [List.contains_cons, Bool.or_eq_false_iff, beq_eq_false_iff_ne] at hother
    obtain ⟨himage, hbreak, hrule, htable, hpart⟩ := hother
    refine ⟨[.droppedElement t.tagName], ?_⟩
    dsimp only
    rw [if_neg himage, if_neg hbreak, if_neg hrule, isPassthrough_eq_false htable hpart,
      if_neg Bool.false_ne_true]
    rfl

theorem ordinary_unmarked (hunmarked : w.token.isUnmarked = true)
    (hspace : w.token.kind ≠ .spaceCharacters)
    (hfull : ∀ name ∈ w.token.name, Html.roleOf name ≠ .bareLink → w.isEmptyPair name = false)
    (hstays : w.token.anchorStays depth w.after = true) (last : Option Token) :
    ∃ notices, ordinary {} w last (inAnchors depth) = .ok
      { context := inAnchors (w.token.anchorsBehind depth), produced := draftOf w.token,
        notices } := by
  have htag (hkind : w.token.kind = .startTag ∨ w.token.kind = .endTag)
      (hnamed : w.token.name.any (fun name => name == "a" || Html.roleOf name == .bareLink ||
        Html.roleOf name == .other && !Html.hasMarkdown name) = true) :
      ∃ notices, tag {} w (inAnchors depth) = .ok
        { context := inAnchors (w.token.anchorsBehind depth), produced := draftOf w.token,
          notices } := by
    obtain ⟨name, hname, hrole⟩ := (Option.any_eq_true _ _).mp hnamed
    exact tag_unmarked hname (by simpa [or_assoc] using hrole) hkind (hfull name hname) hstays
  have hdepth (hstart : w.token.kind ≠ .startTag) (hend : w.token.kind ≠ .endTag) :
      w.token.anchorsBehind depth = depth := anchorsBehind_of_kind hstart hend depth
  unfold ordinary
  cases hk : w.token.kind with
  | startTag => exact htag (.inl hk) (by simpa only [Html.Token.isUnmarked, hk] using hunmarked)
  | endTag => exact htag (.inr hk) (by simpa only [Html.Token.isUnmarked, hk] using hunmarked)
  | characters =>
    rw [hdepth (by simp [hk]) (by simp [hk]), draftOf_characters hk]
    exact ⟨[], rfl⟩
  | comment =>
    rw [hdepth (by simp [hk]) (by simp [hk]), draftOf_comment hk]
    exact ⟨[], rfl⟩
  | spaceCharacters => exact absurd hk hspace
  | emptyTag =>
    have hdraft : draftOf w.token = [] := by simp [draftOf, Html.Token.drafted?, hk]
    rw [hdepth (by simp [hk]) (by simp [hk]), hdraft]
    obtain ⟨notices, hdropped⟩ := emptyTag_unmarked hk hunmarked last (inAnchors depth)
    exact ⟨notices, congrArg Except.ok hdropped⟩
  | doctype | parseError =>
    have hdraft : draftOf w.token = [] := by simp [draftOf, Html.Token.drafted?, hk]
    rw [hdepth (by simp [hk]) (by simp [hk]), hdraft]
    exact ⟨_, rfl⟩

theorem stamped_zero (ts : List Token) : stamped 0 ts = ts := by
  have hsame (t : Token) : t.within (some 0) = t := by
    unfold Token.within
    split
    · rfl
    · next h => cases t; cases h; rfl
  rw [stamped, List.map_congr_left fun t _ => hsame t, List.map_id']

/-- Outside of everything but anchors a token leads to its ordinary reaction. -/
theorem produces_ordinary {o : Options} {us : List Token} {depth' : Nat}
    (hcontext : s.context = inAnchors depth)
    (h : ∃ notices, ordinary o (s.window t rest) s.emitted.head? (inAnchors depth) =
      .ok { context := inAnchors depth', produced := us, notices }) :
    Produces o rest s [t] us (inAnchors depth') := by
  obtain ⟨notices, hreaction⟩ := h
  have hregion : s.context.region o = .ordinary := by
    rw [hcontext]
    exact Context.region_eq_ordinary_iff.mpr ⟨by simp [inAnchors], rfl⟩
  have hreact : react o (s.window t ([] ++ rest)) s.emitted.head? s.context =
      .ok { context := inAnchors depth', produced := us, notices } := by
    rw [react_of_ordinary hregion, hcontext]
    exact hreaction
  exact ⟨_, .cons hreact (.nil _), rfl, congrArg (List.reverse · ++ s.emitted) (stamped_zero us)⟩

theorem isEmptyPair_of_not_embraces (hbefore : ∀ b ∈ s.before, b.embraces t = false)
    (hafter : ∀ u ∈ rest.head?, t.embraces u = false) (hname : t.name = some name)
    (hrole : Html.roleOf name ≠ .bareLink) : (s.window t rest).isEmptyPair name = false := by
  have hpair {t u : Html.Token} (hname : t.name = some name)
      (hnot : t.embraces u = false) (hk : t.kind = .startTag) :
      ¬(u.kind = .endTag ∧ u.name = some name) := fun hend => by
    rw [Html.Token.embraces_iff.mpr ⟨hk, hend.1, name, hname, hend.2, hrole⟩] at hnot
    cases hnot
  unfold Window.isEmptyPair State.window
  split
  · next hk =>
    by_contra hempty
    obtain ⟨u, hu, hend⟩ := (Option.any_eq_true _ _).mp (eq_true_of_ne_false hempty)
    exact hpair hname (hafter u hu) hk (by simpa [Html.Token.isNamed] using hend)
  · next hk =>
    by_contra hempty
    obtain ⟨b, hb, hstart⟩ := (Option.any_eq_true _ _).mp (eq_true_of_ne_false hempty)
    obtain ⟨hbkind, hbname⟩ : b.kind = .startTag ∧ b.name = some name := by
      simpa [Html.Token.isNamed] using hstart
    exact hpair hbname (hbefore b hb) hbkind ⟨hk, hname⟩
  · rfl

/-- The output ends as it should behind what stands in front; `free` when no gap stands there. -/
def State.Ends (s : State) (free : Bool) : Front → Prop
  | .start => s.emitted = []
  | .behind none => ∃ z ∈ s.emitted.head?, z.Inline
  | .behind (some due) => free = true → due = .blank ∧ s.emitted.head? = some .endBlock

end Conversion

def Front.Apart {α : Type} (free : Bool) (cs : List (Chunk α)) : Front → Prop
  | .start => Chunk.gapsApart true (cs.dropWhile Chunk.isGap) = true
  | .behind _ => Chunk.gapsApart free cs = true

theorem Front.Apart.next {α : Type} {free : Bool} {c : Chunk α} {cs : List (Chunk α)}
    {front : Front} (h : front.Apart free (c :: cs)) : (front.next c).Apart (!c.isGap) cs := by
  cases front with
  | start => cases c <;> exact h
  | behind due => cases c <;> exact ((Bool.and_eq_true _ _).mp h).2

namespace Conversion

open Markdown (Token Compact)

variable {w : Window} {s s' : State} {rest ts us : List Html.Token} {t : Html.Token}
  {c : Chunk (List Token)} {cs : List (Chunk (List Token))} {front : Front} {free : Bool}
  {ctx : Context} {depth : Nat}

theorem State.Ends.of_emitted (h : s.Ends free front) (hemitted : s'.emitted = s.emitted) :
    s'.Ends free front := by
  cases front with
  | start => exact hemitted.trans h
  | behind due =>
    cases due <;>
    · unfold State.Ends at h ⊢
      rwa [hemitted]

theorem State.Ends.next (h : s.Ends free front) (hcompact : ∀ us ∈ c.content?, Compact us)
    (hemitted : s'.emitted = (c.drafted front).reverse ++ s.emitted) :
    s'.Ends (!c.isGap) (front.next c) := by
  have hlast {us : List Token} (hus : us.getLast?.isSome = true) :
      (us.reverse ++ s.emitted).head? = us.getLast? := by
    rw [List.head?_append, List.head?_reverse, Option.or_of_isSome hus]
  cases c with
  | run us =>
    obtain ⟨z, hz, hinline⟩ := (hcompact us rfl).last
    have hends : ∃ z ∈ s'.emitted.head?, z.Inline := by
      refine ⟨z, ?_, hinline⟩
      rw [hemitted, Chunk.drafted, hlast (by simp [Option.mem_def.mp hz])]
      exact hz
    cases front <;> exact hends
  | gap g =>
    cases front with
    | start => exact hemitted.trans h
    | behind due => cases due <;> exact fun hfree => by cases hfree
  | opens us =>
    obtain ⟨z, hz, hinline⟩ := (hcompact us rfl).last
    have hends : ∃ z ∈ s'.emitted.head?, z.Inline := by
      refine ⟨z, ?_, hinline⟩
      rw [hemitted, Chunk.drafted, hlast (by simp [List.getLast?_cons, Option.mem_def.mp hz])]
      simp [List.getLast?_cons, Option.mem_def.mp hz]
    cases front <;> exact hends
  | closes us =>
    have hends : s'.emitted.head? = some .endBlock := by
      rw [hemitted, Chunk.drafted, List.reverse_append]
      rfl
    cases front <;> exact fun _ => ⟨rfl, hends⟩

theorem produces_space (hcontext : s.context = inAnchors depth) (hends : s.Ends true front)
    (hk : t.kind = .spaceCharacters) : Produces {} rest s [t]
      (Chunk.drafted front (.gap (Gap.ofText t.content))) (inAnchors depth) := by
  have hspace {d : Disposition} {us : List Token}
      (hsettle : settleSpace t s.emitted.head? false false = d)
      (hd : d = .drop ∧ us = [] ∨ ∃ u, d = .push u ∧ us = [u]) :
      Produces {} rest s [t] us (inAnchors depth) := by
    refine produces_ordinary hcontext ⟨[], ?_⟩
    have hkind : (s.window t rest).token.kind = .spaceCharacters := hk
    unfold ordinary
    rw [hkind]
    have hkept : settleSpace t s.emitted.head? (decide (0 < (inAnchors depth).sensitive))
        (inAnchors depth).inList = d := hsettle
    change Except.ok (spaceCharacters t s.emitted.head? (inAnchors depth)) = _
    rw [spaceCharacters, hkept]
    obtain ⟨rfl, rfl⟩ | ⟨u, rfl, rfl⟩ := hd <;> rfl
  cases front with
  | start =>
    have hnone : s.emitted = [] := hends
    exact hspace (by rw [hnone]; rfl) (.inl ⟨rfl, rfl⟩)
  | behind due =>
    cases due with
    | none =>
      obtain ⟨z, hz, hinline⟩ := hends
      exact hspace (by rw [Option.mem_def.mp hz]; exact hinline.settleSpace_eq t)
        (.inr ⟨_, rfl, rfl⟩)
    | some due =>
      obtain ⟨rfl, hend⟩ := hends rfl
      exact hspace (by rw [hend]; rfl) (.inr ⟨_, rfl, rfl⟩)

/-- One token is converted to its chunk, behind what stands in front. -/
theorem produces_token (hunmarked : t.isUnmarked = true) (hcontext : s.context = inAnchors depth)
    (hstays : t.anchorStays depth rest = true)
    (hbefore : ∀ b ∈ s.before, b.embraces t = false)
    (hafter : ∀ u ∈ rest.head?, t.embraces u = false)
    (hends : t.kind = .spaceCharacters → s.Ends true front) :
    Produces {} rest s [t] ((t.drafted?.map (Chunk.drafted front)).getD [])
      (inAnchors (t.anchorsBehind depth)) := by
  by_cases hk : t.kind = .spaceCharacters
  · have hgap : t.drafted? = some (.gap (Gap.ofText t.content)) := by
      simp only [Html.Token.drafted?, hk]
    rw [hgap, anchorsBehind_of_kind (by simp [hk]) (by simp [hk])]
    exact produces_space hcontext (hends hk) hk
  · have hsame : (t.drafted?.map (Chunk.drafted front)).getD [] = draftOf t := by
      unfold draftOf
      cases hdrafted : t.drafted? with
      | none => rfl
      | some c =>
        cases c with
        | gap g => exact absurd (Html.Token.kind_of_drafted? hdrafted) hk
        | _ => rfl
    rw [hsame]
    exact produces_ordinary hcontext (ordinary_unmarked hunmarked hk
      (fun name hname hrole => isEmptyPair_of_not_embraces hbefore hafter hname hrole) hstays _)

/-- A tag of an element with nothing in it is left out. -/
theorem produces_emptyTag {name : String} (hcontext : s.context = inAnchors depth)
    (hname : t.name = some name)
    (hkind : t.kind = .startTag ∨ t.kind = .endTag)
    (hempty : (s.window t rest).isEmptyPair name = true) (hbare : Html.isBareLink name = false) :
    Produces {} rest s [t] [] (inAnchors depth) := by
  have htag : tag {} (s.window t rest) (inAnchors depth) =
      .ok (.remark (inAnchors depth) (.emptyElement name)) := by
    rw [tag_of_emptyPair hname hempty, emptyPair, hbare]
    rfl
  have hwindow : (s.window t rest).token = t := rfl
  refine produces_ordinary hcontext ⟨[.emptyElement name], ?_⟩
  unfold ordinary
  rcases hkind with hk | hk <;> rw [hwindow, hk] <;> exact htag

theorem produces_embraced {u : Html.Token} (hcontext : s.context = inAnchors depth)
    (hunmarked : t.isUnmarked = true) (hpair : t.embraces u = true) :
    Produces {} rest s [t, u] [] (inAnchors depth) := by
  obtain ⟨htkind, hukind, name, hname, huname, hrole⟩ := Html.Token.embraces_iff.mp hpair
  have hother : name = "a" ∨ Html.roleOf name = .other := by
    simp [Html.Token.isUnmarked, htkind, hname, hrole] at hunmarked
    exact hunmarked.imp_right And.left
  have hbare : Html.isBareLink name = false := by
    by_contra hbare
    obtain h | ⟨level, h⟩ := Html.roleOf_of_isBareLink (eq_true_of_ne_false hbare)
    · exact hrole h
    · rcases hother with rfl | hother
      · cases h
      · rw [hother] at h
        cases h
  have hopen : Produces {} (u :: rest) s [t] [] (inAnchors depth) :=
    produces_emptyTag hcontext hname (.inl htkind)
      (by simp [Window.isEmptyPair, State.window, htkind, Html.Token.isNamed, hukind, huname]) hbare
  change Produces {} rest s ([t] ++ [u]) ([] ++ []) (inAnchors depth)
  refine hopen.append fun s' hs' _ hbefore => ?_
  refine produces_emptyTag hs' huname (.inr hukind) ?_ hbare
  have hb : s'.before = some t := hbefore
  simp [Window.isEmptyPair, State.window, hukind, hb, Html.Token.isNamed, htkind, hname]

def drafts (ts : List Html.Token) : List (Chunk (List Token)) :=
  (Html.withoutEmpty ts).filterMap Html.Token.drafted?

theorem State.Ends.of_isGap (h : s.Ends free front) (hapart : front.Apart free (c :: cs))
    (hgap : c.isGap = true) : s.Ends true front := by
  cases front with
  | start => exact h
  | behind due =>
    have hfree : free = true := by
      have hhead := ((Bool.and_eq_true _ _).mp hapart).1
      simpa [hgap] using hhead
    rwa [hfree] at h

theorem produces_cons (hunmarked : t.isUnmarked = true) (hcontext : s.context = inAnchors depth)
    (hstays : t.anchorStays depth ts = true)
    (hbefore : ∀ b ∈ s.before, b.embraces t = false) (hafter : ∀ u ∈ ts.head?, t.embraces u = false)
    (hends : s.Ends free front)
    (hapart : front.Apart free ((t :: us).filterMap Html.Token.drafted?))
    (ih : ∀ s' : State, ∀ front' free', s'.context = inAnchors (t.anchorsBehind depth) →
      s'.before = some t → s'.Ends free' front' →
        front'.Apart free' (us.filterMap Html.Token.drafted?) →
          Produces {} [] s' ts (draft front' (us.filterMap Html.Token.drafted?)) ctx) :
    Produces {} [] s (t :: ts) (draft front ((t :: us).filterMap Html.Token.drafted?)) ctx := by
  have hone (hspace : t.kind = .spaceCharacters → s.Ends true front) :
      Produces {} (ts ++ []) s [t] ((t.drafted?.map (Chunk.drafted front)).getD [])
        (inAnchors (t.anchorsBehind depth)) :=
    produces_token hunmarked hcontext (by rwa [List.append_nil]) hbefore
      (by rwa [List.append_nil]) hspace
  cases hdrafted : t.drafted? with
  | none =>
    have hkind : t.kind ≠ .spaceCharacters := fun hk => by
      simp [Html.Token.drafted?, hk] at hdrafted
    rw [hdrafted] at hone
    rw [List.filterMap_cons_none hdrafted] at hapart ⊢
    exact (hone fun hk => absurd hk hkind).append fun s' hs' hemitted hbefore' =>
      ih s' front free hs' hbefore' (hends.of_emitted hemitted) hapart
  | some c =>
    rw [List.filterMap_cons_some hdrafted] at hapart ⊢
    have hspace (hk : t.kind = .spaceCharacters) : s.Ends true front := by
      refine hends.of_isGap hapart ?_
      simp only [Html.Token.drafted?, hk] at hdrafted
      cases hdrafted
      rfl
    rw [hdrafted] at hone
    exact (hone hspace).append fun s' hs' hemitted hbefore' => ih s' _ _ hs' hbefore'
      (hends.next (fun us hus => (Html.Token.content_of_drafted? hdrafted us hus).compact)
        hemitted) hapart.next

/-- A pair of tags leaves as many anchors open as it finds. -/
theorem anchorsStay_of_embraces {u : Html.Token} (hpair : t.embraces u = true)
    (h : Html.anchorsStay depth (t :: u :: ts) = true) :
    Html.anchorsStay depth ts = true ∧
      u.anchorsBehind (t.anchorsBehind depth) = depth := by
  obtain ⟨htkind, hukind, name, hname, huname, -⟩ := Html.Token.embraces_iff.mp hpair
  have hbehind : u.anchorsBehind (t.anchorsBehind depth) = depth := by
    by_cases hanchor : name = "a" <;>
      simp [Html.Token.anchorsBehind, Html.Token.isNamed, htkind, hukind, hname, huname, hanchor]
  rw [Html.anchorsStay, Html.anchorsStay, hbehind, Bool.and_eq_true, Bool.and_eq_true] at h
  exact ⟨h.2.2, hbehind⟩

/-- From where a stream begins on, its tokens produce its chunks. -/
theorem produces_unmarked (hunmarked : ∀ t ∈ ts, t.isUnmarked = true)
    (hcontext : s.context = inAnchors depth) (hstays : Html.anchorsStay depth ts = true)
    (hbefore : ∀ b ∈ s.before, ∀ t ∈ ts.head?, b.embraces t = false)
    (hends : s.Ends free front) (hapart : front.Apart free (drafts ts)) :
    Produces {} [] s ts (draft front (drafts ts))
      (inAnchors (ts.foldl Html.Token.anchorsBehind depth)) := by
  unfold drafts at hapart ⊢
  fun_induction Html.withoutEmpty ts generalizing s front free depth with
  | case1 => exact .nil hcontext
  | case2 t =>
    exact produces_cons (hunmarked t List.mem_cons_self) hcontext
      ((Bool.and_eq_true _ _).mp hstays).1 (fun b hb => hbefore b hb t rfl)
      (fun _ hu => by cases hu) hends hapart fun s' _ _ hs' _ _ _ => .nil hs'
  | case3 t u ts hpair ih =>
    obtain ⟨ht, hrest⟩ := List.forall_mem_cons.mp hunmarked
    obtain ⟨hstays, hbehind⟩ := anchorsStay_of_embraces hpair hstays
    have hend (v : Html.Token) : u.embraces v = false := by
      by_contra hpair'
      have hk := (Html.Token.embraces_iff.mp hpair).2.1
      rw [(Html.Token.embraces_iff.mp (eq_true_of_ne_false hpair')).1] at hk
      cases hk
    rw [List.foldl_cons, List.foldl_cons, hbehind]
    have hpassed : Produces {} (ts ++ []) s [t, u] [] (inAnchors depth) :=
      produces_embraced hcontext ht hpair
    refine hpassed.append fun s' hs' hemitted hbefore' =>
      ih (fun v hv => hrest v (List.mem_cons_of_mem u hv)) hs' hstays (fun b hb v _ => ?_)
        (hends.of_emitted hemitted) hapart
    obtain rfl : u = b := Option.some.inj (hbefore'.symm.trans hb)
    exact hend v
  | case4 t u ts hpair ih =>
    obtain ⟨ht, hrest⟩ := List.forall_mem_cons.mp hunmarked
    obtain ⟨hstay, hstays⟩ := (Bool.and_eq_true _ _).mp hstays
    have hapart' : t.embraces u = false := eq_false_of_ne_true hpair
    refine produces_cons ht hcontext hstay (fun b hb => hbefore b hb t rfl)
      (fun v hv => Option.some.inj hv ▸ hapart') hends hapart
      fun s' front' free' hs' hb hends' hfront =>
        ih hrest hs' hstays (fun b hb' v hv => ?_) hends' hfront
    obtain rfl : t = b := Option.some.inj (hb.symm.trans hb')
    obtain rfl : u = v := Option.some.inj hv
    exact hapart'

/-- What is written for a stream is what it comes to, rendered. -/
theorem chunks_eq (ts : List Html.Token) :
    Html.chunks ts = (drafts ts).map (Chunk.map (Markdown.renderChars none)) := by
  rw [drafts, List.map_filterMap, Html.chunks]
  exact congrArg (List.filterMap · _) (funext Html.Token.chunk?_eq)

theorem apart_drafts (h : Html.Unmarked ts) : Front.start.Apart true (drafts ts) := by
  have hgaps := h.gaps
  have hsame : Chunk.isGap ∘ Chunk.map (Markdown.renderChars none) = Chunk.isGap :=
    funext (Chunk.isGap_map _)
  rwa [chunks_eq, List.dropWhile_map, Chunk.gapsApart_map, hsame] at hgaps

theorem Produces.convert_eq {o : Options} {us : List Token}
    (h : Produces o [] {} ts us (inAnchors depth)) : convert o ts = .ok us := by
  obtain ⟨s, hs, hcontext, hemitted⟩ := h
  have hreferences : s.context.references.isEmpty = true := by
    rw [hcontext]
    rfl
  rw [hs.convert_eq, State.finished, if_pos hreferences, hemitted]
  simp

theorem convert_unmarked (h : Html.Unmarked ts) :
    convert {} ts = .ok (draft .start (drafts ts)) := by
  have hends : ({} : State).Ends true .start := rfl
  have houtside : ({} : State).context = inAnchors 0 := rfl
  exact (produces_unmarked h.unmarked houtside h.anchors (fun _ hb => by cases hb) hends
    (apart_drafts h)).convert_eq

end Conversion

end HtmlMarkdown
