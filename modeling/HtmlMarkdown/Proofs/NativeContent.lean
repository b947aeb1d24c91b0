import HtmlMarkdown.Proofs.CodeRegions
import HtmlMarkdown.Proofs.Walls

/-!
# The pass in a native element

A native element that holds nothing but code gives way to a block of code: its start is taken back
when the code opens, and its end is to be dropped. In any other native element the pass only adds to
its output, and every region of code is inline.
-/

namespace HtmlMarkdown.Markdown

def isNative : Mark → Bool
  | .native _ => true
  | _ => false

def nativeEdge? (t : Token) : Option (Edge × Mark) := t.edge?.filter (isNative ·.2)

/-- The code that comes first in a native element is a block. -/
def givesWay (out : List Token) (start : Token) (rest : List Token) : Bool :=
  rest.head?.any (·.hasTag .startCode) &&
    (CodeRegion.classify (start :: settle 2 start.quoteDepth out) rest).kind == .block

variable {inner body back ts rest after out kept : List Token} {t c start stop : Token} {s : Spacer}
  {before : Option Token} {opened : OpenCode} {edge : Edge} {name : Option String}

section Reading

theorem Token.node_of_native (h : t.edge? = some (edge, .native name)) :
    ∃ raw, t.node = .native edge raw ∧ raw.name = name := by
  obtain ⟨node, depth, flag⟩ := t
  cases node with
  | markdown tag data => cases tag <;> simp [edge?] at h
  | native edge' raw =>
    simp only [edge?, Option.some.injEq, Prod.mk.injEq, Mark.native.injEq] at h
    exact ⟨raw, by rw [h.1], h.2⟩
  | html raw => simp [edge?] at h

theorem Token.tag?_of_opening (h : t.edge? = some (.opening, .native name)) :
    t.tag? = some .startNativeBlock := by
  obtain ⟨raw, hnode, -⟩ := node_of_native h
  simp [tag?, hnode]

theorem Token.tag?_of_closing (h : t.edge? = some (.closing, .native name)) :
    t.tag? = some .endNativeBlock := by
  obtain ⟨raw, hnode, -⟩ := node_of_native h
  simp [tag?, hnode]

theorem Token.edge?_of_endCode (h : t.tag? = some .endCode) :
    t.edge? = some (.closing, .code) := by
  obtain ⟨node, depth, flag⟩ := t
  cases node with
  | markdown tag data =>
    obtain rfl := Option.some.inj h
    rfl
  | native edge raw => cases edge <;> cases h
  | html raw => cases h

theorem nativeEdge?_of_notNative (h : t.NotNative) : nativeEdge? t = none := by
  obtain ⟨node, depth, flag⟩ := t
  cases node with
  | markdown tag data => cases tag <;> rfl
  | native edge raw =>
    cases edge with
    | opening => exact absurd rfl h.start
    | closing => exact absurd rfl h.stop
  | html raw => rfl

theorem nativeEdge?_of_native (h : t.edge? = some (edge, .native name)) :
    nativeEdge? t = some (edge, .native name) := by
  rw [nativeEdge?, h]
  rfl

/-- A token is a native edge or has no such tag. -/
theorem Token.IsProper.cases (h : t.IsProper) :
    t.NotNative ∨ ∃ edge name, t.edge? = some (edge, .native name) := by
  refine h.imp_right ?_
  rintro ⟨edge, raw, hnode, -⟩
  exact ⟨edge, raw.name, by simp [edge?, hnode]⟩

/-- A proper token with the tag of a native end closes a native element. -/
theorem Token.IsProper.edge?_of_end (h : t.IsProper) (ht : t.tag? = some .endNativeBlock) :
    ∃ name, t.edge? = some (.closing, .native name) := by
  obtain hnot | ⟨edge, name, hedge⟩ := h.cases
  · exact absurd ht hnot.stop
  · cases edge with
    | opening => simp [Token.tag?_of_opening hedge] at ht
    | closing => exact ⟨name, hedge⟩

theorem blind_nativeEdge? : Blind nativeEdge? where
  node t u h := by
    unfold nativeEdge? Token.edge?
    rw [h]
  whitespace t tag ht hw := by
    have hspace : t.tagIs Tag.isWhitespace = true := by simp [Token.tagIs, ht, hw]
    rw [nativeEdge?, Token.edge?_of_isWhitespace hspace]
    rfl
  mark t tag _ _ hraw := by
    obtain ⟨node, depth, flag⟩ := t
    cases node with
    | markdown tag data => cases tag <;> rfl
    | native edge raw => cases hraw
    | html raw => cases hraw
  delimiter := rfl
  rawNewlines t ht := by
    obtain ⟨node, depth, flag⟩ := t
    cases node with
    | html raw => rfl
    | _ => cases ht

/-- The space that a block of code ends with is no native edge: these stand for tags. -/
theorem nativeEdge?_of_isCodeSpace (h : t.IsProper) (ht : Spacer.isCodeSpace t = true) :
    nativeEdge? t = none := by
  rcases h with h | ⟨edge, raw, hnode, htag⟩
  · exact nativeEdge?_of_notNative h
  · simp only [Spacer.isCodeSpace, Token.raw?, hnode, Option.any_some, Bool.and_eq_true,
      beq_iff_eq] at ht
    simp [Html.Token.isTag, ht.2] at htag

theorem innate_isProper : Innate Token.IsProper where
  node t u h ht := by
    have htag : u.tag? = t.tag? := by
      unfold Token.tag?
      rw [h]
    refine ht.imp (fun hn => ⟨htag ▸ hn.start, htag ▸ hn.stop⟩) ?_
    rw [h]
    exact id
  newline := .inl ⟨by decide, by decide⟩
  newlineBlank := .inl ⟨by decide, by decide⟩
  delimiter := .inl ⟨by decide, by decide⟩

theorem Innate.advance {P : Token → Prop} (h : Innate P) (hts : ∀ t ∈ ts, P t)
    (hout : ∀ u ∈ s.output, P u) (before : Option Token) (rest : List Token) :
    ∀ u ∈ (s.advance before ts rest).output, P u := by
  induction ts generalizing s before with
  | nil => exact hout
  | cons t ts ih =>
    obtain ⟨ht, hts⟩ := List.forall_mem_cons.mp hts
    exact ih hts (h.step ht before (ts ++ rest) hout) (some t)

/-- A word is bracketed in some of its marks if it is in all of them. -/
theorem scan_filter (p : Mark → Bool) {ms ms' : List Mark} {w : List (Edge × Mark)}
    (h : scan ms w = some ms') :
    scan (ms.filter p) (w.filter (p ·.2)) = some (ms'.filter p) := by
  induction w generalizing ms with
  | nil =>
    obtain rfl := Option.some.inj h
    rfl
  | cons e w ih =>
    obtain ⟨edge, m⟩ := e
    rw [List.filter_cons]
    cases edge with
    | opening =>
      have hw := ih (show scan (m :: ms) w = some ms' from h)
      rw [List.filter_cons] at hw
      dsimp only
      split_ifs at hw ⊢ with hm
      · exact hw
      · exact hw
    | closing =>
      cases ms with
      | nil => cases h
      | cons m' ms =>
        simp only [scan] at h
        split_ifs at h with heq
        subst heq
        have hw := ih h
        rw [List.filter_cons]
        dsimp only
        split_ifs with hm
        · rwa [scan, if_pos rfl]
        · exact hw

end Reading

section Content

theorem Token.IsContent.isNewline (h : t.IsContent) : t.isNewline = false := by
  rcases h with h | h | h <;> simp [Token.isNewline, Token.tagIs, h, Tag.isNewline]

/-- A region behind a token that is neither a newline nor a native edge is no block. -/
theorem behind_of_notNative (h : t.NotNative) (hn : t.isNewline = false) (out : List Token) :
    CodeRegion.behind (t :: out) = none := by
  have hpre : t.isNativePre .startNativeBlock = false := by
    simp [Token.isNativePre, Token.hasTag, h.start]
  simp [CodeRegion.behind, pastNewlines, hn, hpre]

theorem classify_of_behind (h : CodeRegion.behind out = none) (ts : List Token) :
    (CodeRegion.classify out ts).kind = .inline := by
  unfold CodeRegion.classify
  rw [h]
  split <;> rfl

theorem CodeKind.eq_inline {kind : CodeKind} (h : kind ≠ .block) : kind = .inline := by
  cases kind with
  | block => exact absurd rfl h
  | inline => rfl

/-- In a native element that stays, the pass has written behind its start and adds to that. No code
is a block. -/
structure Mute (kept : List Token) (s : Spacer) : Prop where
  drop : s.dropNativeEnd = false
  inline : ∀ opened ∈ s.code, opened.kind = .inline
  blocked : CodeRegion.behind s.output = none
  output : ∃ later, s.output = later ++ kept ∧ ∀ u ∈ later, u.NotNative

namespace Mute

theorem push (hdrop : s.dropNativeEnd = false) (hinline : ∀ opened ∈ s.code, opened.kind = .inline)
    (hout : ∃ later, s.output = later ++ kept ∧ ∀ u ∈ later, u.NotNative) (ht : t.NotNative)
    (hn : t.isNewline = false) : Mute kept (s.push t) := by
  obtain ⟨later, hout, hlater⟩ := hout
  refine ⟨hdrop, hinline, behind_of_notNative ht hn _, t :: later, ?_,
    List.forall_mem_cons.mpr ⟨ht, hlater⟩⟩
  rw [Spacer.push, hout, List.cons_append]

theorem notNative_codeDelimiter (t : Token) :
    (Spacer.codeDelimiter t).NotNative ∧ (Spacer.codeDelimiter t).isNewline = false := by
  have htag : (Spacer.codeDelimiter t).tag? = some .charactersAdded := Token.tag?_within _ _
  refine ⟨⟨by simp [htag], by simp [htag]⟩, Token.isNewline_of_tag htag⟩

theorem openCode (hdrop : s.dropNativeEnd = false)
    (hout : ∃ later, s.output = later ++ kept ∧ ∀ u ∈ later, u.NotNative)
    (hkind : (CodeRegion.classify s.output (t :: after)).kind = .inline) :
    Mute kept (s.openCode t after) := by
  obtain ⟨ht, hn⟩ := notNative_codeDelimiter t
  unfold Spacer.openCode
  dsimp only
  rw [hkind]
  refine push hdrop ?_ hout ht hn
  rintro opened hopened
  obtain rfl := Option.some.inj hopened
  rfl

theorem insideCode (h : Mute kept s) (hcode : s.code = some opened) (ht : t.IsContent) :
    Mute kept (s.insideCode opened t) := by
  have hkind : opened.kind = .inline := h.inline opened hcode
  have hinline (n : Nat) : ∀ opened' ∈ some { opened with depth := n }, opened'.kind = .inline := by
    rintro opened' hopened
    obtain rfl := Option.some.inj hopened
    exact hkind
  obtain ⟨hd, hn⟩ := notNative_codeDelimiter t
  unfold Spacer.insideCode
  split
  · exact ⟨h.drop, hinline _, h.blocked, h.output⟩
  · split
    · rw [hkind]
      exact push h.drop (by simp) h.output hd hn
    · exact ⟨h.drop, hinline _, h.blocked, h.output⟩
  · rw [hkind]
    exact push h.drop h.inline h.output ht.notNative ht.isNewline

theorem step (h : Mute kept s) (ht : t.IsContent) (before : Option Token) (after : List Token) :
    Mute kept (s.step before t after) := by
  unfold Spacer.step
  split
  · exact ⟨h.drop, h.inline, h.blocked, h.output⟩
  · split
    · next opened hcode => exact h.insideCode hcode ht
    · rcases ht with htag | htag | htag <;> rw [htag]
      · exact push h.drop h.inline h.output (Token.IsContent.notNative (.inl htag))
          (Token.IsContent.isNewline (.inl htag))
      · exact openCode h.drop h.output (classify_of_behind h.blocked _)
      · exact h

theorem advance (h : Mute kept s) (hts : ∀ t ∈ ts, t.IsContent) (before : Option Token)
    (rest : List Token) : Mute kept (s.advance before ts rest) := by
  induction ts generalizing s before with
  | nil => exact h
  | cons t ts ih =>
    obtain ⟨ht, hts⟩ := List.forall_mem_cons.mp hts
    exact ih (h.step ht before _) hts (some t)

end Mute

/-- Behind the content of a native element that does not give way its start is still there, and its
end is not dropped. -/
theorem advance_stays (hin : ∀ t ∈ inner, t.IsContent)
    (hhead : ∀ t ∈ inner.head?, t.tag? ≠ some .endCode)
    (hstays : givesWay out start (inner ++ stop :: back) = false) (before : Option Token) :
    let s := (Spacer.behind (start :: settle 2 start.quoteDepth out)).advance before inner
      (stop :: back)
    s.dropNativeEnd = false ∧
      ∃ later, s.output = later ++ start :: settle 2 start.quoteDepth out ∧
        ∀ u ∈ later, u.NotNative := by
  cases inner with
  | nil => exact ⟨rfl, [], rfl, List.forall_mem_nil _⟩
  | cons c body =>
    obtain ⟨hc, hbody⟩ := List.forall_mem_cons.mp hin
    have hentered : ∃ later, start :: settle 2 start.quoteDepth out =
        later ++ start :: settle 2 start.quoteDepth out ∧ ∀ u ∈ later, u.NotNative :=
      ⟨[], rfl, List.forall_mem_nil _⟩
    have hfirst : Mute (start :: settle 2 start.quoteDepth out)
        ((Spacer.behind (start :: settle 2 start.quoteDepth out)).step before c
          (body ++ stop :: back)) := by
      rcases hc with htag | htag | htag
      · rw [Spacer.step_of_none htag]
        exact Mute.push (s := .behind _) rfl (by simp [Spacer.behind]) hentered
          (Token.IsContent.notNative (.inl htag)) (Token.IsContent.isNewline (.inl htag))
      · rw [Spacer.step_of_tag htag]
        refine Mute.openCode (s := .behind _) rfl hentered (CodeKind.eq_inline fun hkind => ?_)
        simp [givesWay, Token.hasTag, htag] at hstays
        exact hstays hkind
      · exact absurd htag (hhead c rfl)
    have hmute := hfirst.advance hbody (some c) (stop :: back)
    exact ⟨hmute.drop, hmute.output⟩

/-- A step writes the native edge that its token is, where none gives way to it. -/
theorem nativeEdges_step (hs : s.Foresees (t :: after)) (hproper : ∀ u ∈ s.output, u.IsProper)
    (ht : t.tag? ≠ some .endNativeBlock)
    (hpop : s.code = none → ∀ u ∈ s.output.head?, u.hasTag .startNativeBlock = false)
    (before : Option Token) : (s.step before t after).output.filterMap nativeEdge? =
      (nativeEdge? t).toList ++ s.output.filterMap nativeEdge? := by
  refine blind_nativeEdge?.step hs (fun u hu => nativeEdge?_of_isCodeSpace (hproper u hu))
    (fun hcode _ u hu hnative => ?_) (fun _ _ hend => absurd hend ht) before
  rw [Token.isNativePre, hpop hcode u hu] at hnative
  cases hnative

/-- Up to the end of a region of code the pass writes no native edge and drops none. -/
theorem advance_region (hs : s.Foresees (ts ++ rest)) (hcode : s.code = some opened)
    (hplace : ∀ place ∈ matchingCodeEnd (opened.depth + 1) (ts ++ rest), ts.length ≤ place + 1)
    (hts : ∀ t ∈ ts, t.IsContent) (hproper : ∀ u ∈ s.output, u.IsProper)
    (before : Option Token) :
    (s.advance before ts rest).dropNativeEnd = s.dropNativeEnd ∧
      (s.advance before ts rest).output.filterMap nativeEdge? =
        s.output.filterMap nativeEdge? := by
  induction ts generalizing s opened before with
  | nil => exact ⟨rfl, rfl⟩
  | cons t ts ih =>
    obtain ⟨ht, hts⟩ := List.forall_mem_cons.mp hts
    have hnative := ht.notNative
    have hdrop : (s.step before t (ts ++ rest)).dropNativeEnd = s.dropNativeEnd := by
      unfold Spacer.step
      split
      · rfl
      · rw [hcode]
        dsimp only
        unfold Spacer.insideCode Spacer.closeCode
        split
        · rfl
        · split
          · dsimp only
            split <;> rfl
          · rfl
        · split <;> rfl
    have hedges := nativeEdges_step hs hproper hnative.stop (by simp [hcode]) before
    rw [nativeEdge?_of_notNative hnative, Option.toList_none, List.nil_append] at hedges
    have hproper' := innate_isProper.step (.inl hnative) before (ts ++ rest) hproper
    have hnext := hs.code_step hcode before
    rw [List.cons_append] at hplace
    rw [matchingCodeEnd_next] at hplace
    rw [Spacer.advance, ← hdrop, ← hedges]
    cases hopened : opened.next t with
    | none =>
      -- The region closes here, and no token is left.
      rw [hopened] at hplace
      obtain rfl : ts = [] := List.eq_nil_of_length_eq_zero (by simpa using hplace 0 rfl)
      exact ⟨rfl, rfl⟩
    | some opened' =>
      rw [hopened] at hnext hplace
      refine ih (hs.step before) hnext (fun place hp => ?_) hts hproper' (some t)
      have := hplace (place + 1) (Option.mem_map_of_mem (· + 1) hp)
      simpa using this

def openedBlock (depth : Option Nat) (out : List Token) (c : Token) (after : List Token) :
    Spacer where
  output := Spacer.codeLine c.quoteDepth (settle 2 depth out)
  code := some { kind := .block }
  dropNativeEnd := true
  skipNext := after.head?.any Token.isRawNewlines

/-- A block of code directly behind a native start takes the start away, that of a `<pre>`. -/
theorem CodeRegion.nativeOpen_of_block (hstart : start.tag? = some .startNativeBlock)
    (h : (CodeRegion.classify (start :: out) ts).kind = .block) :
    start.isNativePre .startNativeBlock = true ∧
      (CodeRegion.classify (start :: out) ts).nativeOpen.isSome = true := by
  have hbehind : CodeRegion.behind (start :: out) =
      if start.isNativePre .startNativeBlock then some (some out.length) else none := by
    have hnewline : start.isNewline = false := Token.isNewline_of_tag hstart
    rw [CodeRegion.behind, pastNewlines, hnewline, if_neg Bool.false_ne_true]
  cases hpre : start.isNativePre .startNativeBlock with
  | false =>
    rw [classify_of_behind (by simp [hbehind, hpre])] at h
    cases h
  | true =>
    rw [if_pos hpre] at hbehind
    unfold CodeRegion.classify at h ⊢
    rw [hbehind] at h ⊢
    cases hm : matchingCodeEnd 0 ts with
    | none => simp [hm, CodeRegion.inline] at h
    | some place =>
      cases ha : CodeRegion.ahead (ts.drop (place + 1)) with
      | none => simp [hm, ha, CodeRegion.inline] at h
      | some close => simp [ha]

/-- Content in front of a native end: a block cannot end before it, unless the end comes next. -/
theorem ahead_of_content (hts : ∀ t ∈ ts, t.IsContent) (hstop : stop.tag? = some .endNativeBlock)
    {native : Option Nat} (h : CodeRegion.ahead (ts ++ stop :: back) = some native) :
    ts = [] ∧ native.isSome = true := by
  cases ts with
  | nil =>
    refine ⟨rfl, ?_⟩
    have hnewline : stop.isNewline = false := Token.isNewline_of_tag hstop
    have hend : stop.tagIs Tag.isBlockEnd = false := by simp [Token.tagIs, hstop, Tag.isBlockEnd]
    rw [List.nil_append, CodeRegion.ahead, pastNewlines, hnewline, if_neg Bool.false_ne_true] at h
    simp only [hend, Bool.false_eq_true, if_false] at h
    split_ifs at h
    obtain rfl := Option.some.inj h
    rfl
  | cons t ts =>
    have ht := hts t List.mem_cons_self
    have hnative : t.isNativePre .endNativeBlock = false := by
      simp [Token.isNativePre, Token.hasTag, ht.notNative.stop]
    have hend : t.tagIs Tag.isBlockEnd = false := by
      rcases ht with ht | ht | ht <;> simp [Token.tagIs, ht, Tag.isBlockEnd]
    rw [List.cons_append, CodeRegion.ahead, pastNewlines, ht.isNewline,
      if_neg Bool.false_ne_true] at h
    simp [hnative, hend] at h

theorem Spacer.foresees_behind (out ts : List Token) : (Spacer.behind out).Foresees ts where
  skip := by simp [behind]
  drop := by simp [behind]

/-- Where a native element gives way to code, the code is all that it holds. -/
theorem step_givesWay (hstart : start.tag? = some .startNativeBlock)
    (hstop : stop.tag? = some .endNativeBlock) (hc : c.tag? = some .startCode)
    (hbody : ∀ t ∈ body, t.IsContent)
    (hkind : (CodeRegion.classify (start :: settle 2 start.quoteDepth out)
      (c :: (body ++ stop :: back))).kind = .block)
    (hclosed : (((Spacer.behind (start :: settle 2 start.quoteDepth out)).step (some start) c
      (body ++ stop :: back)).advance (some c) body (stop :: back)).code = none) :
    (Spacer.behind (start :: settle 2 start.quoteDepth out)).step (some start) c
        (body ++ stop :: back) =
      openedBlock start.quoteDepth out c (body ++ stop :: back) ∧
    ∀ place ∈ matchingCodeEnd 1 (body ++ stop :: back), body.length ≤ place + 1 := by
  obtain ⟨-, hopen⟩ := CodeRegion.nativeOpen_of_block hstart hkind
  obtain ⟨_, native, hplace, hahead, hclose⟩ := CodeRegion.ahead_of_block hkind
  obtain ⟨place, rfl, hfound⟩ := matchingCodeEnd_startCode hc hplace
  have hlt : place < body.length := by
    -- Otherwise the region would still be open at the end of the native element.
    by_contra hle
    have hforesees := Spacer.foresees_behind (start :: settle 2 start.quoteDepth out)
      (c :: (body ++ stop :: back))
    have hcode := hforesees.code_step_outside rfl (some start)
    rw [if_pos hc] at hcode
    obtain ⟨n, hn, -⟩ := (hforesees.step (some start)).code_advance hcode (fun place' hplace' => by
      obtain rfl : place = place' := Option.some.inj (hfound.symm.trans hplace')
      omega) (some c)
    rw [hclosed] at hn
    cases hn
  rw [List.drop_succ_cons, List.drop_append_of_le_length hlt] at hahead
  obtain ⟨hnil, hnative⟩ :=
    ahead_of_content (fun t ht => hbody t (List.mem_of_mem_drop ht)) hstop hahead
  rw [hnative] at hclose
  constructor
  · rw [Spacer.step_of_tag hc]
    change (Spacer.behind _).openCode c (body ++ stop :: back) = _
    unfold Spacer.openCode openedBlock
    dsimp only [Spacer.behind]
    rw [hkind]
    simp [hopen, hclose, Token.hasTag, hstart]
  · intro place' hplace'
    obtain rfl : place = place' := Option.some.inj (hfound.symm.trans hplace')
    exact List.drop_eq_nil_iff.mp hnil

end Content

/-- Outside of code the pass leaves out a native end that it is to drop. -/
theorem Spacer.step_dropped (hcode : s.code = none) (hskip : s.skipNext = false)
    (hdrop : s.dropNativeEnd = true) (ht : t.tag? = some .endNativeBlock) (before : Option Token)
    (after : List Token) : s.step before t after = { s with dropNativeEnd := false } := by
  simp [step, hskip, hcode, ht, ordinary, hdrop]

end HtmlMarkdown.Markdown
