import HtmlMarkdown.Proofs.Fixed
import HtmlMarkdown.Proofs.HardBreaks
import HtmlMarkdown.Proofs.Placement

/-!
# The first token that counts

Without code and comments, a conversion begins with white space and block marks, up to the first
token that is `Firm`: one with something on the line that it begins, or a rule, of which only the
whole is known not to be blank. The spacing pass makes white space of what stands in front of that
token, and never takes it back.
-/

namespace HtmlMarkdown

namespace Text

open Markdown (isNewlineChar)

def opensBlank (cs : List Char) : Bool := (cs.takeWhile (· != '\n')).all isWhite

variable {cs ds : List Char} {c : Char}

theorem opensBlank_cons (c : Char) (cs : List Char) :
    opensBlank (c :: cs) = (c == '\n' || isWhite c && opensBlank cs) := by
  unfold opensBlank
  by_cases hc : c = '\n' <;> simp [hc]

/-- Something stands on the first line, behind no newline. -/
theorem opensBlank_of_ink (hds : '\n' ∉ ds) (hc : isWhite c = false) (cs : List Char) :
    opensBlank (ds ++ c :: cs) = false := by
  induction ds with
  | nil =>
    have hne : c ≠ '\n' := by
      rintro rfl
      cases hc
    simp [opensBlank_cons, hc, hne]
  | cons d ds ih =>
    rw [List.mem_cons, not_or] at hds
    simp [opensBlank_cons, ih hds.2, Ne.symm hds.1]

theorem opensBlank_cons_ink (hc : isWhite c = false) (cs : List Char) :
    opensBlank (c :: cs) = false := opensBlank_of_ink List.not_mem_nil hc cs

theorem opensBlank_of_head? (h : cs.head? = some c) (hc : isWhite c = false) :
    opensBlank cs = false := by
  obtain ⟨rest, rfl⟩ := List.head?_eq_some_iff.mp h
  exact opensBlank_cons_ink hc rest

/-- Where something stands on the first line, no newline comes first. -/
theorem dropWhile_of_ink (h : opensBlank cs = false) : cs.dropWhile isNewlineChar = cs := by
  cases cs with
  | nil => rfl
  | cons c cs =>
    refine List.dropWhile_cons_of_neg fun hc => ?_
    rw [opensBlank_cons, show (c == '\n') = true from hc] at h
    cases h

end Text

namespace Markdown

open Text (opensBlank)

def Token.White (t : Token) : Prop :=
  ∃ u ∈ [Token.space, .newline, .newlineHard, .newlineBlank], t.Like u

def Token.Idle (t : Token) : Prop :=
  t.White ∨ t.tagIs Tag.isBlockStart = true ∨ t.tagIs Tag.isBlockEnd = true

/-- Behind the newlines that the text of the token begins with, something stands on the line. Of a
rule only the whole is not blank. -/
inductive Token.Firm (t : Token) : Prop
  | markdown {tag : Tag} {data : String}
      (htag : tag.isInk = true ∨ tag = .headingStart ∨ tag = .listItemStart ∨
        tag = .charactersSplit)
      (hdata : opensBlank (data.toList.dropWhile isNewlineChar) = false)
      (h : t.Like (.markdown tag data))
  | rule {data : String} (hdata : Text.isBlank data = false) (h : t.Like (.horizontalRule data))
  | tag {raw : Html.Token} (hraw : raw.isTag = true) (h : t.Like (.html raw))
  | text {s : String} (hs : opensBlank (s.toList.dropWhile isNewlineChar) = false)
      (h : t.Like (.html (.characters s)))

inductive Leads (P : Token → Prop) : List Token → Prop
  | nil : Leads P []
  | skip {t : Token} {ts : List Token} (ht : P t) (h : Leads P ts) : Leads P (t :: ts)
  | firm {t : Token} (ht : t.Firm) (ts : List Token) : Leads P (t :: ts)

variable {P : Token → Prop} {t u : Token} {ts us : List Token} {data : String} {tag : Tag}
  {c : Char}

theorem Token.White.of_like (h : u.White) (hl : t.Like u) : t.White := by
  obtain ⟨v, hv, hu⟩ := h
  exact ⟨v, hv, hl.trans hu⟩

theorem Token.White.inCode (h : t.White) : t.inCode = false := by
  obtain ⟨u, hu, hl⟩ := h
  have hall : ∀ v ∈ [Token.space, .newline, .newlineHard, .newlineBlank],
      v.inCode = false := by decide
  exact hl.2.trans (hall u hu)

theorem Token.Idle.of_like (h : u.Idle) (hl : t.Like u) : t.Idle := by
  rcases h with h | h
  · exact .inl (h.of_like hl)
  · exact .inr (by rwa [hl.tagIs, hl.tagIs])

theorem Token.Firm.of_like (h : u.Firm) (hl : t.Like u) : t.Firm := by
  cases h with
  | markdown htag hdata h => exact .markdown htag hdata (hl.trans h)
  | rule hdata h => exact .rule hdata (hl.trans h)
  | tag hraw h => exact .tag hraw (hl.trans h)
  | text hs h => exact .text hs (hl.trans h)

namespace Leads

theorem singleton (ht : P t) : Leads P [t] := .skip ht .nil

theorem append (h : Leads P ts) (h' : Leads P us) : Leads P (ts ++ us) := by
  induction h with
  | nil => exact h'
  | skip ht _ ih => exact .skip ht ih
  | firm ht ts => exact .firm ht (ts ++ us)

/-- Whatever stands behind may go. -/
theorem of_append_left (h : Leads P (ts ++ us)) : Leads P ts := by
  induction ts with
  | nil => exact .nil
  | cons t ts ih =>
    cases h with
    | skip ht h => exact .skip ht (ih h)
    | firm ht _ => exact .firm ht ts

theorem map {f : Token → Token} (hf : ∀ t, (f t).Like t) (hP : ∀ t, P t → P (f t))
    (h : Leads P ts) : Leads P (ts.map f) := by
  induction h with
  | nil => exact .nil
  | skip ht _ ih => exact .skip (hP _ ht) ih
  | firm ht ts => exact .firm (ht.of_like (hf _)) (ts.map f)

theorem of_forall (h : ∀ t ∈ ts, P t) : Leads P ts := by
  induction ts with
  | nil => exact .nil
  | cons t ts ih =>
    obtain ⟨ht, hts⟩ := List.forall_mem_cons.mp h
    exact .skip ht (ih hts)

end Leads

/-- A mark that begins with something is firm. -/
theorem firm_mark (htag : tag.isInk = true) (hdata : data.toList.head? = some c)
    (hc : Text.isWhite c = false) : (Token.markdown tag data).Firm := by
  have hink := Text.opensBlank_of_head? hdata hc
  exact .markdown (.inl htag) (by rwa [Text.dropWhile_of_ink hink]) (.refl _)

theorem firm_repeated (htag : tag.isInk = true) (n : Nat) (hc : Text.isWhite c = false) :
    (Token.markdown tag (repeated (n + 1) c.toString)).Firm :=
  firm_mark (c := c) htag (by simp [repeated, Char.toString, List.replicate_succ]) hc

theorem firm_anchorSimple (href : String) : (Token.anchorSimple href).Firm :=
  firm_mark (c := '<') rfl (by simp) rfl

theorem firm_anchorInline (href text : String) (title : Option String) :
    (Token.anchorInline href text title).Firm :=
  firm_mark (c := '[') rfl (by simp) rfl

theorem firm_anchorReferenceLink (text : String) (n : Nat) :
    (Token.anchorReferenceLink text n).Firm :=
  firm_mark (c := '[') rfl (by simp) rfl

theorem firm_anchorReference (n : Nat) (href : String) (title : Option String) :
    (Token.anchorReference n href title).Firm :=
  firm_mark (c := '[') rfl (by simp) rfl

theorem firm_image (src : String) (alt title : Option String) (reference : Option Nat) :
    (Token.image src alt title reference).Firm := by
  cases reference <;> exact firm_mark (c := '!') rfl (by simp) rfl

/-- The mark of a line, which stands behind a newline of its own. -/
theorem firm_ownLine {mark : List Char} (htag : tag = .headingStart ∨ tag = .listItemStart)
    (hdata : data.toList = '\n' :: mark) (hmark : opensBlank mark = false) :
    (Token.markdown tag data).Firm := by
  refine .markdown (.inr (htag.imp_right .inl)) ?_ (.refl _)
  rw [hdata, List.dropWhile_cons_of_pos (by rfl), Text.dropWhile_of_ink hmark, hmark]

theorem firm_headingStart {level : Nat} (h : 1 ≤ level) : (Token.headingStart level).Firm := by
  refine firm_ownLine (.inl rfl) (toList_headingMark level) ?_
  obtain ⟨n, rfl⟩ := Nat.exists_eq_add_of_le' h
  exact Text.opensBlank_of_head? (c := '#') rfl rfl

/-- The mark of an item, behind its indent: a bullet that is not blank, or a number and a full
stop. -/
theorem firm_listItemStart (depth : Nat) {bullet : Bullet}
    (h : ∀ c, bullet = .mark c → Text.isWhite c = false) :
    (Token.listItemStart depth bullet).Firm := by
  have hindent : '\n' ∉ (repeated (depth - 1) "  ").toList := by
    simp [repeated, List.mem_replicate]
  have hdata : ("\n" ++ repeated (depth - 1) "  " ++ bullet.text ++ " ").toList =
      '\n' :: ((repeated (depth - 1) "  ").toList ++ (bullet.text.toList ++ [' '])) := by simp
  refine firm_ownLine (.inr rfl) hdata ?_
  cases bullet with
  | mark c =>
    have htext : (Bullet.mark c).text.toList ++ [' '] = [c, ' '] := by
      simp [Bullet.text, Char.toString]
    rw [htext]
    exact Text.opensBlank_of_ink hindent (h c rfl) _
  | ordinal n =>
    have htext : (Bullet.ordinal n).text.toList ++ [' '] = (toString n).toList ++ ['.', ' '] := by
      simp [Bullet.text]
    rw [htext, ← List.append_assoc]
    refine Text.opensBlank_of_ink ?_ (by decide) _
    rw [List.mem_append, not_or]
    exact ⟨hindent, not_mem_toString (by decide) n⟩

end Markdown

namespace Conversion

open Markdown (Token Leads)

variable {o : Options} {w : Window} {last : Option Token} {ctx : Context} {r : Reaction}
  {s : State} {t : Html.Token} {after : List Html.Token}

/-- The first line of a text that begins with something is firm. -/
theorem leads_textTokens {P : Token → Prop} {cs : List Char}
    (h : ∀ c ∈ cs.head?, Text.isWhite c = false) : Leads P (textTokens cs) := by
  have hfirm {line : List Char} (hne : line ≠ []) (hline : line.head? = cs.head?) :
      Text.opensBlank (line.dropWhile Markdown.isNewlineChar) = false := by
    obtain ⟨c, hc⟩ := Option.isSome_iff_exists.mp (List.isSome_head?.mpr hne)
    have hink := Text.opensBlank_of_head? hc (h c (hline ▸ hc))
    rwa [Text.dropWhile_of_ink hink]
  unfold textTokens
  rcases Text.splitNewlines_cases cs with ⟨-, hsplit⟩ | ⟨line, rest, -, hcs, hsplit⟩
  · rw [hsplit]
    dsimp only
    split_ifs with hempty
    · exact .nil
    · exact .firm (.text (by rw [String.toList_ofList]; exact hfirm hempty rfl) (.refl _)) []
  · have hne : line ≠ [] := by
      rintro rfl
      exact absurd (h '\n' (by rw [hcs]; rfl)) (by decide)
    have hdata : Text.opensBlank
        ((String.ofList line).toList.dropWhile Markdown.isNewlineChar) = false := by
      rw [String.toList_ofList]
      refine hfirm hne ?_
      rw [hcs, List.head?_append_of_ne_nil _ hne]
    rw [hsplit]
    rcases hrest : Text.splitNewlines rest with _ | ⟨next, lines⟩
    · exact absurd hrest (Text.splitNewlines_ne_nil rest)
    · exact .firm (.markdown (.inr (.inr (.inr rfl))) hdata (.refl _)) _

theorem leads_linkTo {P : Token → Prop} (o : Options) (href text : String) :
    Leads P (linkTo o href text) := by
  unfold linkTo
  split_ifs
  · exact .firm (Markdown.firm_anchorSimple _) []
  · exact .firm (.tag rfl (.refl _)) _
  · exact .firm (Markdown.firm_anchorInline _ _ _) []

/-- Outside of sensitive content, every reaction writes white space and block marks, up to a first
token that is firm. -/
theorem Handles.leads (h : Handles o w last ctx r) (ho : o.Valid)
    (hw : Html.isSensitive w.token.tagName = false) (hcomment : w.token.kind ≠ .comment)
    (hs : ctx.sensitive = 0) : Leads Token.Idle r.produced := by
  have hsensitive (hn : Html.isSensitive w.token.tagName = true) : False := by
    rw [hw] at hn
    cases hn
  have hmarks : ∀ c ∈ Options.emphasisMarks, Text.isWhite c = false :=
    List.forall_mem_cons.mpr ⟨rfl, List.forall_mem_singleton.mpr rfl⟩
  have hbullets : ∀ c ∈ Options.bullets, Text.isWhite c = false :=
    List.forall_mem_cons.mpr
      ⟨rfl, List.forall_mem_cons.mpr ⟨rfl, List.forall_mem_singleton.mpr rfl⟩⟩
  have hopens : Token.startBlock.Idle := .inr (.inl rfl)
  have hcloses : Token.endBlock.Idle := .inr (.inr rfl)
  have hwhite (t : Token) (ht : t ∈ [Token.space, .newline, .newlineHard, .newlineBlank]) :
      t.Idle := .inl ⟨t, ht, .refl t⟩
  cases h with
  | nothing notices hc => exact .nil
  | verbatim hc h =>
    rcases h with h | h
    · omega
    · exact absurd h hcomment
  | cleaned hc h =>
    have htag : (o.clean w.token).isTag = true := h
    exact .firm (.tag htag (.refl _)) []
  | opensBlock hk hc => exact .singleton hopens
  | closesBlock hk hc => exact .singleton hcloses
  | opensHeading level hk hc hlevel =>
    exact .skip hopens (.firm (Markdown.firm_headingStart hlevel) [])
  | opensQuote hk hp hc => exact .skip hopens (.singleton (.inr (.inl rfl)))
  | closesQuote n hk hp hc => exact .skip (.inr (.inr rfl)) (.singleton hcloses)
  | opensWrapped hk hc =>
    have htag : (o.clean w.token).isTag = true := Html.Token.isTag_iff.mpr (.inl hk)
    exact .skip hopens (.firm (.tag htag (.refl _)) [])
  | closesWrapped hk hc =>
    have htag : (o.clean w.token).isTag = true := Html.Token.isTag_iff.mpr (.inr (.inl hk))
    exact .firm (.tag htag (.refl _)) _
  | opensList kind hk hp =>
    obtain ⟨c, -, h | h⟩ := openList_eq kind ctx <;> rw [h]
    · exact .nil
    · exact .singleton hopens
  | closesList kind hk hp h =>
    obtain ⟨c, -, rfl | rfl⟩ := closeList_eq h
    · exact .nil
    · exact .singleton hcloses
  | opensItem depth bullet hk hb hc =>
    refine .firm (Markdown.firm_listItemStart depth fun c hmark => ?_) []
    rcases hb with rfl | ⟨n, rfl⟩
    · exact Markdown.Bullet.mark.inj hmark ▸ hbullets _ ho.bullet
    · cases hmark
  | emphasis strong hc =>
    cases strong with
    | true => exact .firm (Markdown.firm_repeated rfl 1 (hmarks _ ho.strongMark)) []
    | false =>
      exact .firm (Markdown.firm_mark (c := o.emphasisMark) rfl (by simp [Char.toString])
        (hmarks _ ho.emphasisMark)) []
  | fused hc => exact .firm (Markdown.firm_repeated rfl 2 (hmarks _ ho.boldItalicMark)) []
  | selfLink hk hhref hc => exact .firm (Markdown.firm_anchorSimple _) []
  | inlineLink hk hhref htext hc => exact .firm (Markdown.firm_anchorInline _ _ _) []
  | referenceLink hk hhref htext hc => exact .firm (Markdown.firm_anchorReferenceLink _ _) []
  | mailLink hc | schemeLink hc => exact leads_linkTo o _ _
  | opensCode hk hn hc | closesCode hk hn hc | opensNative hk hn hc | closesNative hk hn hc
  | opensInjected hk hn hc | closesInjected hk hn hc => exact (hsensitive hn).elim
  | inlineImage hk hsrc hc | referenceImage hk hsrc hc =>
    exact .firm (Markdown.firm_image _ _ _ _) []
  | lineBreak hk hc => exact .singleton (hwhite _ (by simp))
  | rule hk hc => exact .skip hopens (.firm (.rule ho.rule (.refl _)) _)
  | text hk hc => exact leads_textTokens fun c hc => Text.head?_trimChars hc
  | gap gap hk hc => cases gap <;> exact .singleton (hwhite _ (by simp [Gap.token]))
  | blankLine hk hlast hu hc => exact .singleton (hwhite _ (by simp))

theorem leads_accept (ho : o.Valid) (ht : Html.isSensitive t.tagName = false ∧ t.kind ≠ .comment)
    (hreg : s.context.region o = .ordinary)
    (hr : react o (s.window t after) s.emitted.head? s.context = .ok r)
    (h : Leads Token.Idle s.emitted.reverse) :
    Leads Token.Idle (s.accept t r).emitted.reverse := by
  have hhandles := handles_of_react hr
  have hproduced := hhandles.leads ho ht.1 ht.2 (Context.region_eq_ordinary_iff.mp hreg).2
  rw [State.emitted_accept]
  exact (hhandles.stream_kept (fun h _ => h.of_append_left) h).append
    (hproduced.map (fun u => Token.like_within u _)
      fun u hu => hu.of_like (Token.like_within u _))

theorem leads_referenceBlock (references : References) :
    Leads Token.Idle (State.referenceBlock references) := by
  have hblank : Token.newlineBlank.Idle := .inl ⟨_, by simp, .refl _⟩
  have hnewline : Token.newline.Idle := .inl ⟨_, by simp, .refl _⟩
  have hcloses : Leads Token.Idle [.endBlock] := .singleton (.inr (.inr rfl))
  rw [State.referenceBlock_eq]
  refine .append (.skip hblank (.skip (.inr (.inl rfl)) ?_)) hcloses
  cases references.entries with
  | nil => exact .nil
  | cons entry entries =>
    exact .skip hnewline (.firm (Markdown.firm_anchorReference _ _ _) _)

/-- A forest without code, scripts and comments is converted into white space and block marks, up to
a first token that is firm. -/
theorem exists_convert_leads {f : Html.Forest} (ho : o.Valid)
    (hf : ∀ t ∈ f.tokens, Html.isSensitive t.tagName = false ∧ t.kind ≠ .comment) :
    ∃ ts, convert o f.tokens = .ok ts ∧ Leads Token.Idle ts :=
  exists_convert_of_steps (P := fun s => Leads Token.Idle s.emitted.reverse) And.left
    (leads_accept ho) (fun h _ => h.of_append_left) id
    (fun _ hts => hts.append (leads_referenceBlock _)) hf .nil

end Conversion

namespace Markdown

variable {ts out after : List Token} {t : Token} {before : Option Token}

namespace Spacer

theorem eq_behind_of_flags {s : Spacer} (h : s.flags = (none, false, false)) :
    s = behind s.output := by
  obtain ⟨output, code, dropNativeEnd, skipNext⟩ := s
  simp only [flags, Prod.mk.injEq] at h
  obtain ⟨rfl, rfl, rfl⟩ := h
  rfl

theorem sown_white : Sown Token.White where
  newline depth := ⟨.newline, by simp, Token.like_within _ depth⟩
  newlineBlank depth := ⟨.newlineBlank, by simp, Token.like_within _ depth⟩
  foreignBlank blank earlier h := by
    unfold foreignBlank
    split_ifs
    · exact ⟨.newlineBlank, by simp, Token.node_within _ _, h.inCode⟩
    · exact ⟨.newline, by simp, Token.node_within _ _, h.inCode⟩

/-- White space and block marks make white space of white space. -/
theorem step_idle (ht : t.Idle) (hout : ∀ u ∈ out, u.White) :
    ∃ out', (behind out).step before t after = behind out' ∧ ∀ u ∈ out', u.White := by
  have hbehind {s : Spacer} (hflags : s.flags = (behind out).flags)
      (hs : ∀ u ∈ s.output, u.White) : ∃ out', s = behind out' ∧ ∀ u ∈ out', u.White :=
    ⟨s.output, eq_behind_of_flags hflags, hs⟩
  have hwhitespace (hwhite : t.White) :
      ∃ out', (behind out).whitespace t after.head? = behind out' ∧ ∀ u ∈ out', u.White :=
    hbehind (flags_whitespace _) (sown_white.whitespace hwhite _ hout)
  have hstart : ∃ out', (behind out).blockStart t after.head? = behind out' ∧
      ∀ u ∈ out', u.White := hbehind (flags_blockStart _) (sown_white.blockStart _ hout)
  have hend : ∃ out', (behind out).blockEnd t before after.head? = behind out' ∧
      ∀ u ∈ out', u.White := hbehind (flags_blockEnd _ _) (sown_white.blockEnd _ _ hout)
  rcases ht with ht | ht | ht
  · obtain ⟨u, hu, hl⟩ := id ht
    simp only [List.mem_cons, List.not_mem_nil, or_false] at hu
    rcases hu with rfl | rfl | rfl | rfl <;>
    · rw [step_of_tag hl.tag?]
      exact hwhitespace ht
  · obtain ⟨tag, htag, hp⟩ := Token.exists_of_tagIs ht
    rw [step_of_tag htag]
    cases tag <;> first | exact hstart | cases hp
  · obtain ⟨tag, htag, hp⟩ := Token.exists_of_tagIs ht
    rw [step_of_tag htag]
    cases tag <;> first | exact hend | cases hp

/-- A firm token is written behind white space, and never taken back. -/
theorem step_firm (ht : t.Firm) (hout : ∀ u ∈ out, u.White) :
    t.isFixed = true ∧ ∃ out', (behind out).step before t after = behind (t :: out') ∧
      ∀ u ∈ out', u.White := by
  have hfixed {u : Token} (hl : t.Like u) (htag : u.tagIs Tag.isWhitespace = false)
      (hnative : u.hasTag .startNativeBlock = false) (hcode : u.inCode = false) :
      t.isFixed = true := by
    simp [Token.isFixed, hl.tagIs, hl.hasTag, htag, hnative, isCodeSpace, hl.2, hcode]
  cases ht with
  | @markdown tag data htag hdata hl =>
    refine ⟨?_, out, step_of_like_markdown hl htag, hout⟩
    rcases htag with htag | rfl | rfl | rfl
    · cases tag <;> first | exact hfixed hl rfl rfl rfl | cases htag
    all_goals exact hfixed hl rfl rfl rfl
  | rule hdata hl =>
    exact ⟨hfixed hl rfl rfl rfl, _, step_rule hl.tag?, sown_white.settle _ _ hout⟩
  | tag hraw hl | text hs hl =>
    exact ⟨hfixed hl rfl rfl rfl, out, step_of_like_html hl, hout⟩

theorem leads_run (h : Leads Token.Idle ts) (hout : ∀ u ∈ out, u.White) :
    Leads Token.White ((behind out).run before ts).output.reverse := by
  induction h generalizing out before with
  | nil => exact .of_forall fun u hu => hout u (List.mem_reverse.mp hu)
  | skip ht _ ih =>
    obtain ⟨out', hstep, hout'⟩ := step_idle ht hout
    rw [run, hstep]
    exact ih hout'
  | @firm t ht ts =>
    obtain ⟨hfixed, out', hstep, hout'⟩ : t.isFixed = true ∧ ∃ out',
        (behind out).step before t ts = behind (t :: out') ∧ ∀ u ∈ out', u.White :=
      step_firm ht hout
    -- whatever comes later, the output up to a fixed token stays as it is
    have hkept : Fixed (t :: out') := by
      rintro u hu
      cases hu
      exact hfixed
    rw [run, hstep]
    obtain ⟨later, hlater⟩ := hkept.run (s := behind (t :: out')) List.suffix_rfl (some t) ts
    have hwhite : Leads Token.White out'.reverse :=
      .of_forall fun u hu => hout' u (List.mem_reverse.mp hu)
    rw [← show _ = ((behind (t :: out')).run (some t) ts).output from hlater,
      List.reverse_append, List.reverse_cons, List.append_assoc]
    exact hwhite.append (.firm ht _)

end Spacer

theorem leads_space (h : Leads Token.Idle ts) : Leads Token.White (space ts) :=
  Spacer.leads_run h (List.forall_mem_nil _)

/-- A rule gets a newline in front. -/
theorem Leads.layRules (h : Leads Token.White ts) : Leads Token.White (layRules ts) := by
  induction h with
  | nil => exact .nil
  | @skip t ts ht h ih =>
    have hrule : t.hasTag .horizontalRule = false := by
      obtain ⟨u, hu, hl⟩ := ht
      have hall : ∀ v ∈ [Token.space, .newline, .newlineHard, .newlineBlank],
          v.hasTag .horizontalRule = false := by decide
      exact (hl.hasTag _).trans (hall u hu)
    rw [Markdown.layRules, List.flatMap_cons, ruleLines, hrule, if_neg Bool.false_ne_true]
    exact .skip ht ih
  | @firm t ht ts =>
    rw [Markdown.layRules, List.flatMap_cons, ruleLines]
    split_ifs with hrule
    · have hcode : t.inCode = false := by
        cases ht with
        | markdown _ _ hl | rule _ hl | tag _ hl | text _ hl => exact hl.2
      exact .skip ⟨.newline, by simp, Token.node_within _ _, hcode⟩ (.firm ht _)
    · exact .firm ht _

end Markdown

end HtmlMarkdown
