import HtmlMarkdown.Proofs.Flowing

/-!
# Drafts

Without line breaks, code and comments, a conversion writes a draft: block marks, gaps, marks that
begin their own line, definitions, and words, which end in no space. A text of several lines is a
run of its own, a newline behind every line but the last, and the text of a link to a bare address
stands directly before a tag.
-/

namespace HtmlMarkdown

structure Html.Token.Breakless (t : Html.Token) : Prop extends t.Unbroken where
  plain : t.tagName ∉ ["br", "hr", "code", "pre", "script"]
  comment : t.kind ≠ .comment

instance (t : Html.Token) : Decidable t.Breakless :=
  decidable_of_iff
    (('\n' ∉ t.tagName.toList ∧
        ∀ entry ∈ t.attributes.entries, entry.1.OnOneLine ∧ '\n' ∉ entry.2.toList) ∧
      t.tagName ∉ ["br", "hr", "code", "pre", "script"] ∧ t.kind ≠ .comment)
    ⟨fun ⟨⟨hn, ha⟩, hp, hc⟩ => ⟨⟨hn, ha⟩, hp, hc⟩,
      fun h => ⟨⟨h.name, h.attributes⟩, h.plain, h.comment⟩⟩

theorem Html.Token.Breakless.not_sensitive {t : Html.Token} (h : t.Breakless) :
    Html.isSensitive t.tagName = false := by
  have hplain := h.plain
  simp only [List.mem_cons, List.not_mem_nil, or_false, not_or] at hplain
  simp [Html.isSensitive, Html.sensitiveElements, hplain]

namespace Markdown

open Text (Firm Loose)

def Token.Like (t u : Token) : Prop := t.node = u.node ∧ t.inCode = u.inCode

inductive Word (t : Token) : Prop
  | markdown {tag : Tag} {data : String} (htag : tag.isInk = true) (hdef : tag ≠ .anchorReference)
      (hdata : Firm data.toList) (h : t.Like (.markdown tag data))
  | tag {raw : Html.Token} (hraw : raw.isTag = true) (hu : raw.Unbroken) (h : t.Like (.html raw))
  | text {s : String} (hs : Firm s.toList) (h : t.Like (.html (.characters s)))
  | line {s : String} (hs : Firm s.toList) (h : t.Like (.charactersSplit s))

inductive Cell (t : Token) : Prop
  | blockMark {tag : Tag} (htag : tag.isBlockStart = true ∨ tag.isBlockEnd = true)
      (h : t.Like (.markdown tag ""))
  | space (h : t.Like .space)
  | newline (h : t.Like .newline)
  | blank (h : t.Like .newlineBlank)
  | ownLine {tag : Tag} {data : String} {mark : List Char}
      (htag : tag = .headingStart ∨ tag = .listItemStart) (hdata : data.toList = '\n' :: mark)
      (hmark : '\n' ∉ mark) (hne : mark ≠ []) (h : t.Like (.markdown tag data))
  | definition {data : String} {cs : List Char} (hdata : data.toList = '[' :: cs)
      (hcs : '\n' ∉ cs) (h : t.Like (.markdown .anchorReference data))
  | word (h : Word t)

/-- A draft, which begins with a line of a text that has begun before or with anything else. -/
inductive Draft : Bool → List Token → Prop
  | nil : Draft false []
  | cell {t : Token} {ts : List Token} (ht : Cell t) (h : Draft false ts) : Draft false (t :: ts)
  | linked {t u : Token} {s : String} {ts : List Token} (ht : t.Like (.html (.characters s)))
      (hs : '\n' ∉ s.toList) (hu : Word u) (h : Draft false ts) : Draft false (t :: u :: ts)
  | line {inText : Bool} {t u : Token} {s : String} {ts : List Token}
      (ht : t.Like (.charactersSplit s)) (hs : Loose s.toList) (hne : inText = false → s ≠ "")
      (hu : u.Like .newline) (h : Draft true ts) : Draft inText (t :: u :: ts)
  | last {t : Token} {ts : List Token} (ht : Word t) (h : Draft false ts) : Draft true (t :: ts)

variable {ts us : List Token} {t u v : Token} {inText : Bool}

theorem Token.Like.refl (t : Token) : t.Like t := ⟨rfl, rfl⟩

theorem Token.Like.trans (h : t.Like u) (h' : u.Like v) : t.Like v :=
  ⟨h.1.trans h'.1, h.2.trans h'.2⟩

theorem Token.Like.tag? (h : t.Like u) : t.tag? = u.tag? := by
  unfold Token.tag?
  rw [h.1]

theorem Token.Like.tagIs (h : t.Like u) (p : Tag → Bool) : t.tagIs p = u.tagIs p := by
  unfold Token.tagIs
  rw [h.tag?]

theorem Token.Like.hasTag (h : t.Like u) (tag : Tag) : t.hasTag tag = u.hasTag tag := by
  unfold Token.hasTag
  rw [h.tag?]

theorem Token.like_within (t : Token) (depth : Option Nat) : (t.within depth).Like t :=
  ⟨Token.node_within t depth, Token.inCode_within t depth⟩

theorem Word.of_like (h : Word u) (hl : t.Like u) : Word t := by
  cases h with
  | markdown htag hdef hdata h => exact .markdown htag hdef hdata (hl.trans h)
  | tag hraw hu h => exact .tag hraw hu (hl.trans h)
  | text hs h => exact .text hs (hl.trans h)
  | line hs h => exact .line hs (hl.trans h)

theorem Cell.of_like (h : Cell u) (hl : t.Like u) : Cell t := by
  cases h with
  | blockMark htag h => exact .blockMark htag (hl.trans h)
  | space h => exact .space (hl.trans h)
  | newline h => exact .newline (hl.trans h)
  | blank h => exact .blank (hl.trans h)
  | ownLine htag hdata hmark hne h => exact .ownLine htag hdata hmark hne (hl.trans h)
  | definition hdata hcs h => exact .definition hdata hcs (hl.trans h)
  | word h => exact .word (h.of_like hl)

/-- A draft stays one at other depths. -/
theorem Draft.map {f : Token → Token} (hf : ∀ t, (f t).Like t) (h : Draft inText ts) :
    Draft inText (ts.map f) := by
  induction h with
  | nil => exact .nil
  | cell ht _ ih => exact .cell (ht.of_like (hf _)) ih
  | linked ht hs hu _ ih => exact .linked ((hf _).trans ht) hs (hu.of_like (hf _)) ih
  | line ht hs hne hu _ ih => exact .line ((hf _).trans ht) hs hne ((hf _).trans hu) ih
  | last ht _ ih => exact .last (ht.of_like (hf _)) ih

theorem Draft.append (h : Draft inText ts) (h' : Draft false us) : Draft inText (ts ++ us) := by
  induction h with
  | nil => exact h'
  | cell ht _ ih => exact .cell ht ih
  | linked ht hs hu _ ih => exact .linked ht hs hu ih
  | line ht hs hne hu _ ih => exact .line ht hs hne hu ih
  | last ht _ ih => exact .last ht ih

theorem Draft.singleton (ht : Cell t) : Draft false [t] := .cell ht .nil

/-- A word is of no class without ink. -/
theorem Word.tagIs_eq_false {p : Tag → Bool} (h : Word t)
    (hp : ∀ tag, tag.isInk = true ∨ tag = .charactersSplit → p tag = false) :
    t.tagIs p = false := by
  cases h with
  | @markdown tag data htag hdef hdata h =>
    rw [h.tagIs]
    exact hp tag (.inl htag)
  | tag hraw hu h | text hs h =>
    rw [h.tagIs]
    rfl
  | line hs h =>
    rw [h.tagIs]
    exact hp .charactersSplit (.inr rfl)

theorem Word.not_isWhitespace (h : Word t) : t.tagIs Tag.isWhitespace = false :=
  h.tagIs_eq_false fun tag htag => by cases tag <;> simp_all [Tag.isInk, Tag.isWhitespace]

theorem Cell.inCode_of_whitespace (h : Cell t) (ht : t.tagIs Tag.isWhitespace = true) :
    t.inCode = false := by
  cases h with
  | blockMark htag h | space h | newline h | blank h | ownLine htag hdata hmark hne h
  | definition hdata hcs h => exact h.2
  | word h =>
    rw [h.not_isWhitespace] at ht
    cases ht

/-- White space at the end is outside of code and may go. -/
theorem Draft.of_whitespace_end (h : Draft inText (ts ++ [t]))
    (ht : t.tagIs Tag.isWhitespace = true) : Draft inText ts ∧ t.inCode = false := by
  have hword {u : Token} (hu : Word u) : u ≠ t := by
    rintro rfl
    rw [hu.not_isWhitespace] at ht
    cases ht
  generalize hvs : ts ++ [t] = vs at h
  induction h generalizing ts with
  | nil => simp at hvs
  | cell hu hrest ih =>
    cases ts with
    | nil =>
      simp only [List.nil_append, List.cons.injEq] at hvs
      exact ⟨.nil, (hvs.1 ▸ hu).inCode_of_whitespace ht⟩
    | cons v ts =>
      simp only [List.cons_append, List.cons.injEq] at hvs
      exact ⟨hvs.1 ▸ .cell hu (ih hvs.2).1, (ih hvs.2).2⟩
  | @linked u v s us hu hs hv hrest ih =>
    rcases ts with _ | ⟨x, _ | ⟨y, ts⟩⟩ <;>
      simp only [List.nil_append, List.cons_append, List.cons.injEq] at hvs
    · simp at hvs
    · exact absurd hvs.2.1.symm (hword hv)
    · rw [hvs.1, hvs.2.1]
      exact ⟨.linked hu hs hv (ih hvs.2.2).1, (ih hvs.2.2).2⟩
  | @line inText u v s us hu hs hne hv hrest ih =>
    rcases ts with _ | ⟨x, _ | ⟨y, ts⟩⟩ <;>
      simp only [List.nil_append, List.cons_append, List.cons.injEq] at hvs
    · simp at hvs
    · rw [← hvs.2.2] at hrest
      cases hrest
    · rw [hvs.1, hvs.2.1]
      exact ⟨.line hu hs hne hv (ih hvs.2.2).1, (ih hvs.2.2).2⟩
  | last hu hrest ih =>
    cases ts with
    | nil =>
      simp only [List.nil_append, List.cons.injEq] at hvs
      exact absurd hvs.1.symm (hword hu)
    | cons v ts =>
      simp only [List.cons_append, List.cons.injEq] at hvs
      exact ⟨hvs.1 ▸ .last hu (ih hvs.2).1, (ih hvs.2).2⟩

theorem getLast?_append_mark (s : String) {mark : String} {c : Char}
    (h : mark.toList.getLast? = some c) : (s ++ mark).toList.getLast? = some c := by
  simp [List.getLast?_append, h]

/-- A mark on one line is a word where it ends in no space. -/
theorem draft_of_prose {tag : Tag} {data : String} {c : Char}
    (h : Prose [.markdown tag data]) (htag : tag.isInk = true) (hdef : tag ≠ .anchorReference)
    (hlast : data.toList.getLast? = some c) (hc : c ≠ ' ') : Draft false [.markdown tag data] := by
  have hsingle : '\n' ∉ data.toList := by
    cases h with
    | piece ht _ =>
      generalize hu : Token.markdown tag data = u at ht
      cases ht with
      | ink hink _ =>
        cases hink with
        | markdown _ hdata _ =>
          simp only [Token.markdown, Token.mk.injEq, Node.markdown.injEq] at hu
          exact hu.1.2 ▸ hdata
        | tag _ _ | text _ => simp [Token.markdown, Token.html] at hu
      | rule _ _ | item _ _ =>
        simp only [Token.markdown, Token.horizontalRule, Token.listItemStart, Token.mk.injEq,
          Node.markdown.injEq] at hu
        rw [hu.1.1] at htag
        cases htag
      | _ =>
        simp only [Token.markdown, Token.startBlock, Token.endBlock, Token.space, Token.newline,
          Token.newlineHard, Token.newlineBlank, Token.mk.injEq, Node.markdown.injEq] at hu
        rw [hu.1.1] at htag
        cases htag
  exact .singleton (.word (.markdown htag hdef ⟨hsingle, c, hlast, hc⟩ (.refl _)))

theorem draft_anchorSimple {href : String} (h : '\n' ∉ href.toList) :
    Draft false [.anchorSimple href] := by
  have hlast : (">" : String).toList.getLast? = some '>' := by decide
  exact draft_of_prose (prose_anchorSimple h) rfl (by decide) (getLast?_append_mark _ hlast)
    (by decide)

theorem draft_anchorInline {href text : String} {title : Option String} (hh : '\n' ∉ href.toList)
    (ht : '\n' ∉ text.toList) (htitle : ∀ s ∈ title, '\n' ∉ s.toList) :
    Draft false [.anchorInline href text title] := by
  have hlast : (")" : String).toList.getLast? = some ')' := by decide
  exact draft_of_prose (prose_anchorInline hh ht htitle) rfl (by decide)
    (getLast?_append_mark _ hlast) (by decide)

theorem draft_anchorReferenceLink {text : String} (h : '\n' ∉ text.toList) (n : Nat) :
    Draft false [.anchorReferenceLink text n] := by
  have hlast : ("]" : String).toList.getLast? = some ']' := by decide
  exact draft_of_prose (prose_anchorReferenceLink h n) rfl (by decide)
    (getLast?_append_mark _ hlast) (by decide)

theorem draft_image {src : String} {alt title : Option String} (hsrc : '\n' ∉ src.toList)
    (halt : ∀ s ∈ alt, '\n' ∉ s.toList) (htitle : ∀ s ∈ title, '\n' ∉ s.toList)
    (reference : Option Nat) : Draft false [.image src alt title reference] := by
  have hprose := prose_image hsrc halt htitle reference
  have hround : (")" : String).toList.getLast? = some ')' := by decide
  have hsquare : ("]" : String).toList.getLast? = some ']' := by decide
  cases reference with
  | none =>
    exact draft_of_prose hprose rfl (by decide) (getLast?_append_mark _ hround) (by decide)
  | some n =>
    exact draft_of_prose hprose rfl (by decide) (getLast?_append_mark _ hsquare) (by decide)

theorem cell_anchorReference {href : String} {title : Option String} (hh : '\n' ∉ href.toList)
    (htitle : ∀ s ∈ title, '\n' ∉ s.toList) (n : Nat) : Cell (.anchorReference n href title) := by
  have hsuffix := not_mem_titleSuffix (by decide) htitle
  have hn := not_mem_toString (show Char.isDigit '\n' = false by decide) n
  have hbehind : '\n' ∉ (toString n ++ "]: " ++ href ++ titleSuffix title).toList := by
    simp only [String.toList_append, List.mem_append, not_or]
    exact ⟨⟨⟨hn, by decide⟩, hh⟩, hsuffix⟩
  exact .definition (by simp) hbehind (.refl _)

theorem draft_repeated {tag : Tag} (htag : tag.isInk = true) (hdef : tag ≠ .anchorReference)
    {c : Char} (n : Nat) (hc : c ≠ '\n') (hspace : c ≠ ' ') :
    Draft false [.markdown tag (repeated (n + 1) c.toString)] :=
  draft_of_prose (prose_repeated htag n hc) htag hdef
    (by simp [repeated, Char.toString, List.replicate_succ']) hspace

theorem draft_tag {raw : Html.Token} (hraw : raw.isTag = true) (h : raw.Unbroken) :
    Draft false [.html raw] :=
  .singleton (.word (.tag hraw h (.refl _)))

end Markdown

namespace Conversion

open Markdown (Token Draft Cell Word)

variable {o : Options} {w : Window} {last : Option Token} {ctx : Context} {r : Reaction}
  {s : State} {t : Html.Token} {after : List Html.Token}

theorem draft_lines {line : List Char} {rest : List (List Char)}
    (h : Text.Flowing (line :: rest)) : Draft true (.charactersSplit (String.ofList line) ::
      rest.flatMap fun line => [.newline, .charactersSplit (String.ofList line)]) := by
  induction rest generalizing line with
  | nil => exact .last (.line (by rwa [String.toList_ofList]) (.refl _)) .nil
  | cons next rest ih =>
    exact .line (.refl _) (by rw [String.toList_ofList]; exact h.1) (fun hf => by cases hf)
      (.refl _) (ih h.2)

/-- The tokens of a text that has been laid out. -/
theorem draft_textTokens (inParagraph : Bool) (cs : List Char) :
    Draft false (textTokens (Text.flowChars inParagraph cs)) := by
  have hcalm := Text.calm_flowChars inParagraph cs
  obtain ⟨ds, htrim⟩ : ∃ ds, Text.flowChars inParagraph cs = Text.trimChars ds := ⟨_, rfl⟩
  rw [htrim] at hcalm ⊢
  cases hlast : (Text.trimChars ds).getLast? with
  | none =>
    rw [List.getLast?_eq_none_iff.mp hlast]
    exact .nil
  | some c =>
    have hwhite := Text.getLast?_trimChars hlast
    have hfirst : Text.Calm ('\n' :: Text.trimChars ds) := by
      refine ⟨fun h => absurd h (by decide), fun _ hprefix => ?_, hcalm⟩
      obtain ⟨rest, hrest⟩ := hprefix
      have hspace : (Text.trimChars ds).head? = some ' ' := by
        rw [← hrest]
        rfl
      exact absurd (Text.head?_trimChars hspace) (by decide)
    have hlines := Text.flowing_splitNewlines hfirst ⟨c, hlast, hwhite⟩
    have hjoin := Text.joinNewlines_splitNewlines (Text.trimChars ds)
    unfold textTokens
    rcases hsplit : Text.splitNewlines (Text.trimChars ds) with _ | ⟨line, _ | ⟨next, rest⟩⟩
    · exact .nil
    · rw [hsplit] at hlines
      dsimp only
      split_ifs
      · exact .nil
      · exact .singleton (.word (.text (by rwa [String.toList_ofList]) (.refl _)))
    · rw [hsplit] at hlines hjoin
      refine .line (.refl _) (by rw [String.toList_ofList]; exact hlines.1) (fun _ hempty => ?_)
        (.refl _) (draft_lines hlines.2)
      -- trimmed text does not begin with a newline
      have hnil : line = [] := by simpa using congrArg String.toList hempty
      have hnewline : (Text.trimChars ds).head? = some '\n' := by
        rw [← hjoin, hnil]
        rfl
      exact absurd (Text.head?_trimChars hnewline) (by decide)

theorem draft_linkTo (o : Options) {href text : String} (hh : '\n' ∉ href.toList)
    (ht : '\n' ∉ text.toList) : Draft false (linkTo o href text) := by
  unfold linkTo
  split_ifs
  · exact Markdown.draft_anchorSimple hh
  · have hname : '\n' ∉ "a".toList := by decide
    have hkey : (Html.AttributeName.plain "href").OnOneLine := by decide
    have hopen : ((Html.Token.startTag "a" ∅).withAttribute "href" href).Unbroken := by
      refine ⟨hname, fun entry he => ?_⟩
      obtain rfl : entry = (.plain "href", href) := by simpa [Html.Token.withAttribute,
        Html.Token.startTag, OrderedMap.insertEntry] using he
      exact ⟨hkey, hh⟩
    have hclose : (Html.Token.endTag "a").Unbroken := ⟨hname, by simp [Html.Token.endTag]⟩
    exact .cell (.word (.tag rfl hopen (.refl _)))
      (.linked (.refl _) ht (.tag rfl hclose (.refl _)) .nil)
  · exact Markdown.draft_anchorInline hh ht (by simp)

/-- A void tag that is no `<br>` and no `<hr>` breaks no line. -/
theorem unbroken_emptyTag (hbr : t.tagName ≠ "br") (hhr : t.tagName ≠ "hr") :
    ∀ u ∈ (emptyTag o t last ctx).produced,
      u.hasTag .newlineHard = false ∧ u.hasTag .horizontalRule = false := by
  unfold emptyTag image
  dsimp only
  rw [if_neg hbr, if_neg hhr]
  split_ifs
  · exact List.forall_mem_singleton.mpr ⟨rfl, rfl⟩
  · split
    · exact List.forall_mem_nil _
    · exact List.forall_mem_singleton.mpr ⟨rfl, rfl⟩
  · split
    · exact List.forall_mem_nil _
    · exact List.forall_mem_singleton.mpr ⟨rfl, rfl⟩
  · exact List.forall_mem_singleton.mpr ⟨rfl, rfl⟩
  · exact List.forall_mem_nil _

/-- Outside of sensitive content, every reaction to a token that is no line break writes a draft. -/
theorem Handles.draft (h : Handles o w last ctx r) (ho : o.Valid) (hw : w.token.Breakless)
    (hs : ctx.sensitive = 0)
    (hbreak : w.token.kind = .emptyTag → ∀ u ∈ r.produced,
      u.hasTag .newlineHard = false ∧ u.hasTag .horizontalRule = false) :
    Draft false r.produced := by
  have hfilled {key value : String} (hv : w.token.filledAttribute? key = some value) :
      '\n' ∉ value.toList := hw.toUnbroken.filledAttribute? hv
  have hsensitive (hn : Html.isSensitive w.token.tagName = true) : False := by
    rw [hw.not_sensitive] at hn
    cases hn
  have hmark {c : Char} (hc : c ∈ Options.emphasisMarks) : c ≠ '\n' ∧ c ≠ ' ' := by
    constructor <;>
    · rintro rfl
      exact absurd hc (by decide)
  have hclean := hw.toUnbroken.clean o
  have hopens : Cell .startBlock := .blockMark (.inl rfl) (.refl _)
  have hcloses : Cell .endBlock := .blockMark (.inr rfl) (.refl _)
  cases h with
  | nothing notices hc => exact .nil
  | verbatim hc h =>
    rcases h with h | h
    · omega
    · exact absurd h hw.comment
  | cleaned hc h => exact Markdown.draft_tag h hclean
  | opensBlock hk hc => exact .singleton hopens
  | closesBlock hk hc => exact .singleton hcloses
  | opensHeading level hk hc hlevel =>
    exact .cell hopens (.singleton (.ownLine (.inl rfl) (Markdown.toList_headingMark level)
      (Markdown.not_mem_headingMark level) (by simp) (.refl _)))
  | opensQuote hk hp hc =>
    have hquote : Cell .startBlockquote := .blockMark (.inl rfl) (.refl _)
    exact .cell hopens (.singleton hquote)
  | closesQuote n hk hp hc =>
    have hquote : Cell .endBlockquote := .blockMark (.inr rfl) (.refl _)
    exact .cell hquote (.singleton hcloses)
  | opensWrapped hk hc =>
    have htag : (o.clean w.token).isTag = true := Html.Token.isTag_iff.mpr (.inl hk)
    exact .cell hopens (Markdown.draft_tag htag hclean)
  | closesWrapped hk hc =>
    have htag : (o.clean w.token).isTag = true := Html.Token.isTag_iff.mpr (.inr (.inl hk))
    exact (Markdown.draft_tag htag hclean).append (.singleton hcloses)
  | opensList kind hk hp =>
    obtain ⟨c, -, h | h⟩ := openList_eq kind ctx <;> rw [h]
    · exact .nil
    · exact .singleton hopens
  | closesList kind hk hp h =>
    obtain ⟨c, -, rfl | rfl⟩ := closeList_eq h
    · exact .nil
    · exact .singleton hcloses
  | opensItem depth bullet hk hb hc =>
    have hbullet : o.bullet ≠ '\n' := by
      intro hnewline
      exact absurd (hnewline ▸ ho.bullet) (by decide)
    obtain ⟨mark, hdata, hmark, hne⟩ :=
      Markdown.exists_itemMark depth (not_mem_bulletText hbullet hb)
    exact .singleton (.ownLine (.inr rfl) hdata hmark hne (.refl _))
  | emphasis strong hc =>
    cases strong with
    | true =>
      exact Markdown.draft_repeated rfl (by decide) 1 (hmark ho.strongMark).1
        (hmark ho.strongMark).2
    | false =>
      obtain ⟨hne, hspace⟩ := hmark ho.emphasisMark
      exact Markdown.draft_of_prose (Markdown.prose_mark rfl
        (by simpa [Char.toString] using Ne.symm hne) (by simp [Char.toString])) rfl (by decide)
        (by simp [Char.toString]) hspace
  | fused hc =>
    exact Markdown.draft_repeated rfl (by decide) 2 (hmark ho.boldItalicMark).1
      (hmark ho.boldItalicMark).2
  | selfLink hk hhref hc =>
    exact Markdown.draft_anchorSimple (hfilled hhref)
  | inlineLink hk hhref htext hc =>
    exact Markdown.draft_anchorInline (hfilled hhref) (Text.not_mem_flow _) fun _ => hfilled
  | referenceLink hk hhref htext hc =>
    exact Markdown.draft_anchorReferenceLink (Text.not_mem_flow _) _
  | mailLink hc => exact draft_linkTo o hw.name (not_mem_mailAddress hw.name)
  | schemeLink hc =>
    exact draft_linkTo o (not_mem_bareLinkUrl hw.name hw.toUnbroken)
      (not_mem_bareLinkUrl hw.name hw.toUnbroken)
  | opensCode hk hn hc | closesCode hk hn hc | opensNative hk hn hc | closesNative hk hn hc
  | opensInjected hk hn hc | closesInjected hk hn hc => exact (hsensitive hn).elim
  | inlineImage hk hsrc hc | referenceImage hk hsrc hc =>
    exact Markdown.draft_image (hfilled hsrc) (fun _ => hw.toUnbroken.attribute?)
      (fun _ => hfilled) _
  | lineBreak hk hc =>
    have hnone := (hbreak hk .newlineHard List.mem_cons_self).1
    cases hnone
  | rule hk hc =>
    have hnone := (hbreak hk (.horizontalRule o.rule) (by simp [Reaction.emit])).2
    cases hnone
  | text hk hc => exact draft_textTokens _ _
  | gap gap hk hc =>
    cases gap with
    | space => exact .singleton (.space (.refl _))
    | newline => exact .singleton (.newline (.refl _))
    | blank => exact .singleton (.blank (.refl _))
  | blankLine hk hlast hu hc => exact .singleton (.blank (.refl _))

structure State.InDraft (s : State) : Prop where
  stream : Draft false s.emitted.reverse
  references : s.context.references.Unbroken

theorem State.InDraft.accept (h : s.InDraft) (ho : o.Valid) (ht : t.Breakless)
    (hreg : s.context.region o = .ordinary)
    (hr : react o (s.window t after) s.emitted.head? s.context = .ok r) :
    (s.accept t r).InDraft := by
  have hhandles := handles_of_react hr
  have hplain := ht.plain
  simp only [List.mem_cons, List.not_mem_nil, or_false, not_or] at hplain
  have hbreak (hk : t.kind = .emptyTag) : ∀ u ∈ r.produced,
      u.hasTag .newlineHard = false ∧ u.hasTag .horizontalRule = false := by
    have hordinary : ordinary o (s.window t after) s.emitted.head? s.context =
        .ok (emptyTag o t s.emitted.head? s.context) := by
      unfold ordinary
      rw [show (s.window t after).token = t from rfl, hk]
    rw [react_of_ordinary hreg, hordinary] at hr
    exact Except.ok.inj hr ▸ unbroken_emptyTag hplain.1 hplain.2.1
  have hproduced := hhandles.draft ho ht (Context.region_eq_ordinary_iff.mp hreg).2 hbreak
  refine ⟨?_, hhandles.references_unbroken ht.toUnbroken h.references⟩
  rw [emitted_accept]
  exact (hhandles.stream_kept (fun h hu => (h.of_whitespace_end hu).1) h.stream).append
    (hproduced.map fun u => Token.like_within u _)

theorem draft_referenceBlock {references : References} (h : references.Unbroken) :
    Draft false (State.referenceBlock references) := by
  have hdefs (entries : List (String × Option String)) (hentries : ∀ entry ∈ entries,
      '\n' ∉ entry.1.toList ∧ ∀ title ∈ entry.2, '\n' ∉ title.toList) (first : Nat) :
      Draft false ((References.entriesFrom first entries).flatMap fun entry =>
        [.newline, .anchorReference entry.1 entry.2.1 entry.2.2]) := by
    induction entries generalizing first with
    | nil => exact .nil
    | cons entry entries ih =>
      obtain ⟨⟨hhref, htitle⟩, hrest⟩ := List.forall_mem_cons.mp hentries
      have hcell : Cell (.anchorReference first entry.1 entry.2) :=
        Markdown.cell_anchorReference hhref htitle first
      exact .append (.cell (.newline (.refl _)) (.singleton hcell)) (ih hrest (first + 1))
  rw [State.referenceBlock_eq]
  exact .append (.append (.cell (.blank (.refl _)) (.singleton (.blockMark (.inl rfl) (.refl _))))
    (hdefs _ h 1)) (.singleton (.blockMark (.inr rfl) (.refl _)))

/-- A forest without line breaks, rules, code and comments, with every tag on one line, is converted
into a draft. -/
theorem exists_convert_draft {f : Html.Forest} (ho : o.Valid)
    (hf : ∀ t ∈ f.tokens, t.Breakless) : ∃ ts, convert o f.tokens = .ok ts ∧ Draft false ts :=
  exists_convert_of_steps Html.Token.Breakless.not_sensitive
    (fun ht hreg hr h => h.accept ho ht hreg hr) (fun h ht => (h.of_whitespace_end ht).1)
    State.InDraft.stream (fun h hts => hts.append (draft_referenceBlock h.references)) hf
    ⟨.nil, List.forall_mem_nil _⟩

end Conversion

end HtmlMarkdown
