import HtmlMarkdown.Proofs.Telling
import HtmlMarkdown.Proofs.TextRuns

/-!
# Paragraphs, lists and emphasis

The tags of paragraphs, lists, items and emphasis, space and line breaks are written as marks, and a
text as its lines. Where nothing else comes up, the conversion stays outside of code, scripts and
quotes, and every change of the lists is written as a block mark.
-/

namespace HtmlMarkdown

/-- Text, space, a line break, or a tag of a paragraph, a list, an item or emphasis. -/
def Html.Token.IsBasic (t : Html.Token) : Prop :=
  t.kind = .characters ∨ t.kind = .spaceCharacters ∨ t.isNamed .emptyTag "br" = true ∨
    (t.kind = .startTag ∨ t.kind = .endTag) ∧ t.tagName ∈ ["p", "ul", "ol", "li", "em", "strong"]

instance (t : Html.Token) : Decidable t.IsBasic := inferInstanceAs (Decidable (_ ∨ _))

namespace Conversion

open Markdown (Token Bullet TextRun)

inductive Mark (o : Options) : Token → Prop
  | blockStart : Mark o .startBlock
  | blockEnd : Mark o .endBlock
  | item (depth : Nat) (bullet : Bullet) : Mark o (.listItemStart depth bullet)
  | emphasis (strong : Bool) : Mark o (emphasisMarker o strong)
  | fused : Mark o (.boldItalic o.boldItalicMark)
  | gap (gap : Gap) : Mark o gap.token
  | newlineHard : Mark o .newlineHard

/-- Outside of code, scripts and quotes, no text is left out for a link, and inside of a list no
other list is waited for. -/
structure Context.Basic (ctx : Context) : Prop where
  sensitive : ctx.sensitive = 0
  scriptStrip : ctx.scriptStrip = 0
  quotes : ctx.blockquote = 0
  consumed : ctx.consumedText = none
  references : ctx.references.isEmpty = true
  continued : ctx.lists ≠ [] → ctx.listContinuation = false

/-- A list context begins, or it ends and no other list is waited for. -/
def Context.Turns (ctx ctx' : Context) : Prop :=
  ctx.inList = false ∧ ctx'.lists ≠ [] ∨ ctx.lists ≠ [] ∧ ctx'.inList = false

/-- The reaction writes marks, or lines for a text, and the context stays basic. A list context
begins and ends with a mark that calls for white space. -/
structure Reaction.Basic (r : Reaction) (o : Options) (t : Html.Token) (ctx : Context) : Prop where
  context : r.context.Basic
  produced : ∀ m ∈ r.produced, Mark o m ∨ t.kind = .characters ∧ m.IsLine
  replaced : r.replacesLast = true → .newlineBlank ∈ r.produced
  lists : r.context.inList = ctx.inList ∨ ∃ m ∈ r.produced, m.Parts

variable {o : Options} {w : Window} {last : Option Token} {ctx ctx' : Context} {r : Reaction}
  {t : Html.Token} {m : Token}

theorem Context.inList_eq_false_iff :
    ctx.inList = false ↔ ctx.lists = [] ∧ ctx.listContinuation = false := by
  simp [Context.inList]

theorem Context.Basic.region (h : ctx.Basic) : ctx.region o = .ordinary :=
  Context.region_eq_ordinary_iff.mpr ⟨by simp [h.scriptStrip], h.sensitive⟩

theorem Context.Basic.of_eq (h : ctx.Basic) (hsensitive : ctx'.sensitive = ctx.sensitive)
    (hstrip : ctx'.scriptStrip = ctx.scriptStrip) (hquotes : ctx'.blockquote = ctx.blockquote)
    (hconsumed : ctx'.consumedText = ctx.consumedText)
    (hreferences : ctx'.references = ctx.references)
    (hcontinued : ctx'.lists ≠ [] → ctx'.listContinuation = false) : ctx'.Basic where
  sensitive := hsensitive.trans h.sensitive
  scriptStrip := hstrip.trans h.scriptStrip
  quotes := hquotes.trans h.quotes
  consumed := hconsumed.trans h.consumed
  references := hreferences ▸ h.references
  continued := hcontinued

theorem Mark.shown? (h : Mark o m) : m.shown? = none := by
  cases h with
  | emphasis strong => cases strong <;> rfl
  | gap gap => cases gap <;> rfl
  | _ => rfl

theorem Mark.unquoted (h : Mark o m) : m.quoteDepth = none ∧ m.inCode = false := by
  cases h with
  | emphasis strong => cases strong <;> exact ⟨rfl, rfl⟩
  | gap gap => cases gap <;> exact ⟨rfl, rfl⟩
  | _ => exact ⟨rfl, rfl⟩

theorem Mark.untagged (h : Mark o m) : m.Untagged := by
  intro rawText
  cases h with
  | emphasis strong => cases strong <;> rfl
  | gap gap => cases gap <;> rfl
  | _ => rfl

theorem blank_gap (gap : Gap) : gap.token.Blank := by
  have hspace : Text.isWhite ' ' = true := by decide
  have hnewline : Text.isWhite '\n' = true := by decide
  cases gap with
  | space => exact ⟨.space, " ", rfl, by decide, ' ', by decide, hspace⟩
  | newline => exact ⟨.newline, "\n", rfl, by decide, '\n', by decide, hnewline⟩
  | blank => exact ⟨.newlineBlank, "\n\n", rfl, by decide, '\n', by decide, hnewline⟩

theorem blank_newlineHard : Token.newlineHard.Blank :=
  ⟨.newlineHard, "  \n", rfl, by decide, '\n', by decide, by decide⟩

theorem blank_listItemStart (depth : Nat) (bullet : Bullet) :
    (Token.listItemStart depth bullet).Blank :=
  ⟨.listItemStart, _, rfl, by decide, '\n', by simp, by decide⟩

theorem Mark.flows (h : Mark o m) : m.Flows := by
  have of_tag {tag : Markdown.Tag} (htag : m.tag? = some tag) (hflows : tag.flows = true)
      (hblank : tag.isWhitespace = true ∨ tag = .listItemStart → m.Blank) : m.Flows :=
    ⟨fun tag' h => Option.some.inj (htag.symm.trans h) ▸ hflows,
      fun tag' h => Option.some.inj (htag.symm.trans h) ▸ hblank⟩
  cases h with
  | blockStart | blockEnd | fused => exact of_tag rfl rfl (by simp [Markdown.Tag.isWhitespace])
  | item depth bullet => exact of_tag rfl rfl fun _ => blank_listItemStart depth bullet
  | emphasis strong =>
    cases strong <;> exact of_tag rfl rfl (by simp [Markdown.Tag.isWhitespace])
  | gap gap => cases gap <;> exact of_tag rfl rfl fun _ => blank_gap _
  | newlineHard => exact of_tag rfl rfl fun _ => blank_newlineHard

theorem Mark.exists_node (h : Mark o m) :
    ∃ tag data, m.node = .markdown tag data ∧ tag.renderKind ≠ .text := by
  cases h with
  | emphasis strong => cases strong <;> exact ⟨_, _, rfl, by decide⟩
  | gap gap => cases gap <;> exact ⟨_, _, rfl, by decide⟩
  | _ => exact ⟨_, _, rfl, by decide⟩

theorem parts_startBlock : Token.startBlock.Parts := .inl rfl

theorem parts_endBlock : Token.endBlock.Parts := .inr (.inl rfl)

theorem parts_listItemStart (depth : Nat) (bullet : Bullet) :
    (Token.listItemStart depth bullet).Parts := .inr (.inr (blank_listItemStart depth bullet))

theorem no_parts_nil : ¬∃ m ∈ ([] : List Token), m.Parts := by simp

/-- The marks of emphasis are no white space. -/
theorem not_parts_of_marks {tag : Markdown.Tag} {data : String} {mark : Char}
    (hmark : mark ∈ Options.emphasisMarks) (hdata : ∀ c ∈ data.toList, c = mark)
    (hstart : tag.isBlockStart = false) (hend : tag.isBlockEnd = false) :
    ¬(Token.markdown tag data).Parts := by
  have hink : Text.isWhite mark = false := by
    simp only [Options.emphasisMarks, List.mem_cons, List.not_mem_nil, or_false] at hmark
    rcases hmark with rfl | rfl <;> decide
  rintro (h | h | ⟨tag', data', hnode, -, c, hc, hwhite⟩)
  · cases hstart.symm.trans h
  · cases hend.symm.trans h
  · cases hnode
    rw [hdata c hc, hink] at hwhite
    cases hwhite

theorem not_parts_emphasis (ho : o.Valid) (strong : Bool) : ¬(emphasisMarker o strong).Parts := by
  cases strong with
  | false => exact not_parts_of_marks ho.emphasisMark (by simp [Char.toString]) rfl rfl
  | true =>
    exact not_parts_of_marks ho.strongMark (by simp [Markdown.repeated, Char.toString]) rfl rfl

theorem not_parts_fused (ho : o.Valid) : ¬(Token.boldItalic o.boldItalicMark).Parts :=
  not_parts_of_marks ho.boldItalicMark (by simp [Markdown.repeated, Char.toString]) rfl rfl

namespace Reaction.Basic

theorem quiet (h : ctx'.Basic) (hlists : ctx'.inList = ctx.inList) :
    (Reaction.quiet ctx').Basic o t ctx :=
  ⟨h, List.forall_mem_nil _, fun h => (by cases h), .inl hlists⟩

theorem remark (h : ctx.Basic) (n : Notice) : (Reaction.remark ctx n).Basic o t ctx :=
  ⟨h, List.forall_mem_nil _, fun h => (by cases h), .inl rfl⟩

theorem emit (h : ctx'.Basic) (hm : Mark o m) (hlists : ctx'.inList = ctx.inList ∨ m.Parts) :
    (Reaction.emit ctx' [m]).Basic o t ctx :=
  ⟨h, List.forall_mem_singleton.mpr (.inl hm), fun h => (by cases h),
    hlists.imp_right fun h => ⟨m, List.mem_singleton_self m, h⟩⟩

end Reaction.Basic

theorem basic_paragraph {name : String} {opening : Bool} (hc : ctx.Basic)
    (h : paragraph name opening ctx = .ok r) :
    r.Basic o t ctx ∧ ∃ m ∈ r.produced, m.Parts := by
  obtain ⟨_, _, rfl⟩ := paragraph_eq h
  cases opening with
  | true =>
    exact ⟨.emit (hc.of_eq rfl rfl rfl rfl rfl hc.continued) .blockStart (.inl rfl), _,
      List.mem_singleton_self _, parts_startBlock⟩
  | false =>
    exact ⟨.emit (hc.of_eq rfl rfl rfl rfl rfl hc.continued) .blockEnd (.inl rfl), _,
      List.mem_singleton_self _, parts_endBlock⟩

/-- What a list writes at its start, it writes where the list context begins. -/
theorem basic_openList (hc : ctx.Basic) (kind : Html.ListKind) :
    (openList kind ctx).Basic o t ctx ∧
      ∀ m ∈ (openList kind ctx).produced, ctx.Turns (openList kind ctx).context := by
  unfold openList
  dsimp only
  split_ifs with hlists hcontinued
  · exact ⟨.quiet (hc.of_eq rfl rfl rfl rfl rfl fun _ => hc.continued hlists)
      (by simp [Context.inList, hlists]), List.forall_mem_nil _⟩
  · exact ⟨.quiet (hc.of_eq rfl rfl rfl rfl rfl fun _ => rfl)
      (by simp [Context.inList, hcontinued]), List.forall_mem_nil _⟩
  · have hfree : ctx.listContinuation = false := eq_false_of_ne_true hcontinued
    exact ⟨.emit (hc.of_eq rfl rfl rfl rfl rfl fun _ => hfree) .blockStart (.inr parts_startBlock),
      fun _ _ => .inl ⟨Context.inList_eq_false_iff.mpr ⟨not_not.mp hlists, hfree⟩,
        List.cons_ne_nil _ _⟩⟩

theorem basic_closeList {more : Bool} (hc : ctx.Basic) (h : closeList more ctx = .ok r) :
    r.Basic o t ctx ∧ ∀ m ∈ r.produced, ctx.Turns r.context := by
  unfold closeList at h
  split at h
  · cases h
  · next outer hlists =>
    have hfree := hc.continued (by simp [hlists])
    cases h
    split_ifs with houter
    · exact ⟨.quiet (hc.of_eq rfl rfl rfl rfl rfl fun _ => hfree)
        (by simp [Context.inList, hlists, houter]), List.forall_mem_nil _⟩
    · exact ⟨.quiet (hc.of_eq rfl rfl rfl rfl rfl fun h => absurd h houter)
        (by simp [Context.inList, hlists]), List.forall_mem_nil _⟩
    · exact ⟨.emit (hc.of_eq rfl rfl rfl rfl rfl fun _ => hfree) .blockEnd (.inr parts_endBlock),
        fun _ _ => .inr ⟨by simp [hlists],
          Context.inList_eq_false_iff.mpr ⟨not_not.mp houter, hfree⟩⟩⟩

theorem basic_item {opening : Bool} (hc : ctx.Basic) (h : item o opening ctx = .ok r) :
    r.Basic o t ctx ∧ ((∃ m ∈ r.produced, m.Parts) ↔ opening = true) := by
  cases opening with
  | true =>
    cases h
    refine ⟨.emit ?_ (.item _ _) (.inr (parts_listItemStart _ _)), fun _ => rfl, fun _ =>
      ⟨_, List.mem_singleton_self _, parts_listItemStart _ _⟩⟩
    split
    · next hlists =>
      exact hc.of_eq rfl rfl rfl rfl rfl fun _ => hc.continued (ne_of_eq_of_ne hlists (by simp))
    · exact hc.of_eq rfl rfl rfl rfl rfl hc.continued
  | false =>
    obtain ⟨_, rfl⟩ := closeItem_eq h
    exact ⟨.quiet (hc.of_eq rfl rfl rfl rfl rfl hc.continued) rfl,
      fun h => absurd h no_parts_nil, fun h => (by cases h)⟩

theorem basic_emphasis (ho : o.Valid) (hc : ctx.Basic) (strong opening : Bool) :
    (emphasis o w strong opening ctx).Basic o t ctx ∧
      ∀ m ∈ (emphasis o w strong opening ctx).produced, ¬m.Parts := by
  obtain ⟨_, us, ⟨fusions, rfl⟩, hus, h⟩ := emphasis_eq o w strong opening ctx
  have hbasic : Context.Basic { ctx with fusions } :=
    hc.of_eq rfl rfl rfl rfl rfl hc.continued
  rw [h]
  rcases hus with rfl | rfl | rfl
  · exact ⟨⟨hbasic, List.forall_mem_nil _, fun h => (by cases h), .inl rfl⟩,
      List.forall_mem_nil _⟩
  · exact ⟨.emit hbasic .fused (.inl rfl), List.forall_mem_singleton.mpr (not_parts_fused ho)⟩
  · exact ⟨.emit hbasic (.emphasis strong) (.inl rfl),
      List.forall_mem_singleton.mpr (not_parts_emphasis ho strong)⟩

theorem roleOf_basic {name : String} (h : name ∈ ["p", "ul", "ol", "li", "em", "strong"]) :
    name = "p" ∧ Html.roleOf name = .paragraph ∨ (∃ kind, Html.roleOf name = .list kind) ∨
      name = "li" ∧ Html.roleOf name = .item ∨ ∃ strong, Html.roleOf name = .emphasis strong := by
  simp only [List.mem_cons, List.not_mem_nil, or_false] at h
  rcases h with rfl | rfl | rfl | rfl | rfl | rfl
  · exact .inl ⟨rfl, by decide⟩
  · exact .inr (.inl ⟨.unordered, by decide⟩)
  · exact .inr (.inl ⟨.ordered, by decide⟩)
  · exact .inr (.inr (.inl ⟨rfl, by decide⟩))
  · exact .inr (.inr (.inr ⟨false, by decide⟩))
  · exact .inr (.inr (.inr ⟨true, by decide⟩))

/-- A tag writes what calls for white space only if it is a paragraph's or the start of an item, or
if a list context begins or ends with it. -/
theorem basic_pairedTag (ho : o.Valid) (hc : ctx.Basic)
    (hn : w.token.tagName ∈ ["p", "ul", "ol", "li", "em", "strong"])
    (h : pairedTag o w ctx = .ok r) : r.Basic o t ctx ∧ ((∃ m ∈ r.produced, m.Parts) →
      w.token.tagName = "p" ∨ w.token.tagName = "li" ∧ w.token.kind = .startTag ∨
        ctx.Turns r.context) := by
  unfold pairedTag at h
  dsimp only at h
  rcases roleOf_basic hn with ⟨hp, hrole⟩ | ⟨kind, hrole⟩ | ⟨hli, hrole⟩ | ⟨strong, hrole⟩
  · rw [hrole] at h
    exact ⟨(basic_paragraph hc h).1, fun _ => .inl hp⟩
  · rw [hrole] at h
    dsimp only at h
    split at h
    · cases h
      obtain ⟨hb, hchanges⟩ := basic_openList hc kind
      refine ⟨hb, ?_⟩
      rintro ⟨m, hm, -⟩
      exact .inr (.inr (hchanges m hm))
    · obtain ⟨hb, hchanges⟩ := basic_closeList hc h
      refine ⟨hb, ?_⟩
      rintro ⟨m, hm, -⟩
      exact .inr (.inr (hchanges m hm))
  · rw [hrole] at h
    obtain ⟨hb, hiff⟩ := basic_item hc h
    exact ⟨hb, fun hparts => .inr (.inl ⟨hli, eq_of_beq (hiff.mp hparts)⟩)⟩
  · rw [hrole] at h
    cases h
    obtain ⟨hb, hnot⟩ := basic_emphasis ho hc strong (w.token.kind == .startTag)
    refine ⟨hb, ?_⟩
    rintro ⟨m, hm, hparts⟩
    exact absurd hparts (hnot m hm)

theorem isBareLink_basic : ∀ name ∈ ["p", "ul", "ol", "li", "em", "strong"],
    Html.isBareLink name = false := by decide

theorem basic_tag (ho : o.Valid) (hc : ctx.Basic)
    (hn : w.token.tagName ∈ ["p", "ul", "ol", "li", "em", "strong"])
    (h : tag o w ctx = .ok r) : r.Basic o t ctx ∧ ((∃ m ∈ r.produced, m.Parts) →
      w.token.name.filter w.isEmptyPair = none ∧ (w.token.tagName = "p" ∨
        w.token.tagName = "li" ∧ w.token.kind = .startTag ∨ ctx.Turns r.context)) := by
  unfold tag at h
  split at h
  · next name hname =>
    have hsame : w.token.tagName = name := by
      simp [Html.Token.tagName, (Option.filter_eq_some_iff.mp hname).1]
    cases h
    unfold emptyPair
    rw [← hsame, isBareLink_basic _ hn, if_neg Bool.false_ne_true]
    exact ⟨.remark hc _, fun h => absurd h no_parts_nil⟩
  · next hname =>
    obtain ⟨hb, hparts⟩ := basic_pairedTag ho hc hn h
    exact ⟨hb, fun h => ⟨hname, hparts h⟩⟩

theorem basic_lineBreak (hc : ctx.Basic) : (lineBreak last ctx).Basic o t ctx := by
  unfold lineBreak
  split_ifs
  · exact .quiet hc rfl
  · exact .emit hc .newlineHard (.inl rfl)

/-- Outside of sensitive elements space is not kept as it is. -/
theorem settleSpace_ne_raw (raw : Html.Token) (last : Option Token) (inList : Bool) :
    settleSpace raw last false inList ≠ .push (.html raw) := by
  have hgap (gap : Gap) : gap.token ≠ .html raw := by cases gap <;> exact fun h => by cases h
  unfold settleSpace Gap.behind
  dsimp only
  split_ifs
  all_goals first
    | contradiction
    | exact fun h => hgap _ (Disposition.push.inj h)
    | exact fun h => (by cases h)

theorem basic_spaceCharacters (hc : ctx.Basic) : (spaceCharacters t last ctx).Basic o t ctx := by
  have hsensitive : decide (0 < ctx.sensitive) = false := by simp [hc.sensitive]
  unfold spaceCharacters
  rw [hsensitive]
  rcases settleSpace_cases t last false ctx.inList with heq | heq | ⟨gap, heq⟩ | ⟨heq, -⟩
  · rw [heq]
    exact .quiet hc rfl
  · exact absurd heq (settleSpace_ne_raw t last ctx.inList)
  · rw [heq]
    exact .emit hc (.gap gap) (.inl rfl)
  · rw [heq]
    exact ⟨hc, List.forall_mem_singleton.mpr (.inl (.gap .blank)),
      fun _ => List.mem_singleton_self _, .inl rfl⟩

theorem characters_of_basic (hc : ctx.Basic) : characters w ctx = .emit ctx
    (textTokens (Text.flowChars (0 < ctx.paragraph) w.token.content.toList)) := by
  simp [characters, hc.consumed]

theorem forall_mem_textTokens {P : Token → Prop} {cs : List Char}
    (hline : ∀ m : Token, m.IsLine → P m) (hnewline : P .newline) : ∀ m ∈ textTokens cs, P m := by
  by_cases hempty : cs = []
  · rw [hempty]
    exact List.forall_mem_nil _
  · exact (Markdown.textRun_textTokens hempty).forall_mem hline hnewline

theorem basic_characters (hc : ctx.Basic) (hk : w.token.kind = .characters) :
    (characters w ctx).Basic o w.token ctx := by
  rw [characters_of_basic hc]
  exact ⟨hc, forall_mem_textTokens (fun m hm => .inr ⟨hk, hm⟩) (.inl (.gap .newline)),
    fun h => (by cases h), .inl rfl⟩

theorem emptyTag_br (o : Options) (last : Option Token) (ctx : Context)
    (hbr : w.token.isNamed .emptyTag "br" = true) :
    w.token.kind = .emptyTag ∧ emptyTag o w.token last ctx = lineBreak last ctx := by
  obtain ⟨hk, hname⟩ : w.token.kind = .emptyTag ∧ w.token.name = some "br" := by
    simpa [Html.Token.isNamed] using hbr
  have hn : w.token.tagName = "br" := by simp [Html.Token.tagName, hname]
  refine ⟨hk, ?_⟩
  unfold emptyTag
  rw [hn]
  rfl

/-- Every reaction to a basic token in a basic context is basic. -/
theorem basic_of_react (ho : o.Valid) (hw : w.token.IsBasic) (hc : ctx.Basic)
    (h : react o w last ctx = .ok r) : r.Basic o w.token ctx := by
  rw [react_of_ordinary hc.region] at h
  unfold ordinary at h
  rcases hw with hk | hk | hbr | ⟨hk, hn⟩
  · rw [hk] at h
    cases h
    exact basic_characters hc hk
  · rw [hk] at h
    cases h
    exact basic_spaceCharacters hc
  · obtain ⟨hk, hbreak⟩ := emptyTag_br o last ctx hbr
    rw [hk, hbreak] at h
    cases h
    exact basic_lineBreak hc
  · rcases hk with hk | hk
    · rw [hk] at h
      exact (basic_tag ho hc hn h).1
    · rw [hk] at h
      exact (basic_tag ho hc hn h).1

end Conversion

end HtmlMarkdown
