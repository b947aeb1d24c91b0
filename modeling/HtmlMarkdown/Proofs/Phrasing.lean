import HtmlMarkdown.Proofs.Flowing
import HtmlMarkdown.Proofs.LinePieces
import HtmlMarkdown.Proofs.TakenText
import HtmlMarkdown.Proofs.WordsApart

/-!
# Newlines on the line of a heading

Behind the mark of a heading, text, white space, emphasis and anchors are written as pieces of a
line, and tags that are left out as nothing. A newline gets into the line with text outside of
paragraphs, with white space outside of lists, and with the address, the title or the attributes of
an anchor.
-/

namespace HtmlMarkdown

open Markdown (Token Tag)

/-- A name that is read as a link is that of a bare link, or of a heading. -/
theorem Html.roleOf_of_isBareLink {name : String} (h : isBareLink name = true) :
    roleOf name = .bareLink ∨ ∃ level, roleOf name = .heading level := by
  have hall : ∀ n ∈ ruledNames, isBareLink n = false := by decide
  have hm : name ∉ ruledNames := by
    intro hm
    rw [hall name hm] at h
    cases h
  rw [roleOf_of_not_mem_ruledNames hm]
  cases headingLevel? name with
  | some level => exact .inr ⟨level, rfl⟩
  | none => simp [h]

namespace Options

/-- The tags of the element are left out, and its content stays. -/
def drops (o : Options) (name : String) : Bool :=
  match Html.roleOf name with
  | .other => !o.isPassthrough name
  | .bareLink => !o.bareAutolinks
  | _ => false

def isPhrase (o : Options) (t : Html.Token) : Bool :=
  match t.kind with
  | .characters | .spaceCharacters => true
  | .startTag | .endTag =>
    match Html.roleOf t.tagName with
    | .emphasis _ | .anchor => true
    | _ => o.drops t.tagName
  | .emptyTag => !(["img", "br", "hr"].contains t.tagName || o.isPassthrough t.tagName)
  | .comment | .doctype | .parseError => false

/-- A start or end tag of a line is one of emphasis, of an anchor, or one that is left out. -/
theorem isPhrase_of_tag {o : Options} {t : Html.Token}
    (hk : t.kind = .startTag ∨ t.kind = .endTag) (h : o.isPhrase t = true) :
    (∃ strong, Html.roleOf t.tagName = .emphasis strong) ∨ Html.roleOf t.tagName = .anchor ∨
      Html.roleOf t.tagName = .bareLink ∧ o.bareAutolinks = false ∨
      Html.roleOf t.tagName = .other ∧ o.isPassthrough t.tagName = false := by
  have htag : (match Html.roleOf t.tagName with
      | .emphasis _ | .anchor => true
      | _ => o.drops t.tagName) = true := by
    unfold isPhrase at h
    rcases hk with hk | hk <;> rwa [hk] at h
  unfold drops at htag
  cases hrole : Html.roleOf t.tagName with
  | emphasis strong => exact .inl ⟨strong, rfl⟩
  | anchor => exact .inr (.inl rfl)
  | bareLink => exact .inr (.inr (.inl ⟨rfl, by simpa [hrole] using htag⟩))
  | other => exact .inr (.inr (.inr ⟨rfl, by simpa [hrole] using htag⟩))
  | _ => simp [hrole] at htag

def SpellsOut (o : Options) (href text : String) (title : Option String) : Prop :=
  o.referenceLinks = false ∨
    o.simplifySelfLinks = true ∧ (text = "" ∨ text = href) ∧ title = none

end Options

namespace Markdown

open Conversion (textTokens)

variable {t : Token} {cs : List Char}

theorem Token.breaks_markdown {tag : Tag} (hkind : tag.renderKind ≠ .text) (data : String) :
    (Token.markdown tag data).Breaks ↔ '\n' ∈ data.toList := by
  have hchars : (Token.markdown tag data).ownChars none = data.toList :=
    chars_markdown hkind data none
  rw [Token.Breaks, hchars]

theorem Token.isPiece_markdown {tag : Tag} (h : tag.isPiece = true) (hn : tag.isNewline = false)
    (data : String) : (Token.markdown tag data).IsPiece :=
  ⟨h, fun hnewline => absurd (hn.symm.trans hnewline) Bool.false_ne_true⟩

theorem Token.isPiece_gap (gap : Conversion.Gap) :
    gap.token.IsPiece ∧ (gap.token.Breaks ↔ gap ≠ .space) := by
  cases gap with
  | space =>
    exact ⟨isPiece_markdown rfl rfl _, iff_of_false (by simp [Breaks, ownChars, chars,
      Conversion.Gap.token, Token.space, markdown, Tag.renderKind]) (by simp)⟩
  | newline | blank =>
    exact ⟨⟨rfl, fun _ => by decide⟩, iff_of_true ((breaks_markdown (by decide) _).mpr (by decide))
      (by decide)⟩

theorem Token.IsPiece.breaks_of_isNewline (h : t.IsPiece) (hn : t.isNewline = true) :
    t.Breaks := by
  obtain ⟨node, depth, inCode⟩ := t
  cases node with
  | markdown tag data =>
    have htag : tag.isNewline = true := hn
    have hkind : tag.renderKind ≠ .text := by cases tag <;> first | decide | cases htag
    have hchars : Token.ownChars none ⟨.markdown tag data, depth, inCode⟩ = data.toList :=
      chars_of_node rfl hkind none
    rw [Token.Breaks, hchars]
    exact h.2 htag
  | native edge raw => exact h.elim
  | html raw => cases hn

namespace Token.IsLine

theorem not_breaks (h : t.IsLine) : ¬t.Breaks := by
  obtain ⟨s, hs, hline⟩ := h
  have hchars : t.ownChars none = s.toList.flatMap Text.escapeChar := by
    rcases hline with rfl | rfl <;> exact Text.escapeQuoted_zero rfl s.toList
  rwa [Token.Breaks, hchars, Text.newline_mem_escaped_iff]

theorem closes (h : t.IsLine) : t.Closes := by
  have hends : ∀ s ∈ t.text?, s.toList.getLast? ≠ some '\n' := by
    intro s hs hlast
    exact h.not_mem_text s hs (List.mem_of_getLast? hlast)
  obtain ⟨s, -, rfl | rfl⟩ := h
  · refine ⟨rfl, ?_, hends⟩
    intro raw hraw
    cases hraw
    simp [Html.Token.characters]
  · exact ⟨rfl, fun raw hraw => (Option.not_mem_none raw hraw).elim, hends⟩

end Token.IsLine

/-- The text of a token is written with a newline if it has one. -/
theorem exists_breaks_textTokens (cs : List Char) :
    (∃ t ∈ textTokens cs, t.Breaks) ↔ '\n' ∈ cs := by
  have hnewline : Token.newline.Breaks := (Token.breaks_markdown (by decide) _).mpr (by decide)
  by_cases hempty : cs = []
  · subst hempty
    simp [textTokens, Text.splitNewlines]
  · rcases Text.splitNewlines_cases cs with ⟨hn, hsplit⟩ | ⟨line, rest, -, hcs, hsplit⟩
    · refine iff_of_false ?_ hn
      rw [textTokens, hsplit]
      simp only [if_neg hempty, List.mem_singleton, exists_eq_left]
      apply Token.IsLine.not_breaks
      exact ⟨_, by rwa [String.toList_ofList], .inl rfl⟩
    · refine iff_of_true ⟨.newline, ?_, hnewline⟩ (by simp [hcs])
      obtain ⟨next, lines, hrest⟩ := List.exists_cons_of_ne_nil (Text.splitNewlines_ne_nil rest)
      rw [textTokens, hsplit, hrest]
      simp

theorem isPiece_textTokens (cs : List Char) : ∀ t ∈ textTokens cs, t.IsPiece := by
  intro t ht
  rcases Conversion.mem_textTokens ht with ⟨s, rfl⟩ | ⟨s, rfl⟩ | rfl
  · trivial
  · exact Token.isPiece_markdown rfl rfl s
  · exact (Token.isPiece_gap .newline).1

end Markdown

namespace Conversion

variable {o : Options} {w : Window} {ctx : Context} {r : Reaction} {s : State} {v : Html.Token}
  {rest : List Html.Token}

/-- What was written last, but for white space, is the mark of a heading. -/
def State.headed (s : State) : Bool :=
  (s.emitted.find? fun t => !t.tagIs Tag.isWhitespace).any (·.hasTag .headingStart)

inductive State.BreaksLine (o : Options) (s : State) (v : Html.Token) (rest : List Html.Token) :
    Prop
  /-- A text that no link has taken keeps its lines outside of paragraphs. -/
  | text (hk : v.kind = .characters) (hown : s.context.consumedText ≠ some s.index)
      (hp : s.context.paragraph = 0) (h : '\n' ∈ Text.flowChars false v.content.toList)
  /-- White space on several lines stays outside of lists. -/
  | space (hk : v.kind = .spaceCharacters) (hlist : s.context.inList = false)
      (hbehind : s.headed = false) (h : '\n' ∈ v.content.toList)
  /-- A link spells its address and its title out. -/
  | link {href text : String} (hn : v.isNamed .startTag "a" = true)
      (htags : o.anchorsAsTags = false) (htext : (s.window v rest).flatText? = some text)
      (hhref : v.filledAttribute? "href" = some href)
      (hspelled : o.SpellsOut href (Text.flow true text) (v.filledAttribute? "title"))
      (h : '\n' ∈ href.toList ∨ ∃ title ∈ v.filledAttribute? "title", '\n' ∈ title.toList)
  /-- An anchor that stays a tag keeps its attributes. -/
  | tag (hn : v.isNamed .startTag "a" = true)
      (hcontent : (s.window v rest).isEmptyPair "a" = false)
      (htags : o.anchorsAsTags = true ∨ (s.window v rest).flatText? = none)
      (h : '\n' ∈ Markdown.openTagChars (o.clean v))

/-- White space on several lines that stands directly behind the mark of a heading. -/
structure State.LeadsLine (s : State) (v : Html.Token) : Prop where
  kind : v.kind = .spaceCharacters
  list : s.context.inList = false
  headed : s.headed = true
  newline : '\n' ∈ v.content.toList

/-- What a token of a line leads to, unless it is white space: pieces of a line, with a newline
exactly if the token brings one, and a text is taken for a link that stands there with nothing
behind it. -/
structure Reaction.Phrased (r : Reaction) (o : Options) (w : Window) (ctx : Context)
    (brings : Prop) : Prop where
  keepsLast : r.replacesLast = false
  region : r.context.region o = ctx.region o
  pieces : ∀ u ∈ r.produced, u.IsPiece
  breaks : (∃ u ∈ r.produced, u.Breaks) ↔ brings
  taken : ∀ i ∈ r.context.consumedText, ctx.consumedText = some i ∨
    i = w.index + 1 ∧ ∃ u ∈ r.produced.getLast?, u.Closes

namespace Reaction.Phrased

theorem of_nothing (hkeeps : r.replacesLast = false)
    (hregion : r.context.region o = ctx.region o) (hnone : r.produced = [])
    (htaken : ∀ i ∈ r.context.consumedText, ctx.consumedText = some i) :
    r.Phrased o w ctx False := by
  refine ⟨hkeeps, hregion, ?_, ?_, fun i hi => .inl (htaken i hi)⟩
  · rw [hnone]
    exact List.forall_mem_nil _
  · simp [hnone]

theorem congr {p q : Prop} (h : r.Phrased o w ctx p) (hpq : p ↔ q) : r.Phrased o w ctx q :=
  ⟨h.keepsLast, h.region, h.pieces, h.breaks.trans hpq, h.taken⟩

theorem quiet : (Reaction.quiet ctx).Phrased o w ctx False := .of_nothing rfl rfl rfl fun _ hi => hi

theorem remark (n : Notice) : (Reaction.remark ctx n).Phrased o w ctx False :=
  .of_nothing rfl rfl rfl fun _ hi => hi

end Reaction.Phrased

theorem phrased_characters (w : Window) (ctx : Context) :
    (characters w ctx).Phrased o w ctx (ctx.consumedText ≠ some w.index ∧ ctx.paragraph = 0 ∧
      '\n' ∈ Text.flowChars false w.token.content.toList) := by
  unfold characters
  split_ifs with htaken
  · have hnothing : (Reaction.quiet { ctx with consumedText := none }).Phrased o w ctx False :=
      .of_nothing rfl rfl rfl fun i hi => (Option.not_mem_none i hi).elim
    exact hnothing.congr (by simp [htaken])
  · refine ⟨rfl, rfl, Markdown.isPiece_textTokens _, ?_, fun i hi => .inl hi⟩
    change (∃ u ∈ textTokens _, u.Breaks) ↔ _
    rw [Markdown.exists_breaks_textTokens]
    by_cases hp : ctx.paragraph = 0
    · simp [hp, htaken]
    · have hpos : 0 < ctx.paragraph := Nat.pos_of_ne_zero hp
      have hflow := Text.not_mem_flow w.token.content
      rw [Text.flow, String.toList_ofList] at hflow
      simp [hp, hpos, hflow]

theorem newline_ne_mark {c : Char} (h : c ∈ Options.emphasisMarks) : c ≠ '\n' := by
  rintro rfl
  exact absurd h (by decide)

theorem not_mem_repeated {c : Char} (h : c ≠ '\n') (n : Nat) :
    '\n' ∉ (Markdown.repeated n c.toString).toList := by
  rw [Markdown.repeated, String.toList_ofList, List.mem_flatten]
  rintro ⟨cs, hcs, hmem⟩
  rw [List.eq_of_mem_replicate hcs] at hmem
  have hc : '\n' = c := by simpa using hmem
  exact h hc.symm

theorem phrased_emphasis (ho : o.Valid) (strong opening : Bool) :
    (emphasis o w strong opening ctx).Phrased o w ctx False := by
  obtain ⟨c, us, ⟨fusions, rfl⟩, hus, heq⟩ := emphasis_eq o w strong opening ctx
  have hmark : ∀ u ∈ us, u.IsPiece ∧ ¬u.Breaks := by
    have hboth : (Token.boldItalic o.boldItalicMark).IsPiece ∧
        ¬(Token.boldItalic o.boldItalicMark).Breaks := by
      refine ⟨Token.isPiece_markdown rfl rfl _, ?_⟩
      rw [Token.boldItalic, Token.breaks_markdown (by decide)]
      exact not_mem_repeated (newline_ne_mark ho.boldItalicMark) 3
    have hone : (emphasisMarker o strong).IsPiece ∧ ¬(emphasisMarker o strong).Breaks := by
      cases strong with
      | true =>
        refine ⟨Token.isPiece_markdown rfl rfl _, ?_⟩
        change ¬(Token.strong o.strongMark).Breaks
        rw [Token.strong, Token.breaks_markdown (by decide)]
        exact not_mem_repeated (newline_ne_mark ho.strongMark) 2
      | false =>
        refine ⟨Token.isPiece_markdown rfl rfl _, ?_⟩
        change ¬(Token.emphasis o.emphasisMark).Breaks
        rw [Token.emphasis, Token.breaks_markdown (by decide)]
        simpa using (newline_ne_mark ho.emphasisMark).symm
    rcases hus with rfl | rfl | rfl
    · exact List.forall_mem_nil _
    · exact List.forall_mem_singleton.mpr hboth
    · exact List.forall_mem_singleton.mpr hone
  rw [heq]
  refine ⟨rfl, rfl, fun u hu => (hmark u hu).1, ?_, fun i hi => .inl hi⟩
  refine iff_of_false ?_ id
  rintro ⟨u, hu, hbreaks⟩
  exact (hmark u hu).2 hbreaks

theorem newline_mem_titleSuffix_iff (title : Option String) :
    '\n' ∈ (Markdown.titleSuffix title).toList ↔ ∃ t ∈ title, '\n' ∈ t.toList := by
  constructor
  · intro h
    by_contra hnone
    push Not at hnone
    exact Markdown.not_mem_titleSuffix (by decide) hnone h
  · rintro ⟨t, rfl, h⟩
    have hempty : t ≠ "" := by
      rintro rfl
      exact List.not_mem_nil h
    have hescape : '\n' ∈ (Text.escapeTitle t).toList := by
      rw [Text.escapeTitle, String.toList_ofList]
      exact List.mem_flatMap.mpr ⟨'\n', h, by decide⟩
    simp [Markdown.titleSuffix, hempty, hescape]

/-- A link brings the newlines of its address and its title, unless it is written with a number. -/
theorem breaks_linkToken {href text : String} (htext : '\n' ∉ text.toList) (title : Option String)
    (ctx : Context) : (linkToken o href text title ctx).2.Breaks ↔ o.SpellsOut href text title ∧
      ('\n' ∈ href.toList ∨ ∃ t ∈ title, '\n' ∈ t.toList) := by
  unfold linkToken Options.SpellsOut
  split_ifs with hself hnumber
  · obtain ⟨hsimple, hsame, rfl⟩ := hself
    rw [Token.anchorSimple, Token.breaks_markdown (by decide)]
    simp [hsimple, hsame]
  · rw [Token.anchorReferenceLink, Token.breaks_markdown (by decide)]
    simpa [htext, hnumber, hself] using
      Markdown.not_mem_toString (c := '\n') rfl (ctx.references.number href)
  · rw [Token.anchorInline, Token.breaks_markdown (by decide)]
    simp [htext, hnumber, newline_mem_titleSuffix_iff]

theorem closes_linkToken (href text : String) (title : Option String) (ctx : Context) :
    (linkToken o href text title ctx).2.IsPiece ∧ (linkToken o href text title ctx).2.Closes := by
  have hends (tag : Tag) (front : String) {c : Char} (hc : c ≠ '\n') :
      ∀ s ∈ (Token.markdown tag (front ++ c.toString)).text?, s.toList.getLast? ≠ some '\n' := by
    intro s hs
    obtain rfl := Option.some.inj hs
    simpa using hc
  have hraw (tag : Tag) (data : String) : ∀ raw ∈ (Token.markdown tag data).raw?,
      raw.kind ≠ .spaceCharacters := fun raw h => (Option.not_mem_none raw h).elim
  unfold linkToken
  split_ifs
  · exact ⟨Token.isPiece_markdown rfl rfl _, rfl, hraw _ _, hends _ _ (c := '>') (by decide)⟩
  · exact ⟨Token.isPiece_markdown rfl rfl _, rfl, hraw _ _, hends _ _ (c := ']') (by decide)⟩
  · exact ⟨Token.isPiece_markdown rfl rfl _, rfl, hraw _ _, hends _ _ (c := ')') (by decide)⟩

theorem breaks_html_startTag {raw : Html.Token} (hk : raw.kind = .startTag) :
    (Token.html raw).Breaks ↔ '\n' ∈ Markdown.openTagChars raw := by
  have hchars : (Token.html raw).ownChars none = Markdown.openTagChars raw ++ ['>'] := by
    simp [Token.ownChars, Token.html, Token.chars, Markdown.htmlChars, hk]
  rw [Token.Breaks, hchars]
  simp

theorem isEmptyPair_of_flatText? {text name : String} (hk : w.token.kind = .startTag)
    (h : w.flatText? = some text) : w.isEmptyPair name = false := by
  unfold Window.flatText? at h
  split at h
  · next next hafter =>
    split_ifs at h with hflat
    simp [Window.isEmptyPair, hk, hafter, Html.Token.isNamed, hflat.1]
  · cases h

/-- The start tag of an anchor brings a newline as a link or as a tag. -/
theorem breaks_openAnchor (hn : v.isNamed .startTag "a" = true)
    (hcontent : (s.window v rest).isEmptyPair "a" = false) :
    (∃ u ∈ (openAnchor o (s.window v rest) s.context).produced, u.Breaks) ↔
      s.BreaksLine o v rest := by
  have hk : v.kind = .startTag := (isNamed_iff.mp hn).1
  have hclean : (o.clean v).kind = .startTag := hk
  have htoken : (s.window v rest).token = v := rfl
  constructor
  · unfold openAnchor
    dsimp only
    split
    · next hnone =>
      rintro ⟨u, hu, hbreaks⟩
      obtain rfl := List.mem_singleton.mp hu
      refine .tag hn hcontent ?_ ((breaks_html_startTag hclean).mp hbreaks)
      by_cases htags : o.anchorsAsTags = true
      · exact .inl htags
      · exact .inr (by rwa [if_neg htags] at hnone)
    · next text hsome =>
      have htags : o.anchorsAsTags = false := by
        by_contra htags
        simp [htags] at hsome
      have htext : (s.window v rest).flatText? = some text := by simpa [htags] using hsome
      split
      · simp [Reaction.quiet]
      · next href hhref =>
        rintro ⟨u, hu, hbreaks⟩
        obtain rfl := List.mem_singleton.mp hu
        obtain ⟨hspelled, hline⟩ := (breaks_linkToken (Text.not_mem_flow text) _ _).mp hbreaks
        exact .link hn htags htext hhref hspelled hline
  · intro h
    unfold openAnchor
    dsimp only
    cases h with
    | text hkind => simp [hk] at hkind
    | space hkind => simp [hk] at hkind
    | @link href text hn htags htext hhref hspelled hline =>
      simp only [htags, htext, Bool.false_eq_true, if_false, htoken, hhref]
      exact ⟨_, List.mem_singleton_self _,
        (breaks_linkToken (Text.not_mem_flow text) _ _).mpr ⟨hspelled, hline⟩⟩
    | tag hn hcontent htags hline =>
      have hnone : (if o.anchorsAsTags = true then none else (s.window v rest).flatText?) =
          none := by
        rcases htags with htags | hflat
        · rw [if_pos htags]
        · rw [hflat, ite_self]
      rw [hnone]
      exact ⟨_, List.mem_singleton_self _, (breaks_html_startTag hclean).mpr hline⟩

theorem phrased_openAnchor (hn : v.isNamed .startTag "a" = true)
    (hcontent : (s.window v rest).isEmptyPair "a" = false) :
    (openAnchor o (s.window v rest) s.context).Phrased o (s.window v rest) s.context
      (s.BreaksLine o v rest) := by
  have hbreaks := breaks_openAnchor (o := o) hn hcontent
  unfold openAnchor at hbreaks ⊢
  dsimp only at hbreaks ⊢
  split
  · next hnone =>
    simp only [hnone] at hbreaks
    exact ⟨rfl, rfl, List.forall_mem_singleton.mpr trivial, hbreaks, fun i hi => .inl hi⟩
  · next text htext =>
    simp only [htext] at hbreaks
    split
    · next hhref =>
      simp only [hhref] at hbreaks
      exact ⟨rfl, rfl, List.forall_mem_nil _, hbreaks, fun i hi => .inl hi⟩
    · next href hhref =>
      simp only [hhref] at hbreaks
      obtain ⟨hpiece, hcloses⟩ := closes_linkToken (o := o) href (Text.flow true text)
        ((s.window v rest).token.filledAttribute? "title") (s.context.enter .anchor)
      refine ⟨rfl, ?_, List.forall_mem_singleton.mpr hpiece, hbreaks, ?_⟩
      · unfold linkToken
        split_ifs <;> rfl
      · intro i hi
        exact .inr ⟨(Option.some.inj hi).symm, _, rfl, hcloses⟩

theorem phrased_closeAnchor (hk : w.token.kind = .endTag) (hname : w.token.tagName = "a")
    (h : closeAnchor o w ctx = .ok r) : r.Phrased o w ctx False := by
  obtain ⟨_, ⟨-, rfl⟩ | ⟨_, -, rfl⟩⟩ := closeAnchor_eq h
  · exact .of_nothing rfl rfl rfl fun i hi => hi
  · have hclean : (o.clean w.token).kind = .endTag := hk
    have htag : (o.clean w.token).tagName = "a" := hname
    have hchars : (Token.html (o.clean w.token)).ownChars none = "</a>".toList := by
      simp [Token.ownChars, Token.html, Token.chars, Markdown.htmlChars, hclean, htag]
    have hbreaks : ¬(Token.html (o.clean w.token)).Breaks := by
      rw [Token.Breaks, hchars]
      decide
    refine ⟨rfl, rfl, List.forall_mem_singleton.mpr trivial, ?_, fun i hi => .inl hi⟩
    refine iff_of_false ?_ id
    rintro ⟨u, hu, h⟩
    exact hbreaks (List.mem_singleton.mp hu ▸ h)

theorem State.not_breaksLine (hk : v.kind ≠ .characters) (hspace : v.kind ≠ .spaceCharacters)
    (ha : v.isNamed .startTag "a" = true → (s.window v rest).isEmptyPair "a" = true) :
    ¬s.BreaksLine o v rest := by
  intro h
  cases h with
  | text hkind => exact hk hkind
  | space hkind => exact hspace hkind
  | link hn htags htext =>
    have hpair := ha hn
    rw [isEmptyPair_of_flatText? (isNamed_iff.mp hn).1 htext] at hpair
    cases hpair
  | tag hn hcontent =>
    rw [ha hn] at hcontent
    cases hcontent

theorem phrased_autolink (h : o.bareAutolinks = false) (t : Html.Token) :
    (autolink o t ctx).Phrased o w ctx False := by
  have hdropped : autolink o t ctx = .remark ctx (.droppedBareLink t.tagName) := by
    simp [autolink, h]
  rw [hdropped]
  exact .remark _

theorem phrased_emptyPair (hk : v.kind = .startTag ∨ v.kind = .endTag)
    (hv : o.isPhrase v = true) : (emptyPair o v v.tagName ctx).Phrased o w ctx False := by
  unfold emptyPair
  split_ifs with hbare
  · apply phrased_autolink
    rcases Html.roleOf_of_isBareLink hbare with hrole | ⟨level, hrole⟩
    · simpa [hrole] using Options.isPhrase_of_tag hk hv
    · simpa [hrole] using Options.isPhrase_of_tag hk hv
  · exact .remark _

/-- A tag of an anchor with content writes a link or a tag, or nothing. -/
theorem phrased_anchor (hk : v.kind = .startTag ∨ v.kind = .endTag) (hname : v.name = some "a")
    (hcontent : (s.window v rest).isEmptyPair "a" = false)
    (h : anchor o (s.window v rest) (v.kind == .startTag) s.context = .ok r) :
    r.Phrased o (s.window v rest) s.context (s.BreaksLine o v rest) := by
  unfold anchor at h
  rcases hk with hk | hk
  · simp only [hk, beq_self_eq_true, if_true, Except.ok.injEq] at h
    rw [← h]
    exact phrased_openAnchor (isNamed_iff.mpr ⟨hk, hname⟩) hcontent
  · have hend : (v.kind == .startTag) = false := by simp [hk]
    simp only [hend, Bool.false_eq_true, if_false] at h
    have htagName : v.tagName = "a" := by simp [Html.Token.tagName, hname]
    have hclosed := phrased_closeAnchor hk htagName h
    refine hclosed.congr (iff_of_false id (State.not_breaksLine (by simp [hk]) (by simp [hk]) ?_))
    intro hn
    simp [hk, isNamed_iff] at hn

theorem phrased_pairedTag (ho : o.Valid) (hk : v.kind = .startTag ∨ v.kind = .endTag)
    (hv : o.isPhrase v = true) (hcontent : v.name.filter (s.window v rest).isEmptyPair = none)
    (h : pairedTag o (s.window v rest) s.context = .ok r) :
    r.Phrased o (s.window v rest) s.context (s.BreaksLine o v rest) := by
  have hchars : v.kind ≠ .characters := by rcases hk with hk | hk <;> simp [hk]
  have hspace : v.kind ≠ .spaceCharacters := by rcases hk with hk | hk <;> simp [hk]
  have silent (hrole : Html.roleOf v.tagName ≠ .anchor)
      (hr : r.Phrased o (s.window v rest) s.context False) :
      r.Phrased o (s.window v rest) s.context (s.BreaksLine o v rest) := by
    refine hr.congr (iff_of_false id (State.not_breaksLine hchars hspace fun hn => ?_))
    have hname : v.tagName = "a" := by simp [Html.Token.tagName, (isNamed_iff.mp hn).2]
    exact absurd (hname ▸ roleOf_a) hrole
  have htoken : (s.window v rest).token = v := rfl
  unfold pairedTag at h
  rw [htoken] at h
  dsimp only at h
  rcases Options.isPhrase_of_tag hk hv with
    ⟨strong, hrole⟩ | hrole | ⟨hrole, hlinks⟩ | ⟨hrole, hpass⟩
  · simp only [hrole] at h
    cases h
    exact silent (by simp [hrole]) (phrased_emphasis ho strong _)
  · have hname : v.tagName = "a" := Html.name_of_ownName? (by rw [hrole]; rfl)
    have hsome : v.name = some "a" := by
      cases hnone : v.name with
      | none => simp [Html.Token.tagName, hnone] at hname
      | some name => simpa [Html.Token.tagName, hnone] using hname
    simp only [hrole] at h
    exact phrased_anchor hk hsome (by simpa [hsome, Option.filter_some] using hcontent) h
  · simp only [hrole] at h
    cases h
    exact silent (by simp [hrole]) (phrased_autolink hlinks v)
  · simp only [hrole, otherTag, hpass, Bool.not_false, if_true] at h
    apply silent (by simp [hrole])
    split_ifs at h
    · cases h
      exact .quiet
    · cases h
      exact .remark _

theorem phrased_tag (ho : o.Valid) (hk : v.kind = .startTag ∨ v.kind = .endTag)
    (hv : o.isPhrase v = true) (h : tag o (s.window v rest) s.context = .ok r) :
    r.Phrased o (s.window v rest) s.context (s.BreaksLine o v rest) := by
  unfold tag at h
  split at h
  · next name hname =>
    cases h
    obtain ⟨hsome, hpair⟩ := Option.filter_eq_some_iff.mp hname
    change v.name = some name at hsome
    obtain rfl : v.tagName = name := by simp [Html.Token.tagName, hsome]
    refine (phrased_emptyPair hk hv).congr (iff_of_false id (State.not_breaksLine ?_ ?_ ?_))
    · rcases hk with hk | hk <;> simp [hk]
    · rcases hk with hk | hk <;> simp [hk]
    · intro hn
      obtain hname := Option.some.inj (hsome.symm.trans (isNamed_iff.mp hn).2)
      exact hname ▸ hpair
  · next hcontent => exact phrased_pairedTag ho hk hv hcontent h

/-- A token of a line writes pieces of a line, and a newline exactly if it brings one. -/
theorem phrased_of_react (ho : o.Valid) (hv : o.isPhrase v = true)
    (hspace : v.kind ≠ .spaceCharacters) (hregion : s.context.region o = .ordinary)
    (hr : react o (s.window v rest) s.emitted.head? s.context = .ok r) :
    r.Phrased o (s.window v rest) s.context (s.BreaksLine o v rest) := by
  have htoken : (s.window v rest).token = v := rfl
  rw [react_of_ordinary hregion, ordinary, htoken] at hr
  cases hk : v.kind with
  | characters =>
    rw [hk] at hr
    cases hr
    refine (phrased_characters (s.window v rest) s.context).congr ⟨?_, ?_⟩
    · exact fun h => .text hk h.1 h.2.1 h.2.2
    · intro h
      cases h with
      | text hk hown hp hline => exact ⟨hown, hp, hline⟩
      | space hkind => exact absurd hkind hspace
      | link hn | tag hn => simp [isNamed_iff, hk] at hn
  | spaceCharacters => exact absurd hk hspace
  | startTag =>
    rw [hk] at hr
    exact phrased_tag ho (.inl hk) hv hr
  | endTag =>
    rw [hk] at hr
    exact phrased_tag ho (.inr hk) hv hr
  | emptyTag =>
    have hdropped : v.tagName ∉ ["img", "br", "hr"] ∧ o.isPassthrough v.tagName = false := by
      simpa [Options.isPhrase, hk] using hv
    have hnames : v.tagName ≠ "img" ∧ v.tagName ≠ "br" ∧ v.tagName ≠ "hr" := by
      simpa [not_or] using hdropped.1
    rw [hk] at hr
    simp only [emptyTag, hnames.1, hnames.2.1, hnames.2.2, hdropped.2, if_false,
      Bool.false_eq_true, Except.ok.injEq] at hr
    rw [← hr]
    refine (Reaction.Phrased.remark _).congr
      (iff_of_false id (State.not_breaksLine (by simp [hk]) hspace fun hn => ?_))
    simp [isNamed_iff, hk] at hn
  | comment | doctype | parseError => simp [Options.isPhrase, hk] at hv

end Conversion

end HtmlMarkdown
