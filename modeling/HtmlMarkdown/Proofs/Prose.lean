import HtmlMarkdown.Proofs.Citations
import HtmlMarkdown.Proofs.PageText

/-!
# Prose

Without quotes, code and comments, and with newlines nowhere but in space, a conversion writes
prose: block marks, gaps, marks that begin their own line, and pieces of text on one line. The mark
of a heading stands directly behind the start of its block, and the text of a link to a bare
address, which may be empty, directly behind the tag of the link.
-/

namespace HtmlMarkdown

namespace Html

def AttributeName.OnOneLine (key : AttributeName) : Prop :=
  '\n' ∉ key.localName.toList ∧ ∀ space ∈ key.space, '\n' ∉ space.toList

instance (key : AttributeName) : Decidable key.OnOneLine := inferInstanceAs (Decidable (_ ∧ _))

structure Token.Unbroken (t : Token) : Prop where
  name : '\n' ∉ t.tagName.toList
  attributes : ∀ entry ∈ t.attributes.entries, entry.1.OnOneLine ∧ '\n' ∉ entry.2.toList

/-- The token belongs to no quote, code or comment, and there is no newline in it, unless it is
space. -/
structure Token.OnOneLine (t : Token) : Prop extends t.Unbroken where
  plain : t.tagName ∉ ["blockquote", "code", "pre", "script"]
  comment : t.kind ≠ .comment
  text : t.kind = .characters → '\n' ∉ t.content.toList

instance (t : Token) : Decidable t.OnOneLine :=
  decidable_of_iff
    (('\n' ∉ t.tagName.toList ∧
        ∀ entry ∈ t.attributes.entries, entry.1.OnOneLine ∧ '\n' ∉ entry.2.toList) ∧
      t.tagName ∉ ["blockquote", "code", "pre", "script"] ∧ t.kind ≠ .comment ∧
      (t.kind = .characters → '\n' ∉ t.content.toList))
    ⟨fun ⟨⟨hn, ha⟩, hp, hc, ht⟩ => ⟨⟨hn, ha⟩, hp, hc, ht⟩,
      fun h => ⟨⟨h.name, h.attributes⟩, h.plain, h.comment, h.text⟩⟩

theorem Token.OnOneLine.not_sensitive {t : Token} (h : t.OnOneLine) :
    isSensitive t.tagName = false := by
  have hplain := h.plain
  simp only [List.mem_cons, List.not_mem_nil, or_false, not_or] at hplain
  simp [isSensitive, sensitiveElements, hplain]

theorem Token.OnOneLine.not_quote {t : Token} (h : t.OnOneLine) : roleOf t.tagName ≠ .quote := by
  intro hrole
  have hname : t.tagName = "blockquote" := name_of_ownName? (by rw [hrole]; rfl)
  exact h.plain (by simp [hname])

theorem Token.Unbroken.clean {t : Token} (h : t.Unbroken) (o : Options) : (o.clean t).Unbroken where
  name := h.name
  attributes entry he := h.attributes entry (List.mem_of_mem_filter he)

theorem Token.Unbroken.attribute? {t : Token} {key value : String} (h : t.Unbroken)
    (hv : t.attribute? key = some value) : '\n' ∉ value.toList := by
  obtain ⟨entry, hfind, rfl⟩ := Option.map_eq_some_iff.mp hv
  exact (h.attributes entry (List.mem_of_find?_eq_some hfind)).2

theorem Token.Unbroken.filledAttribute? {t : Token} {key value : String} (h : t.Unbroken)
    (hv : t.filledAttribute? key = some value) : '\n' ∉ value.toList :=
  h.attribute? (Option.filter_eq_some_iff.mp hv).1

end Html

namespace Text

theorem not_mem_trimChars {cs : List Char} (h : '\n' ∉ cs) : '\n' ∉ trimChars cs := by
  unfold trimChars dropTail
  intro hmem
  have hreverse := (List.dropWhile_sublist _).subset (List.mem_reverse.mp hmem)
  exact h ((List.dropWhile_sublist _).subset (List.mem_reverse.mp hreverse))

theorem not_mem_map_unfoldNewline (cs : List Char) : '\n' ∉ cs.map unfoldNewline := by
  intro hmem
  obtain ⟨c, -, hc⟩ := List.mem_map.mp hmem
  unfold unfoldNewline at hc
  split_ifs at hc with hnewline
  · cases hc
  · exact hnewline hc

/-- Text that flows in a paragraph ends up on one line. -/
theorem not_mem_flow (s : String) : '\n' ∉ (flow true s).toList := by
  rw [flow, String.toList_ofList]
  exact not_mem_trimChars (not_mem_squeeze (not_mem_map_unfoldNewline _) false)

/-- What puts no newline in the place of another character puts none into a line. -/
theorem not_mem_flatMap {c : Char} {f : Char → List Char} {cs : List Char} (h : c ∉ cs)
    (hf : ∀ d, d ≠ c → c ∉ f d) : c ∉ cs.flatMap f := by
  rw [List.mem_flatMap]
  rintro ⟨d, hd, hmem⟩
  exact hf d (fun heq => h (heq ▸ hd)) hmem

theorem not_mem_flowChars {cs : List Char} (h : '\n' ∉ cs) (inParagraph : Bool) :
    '\n' ∉ flowChars inParagraph cs := by
  rw [flowChars_of_not_mem h]
  exact not_mem_trimChars (not_mem_squeeze h false)

end Text

namespace Markdown

open Html (AttributeName)

def Tag.isInk : Tag → Bool
  | anchorInline | anchorReference | anchorSimple | boldItalic | emphasis | image | strong => true
  | _ => false

inductive Ink : Token → Prop
  | markdown {tag : Tag} {data : String} (htag : tag.isInk = true) (h : '\n' ∉ data.toList)
      (hne : data ≠ "") : Ink (.markdown tag data)
  | tag {raw : Html.Token} (hraw : raw.isTag = true) (h : raw.Unbroken) : Ink (.html raw)
  | text {s : String} (h : '\n' ∉ s.toList) : Ink (.html (.characters s))

inductive Piece : Token → Prop
  | blockStart : Piece .startBlock
  | blockEnd : Piece .endBlock
  | space : Piece .space
  | newline : Piece .newline
  | newlineHard : Piece .newlineHard
  | newlineBlank : Piece .newlineBlank
  | item (depth : Nat) {bullet : Bullet} (h : '\n' ∉ bullet.text.toList) :
      Piece (.listItemStart depth bullet)
  | rule {rule : String} (h : '\n' ∉ rule.toList) (hne : rule ≠ "") : Piece (.horizontalRule rule)
  | ink {t : Token} (h : Ink t) (hne : t ≠ .html (.characters "")) : Piece t

inductive Prose : List Token → Prop
  | nil : Prose []
  | piece {t : Token} {ts : List Token} (ht : Piece t) (h : Prose ts) : Prose (t :: ts)
  | heading (level : Nat) {ts : List Token} (h : Prose ts) :
      Prose (.startBlock :: .headingStart level :: ts)
  | linked {raw : Html.Token} {s : String} {ts : List Token} (hraw : raw.isTag = true)
      (hu : raw.Unbroken) (hs : '\n' ∉ s.toList) (h : Prose ts) :
      Prose (.html raw :: .html (.characters s) :: ts)

variable {ts us : List Token} {t : Token}

theorem Ink.quoteDepth (h : Ink t) : t.quoteDepth = none := by
  cases h <;> rfl

theorem Ink.not_rule (h : Ink t) : t.hasTag .horizontalRule = false := by
  cases h with
  | @markdown tag data htag => cases tag <;> first | rfl | cases htag
  | tag | text => rfl

theorem Piece.quoteDepth (h : Piece t) : t.quoteDepth = none := by
  cases h with
  | ink h => exact h.quoteDepth
  | _ => rfl

theorem Prose.quoteDepth (h : Prose ts) : ∀ t ∈ ts, t.quoteDepth = none := by
  induction h with
  | nil => exact List.forall_mem_nil _
  | piece ht _ ih => exact List.forall_mem_cons.mpr ⟨ht.quoteDepth, ih⟩
  | heading level _ ih =>
    exact List.forall_mem_cons.mpr ⟨rfl, List.forall_mem_cons.mpr ⟨rfl, ih⟩⟩
  | linked _ _ _ _ ih =>
    exact List.forall_mem_cons.mpr ⟨rfl, List.forall_mem_cons.mpr ⟨rfl, ih⟩⟩

theorem Prose.singleton (ht : Piece t) : Prose [t] := .piece ht .nil

theorem Prose.append (h : Prose ts) (h' : Prose us) : Prose (ts ++ us) := by
  induction h with
  | nil => exact h'
  | piece ht _ ih => exact .piece ht ih
  | heading level _ ih => exact .heading level ih
  | linked hraw hu hs _ ih => exact .linked hraw hu hs ih

/-- A stream of two tokens or more ends behind them, where its last token is not the second. -/
theorem eq_cons_cons_of_concat {u v : Token} {us : List Token} (h : ts ++ [t] = u :: v :: us)
    (hne : t ≠ v) : ∃ vs, ts = u :: v :: vs ∧ vs ++ [t] = us := by
  rcases ts with _ | ⟨x, _ | ⟨y, ts⟩⟩ <;>
    simp only [List.nil_append, List.cons_append, List.cons.injEq] at h
  · simp at h
  · exact absurd h.2.1 hne
  · exact ⟨ts, by rw [h.1, h.2.1], h.2.2⟩

/-- White space at the end may go. -/
theorem Prose.of_whitespace_end (h : Prose (ts ++ [t])) (ht : t.tagIs Tag.isWhitespace = true) :
    Prose ts := by
  generalize hus : ts ++ [t] = us at h
  induction h generalizing ts with
  | nil => simp at hus
  | piece hu hrest ih =>
    cases ts with
    | nil => exact .nil
    | cons v ts =>
      simp only [List.cons_append, List.cons.injEq] at hus
      exact hus.1 ▸ .piece hu (ih hus.2)
  | heading level hrest ih =>
    obtain ⟨us, rfl, hrest⟩ := eq_cons_cons_of_concat hus (by rintro rfl; cases ht)
    exact .heading level (ih hrest)
  | linked hraw hu hs hrest ih =>
    obtain ⟨us, rfl, hrest⟩ := eq_cons_cons_of_concat hus (by rintro rfl; cases ht)
    exact .linked hraw hu hs (ih hrest)

theorem not_mem_toString {c : Char} (hc : c.isDigit = false) (n : Nat) :
    c ∉ (toString n).toList := by
  intro hmem
  have hdigit : c ∈ Nat.toDigits 10 n := by simpa using hmem
  exact absurd (Nat.isDigit_of_mem_toDigits (by omega) (by omega) hdigit) (by simp [hc])

theorem not_mem_titleSuffix {c : Char} (hc : c ∉ [' ', '"', '\\']) {title : Option String}
    (h : ∀ s ∈ title, c ∉ s.toList) : c ∉ (titleSuffix title).toList := by
  simp only [List.mem_cons, List.not_mem_nil, or_false, not_or] at hc
  unfold titleSuffix
  split
  · simp
  · next s =>
    have hs : c ∉ s.toList := h s rfl
    have hescape : c ∉ (Text.escapeTitle s).toList := by
      rw [Text.escapeTitle, String.toList_ofList]
      refine Text.not_mem_flatMap hs fun d hd => ?_
      unfold Text.escapeTitleChar
      split_ifs <;> simp [hc, Ne.symm hd]
    split_ifs
    · simp
    · simpa [hc] using hescape

theorem not_mem_imageText {c : Char} (hc : c ∉ "Image".toList) {alt : Option String}
    (h : ∀ s ∈ alt, c ∉ s.toList) : c ∉ (Token.imageText alt).toList := by
  unfold Token.imageText
  cases hfilled : alt.filter (· != "") with
  | none => exact hc
  | some s => exact h s (Option.filter_eq_some_iff.mp hfilled).1

theorem prose_mark {tag : Tag} {data : String} (htag : tag.isInk = true) (h : '\n' ∉ data.toList)
    (hne : data.toList ≠ []) : Prose [.markdown tag data] :=
  .singleton (.ink (.markdown htag h (mt String.toList_eq_nil_iff.mpr hne))
    (by simp [Token.markdown, Token.html]))

theorem prose_repeated {tag : Tag} (htag : tag.isInk = true) {c : Char} (n : Nat) (hc : c ≠ '\n') :
    Prose [.markdown tag (repeated (n + 1) c.toString)] :=
  prose_mark htag (by simp [repeated, Char.toString, Ne.symm hc])
    (by simp [repeated, Char.toString])

theorem html_ne_text {raw : Html.Token} (hraw : raw.isTag = true) (s : String) :
    Token.html raw ≠ .html (.characters s) := by
  intro heq
  have htext : raw = .characters s := by simpa [Token.html] using heq
  rw [htext] at hraw
  cases hraw

theorem prose_tag {raw : Html.Token} (hraw : raw.isTag = true) (h : raw.Unbroken) :
    Prose [.html raw] :=
  .singleton (.ink (.tag hraw h) (html_ne_text hraw ""))

theorem prose_anchorSimple {href : String} (h : '\n' ∉ href.toList) :
    Prose [.anchorSimple href] :=
  prose_mark rfl (by simpa using h) (by simp)

theorem prose_anchorInline {href text : String} {title : Option String} (hh : '\n' ∉ href.toList)
    (ht : '\n' ∉ text.toList) (htitle : ∀ s ∈ title, '\n' ∉ s.toList) :
    Prose [.anchorInline href text title] := by
  have hsuffix := not_mem_titleSuffix (by decide) htitle
  exact prose_mark rfl (by simp [hh, ht, hsuffix]) (by simp)

theorem prose_anchorReferenceLink {text : String} (h : '\n' ∉ text.toList) (n : Nat) :
    Prose [.anchorReferenceLink text n] := by
  have hn := not_mem_toString (show Char.isDigit '\n' = false by decide) n
  refine prose_mark rfl ?_ (by simp)
  simp only [String.toList_append, List.mem_append, not_or]
  exact ⟨⟨⟨⟨by decide, h⟩, by decide⟩, hn⟩, by decide⟩

theorem prose_anchorReference {href : String} {title : Option String} (hh : '\n' ∉ href.toList)
    (htitle : ∀ s ∈ title, '\n' ∉ s.toList) (n : Nat) :
    Prose [.anchorReference n href title] := by
  have hn := not_mem_toString (show Char.isDigit '\n' = false by decide) n
  have hsuffix := not_mem_titleSuffix (by decide) htitle
  refine prose_mark rfl ?_ (by simp)
  simp only [String.toList_append, List.mem_append, not_or]
  exact ⟨⟨⟨⟨by decide, hn⟩, by decide⟩, hh⟩, hsuffix⟩

theorem prose_image {src : String} {alt title : Option String} (hsrc : '\n' ∉ src.toList)
    (halt : ∀ s ∈ alt, '\n' ∉ s.toList) (htitle : ∀ s ∈ title, '\n' ∉ s.toList)
    (reference : Option Nat) : Prose [.image src alt title reference] := by
  have htext := not_mem_imageText (by decide) halt
  have hsuffix := not_mem_titleSuffix (by decide) htitle
  cases reference with
  | none =>
    refine prose_mark rfl ?_ (by simp)
    simp only [String.toList_append, List.mem_append, not_or]
    exact ⟨⟨⟨⟨⟨by decide, htext⟩, by decide⟩, hsrc⟩, hsuffix⟩, by decide⟩
  | some n =>
    refine prose_mark rfl ?_ (by simp)
    simp only [String.toList_append, List.mem_append, not_or]
    exact ⟨⟨⟨⟨by decide, htext⟩, by decide⟩, not_mem_toString (by decide) n⟩, by decide⟩

/-- The mark of an item begins its line and is on one line. -/
theorem exists_itemMark (depth : Nat) {bullet : Bullet} (h : '\n' ∉ bullet.text.toList) :
    ∃ mark, ("\n" ++ repeated (depth - 1) "  " ++ bullet.text ++ " ").toList = '\n' :: mark ∧
      '\n' ∉ mark ∧ mark ≠ [] := by
  have hindent : '\n' ∉ (repeated (depth - 1) "  ").toList := by
    simp [repeated, List.mem_replicate]
  exact ⟨(repeated (depth - 1) "  ").toList ++ bullet.text.toList ++ [' '], by simp,
    by simp [hindent, h], by simp⟩

end Markdown

namespace Conversion

open Markdown (Token Prose Piece)

variable {o : Options} {w : Window} {last : Option Token} {ctx : Context} {r : Reaction}

theorem prose_textTokens {cs : List Char} (h : '\n' ∉ cs) : Prose (textTokens cs) := by
  unfold textTokens
  rw [Text.splitNewlines_of_not_mem h]
  dsimp only
  split_ifs with hempty
  · exact .nil
  · refine .singleton (.ink (.text (by rwa [String.toList_ofList])) fun heq => hempty ?_)
    simpa [Token.html, Html.Token.characters] using heq

theorem prose_linkTo (o : Options) {href text : String} (hh : '\n' ∉ href.toList)
    (ht : '\n' ∉ text.toList) : Prose (linkTo o href text) := by
  unfold linkTo
  split_ifs
  · exact Markdown.prose_anchorSimple hh
  · have hname : '\n' ∉ "a".toList := by decide
    have hkey : (Html.AttributeName.plain "href").OnOneLine := by decide
    refine .linked rfl ⟨hname, fun entry he => ?_⟩ ht
      (Markdown.prose_tag rfl ⟨hname, by simp [Html.Token.endTag]⟩)
    obtain rfl : entry = (.plain "href", href) := by simpa [Html.Token.withAttribute,
      Html.Token.startTag, OrderedMap.insertEntry] using he
    exact ⟨hkey, hh⟩
  · exact Markdown.prose_anchorInline hh ht (by simp)

theorem not_mem_mailAddress {name : String} (h : '\n' ∉ name.toList) :
    '\n' ∉ (Html.mailAddress name).toList := by
  rw [Html.mailAddress, String.toList_ofList]
  exact fun hmem => h (List.mem_of_mem_drop hmem)

theorem not_mem_intercalate {c : Char} {sep : List Char} {lines : List (List Char)} (hsep : c ∉ sep)
    (hlines : ∀ line ∈ lines, c ∉ line) : c ∉ sep.intercalate lines := by
  induction lines with
  | nil => simp [List.intercalate]
  | cons line lines ih =>
    have hbehind := ih fun l hl => hlines l (List.mem_cons_of_mem line hl)
    have hfirst := hlines line List.mem_cons_self
    cases lines with
    | nil => simpa [List.intercalate] using hfirst
    | cons next lines =>
      rw [List.intercalate_cons_cons, List.mem_append, List.mem_append, not_or, not_or]
      exact ⟨⟨hfirst, hsep⟩, hbehind⟩

theorem not_mem_bareLinkUrl {scheme : String} {t : Html.Token} (hs : '\n' ∉ scheme.toList)
    (ht : t.Unbroken) : '\n' ∉ (bareLinkUrl scheme t).toList := by
  have hpath : '\n' ∉ ("/".intercalate (t.attributes.keys.map (·.localName))).toList := by
    rw [String.toList_intercalate]
    refine not_mem_intercalate (by decide) fun line hline => ?_
    simp only [OrderedMap.keys, List.map_map, List.mem_map] at hline
    obtain ⟨entry, hentry, rfl⟩ := hline
    exact (ht.attributes entry hentry).1.1
  have hvalue :
      '\n' ∉ ((t.attributes.values.getLast?.filter (· != "")).elim "" ("=" ++ ·)).toList := by
    cases hlast : t.attributes.values.getLast?.filter (· != "") with
    | none => decide
    | some value =>
      have hmem := List.mem_of_getLast? (Option.filter_eq_some_iff.mp hlast).1
      obtain ⟨entry, hentry, rfl⟩ := List.mem_map.mp hmem
      simpa using (ht.attributes entry hentry).2
  simp only [bareLinkUrl, String.toList_append, List.mem_append, not_or]
  exact ⟨⟨⟨hs, by decide⟩, hpath⟩, hvalue⟩

theorem not_mem_bulletText {bullet : Markdown.Bullet} (ho : o.bullet ≠ '\n')
    (h : bullet = .mark o.bullet ∨ ∃ n, bullet = .ordinal n) : '\n' ∉ bullet.text.toList := by
  rcases h with rfl | ⟨n, rfl⟩
  · simpa [Markdown.Bullet.text, Char.toString] using Ne.symm ho
  · simpa [Markdown.Bullet.text] using Markdown.not_mem_toString (c := '\n') (by decide) n

/-- Without sensitive content, every reaction to a token on one line writes prose. -/
theorem Handles.prose (h : Handles o w last ctx r) (ho : o.OnOneLine) (hw : w.token.OnOneLine)
    (hs : ctx.sensitive = 0) : Prose r.produced := by
  have hfilled {key value : String} (hv : w.token.filledAttribute? key = some value) :
      '\n' ∉ value.toList := hw.toUnbroken.filledAttribute? hv
  have hsensitive (hn : Html.isSensitive w.token.tagName = true) : False := by
    rw [hw.not_sensitive] at hn
    cases hn
  have hmark {c : Char} (hc : c ∈ Options.emphasisMarks) : c ≠ '\n' := by
    rintro rfl
    exact absurd hc (by decide)
  cases h with
  | nothing notices hc => exact .nil
  | verbatim hc h =>
    rcases h with h | h
    · omega
    · exact absurd h hw.comment
  | cleaned hc h => exact Markdown.prose_tag h (hw.toUnbroken.clean o)
  | opensBlock hk hc => exact .singleton .blockStart
  | closesBlock hk hc => exact .singleton .blockEnd
  | opensHeading level hk hc hlevel => exact .heading level .nil
  | opensQuote hk hp hc | closesQuote n hk hp hc => exact (hw.not_quote hp.role).elim
  | opensWrapped hk hc =>
    have htag : (o.clean w.token).isTag = true := Html.Token.isTag_iff.mpr (.inl hk)
    exact .piece .blockStart (Markdown.prose_tag htag (hw.toUnbroken.clean o))
  | closesWrapped hk hc =>
    have htag : (o.clean w.token).isTag = true := Html.Token.isTag_iff.mpr (.inr (.inl hk))
    exact (Markdown.prose_tag htag (hw.toUnbroken.clean o)).append (.singleton .blockEnd)
  | opensList kind hk hp =>
    obtain ⟨c, -, h | h⟩ := openList_eq kind ctx <;> rw [h]
    · exact .nil
    · exact .singleton .blockStart
  | closesList kind hk hp h =>
    obtain ⟨c, -, rfl | rfl⟩ := closeList_eq h
    · exact .nil
    · exact .singleton .blockEnd
  | opensItem depth bullet hk hb hc =>
    exact .singleton (.item depth (not_mem_bulletText ho.bullet hb))
  | emphasis strong hc =>
    cases strong with
    | true => exact Markdown.prose_repeated rfl 1 (hmark ho.valid.strongMark)
    | false =>
      have hne : o.emphasisMark ≠ '\n' := hmark ho.valid.emphasisMark
      exact Markdown.prose_mark rfl (by simpa [Char.toString] using Ne.symm hne)
        (by simp [Char.toString])
  | fused hc => exact Markdown.prose_repeated rfl 2 (hmark ho.valid.boldItalicMark)
  | selfLink hk hhref hc => exact Markdown.prose_anchorSimple (hfilled hhref)
  | inlineLink hk hhref htext hc =>
    exact Markdown.prose_anchorInline (hfilled hhref) (Text.not_mem_flow _) fun _ => hfilled
  | referenceLink hk hhref htext hc =>
    exact Markdown.prose_anchorReferenceLink (Text.not_mem_flow _) _
  | mailLink hc => exact prose_linkTo o hw.name (not_mem_mailAddress hw.name)
  | schemeLink hc =>
    exact prose_linkTo o (not_mem_bareLinkUrl hw.name hw.toUnbroken)
      (not_mem_bareLinkUrl hw.name hw.toUnbroken)
  | opensCode hk hn hc | closesCode hk hn hc | opensNative hk hn hc | closesNative hk hn hc
  | opensInjected hk hn hc | closesInjected hk hn hc => exact (hsensitive hn).elim
  | inlineImage hk hsrc hc | referenceImage hk hsrc hc =>
    exact Markdown.prose_image (hfilled hsrc) (fun _ => hw.toUnbroken.attribute?)
      (fun _ => hfilled) _
  | lineBreak hk hc => exact .singleton .newlineHard
  | rule hk hc =>
    exact .piece .blockStart (.piece (.rule ho.rule ho.rule_ne) (.singleton .blockEnd))
  | text hk hc => exact prose_textTokens (Text.not_mem_flowChars (hw.text hk) _)
  | gap gap hk hc =>
    cases gap with
    | space => exact .singleton .space
    | newline => exact .singleton .newline
    | blank => exact .singleton .newlineBlank
  | blankLine hk hlast hu hc => exact .singleton .newlineBlank

theorem inside_of_not_sensitive {name : String} (hn : Html.isSensitive name = false)
    (ts : List Html.Token) : Region.inside o name ts .ordinary = .ordinary := by
  have hrole : ¬(Html.roleOf name = .code ∨ Html.roleOf name = .pre ∨
      Html.roleOf name = .script) := fun h => by simp [Html.isSensitive_of_roleOf h] at hn
  unfold Region.inside
  split <;> simp_all

/-- Behind the start tag of an element that keeps nothing as it stands, content is ordinary. -/
theorem region_startTag {s : State} {name : String} {attributes : Html.Attributes}
    {after : List Html.Token} (hv : Html.isVoid name = false)
    (hn : Html.isSensitive name = false) (htags : s.context.anchorAsTag ≤ s.context.anchor)
    (hreg : s.context.region o = .ordinary)
    (hr : react o (s.window (.startTag name attributes) after) s.emitted.head? s.context = .ok r) :
    r.context.region o = .ordinary := by
  obtain ⟨r₀, hr₀, -, hregion, -⟩ := exists_react_startTag o
    (s.window (.startTag name attributes) after) s.emitted.head? hv rfl htags
  obtain rfl : r₀ = r := Except.ok.inj (hr₀.symm.trans hr)
  cases hempty : (s.window (.startTag name attributes) after).isEmptyPair name with
  | true =>
    rw [react_of_ordinary hreg] at hr
    have htag := (tag_of_emptyPair rfl hempty).symm.trans hr
    cases htag
    exact (resumes_emptyPair _ name htags).region_eq.trans hreg
  | false =>
    rw [hregion hempty, hreg]
    exact inside_of_not_sensitive hn _

section

variable {A : Html.Token → Prop} {P : State → Prop} {ts rest : List Html.Token} {s s' : State}
  (hplain : ∀ {t}, A t → Html.isSensitive t.tagName = false)
  (hstep : ∀ {s t after r}, A t → s.context.region o = .ordinary →
    react o (s.window t after) s.emitted.head? s.context = .ok r → P s → P (s.accept t r))

include hstep in
theorem kept_of_leaves (hts : ∀ t ∈ ts, t.IsLeaf) (hA : ∀ t ∈ ts, A t) (h : Passes o rest s ts s')
    (htags : s.context.anchorAsTag ≤ s.context.anchor) (hreg : s.context.region o = .ordinary)
    (hs : P s) : P s' := by
  induction h with
  | nil => exact hs
  | @cons s s' t ts r hr _ ih =>
    have hres := Context.Resumes.of_leaf hr (hts t List.mem_cons_self) htags
    exact ih (fun u hu => hts u (List.mem_cons_of_mem t hu))
      (fun u hu => hA u (List.mem_cons_of_mem t hu)) hres.tags (hres.region_eq.trans hreg)
      (hstep (hA t List.mem_cons_self) hreg hr hs)

include hplain hstep in
/-- What the steps in ordinary content keep, a forest without sensitive elements keeps. -/
theorem Passes.kept_of_ordinary {f : Html.Forest} (h : Passes o rest s f.tokens s')
    (htags : s.context.anchorAsTag ≤ s.context.anchor) (hreg : s.context.region o = .ordinary)
    (hA : ∀ t ∈ f.tokens, A t) (hs : P s) : P s' := by
  induction f using Html.Forest.leavesRec generalizing rest s s' with
  | nil =>
    cases h
    exact hs
  | leaves ts f g hts htokens ih =>
    rw [htokens] at h hA
    obtain ⟨s₁, h₁, hres, h₂⟩ := h.of_leaves_append hts htags
    have hs₁ := kept_of_leaves hstep hts (fun t ht => hA t (List.mem_append_left _ ht)) h₁ htags
      hreg hs
    exact ih h₂ hres.tags (hres.region_eq.trans hreg)
      (fun t ht => hA t (List.mem_append_right _ ht)) hs₁
  | element name attributes children f hv ihc ih =>
    obtain ⟨r, s₁, r', hr, htags₁, h₁, hr', hres₁, hres', -, -, h₂⟩ := h.of_element hv htags
    rw [Html.Forest.tokens, hv, if_neg Bool.false_ne_true, List.cons_append,
      List.forall_mem_cons, List.forall_mem_append, List.forall_mem_cons] at hA
    obtain ⟨hstart, hchildren, hend, hbehind⟩ := hA
    have hregion : r.context.region o = .ordinary :=
      region_startTag hv (hplain hstart) htags hreg hr
    have hs₁ := ihc h₁ htags₁ hregion hchildren (hstep hstart hreg hr hs)
    have hs₂ := hstep hend (hres₁.region_eq.trans hregion) hr' hs₁
    exact ih h₂ hres'.tags (hres'.region_eq.trans hreg) hbehind hs₂

end

theorem References.mem_register {references : References} {href : String} {title : Option String}
    {entry : String × Option String}
    (h : entry ∈ (references.register href title).targets.entries) :
    entry ∈ references.targets.entries ∨ entry = (href, title) := by
  unfold register OrderedMap.insertNew OrderedMap.contains OrderedMap.keys at h
  split_ifs at h with hmem
  · exact .inl h
  · rw [OrderedMap.entries_insert, insertEntry_of_not_mem (by simpa using hmem)] at h
    simpa using h

def References.Unbroken (references : References) : Prop :=
  ∀ entry ∈ references.targets.entries,
    '\n' ∉ entry.1.toList ∧ ∀ title ∈ entry.2, '\n' ∉ title.toList

theorem Handles.references_unbroken (h : Handles o w last ctx r) (hw : w.token.Unbroken)
    (hreferences : ctx.references.Unbroken) : r.context.references.Unbroken := by
  rcases h.references with ⟨hkept, -⟩ | ⟨href, u, haddress, hregister, -, -⟩
  · rwa [hkept]
  · have hhref : '\n' ∉ href.toList := hw.filledAttribute? haddress
    intro entry hentry
    rw [hregister] at hentry
    rcases References.mem_register hentry with hentry | rfl
    · exact hreferences entry hentry
    · exact ⟨hhref, fun _ => hw.filledAttribute?⟩

section

variable {S : List Token → Prop} {s : State}
  (hend : ∀ {ts t}, S (ts ++ [t]) → t.tagIs Markdown.Tag.isWhitespace = true → S ts)

include hend in
/-- A step takes no more from the stream than white space at its end. -/
theorem Handles.stream_kept (h : Handles o w s.emitted.head? ctx r) (hs : S s.emitted.reverse) :
    S (if r.replacesLast then s.emitted.tail else s.emitted).reverse := by
  split_ifs with hreplaces
  · obtain ⟨u, hlast, hu⟩ := h.isNewline_of_replacesLast hreplaces
    cases he : s.emitted with
    | nil => rwa [he] at hs
    | cons last emitted =>
      rw [he, List.head?_cons, Option.some.injEq] at hlast
      rw [he, List.reverse_cons] at hs
      exact hend hs (hlast ▸ Token.isWhitespace_of_isNewline hu)
  · exact hs

include hend in
/-- The reference block, where there is one, takes no more than that either. -/
theorem State.stream_finished (hs : S s.emitted.reverse) : ∃ kept, S kept ∧
    (s.finished = kept ∨ s.finished = kept ++ State.referenceBlock s.context.references) := by
  unfold State.finished
  dsimp only
  split_ifs
  · exact ⟨_, hs, .inl rfl⟩
  · refine ⟨_, ?_, .inr rfl⟩
    cases he : s.emitted with
    | nil => rwa [he] at hs
    | cons last emitted =>
      rw [he] at hs
      dsimp only
      split_ifs with hlast
      · rw [List.reverse_cons] at hs
        exact hend hs hlast
      · exact hs

end

/-- What every step in ordinary content keeps of the stream, and the reference block too, holds of
the stream that a forest without sensitive elements is converted into. -/
theorem exists_convert_of_steps {A : Html.Token → Prop} {P : State → Prop}
    {S : List Token → Prop} {f : Html.Forest}
    (hplain : ∀ {t}, A t → Html.isSensitive t.tagName = false)
    (hstep : ∀ {s t after r}, A t → s.context.region o = .ordinary →
      react o (s.window t after) s.emitted.head? s.context = .ok r → P s → P (s.accept t r))
    (hend : ∀ {ts t}, S (ts ++ [t]) → t.tagIs Markdown.Tag.isWhitespace = true → S ts)
    (hstream : ∀ {s}, P s → S s.emitted.reverse)
    (hblock : ∀ {s ts}, P s → S ts → S (ts ++ State.referenceBlock s.context.references))
    (hf : ∀ t ∈ f.tokens, A t) (hstart : P {}) :
    ∃ ts, convert o f.tokens = .ok ts ∧ S ts := by
  obtain ⟨s, hs, -⟩ := exists_passes_tokens o f [] {} (Nat.le_refl 0)
  have hregion : ({} : Context).region o = .ordinary :=
    Context.region_eq_ordinary_iff.mpr ⟨by simp, rfl⟩
  have hkeeps : P s := hs.kept_of_ordinary hplain hstep (Nat.le_refl 0) hregion hf hstart
  refine ⟨s.finished, hs.convert_eq, ?_⟩
  obtain ⟨kept, hkept, heq | heq⟩ := State.stream_finished hend (hstream hkeeps)
  · rwa [heq]
  · rw [heq]
    exact hblock hkeeps hkept

structure State.InProse (s : State) : Prop where
  quotes : s.context.blockquote = 0
  stream : Prose s.emitted.reverse
  references : s.context.references.Unbroken

theorem State.InProse.accept {s : State} {t : Html.Token} {after : List Html.Token}
    (h : s.InProse) (ho : o.OnOneLine) (ht : t.OnOneLine) (hreg : s.context.region o = .ordinary)
    (hr : react o (s.window t after) s.emitted.head? s.context = .ok r) :
    (s.accept t r).InProse := by
  have hhandles := handles_of_react hr
  have hquotes : r.context.blockquote = 0 :=
    (hhandles.quotes fun hp => ht.not_quote hp.role).trans h.quotes
  refine ⟨hquotes, ?_, hhandles.references_unbroken ht.toUnbroken h.references⟩
  have hproduced := hhandles.prose ho ht (Context.region_eq_ordinary_iff.mp hreg).2
  have hwritten : r.written = r.produced := by
    unfold Reaction.written
    rw [hquotes, List.map_congr_left, List.map_id']
    exact fun u hu => within_zero (hproduced.quoteDepth u hu)
  rw [emitted_accept, hwritten]
  exact (hhandles.stream_kept Prose.of_whitespace_end h.stream).append hproduced

theorem prose_referenceBlock {references : References} (h : references.Unbroken) :
    Prose (State.referenceBlock references) := by
  have hdefs (entries : List (String × Option String)) (hentries : ∀ entry ∈ entries,
      '\n' ∉ entry.1.toList ∧ ∀ title ∈ entry.2, '\n' ∉ title.toList) (first : Nat) :
      Prose ((References.entriesFrom first entries).flatMap fun entry =>
        [.newline, .anchorReference entry.1 entry.2.1 entry.2.2]) := by
    induction entries generalizing first with
    | nil => exact .nil
    | cons entry entries ih =>
      obtain ⟨hentry, hrest⟩ := List.forall_mem_cons.mp hentries
      exact .append (.piece .newline (Markdown.prose_anchorReference hentry.1 hentry.2 first))
        (ih hrest (first + 1))
  rw [State.referenceBlock_eq]
  exact .append (.append (.piece .newlineBlank (.singleton .blockStart)) (hdefs _ h 1))
    (.singleton .blockEnd)

/-- A forest without quotes, code and comments, each of its tokens on one line, is converted into
prose. -/
theorem exists_convert_prose {f : Html.Forest} (ho : o.OnOneLine)
    (hf : ∀ t ∈ f.tokens, t.OnOneLine) : ∃ ts, convert o f.tokens = .ok ts ∧ Prose ts :=
  exists_convert_of_steps Html.Token.OnOneLine.not_sensitive
    (fun ht hreg hr h => h.accept ho ht hreg hr) Prose.of_whitespace_end State.InProse.stream
    (fun h hts => hts.append (prose_referenceBlock h.references)) hf
    ⟨rfl, .nil, List.forall_mem_nil _⟩

end Conversion

end HtmlMarkdown
