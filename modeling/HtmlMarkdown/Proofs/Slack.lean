import HtmlMarkdown.Proofs.Drafting
import HtmlMarkdown.Proofs.LineHeads
import HtmlMarkdown.Proofs.Trimming

/-!
# The spaces before a line end

`gapes` reads a stream of tokens for two spaces directly before a token that begins a line. The
text of an indented draft has a hard break exactly where the stream gapes: a token that stands for
words leaves no space behind it, and the lines inside a text and at the heads of quoted lines end
in one space at most.
-/

namespace HtmlMarkdown.Text

variable {cs ds : List Char} {c : Char}

theorem not_hardBreak_of_not_mem (h : '\n' ∉ cs) : ¬HardBreak cs := fun hbreak =>
  h (hbreak.subset (by simp))

theorem spacesBehind_cons_of_ne (hc : c ≠ ' ') (cs : List Char) :
    spacesBehind (c :: cs) = spacesBehind cs := by
  rcases exists_append_replicate cs with hcs | ⟨xs, d, hd, hcs⟩
  · have hcons := spacesBehind_of_replicate hc [] (spacesBehind cs)
    rwa [List.nil_append, ← hcs] at hcons
  · rw [hcs, spacesBehind_of_replicate hd, ← List.cons_append, spacesBehind_of_replicate hd]

theorem spacesBehind_of_getLast? (h : cs.getLast? = some c) (hc : c ≠ ' ') :
    spacesBehind cs = 0 := by
  obtain ⟨xs, rfl⟩ := List.getLast?_eq_some_iff.mp h
  exact spacesBehind_of_replicate hc xs 0

/-- Escaping leaves spaces alone. -/
theorem spacesBehind_flatMap_escapeChar (cs : List Char) :
    spacesBehind (cs.flatMap escapeChar) = spacesBehind cs := by
  have hspace : escapeChar ' ' = [' '] := by decide
  have hspaces (n : Nat) : (List.replicate n ' ').flatMap escapeChar = List.replicate n ' ' := by
    induction n with
    | zero => rfl
    | succ n ih => rw [List.replicate_succ, List.flatMap_cons, hspace, ih, List.singleton_append]
  rcases exists_append_replicate cs with hcs | ⟨xs, c, hc, hcs⟩
  · rw [hcs, hspaces]
  · obtain ⟨ds, d, hd, hescape⟩ := exists_escapeChar (p := (· ≠ ' ')) (by decide) hc
    rw [hcs, List.flatMap_append, List.flatMap_cons, hspaces, hescape, List.append_assoc,
      List.singleton_append, ← List.append_assoc, spacesBehind_of_replicate hd,
      spacesBehind_of_replicate hc]

theorem not_mem_flatMap_escapeChar (h : '\n' ∉ cs) : '\n' ∉ cs.flatMap escapeChar :=
  not_mem_flatMap h fun _ hc => newline_not_mem_escapeChar hc

theorem Firm.escaped (h : Firm cs) : Firm (cs.flatMap escapeChar) where
  single := not_mem_flatMap_escapeChar h.single
  ends := by
    obtain ⟨c, hlast, hc⟩ := h.ends
    obtain ⟨xs, rfl⟩ := List.getLast?_eq_some_iff.mp hlast
    obtain ⟨ds, d, hd, hescape⟩ := exists_escapeChar (p := (· ≠ ' ')) (by decide) hc
    exact ⟨d, by simp [List.getLast?_append, hescape], hd⟩

/-- Behind a firm line nothing is left of the spaces before it. -/
theorem Firm.hardBreak_append (h : Firm ds) (cs : List Char) :
    HardBreak (ds ++ cs) ↔ HardBreak cs := by
  obtain ⟨c, hlast, hc⟩ := h.ends
  rw [Text.hardBreak_append h.single, spacesBehind_of_getLast? hlast hc, List.replicate_zero,
    List.nil_append]

theorem Firm.append (hcs : '\n' ∉ cs) (h : Firm ds) : Firm (cs ++ ds) where
  single := by
    rw [List.mem_append, not_or]
    exact ⟨hcs, h.single⟩
  ends := by
    obtain ⟨c, hlast, hc⟩ := h.ends
    exact ⟨c, by simp [List.getLast?_append, hlast], hc⟩

theorem newline_not_mem_replicate (n : Nat) : '\n' ∉ List.replicate n ' ' := by
  simp [List.mem_replicate]

end HtmlMarkdown.Text

namespace HtmlMarkdown.Markdown

open Text (HardBreak Firm Loose spacesBehind)

def Tag.beginsLine : Tag → Bool
  | newline | newlineBlank | headingStart | listItemStart => true
  | _ => false

def Token.slack (pending : Nat) (t : Token) : Nat :=
  match t.node with
  | .markdown tag data =>
    if tag = .space then pending + 1
    else if tag.isBlockStart || tag.isBlockEnd then pending
    else spacesBehind data.toList
  | _ => 0

/-- Two spaces stand directly before the beginning of a line. -/
def gapes (pending : Nat) : List Token → Bool
  | [] => false
  | t :: ts => (t.tagIs Tag.beginsLine && 2 ≤ pending) || gapes (t.slack pending) ts

/-- A line end behind the token is a hard break or not by its slack alone, and the token itself
makes one where it begins a line. -/
def Measured (t : Token) : Prop := ∀ k rawText cs,
  HardBreak (List.replicate k ' ' ++ (t.chars rawText ++ cs)) ↔
    t.tagIs Tag.beginsLine = true ∧ 2 ≤ k ∨ HardBreak (List.replicate (t.slack k) ' ' ++ cs)

variable {ts : List Token} {t : Token} {tag : Tag} {data : String} {inText : Bool} {k : Nat}

theorem tagIs_of_node (h : t.node = .markdown tag data) (p : Tag → Bool) : t.tagIs p = p tag := by
  simp [Token.tagIs, Token.tag?, h]

theorem slack_of_node (h : t.node = .markdown tag data) (hspace : tag ≠ .space)
    (hblock : (tag.isBlockStart || tag.isBlockEnd) = false) (k : Nat) :
    t.slack k = spacesBehind data.toList := by
  simp [Token.slack, h, hspace, hblock]

/-- A mark with something else than spaces in its text, and without a newline. -/
theorem measured_mark (h : t.node = .markdown tag data) (hkind : tag.renderKind = .literal)
    (hline : tag.beginsLine = false) (hdata : '\n' ∉ data.toList)
    (hink : ∃ c ∈ data.toList, c ≠ ' ') : Measured t := by
  intro k rawText cs
  have hmark : tag ≠ .space ∧ (tag.isBlockStart || tag.isBlockEnd) = false := by
    cases tag <;> first | exact ⟨by decide, rfl⟩ | cases hkind
  have hslack := slack_of_node h hmark.1 hmark.2 k
  have hsingle : '\n' ∉ List.replicate k ' ' ++ data.toList := by
    rw [List.mem_append, not_or]
    exact ⟨Text.newline_not_mem_replicate k, hdata⟩
  rw [chars_of_node h (by simp [hkind]), ← List.append_assoc, Text.hardBreak_append hsingle,
    Text.spacesBehind_append hink, hslack, tagIs_of_node h, hline]
  simp

/-- A mark that begins its line with a newline. -/
theorem measured_line {mark : List Char} (h : t.node = .markdown tag data)
    (hline : tag.beginsLine = true) (hdata : data.toList = '\n' :: mark) (hmark : '\n' ∉ mark) :
    Measured t := by
  intro k rawText cs
  have hkind : tag ≠ .space ∧ (tag.isBlockStart || tag.isBlockEnd) = false ∧
      tag.renderKind ≠ .text := by
    cases tag <;> first | exact ⟨by decide, rfl, by decide⟩ | cases hline
  have hslack : t.slack k = spacesBehind mark := by
    rw [slack_of_node h hkind.1 hkind.2.1, hdata, Text.spacesBehind_cons_of_ne (by decide)]
  rw [chars_of_node h hkind.2.2, hdata, List.cons_append, Text.hardBreak_replicate,
    Text.hardBreak_append hmark, hslack, tagIs_of_node h, hline]
  simp

theorem spacesBehind_lineHead (depth : Nat) : spacesBehind (lineHead depth false) ≤ 1 := by
  cases depth with
  | zero => decide
  | succ n =>
    have hhead : lineHead (n + 1) false =
        (List.replicate n ['>', ' ']).flatten ++ '>' :: List.replicate 1 ' ' := by
      simp [lineHead, List.replicate_succ']
    rw [hhead, Text.spacesBehind_of_replicate (by decide)]

theorem not_newline_mem_lineHead (depth : Nat) (inCode : Bool) :
    '\n' ∉ lineHead depth inCode := not_mem_lineHead (by decide) depth inCode

/-- Between the two newlines of a blank line there is one space at most. -/
theorem measured_blank {depth : Nat} (h : t.node = .markdown .newlineBlank data)
    (hdata : data.toList = '\n' :: lineHead depth false ++ '\n' :: lineHead depth false) :
    Measured t := by
  intro k rawText cs
  have hhead := not_newline_mem_lineHead depth false
  have hone := spacesBehind_lineHead depth
  have hslack : t.slack k = spacesBehind (lineHead depth false) := by
    rw [slack_of_node h (by decide) rfl, hdata, Text.spacesBehind_append ⟨'\n', by simp, by decide⟩,
      Text.spacesBehind_cons_of_ne (by decide)]
  rw [chars_of_node h (by decide), hdata, List.append_assoc, List.cons_append,
    Text.hardBreak_replicate, List.cons_append, Text.hardBreak_append hhead,
    Text.hardBreak_replicate, Text.hardBreak_append hhead, hslack, tagIs_of_node h]
  have hnone : ¬2 ≤ spacesBehind (lineHead depth false) := by omega
  simp [hnone, Tag.beginsLine]

theorem indentToken_of_not_mem (h : ∀ s ∈ t.text?, '\n' ∉ s.toList) : indentToken t = t :=
  mapText_eq_self fun s hs => indentLines_of_not_mem _ (h s hs)

theorem not_mem_text_of_node (h : t.node = .markdown tag data) (hdata : '\n' ∉ data.toList) :
    ∀ s ∈ t.text?, '\n' ∉ s.toList := by
  intro s hs
  simp only [Token.text?, h, Option.mem_some_iff] at hs
  exact hs ▸ hdata

theorem not_mem_text_of_characters {s : String} (h : t.node = .html (.characters s))
    (hs : '\n' ∉ s.toList) : ∀ u ∈ t.text?, '\n' ∉ u.toList := by
  intro u hu
  simp only [Token.text?, h] at hu
  exact Option.some.inj hu ▸ hs

theorem indentToken_node (h : t.node = .markdown tag data) : (indentToken t).node =
    .markdown tag (indentLines (lineHead t.markers t.inCode) data) := node_mapText h _

structure Solitary (t : Token) : Prop where
  text : ∀ s ∈ t.text?, '\n' ∉ s.toList
  chars : ∀ rawText, Firm (t.chars rawText)
  slack : ∀ k, t.slack k = 0
  line : t.tagIs Tag.beginsLine = false

theorem chars_of_text {s : String} (h : t.node = .html (.characters s)) (hs : '\n' ∉ s.toList)
    (rawText : Option String) :
    t.chars rawText = if rawText.isSome then s.toList else s.toList.flatMap Text.escapeChar := by
  cases rawText with
  | none =>
    simp only [Token.chars, h]
    exact Text.escapeQuoted_of_not_mem _ hs
  | some name =>
    simp only [Token.chars, h]
    rfl

theorem chars_of_line {s : String} (h : t.node = .markdown .charactersSplit s)
    (hs : '\n' ∉ s.toList) (rawText : Option String) :
    t.chars rawText = s.toList.flatMap Text.escapeChar := by
  simp only [Token.chars, h]
  exact Text.escapeQuoted_of_not_mem _ hs

theorem firm_tag {raw : Html.Token} (hraw : raw.isTag = true) (hu : raw.Unbroken)
    (h : t.node = .html raw) (rawText : Option String) : Firm (t.chars rawText) := by
  have hchars : t.chars rawText = htmlChars t.markers rawText raw := by
    simp only [Token.chars, h]
  have hopen := not_mem_openTagChars hu
  have hname := hu.name
  have hends (cs : List Char) : (cs ++ ['>']).getLast? = some '>' := List.getLast?_concat
  simp only [Html.Token.isTag, Bool.or_eq_true, beq_iff_eq] at hraw
  rw [hchars]
  unfold htmlChars
  rcases hraw with (hk | hk) | hk <;> rw [hk] <;> dsimp only
  · exact ⟨by simp [hopen], '>', hends _, by decide⟩
  · exact ⟨by simp [hname], '>', hends _, by decide⟩
  · exact ⟨by simp [hopen], '>', by simp [List.getLast?_append], by decide⟩

theorem Word.solitary (h : Word t) : Solitary t := by
  cases h with
  | @markdown tag data htag hdef hdata h =>
    have hmark : tag.renderKind = .literal ∧ tag.beginsLine = false ∧ tag ≠ .space ∧
        (tag.isBlockStart || tag.isBlockEnd) = false := by
      cases tag <;> first | exact ⟨rfl, rfl, by decide, rfl⟩ | cases htag
    have hnode : t.node = .markdown tag data := h.1
    obtain ⟨c, hlast, hc⟩ := hdata.ends
    refine ⟨not_mem_text_of_node hnode hdata.single, fun rawText => ?_, fun k => ?_, ?_⟩
    · rwa [chars_of_node hnode (by simp [hmark.1])]
    · rw [slack_of_node hnode hmark.2.2.1 hmark.2.2.2, Text.spacesBehind_of_getLast? hlast hc]
    · rw [tagIs_of_node hnode, hmark.2.1]
  | @tag raw hraw hu h =>
    have hnode : t.node = .html raw := h.1
    refine ⟨fun s hs => ?_, firm_tag hraw hu hnode, fun k => ?_, ?_⟩
    · simp [Token.text?, hnode, hraw] at hs
    · simp [Token.slack, hnode]
    · rw [h.tagIs]
      rfl
  | @text s hs h =>
    have hnode : t.node = .html (.characters s) := h.1
    refine ⟨not_mem_text_of_characters hnode hs.single, fun rawText => ?_, fun k => ?_, ?_⟩
    · rw [chars_of_text hnode hs.single]
      split_ifs
      · exact hs
      · exact hs.escaped
    · simp [Token.slack, hnode]
    · rw [h.tagIs]
      rfl
  | @line s hs h =>
    have hnode : t.node = .markdown .charactersSplit s := h.1
    obtain ⟨c, hlast, hc⟩ := hs.ends
    refine ⟨not_mem_text_of_node hnode hs.single, fun rawText => ?_, fun k => ?_, ?_⟩
    · rw [chars_of_line hnode hs.single]
      exact hs.escaped
    · rw [slack_of_node hnode (by decide) rfl, Text.spacesBehind_of_getLast? hlast hc]
    · rw [h.tagIs]
      rfl

theorem Solitary.measured (h : Solitary t) : Measured t := by
  intro k rawText cs
  have hfirm := (h.chars rawText).append (Text.newline_not_mem_replicate k)
  rw [← List.append_assoc, hfirm.hardBreak_append, h.slack, h.line]
  simp

theorem indentToken_newline (h : t.Like .newline) : Measured (indentToken t) ∧
    (indentToken t).tagIs Tag.beginsLine = true ∧ ∃ n ≤ 1, ∀ k, (indentToken t).slack k = n := by
  have hnode := indentToken_node h.1
  have hcode : t.inCode = false := h.2
  rw [hcode] at hnode
  have hdata : (indentLines (lineHead t.markers false) "\n").toList =
      '\n' :: lineHead t.markers false := by simp [indentLines]
  refine ⟨measured_line hnode rfl hdata (not_newline_mem_lineHead _ _), tagIs_of_node hnode _,
    _, spacesBehind_lineHead t.markers, fun k => ?_⟩
  rw [slack_of_node hnode (by decide) rfl, hdata, Text.spacesBehind_cons_of_ne (by decide)]

/-- Indented, a mark on a line of its own has the head of the line before it. -/
theorem toList_indentLines_mark {mark : List Char} (hdata : data.toList = '\n' :: mark)
    (hmark : '\n' ∉ mark) (depth : Nat) (inCode : Bool) :
    (indentLines (lineHead depth inCode) data).toList = '\n' :: (lineHead depth inCode ++ mark) ∧
      '\n' ∉ lineHead depth inCode ++ mark := by
  constructor
  · rw [toList_indentLines, hdata, indentChars_newline, indentChars_of_not_mem _ hmark,
      List.cons_append]
  · rw [List.mem_append, not_or]
    exact ⟨not_newline_mem_lineHead _ _, hmark⟩

/-- Indented, every cell of a draft is measured. -/
theorem Cell.measured (h : Cell t) : Measured (indentToken t) := by
  cases h with
  | @blockMark tag htag h =>
    have hmark : (tag.isBlockStart || tag.isBlockEnd) = true ∧ tag ≠ .space ∧
        tag.renderKind ≠ .text ∧ tag.beginsLine = false := by
      cases tag <;> first | exact ⟨rfl, by decide, by decide, rfl⟩ | simp [Tag.isBlockStart,
        Tag.isBlockEnd] at htag
    have hnode := indentToken_node h.1
    have hempty : indentLines (lineHead t.markers t.inCode) "" = "" := rfl
    rw [hempty] at hnode
    intro k rawText cs
    have hslack : (indentToken t).slack k = k := by
      simp [Token.slack, hnode, hmark.1, hmark.2.1]
    rw [chars_of_node hnode hmark.2.2.1, hslack, tagIs_of_node hnode, hmark.2.2.2]
    simp
  | space h =>
    have hnode : t.node = .markdown .space " " := h.1
    have hsame := indentToken_of_not_mem (not_mem_text_of_node hnode (by decide))
    intro k rawText cs
    have hslack : t.slack k = k + 1 := by simp [Token.slack, hnode]
    have hspace : " ".toList = [' '] := by decide
    rw [hsame, chars_of_node hnode (by decide), hslack, tagIs_of_node hnode, hspace,
      List.replicate_succ', List.append_assoc]
    simp [Tag.beginsLine]
  | newline h => exact (indentToken_newline h).1
  | blank h =>
    have hnode := indentToken_node h.1
    have hcode : t.inCode = false := h.2
    rw [hcode] at hnode
    have hdata : (indentLines (lineHead t.markers false) "\n\n").toList =
        '\n' :: lineHead t.markers false ++ '\n' :: lineHead t.markers false := by
      simp [indentLines]
    exact measured_blank hnode hdata
  | @ownLine tag data mark htag hdata hmark hne h =>
    have hnode := indentToken_node h.1
    have hline : tag.beginsLine = true := by rcases htag with rfl | rfl <;> rfl
    obtain ⟨hindent, hsingle⟩ := toList_indentLines_mark hdata hmark t.markers t.inCode
    exact measured_line hnode hline hindent hsingle
  | @definition data cs hdata hcs h =>
    have hsingle : '\n' ∉ data.toList := by simp [hdata, hcs]
    have hnode : t.node = .markdown .anchorReference data := h.1
    have hsame := indentToken_of_not_mem (not_mem_text_of_node hnode hsingle)
    rw [hsame]
    exact measured_mark hnode rfl rfl hsingle ⟨'[', by simp [hdata], by decide⟩
  | word h =>
    have hsolitary := h.solitary
    rw [indentToken_of_not_mem hsolitary.text]
    exact hsolitary.measured

theorem gapes_cons (t : Token) (ts : List Token) : gapes k (t :: ts) = true ↔
    t.tagIs Tag.beginsLine = true ∧ 2 ≤ k ∨ gapes (t.slack k) ts = true := by
  simp [gapes]

theorem Measured.hardBreak_cons (h : Measured t) {rawText : Option String}
    (ih : HardBreak (List.replicate (t.slack k) ' ' ++ renderChars (t.rawTextAfter rawText) ts) ↔
      gapes (t.slack k) ts = true) :
    HardBreak (List.replicate k ' ' ++ renderChars rawText (t :: ts)) ↔
      gapes k (t :: ts) = true := by
  rw [renderChars, h, ih, gapes_cons]

/-- The text of a line inside a text, which ends in one space at most. -/
theorem spacesBehind_loose {cs : List Char} (h : Loose cs) (hk : cs = [] → k ≤ 1) :
    spacesBehind (List.replicate k ' ' ++ cs.flatMap Text.escapeChar) ≤ 1 := by
  have hspaces := h.spaces
  rcases Text.exists_append_replicate cs with hcs | ⟨xs, c, hc, hcs⟩
  · -- a line of spaces alone is empty
    have hempty : cs = [] := by
      obtain hzero | hone : spacesBehind cs = 0 ∨ spacesBehind cs = 1 := by omega
      · rwa [hzero] at hcs
      · rw [hone] at hcs
        exact absurd hcs h.blank
    rw [hempty, List.flatMap_nil, List.append_nil, Text.spacesBehind_replicate]
    exact hk hempty
  · have hink : ∃ d ∈ cs.flatMap Text.escapeChar, d ≠ ' ' := by
      obtain ⟨ds, d, hd, hescape⟩ := Text.exists_escapeChar (p := (· ≠ ' ')) (by decide) hc
      have hmem : c ∈ cs := by
        rw [hcs]
        simp
      exact ⟨d, List.mem_flatMap.mpr ⟨c, hmem, by simp [hescape]⟩, hd⟩
    rwa [Text.spacesBehind_append hink, Text.spacesBehind_flatMap_escapeChar]

/-- The text of an indented draft has a hard break exactly if its tokens gape. -/
theorem hardBreak_indentAll (h : Draft inText ts) (hk : inText = true → k ≤ 1)
    (rawText : Option String) :
    HardBreak (List.replicate k ' ' ++ renderChars rawText (indentAll ts)) ↔
      gapes k (indentAll ts) = true := by
  induction h generalizing k rawText with
  | nil =>
    have hnone := Text.not_hardBreak_of_not_mem (Text.newline_not_mem_replicate k)
    simpa [indentAll, renderChars, gapes] using hnone
  | cell ht _ ih => exact ht.measured.hardBreak_cons (ih (fun h => by cases h) _)
  | last ht _ ih =>
    exact (Cell.word ht).measured.hardBreak_cons (ih (fun h => by cases h) _)
  | @linked t u s ts ht hs hu _ ih =>
    have hnode : t.node = .html (.characters s) := ht.1
    have hsame := indentToken_of_not_mem (not_mem_text_of_characters hnode hs)
    have hchars : '\n' ∉ List.replicate k ' ' ++ t.chars rawText := by
      rw [List.mem_append, not_or, chars_of_text hnode hs]
      refine ⟨Text.newline_not_mem_replicate k, ?_⟩
      split_ifs
      · exact hs
      · exact Text.not_mem_flatMap_escapeChar hs
    have hline : t.tagIs Tag.beginsLine = false := by
      rw [ht.tagIs]
      rfl
    have hword := hu.solitary
    have hrest : renderChars rawText (indentAll (t :: u :: ts)) =
        t.chars rawText ++ (u.chars (t.rawTextAfter rawText) ++
          renderChars (u.rawTextAfter (t.rawTextAfter rawText)) (indentAll ts)) := by
      simp [indentAll, renderChars, hsame, indentToken_of_not_mem hword.text]
    have hgapes : gapes k (indentAll (t :: u :: ts)) = gapes 0 (indentAll ts) := by
      simp [indentAll, gapes, hsame, indentToken_of_not_mem hword.text, hline, hword.line,
        hword.slack]
    have hbehind := ih (k := 0) (fun h => by cases h) (u.rawTextAfter (t.rawTextAfter rawText))
    rw [hrest, hgapes, ← List.append_assoc, Text.hardBreak_append hchars, hword.measured,
      hword.line, hword.slack, hbehind]
    simp
  | @line inText t u s ts ht hs hne hu _ ih =>
    have hnode : t.node = .markdown .charactersSplit s := ht.1
    have hsame := indentToken_of_not_mem (not_mem_text_of_node hnode hs.single)
    have hchars : '\n' ∉ List.replicate k ' ' ++ t.chars rawText := by
      rw [List.mem_append, not_or, chars_of_line hnode hs.single]
      exact ⟨Text.newline_not_mem_replicate k, Text.not_mem_flatMap_escapeChar hs.single⟩
    have hloose : spacesBehind (List.replicate k ' ' ++ t.chars rawText) ≤ 1 := by
      rw [chars_of_line hnode hs.single]
      refine spacesBehind_loose hs fun hempty => ?_
      cases inText with
      | true => exact hk rfl
      | false => exact absurd (String.toList_eq_nil_iff.mp hempty) (hne rfl)
    have hslack : t.slack k ≤ 1 := by
      rw [slack_of_node hnode (by decide) rfl]
      exact hs.spaces
    have hline : t.tagIs Tag.beginsLine = false := by
      rw [ht.tagIs]
      rfl
    obtain ⟨hmeasured, hnewline, n, hn, hnext⟩ := indentToken_newline hu
    have hindent : indentAll (t :: u :: ts) = t :: indentToken u :: indentAll ts := by
      simp [indentAll, hsame]
    have hbehind := ih (k := n) (fun _ => hn)
      ((indentToken u).rawTextAfter (t.rawTextAfter rawText))
    rw [hindent, renderChars, renderChars, gapes_cons, gapes_cons, hline, hnewline, hnext,
      ← List.append_assoc, Text.hardBreak_append hchars, hmeasured, hnewline, hnext, hbehind,
      or_iff_right (by omega), or_iff_right (by simp), or_iff_right (by omega)]

end HtmlMarkdown.Markdown
