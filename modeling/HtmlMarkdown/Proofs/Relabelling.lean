import HtmlMarkdown.Markdown.Layout
import Mathlib.Data.List.Basic

/-!
# Spacing never reads a mark

Emphasis markers and the heads of list items have data in which a mark is a matter of choice. The
spacing pass looks at tags and depths, at the names of native edges and at raw HTML, and so it works
alike on two streams that differ in such data only: a `Relabelling` before the pass is the same
relabelling behind it.
-/

namespace HtmlMarkdown.Markdown

def Tag.isMarked : Tag → Bool
  | emphasis | strong | boldItalic | listItemStart => true
  | _ => false

/-- A change of tokens that only reaches into the data of marked ones. -/
structure Relabelling (φ : Token → Token) : Prop where
  tag? : ∀ t, (φ t).tag? = t.tag?
  quoteDepth : ∀ t, (φ t).quoteDepth = t.quoteDepth
  inCode : ∀ t, (φ t).inCode = t.inCode
  node : ∀ t u : Token, u.node = t.node → (φ u).node = (φ t).node
  unmarked : ∀ t, t.tagIs Tag.isMarked = false → φ t = t

variable {φ : Token → Token} {t : Token} {out ts : List Token} {s : Spacer}

theorem Token.not_tagIs_isMarked {tag : Tag} (h : t.tag? = some tag)
    (hm : tag.isMarked = false) : t.tagIs Tag.isMarked = false := by
  rw [Token.tagIs, h, Option.any_some, hm]

/-- A marked token is Markdown. -/
theorem Token.raw?_of_isMarked (h : t.tagIs Tag.isMarked = true) :
    t.raw? = none ∧ t.nativeName? = none ∧ t.isRawNewlines = false := by
  obtain ⟨node, _, _⟩ := t
  cases node with
  | markdown tag data => exact ⟨rfl, rfl, rfl⟩
  | native edge raw => cases edge <;> cases h
  | html raw => cases h

namespace Relabelling

variable (h : Relabelling φ)
include h

theorem tagIs (t : Token) (p : Tag → Bool) : (φ t).tagIs p = t.tagIs p := by
  rw [Token.tagIs, h.tag?, Token.tagIs]

theorem hasTag (t : Token) (tag : Tag) : (φ t).hasTag tag = t.hasTag tag := by
  rw [Token.hasTag, h.tag?, Token.hasTag]

theorem isNewline (t : Token) : (φ t).isNewline = t.isNewline := h.tagIs t Tag.isNewline

theorem raw?_eq (t : Token) : (φ t).raw? = t.raw? ∧ (φ t).nativeName? = t.nativeName? ∧
    (φ t).isRawNewlines = t.isRawNewlines := by
  cases hm : t.tagIs Tag.isMarked with
  | false => rw [h.unmarked t hm]; exact ⟨rfl, rfl, rfl⟩
  | true =>
    obtain ⟨hraw, hname, hnewlines⟩ := Token.raw?_of_isMarked hm
    obtain ⟨hraw', hname', hnewlines'⟩ :=
      Token.raw?_of_isMarked (t := φ t) ((h.tagIs t _).trans hm)
    exact ⟨hraw'.trans hraw.symm, hname'.trans hname.symm, hnewlines'.trans hnewlines.symm⟩

theorem isNativePre (t : Token) (edge : Tag) :
    (φ t).isNativePre edge = t.isNativePre edge := by
  rw [Token.isNativePre, Token.isNativePre, h.hasTag, (h.raw?_eq t).2.1]

theorem isCodeSpace (t : Token) : Spacer.isCodeSpace (φ t) = Spacer.isCodeSpace t := by
  rw [Spacer.isCodeSpace, Spacer.isCodeSpace, h.inCode, (h.raw?_eq t).1]

theorem stamped (t : Token) (depth : Option Nat) (flag : Bool) :
    φ { t with quoteDepth := depth, inCode := flag } =
      { φ t with quoteDepth := depth, inCode := flag } := by
  let u : Token := { t with quoteDepth := depth, inCode := flag }
  have hnode : (φ u).node = (φ t).node := h.node t u rfl
  have hdepth : (φ u).quoteDepth = depth := h.quoteDepth u
  have hflag : (φ u).inCode = flag := h.inCode u
  dsimp only
  rw [← hnode]
  calc φ u = { φ u with quoteDepth := (φ u).quoteDepth, inCode := (φ u).inCode } := rfl
    _ = { φ u with quoteDepth := depth, inCode := flag } := by rw [hdepth, hflag]

theorem inCodeBlock (t : Token) : φ t.inCodeBlock = (φ t).inCodeBlock :=
  (h.stamped t t.quoteDepth true).trans
    (congrArg (fun depth => ({ φ t with quoteDepth := depth, inCode := true } : Token))
      (h.quoteDepth t).symm)

theorem within (t : Token) (depth : Option Nat) : φ (t.within depth) = (φ t).within depth := by
  unfold Token.within
  rw [h.quoteDepth]
  split
  · rfl
  · exact (h.stamped t _ t.inCode).trans
      (congrArg (fun flag => ({ φ t with quoteDepth := depth.filter (0 < ·), inCode := flag } :
        Token)) (h.inCode t).symm)

theorem of_tag {tag : Tag} (ht : t.tag? = some tag) (hm : tag.isMarked = false := by rfl) :
    φ t = t := h.unmarked t (Token.not_tagIs_isMarked ht hm)

theorem restamped {tag : Tag} (ht : t.tag? = some tag) (depth : Option Nat) (flag : Bool)
    (hm : tag.isMarked = false := by rfl) :
    φ { t.within depth with inCode := flag } = { t.within depth with inCode := flag } :=
  h.unmarked _ (Token.not_tagIs_isMarked ((Token.tag?_within t depth).trans ht) hm)

theorem newline_within (depth : Option Nat) :
    φ (Token.newline.within depth) = Token.newline.within depth :=
  h.of_tag (Token.tag?_within _ _)

theorem blank_within (depth : Option Nat) :
    φ (Token.newlineBlank.within depth) = Token.newlineBlank.within depth :=
  h.of_tag (Token.tag?_within _ _)

theorem newlines_within (count : Nat) (depth : Option Nat) :
    φ ((Token.newlines count).within depth) = (Token.newlines count).within depth := by
  unfold Token.newlines
  split
  · exact h.blank_within depth
  · exact h.newline_within depth

theorem endsInRule (ts : List Token) : Markdown.endsInRule (ts.map φ) = Markdown.endsInRule ts := by
  cases ts with
  | nil => rfl
  | cons last earlier => exact h.hasTag last .horizontalRule

theorem foreignBlank (blank : Token) (earlier : List Token) :
    Markdown.foreignBlank (φ blank) (earlier.map φ) = φ (Markdown.foreignBlank blank earlier) := by
  unfold Markdown.foreignBlank
  rw [h.endsInRule, h.quoteDepth, h.inCode]
  dsimp only
  split
  · exact (h.restamped rfl blank.quoteDepth blank.inCode).symm
  · exact (h.restamped rfl blank.quoteDepth blank.inCode).symm

theorem rewind (wanted : Nat) (depth : Option Nat) (out : List Token) :
    Markdown.rewind wanted depth (out.map φ) =
      ((Markdown.rewind wanted depth out).1.map φ, (Markdown.rewind wanted depth out).2) := by
  induction out with
  | nil => rfl
  | cons last earlier ih =>
    simp only [List.map_cons, Markdown.rewind, h.tag?, h.quoteDepth, h.endsInRule, ih,
      h.foreignBlank]
    split
    · rfl
    · split_ifs <;> rfl

theorem settle (wanted : Nat) (depth : Option Nat) (out : List Token) :
    Markdown.settle wanted depth (out.map φ) = (Markdown.settle wanted depth out).map φ := by
  simp only [Markdown.settle, h.rewind, h.endsInRule, List.isEmpty_map]
  generalize Markdown.rewind wanted depth out = rewound
  obtain ⟨kept, missing⟩ := rewound
  dsimp only
  split_ifs <;> simp only [List.map_cons, h.newlines_within]

theorem codeLine (depth : Option Nat) (out : List Token) :
    Spacer.codeLine depth (out.map φ) = (Spacer.codeLine depth out).map φ := by
  have hfresh (d : Option Nat) : φ (Token.newline.within d).inCodeBlock =
      (Token.newline.within d).inCodeBlock := by
    rw [h.inCodeBlock, h.newline_within]
  unfold Spacer.codeLine
  cases out with
  | nil => simp only [List.map_nil, List.map_cons, hfresh]
  | cons last earlier =>
    simp only [List.map_cons, h.tagIs, h.hasTag, h.quoteDepth]
    split_ifs <;> simp only [List.map_cons, hfresh, h.newline_within, h.inCodeBlock]

theorem matchingCodeEnd (depth : Nat) (ts : List Token) :
    Markdown.matchingCodeEnd depth (ts.map φ) = Markdown.matchingCodeEnd depth ts := by
  induction ts generalizing depth with
  | nil => rfl
  | cons t ts ih => simp only [List.map_cons, Markdown.matchingCodeEnd, h.tag?, ih]

theorem pastNewlines (ts : List Token) : Markdown.pastNewlines (ts.map φ) =
    (Markdown.pastNewlines ts).map fun found => (φ found.1, found.2.map φ) := by
  induction ts with
  | nil => rfl
  | cons t ts ih =>
    simp only [List.map_cons, Markdown.pastNewlines, h.isNewline]
    split
    · exact ih
    · rfl

theorem classify (out ts : List Token) :
    CodeRegion.classify (out.map φ) (ts.map φ) = CodeRegion.classify out ts := by
  have hbehind : CodeRegion.behind (out.map φ) = CodeRegion.behind out := by
    unfold CodeRegion.behind
    rw [h.pastNewlines]
    cases Markdown.pastNewlines out with
    | none => rfl
    | some found => simp only [Option.map_some, h.isNativePre, List.length_map]
  have hahead (rest : List Token) : CodeRegion.ahead (rest.map φ) = CodeRegion.ahead rest := by
    unfold CodeRegion.ahead
    rw [h.pastNewlines]
    cases Markdown.pastNewlines rest with
    | none => rfl
    | some found => simp only [Option.map_some, h.isNativePre, h.tagIs, List.length_map]
  simp only [CodeRegion.classify, h.matchingCodeEnd, hbehind, ← List.map_drop, hahead]

end Relabelling

def Spacer.relabel (φ : Token → Token) (s : Spacer) : Spacer :=
  { s with output := s.output.map φ }

namespace Relabelling

variable (h : Relabelling φ)
include h

theorem spacer_settle (wanted : Nat) (depth : Option Nat) :
    (s.relabel φ).settle wanted depth = (s.settle wanted depth).relabel φ := by
  simp only [Spacer.settle, Spacer.relabel, h.settle]

omit h in
theorem push (t : Token) : (s.relabel φ).push (φ t) = (s.push t).relabel φ := rfl

omit h in
theorem push_unmarked (ht : φ t = t) : (s.relabel φ).push t = (s.push t).relabel φ :=
  (congrArg _ ht.symm).trans (Relabelling.push t)

theorem blockStart (t : Token) (next : Option Token) :
    (s.relabel φ).blockStart (φ t) (next.map φ) = (s.blockStart t next).relabel φ := by
  unfold Spacer.blockStart
  cases next with
  | none => simp only [Option.map_none, h.quoteDepth, h.spacer_settle]
  | some next =>
    simp only [Option.map_some, h.tagIs, h.isNewline, h.quoteDepth, h.spacer_settle]
    split_ifs <;> rfl

theorem any_map (o : Option Token) (p : Tag → Bool) :
    (o.map φ).any (·.tagIs p) = o.any (·.tagIs p) := by
  cases o with
  | none => rfl
  | some t => exact h.tagIs t p

theorem blockEnd (t : Token) (before next : Option Token) :
    (s.relabel φ).blockEnd (φ t) (before.map φ) (next.map φ) =
      (s.blockEnd t before next).relabel φ := by
  have hnewline : (next.map φ).any (·.isNewline) = next.any (·.isNewline) :=
    h.any_map next Tag.isNewline
  simp only [Spacer.blockEnd, h.any_map, hnewline, h.quoteDepth, h.spacer_settle]
  split_ifs <;> rfl

theorem whitespace (ht : φ t = t) (next : Option Token) :
    (s.relabel φ).whitespace t (next.map φ) = (s.whitespace t next).relabel φ := by
  have hout : (s.relabel φ).output = s.output.map φ := rfl
  simp only [Spacer.whitespace, Spacer.newlineAfterRule, h.any_map, hout]
  cases hlast : s.output with
  | nil =>
    dsimp only [List.map_nil]
    split
    · rfl
    · exact Relabelling.push_unmarked ht
  | cons last earlier =>
    simp only [List.map_cons, h.isNewline, h.hasTag]
    split_ifs
    · rfl
    · simp only [Spacer.relabel, List.map_cons, h.blank_within]
    · rfl
    · exact Relabelling.push_unmarked (h.newline_within _)
    · rfl
    · exact Relabelling.push_unmarked ht

theorem codeDelimiter (t : Token) :
    φ (Spacer.codeDelimiter t) = Spacer.codeDelimiter (φ t) := by
  unfold Spacer.codeDelimiter
  rw [h.quoteDepth]
  have htag (depth : Option Nat) :
      ((Token.charactersAdded "`").within depth).tag? = some .charactersAdded :=
    Token.tag?_within _ _
  exact h.of_tag (htag _)

theorem openCode (t : Token) (after : List Token) :
    (s.relabel φ).openCode (φ t) (after.map φ) = (s.openCode t after).relabel φ := by
  have hregion : CodeRegion.classify (s.output.map φ) (φ t :: after.map φ) =
      CodeRegion.classify s.output (t :: after) := h.classify s.output (t :: after)
  have hskip : (after.map φ).head?.any Token.isRawNewlines =
      after.head?.any Token.isRawNewlines := by
    cases after with
    | nil => rfl
    | cons u us => exact (h.raw?_eq u).2.2
  simp only [Spacer.openCode, Spacer.relabel, hregion, hskip, h.quoteDepth]
  cases (CodeRegion.classify s.output (t :: after)).kind with
  | inline => simp only [Spacer.push, List.map_cons, h.codeDelimiter]
  | block =>
    dsimp only
    rw [← h.codeLine]
    congr 2
    cases s.output with
    | nil => rfl
    | cons last earlier =>
      simp only [List.map_cons, h.hasTag]
      split_ifs <;> rfl

theorem closeCode (kind : CodeKind) (t : Token) :
    (s.relabel φ).closeCode kind (φ t) = (s.closeCode kind t).relabel φ := by
  cases kind with
  | inline => simp only [Spacer.closeCode, Spacer.push, Spacer.relabel, List.map_cons,
      h.codeDelimiter]
  | block =>
    have hspace : Spacer.isCodeSpace ∘ φ = Spacer.isCodeSpace := funext h.isCodeSpace
    simp only [Spacer.closeCode, Spacer.relabel, List.dropWhile_map, hspace]

theorem insideCode (opened : OpenCode) (t : Token) :
    (s.relabel φ).insideCode opened (φ t) = (s.insideCode opened t).relabel φ := by
  unfold Spacer.insideCode
  rw [h.tag?, h.closeCode, ← h.inCodeBlock, Relabelling.push, Relabelling.push]
  split
  · rfl
  · split <;> rfl
  · split <;> rfl

theorem ordinary (before : Option Token) (t : Token) (after : List Token) {tag : Tag}
    (ht : t.tag? = some tag) :
    (s.relabel φ).ordinary (before.map φ) (φ t) (after.map φ) tag =
      (s.ordinary before t after tag).relabel φ := by
  have hspace (hm : tag.isMarked = false) :
      (s.relabel φ).whitespace (φ t) ((after.map φ).head?) =
        (s.whitespace t after.head?).relabel φ := by
    rw [h.of_tag ht hm, List.head?_map]
    exact h.whitespace (h.of_tag ht hm) _
  cases tag with
  | startCode => exact h.openCode t after
  | endCode => rfl
  | startBlock | startBlockquote =>
    unfold Spacer.ordinary
    rw [List.head?_map]
    exact h.blockStart t _
  | endBlock | endBlockquote =>
    unfold Spacer.ordinary
    rw [List.head?_map]
    exact h.blockEnd t before _
  | space | tab | newline | newlineHard | newlineBlank => exact hspace rfl
  | startNativeBlock =>
    change ((s.relabel φ).settle 2 (φ t).quoteDepth).push (φ t) = _
    rw [h.quoteDepth, h.spacer_settle]
    rfl
  | horizontalRule =>
    change ((s.relabel φ).settle 1 (φ t).quoteDepth).push (φ t) = _
    rw [h.quoteDepth, h.spacer_settle]
    rfl
  | endNativeBlock =>
    cases hdrop : s.dropNativeEnd <;>
      simp [Spacer.ordinary, Spacer.relabel, Spacer.push, hdrop]
  | _ => rfl

theorem step (before : Option Token) (t : Token) (after : List Token) :
    (s.relabel φ).step (before.map φ) (φ t) (after.map φ) =
      (s.step before t after).relabel φ := by
  have hcode : (s.relabel φ).code = s.code := rfl
  have hskip : (s.relabel φ).skipNext = s.skipNext := rfl
  unfold Spacer.step
  rw [hskip, hcode, h.tag?]
  split
  · rfl
  · split
    · exact h.insideCode _ t
    · split
      · rfl
      · next tag htag => exact h.ordinary before t after htag

theorem run (s : Spacer) (before : Option Token) (ts : List Token) :
    (s.relabel φ).run (before.map φ) (ts.map φ) = (s.run before ts).relabel φ := by
  induction ts generalizing s before with
  | nil => rfl
  | cons t ts ih =>
    simp only [List.map_cons, Spacer.run, h.step]
    exact ih (s.step before t ts) (some t)

/-- The spacing pass commutes with a relabelling. -/
theorem space (ts : List Token) : Markdown.space (ts.map φ) = (Markdown.space ts).map φ := by
  have hrun := h.run {} none ts
  unfold Markdown.space
  rw [List.map_reverse]
  exact congrArg (fun s : Spacer => s.output.reverse) hrun

theorem layRules (ts : List Token) :
    Markdown.layRules (ts.map φ) = (Markdown.layRules ts).map φ := by
  have hlines (t : Token) : ruleLines (φ t) = (ruleLines t).map φ := by
    simp only [ruleLines, h.hasTag, h.quoteDepth, h.inCode]
    split
    · simp only [List.map_cons, List.map_nil, h.restamped (t := .newline) rfl]
    · rfl
  simp only [Markdown.layRules, List.flatMap_map, List.map_flatMap, hlines]

end Relabelling

end HtmlMarkdown.Markdown
