import HtmlMarkdown.Proofs.Settling

/-!
# What the spacing pass leaves in place

At the end of its output the spacing pass takes back white space, the start of a native block that
becomes a block of code, and the space that such a block ends with. Everything else is fixed: the
output up to a fixed token is there at the end.
-/

namespace HtmlMarkdown.Markdown

/-- The token is never taken back from the end of the output. -/
def Token.isFixed (t : Token) : Bool :=
  !(t.tagIs Tag.isWhitespace || t.hasTag .startNativeBlock || Spacer.isCodeSpace t)

def fixedPart (out : List Token) : List Token := out.dropWhile fun t => !t.isFixed

def Fixed (kept : List Token) : Prop := ∀ t ∈ kept.head?, t.isFixed = true

variable {kept out ts : List Token} {t : Token} {depth : Option Nat} {s : Spacer}
  {before next : Option Token}

theorem fixedPart_suffix (out : List Token) : fixedPart out <:+ out := List.dropWhile_suffix _

theorem fixed_fixedPart (out : List Token) : Fixed (fixedPart out) := by
  intro t ht
  have hnot := List.head?_dropWhile_not (fun t : Token => !t.isFixed) out
  rw [fixedPart, Option.mem_def] at ht
  rw [ht] at hnot
  simpa using hnot

theorem isFixed_of_tagIs (h : t.tagIs Tag.isWhitespace = true) : t.isFixed = false := by
  simp [Token.isFixed, h]

theorem isFixed_of_isNewline (h : t.isNewline = true) : t.isFixed = false :=
  isFixed_of_tagIs (Token.isWhitespace_of_isNewline h)

namespace Fixed

/-- What is kept does not reach up to a token that is not fixed. -/
theorem of_cons (h : Fixed kept) (ht : t.isFixed = false) (hk : kept <:+ t :: out) :
    kept <:+ out := by
  rcases List.suffix_cons_iff.mp hk with rfl | hk
  · exact absurd (ht.symm.trans (h t rfl)) Bool.false_ne_true
  · exact hk

theorem rewind (h : Fixed kept) (hk : kept <:+ out) (wanted : Nat) (depth : Option Nat) :
    kept <:+ (rewind wanted depth out).1 := by
  induction out generalizing wanted with
  | nil => exact hk
  | cons last earlier ih =>
    rw [Markdown.rewind]
    cases htag : last.tag?.filter Tag.isWhitespace with
    | none => exact hk
    | some tag =>
      have hw : last.tagIs Tag.isWhitespace = true := by
        obtain ⟨hlast, hw⟩ := Option.filter_eq_some_iff.mp htag
        simp [Token.tagIs, hlast, hw]
      have hearlier := h.of_cons (isFixed_of_tagIs hw) hk
      dsimp only
      split_ifs
      · exact hearlier.trans (List.suffix_cons _ _)
      · exact hearlier.trans (List.suffix_cons _ _)
      · exact hk
      · exact ih hearlier wanted

theorem settle (h : Fixed kept) (hk : kept <:+ out) (wanted : Nat) (depth : Option Nat) :
    kept <:+ settle wanted depth out := by
  have hrewind := h.rewind hk wanted depth
  unfold Markdown.settle
  dsimp only
  split_ifs
  · exact hrewind
  · exact hrewind.trans (List.suffix_cons _ _)
  · exact hrewind
  · exact hrewind.trans (List.suffix_cons _ _)

theorem codeLine (h : Fixed kept) (hk : kept <:+ out) (depth : Option Nat) :
    kept <:+ Spacer.codeLine depth out := by
  unfold Spacer.codeLine
  dsimp only
  split
  · exact hk.trans (List.suffix_cons _ _)
  · next last earlier =>
    split_ifs with hsingle hblank
    · have hw := Token.isWhitespace_of_isNewline (Token.isNewline_of_isSingleNewline hsingle).1
      exact (h.of_cons (isFixed_of_tagIs hw) hk).trans (List.suffix_cons _ _)
    · have hw : last.tagIs Tag.isWhitespace = true := by
        simp [Token.tagIs, Token.tag?_eq_of_hasTag hblank, Tag.isWhitespace]
      exact ((h.of_cons (isFixed_of_tagIs hw) hk).trans (List.suffix_cons _ _)).trans
        (List.suffix_cons _ _)
    · exact hk.trans (List.suffix_cons _ _)

theorem openCode (h : Fixed kept) (hk : kept <:+ s.output) (t : Token) (after : List Token) :
    kept <:+ (s.openCode t after).output := by
  unfold Spacer.openCode
  dsimp only
  split
  · exact hk.trans (List.suffix_cons _ _)
  · refine h.codeLine ?_ _
    split
    · next hout => rwa [hout] at hk
    · next last earlier hout =>
      rw [hout] at hk
      split_ifs with hdrop
      · have hnative : last.isFixed = false := by
          rw [Bool.and_eq_true] at hdrop
          simp [Token.isFixed, hdrop.2]
        exact h.of_cons hnative hk
      · exact hk

theorem closeCode (h : Fixed kept) (hk : kept <:+ s.output) (kind : CodeKind) (t : Token) :
    kept <:+ (s.closeCode kind t).output := by
  have hdrop (out : List Token) (hk : kept <:+ out) :
      kept <:+ out.dropWhile Spacer.isCodeSpace := by
    induction out with
    | nil => exact hk
    | cons last earlier ih =>
      rw [List.dropWhile_cons]
      split_ifs with hspace
      · exact ih (h.of_cons (by simp [Token.isFixed, hspace]) hk)
      · exact hk
  cases kind with
  | block => exact hdrop _ hk
  | inline => exact hk.trans (List.suffix_cons _ _)

theorem insideCode (h : Fixed kept) (hk : kept <:+ s.output) (opened : OpenCode) (t : Token) :
    kept <:+ (s.insideCode opened t).output := by
  have hpush (t : Token) : kept <:+ (s.push t).output := hk.trans (List.suffix_cons _ _)
  unfold Spacer.insideCode
  split
  · exact hk
  · split
    · exact h.closeCode hk _ _
    · exact hk
  · split
    · exact hpush _
    · exact hpush _

theorem whitespace (h : Fixed kept) (hk : kept <:+ s.output) (t : Token) (next : Option Token) :
    kept <:+ (s.whitespace t next).output := by
  have hpush (t : Token) : kept <:+ (s.push t).output := hk.trans (List.suffix_cons _ _)
  unfold Spacer.whitespace
  split_ifs
  · exact hk
  · split
    · exact hpush t
    · next last earlier hout =>
      split_ifs with hmerge hrule
      · rw [hout] at hk
        exact (h.of_cons (isFixed_of_isNewline hmerge.2) hk).trans (List.suffix_cons _ _)
      · unfold Spacer.newlineAfterRule
        split_ifs
        · exact hk
        · exact hpush _
        · exact hk
      · exact hpush t

theorem blockStart (h : Fixed kept) (hk : kept <:+ s.output) (t : Token) (next : Option Token) :
    kept <:+ (s.blockStart t next).output := by
  unfold Spacer.blockStart
  dsimp only
  split
  · exact h.settle hk _ _
  · split_ifs
    · exact hk
    · exact h.settle hk _ _
    · exact h.settle hk _ _

theorem blockEnd (h : Fixed kept) (hk : kept <:+ s.output) (t : Token)
    (before next : Option Token) : kept <:+ (s.blockEnd t before next).output := by
  unfold Spacer.blockEnd
  split
  · exact hk
  · exact h.settle hk _ _

theorem ordinary (h : Fixed kept) (hk : kept <:+ s.output) (before : Option Token) (t : Token)
    (after : List Token) (tag : Tag) : kept <:+ (s.ordinary before t after tag).output := by
  have hpush : kept <:+ (s.push t).output := hk.trans (List.suffix_cons _ _)
  unfold Spacer.ordinary
  cases tag with
  | startCode => exact h.openCode hk t after
  | endCode => exact hk
  | startBlock | startBlockquote => exact h.blockStart hk t _
  | endBlock | endBlockquote => exact h.blockEnd hk t _ _
  | space | tab | newline | newlineHard | newlineBlank => exact h.whitespace hk t _
  | startNativeBlock | horizontalRule => exact (h.settle hk _ _).trans (List.suffix_cons _ _)
  | endNativeBlock =>
    dsimp only
    split
    · exact hk
    · exact hpush
  | _ => exact hpush

/-- A step keeps what it has found up to a fixed token. -/
theorem step (h : Fixed kept) (hk : kept <:+ s.output) (before : Option Token) (t : Token)
    (after : List Token) : kept <:+ (s.step before t after).output := by
  unfold Spacer.step
  split
  · exact hk
  · split
    · exact h.insideCode hk _ t
    · split
      · exact hk.trans (List.suffix_cons _ _)
      · exact h.ordinary hk before t after _

theorem run (h : Fixed kept) (hk : kept <:+ s.output) (before : Option Token) (ts : List Token) :
    kept <:+ (s.run before ts).output := by
  induction ts generalizing s before with
  | nil => exact hk
  | cons t ts ih => exact ih (h.step hk before t ts) _

end Fixed

/-- The output up to its latest fixed token is in the output at the end. -/
theorem fixedPart_run (s : Spacer) (before : Option Token) (ts : List Token) :
    fixedPart s.output <:+ (s.run before ts).output :=
  (fixed_fixedPart _).run (fixedPart_suffix _) before ts

end HtmlMarkdown.Markdown
