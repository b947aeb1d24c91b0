import HtmlMarkdown.Conversion.React
import HtmlMarkdown.Html.Forest
import Mathlib.Data.List.Basic

/-!
# Ink

The ink of a text is what is left of it without its white space. Flowing a text, cutting it into
lines and cutting its space off at both ends keep its ink.
-/

namespace HtmlMarkdown.Text

def ink (cs : List Char) : List Char := cs.filter (!isWhite ·)

theorem ink_append (cs ds : List Char) : ink (cs ++ ds) = ink cs ++ ink ds :=
  List.filter_append cs ds

theorem ink_cons_of_white {c : Char} (h : isWhite c = true) (cs : List Char) :
    ink (c :: cs) = ink cs := by
  simp [ink, h]

theorem ink_cons_congr (c : Char) {cs ds : List Char} (h : ink cs = ink ds) :
    ink (c :: cs) = ink (c :: ds) := by
  simp only [ink, List.filter_cons] at h ⊢
  rw [h]

theorem isWhite_newline : isWhite '\n' = true := by decide

theorem isWhite_space : isWhite ' ' = true := by decide

theorem isWhite_of_isSpaceOrTab {c : Char} (h : isSpaceOrTab c = true) : isWhite c = true :=
  isWhite_of_isHtmlSpace (isHtmlSpace_of_isSpaceOrTab h)

theorem ink_dropWhile {p : Char → Bool} (hp : ∀ c, p c = true → isWhite c = true)
    (cs : List Char) : ink (cs.dropWhile p) = ink cs := by
  induction cs with
  | nil => rfl
  | cons c cs ih =>
    by_cases hc : p c = true
    · rw [List.dropWhile_cons_of_pos hc, ih, ink_cons_of_white (hp c hc)]
    · rw [List.dropWhile_cons_of_neg hc]

theorem ink_reverse (cs : List Char) : ink cs.reverse = (ink cs).reverse := List.filter_reverse

theorem ink_dropTail {p : Char → Bool} (hp : ∀ c, p c = true → isWhite c = true)
    (cs : List Char) : ink (dropTail p cs) = ink cs := by
  rw [dropTail, ink_reverse, ink_dropWhile hp, ink_reverse, List.reverse_reverse]

theorem ink_trimChars (cs : List Char) : ink (trimChars cs) = ink cs := by
  rw [trimChars, ink_dropTail fun _ h => h, ink_dropWhile fun _ h => h]

theorem ink_capNewlines (kept : Nat) (cs : List Char) : ink (capNewlines kept cs) = ink cs := by
  induction cs generalizing kept with
  | nil => rfl
  | cons c cs ih =>
    rw [capNewlines]
    split_ifs with hc hkept
    · exact ink_cons_congr c (ih _)
    · rw [ih, hc, ink_cons_of_white isWhite_newline]
    · exact ink_cons_congr c (ih _)

theorem ink_squeeze (inRun : Bool) (cs : List Char) : ink (squeeze inRun cs) = ink cs := by
  induction cs generalizing inRun with
  | nil => rfl
  | cons c cs ih =>
    rw [squeeze]
    split_ifs with hc hrun
    · rw [ih, ink_cons_of_white (isWhite_of_isSpaceOrTab hc)]
    · rw [ink_cons_of_white isWhite_space, ih, ink_cons_of_white (isWhite_of_isSpaceOrTab hc)]
    · exact ink_cons_congr c (ih _)

theorem ink_dropIndents (inIndent : Bool) (cs : List Char) :
    ink (dropIndents inIndent cs) = ink cs := by
  induction cs generalizing inIndent with
  | nil => rfl
  | cons c cs ih =>
    rw [dropIndents]
    split_ifs with hc hitem
    · exact ink_cons_congr c (ih _)
    · rw [Bool.and_eq_true] at hc
      rw [ih, ink_cons_of_white (isWhite_of_isSpaceOrTab hc.2)]
    · exact ink_cons_congr c (ih _)

theorem ink_map_unfoldNewline (cs : List Char) : ink (cs.map unfoldNewline) = ink cs := by
  induction cs with
  | nil => rfl
  | cons c cs ih =>
    rw [List.map_cons, unfoldNewline]
    split_ifs with hc
    · rw [ink_cons_of_white isWhite_space, ih, hc, ink_cons_of_white isWhite_newline]
    · exact ink_cons_congr c ih

theorem ink_flowChars (inParagraph : Bool) (cs : List Char) :
    ink (flowChars inParagraph cs) = ink cs := by
  have hlaid : ink (dropIndents false (squeeze false (capNewlines 0 cs))) = ink cs := by
    rw [ink_dropIndents, ink_squeeze, ink_capNewlines]
  unfold flowChars
  dsimp only
  rw [ink_trimChars]
  split_ifs
  · rw [ink_squeeze, ink_map_unfoldNewline, hlaid]
  · exact hlaid

theorem ink_flow (inParagraph : Bool) (s : String) :
    ink (flow inParagraph s).toList = ink s.toList := by
  rw [flow, String.toList_ofList, ink_flowChars]

/-- Cutting a text at its newlines keeps its ink. -/
theorem ink_splitNewlines (cs : List Char) :
    ((splitNewlines cs).flatMap ink) = ink cs := by
  induction cs with
  | nil => rfl
  | cons c cs ih =>
    rw [splitNewlines]
    split_ifs with hc
    · rw [List.flatMap_cons, ih, hc, ink_cons_of_white isWhite_newline]
      rfl
    · cases hs : splitNewlines cs with
      | nil => exact absurd hs (splitNewlines_ne_nil cs)
      | cons line rest =>
        rw [hs, List.flatMap_cons] at ih
        dsimp only
        rw [List.flatMap_cons]
        have hline : ink (c :: line) = ink [c] ++ ink line := ink_append [c] line
        rw [hline, List.append_assoc, ih]
        exact (ink_append [c] cs).symm

end HtmlMarkdown.Text
