/-!
# Blank characters

Three classes of blanks: the Unicode property `White_Space`, by which text is trimmed, the five
space characters of HTML, and the spaces and tabs that may stand inside a line. Each class is
contained in the one before it.
-/

namespace HtmlMarkdown.Text

def isWhite (c : Char) : Bool :=
  let n := c.toNat
  (0x09 ≤ n && n ≤ 0x0D) || n == 0x20 || n == 0x85 || n == 0xA0 || n == 0x1680 ||
    (0x2000 ≤ n && n ≤ 0x200A) || n == 0x2028 || n == 0x2029 || n == 0x202F || n == 0x205F ||
    n == 0x3000

def isHtmlSpace (c : Char) : Bool :=
  c == '\t' || c == '\n' || c == '\x0c' || c == '\r' || c == ' '

def isSpaceOrTab (c : Char) : Bool := c == ' ' || c == '\t'

theorem isHtmlSpace_of_isSpaceOrTab {c : Char} (h : isSpaceOrTab c = true) :
    isHtmlSpace c = true := by
  simp only [isSpaceOrTab, Bool.or_eq_true, beq_iff_eq] at h
  rcases h with rfl | rfl <;> decide

theorem isWhite_of_isHtmlSpace {c : Char} (h : isHtmlSpace c = true) : isWhite c = true := by
  simp only [isHtmlSpace, Bool.or_eq_true, beq_iff_eq] at h
  rcases h with (((rfl | rfl) | rfl) | rfl) | rfl <;> decide

def dropTail (p : Char → Bool) (cs : List Char) : List Char := (cs.reverse.dropWhile p).reverse

def takeTail (p : Char → Bool) (cs : List Char) : List Char := (cs.reverse.takeWhile p).reverse

theorem dropTail_append_takeTail (p : Char → Bool) (cs : List Char) :
    dropTail p cs ++ takeTail p cs = cs := by
  rw [dropTail, takeTail, ← List.reverse_append, List.takeWhile_append_dropWhile,
    List.reverse_reverse]

theorem getLast?_dropTail (p : Char → Bool) (cs : List Char) :
    ∀ c ∈ (dropTail p cs).getLast?, p c = false := by
  intro c hc
  rw [dropTail, List.getLast?_reverse] at hc
  have hnot := List.head?_dropWhile_not p cs.reverse
  rw [hc] at hnot
  exact hnot

theorem head?_dropTail {p : Char → Bool} {cs : List Char} (h : ∀ c ∈ cs.head?, p c = false) :
    ∀ c ∈ (dropTail p cs).head?, p c = false := by
  intro c hc
  refine h c ?_
  rw [← dropTail_append_takeTail p cs, List.head?_append, hc]
  rfl

def middle (cs : List Char) : List Char := dropTail isHtmlSpace (cs.dropWhile isHtmlSpace)

def trimChars (cs : List Char) : List Char := dropTail isWhite (cs.dropWhile isWhite)

def isSpaceTabOnly (s : String) : Bool := !s.toList.isEmpty && s.toList.all isSpaceOrTab

def isBlank (s : String) : Bool := s.toList.all isWhite

end HtmlMarkdown.Text
