import HtmlMarkdown.Text.Blank

/-!
# Lines

`splitNewlines` cuts a text at every line feed, so a text with `n` line feeds has `n + 1` pieces,
and joining the pieces gives the text back. `lines` leaves out the empty piece behind a final line
feed.
-/

namespace HtmlMarkdown.Text

def splitNewlines : List Char → List (List Char)
  | [] => [[]]
  | c :: cs =>
    if c = '\n' then [] :: splitNewlines cs
    else match splitNewlines cs with
      | [] => [[c]]
      | line :: rest => (c :: line) :: rest

theorem splitNewlines_ne_nil (cs : List Char) : splitNewlines cs ≠ [] := by
  cases cs with
  | nil => simp [splitNewlines]
  | cons c cs =>
    simp only [splitNewlines]
    split
    · simp
    · split <;> simp

def joinNewlines : List (List Char) → List Char
  | [] => []
  | [line] => line
  | line :: rest => line ++ '\n' :: joinNewlines rest

theorem joinNewlines_splitNewlines (cs : List Char) : joinNewlines (splitNewlines cs) = cs := by
  induction cs with
  | nil => rfl
  | cons c cs ih =>
    simp only [splitNewlines]
    cases hs : splitNewlines cs with
    | nil => exact absurd hs (splitNewlines_ne_nil cs)
    | cons line rest =>
      rw [hs] at ih
      split
      · next h => subst h; simp [joinNewlines, ih]
      · cases rest with
        | nil => simpa [joinNewlines] using ih
        | cons line' rest => simpa [joinNewlines] using ih

def lines (cs : List Char) : List (List Char) :=
  let pieces := splitNewlines cs
  if pieces.getLast? = some [] then pieces.dropLast else pieces

def unixNewlines : List Char → List Char
  | [] => []
  | '\r' :: '\n' :: cs => '\n' :: unixNewlines cs
  | c :: cs => (if c = '\r' then '\n' else c) :: unixNewlines cs

def trimLines (s : String) : String :=
  String.ofList (joinNewlines ((lines s.toList).map (dropTail isWhite)))

end HtmlMarkdown.Text
