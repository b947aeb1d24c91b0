/-!
# Escaped text

Character data and attribute values as HTML writes them, and the quotes of a link title. Quoted
character data keeps the quote markers that open its lines: `escapeQuoted depth` leaves up to
`depth` of them on every line after the first, and escapes all else.
-/

namespace HtmlMarkdown.Text

def escapeChar (c : Char) : List Char :=
  if c = '&' then "&amp;".toList
  else if c = '<' then "&lt;".toList
  else if c = '>' then "&gt;".toList
  else [c]

def escapeText (s : String) : String := String.ofList (s.toList.flatMap escapeChar)

def escapeAttributeChar (c : Char) : List Char :=
  if c = '&' then "&amp;".toList
  else if c = '<' then "&lt;".toList
  else if c = '\'' then "&#39;".toList
  else [c]

def escapeAttribute (cs : List Char) : List Char := cs.flatMap escapeAttributeChar

def escapeTitleChar (c : Char) : List Char := if c = '"' then ['\\', '"'] else [c]

def escapeTitle (s : String) : String := String.ofList (s.toList.flatMap escapeTitleChar)

/-- Escapes quoted character data; `markers` more quote markers may open the line at hand. -/
def escapeQuoted (depth : Nat) (markers : Nat) : List Char → List Char
  | [] => []
  | '>' :: ' ' :: cs =>
    match markers with
    | 0 => escapeChar '>' ++ ' ' :: escapeQuoted depth 0 cs
    | n + 1 => '>' :: ' ' :: escapeQuoted depth n cs
  | c :: cs => escapeChar c ++ escapeQuoted depth (if c = '\n' then depth else 0) cs

theorem escapeQuoted_zero {markers : Nat} (h : markers = 0) (cs : List Char) :
    escapeQuoted 0 markers cs = cs.flatMap escapeChar := by
  fun_induction escapeQuoted 0 markers cs with
  | case1 => rfl
  | case2 cs ih => simp [ih rfl, escapeChar]
  | case3 => omega
  | case4 markers c cs hc ih => subst h; simpa using ih (ite_self 0)

end HtmlMarkdown.Text
