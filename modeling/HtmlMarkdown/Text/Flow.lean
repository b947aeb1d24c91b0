import HtmlMarkdown.Text.Blank

/-!
# Flowing text

Character data is laid out the way a browser flows it: runs of spaces and tabs become one space,
more than two newlines in a row become two, and the indent of a line goes, unless a digit or a
bullet follows it. Inside a paragraph a newline is no more than a space. The result is trimmed.
-/

namespace HtmlMarkdown.Text

/-- Cuts runs of newlines to two; `kept` of them stand directly before the text. -/
def capNewlines (kept : Nat) : List Char → List Char
  | [] => []
  | c :: cs =>
    if c = '\n' then
      if kept < 2 then c :: capNewlines (kept + 1) cs else capNewlines kept cs
    else c :: capNewlines 0 cs

/-- Makes each run of spaces and tabs one space; `inRun` when one stands directly before. -/
def squeeze (inRun : Bool) : List Char → List Char
  | [] => []
  | c :: cs =>
    if isSpaceOrTab c then
      if inRun then squeeze true cs else ' ' :: squeeze true cs
    else c :: squeeze false cs

def opensItem (c : Char) : Bool := c.isDigit || c == '*' || c == '-' || c == '+'

/-- Drops the indent of every line, unless the line goes on with a digit or a bullet; `inIndent`
while only newlines and blanks stand between the last newline and the text. -/
def dropIndents (inIndent : Bool) : List Char → List Char
  | [] => []
  | c :: cs =>
    if inIndent && isSpaceOrTab c then
      if (cs.dropWhile isSpaceOrTab).head?.any opensItem then c :: dropIndents true cs
      else dropIndents true cs
    else c :: dropIndents (c == '\n') cs

def unfoldNewline (c : Char) : Char := if c = '\n' then ' ' else c

def flowChars (inParagraph : Bool) (cs : List Char) : List Char :=
  let laid := dropIndents false (squeeze false (capNewlines 0 cs))
  trimChars (if inParagraph then squeeze false (laid.map unfoldNewline) else laid)

def flow (inParagraph : Bool) (s : String) : String :=
  String.ofList (flowChars inParagraph s.toList)

end HtmlMarkdown.Text
