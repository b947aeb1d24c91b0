import HtmlMarkdown.Markdown.Spacing

/-!
# Layout

A converted stream is laid out in four passes: spacing, a line of its own for every rule, the
heads of quoted lines and code lines, and trimming at both ends.
-/

namespace HtmlMarkdown.Markdown

/-- A rule stands between two newlines with its own depth and code flag. -/
def ruleLines (t : Token) : List Token :=
  if t.hasTag .horizontalRule then
    let newline := { Token.newline.within t.quoteDepth with inCode := t.inCode }
    [newline, t, newline]
  else [t]

def layRules (ts : List Token) : List Token := ts.flatMap ruleLines

def lineHead (depth : Nat) (inCode : Bool) : List Char :=
  (List.replicate depth ['>', ' ']).flatten ++ if inCode then [' ', ' ', ' ', ' '] else []

def indentLines (head : List Char) (s : String) : String :=
  String.ofList (s.toList.flatMap fun c => if c = '\n' then '\n' :: head else [c])

/-- Puts the head of its lines behind every newline of a token's text. -/
def indentToken (t : Token) : Token := t.mapText (indentLines (lineHead t.markers t.inCode))

def indentAll (ts : List Token) : List Token := ts.map indentToken

def isNewlineChar (c : Char) : Bool := c == '\n'

def isNewlinesOnly (t : Token) : Bool :=
  t.text?.any fun text => text != "" && text.toList.all isNewlineChar

def isLeadingSpace (t : Token) : Bool := t.isPureSpace || isNewlinesOnly t

def trimNewlinesStart (s : String) : String := String.ofList (s.toList.dropWhile isNewlineChar)

def trimNewlinesEnd (s : String) : String :=
  String.ofList (Text.dropTail isNewlineChar s.toList)

/-- Drops leading space, and the newlines that the first text begins with. -/
def trimStart (ts : List Token) : List Token :=
  match ts.dropWhile isLeadingSpace with
  | [] => []
  | first :: rest => first.mapText trimNewlinesStart :: rest

/-- Drops trailing spaces, and the newlines that a last text ends with. -/
def trimEnd (ts : List Token) : List Token :=
  match ts.reverse.dropWhile (·.isPureSpace) with
  | [] => []
  | last :: earlier =>
    ((if last.isSpacing then last else last.mapText trimNewlinesEnd) :: earlier).reverse

def trim (ts : List Token) : List Token := trimEnd (trimStart ts)

def layout (ts : List Token) : List Token := trim (indentAll (layRules (space ts)))

end HtmlMarkdown.Markdown
