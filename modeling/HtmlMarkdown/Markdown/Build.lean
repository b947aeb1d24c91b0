import HtmlMarkdown.Markdown.Token
import HtmlMarkdown.Text.Escape

/-!
# Building Markdown tokens

One builder for each form of Markdown that a conversion writes.
-/

namespace HtmlMarkdown.Markdown

inductive Bullet where
  | mark (c : Char)
  | ordinal (n : Nat)
  deriving DecidableEq, Repr

def Bullet.text : Bullet → String
  | mark c => c.toString
  | ordinal n => toString n ++ "."

def repeated (n : Nat) (s : String) : String :=
  String.ofList (List.replicate n s.toList).flatten

/-- A title behind an address, in double quotes; an empty title is none. -/
def titleSuffix (title : Option String) : String :=
  match title with
  | none => ""
  | some title => if title = "" then "" else " \"" ++ Text.escapeTitle title ++ "\""

namespace Token

def emphasis (mark : Char) : Token := .markdown .emphasis mark.toString

def strong (mark : Char) : Token := .markdown .strong (repeated 2 mark.toString)

def boldItalic (mark : Char) : Token := .markdown .boldItalic (repeated 3 mark.toString)

def startBlock : Token := .markdown .startBlock ""

def endBlock : Token := .markdown .endBlock ""

def startBlockquote : Token := .markdown .startBlockquote ""

def endBlockquote : Token := .markdown .endBlockquote ""

def startCode : Token := .markdown .startCode ""

def endCode : Token := .markdown .endCode ""

def headingStart (level : Nat) : Token :=
  .markdown .headingStart ("\n" ++ repeated level "#" ++ " ")

def horizontalRule (rule : String) : Token := .markdown .horizontalRule rule

/-- An item is indented by two spaces for each list around its own. -/
def listItemStart (depth : Nat) (bullet : Bullet) : Token :=
  .markdown .listItemStart ("\n" ++ repeated (depth - 1) "  " ++ bullet.text ++ " ")

def newline : Token := .markdown .newline "\n"

def newlineHard : Token := .markdown .newlineHard "  \n"

def newlineBlank : Token := .markdown .newlineBlank "\n\n"

def newlines (count : Nat) : Token := if 2 ≤ count then newlineBlank else newline

def space : Token := .markdown .space " "

def charactersSplit (text : String) : Token := .markdown .charactersSplit text

def charactersAdded (text : String) : Token := .markdown .charactersAdded text

def anchorInline (href text : String) (title : Option String) : Token :=
  .markdown .anchorInline ("[" ++ text ++ "](" ++ href ++ titleSuffix title ++ ")")

def anchorReferenceLink (text : String) (reference : Nat) : Token :=
  .markdown .anchorInline ("[" ++ text ++ "][" ++ toString reference ++ "]")

def anchorReference (reference : Nat) (href : String) (title : Option String) : Token :=
  .markdown .anchorReference ("[" ++ toString reference ++ "]: " ++ href ++ titleSuffix title)

def anchorSimple (href : String) : Token := .markdown .anchorSimple ("<" ++ href ++ ">")

def imageText (alt : Option String) : String := (alt.filter (· != "")).getD "Image"

def image (src : String) (alt title : Option String) (reference : Option Nat) : Token :=
  .markdown .image (match reference with
    | some n => "![" ++ imageText alt ++ "][" ++ toString n ++ "]"
    | none => "![" ++ imageText alt ++ "](" ++ src ++ titleSuffix title ++ ")")

end Token

end HtmlMarkdown.Markdown
