import HtmlMarkdown.Html.Token
import HtmlMarkdown.Text.Quoted

/-!
# Notices

What a conversion has to say beside its result: options it corrected, tags it left out, elements
that were still open at the end. Each notice has a level and a message.
-/

namespace HtmlMarkdown

inductive Level where
  | warning
  | debug
  deriving DecidableEq, Repr

inductive Notice where
  /-- An option names a character that may not stand there; `used` takes its place. -/
  | invalidMark (option : String) (found used : Char)
  | blankRule (used : String)
  | emptyElement (name : String)
  | droppedElement (name : String)
  | droppedBareLink (name : String)
  | imageWithoutSource
  | droppedToken (kind : Html.Kind)
  | unbalanced (names : List String)
  deriving DecidableEq, Repr

def kindName : Html.Kind → String
  | .doctype => "Doctype"
  | .characters => "Characters"
  | .spaceCharacters => "SpaceCharacters"
  | .startTag => "StartTag"
  | .endTag => "EndTag"
  | .emptyTag => "EmptyTag"
  | .comment => "Comment"
  | .parseError => "ParseError"

namespace Notice

def level : Notice → Level
  | invalidMark .. | blankRule .. | unbalanced .. => .warning
  | emptyElement _ | droppedElement _ | droppedBareLink _ | imageWithoutSource => .debug
  | droppedToken _ => .debug

def message : Notice → String
  | invalidMark option found used =>
    "invalid " ++ option ++ " " ++ Text.quotedChar found ++ ", using " ++ Text.quotedChar used
  | blankRule used => "empty horizontal_rule, using \"" ++ used ++ "\""
  | emptyElement name => "dropping empty <" ++ name ++ ">"
  | droppedElement name => "dropping <" ++ name ++ ">"
  | droppedBareLink name => "dropping bare link <" ++ name ++ ">"
  | imageWithoutSource => "dropping <img> without src"
  | droppedToken kind => "dropping " ++ kindName kind ++ " token"
  | unbalanced names => "unbalanced at end of stream: " ++ ", ".intercalate names

end Notice

end HtmlMarkdown
