import HtmlMarkdown.Html.Reference
import HtmlMarkdown.Html.Token
import HtmlMarkdown.Text.Blank

/-!
# Lexemes of HTML

HTML text is read character by character, in a mode that says what the characters are part of. A
`<` opens a tag only before a letter, an end tag only before a slash and a letter, a comment or a
document type by its own mark; any other `<` is text. The content of `<script>` and `<style>` is
text up to the end tag. `scan` gives the lexemes in order; a tag that the text breaks off in is
none.
-/

namespace HtmlMarkdown.Html

inductive Lexeme where
  | text (content : String)
  | comment (content : String)
  | opening (name : String) (attributes : Attributes)
  | closing (name : String)
  deriving DecidableEq, Repr

structure PartialTag where
  name : String
  attributes : Attributes := ∅
  deriving DecidableEq, Repr

/-- What the characters at hand are part of. The characters `seen` are kept with the latest
first. -/
inductive Mode where
  | text (seen : List Char)
  | rawText (element : String) (seen : List Char)
  | comment (seen : List Char)
  | doctype
  | tagName (seen : List Char)
  | betweenAttributes (tag : PartialTag)
  | attributeName (tag : PartialTag) (seen : List Char)
  | afterName (tag : PartialTag) (name : String)
  | beforeValue (tag : PartialTag) (name : String)
  | quotedValue (tag : PartialTag) (name : String) (quote : Char) (seen : List Char)
  | plainValue (tag : PartialTag) (name : String) (seen : List Char)
  | endName (seen : List Char)
  | endRest (name : String)
  deriving DecidableEq, Repr

/-- The mode behind a character, the lexemes it completes, and how many of the next characters
belong to it. -/
structure Reading where
  mode : Mode
  lexemes : List Lexeme := []
  skip : Nat := 0
  deriving DecidableEq, Repr

def rawTextNames : List String := ["script", "style"]

/-- The first of two attributes with one name counts. -/
def PartialTag.withAttribute (tag : PartialTag) (name : String) (value : List Char) : PartialTag :=
  { tag with
    attributes := tag.attributes.insertNew (.plain name) (String.ofList (decodeReferences value)) }

def PartialTag.finish (tag : PartialTag) : Reading :=
  { mode := if rawTextNames.contains tag.name then .rawText tag.name [] else .text []
    lexemes := [.opening tag.name tag.attributes] }

def textLexemes (seen : List Char) : List Lexeme :=
  if seen = [] then [] else [.text (String.ofList (decodeReferences seen.reverse))]

def rawTextLexemes (seen : List Char) : List Lexeme :=
  if seen = [] then [] else [.text (String.ofList seen.reverse)]

def lowercase (cs : List Char) : List Char := cs.map Char.toLower

def endsName (c : Char) : Bool := Text.isHtmlSpace c || c == '/' || c == '>'

/-- The name with which the text goes on is this one, and ends there. -/
def goesOnWith (name : String) (cs : List Char) : Bool :=
  lowercase (cs.take name.length) == name.toList && (cs.drop name.length).head?.any endsName

def readText (seen : List Char) (c : Char) (rest : List Char) : Reading :=
  if c ≠ '<' then { mode := .text (c :: seen) }
  else if "!--".toList.isPrefixOf rest then
    { mode := .comment [], lexemes := textLexemes seen, skip := 3 }
  else if "!doctype".toList.isPrefixOf (lowercase (rest.take 8)) then
    { mode := .doctype, lexemes := textLexemes seen }
  else if rest.head?.any Char.isAlpha then { mode := .tagName [], lexemes := textLexemes seen }
  else if rest.head? = some '/' ∧ rest.tail.head?.any Char.isAlpha then
    { mode := .endName [], lexemes := textLexemes seen, skip := 1 }
  else { mode := .text (c :: seen) }

def readRawText (element : String) (seen : List Char) (c : Char) (rest : List Char) : Reading :=
  if c = '<' ∧ rest.head? = some '/' ∧ goesOnWith element rest.tail then
    { mode := .endName [], lexemes := rawTextLexemes seen, skip := 1 }
  else { mode := .rawText element (c :: seen) }

def readComment (seen : List Char) (c : Char) (rest : List Char) : Reading :=
  if c = '-' ∧ "->".toList.isPrefixOf rest then
    { mode := .text [], lexemes := [.comment (String.ofList seen.reverse)], skip := 2 }
  else { mode := .comment (c :: seen) }

def readTagName (seen : List Char) (c : Char) : Reading :=
  let tag : PartialTag := { name := String.ofList seen.reverse }
  if c = '>' then tag.finish
  else if endsName c then { mode := .betweenAttributes tag }
  else { mode := .tagName (c.toLower :: seen) }

def readBetween (tag : PartialTag) (c : Char) : Reading :=
  if c = '>' then tag.finish
  else if endsName c then { mode := .betweenAttributes tag }
  else { mode := .attributeName tag [c.toLower] }

def readAttributeName (tag : PartialTag) (seen : List Char) (c : Char) : Reading :=
  let name := String.ofList seen.reverse
  if c = '=' then { mode := .beforeValue tag name }
  else if c = '>' then (tag.withAttribute name []).finish
  else if c = '/' then { mode := .betweenAttributes (tag.withAttribute name []) }
  else if Text.isHtmlSpace c then { mode := .afterName tag name }
  else { mode := .attributeName tag (c.toLower :: seen) }

def readAfterName (tag : PartialTag) (name : String) (c : Char) : Reading :=
  if c = '=' then { mode := .beforeValue tag name }
  else if Text.isHtmlSpace c then { mode := .afterName tag name }
  else readBetween (tag.withAttribute name []) c

def readBeforeValue (tag : PartialTag) (name : String) (c : Char) : Reading :=
  if Text.isHtmlSpace c then { mode := .beforeValue tag name }
  else if c = '"' ∨ c = '\'' then { mode := .quotedValue tag name c [] }
  else if c = '>' then (tag.withAttribute name []).finish
  else { mode := .plainValue tag name [c] }

def readQuotedValue (tag : PartialTag) (name : String) (quote : Char) (seen : List Char)
    (c : Char) : Reading :=
  if c = quote then { mode := .betweenAttributes (tag.withAttribute name seen.reverse) }
  else { mode := .quotedValue tag name quote (c :: seen) }

def readPlainValue (tag : PartialTag) (name : String) (seen : List Char) (c : Char) : Reading :=
  if c = '>' then (tag.withAttribute name seen.reverse).finish
  else if Text.isHtmlSpace c then
    { mode := .betweenAttributes (tag.withAttribute name seen.reverse) }
  else { mode := .plainValue tag name (c :: seen) }

def readEndName (seen : List Char) (c : Char) : Reading :=
  let name := String.ofList seen.reverse
  if c = '>' then { mode := .text [], lexemes := [.closing name] }
  else if endsName c then { mode := .endRest name }
  else { mode := .endName (c.toLower :: seen) }

def Mode.read (c : Char) (rest : List Char) : Mode → Reading
  | text seen => readText seen c rest
  | rawText element seen => readRawText element seen c rest
  | comment seen => readComment seen c rest
  | doctype => { mode := if c = '>' then .text [] else .doctype }
  | tagName seen => readTagName seen c
  | betweenAttributes tag => readBetween tag c
  | attributeName tag seen => readAttributeName tag seen c
  | afterName tag name => readAfterName tag name c
  | beforeValue tag name => readBeforeValue tag name c
  | quotedValue tag name quote seen => readQuotedValue tag name quote seen c
  | plainValue tag name seen => readPlainValue tag name seen c
  | endName seen => readEndName seen c
  | endRest name =>
    if c = '>' then { mode := .text [], lexemes := [.closing name] } else { mode := .endRest name }

def Mode.atEnd : Mode → List Lexeme
  | text seen => textLexemes seen
  | rawText _ seen => rawTextLexemes seen
  | comment seen => [.comment (String.ofList seen.reverse)]
  | _ => []

/-- The lexemes of a text whose first `skip` characters are read already. -/
def scanFrom (skip : Nat) (mode : Mode) : List Char → List Lexeme
  | [] => mode.atEnd
  | c :: cs =>
    match skip with
    | n + 1 => scanFrom n mode cs
    | 0 =>
      let reading := mode.read c cs
      reading.lexemes ++ scanFrom reading.skip reading.mode cs

def scan (cs : List Char) : List Lexeme := scanFrom 0 (.text []) cs

end HtmlMarkdown.Html
