import HtmlMarkdown.Html.Builder
import HtmlMarkdown.Text.Lines

/-!
# Reading HTML

A fragment is read inside an element of its own, whose tags are part of the result. Of a document
only the body is read: what comes before the body is left out, and so are comments behind it, while
space behind it belongs to its end.
-/

namespace HtmlMarkdown.Html

def readFragment (html : String) : Forest :=
  let text := "<" ++ fragmentTag ++ " id=\"" ++ fragmentId ++ "\">" ++ html ++
    "</" ++ fragmentTag ++ ">"
  ((scan (Text.unixNewlines text.toList)).foldl Builder.add {}).forest

def fragmentTokens (html : String) : List Token := (readFragment html).tokens

inductive Place where
  | beforeBody
  /-- Inside an element of the head. -/
  | inHead (element : String)
  | inBody
  | afterBody
  deriving DecidableEq, Repr

structure DocumentBuilder where
  place : Place := .beforeBody
  body : Builder := {}
  deriving DecidableEq, Repr

/-- Head elements without content. -/
def headMarks : List String := ["base", "basefont", "bgsound", "link", "meta"]

/-- Head elements whose content is left out with them. -/
def headElements : List String := ["title", "style", "script", "noscript", "noframes", "template"]

namespace DocumentBuilder

def addToBody (d : DocumentBuilder) (lexeme : Lexeme) : DocumentBuilder :=
  match lexeme with
  | .closing "body" | .closing "html" => { d with place := .afterBody }
  | _ => { place := .inBody, body := d.body.add lexeme }

def addBeforeBody (d : DocumentBuilder) (lexeme : Lexeme) : DocumentBuilder :=
  match lexeme with
  | .text s =>
    let text := s.toList.dropWhile Text.isHtmlSpace
    if text = [] then d else d.addToBody (.text (String.ofList text))
  | .comment _ => d
  | .opening name _ =>
    if name = "body" then { d with place := .inBody }
    else if name = "html" ∨ name = "head" ∨ headMarks.contains name then d
    else if headElements.contains name then { d with place := .inHead name }
    else d.addToBody lexeme
  | .closing name => if name = "body" ∨ name = "html" then d.addToBody lexeme else d

def addAfterBody (d : DocumentBuilder) (lexeme : Lexeme) : DocumentBuilder :=
  match lexeme with
  | .text s =>
    { place := if s.toList.all Text.isHtmlSpace then .afterBody else .inBody
      body := d.body.addText s }
  | .comment _ | .opening "html" _ => d
  | _ => d.addToBody lexeme

def add (d : DocumentBuilder) (lexeme : Lexeme) : DocumentBuilder :=
  match d.place with
  | .beforeBody => d.addBeforeBody lexeme
  | .inHead element => if lexeme = .closing element then { d with place := .beforeBody } else d
  | .inBody => d.addToBody lexeme
  | .afterBody => d.addAfterBody lexeme

end DocumentBuilder

def dropByteOrderMark (cs : List Char) : List Char :=
  if cs.head? = some '\uFEFF' then cs.tail else cs

def readDocument (html : String) : Forest :=
  let lexemes := scan (Text.unixNewlines (dropByteOrderMark html.toList))
  (lexemes.foldl DocumentBuilder.add {}).body.forest

def documentTokens (html : String) : List Token := (readDocument html).tokens

end HtmlMarkdown.Html
