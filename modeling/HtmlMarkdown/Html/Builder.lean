import HtmlMarkdown.Html.Forest
import HtmlMarkdown.Html.Lexeme

/-!
# Building forests

A builder stands inside the elements that are open: it holds the content of the innermost one, and
for each of them what comes before it in its parent. Content is kept with the latest tree first.
An end tag closes the nearest open element of its name with everything opened inside it, and
nothing if there is none. Text runs together with text before it.
-/

namespace HtmlMarkdown.Html

/-- An open element and what comes before it in its parent. -/
structure OpenElement where
  name : String
  attributes : Attributes
  earlier : Forest
  deriving DecidableEq, Repr

structure Builder where
  /-- The content of the innermost open element. -/
  content : Forest := .nil
  /-- The open elements, the innermost first. -/
  opened : List OpenElement := []
  /-- The last lexeme was the start tag of a `<pre>`. -/
  atPreStart : Bool := false
  deriving DecidableEq, Repr

/-- Elements that have no content and no end tag in HTML text. -/
def unclosedNames : List String := voidElements.filter (· != "command")

/-- The tags of the outermost elements, which stand for no element inside a body. -/
def outerNames : List String := ["html", "head", "body"]

namespace Builder

def addText (b : Builder) (s : String) : Builder :=
  let s := if b.atPreStart ∧ s.toList.head? = some '\n' then String.ofList s.toList.tail else s
  let content :=
    if s = "" then b.content
    else match b.content with
      | .text earlier rest => .text (earlier ++ s) rest
      | content => .text s content
  { b with content, atPreStart := false }

def addComment (b : Builder) (s : String) : Builder :=
  { b with content := .comment s b.content, atPreStart := false }

def enter (b : Builder) (name : String) (attributes : Attributes) : Builder :=
  { content := .nil
    opened := { name, attributes, earlier := b.content } :: b.opened
    atPreStart := name = "pre" }

/-- A row directly inside a table gets a table body around it. -/
def addRowGroup (b : Builder) (name : String) : Builder :=
  if name = "tr" ∧ b.opened.head?.any (·.name == "table") then b.enter "tbody" ∅ else b

def openElement (b : Builder) (name : String) (attributes : Attributes) : Builder :=
  if outerNames.contains name then { b with atPreStart := false }
  else
    let b := b.addRowGroup name
    if unclosedNames.contains name then
      { b with content := .element name attributes .nil b.content, atPreStart := false }
    else b.enter name attributes

def OpenElement.close (e : OpenElement) (content : Forest) : Forest :=
  .element e.name e.attributes content.reverse e.earlier

def closeThrough (name : String) (content : Forest) :
    List OpenElement → Forest × List OpenElement
  | [] => (content, [])
  | e :: outer =>
    let closed := OpenElement.close e content
    if e.name = name then (closed, outer) else closeThrough name closed outer

def closeElement (b : Builder) (name : String) : Builder :=
  if b.opened.any (·.name == name) then
    let (content, opened) := closeThrough name b.content b.opened
    { content, opened }
  else { b with atPreStart := false }

def closeAll (content : Forest) : List OpenElement → Forest
  | [] => content
  | e :: outer => closeAll (OpenElement.close e content) outer

def add (b : Builder) : Lexeme → Builder
  | .text s => b.addText s
  | .comment s => b.addComment s
  | .opening name attributes => b.openElement name attributes
  | .closing name => b.closeElement name

def forest (b : Builder) : Forest := (closeAll b.content b.opened).reverse

end Builder

end HtmlMarkdown.Html
