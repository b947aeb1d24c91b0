import HtmlMarkdown.OrderedMap

/-!
# HTML tokens

The flat form of an HTML document: tags, runs of text, runs of space, comments. Every token may
carry a name, attributes and text, whatever its kind; the builders give each kind what it needs.
-/

namespace HtmlMarkdown.Html

inductive Kind where
  | doctype
  | characters
  | spaceCharacters
  | startTag
  | endTag
  /-- A void element such as `<img>` or `<br>`. -/
  | emptyTag
  | comment
  | parseError
  deriving DecidableEq, Repr

structure AttributeName where
  space : Option String := none
  localName : String
  deriving DecidableEq, Repr

namespace AttributeName

def plain (localName : String) : AttributeName := { localName }

/-- Names without a namespace come first; then the namespaces and the local names count. -/
def le (a b : AttributeName) : Bool :=
  match a.space, b.space with
  | none, some _ => true
  | some _, none => false
  | none, none => decide (a.localName ≤ b.localName)
  | some s, some s' => if s = s' then decide (a.localName ≤ b.localName) else decide (s ≤ s')

end AttributeName

abbrev Attributes := OrderedMap AttributeName String

structure Token where
  kind : Kind
  name : Option String := none
  attributes : Attributes := ∅
  text : Option String := none
  deriving DecidableEq, Repr

namespace Token

def startTag (name : String) (attributes : Attributes) : Token :=
  { kind := .startTag, name := some name, attributes }

def endTag (name : String) : Token := { kind := .endTag, name := some name }

def emptyTag (name : String) (attributes : Attributes) : Token :=
  { kind := .emptyTag, name := some name, attributes }

def characters (text : String) : Token := { kind := .characters, text := some text }

def spaceCharacters (text : String) : Token := { kind := .spaceCharacters, text := some text }

def comment (text : String) : Token := { kind := .comment, text := some text }

def withAttribute (t : Token) (name value : String) : Token :=
  { t with attributes := t.attributes.insert (.plain name) value }

def tagName (t : Token) : String := t.name.getD ""

def content (t : Token) : String := t.text.getD ""

/-- An attribute by its local name, whatever its namespace. -/
def attribute? (t : Token) (localName : String) : Option String :=
  t.attributes.findKey? (·.localName == localName)

def filledAttribute? (t : Token) (localName : String) : Option String :=
  (t.attribute? localName).filter (· != "")

def isTag (t : Token) : Bool := t.kind == .startTag || t.kind == .endTag || t.kind == .emptyTag

theorem isTag_iff {t : Token} :
    t.isTag = true ↔ t.kind = .startTag ∨ t.kind = .endTag ∨ t.kind = .emptyTag := by
  simp [isTag, or_assoc]

def isNamed (t : Token) (kind : Kind) (name : String) : Bool :=
  t.kind == kind && t.name == some name

def keepAttributes (t : Token) (allowed : List String) : Token :=
  { t with attributes := t.attributes.filterKeys fun key => allowed.contains key.localName }

end Token

end HtmlMarkdown.Html
