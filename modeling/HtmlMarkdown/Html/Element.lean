/-!
# Element names

What the name of an element says about it: whether it is void, whether Markdown has a form for it,
whether its content is kept as it stands, and which part it plays in a conversion.
-/

namespace HtmlMarkdown.Html

def voidElements : List String :=
  ["area", "base", "br", "col", "command", "embed", "hr", "img", "input", "keygen", "link", "meta",
    "param", "source", "track", "wbr"]

def markdownElements : List String :=
  ["div", "p", "b", "i", "em", "strong", "ul", "ol", "li", "blockquote", "h1", "h2", "h3", "h4",
    "h5", "h6", "code", "hr", "a", "img", "pre"]

/-- Elements whose content is kept as it stands. -/
def sensitiveElements : List String := ["code", "pre", "script"]

/-- The element names that a tag such as `<https://example.com>` is read as. -/
def linkSchemes : List String := ["http:", "https:"]

def mailScheme : String := "mailto:"

/-- The element that a fragment is wrapped in while it is read. -/
def fragmentTag : String := "tokendown-fragment"

def fragmentId : String := "__tokendown_fragment__"

def isVoid (name : String) : Bool := voidElements.contains name

def hasMarkdown (name : String) : Bool := markdownElements.contains name

def isSensitive (name : String) : Bool := sensitiveElements.contains name

def isLinkScheme (name : String) : Bool := linkSchemes.contains name

def isMailAddress (name : String) : Bool := mailScheme.toList.isPrefixOf name.toList

def isBareLink (name : String) : Bool := isLinkScheme name || isMailAddress name

def mailAddress (name : String) : String := String.ofList (name.toList.drop mailScheme.length)

def decimal? (digits : List Char) : Option Nat :=
  if !digits.isEmpty && digits.all Char.isDigit then
    some (digits.foldl (fun n d => 10 * n + (d.toNat - '0'.toNat)) 0)
  else none

def unsigned (cs : List Char) : List Char := if cs.head? = some '+' then cs.tail else cs

/-- The level of a heading: an `h` and a number from one to six, which may be written with a plus
sign and leading zeros. -/
def headingLevel? (name : String) : Option Nat :=
  match name.toList with
  | 'h' :: number => (decimal? (unsigned number)).filter fun level => 1 ≤ level && level ≤ 6
  | _ => none

inductive ListKind where
  | unordered
  | ordered
  deriving DecidableEq, Repr

inductive Role where
  | heading (level : Nat)
  | paragraph
  | division
  | list (kind : ListKind)
  | item
  | emphasis (strong : Bool)
  | anchor
  | quote
  | code
  | pre
  | script
  | bareLink
  | other
  deriving DecidableEq, Repr

def roleOf (name : String) : Role :=
  match headingLevel? name with
  | some level => .heading level
  | none =>
    if name = "p" then .paragraph
    else if name = "div" then .division
    else if name = "ul" then .list .unordered
    else if name = "ol" then .list .ordered
    else if name = "li" then .item
    else if name = "i" ∨ name = "em" then .emphasis false
    else if name = "b" ∨ name = "strong" then .emphasis true
    else if name = "a" then .anchor
    else if name = "blockquote" then .quote
    else if name = "code" then .code
    else if name = "pre" then .pre
    else if name = "script" then .script
    else if isBareLink name then .bareLink
    else .other

end HtmlMarkdown.Html
