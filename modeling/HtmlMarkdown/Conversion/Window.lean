import HtmlMarkdown.Html.Element
import HtmlMarkdown.Html.Token

/-!
# The window on the input

A conversion meets one token at a time and sees the token before it and the tokens after it. What
it asks about the tokens after it concerns the next two; only an emphasis that opens directly
inside the other kind of emphasis is followed up to its end.
-/

namespace HtmlMarkdown.Conversion

structure Window where
  before : Option Html.Token
  /-- The position of the token, counted from zero. -/
  index : Nat
  token : Html.Token
  after : List Html.Token
  deriving DecidableEq, Repr

def opensList (t : Html.Token) : Bool :=
  t.kind == .startTag && (t.name == some "ul" || t.name == some "ol")

def opensCode (t : Html.Token) : Bool := t.isNamed .startTag "code"

def nextAcrossSpace (p : Html.Token → Bool) : List Html.Token → Bool
  | [] => false
  | t :: ts => p t || (t.kind == .spaceCharacters && ts.head?.any p)

/-- The place of the end tag that closes the element of this name, where `depth` of them are open;
places are counted from the head of the list. -/
def matchingEnd (name : String) (depth : Nat) : List Html.Token → Option Nat
  | [] => none
  | t :: ts =>
    if t.isNamed .startTag name then (matchingEnd name (depth + 1) ts).map (· + 1)
    else if t.isNamed .endTag name then
      if depth ≤ 1 then some 0 else (matchingEnd name (depth - 1) ts).map (· + 1)
    else (matchingEnd name depth ts).map (· + 1)

namespace Window

def isEmptyPair (w : Window) (name : String) : Bool :=
  match w.token.kind with
  | .startTag => w.after.head?.any (·.isNamed .endTag name)
  | .endTag => w.before.any (·.isNamed .startTag name)
  | _ => false

def listFollows (w : Window) : Bool := nextAcrossSpace opensList w.after

def codeFollows (w : Window) : Bool := nextAcrossSpace opensCode w.after

def flatText? (w : Window) : Option String :=
  match w.after with
  | text :: next :: _ =>
    if text.kind = .characters ∧ next.isNamed .endTag "a" then some text.content else none
  | _ => none

/-- For an emphasis tag that wraps the other kind of emphasis and nothing else: the place of the
inner end tag among the tokens after it. -/
def fusedEnd? (w : Window) (strong : Bool) : Option Nat :=
  match w.after with
  | [] => none
  | inner :: _ =>
    if inner.kind = .startTag ∧ Html.roleOf inner.tagName = .emphasis (!strong) then
      (matchingEnd inner.tagName 0 w.after).filter fun place =>
        2 ≤ place && w.after[place + 1]?.any (·.isNamed .endTag w.token.tagName)
    else none

end Window

end HtmlMarkdown.Conversion
