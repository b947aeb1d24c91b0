import HtmlMarkdown.Markdown.Token

/-!
# Code regions

A code region is a block where nothing but newlines stands between it and what makes it one: behind
it the start of the output or of a native `<pre>`, ahead of it the end of the stream, of a block or
of a native `<pre>`. Any other region is inline, and so is one without an end.
-/

namespace HtmlMarkdown.Markdown

inductive CodeKind where
  | block
  | inline
  deriving DecidableEq, Repr

structure CodeRegion where
  kind : CodeKind
  /-- The position in the output of the native `<pre>` start behind the region. -/
  nativeOpen : Option Nat := none
  /-- The position of the native `<pre>` end ahead of the region. -/
  nativeClose : Option Nat := none
  deriving DecidableEq, Repr

/-- The place of the code end that matches, where `depth` regions are open. -/
def matchingCodeEnd (depth : Nat) : List Token → Option Nat
  | [] => none
  | t :: ts =>
    match t.tag? with
    | some .startCode => (matchingCodeEnd (depth + 1) ts).map (· + 1)
    | some .endCode => if depth ≤ 1 then some 0 else (matchingCodeEnd (depth - 1) ts).map (· + 1)
    | _ => (matchingCodeEnd depth ts).map (· + 1)

namespace Token

def isNewline (t : Token) : Bool := t.tagIs Tag.isNewline

def isNativePre (t : Token) (edge : Tag) : Bool := t.hasTag edge && t.nativeName? == some "pre"

end Token

def pastNewlines : List Token → Option (Token × List Token)
  | [] => none
  | t :: ts => if t.isNewline then pastNewlines ts else some (t, ts)

namespace CodeRegion

def inline : CodeRegion := { kind := .inline }

/-- What the output so far, its latest token first, says about a region that opens behind it: none
where the region cannot be a block, else the position of the native `<pre>` start. -/
def behind (emitted : List Token) : Option (Option Nat) :=
  match pastNewlines emitted with
  | none => some none
  | some (t, earlier) =>
    if t.isNativePre .startNativeBlock then some (some earlier.length) else none

/-- What the tokens ahead of a region say about it: none where it cannot be a block, else how many
tokens stand before the end of the native `<pre>`. -/
def ahead (rest : List Token) : Option (Option Nat) :=
  match pastNewlines rest with
  | none => some none
  | some (t, later) =>
    if t.isNativePre .endNativeBlock then some (some (rest.length - later.length - 1))
    else if t.tagIs Tag.isBlockEnd then some none
    else none

/-- The region that opens at the head of the tokens, behind the output so far, its latest token
first. Positions ahead are counted from the head of the tokens. -/
def classify (emitted tokens : List Token) : CodeRegion :=
  match matchingCodeEnd 0 tokens with
  | none => inline
  | some place =>
    match behind emitted, ahead (tokens.drop (place + 1)) with
    | some nativeOpen, some close =>
      { kind := .block, nativeOpen, nativeClose := close.map (place + 1 + ·) }
    | _, _ => inline

def classifyAt (output tokens : List Token) (start : Nat) : CodeRegion :=
  let region := classify output.reverse (tokens.drop start)
  { region with nativeClose := region.nativeClose.map (start + ·) }

end CodeRegion

end HtmlMarkdown.Markdown
