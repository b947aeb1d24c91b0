import HtmlMarkdown.Markdown.Build
import HtmlMarkdown.Markdown.CodeRegion

/-!
# Spacing

One pass over the stream turns block marks into newlines, so that one blank line stands between two
blocks, resolves code regions into inline code or code blocks, and merges white space. The output
is kept with its latest token first.

`settle` is the step at the edges of a block: it takes back white space from the end of the output
and puts the newlines that are wanted there. It stops at a newline of another quote depth, which
stays as one line, so that the change of depth can be seen.
-/

namespace HtmlMarkdown.Markdown

def endsInRule : List Token → Bool
  | [] => false
  | last :: _ => last.hasTag .horizontalRule

/-- What stays of a blank line of another depth, in front of the output before it: one newline, or
the blank line itself directly behind a rule. -/
def foreignBlank (blank : Token) (earlier : List Token) : Token :=
  let kept := if endsInRule earlier then Token.newlineBlank else Token.newline
  { kept.within blank.quoteDepth with inCode := blank.inCode }

/-- Takes white space back from the end of the output. The second result is how many newlines are
still wanted, where `wanted` were at the start. -/
def rewind (wanted : Nat) (depth : Option Nat) : List Token → List Token × Nat
  | [] => ([], wanted)
  | last :: earlier =>
    match last.tag?.filter Tag.isWhitespace with
    | none => (last :: earlier, wanted)
    | some tag =>
      if tag.isNewline ∧ last.quoteDepth ≠ depth then
        if tag = .newlineBlank then
          (foreignBlank last earlier :: earlier, if endsInRule earlier then 0 else 1)
        else (last :: earlier, 1)
      else rewind wanted depth earlier

/-- A rule ends its line, and the output begins on one: both need one newline less. -/
def settle (wanted : Nat) (depth : Option Nat) (output : List Token) : List Token :=
  let (kept, wanted) := rewind wanted depth output
  let missing := if kept.isEmpty || endsInRule kept then wanted - 1 else wanted
  if missing = 0 then kept else (Token.newlines missing).within depth :: kept

structure OpenCode where
  kind : CodeKind
  depth : Nat := 0
  deriving DecidableEq, Repr

structure Spacer where
  /-- The output, its latest token first. -/
  output : List Token := []
  code : Option OpenCode := none
  /-- The next native end belongs to a start that has become a code block. -/
  dropNativeEnd : Bool := false
  skipNext : Bool := false
  deriving DecidableEq, Repr

namespace Spacer

def push (s : Spacer) (t : Token) : Spacer := { s with output := t :: s.output }

def settle (s : Spacer) (wanted : Nat) (depth : Option Nat) : Spacer :=
  { s with output := Markdown.settle wanted depth s.output }

def blockStart (s : Spacer) (t : Token) (next : Option Token) : Spacer :=
  let wanted := s.settle 2 t.quoteDepth
  match next with
  | none => wanted
  | some next =>
    if next.tagIs Tag.isBlockStart ∨ next.isNewline then s
    else if next.tagIs Tag.opensOnNewLine then s.settle 1 next.quoteDepth
    else wanted

def blockEnd (s : Spacer) (t : Token) (before next : Option Token) : Spacer :=
  if next.any (·.tagIs Tag.isBlockEnd) ∨ next.any (·.isNewline) then s
  else s.settle (if before.any (·.tagIs Tag.closesItsLine) then 1 else 2) t.quoteDepth

/-- A newline behind a rule is there already; of a blank line one newline is left, unless a block
follows. -/
def newlineAfterRule (s : Spacer) (t : Token) (next : Option Token) : Spacer :=
  if next.any (·.tagIs Tag.isBlockStart) then s
  else if t.hasTag .newlineBlank then s.push (Token.newline.within t.quoteDepth)
  else s

def whitespace (s : Spacer) (t : Token) (next : Option Token) : Spacer :=
  if next.any (·.tagIs Tag.isBlockEnd) then s
  else match s.output with
    | [] => s.push t
    | last :: earlier =>
      if t.isNewline ∧ last.isNewline then
        { s with output := Token.newlineBlank.within t.quoteDepth :: earlier }
      else if t.isNewline ∧ last.hasTag .horizontalRule then s.newlineAfterRule t next
      else s.push t

def codeLine (depth : Option Nat) (output : List Token) : List Token :=
  let fresh := (Token.newline.within depth).inCodeBlock :: output
  match output with
  | [] => fresh
  | last :: earlier =>
    if last.tagIs Tag.isSingleNewline then last.inCodeBlock :: earlier
    else if last.hasTag .newlineBlank then
      let newline := Token.newline.within last.quoteDepth
      newline.inCodeBlock :: newline :: earlier
    else fresh

def codeDelimiter (t : Token) : Token := (Token.charactersAdded "`").within t.quoteDepth

/-- Opens the region at a code start; one raw newline or two directly behind it are left out. -/
def openCode (s : Spacer) (t : Token) (after : List Token) : Spacer :=
  let region := CodeRegion.classify s.output (t :: after)
  let s := { s with
    code := some { kind := region.kind }
    skipNext := after.head?.any Token.isRawNewlines }
  match region.kind with
  | .inline => s.push (codeDelimiter t)
  | .block =>
    let kept := match s.output with
      | [] => []
      | last :: earlier =>
        if region.nativeOpen.isSome && last.hasTag .startNativeBlock then earlier
        else last :: earlier
    { s with
      output := codeLine t.quoteDepth kept
      dropNativeEnd := region.nativeClose.isSome || s.dropNativeEnd }

def isCodeSpace (t : Token) : Bool := t.inCode && t.raw?.any (·.kind == .spaceCharacters)

def closeCode (s : Spacer) (kind : CodeKind) (t : Token) : Spacer :=
  let s := { s with code := none }
  match kind with
  | .block => { s with output := s.output.dropWhile isCodeSpace }
  | .inline => s.push (codeDelimiter t)

def insideCode (s : Spacer) (opened : OpenCode) (t : Token) : Spacer :=
  match t.tag? with
  | some .startCode => { s with code := some { opened with depth := opened.depth + 1 } }
  | some .endCode =>
    match opened.depth with
    | 0 => s.closeCode opened.kind t
    | n + 1 => { s with code := some { opened with depth := n } }
  | _ =>
    match opened.kind with
    | .block => s.push t.inCodeBlock
    | .inline => s.push t

def ordinary (s : Spacer) (before : Option Token) (t : Token) (after : List Token)
    (tag : Tag) : Spacer :=
  match tag with
  | .startCode => s.openCode t after
  | .endCode => s
  | .startBlock | .startBlockquote => s.blockStart t after.head?
  | .endBlock | .endBlockquote => s.blockEnd t before after.head?
  | .space | .tab | .newline | .newlineHard | .newlineBlank => s.whitespace t after.head?
  | .startNativeBlock => (s.settle 2 t.quoteDepth).push t
  | .endNativeBlock => if s.dropNativeEnd then { s with dropNativeEnd := false } else s.push t
  | .horizontalRule => (s.settle 1 t.quoteDepth).push t
  | _ => s.push t

def step (s : Spacer) (before : Option Token) (t : Token) (after : List Token) : Spacer :=
  if s.skipNext then { s with skipNext := false }
  else match s.code with
    | some opened => s.insideCode opened t
    | none =>
      match t.tag? with
      | none => s.push t
      | some tag => s.ordinary before t after tag

def run (s : Spacer) (before : Option Token) : List Token → Spacer
  | [] => s
  | t :: ts => (s.step before t ts).run (some t) ts

end Spacer

def space (ts : List Token) : List Token := (({} : Spacer).run none ts).output.reverse

end HtmlMarkdown.Markdown
