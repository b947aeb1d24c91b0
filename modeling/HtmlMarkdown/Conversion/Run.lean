import HtmlMarkdown.Conversion.React

/-!
# A conversion from start to end

The state of a conversion is its position, its context and what it has emitted and noticed. `step`
takes one token, `run` takes a list of them and stops at the first failure. At the end the
reference block is added, and elements still open are noticed. Every token a step produces carries
the quote depth in force behind the step.
-/

namespace HtmlMarkdown.Conversion

open Markdown (Token)

structure State where
  /-- The tokens taken so far. -/
  index : Nat := 0
  before : Option Html.Token := none
  context : Context := {}
  /-- The tokens emitted, the latest first. -/
  emitted : List Token := []
  /-- The notices given, the latest first. -/
  notices : List Notice := []
  deriving DecidableEq, Repr

namespace State

def window (s : State) (t : Html.Token) (after : List Html.Token) : Window :=
  { before := s.before, index := s.index, token := t, after }

def accept (s : State) (t : Html.Token) (r : Reaction) : State :=
  let stamped := r.produced.map (·.within (some r.context.blockquote))
  { index := s.index + 1
    before := some t
    context := r.context
    emitted := stamped.reverse ++ (if r.replacesLast then s.emitted.tail else s.emitted)
    notices := r.notices.reverse ++ s.notices }

def step (o : Options) (s : State) (t : Html.Token) (after : List Html.Token) :
    Except Failure State :=
  (react o (s.window t after) s.emitted.head? s.context).map (s.accept t)

def run (o : Options) (s : State) : List Html.Token → State × Option Failure
  | [] => (s, none)
  | t :: ts =>
    match s.step o t ts with
    | .error failure => (s, some failure)
    | .ok s' => s'.run o ts

def referenceBlock (r : References) : List Token :=
  [.newlineBlank, .startBlock] ++
    (r.entries.flatMap fun (n, href, title) => [.newline, .anchorReference n href title]) ++
    [.endBlock]

/-- What is emitted at the end: the reference block takes the place of a last white-space token. -/
def finished (s : State) : List Token :=
  if s.context.references.isEmpty then s.emitted.reverse
  else
    let kept := match s.emitted with
      | [] => []
      | last :: rest => if last.tagIs Markdown.Tag.isWhitespace then rest else last :: rest
    kept.reverse ++ referenceBlock s.context.references

def leftOpen (s : State) : List Notice :=
  match s.context.unbalanced with
  | [] => []
  | names => [.unbalanced names]

end State

structure Outcome where
  result : Except Failure (List Token)
  notices : List Notice

def outcome (o : Options) (ts : List Html.Token) : Outcome :=
  match ({} : State).run o ts with
  | (s, some failure) => { result := .error failure, notices := s.notices.reverse }
  | (s, none) => { result := .ok s.finished, notices := s.notices.reverse ++ s.leftOpen }

/-- The Markdown tokens of an HTML token stream, before they are laid out. -/
def convert (o : Options) (ts : List Html.Token) : Except Failure (List Token) :=
  (outcome o ts).result

end HtmlMarkdown.Conversion
