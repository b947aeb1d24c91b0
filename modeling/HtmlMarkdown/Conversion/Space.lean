import HtmlMarkdown.Markdown.Build
import HtmlMarkdown.Text.Blank

/-!
# Space between elements

A run of white space in the input becomes a space, a newline, a blank line or nothing, by the token
emitted last and by where it stands. Behind a newline, more newlines make a blank line in its
place; behind a block there is a blank line; at the start of a block or of the output there is
nothing.
-/

namespace HtmlMarkdown.Conversion

inductive Disposition where
  | drop
  | push (token : Markdown.Token)
  /-- The token takes the place of the one emitted last. -/
  | replace (token : Markdown.Token)
  deriving DecidableEq, Repr

inductive Gap where
  | space
  | newline
  | blank
  deriving DecidableEq, Repr

namespace Gap

def ofText (s : String) : Gap :=
  match s.toList.count '\n' with
  | 0 => .space
  | 1 => .newline
  | _ => .blank

def token : Gap → Markdown.Token
  | space => .space
  | newline => .newline
  | blank => .newlineBlank

end Gap

def Gap.behind (gap : Gap) (last : Option Markdown.Tag) : Disposition :=
  if last = some .newlineBlank then .drop
  else if last.any Markdown.Tag.isSingleNewline ∧ gap ≠ .space then .replace .newlineBlank
  else .push gap.token

def settleSpace (raw : Html.Token) (last : Option Markdown.Token) (sensitive inList : Bool) :
    Disposition :=
  let tag := last.bind Markdown.Token.tag?
  let gap := Gap.ofText raw.content
  if sensitive then .push (.html raw)
  else if tag = some .listItemStart ∨ tag = some .horizontalRule then .drop
  else if tag.any Markdown.Tag.isBlockStart then .drop
  else if tag.any Markdown.Tag.isBlockEnd then .push .newlineBlank
  else if inList ∧ gap ≠ .space then .drop
  else if last = none then .drop
  else gap.behind tag

end HtmlMarkdown.Conversion
