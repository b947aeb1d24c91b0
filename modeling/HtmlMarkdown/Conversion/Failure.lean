/-!
# Failures

The ways in which a token stream that is not well nested stops a conversion.
-/

namespace HtmlMarkdown.Conversion

inductive Counter where
  | anchor
  | anchorAsTag
  | paragraph
  | blockquote
  | sensitive
  | scriptStrip
  deriving DecidableEq, Repr

def Counter.name : Counter → String
  | anchor => "a"
  | anchorAsTag => "a_as_tag"
  | paragraph => "paragraph"
  | blockquote => "blockquote"
  | sensitive => "sensitive"
  | scriptStrip => "script_strip"

inductive Failure where
  | belowZero (counter : Counter)
  /-- The end tag of `closing` stands where `opened` is the innermost open block. -/
  | wrongBlock (closing opened : String)
  | noOpenBlock (closing : String)
  | noOpenList
  | noOpenPre
  /-- An element that Markdown has a form for came in a shape that no rule is for. -/
  | unexpected (name : String)
  deriving DecidableEq, Repr

def Failure.message : Failure → String
  | belowZero counter => counter.name ++ " depth decremented below zero"
  | wrongBlock closing opened => "closing <" ++ closing ++ "> while <" ++ opened ++ "> is open"
  | noOpenBlock closing => "closing <" ++ closing ++ "> with no open block"
  | noOpenList => "closing a list with no open list"
  | noOpenPre => "closing <pre> with no open <pre>"
  | unexpected name => "<" ++ name ++ "> reached the passthrough fallback"

theorem bind_eq_ok {α β : Type} {x : Except Failure α} {f : α → Except Failure β} {b : β}
    (h : x >>= f = .ok b) : ∃ a, x = .ok a ∧ f a = .ok b := by
  cases x with
  | error e => cases h
  | ok a => exact ⟨a, rfl, h⟩

end HtmlMarkdown.Conversion
