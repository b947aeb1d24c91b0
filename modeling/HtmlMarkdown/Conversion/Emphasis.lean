import HtmlMarkdown.Conversion.Reaction
import HtmlMarkdown.Conversion.Window
import HtmlMarkdown.Options

/-!
# Emphasis

An emphasis tag is a marker, at both ends of the element. Where an element wraps the other kind of
emphasis and nothing else, the two are fused: the outer start and the inner end become a marker for
both, and the other two tags become nothing. That is settled at the outer start, for the tokens to
come.
-/

namespace HtmlMarkdown.Conversion

open Markdown (Token)

def Fusion.tokens (o : Options) : Fusion → List Token
  | emit => [.boldItalic o.boldItalicMark]
  | swallow => []

def emphasisMarker (o : Options) (strong : Bool) : Token :=
  if strong then .strong o.strongMark else .emphasis o.emphasisMark

/-- Settles what becomes of the three tags that follow the outer start of a fused pair. -/
def Context.fuse (ctx : Context) (index place : Nat) : Context :=
  let inner := (ctx.fusions.insert (index + 1) .swallow).insert (index + 1 + place) .emit
  { ctx with fusions := inner.insert (index + 2 + place) .swallow }

def emphasis (o : Options) (w : Window) (strong opening : Bool) (ctx : Context) : Reaction :=
  match ctx.fusions.get? w.index with
  | some fusion => .emit { ctx with fusions := ctx.fusions.erase w.index } (fusion.tokens o)
  | none =>
    match if opening then w.fusedEnd? strong else none with
    | some place => .emit (ctx.fuse w.index place) [.boldItalic o.boldItalicMark]
    | none => .emit ctx [emphasisMarker o strong]

/-- A tag of emphasis writes one marker or nothing, and changes only what is settled ahead. -/
theorem emphasis_eq (o : Options) (w : Window) (strong opening : Bool) (ctx : Context) :
    ∃ c us, (∃ fusions, c = { ctx with fusions }) ∧
      (us = [] ∨ us = [.boldItalic o.boldItalicMark] ∨ us = [emphasisMarker o strong]) ∧
      emphasis o w strong opening ctx = .emit c us := by
  unfold emphasis
  split
  · next fusion _ =>
    refine ⟨_, _, ⟨_, rfl⟩, ?_, rfl⟩
    cases fusion with
    | emit => exact .inr (.inl rfl)
    | swallow => exact .inl rfl
  · split
    · exact ⟨_, _, ⟨_, rfl⟩, .inr (.inl rfl), rfl⟩
    · exact ⟨_, _, ⟨ctx.fusions, rfl⟩, .inr (.inr rfl), rfl⟩

end HtmlMarkdown.Conversion
