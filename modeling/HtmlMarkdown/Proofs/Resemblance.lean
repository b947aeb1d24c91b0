import HtmlMarkdown.Conversion.React

/-!
# Windows that look the same

A rule asks a window about the next tokens, not for them. Two windows on the same token that answer
alike lead to the same reaction.
-/

namespace HtmlMarkdown.Conversion

/-- Two windows on the same token that no rule for it tells apart. -/
structure Window.Resembles (w w' : Window) : Prop where
  index : w'.index = w.index
  token : w'.token = w.token
  isEmptyPair : w'.isEmptyPair = w.isEmptyPair
  listFollows : w'.listFollows = w.listFollows
  codeFollows : w'.codeFollows = w.codeFollows
  flatText? : w'.flatText? = w.flatText?
  /-- Only a start tag is asked whether it opens a fused pair. -/
  fusedEnd? : ∀ {strong}, w.token.kind = .startTag →
    Html.roleOf w.token.tagName = .emphasis strong → w'.fusedEnd? strong = w.fusedEnd? strong

namespace Window.Resembles

variable {o : Options} {w w' : Window} (h : w.Resembles w')
include h

theorem emphasis_eq {strong : Bool} (hrole : Html.roleOf w.token.tagName = .emphasis strong)
    (ctx : Context) : emphasis o w' strong (w.token.kind == .startTag) ctx =
      emphasis o w strong (w.token.kind == .startTag) ctx := by
  by_cases hk : w.token.kind = .startTag
  · simp only [emphasis, h.index, h.fusedEnd? hk hrole]
  · have hend : (w.token.kind == .startTag) = false := by simpa using hk
    simp only [emphasis, h.index, hend, Bool.false_eq_true, if_false]

theorem pairedTag_eq (ctx : Context) : pairedTag o w' ctx = pairedTag o w ctx := by
  unfold pairedTag
  rw [h.token]
  dsimp only
  cases hrole : Html.roleOf w.token.tagName with
  | list kind => simp only [h.listFollows]
  | emphasis strong => simp only [h.emphasis_eq hrole]
  | anchor => simp only [anchor, openAnchor, closeAnchor, h.token, h.flatText?, h.index]
  | pre => simp only [preformatted, preMode, h.token, h.codeFollows]
  | script => simp only [script, h.token]
  | _ => rfl

theorem react_eq (last : Option Markdown.Token) (ctx : Context) :
    react o w' last ctx = react o w last ctx := by
  simp only [react, ordinary, tag, characters, h.token, h.index, h.isEmptyPair, h.pairedTag_eq]

end Window.Resembles

end HtmlMarkdown.Conversion
