import HtmlMarkdown.Conversion.Reaction
import HtmlMarkdown.Conversion.Window
import HtmlMarkdown.Options

/-!
# Sensitive elements

`<code>`, `<pre>` and `<script>` keep their content as it stands. `code`, `preformatted` and
`script` react to the tags of an outermost sensitive element, `insideSensitive` to what is inside
one, `insideStripped` to what is inside a script that is left out.
-/

namespace HtmlMarkdown.Conversion

open Markdown (Token)

def code (opening : Bool) (ctx : Context) : Except Failure Reaction :=
  if opening then .ok (.emit (ctx.enter .sensitive) [.startCode])
  else do
    let ctx ← ctx.leave .sensitive
    return .emit ctx [.endCode]

theorem code_eq {opening : Bool} {ctx : Context} {r : Reaction} (h : code opening ctx = .ok r) :
    ∃ depth, r = .emit { ctx with sensitive := depth }
      [if opening then .startCode else .endCode] := by
  cases opening with
  | true =>
    cases h
    exact ⟨_, rfl⟩
  | false =>
    obtain ⟨c₁, h₁, h⟩ := bind_eq_ok h
    obtain ⟨depth, rfl⟩ := Context.eq_of_leave h₁
    cases h
    exact ⟨depth, rfl⟩

def preMode (o : Options) (w : Window) : PreMode :=
  if w.codeFollows then .native
  else match o.preBehavior with
    | .codeBlock => .injectedCode
    | .paragraph => .paragraph

def openPre (mode : PreMode) (raw : Html.Token) (ctx : Context) : Reaction :=
  let inside := { ctx with preModes := mode :: ctx.preModes }
  match mode with
  | .paragraph => .emit ((inside.enter .paragraph).openBlock "pre") [.startBlock]
  | .native => .emit (inside.enter .sensitive) [.startBlock, .native .opening raw]
  | .injectedCode =>
    .emit (inside.enter .sensitive) [.startBlock, .native .opening raw, .startCode]

def closePre (raw : Html.Token) (ctx : Context) : Except Failure Reaction :=
  match ctx.preModes with
  | [] => .error .noOpenPre
  | mode :: outer => do
    let ctx := { ctx with preModes := outer }
    match mode with
    | .paragraph =>
      let ctx ← ctx.leave .paragraph
      let ctx ← ctx.closeBlock "pre"
      return .emit ctx [.endBlock]
    | .native =>
      let ctx ← ctx.leave .sensitive
      return .emit ctx [.native .closing raw, .endBlock]
    | .injectedCode =>
      let ctx ← ctx.leave .sensitive
      return .emit ctx [.endCode, .native .closing raw, .endBlock]

/-- The end tag of a `<pre>` answers its start tag in the mode that the start tag was rendered
in. -/
theorem closePre_eq {raw : Html.Token} {ctx : Context} {r : Reaction}
    (h : closePre raw ctx = .ok r) : ∃ mode outer paragraph sensitive blocks,
      ctx.preModes = mode :: outer ∧
        r = .emit { ctx with preModes := outer, paragraph, sensitive, blocks }
          (match mode with
            | .paragraph => [.endBlock]
            | .native => [.native .closing raw, .endBlock]
            | .injectedCode => [.endCode, .native .closing raw, .endBlock]) := by
  unfold closePre at h
  split at h
  · cases h
  · next mode outer hmodes =>
    cases mode with
    | paragraph =>
      obtain ⟨c₁, h₁, h⟩ := bind_eq_ok h
      obtain ⟨c₂, h₂, h⟩ := bind_eq_ok h
      obtain ⟨depth, rfl⟩ := Context.eq_of_leave h₁
      obtain ⟨blocks, rfl⟩ := Context.eq_of_closeBlock h₂
      cases h
      exact ⟨.paragraph, outer, depth, _, blocks, hmodes, rfl⟩
    | native =>
      obtain ⟨c₁, h₁, h⟩ := bind_eq_ok h
      obtain ⟨depth, rfl⟩ := Context.eq_of_leave h₁
      cases h
      exact ⟨.native, outer, _, depth, _, hmodes, rfl⟩
    | injectedCode =>
      obtain ⟨c₁, h₁, h⟩ := bind_eq_ok h
      obtain ⟨depth, rfl⟩ := Context.eq_of_leave h₁
      cases h
      exact ⟨.injectedCode, outer, _, depth, _, hmodes, rfl⟩

def preformatted (o : Options) (w : Window) (opening : Bool) (ctx : Context) :
    Except Failure Reaction :=
  if opening then .ok (openPre (preMode o w) (o.clean w.token) ctx)
  else closePre (o.clean w.token) ctx

def script (o : Options) (w : Window) (opening : Bool) (ctx : Context) :
    Except Failure Reaction :=
  if opening then
    .ok (if o.stripScripts then .quiet (ctx.enter .scriptStrip)
      else .emit (ctx.enter .sensitive) [.startBlock, .native .opening (o.clean w.token)])
  else do
    let ctx ← ctx.leave .sensitive
    return .emit ctx [.native .closing (o.clean w.token), .endBlock]

theorem closeScript_eq {o : Options} {w : Window} {ctx : Context} {r : Reaction}
    (h : script o w false ctx = .ok r) : ∃ depth,
      r = .emit { ctx with sensitive := depth }
        [.native .closing (o.clean w.token), .endBlock] := by
  obtain ⟨c₁, h₁, h⟩ := bind_eq_ok h
  obtain ⟨depth, rfl⟩ := Context.eq_of_leave h₁
  cases h
  exact ⟨depth, rfl⟩

/-- A `<code>` inside a sensitive element has code delimiters; other tags stay. -/
def nestedSensitive (t : Html.Token) (delimiter : Token) : Token :=
  if t.name = some "code" then delimiter else .html t

/-- The reaction inside a sensitive element; none for its own end tag, and for a token with the name
of a sensitive element that is neither a start tag nor an end tag. -/
def insideSensitive (t : Html.Token) (ctx : Context) : Option Reaction :=
  if !Html.isSensitive t.tagName then some (.emit ctx [.html t])
  else if t.kind = .startTag then
    some (.emit (ctx.enter .sensitive) [nestedSensitive t .startCode])
  else if t.kind = .endTag ∧ 2 ≤ ctx.sensitive then
    some (.emit { ctx with sensitive := ctx.sensitive - 1 } [nestedSensitive t .endCode])
  else none

/-- Inside a script that is left out, only the tags of scripts count. -/
def insideStripped (t : Html.Token) (ctx : Context) : Reaction :=
  if t.tagName ≠ "script" then .quiet ctx
  else match t.kind with
    | .startTag => .quiet (ctx.enter .scriptStrip)
    | .endTag => .quiet { ctx with scriptStrip := ctx.scriptStrip - 1 }
    | _ => .quiet ctx

end HtmlMarkdown.Conversion
