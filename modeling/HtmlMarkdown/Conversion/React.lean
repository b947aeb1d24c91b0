import HtmlMarkdown.Conversion.Blocks
import HtmlMarkdown.Conversion.Emphasis
import HtmlMarkdown.Conversion.Links
import HtmlMarkdown.Conversion.Sensitive
import HtmlMarkdown.Conversion.Space
import HtmlMarkdown.Text.Flow
import HtmlMarkdown.Text.Lines

/-!
# The reaction to a token

`react` decides by where the token stands and what it is: inside a stripped script, inside a
sensitive element, a tag by the role of its name, text, space. Tags that no rule is for are left
out, or stay as HTML where the options say so.
-/

namespace HtmlMarkdown.Conversion

open Markdown (Token)

def otherTag (o : Options) (t : Html.Token) (ctx : Context) : Except Failure Reaction :=
  let name := t.tagName
  let raw := Token.html (o.clean t)
  if name = Html.fragmentTag then .ok (.quiet ctx)
  else if Html.hasMarkdown name then .error (.unexpected name)
  else if !o.isPassthrough name then .ok (.remark ctx (.droppedElement name))
  else if !o.isPassthroughBlock name then .ok (.emit ctx [raw])
  else if t.kind = .startTag then .ok (.emit ctx [.startBlock, raw])
  else .ok (.emit ctx [raw, .endBlock])

def emptyPair (o : Options) (t : Html.Token) (name : String) (ctx : Context) : Reaction :=
  if Html.isBareLink name then autolink o t ctx else .remark ctx (.emptyElement name)

def pairedTag (o : Options) (w : Window) (ctx : Context) : Except Failure Reaction :=
  let name := w.token.tagName
  let opening := w.token.kind == .startTag
  match Html.roleOf name with
  | .heading level => heading name level opening ctx
  | .paragraph => paragraph name opening ctx
  | .division => if o.divAsBlock then paragraph name opening ctx else .ok (.quiet ctx)
  | .list kind => if opening then .ok (openList kind ctx) else closeList w.listFollows ctx
  | .item => item o opening ctx
  | .emphasis strong => .ok (emphasis o w strong opening ctx)
  | .anchor => anchor o w opening ctx
  | .quote => quote opening ctx
  | .code => code opening ctx
  | .pre => preformatted o w opening ctx
  | .script => script o w opening ctx
  | .bareLink => .ok (autolink o w.token ctx)
  | .other => otherTag o w.token ctx

def tag (o : Options) (w : Window) (ctx : Context) : Except Failure Reaction :=
  match w.token.name.filter w.isEmptyPair with
  | some name => .ok (emptyPair o w.token name ctx)
  | none => pairedTag o w ctx

def lineBreak (last : Option Token) (ctx : Context) : Reaction :=
  if ctx.inList ∨ last.any (·.tagIs Markdown.Tag.isNewline) then .quiet ctx
  else .emit ctx [.newlineHard]

def emptyTag (o : Options) (t : Html.Token) (last : Option Token) (ctx : Context) : Reaction :=
  let name := t.tagName
  if name = "img" then image o t ctx
  else if name = "br" then lineBreak last ctx
  else if name = "hr" then .emit ctx [.startBlock, .horizontalRule o.rule, .endBlock]
  else if o.isPassthrough name then .emit ctx [.html (o.clean t)]
  else .remark ctx (.droppedElement name)

def textTokens (cs : List Char) : List Token :=
  match Text.splitNewlines cs with
  | [] => []
  | [line] => if line = [] then [] else [.html (.characters (String.ofList line))]
  | line :: rest =>
    .charactersSplit (String.ofList line) ::
      rest.flatMap fun line => [.newline, .charactersSplit (String.ofList line)]

theorem mem_textTokens {cs : List Char} {t : Token} (h : t ∈ textTokens cs) :
    (∃ s, t = .html (.characters s)) ∨ (∃ s, t = .charactersSplit s) ∨ t = .newline := by
  unfold textTokens at h
  split at h
  · cases h
  · split at h
    · cases h
    · exact .inl ⟨_, List.mem_singleton.mp h⟩
  · simp only [List.mem_cons, List.mem_flatMap, List.not_mem_nil, or_false] at h
    rcases h with rfl | ⟨line, -, rfl | rfl⟩
    · exact .inr (.inl ⟨_, rfl⟩)
    · exact .inr (.inr rfl)
    · exact .inr (.inl ⟨_, rfl⟩)

def characters (w : Window) (ctx : Context) : Reaction :=
  if ctx.consumedText = some w.index then .quiet { ctx with consumedText := none }
  else .emit ctx (textTokens (Text.flowChars (0 < ctx.paragraph) w.token.content.toList))

def spaceCharacters (t : Html.Token) (last : Option Token) (ctx : Context) : Reaction :=
  match settleSpace t last (0 < ctx.sensitive) ctx.inList with
  | .drop => .quiet ctx
  | .push token => .emit ctx [token]
  | .replace token => { context := ctx, produced := [token], replacesLast := true }

def ordinary (o : Options) (w : Window) (last : Option Token) (ctx : Context) :
    Except Failure Reaction :=
  match w.token.kind with
  | .startTag | .endTag => tag o w ctx
  | .emptyTag => .ok (emptyTag o w.token last ctx)
  | .characters => .ok (characters w ctx)
  | .spaceCharacters => .ok (spaceCharacters w.token last ctx)
  | .comment => .ok (if o.stripComments then .quiet ctx else .emit ctx [.html w.token])
  | .doctype | .parseError => .ok (.remark ctx (.droppedToken w.token.kind))

def react (o : Options) (w : Window) (last : Option Token) (ctx : Context) :
    Except Failure Reaction :=
  if o.stripScripts ∧ 0 < ctx.scriptStrip then .ok (insideStripped w.token ctx)
  else match if 0 < ctx.sensitive then insideSensitive w.token ctx else none with
    | some reaction => .ok reaction
    | none => ordinary o w last ctx

end HtmlMarkdown.Conversion
