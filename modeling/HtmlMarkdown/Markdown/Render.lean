import HtmlMarkdown.Markdown.Token
import HtmlMarkdown.Text.Escape

/-!
# The text of a token stream

Markdown is written as its data. HTML follows the rules of HTML: character data is escaped,
attributes are sorted and single-quoted, void tags end in ` />`. Inside a `<script>` or `<style>`
character data is raw. The text of a stream is the texts of its tokens, each in the raw-text state
that the tokens before it leave behind.
-/

namespace HtmlMarkdown.Markdown

def rawTextElements : List String := ["script", "style"]

def attributeChars (key : Html.AttributeName) (value : String) : List Char :=
  let space := match key.space with
    | some space => space.toList ++ [':']
    | none => []
  ' ' :: space ++ key.localName.toList ++ "='".toList ++ Text.escapeAttribute value.toList ++ ['\'']

def openTagChars (raw : Html.Token) : List Char :=
  let sorted := raw.attributes.entries.mergeSort fun a b => a.1.le b.1
  '<' :: raw.tagName.toList ++ sorted.flatMap fun entry => attributeChars entry.1 entry.2

/-- The text of an HTML token at a quote depth; `rawText` is the element whose text is raw. -/
def htmlChars (depth : Nat) (rawText : Option String) (raw : Html.Token) : List Char :=
  match raw.kind with
  | .startTag => openTagChars raw ++ ['>']
  | .emptyTag => openTagChars raw ++ " />".toList
  | .endTag => "</".toList ++ raw.tagName.toList ++ ['>']
  | .characters =>
    match rawText with
    | some _ => raw.content.toList
    | none => Text.escapeQuoted depth 0 raw.content.toList
  | .spaceCharacters => raw.content.toList
  | .comment => "<!--".toList ++ raw.content.toList ++ "-->".toList
  | .doctype => "<!DOCTYPE ".toList ++ raw.tagName.toList ++ ['>']
  | .parseError => []

def rawTextAfter (rawText : Option String) (raw : Html.Token) : Option String :=
  match raw.kind with
  | .startTag => if rawTextElements.contains raw.tagName then some raw.tagName else rawText
  | .endTag => if rawText = some raw.tagName then none else rawText
  | _ => rawText

namespace Token

def chars (rawText : Option String) (t : Token) : List Char :=
  match t.node with
  | .markdown tag data =>
    match tag.renderKind with
    | .text => Text.escapeQuoted t.markers 0 data.toList
    | .literal | .space => data.toList
  | .native _ raw | .html raw => htmlChars t.markers rawText raw

def rawTextAfter (rawText : Option String) (t : Token) : Option String :=
  match t.raw? with
  | some raw => Markdown.rawTextAfter rawText raw
  | none => rawText

end Token

def renderChars (rawText : Option String) : List Token → List Char
  | [] => []
  | t :: ts => t.chars rawText ++ renderChars (t.rawTextAfter rawText) ts

theorem renderChars_append (rawText : Option String) (ts us : List Token) :
    renderChars rawText (ts ++ us) = renderChars rawText ts ++
      renderChars (ts.foldl (fun state t => t.rawTextAfter state) rawText) us := by
  induction ts generalizing rawText with
  | nil => rfl
  | cons t ts ih => simp [renderChars, ih]

def render (ts : List Token) : String := String.ofList (renderChars none ts)

end HtmlMarkdown.Markdown
