import HtmlMarkdown.Html.Token
import HtmlMarkdown.Markdown.Tag
import HtmlMarkdown.Text.Blank

/-!
# Markdown tokens

A token is Markdown with a tag and its data, the edge of a block that is written as an HTML element
of its own, or HTML that stays as it is. It carries what the layout has to know of its
surroundings: how many quotes it stands in, and whether it stands in a code block.

The depth of a token is set once: `within` never changes a depth that is there.
-/

namespace HtmlMarkdown.Markdown

inductive Edge where
  | opening
  | closing
  deriving DecidableEq, Repr

inductive Node where
  | markdown (tag : Tag) (data : String)
  /-- An edge of a native block, with the `<pre>` or `<script>` tag it stands for. -/
  | native (edge : Edge) (raw : Html.Token)
  | html (raw : Html.Token)
  deriving DecidableEq, Repr

structure Token where
  node : Node
  quoteDepth : Option Nat := none
  inCode : Bool := false
  deriving DecidableEq, Repr

namespace Token

def markdown (tag : Tag) (data : String) : Token := { node := .markdown tag data }

def html (raw : Html.Token) : Token := { node := .html raw }

def native (edge : Edge) (raw : Html.Token) : Token := { node := .native edge raw }

/-- Sets the quote depth, unless there is one. No depth counts as depth zero. -/
def within (t : Token) (depth : Option Nat) : Token :=
  match t.quoteDepth with
  | some _ => t
  | none => { t with quoteDepth := depth.filter (0 < ·) }

def inCodeBlock (t : Token) : Token := { t with inCode := true }

def markers (t : Token) : Nat := t.quoteDepth.getD 0

def tag? (t : Token) : Option Tag :=
  match t.node with
  | .markdown tag _ => some tag
  | .native .opening _ => some .startNativeBlock
  | .native .closing _ => some .endNativeBlock
  | .html _ => none

def hasTag (t : Token) (tag : Tag) : Bool := t.tag? == some tag

def tagIs (t : Token) (p : Tag → Bool) : Bool := t.tag?.any p

def raw? (t : Token) : Option Html.Token :=
  match t.node with
  | .markdown _ _ => none
  | .native _ raw | .html raw => some raw

def nativeName? (t : Token) : Option String :=
  match t.node with
  | .native _ raw => raw.name
  | _ => none

/-- Markdown data, or the text of an HTML token that is not a tag. -/
def text? (t : Token) : Option String :=
  match t.node with
  | .markdown _ data => some data
  | .native _ _ => none
  | .html raw => if raw.isTag then none else raw.text

def mapText (t : Token) (f : String → String) : Token :=
  match t.node with
  | .markdown tag data => { t with node := .markdown tag (f data) }
  | .native _ _ => t
  | .html raw =>
    if raw.isTag then t else { t with node := .html { raw with text := raw.text.map f } }

def isPureSpace (t : Token) : Bool :=
  match t.node with
  | .markdown tag _ => tag == .space || tag == .tab
  | .native _ _ => false
  | .html raw => raw.kind == .spaceCharacters && raw.content.toList.all Text.isSpaceOrTab

def isRawNewlines (t : Token) : Bool :=
  match t.node with
  | .html raw => raw.kind == .spaceCharacters && (raw.content == "\n" || raw.content == "\n\n")
  | _ => false

/-- The token shows as spacing and not as text. -/
def isSpacing (t : Token) : Bool :=
  match t.node with
  | .markdown tag data => tag.renderKind == .space && Text.isBlank data
  | .native _ _ => false
  | .html raw => raw.kind == .spaceCharacters

@[simp] theorem tag?_within (t : Token) (depth : Option Nat) : (t.within depth).tag? = t.tag? := by
  unfold within
  split <;> rfl

@[simp] theorem node_within (t : Token) (depth : Option Nat) : (t.within depth).node = t.node := by
  unfold within
  split <;> rfl

@[simp] theorem inCode_within (t : Token) (d : Option Nat) : (t.within d).inCode = t.inCode := by
  unfold within
  split <;> rfl

@[simp] theorem tagIs_within (t : Token) (d : Option Nat) (p : Tag → Bool) :
    (t.within d).tagIs p = t.tagIs p := by
  unfold tagIs
  rw [tag?_within]

@[simp] theorem hasTag_within (t : Token) (d : Option Nat) (tag : Tag) :
    (t.within d).hasTag tag = t.hasTag tag := by
  unfold hasTag
  rw [tag?_within]

@[simp] theorem within_none (t : Token) : t.within none = t := by
  cases t with
  | mk node quoteDepth inCode => cases quoteDepth <;> rfl

theorem text?_mapText (t : Token) (f : String → String) : (t.mapText f).text? = t.text?.map f := by
  obtain ⟨node, _, _⟩ := t
  cases node with
  | markdown => rfl
  | native => rfl
  | html raw =>
    by_cases h : raw.isTag = true
    · simp [mapText, text?, h]
    · have h' : ({ raw with text := raw.text.map f } : Html.Token).isTag = raw.isTag := rfl
      simp [mapText, text?, h, h']

end Token

end HtmlMarkdown.Markdown
