import HtmlMarkdown.Notice
import HtmlMarkdown.OrderedMap
import HtmlMarkdown.Html.Token
import HtmlMarkdown.Text.Blank

/-!
# Options

The choices of a conversion. Marks have to be characters that Markdown knows in their place, and
the rule must not be blank: `sanitized` puts the default where that fails, and `corrections` says
where it did.
-/

namespace HtmlMarkdown

/-- How a `<pre>` without a `<code>` child is rendered. -/
inductive PreBehavior where
  | codeBlock
  | paragraph
  deriving DecidableEq, Repr

structure Options where
  /-- Keep every `<a>` as HTML. -/
  anchorsAsTags : Bool := false
  /-- Write a link whose text is its address as `<address>`. -/
  simplifySelfLinks : Bool := true
  /-- Read `<http://...>`, `<https://...>` and `<mailto:...>` as links. -/
  bareAutolinks : Bool := true
  /-- Keep every `<img>` as HTML. -/
  imagesAsTags : Bool := false
  stripComments : Bool := false
  /-- Leave out every `<script>` with its content. -/
  stripScripts : Bool := true
  referenceLinks : Bool := false
  referenceImages : Bool := false
  /-- Without it the tags of a `<div>` are left out and its content stays. -/
  divAsBlock : Bool := true
  /-- The tags that stay as HTML. -/
  passthrough : List String := ["table", "tr", "td", "th", "thead", "tbody"]
  /-- The tags among them that also stand as blocks. -/
  passthroughBlocks : List String := ["table"]
  /-- The attributes kept for each tag; a tag that is not listed keeps none. -/
  attributes : OrderedMap String (List String) :=
    .ofList [("a", ["href", "title"]), ("img", ["src", "title", "alt", "height", "width"])]
  emphasisMark : Char := '_'
  strongMark : Char := '*'
  boldItalicMark : Char := '*'
  bullet : Char := '*'
  rule : String := "---"
  preBehavior : PreBehavior := .codeBlock
  deriving Repr

instance : Inhabited Options := ⟨{}⟩

namespace Options

def emphasisMarks : List Char := ['*', '_']

def bullets : List Char := ['*', '-', '+']

def checked (allowed : List Char) (default mark : Char) : Char :=
  if allowed.contains mark then mark else default

def correction (option : String) (allowed : List Char) (default mark : Char) : List Notice :=
  if allowed.contains mark then [] else [.invalidMark option mark default]

/-- Every mark is one that may stand in its place, and the rule is not blank. -/
structure Valid (o : Options) : Prop where
  emphasisMark : o.emphasisMark ∈ emphasisMarks
  strongMark : o.strongMark ∈ emphasisMarks
  boldItalicMark : o.boldItalicMark ∈ emphasisMarks
  bullet : o.bullet ∈ bullets
  rule : Text.isBlank o.rule = false

def sanitized (o : Options) : Options :=
  { o with
    emphasisMark := checked emphasisMarks '_' o.emphasisMark
    strongMark := checked emphasisMarks '*' o.strongMark
    boldItalicMark := checked emphasisMarks '*' o.boldItalicMark
    bullet := checked bullets '*' o.bullet
    rule := if Text.isBlank o.rule then "---" else o.rule }

/-- What `sanitized` replaces, in order. -/
def corrections (o : Options) : List Notice :=
  correction "emphasis_char" emphasisMarks '_' o.emphasisMark ++
    correction "strong_char" emphasisMarks '*' o.strongMark ++
    correction "bold_italic_char" emphasisMarks '*' o.boldItalicMark ++
    correction "bullet_char" bullets '*' o.bullet ++
    if Text.isBlank o.rule then [.blankRule "---"] else []

theorem checked_mem {allowed : List Char} {default : Char} (h : default ∈ allowed) (mark : Char) :
    checked allowed default mark ∈ allowed := by
  unfold checked
  split
  · next hm => simpa using hm
  · exact h

theorem valid_sanitized (o : Options) : o.sanitized.Valid where
  emphasisMark := checked_mem (by decide) _
  strongMark := checked_mem (by decide) _
  boldItalicMark := checked_mem (by decide) _
  bullet := checked_mem (by decide) _
  rule := by
    simp only [sanitized]
    split
    · decide
    · next h => simpa using h

def isPassthrough (o : Options) (name : String) : Bool := o.passthrough.contains name

def isPassthroughBlock (o : Options) (name : String) : Bool := o.passthroughBlocks.contains name

def attributesFor? (o : Options) (name : String) : Option (List String) := o.attributes.get? name

def clean (o : Options) (t : Html.Token) : Html.Token :=
  t.keepAttributes ((t.name.bind o.attributesFor?).getD [])

end Options

end HtmlMarkdown
