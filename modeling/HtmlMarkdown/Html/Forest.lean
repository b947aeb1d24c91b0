import HtmlMarkdown.Html.Element
import HtmlMarkdown.Html.Token
import HtmlMarkdown.Text.Blank

/-!
# Forests

A forest is a list of HTML trees, given by its first tree and the rest; an element holds a forest
of its own. `tokens` walks a forest and gives its flat form: a void element is one empty tag, any
other element a start tag, its content and an end tag, and a text is cut into its leading space,
its middle and its trailing space.
-/

namespace HtmlMarkdown.Html

inductive Forest where
  | nil
  | text (content : String) (rest : Forest)
  | comment (content : String) (rest : Forest)
  | element (name : String) (attributes : Attributes) (children rest : Forest)
  deriving DecidableEq, Repr

instance : Inhabited Forest := ⟨.nil⟩

def spaceTokens (cs : List Char) : List Token :=
  if cs = [] then [] else [.spaceCharacters (String.ofList cs)]

def textTokens (s : String) : List Token :=
  let inner := s.toList.dropWhile Text.isHtmlSpace
  if inner = [] then spaceTokens s.toList
  else
    spaceTokens (s.toList.takeWhile Text.isHtmlSpace) ++
      .characters (String.ofList (Text.dropTail Text.isHtmlSpace inner)) ::
        spaceTokens (Text.takeTail Text.isHtmlSpace inner)

theorem content_spaceTokens (cs : List Char) :
    (spaceTokens cs).flatMap (·.content.toList) = cs := by
  unfold spaceTokens
  split
  · next h => simp [h]
  · simp [Token.content, Token.spaceCharacters]

/-- Cutting a text into tokens loses nothing. -/
theorem content_textTokens (s : String) :
    (textTokens s).flatMap (·.content.toList) = s.toList := by
  unfold textTokens
  dsimp only
  split
  · exact content_spaceTokens s.toList
  · rw [List.flatMap_append, List.flatMap_cons, content_spaceTokens, content_spaceTokens]
    simp only [Token.content, Token.characters, Option.getD_some, String.toList_ofList]
    rw [Text.dropTail_append_takeTail, List.takeWhile_append_dropWhile]

namespace Forest

def tokens : Forest → List Token
  | nil => []
  | text content rest => textTokens content ++ rest.tokens
  | comment content rest => .comment content :: rest.tokens
  | element name attributes children rest =>
    if isVoid name then .emptyTag name attributes :: rest.tokens
    else .startTag name attributes :: children.tokens ++ .endTag name :: rest.tokens

def append : Forest → Forest → Forest
  | nil, g => g
  | text content rest, g => .text content (rest.append g)
  | comment content rest, g => .comment content (rest.append g)
  | element name attributes children rest, g => .element name attributes children (rest.append g)

def reverseOnto : Forest → Forest → Forest
  | nil, g => g
  | text content rest, g => rest.reverseOnto (.text content g)
  | comment content rest, g => rest.reverseOnto (.comment content g)
  | element name attributes children rest, g =>
    rest.reverseOnto (.element name attributes children g)

def reverse (f : Forest) : Forest := f.reverseOnto .nil

end Forest

end HtmlMarkdown.Html
