import HtmlMarkdown.Converter
import Mathlib.Data.List.Basic

/-!
# Pages

A page is a list of simple blocks inside of nested quotes: paragraphs, headings, rules, lists with
items of one line, and code of one line. Space may stand around every block. `tokens` is the HTML
of a page, `markdown` the text that it should become: the blocks line by line, one blank line
between two of them, and the quote markers in front of every line.
-/

namespace HtmlMarkdown

namespace Text

theorem capNewlines_of_not_mem {cs : List Char} (h : '\n' ∉ cs) (kept : Nat) :
    capNewlines kept cs = cs := by
  induction cs generalizing kept with
  | nil => rfl
  | cons c cs ih =>
    rw [List.mem_cons, not_or] at h
    rw [capNewlines, if_neg (Ne.symm h.1), ih h.2]

theorem squeeze_squeeze (inRun : Bool) (cs : List Char) :
    squeeze inRun (squeeze inRun cs) = squeeze inRun cs := by
  induction cs generalizing inRun with
  | nil => rfl
  | cons c cs ih =>
    by_cases hc : isSpaceOrTab c = true
    · have hspace : isSpaceOrTab ' ' = true := rfl
      cases inRun with
      | true => simp only [squeeze, hc, if_true, ih]
      | false => simp only [squeeze, hc, hspace, if_true, Bool.false_eq_true, if_false, ih]
    · simp only [squeeze, hc, Bool.false_eq_true, if_false, ih]

theorem not_mem_squeeze {cs : List Char} (h : '\n' ∉ cs) (inRun : Bool) :
    '\n' ∉ squeeze inRun cs := by
  induction cs generalizing inRun with
  | nil => exact h
  | cons c cs ih =>
    rw [List.mem_cons, not_or] at h
    rw [squeeze]
    split_ifs
    · exact ih h.2 true
    · simpa using ih h.2 true
    · simpa using ⟨h.1, ih h.2 false⟩

theorem dropIndents_of_not_mem {cs : List Char} (h : '\n' ∉ cs) : dropIndents false cs = cs := by
  induction cs with
  | nil => rfl
  | cons c cs ih =>
    rw [List.mem_cons, not_or] at h
    have hc : (c == '\n') = false := by simpa using Ne.symm h.1
    rw [dropIndents, Bool.false_and, if_neg Bool.false_ne_true, hc, ih h.2]

theorem map_unfoldNewline {cs : List Char} (h : '\n' ∉ cs) : cs.map unfoldNewline = cs := by
  have hkeep : ∀ c ∈ cs, unfoldNewline c = c := by
    intro c hc
    have hne : c ≠ '\n' := fun heq => h (heq ▸ hc)
    exact if_neg hne
  rw [List.map_congr_left hkeep, List.map_id']

/-- On one line a text flows in a paragraph as it does elsewhere. -/
theorem flowChars_of_not_mem {cs : List Char} (h : '\n' ∉ cs) (inParagraph : Bool) :
    flowChars inParagraph cs = trimChars (squeeze false cs) := by
  have hlaid : dropIndents false (squeeze false (capNewlines 0 cs)) = squeeze false cs := by
    rw [capNewlines_of_not_mem h, dropIndents_of_not_mem (not_mem_squeeze h false)]
  unfold flowChars
  dsimp only
  rw [hlaid]
  split_ifs
  · rw [map_unfoldNewline (not_mem_squeeze h false), squeeze_squeeze]
  · rfl

theorem splitNewlines_of_not_mem {cs : List Char} (h : '\n' ∉ cs) : splitNewlines cs = [cs] := by
  induction cs with
  | nil => rfl
  | cons c cs ih =>
    rw [List.mem_cons, not_or] at h
    rw [splitNewlines, if_neg (Ne.symm h.1), ih h.2]

end Text

/-- A text on one line that flowing leaves as it is. No text token is empty: where HTML has no text
there is no token. -/
structure Line where
  text : String
  ne_empty : text ≠ ""
  single : '\n' ∉ text.toList
  flows : Text.flow false text = text

structure Item where
  attributes : Html.Attributes
  line : Line

inductive Block where
  | paragraph (attributes : Html.Attributes) (line : Line)
  | heading (name : String) (level : Nat) (h : Html.headingLevel? name = some level)
    (attributes : Html.Attributes) (line : Line)
  | rule (attributes : Html.Attributes)
  | list (kind : Html.ListKind) (attributes : Html.Attributes) (first : Item) (others : List Item)
  | code (attributes inner : Html.Attributes) (line : Line)

namespace Html

def ListKind.tag : ListKind → String
  | unordered => "ul"
  | ordered => "ol"

end Html

namespace Item

def tokens (i : Item) : List Html.Token :=
  [.startTag "li" i.attributes, .characters i.line.text, .endTag "li"]

end Item

namespace Block

def isList : Block → Bool
  | list .. => true
  | _ => false

def isRule : Block → Bool
  | rule _ => true
  | _ => false

def tokens : Block → List Html.Token
  | paragraph attributes line =>
    [.startTag "p" attributes, .characters line.text, .endTag "p"]
  | heading name _ _ attributes line =>
    [.startTag name attributes, .characters line.text, .endTag name]
  | rule attributes => [.emptyTag "hr" attributes]
  | list kind attributes first others =>
    .startTag kind.tag attributes :: (first :: others).flatMap Item.tokens ++ [.endTag kind.tag]
  | code attributes inner line =>
    [.startTag "pre" attributes, .startTag "code" inner, .characters line.text, .endTag "code",
      .endTag "pre"]

end Block

def bulletAt (o : Options) (kind : Html.ListKind) (count : Nat) : Markdown.Bullet :=
  match kind with
  | .unordered => .mark o.bullet
  | .ordered => .ordinal (count + 1)

namespace Line

def written (l : Line) : List Char := (Text.escapeText l.text).toList

end Line

def itemLines (o : Options) (kind : Html.ListKind) (count : Nat) : List Item → List (List Char)
  | [] => []
  | i :: is =>
    ((bulletAt o kind count).text.toList ++ ' ' :: i.line.written) ::
      itemLines o kind (count + 1) is

def Block.lines (o : Options) : Block → List (List Char)
  | paragraph _ line => [line.written]
  | heading _ level _ _ line => [List.replicate level '#' ++ ' ' :: line.written]
  | rule _ => [o.rule.toList]
  | list kind _ first others => itemLines o kind 0 (first :: others)
  | code _ _ line => [List.replicate 4 ' ' ++ line.written]

def gapTokens (space : Option String) : List Html.Token :=
  space.toList.map .spaceCharacters

def blocksTokens (bs : List (Block × Option String)) : List Html.Token :=
  bs.flatMap fun b => b.1.tokens ++ gapTokens b.2

structure Page where
  /-- The attributes of the quotes around the blocks, the outermost first. -/
  quotes : List Html.Attributes
  /-- The space in front of the first block. -/
  leading : Option String
  blocks : List (Block × Option String)
  ne_nil : blocks ≠ []
  /-- No two lists follow each other. -/
  apart : blocks.IsChain fun b c => ¬(b.1.isList = true ∧ c.1.isList = true)
  /-- The last block is not a rule. -/
  closed : ∀ b ∈ blocks.getLast?, b.1.isRule = false

namespace Page

def depth (p : Page) : Nat := p.quotes.length

def tokens (p : Page) : List Html.Token :=
  p.quotes.map (.startTag "blockquote") ++ (gapTokens p.leading ++ blocksTokens p.blocks) ++
    List.replicate p.depth (.endTag "blockquote")

/-- The lines of the blocks, an empty one between two blocks. -/
def lines (o : Options) (p : Page) : List (List Char) :=
  List.intercalate [[]] (p.blocks.map fun b => b.1.lines o)

def markers (p : Page) : List Char := (List.replicate p.depth ['>', ' ']).flatten

def markdown (o : Options) (p : Page) : String :=
  String.ofList (Text.joinNewlines ((p.lines o).map (p.markers ++ ·)) ++ ['\n', '\n'])

end Page

end HtmlMarkdown
