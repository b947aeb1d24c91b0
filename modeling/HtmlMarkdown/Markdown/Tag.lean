/-!
# Tags of Markdown tokens

The kinds of Markdown tokens and the classes they fall into: how their data is rendered, which are
white space, which open or close a block, and which bring a line break of their own.
-/

namespace HtmlMarkdown.Markdown

inductive Tag where
  | anchorInline
  /-- A `[n]: href` line of the reference block. -/
  | anchorReference
  | anchorSimple
  | boldItalic
  | charactersAdded
  | charactersSplit
  | emphasis
  | endBlock
  | endBlockquote
  | endCode
  | endNativeBlock
  | headingStart
  | horizontalRule
  | image
  | listItemStart
  | newline
  | newlineBlank
  | newlineHard
  | space
  | startBlock
  | startBlockquote
  | startCode
  | startNativeBlock
  | strong
  | tab
  deriving DecidableEq, Repr

inductive RenderKind where
  /-- Markdown written as it is. -/
  | literal
  /-- Text of the document, escaped as character data. -/
  | text
  | space
  deriving DecidableEq, Repr

namespace Tag

def renderKind : Tag → RenderKind
  | charactersSplit => .text
  | space | tab | newline | newlineHard | newlineBlank => .space
  | startBlock | endBlock | startBlockquote | endBlockquote => .space
  | _ => .literal

def isSingleNewline : Tag → Bool
  | newline | newlineHard => true
  | _ => false

def isNewline : Tag → Bool
  | newline | newlineHard | newlineBlank => true
  | _ => false

def isWhitespace : Tag → Bool
  | space | tab | newline | newlineHard | newlineBlank => true
  | _ => false

def isBlockStart : Tag → Bool
  | startBlock | startBlockquote => true
  | _ => false

def isBlockEnd : Tag → Bool
  | endBlock | endBlockquote => true
  | _ => false

def opensOnNewLine : Tag → Bool
  | horizontalRule | headingStart | listItemStart => true
  | _ => false

def closesItsLine : Tag → Bool
  | horizontalRule => true
  | _ => false

theorem isNewline_of_isSingleNewline {t : Tag} (h : t.isSingleNewline = true) :
    t.isNewline = true := by
  cases t <;> simp_all [isSingleNewline, isNewline]

theorem isWhitespace_of_isNewline {t : Tag} (h : t.isNewline = true) :
    t.isWhitespace = true := by
  cases t <;> simp_all [isNewline, isWhitespace]

end Tag

end HtmlMarkdown.Markdown
