import HtmlMarkdown.Conversion.Blocks
import HtmlMarkdown.Conversion.Context
import HtmlMarkdown.Conversion.Emphasis
import HtmlMarkdown.Conversion.Failure
import HtmlMarkdown.Conversion.Links
import HtmlMarkdown.Conversion.React
import HtmlMarkdown.Conversion.Reaction
import HtmlMarkdown.Conversion.References
import HtmlMarkdown.Conversion.Run
import HtmlMarkdown.Conversion.Sensitive
import HtmlMarkdown.Conversion.Space
import HtmlMarkdown.Conversion.Window
import HtmlMarkdown.Converter
import HtmlMarkdown.Filter
import HtmlMarkdown.Html.Builder
import HtmlMarkdown.Html.Element
import HtmlMarkdown.Html.Forest
import HtmlMarkdown.Html.Lexeme
import HtmlMarkdown.Html.Parse
import HtmlMarkdown.Html.Reference
import HtmlMarkdown.Html.Token
import HtmlMarkdown.Markdown.Build
import HtmlMarkdown.Markdown.CodeRegion
import HtmlMarkdown.Markdown.Layout
import HtmlMarkdown.Markdown.Render
import HtmlMarkdown.Markdown.Spacing
import HtmlMarkdown.Markdown.Tag
import HtmlMarkdown.Markdown.Token
import HtmlMarkdown.Notice
import HtmlMarkdown.Options
import HtmlMarkdown.OrderedMap
import HtmlMarkdown.Proofs.Nesting
import HtmlMarkdown.Proofs.Passage
import HtmlMarkdown.Text.Blank
import HtmlMarkdown.Text.Escape
import HtmlMarkdown.Text.Flow
import HtmlMarkdown.Text.Invisible
import HtmlMarkdown.Text.Lines
import HtmlMarkdown.Text.Quoted
import HtmlMarkdown.Text.Utf8
import HtmlMarkdown.Proofs.Region
import HtmlMarkdown.Proofs.Balance
import HtmlMarkdown.Proofs.Written
import HtmlMarkdown.Proofs.Brackets
import HtmlMarkdown.Proofs.Coherence
import HtmlMarkdown.Proofs.Lines
import HtmlMarkdown.Proofs.Settling
import HtmlMarkdown.Proofs.Placement
import HtmlMarkdown.Proofs.Ink
import HtmlMarkdown.Proofs.Carried
import HtmlMarkdown.Proofs.Shown
import HtmlMarkdown.Proofs.TextKept
import HtmlMarkdown.Proofs.PageText
import HtmlMarkdown.Proofs.PageStream
import HtmlMarkdown.Proofs.Citations
import HtmlMarkdown.Proofs.Handling
import HtmlMarkdown.Proofs.Trace
import HtmlMarkdown.Proofs.Frames
import HtmlMarkdown.Proofs.Nested
import HtmlMarkdown.Proofs.Continuation
import HtmlMarkdown.Proofs.Depths
import HtmlMarkdown.Proofs.Prose
import HtmlMarkdown.Proofs.BlankLines
import HtmlMarkdown.Proofs.Crowding
import HtmlMarkdown.Proofs.Trimming
import HtmlMarkdown.Proofs.Yield
import HtmlMarkdown.Proofs.Admission
import HtmlMarkdown.Proofs.Ahead
import HtmlMarkdown.Proofs.Muted
import HtmlMarkdown.Proofs.Splice
import HtmlMarkdown.Proofs.Lookahead
import HtmlMarkdown.Proofs.Replacement
import HtmlMarkdown.Proofs.Laid
import HtmlMarkdown.Proofs.Emitted
import HtmlMarkdown.Proofs.Scripts
import HtmlMarkdown.Proofs.Angles
import HtmlMarkdown.Proofs.Escaping
import HtmlMarkdown.Proofs.LineHeads
import HtmlMarkdown.Proofs.AnchorTags
import HtmlMarkdown.Proofs.Flowing
import HtmlMarkdown.Proofs.Drafting
import HtmlMarkdown.Proofs.Slack
import HtmlMarkdown.Proofs.HardBreaks
import HtmlMarkdown.Proofs.Parting
import HtmlMarkdown.Proofs.TextRuns
import HtmlMarkdown.Proofs.BasicTags
import HtmlMarkdown.Proofs.WordsApart
import HtmlMarkdown.Proofs.Wrapper
import HtmlMarkdown.Proofs.Relabelling
import HtmlMarkdown.Proofs.Bystanders
import HtmlMarkdown.Proofs.MarkChoice
import HtmlMarkdown.Proofs.RawText
import HtmlMarkdown.Proofs.ScriptText
import HtmlMarkdown.Proofs.SmoothText
import HtmlMarkdown.Proofs.ReadBack
import HtmlMarkdown.Proofs.PlainFragment
import HtmlMarkdown.Proofs.RoundTrip
import HtmlMarkdown.Proofs.Rebuilding
import HtmlMarkdown.Proofs.CodeSpacing
import HtmlMarkdown.Proofs.Preformatted
import HtmlMarkdown.Proofs.CodeBlocks
import HtmlMarkdown.Proofs.Fixed
import HtmlMarkdown.Proofs.NativeCode
import HtmlMarkdown.Proofs.CodeRegions
import HtmlMarkdown.Proofs.Walls
import HtmlMarkdown.Proofs.NativeContent
import HtmlMarkdown.Proofs.Alike
import HtmlMarkdown.Proofs.NativeEdges
import HtmlMarkdown.Proofs.Around
import HtmlMarkdown.Proofs.ItemNumbers
import HtmlMarkdown.Proofs.EmphasisWord
import HtmlMarkdown.Proofs.EmphasisPairs
import HtmlMarkdown.Proofs.FirstSteps
import HtmlMarkdown.Proofs.Mirrors
import HtmlMarkdown.Proofs.Resemblance
import HtmlMarkdown.Proofs.TwoAhead
import HtmlMarkdown.Proofs.NormalSpace
import HtmlMarkdown.Proofs.LinePieces
import HtmlMarkdown.Proofs.TakenText
import HtmlMarkdown.Proofs.Phrasing
import HtmlMarkdown.Proofs.HeadingLine
import HtmlMarkdown.Proofs.FoldedText
import HtmlMarkdown.Proofs.NewlineRuns
import HtmlMarkdown.Proofs.Titles
import HtmlMarkdown.Proofs.BareLinks
import HtmlMarkdown.Proofs.TakenOnce
import HtmlMarkdown.Proofs.Rewinding
import HtmlMarkdown.Proofs.FirstToken
import HtmlMarkdown.Proofs.FirstLine
