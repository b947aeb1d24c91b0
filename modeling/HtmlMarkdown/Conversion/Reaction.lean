import HtmlMarkdown.Conversion.Context
import HtmlMarkdown.Markdown.Build
import HtmlMarkdown.Notice

/-!
# Reactions

What one input token leads to: the context after it, the Markdown tokens it produces, whether the
first of them takes the place of the token emitted last, and what there is to say about it.
-/

namespace HtmlMarkdown.Conversion

structure Reaction where
  context : Context
  produced : List Markdown.Token := []
  replacesLast : Bool := false
  notices : List Notice := []
  deriving DecidableEq, Repr

namespace Reaction

def quiet (context : Context) : Reaction := { context }

def emit (context : Context) (produced : List Markdown.Token) : Reaction := { context, produced }

def remark (context : Context) (notice : Notice) : Reaction := { context, notices := [notice] }

end Reaction

end HtmlMarkdown.Conversion
