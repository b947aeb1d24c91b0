import HtmlMarkdown.Conversion.Run
import HtmlMarkdown.Filter
import HtmlMarkdown.Html.Parse
import HtmlMarkdown.Markdown.Layout
import HtmlMarkdown.Markdown.Render
import HtmlMarkdown.Text.Utf8

/-!
# From HTML to Markdown

A converter has options, whose marks are sanitized, and filters. It turns HTML tokens into a laid
out Markdown stream (`adapt`) or into Markdown text (`render`), and HTML text into Markdown text.
HTML that is blank becomes the empty text.
-/

namespace HtmlMarkdown

inductive ConversionError where
  | internal (failure : Conversion.Failure)
  | invalidInput (fault : Text.Utf8.Fault)
  deriving DecidableEq, Repr

def ConversionError.message : ConversionError → String
  | internal failure => "Internal error: " ++ failure.message
  | invalidInput fault => "Invalid input: " ++ fault.message

structure Converter where
  options : Options
  filters : List Filter := []

namespace Converter

def ofOptions (o : Options) : Converter := { options := o.sanitized }

instance : Inhabited Converter := ⟨ofOptions {}⟩

def addFilter (c : Converter) (f : Filter) : Converter := { c with filters := c.filters ++ [f] }

/-- The Markdown tokens of an HTML token stream, laid out. -/
def adapt (c : Converter) (ts : List Html.Token) : Except ConversionError (List Markdown.Token) :=
  ((Conversion.convert c.options ts).map Markdown.layout).mapError .internal

def render (c : Converter) (ts : List Html.Token) : Except ConversionError String :=
  (c.adapt ts).map fun stream => Markdown.render (Filter.applyAll c.filters stream)

theorem adapt_of_convert {o : Options} {ts : List Html.Token} {out : List Markdown.Token}
    (h : Conversion.convert o.sanitized ts = .ok out) :
    (ofOptions o).adapt ts = .ok (Markdown.layout out) := by
  have hconvert : Conversion.convert (ofOptions o).options ts = .ok out := h
  rw [adapt, hconvert]
  rfl

theorem render_of_adapt {o : Options} {ts : List Html.Token} {out : List Markdown.Token}
    (h : (ofOptions o).adapt ts = .ok out) :
    (ofOptions o).render ts = .ok (Markdown.render out) := by
  rw [render, h]
  rfl

/-- Converts HTML text, its lines trimmed, by way of what a reader makes of it. -/
def transformWith (c : Converter) (read : String → Html.Forest) (html : String) :
    Except ConversionError String :=
  if Text.isBlank html then .ok "" else c.render (read (Text.trimLines html)).tokens

theorem transformWith_of_isBlank {html : String} (h : Text.isBlank html = true) (c : Converter)
    (read : String → Html.Forest) : c.transformWith read html = .ok "" := if_pos h

theorem transformWith_of_not_isBlank {html : String} (h : Text.isBlank html = false)
    (c : Converter) (read : String → Html.Forest) :
    c.transformWith read html = c.render (read (Text.trimLines html)).tokens :=
  if_neg (by simp [h])

def transform (c : Converter) (html : String) : Except ConversionError String :=
  c.transformWith Html.readFragment html

def transformDocument (c : Converter) (html : String) : Except ConversionError String :=
  c.transformWith Html.readDocument html

def transformBytes (c : Converter) (bytes : List UInt8) : Except ConversionError String :=
  ((Text.Utf8.decode bytes).mapError .invalidInput).bind c.transform

end Converter

def transform (html : String) : Except ConversionError String :=
  (Converter.ofOptions {}).transform html

end HtmlMarkdown
