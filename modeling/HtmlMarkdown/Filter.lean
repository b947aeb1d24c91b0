import HtmlMarkdown.Markdown.Token

/-!
# Filters

A filter is a named change to a finished token stream, made before it is rendered.
-/

namespace HtmlMarkdown

structure Filter where
  name : String
  apply : List Markdown.Token → List Markdown.Token

namespace Filter

def retain (name : String) (p : Markdown.Token → Bool) : Filter := ⟨name, List.filter p⟩

def map (name : String) (f : Markdown.Token → Markdown.Token) : Filter := ⟨name, List.map f⟩

def applyAll (filters : List Filter) (ts : List Markdown.Token) : List Markdown.Token :=
  filters.foldl (fun ts filter => filter.apply ts) ts

end Filter

end HtmlMarkdown
