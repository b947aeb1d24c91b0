import HtmlMarkdown.OrderedMap

/-!
# References

The targets of reference-style links and images, numbered from one in the order in which their
addresses first came up. An address that comes again keeps its number and its first title.
-/

namespace HtmlMarkdown.Conversion

structure References where
  targets : OrderedMap String (Option String) := ∅
  deriving DecidableEq, Repr

namespace References

def isEmpty (r : References) : Bool := r.targets.isEmpty

/-- The number that an address has or would get. -/
def number (r : References) (href : String) : Nat :=
  match r.targets.indexOf? href with
  | some index => index + 1
  | none => r.targets.size + 1

def register (r : References) (href : String) (title : Option String) : References :=
  { targets := r.targets.insertNew href title }

def entriesFrom (first : Nat) :
    List (String × Option String) → List (Nat × String × Option String)
  | [] => []
  | (href, title) :: rest => (first, href, title) :: entriesFrom (first + 1) rest

def entries (r : References) : List (Nat × String × Option String) :=
  entriesFrom 1 r.targets.entries

end References

end HtmlMarkdown.Conversion
