import HtmlMarkdown.Proofs.Carried

/-!
# Shown text

The text of a document reaches a stream as raw characters, as pieces of text cut at newlines, and
inside of links. The spacing pass takes none of it away, adds none and keeps its order, whatever
the stream.
-/

namespace HtmlMarkdown.Markdown

/-- What a token shows of the text of a document. -/
inductive Shown where
  | text (cs : List Char)
  /-- A link, by its Markdown. -/
  | link (markdown : String)
  deriving DecidableEq, Repr

def Token.shown? (t : Token) : Option Shown :=
  match t.node with
  | .markdown .charactersSplit data => some (.text data.toList)
  | .markdown .anchorInline data => some (.link data)
  | .html raw => if raw.kind = .characters then some (.text raw.content.toList) else none
  | _ => none

def shown (ts : List Token) : List Shown := ts.filterMap Token.shown?

variable {t : Token} {ts : List Token}

theorem Token.shown?_of_node {u : Token} (h : u.node = t.node) : u.shown? = t.shown? := by
  unfold Token.shown?
  rw [h]

@[simp] theorem Token.shown?_within (t : Token) (depth : Option Nat) :
    (t.within depth).shown? = t.shown? := Token.shown?_of_node (Token.node_within t depth)

theorem Token.shown?_of_tag {tag : Tag} (h : t.tag? = some tag) (hsplit : tag ≠ .charactersSplit)
    (hlink : tag ≠ .anchorInline) : t.shown? = none := by
  obtain ⟨node, depth, flag⟩ := t
  cases node with
  | markdown tag' data =>
    obtain rfl : tag' = tag := by simpa [Token.tag?] using h
    unfold Token.shown?
    cases tag' <;> first | rfl | contradiction
  | native edge raw => rfl
  | html raw => simp [Token.tag?] at h

theorem Token.shown?_of_isWhitespace {tag : Tag} (h : t.tag? = some tag)
    (hw : tag.isWhitespace = true) : t.shown? = none := by
  apply Token.shown?_of_tag h <;> rintro rfl <;> cases hw

theorem shown_append (us : List Token) : shown (ts ++ us) = shown ts ++ shown us :=
  List.filterMap_append

theorem shown_reverse (ts : List Token) : shown ts.reverse = (shown ts).reverse :=
  List.filterMap_reverse

theorem shown_cons (t : Token) (ts : List Token) :
    shown (t :: ts) = t.shown?.toList ++ shown ts :=
  filterMap_cons_eq Token.shown? t ts

theorem shown_cons_of_none (h : t.shown? = none) (ts : List Token) :
    shown (t :: ts) = shown ts := by
  rw [shown_cons, h]
  rfl

theorem shown_flatMap_of_none {α : Type} {f : α → List Token} (h : ∀ a, shown (f a) = [])
    (as : List α) : shown (as.flatMap f) = [] := by
  induction as with
  | nil => rfl
  | cons a as ih => rw [List.flatMap_cons, shown_append, h, ih, List.append_nil]

theorem passive_shown? : Passive Token.shown? where
  node t u h := Token.shown?_of_node h
  whitespace t tag ht hw := Token.shown?_of_isWhitespace ht hw
  mark t tag ht hm _ := by
    apply Token.shown?_of_tag ht <;> rintro rfl <;> cases hm
  delimiter := rfl
  rawSpace t raw hnode hk := by simp [Token.shown?, hnode, hk]

theorem Token.shown?_of_isNewline (h : t.isNewline = true) : t.shown? = none :=
  passive_shown?.blind.of_isNewline h

/-- The spacing pass keeps the text that a stream shows. -/
theorem shown_space (ts : List Token) : shown (space ts) = shown ts := passive_shown?.space ts

end HtmlMarkdown.Markdown
