import HtmlMarkdown.Proofs.Balance
import HtmlMarkdown.Proofs.Ink
import HtmlMarkdown.Proofs.Shown

/-!
# Kept text

`keptText` is the character data of a forest outside of scripts that are left out, and `linkTexts`
are the texts of its links, in order. `Conveys` relates what a stream shows to both: its links are
made of these texts, and where each link is read as its text, the ink is that of the kept text.
-/

namespace HtmlMarkdown.Conversion

open Html (Forest)
open Markdown (Token Shown shown)
open Text (ink)

def charactersOf (ts : List Html.Token) : List Char :=
  (ts.filter (·.kind == .characters)).flatMap (·.content.toList)

def keptCharacters (region : Region) (ts : List Html.Token) : List Char :=
  if region = .stripped then [] else charactersOf ts

def keptText (o : Options) : Region → Forest → List Char
  | _, .nil => []
  | region, .text content rest =>
    keptCharacters region (Html.textTokens content) ++ keptText o region rest
  | region, .comment _ rest => keptText o region rest
  | region, .element name _ children rest =>
    (if Html.isVoid name then []
      else keptText o (Region.inside o name children.tokens region) children) ++
      keptText o region rest

def flatText? (f : Forest) : Option String :=
  match f.tokens with
  | [t] => if t.kind = .characters then some t.content else none
  | _ => none

def linkText? (o : Options) (region : Region) (name : String) (attributes : Html.Attributes)
    (children : Forest) : Option String :=
  if region = .ordinary ∧ name = "a" ∧ o.anchorsAsTags = false ∧
      ((Html.Token.startTag name attributes).filledAttribute? "href").isSome then
    (flatText? children).map (Text.flow true)
  else none

def linkTexts (o : Options) : Region → Forest → List String
  | _, .nil => []
  | region, .text _ rest => linkTexts o region rest
  | region, .comment _ rest => linkTexts o region rest
  | region, .element name attributes children rest =>
    (if Html.isVoid name then []
      else (linkText? o region name attributes children).elim
        (linkTexts o (Region.inside o name children.tokens region) children) ([·])) ++
      linkTexts o region rest

/-- The link is this text in brackets, with an address and maybe a title in parentheses behind it,
or with the number of a reference in brackets. -/
def BuiltFrom (markdown text : String) : Prop :=
  (∃ href title, (title = "" ∨ ∃ escaped, title = " \"" ++ escaped ++ "\"") ∧
      markdown = "[" ++ text ++ "](" ++ href ++ title ++ ")") ∨
    ∃ n : Nat, markdown = "[" ++ text ++ "][" ++ toString n ++ "]"

def linksOf (items : List Shown) : List String :=
  items.filterMap fun
    | .text _ => none
    | .link markdown => some markdown

/-- The text that is shown, where the links are read as the texts they are made of. -/
def readText : List String → List Shown → List Char
  | _, [] => []
  | texts, .text cs :: items => cs ++ readText texts items
  | [], .link _ :: items => readText [] items
  | text :: texts, .link _ :: items => text.toList ++ readText texts items

/-- The items show this ink, with links made of these texts. -/
inductive Conveys : List Shown → List String → List Char → Prop
  | nil : Conveys [] [] []
  | text {items : List Shown} {texts : List String} {cs : List Char} (ds : List Char)
      (h : Conveys items texts cs) : Conveys (.text ds :: items) texts (ink ds ++ cs)
  | link {items : List Shown} {texts : List String} {cs : List Char} {markdown text : String}
      (hb : BuiltFrom markdown text) (h : Conveys items texts cs) :
      Conveys (.link markdown :: items) (text :: texts) (ink text.toList ++ cs)

namespace Conveys

variable {items items' : List Shown} {texts texts' : List String} {cs cs' : List Char}

theorem append (h : Conveys items texts cs) (h' : Conveys items' texts' cs') :
    Conveys (items ++ items') (texts ++ texts') (cs ++ cs') := by
  induction h with
  | nil => exact h'
  | text ds _ ih =>
    rw [List.append_assoc]
    exact .text ds ih
  | link hb _ ih =>
    rw [List.append_assoc]
    exact .link hb ih

theorem links_built (h : Conveys items texts cs) :
    List.Forall₂ BuiltFrom (linksOf items) texts := by
  induction h with
  | nil => exact .nil
  | text ds _ ih => exact ih
  | link hb _ ih => exact .cons hb ih

theorem ink_readText (h : Conveys items texts cs) : ink (readText texts items) = cs := by
  induction h with
  | nil => rfl
  | text ds _ ih => rw [readText, Text.ink_append, ih]
  | link hb _ ih => rw [readText, Text.ink_append, ih]

end Conveys

theorem charactersOf_append (ts us : List Html.Token) :
    charactersOf (ts ++ us) = charactersOf ts ++ charactersOf us := by
  simp [charactersOf]

theorem charactersOf_cons_of_ne {t : Html.Token} (h : t.kind ≠ .characters)
    (ts : List Html.Token) : charactersOf (t :: ts) = charactersOf ts := by
  simp [charactersOf, h]

theorem keptCharacters_nil (region : Region) : keptCharacters region [] = [] := by
  unfold keptCharacters
  split_ifs <;> rfl

theorem keptCharacters_of_ne (region : Region) {t : Html.Token} (h : t.kind ≠ .characters) :
    keptCharacters region [t] = [] := by
  rw [keptCharacters, charactersOf_cons_of_ne h]
  split_ifs <;> rfl

theorem keptCharacters_append (region : Region) (ts us : List Html.Token) :
    keptCharacters region (ts ++ us) = keptCharacters region ts ++ keptCharacters region us := by
  unfold keptCharacters
  split_ifs
  · rfl
  · exact charactersOf_append ts us

/-- Where there are no tags and no comments, all texts are kept and there are no links. -/
theorem kept_of_texts (o : Options) (region : Region) {f : Forest}
    (h : ∀ t ∈ f.tokens, t.kind = .characters ∨ t.kind = .spaceCharacters) :
    keptText o region f = keptCharacters region f.tokens ∧ linkTexts o region f = [] := by
  induction f with
  | nil => exact ⟨(keptCharacters_nil region).symm, rfl⟩
  | text content rest ih =>
    obtain ⟨hkept, hlinks⟩ := ih fun t ht => h t (by simp [Forest.tokens, ht])
    refine ⟨?_, hlinks⟩
    rw [keptText, Forest.tokens, keptCharacters_append, hkept]
  | comment content rest _ =>
    have hk := h (.comment content) (by simp [Forest.tokens])
    simp [Html.Token.comment] at hk
  | element name attributes children rest _ _ =>
    cases hv : Html.isVoid name with
    | true =>
      have hk := h (.emptyTag name attributes) (by simp [Forest.tokens, hv])
      simp [Html.Token.emptyTag] at hk
    | false =>
      have hk := h (.startTag name attributes) (by simp [Forest.tokens, hv])
      simp [Html.Token.startTag] at hk

/-- An element without content has no text and no links, in whatever region. -/
theorem kept_inside {o : Options} {children : Forest} {region inner : Region}
    (h : children.tokens ≠ [] → region = inner) :
    keptText o region children = keptText o inner children ∧
      linkTexts o region children = linkTexts o inner children := by
  by_cases hnil : children.tokens = []
  · have htexts (region : Region) := kept_of_texts o region (f := children) (by simp [hnil])
    have hkept (region : Region) : keptText o region children = [] := by
      rw [(htexts region).1, hnil, keptCharacters_nil]
    rw [hkept, hkept, (htexts region).2, (htexts inner).2]
    exact ⟨rfl, rfl⟩
  · rw [h hnil]
    exact ⟨rfl, rfl⟩

theorem ordinary_of_linkText? {o : Options} {name : String} {region : Region}
    {attributes : Html.Attributes} {children : Forest} {text : String}
    (h : linkText? o region name attributes children = some text) :
    region = .ordinary ∧ name = "a" := by
  unfold linkText? at h
  split_ifs at h with hlink
  exact ⟨hlink.1, hlink.2.1⟩

theorem roleOf_a : Html.roleOf "a" = .anchor := by decide

theorem inside_anchor (o : Options) (ts : List Html.Token) :
    Region.inside o "a" ts .ordinary = .ordinary := by
  simp [Region.inside, roleOf_a]

end HtmlMarkdown.Conversion
