import HtmlMarkdown.Proofs.Around

/-!
# The markers of emphasis by structure

An emphasis that plays its part is single, or it is one half of a pair: the outer one holds the
other kind of emphasis, with content, and no other tokens. A single one is written with its own
marker at both ends. A pair has one marker where the outer one begins and one where the inner one
ends. The word of all the markers of a forest is well nested.
-/

namespace HtmlMarkdown.Html

/-- The name and the content of the element that is all of a forest, which may have texts without
tokens in front of it. -/
def Forest.sole? : Forest → Option (String × Forest)
  | .nil => none
  | .text content rest => if textTokens content = [] then rest.sole? else none
  | .comment _ _ => none
  | .element name _ children rest =>
    if isVoid name ∨ rest.tokens ≠ [] then none else some (name, children)

def Forest.isEmphasis (strong : Bool) (f : Forest) : Bool :=
  f.sole?.any fun (name, children) =>
    roleOf name = .emphasis strong ∧ children.tokens ≠ []

/-- A forest has no tokens, or begins with one that is no start tag, or with an element. -/
theorem Forest.tokens_cases (f : Forest) :
    f.tokens = [] ∧ f.sole? = none ∨
      (∃ t ts, f.tokens = t :: ts ∧ t.kind ≠ .startTag ∧ f.sole? = none) ∨
      ∃ (name : String) (attributes : Attributes) (children g : Forest), f.tokens =
          .startTag name attributes :: (children.tokens ++ .endTag name :: g.tokens) ∧
        f.sole? = if g.tokens = [] then some (name, children) else none := by
  induction f with
  | nil => exact .inl ⟨rfl, rfl⟩
  | text content f ih =>
    rw [tokens, sole?]
    cases htext : textTokens content with
    | nil => simpa using ih
    | cons t ts =>
      have hk := (isLeaf_of_mem_textTokens (htext ▸ List.mem_cons_self)).startTag
      exact .inr (.inl ⟨t, ts ++ f.tokens, rfl, hk, if_neg (List.cons_ne_nil t ts)⟩)
  | comment content f _ => exact .inr (.inl ⟨_, _, rfl, (isLeaf_comment content).startTag, rfl⟩)
  | element name attributes children f _ _ =>
    rw [tokens, sole?]
    cases hv : isVoid name with
    | true => exact .inr (.inl ⟨_, _, rfl, (isLeaf_emptyTag attributes hv).startTag, rfl⟩)
    | false =>
      refine .inr (.inr ⟨name, attributes, children, f, rfl, ?_⟩)
      by_cases hf : f.tokens = [] <;> simp [hf]

theorem Forest.three_le_of_isEmphasis {strong : Bool} {f : Forest}
    (h : f.isEmphasis strong = true) : 3 ≤ f.tokens.length := by
  unfold isEmphasis at h
  rcases f.tokens_cases with ⟨-, hsole⟩ | ⟨t, ts, -, -, hsole⟩ |
    ⟨name, attributes, children, g, htokens, hsole⟩
  · simp [hsole] at h
  · simp [hsole] at h
  · rw [hsole] at h
    split_ifs at h
    · have hne : children.tokens ≠ [] := (of_decide_eq_true h).2
      have hpos := List.length_pos_iff.mpr hne
      rw [htokens]
      simp only [List.length_cons, List.length_append]
      omega
    · cases h

end HtmlMarkdown.Html

namespace HtmlMarkdown.Conversion

open Html (Forest)
open Markdown (Edge Token)

inductive Marker where
  | emphasis
  | strong
  | boldItalic
  deriving DecidableEq, Repr

def Marker.own (strong : Bool) : Marker := if strong then .strong else .emphasis

def marker? (t : Token) : Option Marker :=
  match t.tag? with
  | some .emphasis => some .emphasis
  | some .strong => some .strong
  | some .boldItalic => some .boldItalic
  | _ => none

/-- The part that an element of emphasis plays: alone, or in a pair. -/
inductive Part where
  | single (strong : Bool)
  | outer
  | inner
  deriving DecidableEq, Repr

def Part.word : Part → Edge → List (Edge × Marker)
  | single strong, edge => [(edge, .own strong)]
  | outer, .opening => [(.opening, .boldItalic)]
  | inner, .closing => [(.closing, .boldItalic)]
  | outer, .closing | inner, .opening => []

/-- The part of an element, which may stand where the inner one of a pair does. There is none for
elements other than emphasis, for those without content, and for those that are kept or left out
with what they stand in. -/
def part? (name : String) (region : Region) (isInner : Bool) (children : Forest) : Option Part :=
  match Html.roleOf name with
  | .emphasis strong =>
    if region = .ordinary ∧ children.tokens ≠ [] then
      some (if isInner then .inner
        else if children.isEmphasis (!strong) then .outer else .single strong)
    else none
  | _ => none

def wordAt (part : Option Part) (edge : Edge) : List (Edge × Marker) := part.elim [] (·.word edge)

def emphasisWord (o : Options) (region : Region) (isInner : Bool) :
    Forest → List (List (Edge × Marker))
  | .nil => []
  | .text content rest =>
    List.replicate (Html.textTokens content).length [] ++ emphasisWord o region isInner rest
  | .comment _ rest => [] :: emphasisWord o region isInner rest
  | .element name _ children rest =>
    if Html.isVoid name then [] :: emphasisWord o region isInner rest
    else
      let part := part? name region isInner children
      wordAt part .opening ::
          emphasisWord o (Region.inside o name children.tokens region) (part = some .outer)
            children ++
        wordAt part .closing :: emphasisWord o region false rest

/-- A word in which every marker that opens is closed by the same marker, one inside another. -/
inductive Nests : List (Edge × Marker) → Prop
  | nil : Nests []
  | pair {v w : List (Edge × Marker)} (hv : Nests v) (m : Marker) (hw : Nests w) :
      Nests ((.opening, m) :: v ++ (.closing, m) :: w)

variable {o : Options} {region : Region} {isInner : Bool} {name : String}
  {attributes : Html.Attributes} {children f : Forest}

theorem length_emphasisWord (f : Forest) :
    (emphasisWord o region isInner f).length = f.tokens.length := by
  induction f generalizing region isInner with
  | nil => rfl
  | text content f ih => simp [emphasisWord, Forest.tokens, ih]
  | comment content f ih => simp [emphasisWord, Forest.tokens, ih]
  | element name attributes children f ihc ih =>
    rw [emphasisWord, Forest.tokens]
    split_ifs <;> simp [ih, ihc]

theorem part?_inside (hreg : region ≠ .ordinary) : part? name region isInner children = none := by
  unfold part?
  split
  · exact if_neg fun h => hreg h.1
  · rfl

/-- Where an element does not play its part, no emphasis inside of it does. -/
theorem emphasisWord_inside (hreg : region ≠ .ordinary) (f : Forest) :
    emphasisWord o region isInner f = List.replicate f.tokens.length [] := by
  induction f generalizing isInner with
  | nil => rfl
  | text content f ih => simp [emphasisWord, Forest.tokens, ih]
  | comment content f ih => simp [emphasisWord, Forest.tokens, ih, List.replicate_succ]
  | element name attributes children f ihc ih =>
    rw [emphasisWord, Forest.tokens]
    split_ifs
    · rw [ih, List.length_cons, List.replicate_succ]
    · dsimp only
      rw [part?_inside hreg, Region.inside_of_not_ordinary hreg, ihc, ih, List.cons_append,
        List.cons_append, List.length_cons, List.length_append, List.length_cons,
        List.replicate_succ, ← List.replicate_append_replicate, List.replicate_succ]
      rfl

theorem part?_ordinary (name : String) (isInner : Bool) (children : Forest) :
    (part? name .ordinary isInner children = none ∧
      ∀ strong, Html.roleOf name = .emphasis strong → children.tokens = []) ∨
    ∃ strong, Html.roleOf name = .emphasis strong ∧ children.tokens ≠ [] ∧
      part? name .ordinary isInner children = some (if isInner then .inner
        else if children.isEmphasis (!strong) then .outer else .single strong) := by
  unfold part?
  split
  · next strong hrole =>
    by_cases hne : children.tokens = []
    · exact .inl ⟨if_neg fun h => h.2 hne, fun _ _ => hne⟩
    · exact .inr ⟨strong, hrole, hne, if_pos ⟨rfl, hne⟩⟩
  · next hrole => exact .inl ⟨rfl, fun strong h => absurd h (hrole strong)⟩

theorem Nests.append {v w : List (Edge × Marker)} (hv : Nests v) (hw : Nests w) :
    Nests (v ++ w) := by
  induction hv with
  | nil => exact hw
  | @pair u v hu m _ _ ih =>
    rw [List.append_assoc, List.cons_append]
    exact hu.pair m ih

theorem isEmphasis_element {strong : Bool}
    (h : (Forest.element name attributes children f).isEmphasis strong = true) :
    Html.isVoid name = false ∧ f.tokens = [] ∧ Html.roleOf name = .emphasis strong ∧
      children.tokens ≠ [] := by
  unfold Forest.isEmphasis Forest.sole? at h
  split_ifs at h with hnone
  · cases h
  · have hrole := of_decide_eq_true h
    simp only [not_or, Bool.not_eq_true, not_not] at hnone
    exact ⟨hnone.1, hnone.2, hrole⟩

theorem isEmphasis_text {strong : Bool} {content : String}
    (h : (Forest.text content f).isEmphasis strong = true) :
    Html.textTokens content = [] ∧ f.isEmphasis strong = true := by
  unfold Forest.isEmphasis Forest.sole? at h
  split_ifs at h with htext
  · exact ⟨htext, h⟩
  · cases h

/-- The word of a forest is well nested; that of an inner one lacks the marker that opens it. -/
theorem nests_emphasisWord (o : Options) (f : Forest) :
    (∀ region, Nests (emphasisWord o region false f).flatten) ∧
      ∀ strong, f.isEmphasis strong = true → ∃ v, Nests v ∧
        (emphasisWord o .ordinary true f).flatten = v ++ [(.closing, .boldItalic)] := by
  induction f with
  | nil => exact ⟨fun _ => .nil, fun strong h => by cases h⟩
  | text content f ih =>
    simp only [emphasisWord, List.flatten_append, List.flatten_replicate_nil, List.nil_append]
    exact ⟨ih.1, fun strong h => ih.2 strong (isEmphasis_text h).2⟩
  | comment content f ih => exact ⟨ih.1, fun strong h => by cases h⟩
  | element name attributes children f ihc ih =>
    refine ⟨fun region => ?_, fun strong h => ?_⟩
    · rw [emphasisWord]
      split_ifs
      · exact ih.1 region
      have hrest := ih.1 region
      have hcontent := ihc.1 (Region.inside o name children.tokens region)
      dsimp only
      rw [List.flatten_append, List.flatten_cons, List.flatten_cons]
      by_cases hreg : region = .ordinary
      swap
      · rw [part?_inside hreg]
        exact hcontent.append hrest
      subst hreg
      rcases part?_ordinary name false children with ⟨hnone, -⟩ | ⟨strong, hrole, -, hpart⟩
      · rw [hnone]
        exact hcontent.append hrest
      rw [hpart]
      cases hf : children.isEmphasis (!strong) with
      | true =>
        obtain ⟨v, hv, hword⟩ := ihc.2 (!strong) hf
        have hin : Region.inside o name children.tokens .ordinary = .ordinary := by
          simp [Region.inside, hrole]
        have hpair := hv.pair .boldItalic hrest
        rw [hin]
        simpa [wordAt, Part.word, hword] using hpair
      | false => exact hcontent.pair (.own strong) hrest
    · obtain ⟨hv, hrest, hrole, hne⟩ := isEmphasis_element h
      have hpart : part? name .ordinary true children = some .inner := by
        simp [part?, hrole, hne]
      have hnil : emphasisWord o .ordinary false f = [] :=
        List.eq_nil_of_length_eq_zero (by rw [length_emphasisWord, hrest]; rfl)
      rw [emphasisWord, hv, if_neg Bool.false_ne_true, hpart, hnil]
      refine ⟨_, ihc.1 (Region.inside o name children.tokens .ordinary), ?_⟩
      rw [List.flatten_append]
      rfl

end HtmlMarkdown.Conversion
