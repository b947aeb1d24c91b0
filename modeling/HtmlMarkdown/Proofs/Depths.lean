import HtmlMarkdown.Proofs.Nested
import Mathlib.Data.List.Forall2

/-!
# Quote depths

A quote counts where its element plays its part: not inside a sensitive element, whose content is
kept as it stands, and not inside a script that is left out. Every token of a conversion carries
the number of such quotes that are open behind the step that wrote it.
-/

namespace HtmlMarkdown.Conversion

open Html (Forest)
open Markdown (Token Mark edges scan quoteLevel)

variable {o : Options} {w : Window} {last : Option Token} {ctx : Context} {r : Reaction}
  {rest ts us : List Html.Token} {s s' : State}

/-- The number of quotes open behind each token of a forest, where `n` are open around it. -/
def quoteDepths (o : Options) (region : Region) (n : Nat) : Forest → List Nat
  | .nil => []
  | .text content rest => (Html.textTokens content).map (fun _ => n) ++ quoteDepths o region n rest
  | .comment _ rest => n :: quoteDepths o region n rest
  | .element name _ children rest =>
    if Html.isVoid name then n :: quoteDepths o region n rest
    else
      let inner := if Html.roleOf name = .quote ∧ region = .ordinary then n + 1 else n
      inner :: quoteDepths o (Region.inside o name children.tokens region) inner children ++
        n :: quoteDepths o region n rest

theorem length_quoteDepths (o : Options) (region : Region) (n : Nat) (f : Forest) :
    (quoteDepths o region n f).length = f.tokens.length := by
  induction f generalizing region n with
  | nil => rfl
  | text content f ih => simp [quoteDepths, Forest.tokens, ih]
  | comment content f ih => simp [quoteDepths, Forest.tokens, ih]
  | element name attributes children f ihc ih =>
    rw [quoteDepths, Forest.tokens]
    split_ifs <;> simp [ih, ihc]

/-- What the step writes carries a depth of so many quotes, or none for zero. -/
def WrittenAt (step : Html.Token × Reaction) (n : Nat) : Prop :=
  ∀ u ∈ step.2.written, u.quoteDepth = quoteLevel n

instance (step : Html.Token × Reaction) (n : Nat) : Decidable (WrittenAt step n) :=
  inferInstanceAs (Decidable (∀ u ∈ step.2.written, u.quoteDepth = quoteLevel n))

theorem Handles.writtenAt (h : Handles o w last ctx r) (t : Html.Token) {n : Nat}
    (hn : r.produced = [] ∨ r.context.blockquote = n) : WrittenAt (t, r) n := by
  intro u hu
  obtain ⟨v, hv, rfl⟩ := List.mem_map.mp hu
  have hdepth := Token.quoteDepth_within (h.forall_produced v hv).1 r.context.blockquote
  rcases hn with hnil | hn
  · rw [hnil] at hv
    cases hv
  · rw [← hn]
    exact hdepth

/-- Behind a start tag the quotes are open that its element gives to its content, unless it is the
tag of an empty pair, which writes nothing. -/
theorem quotes_startTag {name : String} {attributes : Html.Attributes} {after : List Html.Token}
    (hr : react o (s.window (.startTag name attributes) after) s.emitted.head? s.context = .ok r) :
    (r.context.blockquote =
      if Html.roleOf name = .quote ∧ s.context.region o = .ordinary then s.context.blockquote + 1
      else s.context.blockquote) ∨
    (s.window (.startTag name attributes) after).isEmptyPair name = true ∧ r.produced = [] := by
  by_cases hquote : Html.roleOf name = .quote ∧ s.context.region o = .ordinary
  · obtain rfl : name = "blockquote" := Html.name_of_ownName? (by rw [hquote.1]; rfl)
    rw [react_of_ordinary hquote.2] at hr
    cases hempty :
        (s.window (.startTag "blockquote" attributes) after).isEmptyPair "blockquote" with
    | true =>
      have htag := (tag_of_emptyPair rfl hempty).symm.trans hr
      cases htag
      exact .inr ⟨rfl, rfl⟩
    | false =>
      have htag := (tag_of_content rfl hempty).symm.trans hr
      have hopens : pairedTag o (s.window (.startTag "blockquote" attributes) after) s.context =
          quote true s.context := by
        simp [pairedTag, State.window, Html.Token.startTag, Html.Token.tagName, hquote.1]
      rw [hopens] at htag
      cases htag
      rw [if_pos hquote]
      exact .inl rfl
  · rw [if_neg hquote]
    exact .inl ((handles_of_react hr).quotes fun hp => hquote ⟨hp.role, hp.region⟩)

/-- Leaves are written at the depth in which they stand. -/
theorem depths_leaves (hts : ∀ t ∈ ts, t.IsLeaf) (h : Passes o rest s ts s')
    (htags : s.context.anchorAsTag ≤ s.context.anchor) :
    List.Forall₂ WrittenAt (s.trace o ts rest) (ts.map fun _ => s.context.blockquote) := by
  induction ts generalizing s with
  | nil => exact .nil
  | cons t ts ih =>
    cases h with
    | @cons _ _ _ _ r hr hrest =>
      have hres := Context.Resumes.of_leaf hr (hts t List.mem_cons_self) htags
      have hbehind := ih (fun u hu => hts u (List.mem_cons_of_mem t hu)) hrest hres.tags
      rw [State.context_accept, hres.blockquote_eq] at hbehind
      rw [Passes.trace_cons hr]
      exact .cons ((handles_of_react hr).writtenAt t (.inr hres.blockquote_eq)) hbehind

/-- A run of leaves in front of a forest does not change how deep the forest stands. -/
theorem depths_leaves_append {f : Forest} (hts : ∀ t ∈ ts, t.IsLeaf)
    (h : Passes o rest s (ts ++ f.tokens) s') (htags : s.context.anchorAsTag ≤ s.context.anchor)
    (hf : ∀ s₁, Passes o rest s₁ f.tokens s' → s₁.context.anchorAsTag ≤ s₁.context.anchor →
      List.Forall₂ WrittenAt (s₁.trace o f.tokens rest)
        (quoteDepths o (s₁.context.region o) s₁.context.blockquote f)) :
    List.Forall₂ WrittenAt (s.trace o (ts ++ f.tokens) rest)
      (ts.map (fun _ => s.context.blockquote) ++
        quoteDepths o (s.context.region o) s.context.blockquote f) := by
  obtain ⟨s₁, h₁, hres, h₂⟩ := h.of_leaves_append hts htags
  have hbehind := hf s₁ h₂ hres.tags
  rw [hres.region_eq, hres.blockquote_eq] at hbehind
  rw [h₁.trace_append]
  exact List.rel_append (depths_leaves hts h₁ htags) hbehind

/-- Every step on a forest writes at the depth behind it. -/
theorem Passes.depths {f : Forest} (h : Passes o rest s f.tokens s')
    (htags : s.context.anchorAsTag ≤ s.context.anchor) :
    List.Forall₂ WrittenAt (s.trace o f.tokens rest)
      (quoteDepths o (s.context.region o) s.context.blockquote f) := by
  induction f generalizing rest s s' with
  | nil => exact .nil
  | text content f ih =>
    exact depths_leaves_append (fun _ => Html.isLeaf_of_mem_textTokens) h htags
      fun _ h₁ htags₁ => ih h₁ htags₁
  | comment content f ih =>
    exact depths_leaves_append (List.forall_mem_singleton.mpr (Html.isLeaf_comment content)) h
      htags fun _ h₁ htags₁ => ih h₁ htags₁
  | element name attributes children f ihc ih =>
    cases hv : Html.isVoid name with
    | true =>
      rw [Forest.tokens, hv, if_pos rfl] at h ⊢
      rw [quoteDepths, hv, if_pos rfl]
      exact depths_leaves_append
        (List.forall_mem_singleton.mpr (Html.isLeaf_emptyTag attributes hv)) h htags
        fun _ h₁ htags₁ => ih h₁ htags₁
    | false =>
      obtain ⟨r, s₁, r', hr, htags₁, h₁, hr', hres₁, hres', -, hinside, h₂⟩ := h.of_element hv htags
      have hrest := ih h₂ hres'.tags
      rw [State.context_accept, hres'.region_eq, hres'.blockquote_eq] at hrest
      have hend := (handles_of_react hr').writtenAt (.endTag name) (.inr hres'.blockquote_eq)
      rw [trace_element hv hr h₁ hr', quoteDepths, hv, if_neg Bool.false_ne_true]
      have hstart := quotes_startTag hr
      rw [isEmptyPair_startTag] at hstart
      refine List.rel_append (.cons ?_ ?_) (.cons hend hrest)
      · exact (handles_of_react hr).writtenAt _ (hstart.symm.imp And.right id)
      · by_cases hempty : children.tokens = []
        · have hdepths (region : Region) (n : Nat) : quoteDepths o region n children = [] :=
            List.eq_nil_of_length_eq_zero (by rw [length_quoteDepths, hempty]; rfl)
          rw [hempty, hdepths]
          exact .nil
        · have hcontent := ihc h₁ htags₁
          have hdepth := hstart.resolve_right fun h => hempty (List.isEmpty_iff.mp h.1)
          rwa [State.context_accept, hinside hempty, hdepth] at hcontent

/-- The stream that steps make: each adds what it writes, some in the place of the last token. -/
def streamOf (steps : List (Html.Token × Reaction)) (ts : List Token) : List Token :=
  match steps with
  | [] => ts
  | (_, r) :: steps => streamOf steps ((if r.replacesLast then ts.dropLast else ts) ++ r.written)

theorem Passes.emitted_eq_streamOf (h : Passes o rest s ts s') :
    s'.emitted.reverse = streamOf (s.trace o ts rest) s.emitted.reverse := by
  induction h with
  | nil s => rfl
  | @cons s s' t ts r hr _ ih =>
    rw [trace_cons hr, streamOf, ih, State.emitted_accept]
    congr 2
    split_ifs
    · exact List.dropLast_reverse.symm
    · rfl

/-- The quotes, code and native elements of a conversion are well bracketed, and every step writes
its tokens with the depth behind it; the tokens of the steps make the stream, which the reference
block alone may follow. -/
theorem quotes_bracketed_and_counted (o : Options) (f : Forest) :
    ∃ s, ({} : State).run o f.tokens = (s, none) ∧ convert o f.tokens = .ok s.finished ∧
      scan [] (edges isInner s.finished) = some [] ∧
      s.finished = s.body ++
        (if s.context.references.isEmpty then [] else State.referenceBlock s.context.references) ∧
      s.body <+: streamOf (({} : State).trace o f.tokens []) [] ∧
      (({} : State).trace o f.tokens []).map Prod.fst = f.tokens ∧
      List.Forall₂ WrittenAt (({} : State).trace o f.tokens []) (quoteDepths o .ordinary 0 f) := by
  obtain ⟨s, hs, -⟩ := exists_passes_tokens o f [] {} (Nat.le_refl 0)
  have hword := hs.scan_inner (Nat.le_refl 0) []
  refine ⟨s, hs.run_nil, hs.convert_eq, (hs.scan_finished isInner []).trans hword, s.finished_eq,
    ?_, hs.map_fst_trace, ?_⟩
  · have hstream : s.emitted.reverse = streamOf (({} : State).trace o f.tokens []) [] :=
      hs.emitted_eq_streamOf
    exact hstream ▸ s.body_isPrefix
  · have hdepths := hs.depths (Nat.le_refl 0)
    have hregion : ({} : Context).region o = .ordinary :=
      Context.region_eq_ordinary_iff.mpr ⟨by simp, rfl⟩
    rwa [hregion] at hdepths

def quotesBegun (n : Nat) : List Html.Token → List Nat
  | [] => []
  | t :: ts =>
    let m := if t.isNamed .startTag "blockquote" then n + 1
      else if t.isNamed .endTag "blockquote" then n - 1 else n
    m :: quotesBegun m ts

/-- A quote in preformatted text is kept as it stands and not counted. -/
theorem uncounted_quote_in_pre :
    let f : Forest := .element "pre" ∅ (.element "blockquote" ∅ (.text "x" .nil) .nil) .nil
    let steps := ({} : State).trace {} f.tokens []
    steps.map Prod.fst = f.tokens ∧ quotesBegun 0 f.tokens = [0, 1, 1, 0, 0] ∧
      ¬List.Forall₂ WrittenAt steps (quotesBegun 0 f.tokens) := by
  decide +kernel

end HtmlMarkdown.Conversion
