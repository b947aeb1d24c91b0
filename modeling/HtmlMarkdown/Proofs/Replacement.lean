import HtmlMarkdown.Converter
import HtmlMarkdown.Proofs.Lookahead

/-!
# Replacing a piece of a stream

Two streams that differ in one piece are converted side by side, in three parts: in front of the
piece both are at the same position, the two pieces lead to parallel states, and behind them the
positions differ by the lengths of the pieces. So the results are equal. For a script that is left
out this is so whatever it holds: its content has no influence on a conversion.
-/

namespace HtmlMarkdown.Conversion

open Html (WellNested scriptTokens)
open Markdown (Token)

/-- Two states that differ in their positions, in what is decided ahead and in their notices. -/
structure Parallel (start m m' : Nat) (s s' : State) : Prop where
  before : s'.before = s.before
  emitted : s'.emitted = s.emitted
  context : s'.context = s.context.withAhead s'.context.ahead
  aligned : Aligned start m m' s.context.ahead s'.context.ahead

variable {start m m' q : Nat} {o : Options} {s s' : State} {t : Html.Token}
  {us post ts ts' piece piece' : List Html.Token}

namespace Parallel

theorem finished_eq (h : Parallel start m m' s s') : s'.finished = s.finished := by
  have hrefs : s'.context.references = s.context.references := by
    rw [h.context, Context.references_withAhead]
  simp only [State.finished, h.emitted, hrefs]

theorem sensitive_eq (h : Parallel start m m' s s') :
    s'.context.sensitive = s.context.sensitive := by
  rw [h.context, Context.sensitive_withAhead]

theorem accept (h : Parallel start m m' s s') (t : Html.Token) (r : Reaction) {a : Ahead}
    (ha : Aligned start m m' r.context.ahead a) :
    Parallel start m m' (s.accept t r) (s'.accept t (r.withAhead a)) where
  before := rfl
  emitted := by
    simp only [State.accept, Reaction.withAhead, h.emitted]
    rfl
  context := rfl
  aligned := ha

/-- At windows that look alike both states fail alike, or both go on side by side. -/
theorem step (h : Parallel start m m' s s')
    (hw : Alike start m m' (s.window t ts) (s'.window t ts')) :
    (∃ f, s.step o t ts = .error f ∧ s'.step o t ts' = .error f) ∨
      ∃ r s₁', react o (s.window t ts) s.emitted.head? s.context = .ok r ∧
        s.step o t ts = .ok (s.accept t r) ∧ s'.step o t ts' = .ok s₁' ∧
        s₁'.index = s'.index + 1 ∧ Parallel start m m' (s.accept t r) s₁' := by
  have hmatch : Matches start m m' (react o (s.window t ts) s.emitted.head? s.context)
      (react o (s'.window t ts') s.emitted.head? (s.context.withAhead s'.context.ahead)) :=
    hw.react h.aligned
  rw [← h.context] at hmatch
  unfold State.step
  rw [h.emitted]
  rcases hmatch.eq_or_eq with ⟨f, hx, hx'⟩ | ⟨r, a, hx, hx', ha⟩
  · exact .inl ⟨f, by rw [hx]; rfl, by rw [hx']; rfl⟩
  · exact .inr ⟨r, s'.accept t (r.withAhead a), hx, by rw [hx]; rfl, by rw [hx']; rfl, rfl,
      h.accept t r ha⟩

end Parallel

def EndAlike (start m m' : Nat) (x x' : State × Option Failure) : Prop :=
  x'.2 = x.2 ∧ Parallel start m m' x.1 x'.1

namespace Parallel

/-- Behind the piece that differs both runs take the same tokens. -/
theorem run_behind (h : Parallel start m m' s s') (hi : s.index = start + m + q)
    (hi' : s'.index = start + m' + q) (ts : List Html.Token) :
    EndAlike start m m' (s.run o ts) (s'.run o ts) := by
  induction ts generalizing s s' q with
  | nil => exact ⟨rfl, h⟩
  | cons t ts ih =>
    have hw : Alike start m m' (s.window t ts) (s'.window t ts) := by
      unfold State.window
      rw [hi, hi', h.before]
      exact alike_behind s.before t ts start m m' q
    simp only [State.run]
    rcases h.step (o := o) hw with ⟨f, hs, hs'⟩ | ⟨r, s₁', -, hs, hs', hindex, h₁⟩
    · rw [hs, hs']
      exact ⟨rfl, h⟩
    · rw [hs, hs']
      refine ih (q := q + 1) h₁ ?_ ?_
      · exact congrArg (· + 1) hi
      · rw [hindex, hi']
        rfl

/-- The runs over one piece and over the other, with the tokens around them, where the pieces lead
from parallel states to parallel states. -/
theorem run_around (hp : Interchangeable piece piece')
    (h : Parallel start piece.length piece'.length s s') (hi : s'.index = s.index)
    (hstart : s.index + us.length = start)
    (hpieces : ∀ s₁, Passes o (piece ++ post) s us s₁ →
      ∀ s₁', Parallel start piece.length piece'.length s₁ s₁' →
        ∃ s₂ s₂', Passes o post s₁ piece s₂ ∧ Passes o post s₁' piece' s₂' ∧
          Parallel start piece.length piece'.length s₂ s₂') :
    EndAlike start piece.length piece'.length (s.run o (us ++ (piece ++ post)))
      (s'.run o (us ++ (piece' ++ post))) := by
  induction us generalizing s s' with
  | nil =>
    obtain ⟨s₂, s₂', h₂, h₂', hparallel⟩ := hpieces s (.nil s) s' h
    have hstart' : s.index = start := hstart
    rw [List.nil_append, List.nil_append, h₂.run_eq, h₂'.run_eq]
    refine hparallel.run_behind (q := 0) ?_ ?_ post
    · rw [h₂.index_eq, hstart', Nat.add_zero]
    · rw [h₂'.index_eq, hi, hstart', Nat.add_zero]
  | cons u us ih =>
    have hlength : s.index + 1 + us.length = start := by
      rw [List.length_cons] at hstart
      omega
    have hw : Alike start piece.length piece'.length (s.window u (us ++ (piece ++ post)))
        (s'.window u (us ++ (piece' ++ post))) := by
      unfold State.window
      rw [hi, h.before]
      exact alike_facing hlength hp
    simp only [List.cons_append, State.run]
    rcases h.step (o := o) hw with ⟨f, hstep, hstep'⟩ | ⟨r, s₁', hr, hstep, hstep', hindex, h₁⟩
    · rw [hstep, hstep']
      exact ⟨rfl, h⟩
    · rw [hstep, hstep']
      exact ih h₁ (hindex.trans (congrArg (· + 1) hi)) hlength fun s₂ h₂ =>
        hpieces s₂ (.cons hr h₂)

end Parallel

theorem aligned_start (start m m' : Nat) : Aligned start m m' ({} : Context).ahead
    ({} : Context).ahead := fun _ _ _ => ⟨rfl, by simp [Context.ahead]⟩

theorem result_eq_of_endAlike {start m m' : Nat}
    (h : EndAlike start m m' (({} : State).run o ts) (({} : State).run o ts')) :
    convert o ts' = convert o ts := by
  obtain ⟨hfailure, hstate⟩ := h
  unfold convert outcome
  generalize ({} : State).run o ts = x at hfailure hstate
  generalize ({} : State).run o ts' = x' at hfailure hstate
  obtain ⟨s, failure⟩ := x
  obtain ⟨s', failure'⟩ := x'
  obtain rfl : failure' = failure := hfailure
  cases failure' with
  | some f => rfl
  | none => exact congrArg Except.ok hstate.finished_eq

/-- A piece of a stream is replaced by another one that leads to parallel states: the result of the
conversion stays. -/
theorem convert_replace (hp : Interchangeable piece piece')
    (hpieces : ∀ s, Passes o (piece ++ post) {} us s →
      ∀ s', Parallel us.length piece.length piece'.length s s' →
        ∃ s₂ s₂', Passes o post s piece s₂ ∧ Passes o post s' piece' s₂' ∧
          Parallel us.length piece.length piece'.length s₂ s₂') :
    convert o (us ++ piece' ++ post) = convert o (us ++ piece ++ post) := by
  rw [List.append_assoc, List.append_assoc]
  refine result_eq_of_endAlike (Parallel.run_around hp ?_ rfl (Nat.zero_add _) hpieces)
  exact ⟨rfl, rfl, rfl, aligned_start _ _ _⟩

theorem interchangeable_script (attributes : Html.Attributes) (h : WellNested ts)
    (h' : WellNested ts') :
    Interchangeable (scriptTokens attributes ts) (scriptTokens attributes ts') where
  head := by
    refine ⟨_, _, _, rfl, fun strong => ?_, rfl, rfl⟩
    rw [Html.Token.tagName, Html.Token.startTag, Option.getD_some, roleOf_script]
    exact Html.Role.noConfusion
  left := .script attributes h
  right := .script attributes h'

/-- Scripts that are left out lead to parallel states, whatever they hold. -/
theorem Parallel.scripts (h : Parallel start m m' s s') (ho : o.stripScripts = true)
    (attributes : Html.Attributes) (hts : WellNested ts) (hts' : WellNested ts')
    (hs : s.context.sensitive = 0) :
    ∃ s₂ s₂', Passes o post s (scriptTokens attributes ts) s₂ ∧
      Passes o post s' (scriptTokens attributes ts') s₂' ∧ Parallel start m m' s₂ s₂' := by
  obtain ⟨s₂, h₂, hctx⟩ := exists_mutes_script ho attributes hts post s
    (Context.region_ne_sensitive hs)
  obtain ⟨s₂', h₂', hctx'⟩ := exists_mutes_script ho attributes hts' post s'
    (Context.region_ne_sensitive (h.sensitive_eq.trans hs))
  refine ⟨s₂, s₂', h₂.passes, h₂'.passes, ?_, ?_, ?_, ?_⟩
  · rw [before_script h₂, before_script h₂']
  · rw [h₂'.emitted, h₂.emitted, h.emitted]
  · rw [hctx, hctx']
    exact h.context
  · rw [hctx, hctx']
    exact h.aligned

/-- What a script holds that is left out has no influence: with any other well-nested content the
stream is converted to the same Markdown tokens, and laid out alike. -/
theorem script_content_irrelevant (c : Converter) (ho : c.options.stripScripts = true)
    {pre post content content' : List Html.Token} (attributes : Html.Attributes)
    (hc : WellNested content) (hc' : WellNested content')
    (hs : ∀ s, Passes c.options (scriptTokens attributes content ++ post) {} pre s →
      s.context.sensitive = 0) :
    convert c.options (pre ++ scriptTokens attributes content' ++ post) =
        convert c.options (pre ++ scriptTokens attributes content ++ post) ∧
      c.adapt (pre ++ scriptTokens attributes content' ++ post) =
        c.adapt (pre ++ scriptTokens attributes content ++ post) := by
  have hconvert : convert c.options (pre ++ scriptTokens attributes content' ++ post) =
      convert c.options (pre ++ scriptTokens attributes content ++ post) :=
    convert_replace (interchangeable_script attributes hc hc') fun s₁ h₁ _ h =>
      h.scripts ho attributes hc hc' (hs s₁ h₁)
  exact ⟨hconvert, by rw [Converter.adapt, Converter.adapt, hconvert]⟩

/-- A pair of emphasis around a script is fused, and the tags of emphasis inside the script do not
take part in it. -/
theorem script_in_fused_emphasis :
    let c : Converter := .ofOptions {}
    let around (content : List Html.Token) : List Html.Token :=
      [.startTag "em" ∅, .startTag "strong" ∅] ++ scriptTokens ∅ content ++
        [.characters "x", .endTag "strong", .endTag "em"]
    let inner : Html.Forest :=
      .element "strong" ∅ (.element "script" ∅ .nil .nil) (.text "y" .nil)
    convert c.options (around inner.tokens) =
        .ok [.boldItalic '*', .html (.characters "x"), .boldItalic '*'] ∧
      convert c.options (around []) = convert c.options (around inner.tokens) ∧
      c.adapt (around []) = c.adapt (around inner.tokens) := by
  intro c around inner
  refine ⟨eq_ok_of_toOption (by decide +kernel),
    script_content_irrelevant c rfl ∅ inner.wellNested_tokens .nil ?_⟩
  intro s hs
  rw [hs.context_eq]
  decide +kernel

end HtmlMarkdown.Conversion
