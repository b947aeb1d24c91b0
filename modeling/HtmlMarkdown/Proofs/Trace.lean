import HtmlMarkdown.Proofs.Passage

/-!
# Traces

The trace of a passage pairs every token with the reaction to it. What a conversion has in the end
is made of what the reactions wrote, in order, apart from newlines that were replaced and the
white space in front of the reference block.
-/

namespace HtmlMarkdown.Conversion

open Markdown (Token)

def Reaction.written (r : Reaction) : List Token :=
  r.produced.map (·.within (some r.context.blockquote))

namespace State

/-- The tokens that are taken, each with the reaction to it, where `rest` is still to come. -/
def trace (o : Options) (s : State) (ts rest : List Html.Token) : List (Html.Token × Reaction) :=
  match ts with
  | [] => []
  | t :: ts =>
    match react o (s.window t (ts ++ rest)) s.emitted.head? s.context with
    | .error _ => []
    | .ok r => (t, r) :: (s.accept t r).trace o ts rest

def body (s : State) : List Token :=
  if s.context.references.isEmpty then s.emitted.reverse
  else match s.emitted with
    | [] => []
    | last :: rest =>
      (if last.tagIs Markdown.Tag.isWhitespace then rest else last :: rest).reverse

theorem referenceBlock_eq (references : References) : referenceBlock references =
    [.newlineBlank, .startBlock] ++ (references.entries.flatMap fun entry =>
      [.newline, .anchorReference entry.1 entry.2.1 entry.2.2]) ++ [.endBlock] := rfl

theorem exists_markdown_of_mem_referenceBlock {references : References} {u : Token}
    (h : u ∈ referenceBlock references) : ∃ tag data, u = .markdown tag data := by
  rw [referenceBlock_eq] at h
  simp only [List.mem_append, List.mem_flatMap, List.mem_cons, List.not_mem_nil, or_false] at h
  rcases h with ((rfl | rfl) | ⟨entry, -, rfl | rfl⟩) | rfl <;> exact ⟨_, _, rfl⟩

theorem finished_eq (s : State) : s.finished = s.body ++
    if s.context.references.isEmpty then [] else referenceBlock s.context.references := by
  unfold finished body
  split
  · rw [List.append_nil]
  · cases s.emitted <;> rfl

theorem body_isPrefix (s : State) : s.body <+: s.emitted.reverse := by
  unfold body
  split
  · exact List.prefix_rfl
  · cases s.emitted with
    | nil => exact List.prefix_rfl
    | cons last rest =>
      dsimp only
      split
      · rw [List.reverse_cons]
        exact List.prefix_append _ _
      · exact List.prefix_rfl

@[simp] theorem context_accept (s : State) (t : Html.Token) (r : Reaction) :
    (s.accept t r).context = r.context := rfl

/-- A step writes behind what was there, apart from a token that it replaces. -/
theorem emitted_accept (s : State) (t : Html.Token) (r : Reaction) :
    (s.accept t r).emitted.reverse =
      (if r.replacesLast then s.emitted.tail else s.emitted).reverse ++ r.written := by
  simp only [accept, Reaction.written, List.reverse_append, List.reverse_reverse]

theorem emitted_accept_sublist (s : State) (t : Html.Token) (r : Reaction) :
    (s.accept t r).emitted.reverse.Sublist (s.emitted.reverse ++ r.written) := by
  rw [emitted_accept]
  refine List.Sublist.append_right (List.reverse_sublist.mpr ?_) _
  split
  · exact List.tail_sublist _
  · exact .refl _

end State

theorem eq_ok_of_toOption {ε α : Type} {x : Except ε α} {a : α} (h : x.toOption = some a) :
    x = .ok a := by
  cases x with
  | error f => cases h
  | ok b => exact congrArg _ (Option.some.inj h)

namespace Passes

variable {o : Options} {rest ts us : List Html.Token} {s s' s'' : State}

theorem of_run (h : s.run o ts = (s', none)) : Passes o [] s ts s' := by
  induction ts generalizing s with
  | nil =>
    cases h
    exact .nil _
  | cons t ts ih =>
    cases hr : react o (s.window t ts) s.emitted.head? s.context with
    | error f => simp [State.run, State.step, hr, Except.map] at h
    | ok r =>
      simp only [State.run, State.step, hr, Except.map] at h
      exact .cons (by rwa [List.append_nil]) (ih h)

/-- A conversion that succeeds is a passage. -/
theorem of_convert {out : List Token} (h : convert o ts = .ok out) :
    ∃ s, Passes o [] {} ts s ∧ out = s.finished := by
  unfold convert outcome at h
  cases hrun : ({} : State).run o ts with
  | mk s failure =>
    cases failure with
    | some f => simp [hrun] at h
    | none =>
      simp only [hrun, Except.ok.injEq] at h
      exact ⟨s, of_run hrun, h.symm⟩

theorem trace_cons {t : Html.Token} {r : Reaction}
    (hr : react o (s.window t (ts ++ rest)) s.emitted.head? s.context = .ok r) :
    s.trace o (t :: ts) rest = (t, r) :: (s.accept t r).trace o ts rest := by
  rw [State.trace, hr]

theorem trace_append (h : Passes o (us ++ rest) s ts s') :
    s.trace o (ts ++ us) rest = s.trace o ts (us ++ rest) ++ s'.trace o us rest := by
  induction h with
  | nil => rfl
  | @cons s _ t ts r hr _ ih =>
    rw [List.cons_append, trace_cons (by rwa [List.append_assoc]), trace_cons hr, ih]
    rfl

/-- The trace of an element that is not void: its tags, with the trace of its content between. -/
theorem trace_element {name : String} {attributes : Html.Attributes} {children f : Html.Forest}
    {s₁ : State} {r r' : Reaction} (hv : Html.isVoid name = false)
    (hr : react o (s.window (.startTag name attributes)
      (children.tokens ++ .endTag name :: (f.tokens ++ rest))) s.emitted.head? s.context = .ok r)
    (h₁ : Passes o (.endTag name :: (f.tokens ++ rest)) (s.accept (.startTag name attributes) r)
      children.tokens s₁)
    (hr' : react o (s₁.window (.endTag name) (f.tokens ++ rest)) s₁.emitted.head? s₁.context =
      .ok r') :
    s.trace o (Html.Forest.element name attributes children f).tokens rest =
      (.startTag name attributes, r) ::
        (s.accept (.startTag name attributes) r).trace o children.tokens
            (.endTag name :: (f.tokens ++ rest)) ++
          (.endTag name, r') :: (s₁.accept (.endTag name) r').trace o f.tokens rest := by
  rw [Html.Forest.tokens, hv, if_neg Bool.false_ne_true, List.cons_append, trace_cons (by simpa),
    trace_append (by simpa using h₁), trace_cons hr']
  rfl

/-- Every token that is taken is in the trace, in its place. -/
theorem map_fst_trace (h : Passes o rest s ts s') : (s.trace o ts rest).map Prod.fst = ts := by
  induction h with
  | nil => rfl
  | cons hr _ ih => rw [trace_cons hr, List.map_cons, ih]

/-- A passage leaves behind the context of its last reaction. -/
theorem context_eq (h : Passes o rest s ts s') :
    s'.context = ((s.trace o ts rest).getLast?.map (·.2.context)).getD s.context := by
  induction h with
  | nil => rfl
  | @cons s _ t ts r hr _ ih =>
    rw [ih, trace_cons hr, List.getLast?_cons]
    cases ((s.accept t r).trace o ts rest).getLast? <;> rfl

theorem emitted_sublist (h : Passes o rest s ts s') :
    s'.emitted.reverse.Sublist
      (s.emitted.reverse ++ (s.trace o ts rest).flatMap (·.2.written)) := by
  induction h with
  | nil s => simp [State.trace]
  | @cons s s' t ts r hr _ ih =>
    rw [trace_cons hr, List.flatMap_cons, ← List.append_assoc]
    exact ih.trans (List.Sublist.append_right (s.emitted_accept_sublist t r) _)

/-- What stands in front of the reference block was written by the reactions, in order. -/
theorem body_sublist (h : Passes o rest {} ts s) :
    s.body.Sublist ((({} : State).trace o ts rest).flatMap (·.2.written)) := by
  simpa using s.body_isPrefix.sublist.trans h.emitted_sublist

end Passes

end HtmlMarkdown.Conversion
