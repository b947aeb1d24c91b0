import HtmlMarkdown.Proofs.Handling
import HtmlMarkdown.Proofs.Laid
import HtmlMarkdown.Proofs.Trace

/-!
# What a conversion emits, as it is read

A step replaces newlines only, and in front of the reference block at most white space is taken
back. So a passive reading sees in the result what it sees in the tokens that the steps have
written, in order, and in the reference block.
-/

namespace HtmlMarkdown.Conversion

open Markdown (Token Passive Enduring Lasting)

variable {α : Type} {read : Token → Option α} {P : Token → Prop} {o : Options}
  {rest ts : List Html.Token} {s s' : State}

def State.written (o : Options) (s : State) (ts rest : List Html.Token) : List Token :=
  (s.trace o ts rest).flatMap (·.2.written)

theorem Passes.written_append {us : List Html.Token} (h : Passes o (us ++ rest) s ts s') :
    s.written o (ts ++ us) rest = s.written o ts (us ++ rest) ++ s'.written o us rest := by
  rw [State.written, h.trace_append, List.flatMap_append]
  rfl

/-- The tokens of an element that is not void, with what its content writes between them. -/
theorem Passes.written_element {name : String} {attributes : Html.Attributes}
    {children f : Html.Forest} {s₁ : State} {r r' : Reaction} (hv : Html.isVoid name = false)
    (hr : react o (s.window (.startTag name attributes)
      (children.tokens ++ .endTag name :: (f.tokens ++ rest))) s.emitted.head? s.context = .ok r)
    (h₁ : Passes o (.endTag name :: (f.tokens ++ rest)) (s.accept (.startTag name attributes) r)
      children.tokens s₁)
    (hr' : react o (s₁.window (.endTag name) (f.tokens ++ rest)) s₁.emitted.head? s₁.context =
      .ok r') :
    s.written o (Html.Forest.element name attributes children f).tokens rest =
      r.written ++ (s.accept (.startTag name attributes) r).written o children.tokens
          (.endTag name :: (f.tokens ++ rest)) ++
        (r'.written ++ (s₁.accept (.endTag name) r').written o f.tokens rest) := by
  rw [State.written, trace_element hv hr h₁ hr', List.cons_append, List.flatMap_cons,
    List.flatMap_append, List.flatMap_cons, ← List.append_assoc]
  rfl

theorem read_accept (h : Passive read) {t : Html.Token} {w : Window} {r : Reaction}
    (hr : react o w s.emitted.head? s.context = .ok r) :
    (s.accept t r).emitted.reverse.filterMap read =
      s.emitted.reverse.filterMap read ++ r.written.filterMap read := by
  rw [State.emitted_accept, List.filterMap_append]
  congr 1
  split
  · next hlast =>
    obtain ⟨u, hu, hnewline⟩ := (handles_of_react hr).isNewline_of_replacesLast hlast
    cases hemitted : s.emitted with
    | nil => rfl
    | cons last earlier =>
      obtain rfl : last = u := by simpa [hemitted] using hu
      rw [List.tail_cons, List.reverse_cons, List.filterMap_append,
        List.filterMap_cons_none (h.blind.of_isNewline hnewline)]
      exact (List.append_nil _).symm
  · rfl

/-- The steps of a passage add what they write to what a passive reading sees. -/
theorem Passes.read_emitted (h : Passive read) (hs : Passes o rest s ts s') :
    s'.emitted.reverse.filterMap read =
      s.emitted.reverse.filterMap read ++ (s.written o ts rest).filterMap read := by
  induction hs with
  | nil s => exact (List.append_nil _).symm
  | @cons s s' t ts r hr _ ih =>
    rw [ih, read_accept h hr, State.written, State.written, trace_cons hr, List.flatMap_cons,
      List.filterMap_append, List.append_assoc]

theorem read_body (h : Passive read) (s : State) :
    s.body.filterMap read = s.emitted.reverse.filterMap read := by
  unfold State.body
  split
  · rfl
  · cases s.emitted with
    | nil => rfl
    | cons last earlier =>
      dsimp only
      split
      · next hw =>
        rw [List.reverse_cons, List.filterMap_append,
          List.filterMap_cons_none (h.blind.of_tagIs (fun _ => id) hw)]
        exact (List.append_nil _).symm
      · rfl

/-- A passive reading that sees no definitions sees in the result what the steps have written. -/
theorem Passes.read_finished (h : Passive read)
    (hdefs : ∀ n href title, read (.anchorReference n href title) = none)
    (hs : Passes o [] {} ts s) :
    s.finished.filterMap read = (({} : State).written o ts []).filterMap read := by
  have hblock : (State.referenceBlock s.context.references).filterMap read = [] := by
    rw [List.filterMap_eq_nil_iff, State.referenceBlock_eq]
    have hstart : Token.startBlock.tag? = some .startBlock := rfl
    have hend : Token.endBlock.tag? = some .endBlock := rfl
    intro u hu
    simp only [List.mem_append, List.mem_flatMap, List.mem_cons, List.not_mem_nil, or_false] at hu
    rcases hu with ((rfl | rfl) | ⟨entry, -, rfl | rfl⟩) | rfl
    · exact h.whitespace _ .newlineBlank rfl rfl
    · exact h.blind.markdownMark hstart rfl
    · exact h.whitespace _ .newline rfl rfl
    · exact hdefs _ _ _
    · exact h.blind.markdownMark hend rfl
  have hend : (if s.context.references.isEmpty then []
      else State.referenceBlock s.context.references).filterMap read = [] := by
    split_ifs
    · rfl
    · exact hblock
  rw [State.finished_eq, List.filterMap_append, hend, List.append_nil, read_body h,
    hs.read_emitted h]
  rfl

/-- And an enduring one sees it in the layout of the result. -/
theorem Passes.read_layout (h : Enduring read)
    (hdefs : ∀ n href title, read (.anchorReference n href title) = none)
    (hs : Passes o [] {} ts s) :
    (Markdown.layout s.finished).filterMap read =
      (({} : State).written o ts []).filterMap read := by
  rw [h.layout, hs.read_finished h.passive hdefs]

/-- What lasts holds in the result if it holds of what the steps have written. -/
theorem Passes.forall_layout (h : Lasting P) (hs : Passes o [] {} ts s)
    (hwritten : ∀ u ∈ ({} : State).written o ts [], P u)
    (hblock : ∀ u ∈ State.referenceBlock s.context.references, P u) :
    ∀ u ∈ Markdown.layout s.finished, P u := by
  refine h.layout fun u hu => ?_
  rw [State.finished_eq] at hu
  rcases List.mem_append.mp hu with hbody | hrest
  · exact hwritten u (hs.body_sublist.subset hbody)
  · split_ifs at hrest
    · cases hrest
    · exact hblock u hrest

end HtmlMarkdown.Conversion
