import HtmlMarkdown.Proofs.Trace
import HtmlMarkdown.Proofs.Yield

/-!
# Admission of raw tags

HTML gets from the input to the output as raw tags. Outside of sensitive elements such a tag is one
that the options admit by its name, or an edge of a native block, and all its attributes are listed
for its name; the anchor around a bare link has its address and nothing else. The end of a sensitive
element is under the same rule as what stands outside.
-/

namespace HtmlMarkdown

def Options.Lists (o : Options) (raw : Html.Token) : Prop :=
  ∀ key ∈ raw.attributes.keys,
    ∃ allowed, o.attributesFor? raw.tagName = some allowed ∧ key.localName ∈ allowed

theorem Options.lists_clean (o : Options) (t : Html.Token) : o.Lists (o.clean t) := by
  intro key hkey
  obtain ⟨entry, hentry, rfl⟩ := List.mem_map.mp hkey
  have hmem := (List.mem_filter.mp hentry).2
  change ((t.name.bind o.attributesFor?).getD []).contains entry.1.localName = true at hmem
  change ∃ allowed, o.attributesFor? t.tagName = some allowed ∧ entry.1.localName ∈ allowed
  cases hname : t.name with
  | none => simp [hname] at hmem
  | some name =>
    rw [Html.Token.tagName, hname, Option.getD_some]
    cases hallowed : o.attributesFor? name with
    | none => simp [hname, hallowed] at hmem
    | some allowed => exact ⟨allowed, rfl, by simpa [hname, hallowed] using hmem⟩

theorem Options.lists_endTag (o : Options) (name : String) : o.Lists (.endTag name) :=
  List.forall_mem_nil _

namespace Conversion

open Markdown (Token Edge)

/-- A raw tag that a token is written with, for the token `t` of the input. -/
structure Admissible (o : Options) (t : Html.Token) (u : Token) (raw : Html.Token) : Prop where
  name : o.Admits raw.tagName ∨
    (∃ edge, u.node = .native edge raw) ∧ (raw.tagName = "pre" ∨ raw.tagName = "script")
  attributes : o.Lists raw ∨
    ∃ href, BareAnchor o t href ∧ raw.tagName = "a" ∧
      raw.attributes.entries = [(.plain "href", href)]

structure Step where
  before : Context
  token : Html.Token
  reaction : Reaction

/-- No sensitive element is open before the step, or the step closes the last one. -/
def Step.Outside (step : Step) : Prop :=
  step.before.sensitive = 0 ∨ step.reaction.context.sensitive = 0

def State.steps (o : Options) (s : State) : List Html.Token → List Step
  | [] => []
  | t :: ts =>
    match react o (s.window t ts) s.emitted.head? s.context with
    | .error _ => []
    | .ok r => { before := s.context, token := t, reaction := r } :: (s.accept t r).steps o ts

variable {o : Options} {w : Window} {u : Token} {raw : Html.Token} {s : State}
  {ts : List Html.Token}

theorem State.map_steps (s : State) (ts : List Html.Token) :
    (s.steps o ts).map (fun step => (step.token, step.reaction)) = s.trace o ts [] := by
  induction ts generalizing s with
  | nil => rfl
  | cons t ts ih =>
    rw [State.steps, State.trace, List.append_nil]
    cases react o (s.window t ts) s.emitted.head? s.context with
    | error f => rfl
    | ok r => exact congrArg _ (ih _)

/-- A step is a reaction at a window on its token. -/
theorem State.react_of_mem_steps {step : Step} (h : step ∈ s.steps o ts) :
    ∃ w last, w.token = step.token ∧ react o w last step.before = .ok step.reaction := by
  induction ts generalizing s with
  | nil => cases h
  | cons t ts ih =>
    rw [State.steps] at h
    cases hr : react o (s.window t ts) s.emitted.head? s.context with
    | error f => simp [hr] at h
    | ok r =>
      rw [hr] at h
      rcases List.mem_cons.mp h with rfl | h
      · exact ⟨_, _, rfl, hr⟩
      · exact ih h

/-- The raw tags among the tokens that a step can write are admissible. -/
theorem Yields.admissible (h : Yields o w u) (hraw : u.raw? = some raw)
    (htag : raw.isTag = true) : Admissible o w.token u raw := by
  cases h with
  | cleaned hn =>
    cases hraw
    exact ⟨.inl hn, .inl (o.lists_clean _)⟩
  | native edge hn =>
    cases hraw
    exact ⟨.inr ⟨⟨edge, rfl⟩, hn⟩, .inl (o.lists_clean _)⟩
  | bareStart hb =>
    cases hraw
    exact ⟨.inl (.anchor rfl), .inr ⟨_, hb, rfl, rfl⟩⟩
  | bareEnd =>
    cases hraw
    exact ⟨.inl (.anchor rfl), .inl (o.lists_endTag "a")⟩
  | text s =>
    cases hraw
    cases htag
  | comment hk | space hk =>
    cases hraw
    simp [Html.Token.isTag, hk] at htag
  | gap gap => cases gap <;> cases hraw
  | emphasis strong => cases strong <;> cases hraw
  | _ => cases hraw

theorem Admissible.within {t : Html.Token} (h : Admissible o t u raw) (depth : Option Nat) :
    Admissible o t (u.within depth) raw where
  name := by rw [Token.node_within]; exact h.name
  attributes := h.attributes

theorem raw?_within (u : Token) (depth : Option Nat) : (u.within depth).raw? = u.raw? := by
  unfold Token.raw?
  rw [Token.node_within]

theorem raw?_of_mem_referenceBlock {references : References}
    (h : u ∈ State.referenceBlock references) : u.raw? = none := by
  obtain ⟨tag, data, rfl⟩ := State.exists_markdown_of_mem_referenceBlock h
  rfl

/-- Outside of sensitive elements and at their ends every raw tag is admissible; and every raw token
of a result is written in one of the steps. -/
theorem raw_tags_admissible (o : Options) (ts : List Html.Token) :
    (∀ step ∈ ({} : State).steps o ts, step.Outside →
      ∀ u ∈ step.reaction.written, ∀ raw ∈ u.raw?, raw.isTag = true →
        Admissible o step.token u raw) ∧
      ∀ out, convert o ts = .ok out → ∀ u ∈ out, u.raw?.isSome = true →
        ∃ step ∈ ({} : State).steps o ts, u ∈ step.reaction.written := by
  constructor
  · intro step hstep hout u hu raw hraw htag
    obtain ⟨w, last, hw, hr⟩ := State.react_of_mem_steps hstep
    obtain ⟨v, hv, rfl⟩ := List.mem_map.mp hu
    rw [raw?_within] at hraw
    rw [← hw]
    exact ((yields_of_react hr hout v hv).admissible hraw htag).within _
  · intro out hconvert u hu hraw
    obtain ⟨s, hs, rfl⟩ := Passes.of_convert hconvert
    rw [State.finished_eq] at hu
    rcases List.mem_append.mp hu with hbody | hblock
    · obtain ⟨step, hstep, hwritten⟩ :=
        List.mem_flatMap.mp (hs.body_sublist.subset hbody)
      rw [← State.map_steps] at hstep
      obtain ⟨step', hstep', rfl⟩ := List.mem_map.mp hstep
      exact ⟨step', hstep', hwritten⟩
    · split at hblock
      · cases hblock
      · rw [raw?_of_mem_referenceBlock hblock] at hraw
        cases hraw

/-- A table with a click handler, the anchor around a bare link and the end of a script: the table
loses the handler, the anchor has its address, the script ends as a native block. -/
theorem raw_tags_of_table_link_and_script :
    let o : Options := { stripScripts := false, simplifySelfLinks := false, anchorsAsTags := true,
                         attributes := .ofList [("table", ["id"])] }
    let ts : List Html.Token :=
      [.startTag "table" (.ofList [(.plain "id", "x"), (.plain "onclick", "y")]),
        .startTag "mailto:m" ∅, .startTag "script" ∅, .characters "z", .endTag "script"]
    let admitted (u : Token) (raw : Html.Token) := ∃ step ∈ ({} : State).steps o ts,
      step.Outside ∧ u ∈ step.reaction.written ∧ Admissible o step.token u raw
    let table : Html.Token := .startTag "table" (.ofList [(.plain "id", "x")])
    let anchor : Html.Token := .startTag "a" (.ofList [(.plain "href", "mailto:m")])
    admitted (.html table) table ∧ admitted (.html anchor) anchor ∧
      admitted (.native .closing (.endTag "script")) (.endTag "script") := by
  intro o ts admitted table anchor
  have admits (i : Nat) (u : Token) (raw : Html.Token)
      (hi : i < (({} : State).steps o ts).length) (hout : (({} : State).steps o ts)[i].Outside)
      (hu : u ∈ (({} : State).steps o ts)[i].reaction.written) (hraw : u.raw? = some raw)
      (htag : raw.isTag = true) : admitted u raw :=
    ⟨_, List.getElem_mem hi, hout, hu,
      (raw_tags_admissible o ts).1 _ (List.getElem_mem hi) hout u hu raw hraw htag⟩
  refine ⟨?_, ?_, ?_⟩
  · exact admits 0 _ table (by decide +kernel) (.inl (by decide +kernel)) (by decide +kernel)
      rfl rfl
  · exact admits 1 _ anchor (by decide +kernel) (.inl (by decide +kernel)) (by decide +kernel)
      rfl rfl
  · exact admits 4 _ (.endTag "script") (by decide +kernel) (.inr (by decide +kernel))
      (by decide +kernel) rfl rfl

end Conversion

end HtmlMarkdown
