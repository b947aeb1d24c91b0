import HtmlMarkdown.Conversion.Run

/-!
# The first steps of a conversion

`runFor` takes the first tokens of a stream and stops behind them, or at a failure. The states that
a conversion reaches are those that `runFor` ends in, and `run` is `runFor` for the whole stream.
-/

namespace HtmlMarkdown.Conversion.State

/-- The state behind the first `n` tokens, or the one in which a step fails, and the failure. -/
def runFor (o : Options) : Nat → State → List Html.Token → State × Option Failure
  | 0, s, _ => (s, none)
  | _ + 1, s, [] => (s, none)
  | n + 1, s, t :: ts =>
    match s.step o t ts with
    | .error failure => (s, some failure)
    | .ok s' => runFor o n s' ts

variable {o : Options} {s : State}

theorem run_eq_runFor (s : State) (ts : List Html.Token) :
    s.run o ts = s.runFor o ts.length ts := by
  induction ts generalizing s with
  | nil => rfl
  | cons t ts ih =>
    simp only [run, List.length_cons, runFor]
    cases s.step o t ts with
    | error f => rfl
    | ok s' => exact ih s'

theorem runFor_of_convert {ts : List Html.Token} {f : Failure} (h : convert o ts = .error f) :
    (({} : State).runFor o ts.length ts).2 = some f := by
  rw [← run_eq_runFor]
  unfold convert outcome at h
  cases hrun : ({} : State).run o ts with
  | mk s failure =>
    cases failure with
    | none => simp [hrun] at h
    | some g =>
      simp only [hrun, Except.error.injEq] at h
      rw [h]

/-- What a step keeps is kept by all the steps, and the steps fail as a step may. -/
theorem runFor_invariant {P : State → Prop} {E : Failure → Prop}
    (hok : ∀ s t ts r, P s → react o (s.window t ts) s.emitted.head? s.context = .ok r →
      P (s.accept t r))
    (herror : ∀ s t ts f, P s → react o (s.window t ts) s.emitted.head? s.context = .error f → E f)
    (hs : P s) (n : Nat) (ts : List Html.Token) :
    P (s.runFor o n ts).1 ∧ ∀ f, (s.runFor o n ts).2 = some f → E f := by
  induction n generalizing s ts with
  | zero => exact ⟨hs, by simp [runFor]⟩
  | succ n ih =>
    cases ts with
    | nil => exact ⟨hs, by simp [runFor]⟩
    | cons t ts =>
      unfold runFor step
      cases hr : react o (s.window t ts) s.emitted.head? s.context with
      | error f =>
        refine ⟨hs, fun g hg => ?_⟩
        cases hg
        exact herror s t ts f hs hr
      | ok r => exact ih (hok s t ts r hs hr) ts

end HtmlMarkdown.Conversion.State
