import HtmlMarkdown.Proofs.FirstSteps
import HtmlMarkdown.Proofs.Resemblance

/-!
# Two tokens ahead

A step looks at the next two tokens, and further only from an emphasis that opens directly inside
the other kind of emphasis. Where no such pair opens, the first steps of a conversion are settled by
the tokens they take and two more.
-/

namespace HtmlMarkdown.Conversion

def OpensPair (t u : Html.Token) : Prop :=
  t.kind = .startTag ∧ u.kind = .startTag ∧
    ∃ strong, Html.roleOf t.tagName = .emphasis strong ∧
      Html.roleOf u.tagName = .emphasis (!strong)

variable {o : Options} {s : State} {t : Html.Token} {ts us : List Html.Token}

/-- Streams with the same next two tokens are equal, or have two tokens and go on from there. -/
theorem eq_or_cons_cons_of_take {α : Type} {xs ys : List α} (h : xs.take 2 = ys.take 2) :
    xs = ys ∨ ∃ a b xs' ys', xs = a :: b :: xs' ∧ ys = a :: b :: ys' := by
  rcases xs with _ | ⟨a, _ | ⟨b, xs⟩⟩ <;> rcases ys with _ | ⟨a', _ | ⟨b', ys⟩⟩ <;>
    simp_all

/-- No window tells such streams apart, unless a pair of emphasis opens in it. -/
theorem resembles_of_take (s : State) (h : ts.take 2 = us.take 2)
    (hpair : ∀ u ∈ ts.head?, ¬OpensPair t u) :
    (s.window t ts).Resembles (s.window t us) := by
  rcases eq_or_cons_cons_of_take h with rfl | ⟨a, b, ts', us', rfl, rfl⟩
  · exact ⟨rfl, rfl, rfl, rfl, rfl, rfl, fun _ _ => rfl⟩
  · refine ⟨rfl, rfl, rfl, rfl, rfl, rfl, ?_⟩
    intro strong hk hrole
    have hinner : ¬(a.kind = .startTag ∧ Html.roleOf a.tagName = .emphasis (!strong)) := by
      rintro ⟨hstart, hother⟩
      exact hpair a rfl ⟨hk, hstart, strong, hrole, hother⟩
    simp only [State.window, Window.fusedEnd?, if_neg hinner]

theorem step_eq_of_take (s : State) (h : ts.take 2 = us.take 2)
    (hpair : ∀ u ∈ ts.head?, ¬OpensPair t u) : s.step o t us = s.step o t ts := by
  unfold State.step
  rw [(resembles_of_take s h hpair).react_eq]

/-- Steps with the same tokens in sight do the same: where two streams agree on their first `n + 2`
tokens and none of the first `n` opens a pair of emphasis with the token behind it, the first `n`
steps lead to one state, or to one failure in one state. -/
theorem runFor_eq_of_take (o : Options) (n : Nat) (s : State) (ts us : List Html.Token)
    (h : ts.take (n + 2) = us.take (n + 2))
    (hpair : ∀ i < n, ∀ t u, ts[i]? = some t → ts[i + 1]? = some u → ¬OpensPair t u) :
    s.runFor o n ts = s.runFor o n us := by
  induction n generalizing s ts us with
  | zero => rfl
  | succ n ih =>
    cases ts with
    | nil =>
      obtain rfl : us = [] := by simpa using h.symm
      rfl
    | cons t ts =>
      cases us with
      | nil => simp at h
      | cons u us =>
        obtain ⟨rfl, htail⟩ : t = u ∧ ts.take (n + 2) = us.take (n + 2) := by simpa using h
        have hnext : ts.take 2 = us.take 2 := by
          have htake := congrArg (List.take 2) htail
          rwa [List.take_take, List.take_take, Nat.min_eq_left (Nat.le_add_left 2 n)] at htake
        have hstep : s.step o t us = s.step o t ts := by
          apply step_eq_of_take s hnext
          intro u hu
          apply hpair 0 (Nat.succ_pos n) t u rfl
          rw [List.getElem?_cons_succ, ← List.head?_eq_getElem?]
          exact hu
        unfold State.runFor
        rw [hstep]
        cases s.step o t ts with
        | error f => rfl
        | ok s' =>
          apply ih s' ts us htail
          intro i hi t' u' ht' hu'
          exact hpair (i + 1) (Nat.succ_lt_succ hi) t' u' ht' hu'

/-- A link takes its text, whatever comes behind the end of the anchor. -/
theorem runFor_one_link :
    let link : List Html.Token := [.startTag "a" (.ofList [(.plain "href", "x")]),
      .characters "y", .endTag "a"]
    let ts := link ++ [.startTag "p" ∅]
    let us := link ++ [.startTag "em" ∅, .startTag "b" ∅]
    ts.take (1 + 2) = us.take (1 + 2) ∧
      (∀ i < 1, ∀ t u, ts[i]? = some t → ts[i + 1]? = some u → ¬OpensPair t u) ∧
      ({} : State).runFor {} 1 ts = ({} : State).runFor {} 1 us := by
  intro link ts us
  have htake : ts.take (1 + 2) = us.take (1 + 2) := rfl
  have hpair : ∀ i < 1, ∀ t u, ts[i]? = some t → ts[i + 1]? = some u → ¬OpensPair t u := by
    intro i hi t u ht hu hopens
    obtain rfl : i = 0 := by omega
    cases ht
    cases hu
    exact absurd hopens.2.1 (by decide)
  exact ⟨htake, hpair, runFor_eq_of_take {} 1 {} ts us htake hpair⟩

end HtmlMarkdown.Conversion
