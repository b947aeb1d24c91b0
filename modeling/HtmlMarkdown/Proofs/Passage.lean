import HtmlMarkdown.Conversion.Run
import HtmlMarkdown.Html.Forest
import Mathlib.Data.List.Basic

/-!
# Passages of a conversion

`Passes o rest s ts s'` says that the tokens `ts`, with `rest` still to come behind them, take a
conversion from `s` to `s'` without a failure. A passage over two pieces is a passage over the
first and one over the second, and the tokens of a forest make such pieces: they begin with no end
tag and end with no start tag, so an element is an empty pair exactly when it has no content.
-/

namespace HtmlMarkdown.Conversion

open Html (Forest)

inductive Passes (o : Options) (rest : List Html.Token) : State → List Html.Token → State → Prop
  | nil (s : State) : Passes o rest s [] s
  | cons {s s' : State} {t : Html.Token} {ts : List Html.Token} {r : Reaction}
      (hr : react o (s.window t (ts ++ rest)) s.emitted.head? s.context = .ok r)
      (hs : Passes o rest (s.accept t r) ts s') : Passes o rest s (t :: ts) s'

namespace Passes

variable {o : Options} {rest ts us : List Html.Token} {s s' s'' : State}

theorem append (h : Passes o (us ++ rest) s ts s') (h' : Passes o rest s' us s'') :
    Passes o rest s (ts ++ us) s'' := by
  induction h with
  | nil => exact h'
  | @cons s _ t ts r hr _ ih =>
    change Passes o rest s (t :: (ts ++ us)) s''
    refine .cons ?_ (ih h')
    rwa [List.append_assoc]

theorem of_append (h : Passes o rest s (ts ++ us) s'') :
    ∃ s', Passes o (us ++ rest) s ts s' ∧ Passes o rest s' us s'' := by
  induction ts generalizing s with
  | nil => exact ⟨s, .nil s, h⟩
  | cons t ts ih =>
    cases h with
    | cons hr hs =>
      obtain ⟨s', h₁, h₂⟩ := ih hs
      exact ⟨s', .cons (by rwa [← List.append_assoc]) h₁, h₂⟩

theorem unique (h : Passes o rest s ts s') (h' : Passes o rest s ts s'') : s' = s'' := by
  induction h with
  | nil => cases h'; rfl
  | cons hr _ ih =>
    cases h' with
    | cons hr' hs' =>
      rw [hr] at hr'
      cases hr'
      exact ih hs'

theorem run_eq (h : Passes o rest s ts s') : s.run o (ts ++ rest) = s'.run o rest := by
  induction h with
  | nil => rfl
  | cons hr _ ih =>
    simp only [List.cons_append, State.run, State.step, hr, Except.map]
    exact ih

theorem before_eq (h : Passes o rest s ts s') : s'.before = ts.getLast?.or s.before := by
  induction h with
  | nil => rfl
  | @cons s s' t ts r _ _ ih =>
    rw [ih, List.getLast?_cons]
    cases ts.getLast? <;> rfl

theorem index_eq (h : Passes o rest s ts s') : s'.index = s.index + ts.length := by
  induction h with
  | nil => rfl
  | @cons s _ t ts r _ _ ih =>
    rw [ih, List.length_cons]
    exact Nat.add_right_comm s.index 1 ts.length

theorem run_nil (h : Passes o [] s ts s') : s.run o ts = (s', none) := by
  have hrun := h.run_eq
  rwa [List.append_nil] at hrun

theorem convert_eq (h : Passes o [] {} ts s) : convert o ts = .ok s.finished := by
  simp only [convert, outcome, h.run_nil]

end Passes

end HtmlMarkdown.Conversion

namespace HtmlMarkdown.Html

theorem kind_of_mem_spaceTokens {cs : List Char} {t : Token} (h : t ∈ spaceTokens cs) :
    t.kind = .spaceCharacters := by
  unfold spaceTokens at h
  split at h
  · cases h
  · rw [List.mem_singleton.mp h]; rfl

theorem kind_of_mem_textTokens {s : String} {t : Token} (h : t ∈ textTokens s) :
    t.kind = .characters ∨ t.kind = .spaceCharacters := by
  unfold textTokens at h
  dsimp only at h
  split at h
  · exact .inr (kind_of_mem_spaceTokens h)
  · simp only [List.mem_append, List.mem_cons] at h
    rcases h with h | rfl | h
    · exact .inr (kind_of_mem_spaceTokens h)
    · exact .inl rfl
    · exact .inr (kind_of_mem_spaceTokens h)

namespace Forest

theorem head?_tokens_kind (f : Forest) : ∀ t ∈ f.tokens.head?, t.kind ≠ .endTag := by
  induction f with
  | nil => simp [tokens]
  | text content rest ih =>
    intro t ht
    rw [tokens, List.head?_append] at ht
    cases hc : (textTokens content).head? with
    | none => exact ih t (by simpa [hc] using ht)
    | some u =>
      obtain rfl : u = t := by simpa [hc] using ht
      rcases kind_of_mem_textTokens (List.mem_of_head? hc) with h | h <;> simp [h]
  | comment content rest _ => simp [tokens, Token.comment]
  | element name attributes children rest _ _ =>
    rw [tokens]
    split <;> simp [Token.emptyTag, Token.startTag]

/-- Behind a text at the start of a forest there is no end tag. -/
theorem second_tokens_kind (f : Forest) {t u : Token} {ts : List Token}
    (h : f.tokens = t :: u :: ts) (ht : t.kind = .characters) : u.kind ≠ .endTag := by
  induction f with
  | nil => simp [tokens] at h
  | text content rest ih =>
    rw [tokens] at h
    have hkinds (v : Token) (hv : v ∈ textTokens content) : v.kind ≠ .endTag := by
      rcases kind_of_mem_textTokens hv with hk | hk <;> simp [hk]
    rcases htext : textTokens content with _ | ⟨v, _ | ⟨v', vs⟩⟩
    · rw [htext] at h
      exact ih h
    · rw [htext, List.singleton_append, List.cons.injEq] at h
      exact rest.head?_tokens_kind u (by simp [h.2])
    · rw [htext, List.cons_append, List.cons_append, List.cons.injEq, List.cons.injEq] at h
      exact hkinds u (by simp [htext, h.2.1])
  | comment content rest _ =>
    rw [tokens, List.cons.injEq] at h
    simp [← h.1, Token.comment] at ht
  | element name attributes children rest _ _ =>
    rw [tokens] at h
    split at h
    · rw [List.cons.injEq] at h
      simp [← h.1, Token.emptyTag] at ht
    · rw [List.cons_append, List.cons.injEq] at h
      simp [← h.1, Token.startTag] at ht

theorem getLast?_tokens_kind (f : Forest) : ∀ t ∈ f.tokens.getLast?, t.kind ≠ .startTag := by
  have behind {ts : List Token} (hts : ∀ t ∈ ts.getLast?, t.kind ≠ .startTag) {u : Token}
      (hu : u.kind ≠ .startTag) : ∀ t ∈ (u :: ts).getLast?, t.kind ≠ .startTag := by
    intro t ht
    rw [List.getLast?_cons, Option.mem_some_iff] at ht
    cases hl : ts.getLast? with
    | none => simpa [hl, ← ht] using hu
    | some v =>
      obtain rfl : v = t := by simpa [hl] using ht
      exact hts v hl
  induction f with
  | nil => simp [tokens]
  | text content rest ih =>
    intro t ht
    rw [tokens, List.getLast?_append] at ht
    cases hl : rest.tokens.getLast? with
    | some u => exact ih t (by simpa [hl] using ht)
    | none =>
      have hc : t ∈ (textTokens content).getLast? := by simpa [hl] using ht
      rcases kind_of_mem_textTokens (List.mem_of_getLast? hc) with h | h <;> simp [h]
  | comment content rest ih => exact behind ih (by simp [Token.comment])
  | element name attributes children rest _ ih =>
    rw [tokens]
    split
    · exact behind ih (by simp [Token.emptyTag])
    · intro t ht
      rw [List.cons_append, List.getLast?_cons, List.getLast?_append, List.getLast?_cons] at ht
      apply behind ih (u := .endTag name) (by simp [Token.endTag]) t
      simpa [List.getLast?_cons] using ht

end Forest

end HtmlMarkdown.Html
