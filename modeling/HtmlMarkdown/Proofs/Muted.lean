import HtmlMarkdown.Proofs.Balance
import HtmlMarkdown.Proofs.Trace

/-!
# Scripts that are left out

Well-nested tokens inside of a script that is left out write nothing and leave the context as it
was. So does the whole script, wherever no sensitive element is open: with content it is counted as
stripped, without content its tags are an empty pair.
-/

namespace HtmlMarkdown.Html

/-- Every start tag has an end tag of its name behind it, and no two elements overlap. -/
inductive WellNested : List Token → Prop
  | nil : WellNested []
  | leaf {t : Token} {ts : List Token} (hs : t.kind ≠ .startTag) (he : t.kind ≠ .endTag)
    (h : WellNested ts) : WellNested (t :: ts)
  | element {t u : Token} {inner ts : List Token} (ht : t.kind = .startTag) (hu : u.kind = .endTag)
    (hn : u.name = t.name) (hi : WellNested inner) (h : WellNested ts) :
    WellNested (t :: (inner ++ u :: ts))

def scriptTokens (attributes : Attributes) (content : List Token) : List Token :=
  .startTag "script" attributes :: (content ++ [.endTag "script"])

variable {ts us : List Token}

theorem WellNested.of_leaves_append (hts : ∀ t ∈ ts, t.IsLeaf) (h : WellNested us) :
    WellNested (ts ++ us) := by
  induction ts with
  | nil => exact h
  | cons t ts ih =>
    obtain ⟨ht, hts⟩ := List.forall_mem_cons.mp hts
    exact .leaf ht.startTag ht.endTag (ih hts)

theorem Forest.wellNested_tokens (f : Forest) : WellNested f.tokens := by
  induction f using Forest.leavesRec with
  | nil => exact .nil
  | leaves ts f g hts htokens ih =>
    rw [htokens]
    exact .of_leaves_append hts ih
  | element name attributes children f hv ihc ih =>
    rw [tokens, hv, if_neg Bool.false_ne_true]
    exact .element rfl rfl rfl ihc ih

theorem WellNested.script (attributes : Attributes) (h : WellNested ts) :
    WellNested (scriptTokens attributes ts) :=
  .element rfl rfl rfl h .nil

theorem WellNested.head?_kind (h : WellNested ts) : ∀ t ∈ ts.head?, t.kind ≠ .endTag := by
  cases h with
  | nil => simp
  | leaf hs he h => simpa using he
  | element ht hu hn hi h => simp [ht]

end HtmlMarkdown.Html

namespace HtmlMarkdown.Conversion

open Html (WellNested scriptTokens)

structure Mutes (o : Options) (rest : List Html.Token) (s : State) (ts : List Html.Token)
    (s' : State) : Prop where
  passes : Passes o rest s ts s'
  emitted : s'.emitted = s.emitted
  index : s'.index = s.index + ts.length
  silent : ∀ step ∈ s.trace o ts rest, step.2.produced = []

variable {o : Options} {w : Window} {last : Option Markdown.Token} {rest ts us : List Html.Token}
  {s s' s'' : State} {t u : Html.Token} {attributes : Html.Attributes} {ctx : Context}
  {r : Reaction}

namespace Mutes

theorem nil (s : State) : Mutes o rest s [] s := ⟨.nil s, rfl, rfl, List.forall_mem_nil _⟩

theorem cons (hr : react o (s.window t (ts ++ rest)) s.emitted.head? s.context = .ok r)
    (hp : r.produced = []) (hl : r.replacesLast = false) (h : Mutes o rest (s.accept t r) ts s') :
    Mutes o rest s (t :: ts) s' where
  passes := .cons hr h.passes
  emitted := by simp [h.emitted, State.accept, hp, hl]
  index := by
    rw [h.index, List.length_cons]
    exact Nat.add_right_comm s.index 1 ts.length
  silent := by
    rw [Passes.trace_cons hr]
    exact List.forall_mem_cons.mpr ⟨hp, h.silent⟩

theorem append (h : Mutes o (us ++ rest) s ts s') (h' : Mutes o rest s' us s'') :
    Mutes o rest s (ts ++ us) s'' where
  passes := h.passes.append h'.passes
  emitted := h'.emitted.trans h.emitted
  index := by rw [h'.index, h.index, List.length_append, Nat.add_assoc]
  silent := by
    rw [h.passes.trace_append]
    exact List.forall_mem_append.mpr ⟨h.silent, h'.silent⟩

end Mutes

def scriptDepth (t : Html.Token) (n : Nat) : Nat :=
  if t.tagName ≠ "script" then n
  else match t.kind with
    | .startTag => n + 1
    | .endTag => n - 1
    | _ => n

theorem react_stripped (w : Window) (last : Option Markdown.Token) (ctx : Context)
    (ho : o.stripScripts = true) (hs : 0 < ctx.scriptStrip) :
    react o w last ctx =
      .ok (.quiet { ctx with scriptStrip := scriptDepth w.token ctx.scriptStrip }) := by
  rw [react_of_stripped (Context.region_eq_stripped_iff.mpr ⟨ho, hs⟩)]
  unfold insideStripped scriptDepth
  split_ifs
  · rfl
  · cases w.token.kind <;> rfl

theorem scriptDepth_leaf (hs : t.kind ≠ .startTag) (he : t.kind ≠ .endTag) (n : Nat) :
    scriptDepth t n = n := by
  unfold scriptDepth
  split_ifs
  · rfl
  · split <;> first | contradiction | rfl

theorem le_scriptDepth (ht : t.kind = .startTag) (n : Nat) : n ≤ scriptDepth t n := by
  unfold scriptDepth
  split_ifs
  · exact Nat.le_refl n
  · simp [ht]

theorem scriptDepth_element (ht : t.kind = .startTag) (hu : u.kind = .endTag)
    (hn : u.name = t.name) (n : Nat) : scriptDepth u (scriptDepth t n) = n := by
  have htag : u.tagName = t.tagName := by rw [Html.Token.tagName, hn]; rfl
  unfold scriptDepth
  rw [htag]
  split_ifs
  · rfl
  · simp [ht, hu]

/-- Well-nested content of a stripped script writes nothing and changes no count. -/
theorem exists_mutes_stripped (ho : o.stripScripts = true) (h : WellNested ts)
    (rest : List Html.Token) (s : State) (hs : 0 < s.context.scriptStrip) :
    ∃ s', Mutes o rest s ts s' ∧ s'.context = s.context := by
  induction h generalizing rest s with
  | nil => exact ⟨s, .nil s, rfl⟩
  | @leaf t ts hk he _ ih =>
    have hr := react_stripped (s.window t (ts ++ rest)) s.emitted.head? s.context ho hs
    rw [show (s.window t (ts ++ rest)).token = t from rfl, scriptDepth_leaf hk he] at hr
    obtain ⟨s', h', hc⟩ := ih rest (s.accept t (.quiet s.context)) hs
    exact ⟨s', .cons hr rfl rfl h', hc⟩
  | @element t u inner ts ht hu hn _ _ ihi ih =>
    have hr := react_stripped (s.window t (inner ++ u :: ts ++ rest)) s.emitted.head? s.context
      ho hs
    set opened := scriptDepth t s.context.scriptStrip with hopened
    have hpos : 0 < opened := Nat.lt_of_lt_of_le hs (le_scriptDepth ht _)
    obtain ⟨s₁, h₁, hc₁⟩ := ihi (u :: ts ++ rest)
      (s.accept t (.quiet { s.context with scriptStrip := opened })) hpos
    have hr₁ := react_stripped (s₁.window u (ts ++ rest)) s₁.emitted.head? s₁.context ho
      (by rw [hc₁]; exact hpos)
    have hback : { s₁.context with
        scriptStrip := scriptDepth u s₁.context.scriptStrip } = s.context := by
      rw [hc₁]
      exact congrArg (fun n => { s.context with scriptStrip := n })
        (scriptDepth_element ht hu hn s.context.scriptStrip)
    rw [show (s₁.window u (ts ++ rest)).token = u from rfl, hback] at hr₁
    obtain ⟨s₂, h₂, hc₂⟩ := ih rest (s₁.accept u (.quiet s.context)) hs
    exact ⟨s₂, .cons hr rfl rfl (h₁.append (.cons hr₁ rfl rfl h₂)), hc₂⟩

/-- The end tag that stands for a stripped script as a whole. -/
theorem before_script (h : Mutes o rest s (scriptTokens attributes ts) s') :
    s'.before = some (.endTag "script") := by
  rw [h.passes.before_eq, scriptTokens, ← List.cons_append, List.getLast?_append]
  rfl

theorem roleOf_script : Html.roleOf "script" = .script := by decide

/-- A script that is left out writes nothing and leaves the context as it was. -/
theorem exists_mutes_script (ho : o.stripScripts = true) (attributes : Html.Attributes)
    (h : WellNested ts) (rest : List Html.Token) (s : State)
    (hs : s.context.region o ≠ .sensitive) :
    ∃ s', Mutes o rest s (scriptTokens attributes ts) s' ∧ s'.context = s.context := by
  by_cases hstrip : 0 < s.context.scriptStrip
  · exact exists_mutes_stripped ho (.script attributes h) rest s hstrip
  have hreg : s.context.region o = .ordinary := by
    cases hregion : s.context.region o with
    | stripped => exact absurd (Context.region_eq_stripped_iff.mp hregion).2 hstrip
    | sensitive => exact absurd hregion hs
    | ordinary => rfl
  cases ts with
  | nil =>
    have hempty {w : Window} (hn : w.token.name = some "script")
        (hk : w.token.kind = .startTag ∨ w.token.kind = .endTag)
        (he : w.isEmptyPair "script" = true) (last : Option Markdown.Token) :
        react o w last s.context = .ok (.remark s.context (.emptyElement "script")) := by
      rw [react_of_ordinary hreg, ordinary]
      have htag : tag o w s.context = .ok (emptyPair o w.token "script" s.context) :=
        tag_of_emptyPair hn he
      have hbare : Html.isBareLink "script" = false := by decide
      rw [emptyPair, hbare, if_neg Bool.false_ne_true] at htag
      rcases hk with hk | hk <;> rw [hk] <;> exact htag
    refine ⟨_, .cons (hempty rfl (.inl rfl) rfl _) rfl rfl
      (.cons (hempty rfl (.inr rfl) rfl _) rfl rfl (.nil _)), rfl⟩
  | cons t ts =>
    have hopen : react o (s.window (.startTag "script" attributes)
        (t :: ts ++ [.endTag "script"] ++ rest)) s.emitted.head? s.context =
          .ok (.quiet (s.context.enter .scriptStrip)) := by
      have hfull : (s.window (.startTag "script" attributes)
          (t :: ts ++ [.endTag "script"] ++ rest)).isEmptyPair "script" = false := by
        have ht := h.head?_kind t rfl
        simp [Window.isEmptyPair, State.window, Html.Token.startTag, Html.Token.isNamed, ht]
      rw [react_of_ordinary hreg]
      refine (tag_of_content rfl hfull).trans ?_
      simp [pairedTag, State.window, Html.Token.startTag, Html.Token.tagName, roleOf_script,
        script, ho]
    obtain ⟨s₁, h₁, hc₁⟩ := exists_mutes_stripped ho h (.endTag "script" :: rest)
      (s.accept (.startTag "script" attributes) (.quiet (s.context.enter .scriptStrip)))
      (Nat.succ_pos _)
    have hclose := react_stripped (s₁.window (.endTag "script") rest) s₁.emitted.head?
      s₁.context ho (by rw [hc₁]; exact Nat.succ_pos _)
    refine ⟨_, .cons hopen rfl rfl (h₁.append (.cons hclose rfl rfl (.nil _))), ?_⟩
    rw [State.context_accept, hc₁]
    rfl

end HtmlMarkdown.Conversion
