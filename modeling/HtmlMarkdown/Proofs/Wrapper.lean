import HtmlMarkdown.Proofs.Balance
import HtmlMarkdown.Proofs.Replacement
import HtmlMarkdown.Proofs.Resemblance

/-!
# The wrapper of a fragment

A fragment is read inside an element of its own, whose tags stand around its tokens. Neither tag
leaves a trace: behind the start tag a conversion is where one of the content alone begins, one
position later, and no rule sees the end tag behind a token of the content.
-/

namespace HtmlMarkdown.Conversion

open Html (Forest)

def wrapped (attributes : Html.Attributes) (ts : List Html.Token) : List Html.Token :=
  .startTag Html.fragmentTag attributes :: (ts ++ [.endTag Html.fragmentTag])

theorem roleOf_fragmentTag : Html.roleOf Html.fragmentTag = .other := by decide

variable {o : Options} {w w' : Window} {ctx : Context}

section EndTag

variable {ts : List Html.Token} {t u : Html.Token}

theorem matchingEnd_concat {name : String} (hs : u.isNamed .startTag name = false)
    (he : u.isNamed .endTag name = false) (depth : Nat) (ts : List Html.Token) :
    matchingEnd name depth (ts ++ [u]) = matchingEnd name depth ts := by
  induction ts generalizing depth with
  | nil => simp [matchingEnd, hs, he]
  | cons t ts ih => simp only [List.cons_append, matchingEnd, ih]

theorem any_getElem?_concat {p : Html.Token → Bool} (hu : p u = false) (i : Nat) :
    (ts ++ [u])[i]?.any p = ts[i]?.any p := by
  rw [List.getElem?_append]
  split
  · rfl
  · next hi =>
    rw [List.getElem?_eq_none (Nat.le_of_not_lt hi), List.getElem?_singleton]
    split <;> simp [hu]

theorem nextAcrossSpace_concat {p : Html.Token → Bool} (hu : p u = false) (ts : List Html.Token) :
    nextAcrossSpace p (ts ++ [u]) = nextAcrossSpace p ts := by
  rcases ts with _ | ⟨t, _ | ⟨t', ts⟩⟩ <;> simp [nextAcrossSpace, hu]

theorem isNamed_endTag_fragment {kind : Html.Kind} {name : String}
    (h : kind = .endTag → name ≠ Html.fragmentTag) :
    (Html.Token.endTag Html.fragmentTag).isNamed kind name = false := by
  simp only [Html.Token.isNamed, Html.Token.endTag, Bool.and_eq_false_iff, beq_eq_false_iff_ne]
  by_cases hk : kind = .endTag
  · exact .inr fun hn => h hk (Option.some.inj hn).symm
  · exact .inl (Ne.symm hk)

/-- The end tag of the wrapper is no part of a fused pair of emphasis. -/
theorem fusedEnd?_concat (before : Option Html.Token) (index : Nat) {strong : Bool}
    (hrole : Html.roleOf t.tagName = .emphasis strong) (ts : List Html.Token) :
    Window.fusedEnd? { before, index, token := t, after := ts ++ [.endTag Html.fragmentTag] }
        strong = Window.fusedEnd? { before, index, token := t, after := ts } strong := by
  have hne {name : String} {b : Bool} (hn : Html.roleOf name = .emphasis b) :
      name ≠ Html.fragmentTag := by
    rintro rfl
    rw [roleOf_fragmentTag] at hn
    cases hn
  cases ts with
  | nil => simp [Window.fusedEnd?, Html.Token.endTag]
  | cons inner us =>
    unfold Window.fusedEnd?
    dsimp only [List.cons_append]
    split
    · next hinner =>
      rw [← List.cons_append, matchingEnd_concat (isNamed_endTag_fragment (by simp))
        (isNamed_endTag_fragment fun _ => hne hinner.2)]
      simp only [any_getElem?_concat (p := (·.isNamed .endTag t.tagName))
        (isNamed_endTag_fragment fun _ => hne hrole)]
    · rfl

/-- No rule sees the end tag of the wrapper behind a token, unless it is a start tag in front of
it. -/
theorem resembles_concat (s : State) (h : ts = [] → t.kind ≠ .startTag) :
    (s.window t ts).Resembles (s.window t (ts ++ [.endTag Html.fragmentTag])) where
  index := rfl
  token := rfl
  isEmptyPair := by
    funext name
    cases ts with
    | nil =>
      unfold State.window Window.isEmptyPair
      cases hk : t.kind <;> first | rfl | exact absurd hk (h rfl)
    | cons u us => rfl
  listFollows := nextAcrossSpace_concat rfl ts
  codeFollows := nextAcrossSpace_concat rfl ts
  flatText? := by
    rcases ts with _ | ⟨u, _ | ⟨u', us⟩⟩
    · rfl
    · simp [Window.flatText?, State.window, Html.Token.isNamed, Html.Token.endTag,
        Html.fragmentTag]
    · rfl
  fusedEnd? := fun _ hrole => fusedEnd?_concat s.before s.index hrole ts

/-- A passage up to the end of a stream is the same in front of the end tag of the wrapper. -/
theorem Passes.before_fragmentEnd {s s' : State} (h : Passes o [] s ts s')
    (hlast : ∀ t ∈ ts.getLast?, t.kind ≠ .startTag) :
    Passes o [.endTag Html.fragmentTag] s ts s' := by
  induction h with
  | nil => exact .nil _
  | @cons s s' t ts r hr _ ih =>
    have hend : ts = [] → t.kind ≠ .startTag := by
      rintro rfl
      exact hlast t rfl
    have hsees := resembles_concat s hend
    refine .cons ?_ (ih fun u hu => hlast u ?_)
    · rw [hsees.react_eq]
      rwa [List.append_nil] at hr
    · rw [List.getLast?_cons, Option.mem_def.mp hu]
      rfl

end EndTag

section StartTag

variable {ts : List Html.Token}

/-- What stands in front of the first token matters to an end tag only. -/
theorem Passes.with_before {rest : List Html.Token} {s s' : State} (h : Passes o rest s ts s')
    (hfirst : ∀ t ∈ ts.head?, t.kind ≠ .endTag) (hne : ts ≠ []) (before : Option Html.Token) :
    Passes o rest { s with before } ts s' := by
  cases h with
  | nil => exact absurd rfl hne
  | @cons _ _ t ts r hr hs =>
    have hsees : (s.window t (ts ++ rest)).Resembles
        (({ s with before } : State).window t (ts ++ rest)) :=
      { index := rfl, token := rfl, listFollows := rfl, codeFollows := rfl, flatText? := rfl
        fusedEnd? := fun _ _ => rfl
        isEmptyPair := by
          funext name
          unfold State.window Window.isEmptyPair
          cases hk : t.kind <;> first | rfl | exact absurd hk (hfirst t rfl) }
    exact .cons (by rwa [hsees.react_eq]) hs

end StartTag

/-- A tag of the wrapper leads to nothing, whatever stands beside it. -/
theorem exists_react_fragmentTag (hname : w.token.name = some Html.fragmentTag)
    (hkind : w.token.kind = .startTag ∨ w.token.kind = .endTag)
    (hregion : ctx.region o = .ordinary) (last : Option Markdown.Token) :
    ∃ notices, react o w last ctx = .ok { context := ctx, notices } := by
  have htagName : w.token.tagName = Html.fragmentTag := by simp [Html.Token.tagName, hname]
  have htag : ∃ notices, tag o w ctx = .ok { context := ctx, notices } := by
    rw [tag, hname, Option.filter_some]
    split
    · next hn =>
      split at hn
      · cases hn
        exact ⟨[.emptyElement Html.fragmentTag], rfl⟩
      · cases hn
    · exact ⟨[], by simp only [pairedTag, htagName, roleOf_fragmentTag, otherTag, if_true]; rfl⟩
  rw [react_of_ordinary hregion]
  unfold ordinary
  rcases hkind with hk | hk <;> simpa only [hk] using htag

theorem region_of_resumes (h : ({} : Context).Resumes ctx) : ctx.region o = .ordinary := by
  have hscript : ctx.scriptStrip = 0 := h.scriptStrip_eq
  exact Context.region_eq_ordinary_iff.mpr ⟨by simp [hscript], h.sensitive_eq⟩

/-- A conversion that begins one position later, behind another token, ends alike. -/
theorem exists_passes_behind (o : Options) (f : Forest) (s₁ : State) (hindex : s₁.index = 1)
    (hcontext : s₁.context = {}) (hemitted : s₁.emitted = []) :
    ∃ s s', Passes o [] {} f.tokens s ∧ Passes o [] s₁ f.tokens s' ∧
      s'.finished = s.finished ∧ s'.context.region o = .ordinary := by
  by_cases hne : f.tokens = []
  · rw [hne]
    refine ⟨{}, s₁, .nil _, .nil _, ?_, ?_⟩
    · rw [State.finished, hcontext, hemitted]
      rfl
    · rw [hcontext]
      exact region_of_resumes (.refl (Nat.le_refl 0))
  obtain ⟨s, hs, hresumes⟩ := exists_passes_tokens o f [] {} (Nat.le_refl 0)
  have hstart : Parallel 0 0 1 {} { s₁ with before := none } :=
    { before := rfl
      emitted := hemitted
      context := by
        dsimp only
        rw [hcontext]
        rfl
      aligned := by
        dsimp only
        rw [hcontext]
        exact aligned_start 0 0 1 }
  have hends := hstart.run_behind (o := o) (q := 0) rfl hindex f.tokens
  rw [hs.run_nil] at hends
  obtain ⟨hfailure, hstate⟩ := hends
  cases hrun' : ({ s₁ with before := none } : State).run o f.tokens with
  | mk s' failure =>
    rw [hrun'] at hfailure hstate
    obtain rfl : failure = none := hfailure
    refine ⟨s, s', hs, (Passes.of_run hrun').with_before f.head?_tokens_kind hne s₁.before,
      hstate.finished_eq, ?_⟩
    have hscript : s'.context.scriptStrip = s.context.scriptStrip := by
      rw [hstate.context]
      rfl
    have hsensitive : s'.context.sensitive = s.context.sensitive := by
      rw [hstate.context]
      rfl
    have hregion : s.context.region o = .ordinary := region_of_resumes hresumes
    rw [Context.region_eq_ordinary_iff] at hregion ⊢
    rwa [hscript, hsensitive]

/-- The tags of the wrapper of a fragment change nothing. -/
theorem convert_in_wrapper (o : Options) (attributes : Html.Attributes) (f : Forest) :
    convert o (wrapped attributes f.tokens) = convert o f.tokens := by
  have hregion : ({} : Context).region o = .ordinary := region_of_resumes (.refl (Nat.le_refl 0))
  obtain ⟨opening, hopen⟩ := exists_react_fragmentTag (o := o)
    (w := ({} : State).window (.startTag Html.fragmentTag attributes)
      (f.tokens ++ [.endTag Html.fragmentTag])) rfl (.inl rfl) hregion none
  obtain ⟨s, s', hs, hs', hfinished, hregion'⟩ := exists_passes_behind o f
    (({} : State).accept (.startTag Html.fragmentTag attributes)
      { context := {}, notices := opening }) rfl rfl rfl
  obtain ⟨closing, hclose⟩ := exists_react_fragmentTag
    (w := s'.window (.endTag Html.fragmentTag) []) rfl (.inr rfl) hregion' s'.emitted.head?
  have hbefore := hs'.before_fragmentEnd f.getLast?_tokens_kind
  rw [hs.convert_eq, ← hfinished]
  refine (Passes.cons ?_ (hbefore.append (.cons hclose (.nil _)))).convert_eq
  rw [List.append_nil]
  exact hopen

theorem render_in_wrapper (c : Converter) (attributes : Html.Attributes) (f : Forest) :
    c.render (wrapped attributes f.tokens) = c.render f.tokens := by
  rw [Converter.render, Converter.render, Converter.adapt, Converter.adapt, convert_in_wrapper]

/-- The wrapper of a fragment is invisible: with its tags around them the tokens of a forest are
converted as they are alone. So a converter that reads HTML itself writes what it writes for the
tokens inside the wrapper. -/
theorem convert_wrapped (o : Options) (attributes : Html.Attributes) (f : Forest) :
    convert o (wrapped attributes f.tokens) = convert o f.tokens ∧
      (∀ c : Converter, c.render (wrapped attributes f.tokens) = c.render f.tokens) ∧
      ∀ (c : Converter) (html : String), Text.isBlank html = false →
        Html.readFragment (Text.trimLines html) =
          .element Html.fragmentTag attributes f .nil →
        c.transform html = c.render f.tokens := by
  refine ⟨convert_in_wrapper o attributes f, fun c => render_in_wrapper c attributes f,
    fun c html hblank hread => ?_⟩
  have htokens : (Html.readFragment (Text.trimLines html)).tokens =
      wrapped attributes f.tokens := by
    rw [hread]
    rfl
  rw [Converter.transform, Converter.transformWith_of_not_isBlank hblank, htokens,
    render_in_wrapper]

/-- A text that is emphasized twice is fused inside its wrapper as it is alone. -/
theorem transform_fused_fragment :
    let html := "<em><strong>x</strong></em>"
    let inner : Forest := .element "em" ∅ (.element "strong" ∅ (.text "x" .nil) .nil) .nil
    Html.readFragment (Text.trimLines html) = .element Html.fragmentTag
        (.ofList [(.plain "id", Html.fragmentId)]) inner .nil ∧
      (Converter.ofOptions {}).transform html = (Converter.ofOptions {}).render inner.tokens := by
  intro html inner
  have hread : Html.readFragment (Text.trimLines html) = .element Html.fragmentTag
      (.ofList [(.plain "id", Html.fragmentId)]) inner .nil := by decide +kernel
  exact ⟨hread, (convert_wrapped {} _ inner).2.2 _ html (by decide +kernel) hread⟩

end HtmlMarkdown.Conversion
