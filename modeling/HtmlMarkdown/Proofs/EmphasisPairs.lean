import HtmlMarkdown.Proofs.EmphasisWord
import HtmlMarkdown.Proofs.Emitted
import HtmlMarkdown.Proofs.Lookahead

/-!
# Pairs of emphasis

What is looked up ahead at the start tag of an emphasis is whether it is the outer one of a pair,
and what is settled there for three tags to come is taken up by these tags and by no others. So the
steps over a forest write the word of its markers, and at the end nothing is left that was settled
ahead.
-/

namespace HtmlMarkdown.Conversion

open Html (Forest)
open Markdown (Edge Token Tag)

variable {o : Options} {w : Window} {last : Option Token} {ctx c c' : Context} {r : Reaction}
  {s s₁ s' : State} {ts us rest : List Html.Token} {t : Html.Token}

/-- The end of an inner emphasis comes directly behind its content. -/
theorem matchingEnd_element (name : String) (attributes : Html.Attributes) (children : Forest)
    (rest : List Html.Token) :
    matchingEnd name 0 (.startTag name attributes :: (children.tokens ++ .endTag name :: rest)) =
      some (children.tokens.length + 1) := by
  have hstart : (Html.Token.startTag name attributes).isNamed .startTag name = true := by
    simp [Html.Token.isNamed, Html.Token.startTag]
  have hend : (Html.Token.endTag name).isNamed .endTag name = true := by
    simp [Html.Token.isNamed, Html.Token.endTag]
  rw [matchingEnd_of_start hstart,
    matchingEnd_append_of_wellNested children.wellNested_tokens (Nat.le_refl 1), matchingEnd,
    if_neg (by simp [not_start_of_end hend]), if_pos hend, if_pos (Nat.le_refl 1)]
  simp

/-- The end of the outer emphasis comes directly behind the inner one if there is nothing else. -/
theorem endsBehind_tokens (g : Forest) (name : String) (rest : List Html.Token) :
    ((g.tokens ++ .endTag name :: rest)[0]?.any (·.isNamed .endTag name)) = g.tokens.isEmpty := by
  cases hg : g.tokens with
  | nil => simp [Html.Token.isNamed, Html.Token.endTag]
  | cons t ts =>
    have hk := g.head?_tokens_kind t (by simp [hg])
    simp [Html.Token.isNamed, hk]

/-- At the start tag of an emphasis a pair is found if the content is nothing but the other kind,
and its inner end is the last token of the content. -/
theorem fusedEnd?_startTag {name : String} {attributes : Html.Attributes} (children : Forest)
    (strong : Bool) (rest : List Html.Token) :
    (s.window (.startTag name attributes)
        (children.tokens ++ .endTag name :: rest)).fusedEnd? strong =
      if children.isEmphasis (!strong) then some (children.tokens.length - 1) else none := by
  unfold Forest.isEmphasis
  rcases children.tokens_cases with ⟨hnil, hsole⟩ | ⟨t, ts, htokens, hk, hsole⟩ |
    ⟨inner, innerAttributes, content, g, htokens, hsole⟩
  · simp [Window.fusedEnd?, State.window, hnil, hsole, Html.Token.endTag]
  · simp [Window.fusedEnd?, State.window, htokens, hk, hsole]
  · have hafter : children.tokens ++ .endTag name :: rest =
        .startTag inner innerAttributes ::
          (content.tokens ++ .endTag inner :: (g.tokens ++ .endTag name :: rest)) := by
      rw [htokens]
      simp
    have hbehind : (children.tokens ++ .endTag name :: rest)[content.tokens.length + 2]? =
        (g.tokens ++ .endTag name :: rest)[0]? := by
      rw [hafter, List.getElem?_cons_succ,
        List.getElem?_append_right (Nat.le_add_right _ 1), Nat.add_sub_cancel_left]
      rfl
    have hlength : g.tokens = [] → children.tokens.length - 1 = content.tokens.length + 1 := by
      intro hg
      rw [htokens, hg]
      simp
    have hfused : (s.window (.startTag name attributes)
        (children.tokens ++ .endTag name :: rest)).fusedEnd? strong =
          if Html.roleOf inner = .emphasis (!strong) then
            (some (content.tokens.length + 1)).filter fun place => 2 ≤ place &&
              (children.tokens ++ .endTag name :: rest)[place + 1]?.any (·.isNamed .endTag name)
          else none := by
      rw [← matchingEnd_element inner innerAttributes content (g.tokens ++ .endTag name :: rest),
        ← hafter]
      simp only [Window.fusedEnd?, State.window, hafter]
      simp [Html.Token.startTag, Html.Token.tagName]
    rw [hfused, hsole, Option.filter_some, hbehind, endsBehind_tokens]
    by_cases hrole : Html.roleOf inner = .emphasis (!strong)
    · rw [if_pos hrole]
      by_cases hg : g.tokens = []
      · rw [hlength hg, hg]
        cases hcontent : content.tokens <;> simp [hrole, hcontent]
      · simp [hg]
    · rw [if_neg hrole]
      split_ifs <;> simp_all

theorem readsMarks_marker? : ReadsMarks marker? where
  node t u h := by
    unfold marker? Token.tag?
    rw [h]
  unmarked u h := by
    unfold marker?
    split <;> first | rfl | (next htag => simp [Token.tagIs, htag, Tag.isMarked] at h)

theorem marker?_emphasisMarker (o : Options) (strong : Bool) :
    marker? (emphasisMarker o strong) = some (.own strong) := by
  cases strong <;> rfl

def stepWord (step : Html.Token × Reaction) : List (Edge × Marker) :=
  (step.2.written.filterMap marker?).map
    ((if step.1.kind = .startTag then .opening else .closing), ·)

/-- What is settled ahead for the tokens from one position up to another one. For the content of
the outer one of a pair this is that the first tag is left out and the last one ends the pair. -/
def Planned (isInner : Bool) (first last : Nat) (ctx : Context) : Prop :=
  ∀ k, first ≤ k → k < last → ctx.fusions.get? k =
    if isInner then
      if k = first then some .swallow else if k + 1 = last then some .emit else none
    else none

def UsedUp (first last : Nat) (ctx ctx' : Context) : Prop :=
  ∀ k, ctx'.fusions.get? k = if first ≤ k ∧ k < last then none else ctx.fusions.get? k

theorem UsedUp.trans {first middle last : Nat} (h : UsedUp first middle ctx c)
    (h' : UsedUp middle last c c') (hle : first ≤ middle) (hle' : middle ≤ last) :
    UsedUp first last ctx c' := by
  intro k
  rw [h' k, h k]
  split_ifs <;> first | rfl | omega

theorem UsedUp.congr {first last : Nat} {c'' : Context} (h : UsedUp first last c c')
    (hc : c.fusions = ctx.fusions) (hc' : c''.fusions = c'.fusions) :
    UsedUp first last ctx c'' := by
  intro k
  rw [hc', h k, hc]

theorem UsedUp.widen {first last first' last' : Nat} (h : UsedUp first last ctx c)
    (hp : Planned false first' last' ctx) (hfirst : first' ≤ first) (hlast : last ≤ last') :
    UsedUp first' last' ctx c := by
  intro k
  rw [h k]
  split_ifs with hk hk' hk'
  · rfl
  · omega
  · exact hp k hk'.1 hk'.2
  · rfl

/-- Nothing is used up where nothing is settled. -/
theorem UsedUp.of_eq {first last : Nat} (h : c.fusions = ctx.fusions)
    (hp : Planned false first last ctx) : UsedUp first last ctx c := by
  intro k
  rw [h]
  split_ifs with hk
  · exact hp k hk.1 hk.2
  · rfl

theorem Planned.narrow {first last first' last' : Nat} (h : Planned false first last ctx)
    (hc : c.fusions = ctx.fusions) (hfirst : first ≤ first') (hlast : last' ≤ last) :
    Planned false first' last' c := by
  intro k hk hk'
  rw [hc]
  exact h k (Nat.le_trans hfirst hk) (Nat.lt_of_lt_of_le hk' hlast)

/-- The inner one of a pair has nothing behind it, so what is settled for it is all there is. -/
theorem Planned.front {isInner : Bool} {first middle last : Nat}
    (h : Planned isInner first last ctx) (hle : middle ≤ last)
    (hin : isInner = true → middle = last) : Planned isInner first middle ctx := by
  cases isInner with
  | true => exact hin rfl ▸ h
  | false => exact h.narrow rfl (Nat.le_refl _) hle

/-- Behind what is used up there is only what was settled for later tokens. -/
theorem UsedUp.behind {isInner : Bool} {first middle last : Nat} (h : UsedUp first middle ctx c)
    (hp : Planned isInner first last ctx) (hle : first ≤ middle)
    (hin : isInner = true → middle = last) : Planned false middle last c := by
  intro k hk hk'
  rw [h k, if_neg fun hused => absurd hused.2 (Nat.not_lt.mpr hk)]
  cases isInner with
  | true => exact absurd (hin rfl ▸ hk) (Nat.not_le.mpr hk')
  | false => exact hp k (Nat.le_trans hle hk) hk'

structure State.Emphasizes (o : Options) (s : State) (ts rest : List Html.Token) (s' : State)
    (word : List (List (Edge × Marker))) : Prop where
  word : (s.trace o ts rest).map stepWord = word
  usedUp : UsedUp s.index (s.index + ts.length) s.context s'.context

theorem stepWord_emit (t : Html.Token) (c : Context) (us : List Token) :
    stepWord (t, .emit c us) = (us.filterMap marker?).map
      ((if t.kind = .startTag then .opening else .closing), ·) := by
  rw [stepWord, readsMarks_marker?.written]
  rfl

theorem stepWord_marker (t : Html.Token) (c : Context) (strong : Bool) :
    stepWord (t, .emit c [emphasisMarker o strong]) =
      (Part.single strong).word (if t.kind = .startTag then .opening else .closing) := by
  rw [stepWord_emit, List.filterMap_cons_some (marker?_emphasisMarker o strong)]
  rfl

theorem stepWord_eq_nil {step : Html.Token × Reaction}
    (h : step.2.written.filterMap marker? = []) : stepWord step = [] := by
  rw [stepWord, h]
  rfl

namespace State.Emphasizes

variable {word word' : List (List (Edge × Marker))}

theorem append (hp : Passes o (us ++ rest) s ts s₁) (h : s.Emphasizes o ts (us ++ rest) s₁ word)
    (h' : s₁.Emphasizes o us rest s' word') :
    s.Emphasizes o (ts ++ us) rest s' (word ++ word') := by
  refine ⟨?_, ?_⟩
  · rw [hp.trace_append, List.map_append, h.word, h'.word]
  · have hused := h'.usedUp
    rw [hp.index_eq] at hused
    rw [List.length_append, ← Nat.add_assoc]
    exact h.usedUp.trans hused (Nat.le_add_right _ _) (Nat.le_add_right _ _)

theorem of_bystands (hp : Passes o rest s ts s') (h : s.Bystands o ts rest s')
    (hplan : Planned false s.index (s.index + ts.length) s.context) :
    s.Emphasizes o ts rest s' (List.replicate ts.length []) := by
  refine ⟨?_, .of_eq h.spares.fusions hplan⟩
  have hnone : ∀ step ∈ s.trace o ts rest, stepWord step = [] := fun step hstep =>
    stepWord_eq_nil (readsMarks_marker?.written_of_isPlain (h.arePlain step hstep))
  rw [List.map_congr_left hnone, List.map_const', ← congrArg List.length hp.map_fst_trace,
    List.length_map]

end State.Emphasizes

theorem fusions_openList (kind : Html.ListKind) (ctx : Context) :
    (openList kind ctx).context.fusions = ctx.fusions := by
  obtain ⟨_, ⟨_, rfl⟩, h | h⟩ := openList_eq kind ctx <;> rw [h] <;> rfl

theorem fusions_closeList {more : Bool} (h : closeList more ctx = .ok r) :
    r.context.fusions = ctx.fusions := by
  obtain ⟨_, ⟨_, rfl⟩, rfl | rfl⟩ := closeList_eq h <;> rfl

theorem fusions_nextBullet (o : Options) (ctx : Context) :
    (nextBullet o ctx).1.fusions = ctx.fusions := by
  obtain ⟨lists, -, h⟩ := nextBullet_eq o ctx
  rw [h]

/-- Only the tags of emphasis that plays its part write markers, or see what is settled ahead. -/
theorem spares_fusions (h : react o w last ctx = .ok r)
    (hn : ∀ strong, ¬w.PlaysMarked o ctx (.emphasis strong)) :
    r.context.fusions = ctx.fusions ∧ r.written.filterMap marker? = [] := by
  rcases bystands_or_playsMarked h with hby | ⟨role, hp⟩
  · exact ⟨hby.spares.fusions, readsMarks_marker?.written_of_isPlain hby.isPlain⟩
  rw [react_of_plays hp.plays hp.edge, pairedTag, hp.plays.role] at h
  have hmarked := hp.marked
  cases role with
  | list kind =>
    dsimp only at h
    split_ifs at h
    · cases h
      exact ⟨fusions_openList kind ctx,
        readsMarks_marker?.written_of_isPlain (isPlain_openList kind)⟩
    · exact ⟨fusions_closeList h, readsMarks_marker?.written_of_isPlain (isPlain_closeList h)⟩
  | item =>
    cases hopening : w.token.kind == .startTag with
    | true =>
      rw [hopening] at h
      cases h
      exact ⟨fusions_nextBullet o _, readsMarks_marker?.written _⟩
    | false =>
      rw [hopening] at h
      have hby := bystands_closeItem h
      exact ⟨hby.spares.fusions, readsMarks_marker?.written_of_isPlain hby.isPlain⟩
  | emphasis strong => exact absurd hp (hn strong)
  | _ => cases hmarked

/-- A tag of emphasis for which something is settled ahead. -/
theorem emphasis_of_settled {strong opening : Bool} {fusion : Fusion}
    (h : ctx.fusions.get? w.index = some fusion) : emphasis o w strong opening ctx =
      .emit { ctx with fusions := ctx.fusions.erase w.index } (fusion.tokens o) := by
  simp only [emphasis, h]

theorem emphasis_single {strong opening : Bool} (h : ctx.fusions.get? w.index = none)
    (hf : opening = true → w.fusedEnd? strong = none) :
    emphasis o w strong opening ctx = .emit ctx [emphasisMarker o strong] := by
  cases opening with
  | true => simp [emphasis, h, hf rfl]
  | false => simp [emphasis, h]

theorem emphasis_fused {strong : Bool} {place : Nat} (h : ctx.fusions.get? w.index = none)
    (hf : w.fusedEnd? strong = some place) : emphasis o w strong true ctx =
      .emit (ctx.fuse w.index place) [.boldItalic o.boldItalicMark] := by
  simp [emphasis, h, hf]

theorem get?_fuse (ctx : Context) (index place k : Nat) : (ctx.fuse index place).fusions.get? k =
    if k = index + 2 + place then some .swallow
    else if k = index + 1 + place then some .emit
    else if k = index + 1 then some .swallow else ctx.fusions.get? k := by
  simp only [Context.fuse, OrderedMap.get?_insert]

theorem react_emphasis {strong : Bool} (opening : Bool) (hp : w.Plays o ctx (.emphasis strong))
    (hk : w.token.kind = if opening then .startTag else .endTag) :
    react o w last ctx = .ok (emphasis o w strong opening ctx) := by
  have hedge : w.token.kind = .startTag ∨ w.token.kind = .endTag := by cases opening <;> simp [hk]
  rw [react_of_plays hp hedge, pairedTag, hp.role, hk]
  cases opening <;> rfl

section Element

variable {name : String} {attributes : Html.Attributes} {children : Forest} {r' : Reaction}
  {v v' : List (Edge × Marker)} {content : List (List (Edge × Marker))} {strong : Bool}
  (h : Around o s name attributes children rest r s₁ r')

namespace Around

include h

/-- The words of the two tags stand around the word of the content. -/
theorem emphasizes (hv : stepWord (.startTag name attributes, r) = v)
    (hv' : stepWord (.endTag name, r') = v')
    (hcontent : ((s.accept (.startTag name attributes) r).trace o children.tokens
      (.endTag name :: rest)).map stepWord = content)
    (hused : UsedUp s.index (s.index + 2 + children.tokens.length) s.context r'.context) :
    s.Emphasizes o (.startTag name attributes :: children.tokens ++ [.endTag name]) rest
      (s₁.accept (.endTag name) r') (v :: content ++ [v']) := by
  have hpass : Passes o ([.endTag name] ++ rest) s
      (.startTag name attributes :: children.tokens) s₁ := .cons h.opens h.inside
  refine ⟨?_, by rwa [← h.passes.index_eq, h.index_accept]⟩
  rw [hpass.trace_append, List.singleton_append, Passes.trace_cons h.opens, List.map_append,
    List.map_cons, hv, hcontent, Passes.trace_cons h.closes, List.map_cons, hv']
  rfl

/-- An element without content, or one that is no emphasis. -/
theorem quiet (hn : ∀ strong, Html.roleOf name = .emphasis strong → children.tokens = [])
    (hplan : Planned false s.index (s.index + 2 + children.tokens.length) s.context)
    (hcontent : Planned false (s.index + 1) (s.index + 1 + children.tokens.length) r.context →
      (s.accept (.startTag name attributes) r).Emphasizes o children.tokens (.endTag name :: rest)
        s₁ content) :
    s.Emphasizes o (.startTag name attributes :: children.tokens ++ [.endTag name]) rest
      (s₁.accept (.endTag name) r') ([] :: content ++ [[]]) := by
  obtain ⟨hfusions, hword⟩ := spares_fusions h.opens fun strong hp =>
    hp.plays.of_startTag.2 (hn strong hp.plays.of_startTag.1)
  obtain ⟨hfusions', hword'⟩ := spares_fusions h.closes fun strong hp =>
    (h.of_endTag hp.plays).2 (hn strong (h.of_endTag hp.plays).1)
  have hinner := hcontent (hplan.narrow hfusions (by omega) (by omega))
  have hused : UsedUp (s.index + 1) (s.index + 1 + children.tokens.length) s.context r'.context :=
    hinner.usedUp.congr hfusions hfusions'
  exact h.emphasizes (stepWord_eq_nil hword) (stepWord_eq_nil hword') hinner.word
    (hused.widen hplan (by omega) (by omega))

variable (hrole : Html.roleOf name = .emphasis strong) (hne : children.tokens ≠ [])
include hrole hne

/-- The tags of an emphasis with content are answered by its rule. -/
theorem eq_emphasis :
    r = emphasis o (s.window (.startTag name attributes) (children.tokens ++ .endTag name :: rest))
        strong true s.context ∧
      r' = emphasis o (s₁.window (.endTag name) rest) strong false s₁.context := by
  obtain ⟨hp, hp'⟩ := h.plays hrole rfl hne
  exact ⟨Except.ok.inj (h.opens.symm.trans (react_emphasis true hp rfl)),
    Except.ok.inj (h.closes.symm.trans (react_emphasis false hp' rfl))⟩

/-- Emphasis that is no half of a pair. -/
theorem single (hf : children.isEmphasis (!strong) = false)
    (hplan : Planned false s.index (s.index + 2 + children.tokens.length) s.context)
    (hcontent : Planned false (s.index + 1) (s.index + 1 + children.tokens.length) r.context →
      (s.accept (.startTag name attributes) r).Emphasizes o children.tokens (.endTag name :: rest)
        s₁ content) :
    s.Emphasizes o (.startTag name attributes :: children.tokens ++ [.endTag name]) rest
      (s₁.accept (.endTag name) r') ((Part.single strong).word .opening :: content ++
        [(Part.single strong).word .closing]) := by
  obtain ⟨hr, hr'⟩ := h.eq_emphasis hrole hne
  have hfound : (s.window (.startTag name attributes)
      (children.tokens ++ .endTag name :: rest)).fusedEnd? strong = none := by
    rw [fusedEnd?_startTag, hf, if_neg Bool.false_ne_true]
  rw [emphasis_single (hplan s.index (Nat.le_refl _) (by omega)) fun _ => hfound] at hr
  have hfusions : r.context.fusions = s.context.fusions := by rw [hr]; rfl
  have hinner := hcontent (hplan.narrow hfusions (by omega) (by omega))
  have hused : UsedUp (s.index + 1) (s.index + 1 + children.tokens.length) s.context s₁.context :=
    hinner.usedUp.congr hfusions rfl
  have hwide := hused.widen hplan (by omega) (by omega)
  have hend : s₁.context.fusions.get? s₁.index = none := by
    rw [hwide, if_pos (by rw [h.index_eq]; omega)]
  rw [emphasis_single hend fun hopening => by cases hopening] at hr'
  refine h.emphasizes (hr ▸ stepWord_marker _ _ _) (hr' ▸ stepWord_marker _ _ _) hinner.word ?_
  rw [hr']
  exact hwide

/-- The outer one of a pair: it is written at its start, and what it settles there is used up by
its content and by its end. -/
theorem outer (hf : children.isEmphasis (!strong) = true)
    (hplan : Planned false s.index (s.index + 2 + children.tokens.length) s.context)
    (hcontent : Planned true (s.index + 1) (s.index + 1 + children.tokens.length) r.context →
      (s.accept (.startTag name attributes) r).Emphasizes o children.tokens (.endTag name :: rest)
        s₁ content) :
    s.Emphasizes o (.startTag name attributes :: children.tokens ++ [.endTag name]) rest
      (s₁.accept (.endTag name) r') (Part.outer.word .opening :: content ++
        [Part.outer.word .closing]) := by
  obtain ⟨hr, hr'⟩ := h.eq_emphasis hrole hne
  have hlength := Forest.three_le_of_isEmphasis hf
  have hfound : (s.window (.startTag name attributes)
      (children.tokens ++ .endTag name :: rest)).fusedEnd? strong =
        some (children.tokens.length - 1) := by
    rw [fusedEnd?_startTag, hf, if_pos rfl]
  rw [emphasis_fused (hplan s.index (Nat.le_refl _) (by omega)) hfound] at hr
  have hget (k : Nat) : r.context.fusions.get? k =
      if k = s₁.index then some .swallow
      else if k + 1 = s₁.index then some .emit
      else if k = s.index + 1 then some .swallow else s.context.fusions.get? k := by
    rw [hr]
    refine (get?_fuse s.context s.index (children.tokens.length - 1) k).trans ?_
    rw [h.index_eq]
    split_ifs <;> first | rfl | omega
  have hinner := hcontent fun k hk hk' => by
    have hnone : s.context.fusions.get? k = none := hplan k (by omega) (by omega)
    change _ = if k = s.index + 1 then _ else if k + 1 = _ then _ else _
    rw [hget, hnone, h.index_eq]
    split_ifs <;> first | rfl | omega
  have hused : UsedUp (s.index + 1) (s.index + 1 + children.tokens.length) r.context s₁.context :=
    hinner.usedUp
  have hend : s₁.context.fusions.get? s₁.index = some .swallow := by
    rw [hused, if_neg (by rw [h.index_eq]; omega), hget, if_pos rfl]
  rw [emphasis_of_settled hend] at hr'
  refine h.emphasizes (hr ▸ stepWord_emit _ _ _) (hr' ▸ stepWord_emit _ _ _) hinner.word
    fun k => ?_
  have hnone := hplan k
  rw [hr']
  change (s₁.context.fusions.erase s₁.index).get? k = _
  rw [OrderedMap.get?_erase, hused k, hget, h.index_eq]
  split_ifs <;> first | rfl | omega | exact hnone (by omega) (by omega)

/-- The inner one of a pair: its start is left out, and its end is the end of the pair. -/
theorem inner (hplan : Planned true s.index (s.index + 2 + children.tokens.length) s.context)
    (hcontent : Planned false (s.index + 1) (s.index + 1 + children.tokens.length) r.context →
      (s.accept (.startTag name attributes) r).Emphasizes o children.tokens (.endTag name :: rest)
        s₁ content) :
    s.Emphasizes o (.startTag name attributes :: children.tokens ++ [.endTag name]) rest
      (s₁.accept (.endTag name) r') (Part.inner.word .opening :: content ++
        [Part.inner.word .closing]) := by
  obtain ⟨hr, hr'⟩ := h.eq_emphasis hrole hne
  have hsettled (k : Nat) (hk : s.index ≤ k) (hk' : k < s.index + 2 + children.tokens.length) :
      s.context.fusions.get? k = if k = s.index then some .swallow
        else if k + 1 = s.index + 2 + children.tokens.length then some .emit else none :=
    hplan k hk hk'
  have hstart : s.context.fusions.get? s.index = some .swallow :=
    (hsettled s.index (Nat.le_refl _) (by omega)).trans (if_pos rfl)
  rw [emphasis_of_settled hstart] at hr
  have hget (k : Nat) : r.context.fusions.get? k =
      if k = s.index then none else s.context.fusions.get? k := by
    rw [hr]
    exact OrderedMap.get?_erase _ _ k
  have hinner := hcontent fun k hk hk' => by
    change _ = none
    rw [hget, hsettled k (by omega) (by omega)]
    split_ifs <;> first | rfl | omega
  have hused : UsedUp (s.index + 1) (s.index + 1 + children.tokens.length) r.context s₁.context :=
    hinner.usedUp
  have hend : s₁.context.fusions.get? s₁.index = some .emit := by
    rw [hused, if_neg (by rw [h.index_eq]; omega), hget, h.index_eq,
      hsettled _ (by omega) (by omega)]
    split_ifs <;> first | rfl | omega
  rw [emphasis_of_settled hend] at hr'
  refine h.emphasizes (hr ▸ stepWord_emit _ _ _) (hr' ▸ stepWord_emit _ _ _) hinner.word
    fun k => ?_
  rw [hr']
  change (s₁.context.fusions.erase s₁.index).get? k = _
  rw [OrderedMap.get?_erase, hused k, hget, h.index_eq]
  split_ifs <;> first | rfl | omega

end Around

end Element

section Forests

variable {name : String} {attributes : Html.Attributes} {children f : Forest} {r' : Reaction}
  {isInner : Bool}

/-- An element in ordinary content, by what is shown for its own content. -/
theorem Around.element (h : Around o s name attributes children rest r s₁ r')
    (hin : isInner = true → ∃ strong, Html.roleOf name = .emphasis strong ∧ children.tokens ≠ [])
    (hplan : Planned isInner s.index (s.index + 2 + children.tokens.length) s.context)
    (hcontent : ∀ isInner,
      (isInner = true → r.context.region o = .ordinary ∧
        ∃ strong, children.isEmphasis strong = true) →
      Planned isInner (s.index + 1) (s.index + 1 + children.tokens.length) r.context →
      (s.accept (.startTag name attributes) r).Emphasizes o children.tokens (.endTag name :: rest)
        s₁ (emphasisWord o (r.context.region o) isInner children)) :
    s.Emphasizes o (.startTag name attributes :: children.tokens ++ [.endTag name]) rest
      (s₁.accept (.endTag name) r')
      (wordAt (part? name .ordinary isInner children) .opening ::
        emphasisWord o (Region.inside o name children.tokens .ordinary)
          (part? name .ordinary isInner children = some .outer) children ++
        [wordAt (part? name .ordinary isInner children) .closing]) := by
  have hregion (isInner : Bool) : emphasisWord o (r.context.region o) isInner children =
      emphasisWord o (Region.inside o name children.tokens .ordinary) isInner children := by
    by_cases hne : children.tokens = []
    · have hnil (region : Region) : emphasisWord o region isInner children = [] :=
        List.eq_nil_of_length_eq_zero (by rw [length_emphasisWord, hne]; rfl)
      rw [hnil, hnil]
    · rw [h.content hne]
  have hplain (hp : Planned false (s.index + 1) (s.index + 1 + children.tokens.length) r.context) :=
    hregion false ▸ hcontent false (fun hinner => by cases hinner) hp
  rcases part?_ordinary name isInner children with ⟨hnone, hn⟩ | ⟨strong, hrole, hne, hpart⟩
  · have hfalse : isInner = false := by
      by_contra htrue
      obtain ⟨strong, hrole, hne⟩ := hin (by simpa using htrue)
      exact hne (hn strong hrole)
    subst hfalse
    rw [hnone]
    exact h.quiet hn hplan hplain
  rw [hpart]
  cases isInner with
  | true => exact h.inner hrole hne hplan hplain
  | false =>
    cases hf : children.isEmphasis (!strong) with
    | false => exact h.single hrole hne hf hplan hplain
    | true =>
      have hordinary : r.context.region o = .ordinary :=
        (h.content hne).trans (Region.inside_of_isMarked (by rw [hrole]; rfl) children.tokens)
      exact h.outer hrole hne hf hplan
        (hregion true ▸ hcontent true fun _ => ⟨hordinary, !strong, hf⟩)

/-- Leaves in front of a forest write no markers; there are none in front of the inner one of a
pair. -/
theorem emphasizes_leaves_append (hts : ∀ t ∈ ts, t.IsLeaf)
    (h : Passes o rest s (ts ++ f.tokens) s') (htags : s.context.anchorAsTag ≤ s.context.anchor)
    (hin : isInner = true → ts = [])
    (hplan : Planned isInner s.index (s.index + (ts ++ f.tokens).length) s.context)
    (hf : ∀ s₁, Passes o rest s₁ f.tokens s' → s₁.context.anchorAsTag ≤ s₁.context.anchor →
      s₁.context.region o = s.context.region o →
      Planned isInner s₁.index (s₁.index + f.tokens.length) s₁.context →
        s₁.Emphasizes o f.tokens rest s' (emphasisWord o (s₁.context.region o) isInner f)) :
    s.Emphasizes o (ts ++ f.tokens) rest s' (List.replicate ts.length [] ++
      emphasisWord o (s.context.region o) isInner f) := by
  cases isInner with
  | true =>
    obtain rfl := hin rfl
    exact hf s h htags rfl hplan
  | false =>
    obtain ⟨s₁, h₁, hres, h₂⟩ := h.of_leaves_append hts htags
    rw [List.length_append] at hplan
    have hleaves := h₁.bystands_leaves hts
    have hbehind := hf s₁ h₂ hres.tags hres.region_eq (by
      rw [h₁.index_eq]
      exact hplan.narrow hleaves.spares.fusions (by omega) (by omega))
    rw [hres.region_eq] at hbehind
    exact .append h₁ (.of_bystands h₁ hleaves (hplan.narrow rfl (by omega) (by omega))) hbehind

/-- The emphasis of a forest is written by its word, and what is settled for it is used up. -/
theorem Passes.emphasizes (h : Passes o rest s f.tokens s')
    (htags : s.context.anchorAsTag ≤ s.context.anchor)
    (hin : isInner = true → s.context.region o = .ordinary ∧ ∃ strong, f.isEmphasis strong = true)
    (hplan : Planned isInner s.index (s.index + f.tokens.length) s.context) :
    s.Emphasizes o f.tokens rest s' (emphasisWord o (s.context.region o) isInner f) := by
  induction f generalizing rest s s' isInner with
  | nil =>
    cases h
    refine ⟨rfl, fun k => (if_neg ?_).symm⟩
    simp only [Forest.tokens, List.length_nil]
    omega
  | text content f ih =>
    have hskip (hinner : isInner = true) :
        Html.textTokens content = [] ∧ ∃ strong, f.isEmphasis strong = true := by
      obtain ⟨-, strong, hf⟩ := hin hinner
      exact (isEmphasis_text hf).imp_right fun h => ⟨strong, h⟩
    exact emphasizes_leaves_append (fun _ => Html.isLeaf_of_mem_textTokens) h htags
      (fun hinner => (hskip hinner).1) hplan fun s₁ h₁ htags₁ hreg hplan₁ =>
        ih h₁ htags₁ (fun hinner => ⟨hreg.trans (hin hinner).1, (hskip hinner).2⟩) hplan₁
  | comment content f ih =>
    have hfalse (hinner : isInner = true) : False := by
      obtain ⟨-, strong, hf⟩ := hin hinner
      cases hf
    exact emphasizes_leaves_append (List.forall_mem_singleton.mpr (Html.isLeaf_comment content)) h
      htags (fun hinner => (hfalse hinner).elim) hplan fun s₁ h₁ htags₁ _ hplan₁ =>
        ih h₁ htags₁ (fun hinner => (hfalse hinner).elim) hplan₁
  | element name attributes children f ihc ih =>
    cases hv : Html.isVoid name with
    | true =>
      have hfalse (hinner : isInner = true) : False := by
        obtain ⟨-, strong, hf⟩ := hin hinner
        cases hv.symm.trans (isEmphasis_element hf).1
      rw [Forest.tokens, hv, if_pos rfl] at h hplan ⊢
      rw [emphasisWord, hv, if_pos rfl]
      exact emphasizes_leaves_append
        (List.forall_mem_singleton.mpr (Html.isLeaf_emptyTag attributes hv)) h htags
        (fun hinner => (hfalse hinner).elim) hplan fun s₁ h₁ htags₁ _ hplan₁ =>
          ih h₁ htags₁ (fun hinner => (hfalse hinner).elim) hplan₁
    | false =>
      by_cases hreg : s.context.region o = .ordinary
      swap
      · have hfalse : isInner = false := by
          by_contra htrue
          exact hreg (hin (by simpa using htrue)).1
        rw [emphasisWord_inside hreg]
        exact .of_bystands h (h.bystands_inside htags hreg) (hfalse ▸ hplan)
      have hsole (hinner : isInner = true) : f.tokens = [] ∧
          ∃ strong, Html.roleOf name = .emphasis strong ∧ children.tokens ≠ [] := by
        obtain ⟨-, strong, hf⟩ := hin hinner
        exact ⟨(isEmphasis_element hf).2.1, strong, (isEmphasis_element hf).2.2⟩
      have hlength : s.index + (Forest.element name attributes children f).tokens.length =
          s.index + 2 + children.tokens.length + f.tokens.length := by
        rw [Forest.tokens, hv, if_neg Bool.false_ne_true]
        simp only [List.length_append, List.length_cons]
        omega
      rw [hlength] at hplan
      -- nothing stands behind the inner one of a pair
      have hend (hinner : isInner = true) : s.index + 2 + children.tokens.length =
          s.index + 2 + children.tokens.length + f.tokens.length := by
        rw [(hsole hinner).1]
        rfl
      obtain ⟨r, s₁, r', haround, htags₁, hres', h₂⟩ := h.around hv htags hreg
      have helement := haround.element (fun hinner => (hsole hinner).2)
        (hplan.front (Nat.le_add_right _ _) hend)
        fun _ hin₁ hplan₁ => ihc haround.inside htags₁ hin₁ hplan₁
      have hused := helement.usedUp
      rw [← haround.passes.index_eq, haround.index_accept] at hused
      have hplan₂ : Planned false (s₁.accept (.endTag name) r').index
          ((s₁.accept (.endTag name) r').index + f.tokens.length) r'.context := by
        rw [haround.index_accept]
        exact hused.behind hplan (by omega) hend
      have hrest := ih h₂ hres'.tags (fun hinner => by cases hinner) hplan₂
      rw [State.context_accept, hres'.region_eq, hreg] at hrest
      have hwhole := State.Emphasizes.append haround.passes helement hrest
      rw [Forest.tokens, hv, if_neg Bool.false_ne_true, emphasisWord, hv,
        if_neg Bool.false_ne_true, hreg]
      simpa using hwhole

end Forests

/-- Every emphasis of a conversion that plays its part is written with its own marker at both ends,
or it is one half of a pair, which has one marker where the outer one begins and one where the
inner one ends. The markers are well nested, the result has them in this order and no others, and
nothing that was settled ahead is left. -/
theorem emphasis_markers_pair_up (o : Options) (f : Forest) :
    ∃ s, ({} : State).run o f.tokens = (s, none) ∧ convert o f.tokens = .ok s.finished ∧
      (({} : State).trace o f.tokens []).map Prod.fst = f.tokens ∧
      (({} : State).trace o f.tokens []).map stepWord = emphasisWord o .ordinary false f ∧
      Nests (emphasisWord o .ordinary false f).flatten ∧
      s.finished.filterMap marker? =
        (emphasisWord o .ordinary false f).flatten.map Prod.snd ∧
      s.context.fusions = ∅ := by
  obtain ⟨s, hs, -⟩ := exists_passes_tokens o f [] {} (Nat.le_refl 0)
  have hregion : ({} : Context).region o = .ordinary :=
    Context.region_eq_ordinary_iff.mpr ⟨by simp, rfl⟩
  have hplan : Planned false 0 (0 + f.tokens.length) {} := fun _ _ _ => rfl
  have hword := hs.emphasizes (Nat.le_refl 0) (fun hinner => by cases hinner) hplan
  have hsteps := hregion ▸ hword.word
  refine ⟨s, hs.run_nil, hs.convert_eq, hs.map_fst_trace, hsteps, (nests_emphasisWord o f).1 _,
    ?_, OrderedMap.eq_empty_of_get? fun k => ?_⟩
  · have hsnd : List.map Prod.snd ∘ stepWord = fun step => step.2.written.filterMap marker? := by
      funext step
      simp [stepWord, Function.comp_def]
    rw [hs.read_finished readsMarks_marker?.passive fun _ _ _ => rfl, State.written,
      List.filterMap_flatMap, ← hsteps, List.map_flatten, List.map_map, hsnd, List.flatMap_def]
  · rw [hword.usedUp k]
    split_ifs <;> rfl

/-- The inner one of a pair is not the outer one of another pair. -/
example :
    let inner : Forest := .element "b" ∅ (.text "x" .nil) .nil
    let f := .element "b" ∅ (.element "i" ∅ inner .nil) .nil
    emphasisWord {} .ordinary false f =
      [[(.opening, .boldItalic)], [], [(.opening, .strong)], [], [(.closing, .strong)],
        [(.closing, .boldItalic)], []] := by
  decide +kernel

end HtmlMarkdown.Conversion
