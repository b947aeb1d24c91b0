import HtmlMarkdown.Proofs.Nested
import Mathlib.Data.List.Induction

/-!
# Lists that continue

Where an outermost list is followed directly by another list, the two share one block: the end of
the first writes nothing, and neither does the start of the second. In between a list is to be
continued. A list with nothing in it is left out before it can take up the continuation; it is then
still open when something else comes.
-/

namespace HtmlMarkdown.Conversion

open Html (Forest)
open Markdown (Token Mark edges scan)

variable {o : Options} {w : Window} {last : Option Token} {ctx : Context} {r : Reaction}
  {before after ts : List Html.Token} {s s' : State}

/-- The list that continues comes next, with one run of space at most before it. Its start tag
writes nothing, and the continuation ends with it. -/
inductive Continued (o : Options) (s : State) : List Html.Token → Prop
  | intro {space rest : List Html.Token} {t : Html.Token} {s₁ : State} {r : Reaction}
      (hlength : space.length ≤ 1) (hspace : ∀ u ∈ space, u.kind = .spaceCharacters)
      (hlist : opensList t = true) (hpass : Passes o (t :: rest) s space s₁)
      (hr : react o (s₁.window t rest) s₁.emitted.head? s₁.context = .ok r)
      (hnothing : r.produced = []) (hends : r.context.listContinuation = false) :
      Continued o s (space ++ t :: rest)

/-- A list with nothing in it comes up where a list is to be continued. -/
inductive PassedOver (o : Options) : List Html.Token → Prop
  | intro {before after : List Html.Token} {t : Html.Token} {s : State}
      (hpass : Passes o (t :: after) {} before s) (hflag : s.context.listContinuation = true)
      (hlist : opensList t = true)
      (hempty : (s.window t after).isEmptyPair t.tagName = true) :
      PassedOver o (before ++ t :: after)

inductive Between : List Html.Token → List Html.Token → Prop
  | directly {before after : List Html.Token} {t : Html.Token} {kind : Html.ListKind}
      (hk : t.kind = .endTag) (hrole : Html.roleOf t.tagName = .list kind)
      (hnext : nextAcrossSpace opensList after = true) : Between (before ++ [t]) after
  | acrossSpace {before after : List Html.Token} {t u v : Html.Token} {kind : Html.ListKind}
      (hk : t.kind = .endTag) (hrole : Html.roleOf t.tagName = .list kind)
      (hspace : u.kind = .spaceCharacters) (hnext : opensList v = true) :
      Between (before ++ [t] ++ [u]) (v :: after)

theorem Between.next (h : Between before after) : nextAcrossSpace opensList after = true := by
  cases h with
  | directly hk hrole hnext => exact hnext
  | acrossSpace hk hrole hspace hnext => simp [nextAcrossSpace, hnext]

theorem exists_list_of_opensList {t : Html.Token} (h : opensList t = true) :
    t.kind = .startTag ∧ t.name = some t.tagName ∧
      ∃ kind, Html.roleOf t.tagName = .list kind := by
  simp only [opensList, Bool.and_eq_true, Bool.or_eq_true, beq_iff_eq] at h
  obtain ⟨hk, hname | hname⟩ := h
  · exact ⟨hk, by simp [Html.Token.tagName, hname], .unordered,
      by simp only [Html.Token.tagName, hname]; decide⟩
  · exact ⟨hk, by simp [Html.Token.tagName, hname], .ordered,
      by simp only [Html.Token.tagName, hname]; decide⟩

theorem context_spaceCharacters (t : Html.Token) (last : Option Token) (ctx : Context) :
    (spaceCharacters t last ctx).context = ctx := by
  unfold spaceCharacters
  split <;> rfl

theorem react_spaceCharacters {t : Html.Token} (hk : t.kind = .spaceCharacters)
    (hreg : s.context.region o = .ordinary) (after : List Html.Token) :
    react o (s.window t after) s.emitted.head? s.context =
      .ok (spaceCharacters t s.emitted.head? s.context) := by
  rw [react_of_ordinary hreg]
  simp only [ordinary, State.window, hk]

theorem listContinuation_openList (kind : Html.ListKind) (ctx : Context) :
    (openList kind ctx).context.listContinuation =
      (decide (ctx.lists ≠ []) && ctx.listContinuation) := by
  unfold openList
  dsimp only
  split_ifs with hl hf
  · simp [hl, Reaction.quiet]
  · simp [hl, Reaction.quiet]
  · simpa [hl, Reaction.emit] using hf

/-- The end of a list that leaves a list to be continued is that of an outermost one, where another
list follows. -/
theorem closeList_continued {more : Bool} (h : closeList more ctx = .ok r)
    (hflag : r.context.listContinuation = true)
    (hrest : ctx.listContinuation = true → ctx.lists = []) :
    more = true ∧ r.context.lists = [] ∧ r.context.region o = ctx.region o := by
  unfold closeList at h
  cases hl : ctx.lists with
  | nil => simp [hl] at h
  | cons frame outer =>
    have hnone : ctx.listContinuation ≠ true := by
      intro hf
      have := hrest hf
      rw [hl] at this
      cases this
    simp only [hl] at h
    cases h
    split_ifs at hflag ⊢ with ho hmore
    · exact absurd hflag hnone
    · exact ⟨hmore, Decidable.not_not.mp ho, rfl⟩
    · exact absurd hflag hnone

/-- A token that opens a list and is no empty pair plays its part in ordinary content. -/
theorem plays_of_opensList {t : Html.Token} (ht : opensList t = true)
    (hreg : s.context.region o = .ordinary)
    (hcontent : (s.window t after).isEmptyPair t.tagName = false) :
    ∃ kind, (s.window t after).Plays o s.context (.list kind) := by
  obtain ⟨-, hname, kind, hkind⟩ := exists_list_of_opensList ht
  refine ⟨kind, hkind, hreg, ?_⟩
  change t.name.filter _ = none
  rw [hname, Option.filter_some, hcontent]
  rfl

/-- A step that leaves the continuation as it is has taken the run of space, or passed over a
list. -/
theorem between_step {t : Html.Token} (h : Passes o (t :: after) {} before s)
    (hr : react o (s.window t after) s.emitted.head? s.context = .ok r)
    (hflag : s.context.listContinuation = true)
    (hlist : ∀ kind, (s.window t after).Plays o s.context (.list kind) →
      t.kind ≠ .startTag ∧ t.kind ≠ .endTag)
    (hreg : s.context.region o = .ordinary) (hb : Between before (t :: after)) :
    PassedOver o (before ++ t :: after) ∨
      r.context.region o = .ordinary ∧ Between (before ++ [t]) after := by
  have hpassed (ht : opensList t = true) : PassedOver o (before ++ t :: after) := by
    cases hempty : (s.window t after).isEmptyPair t.tagName with
    | true => exact .intro h hflag ht hempty
    | false =>
      obtain ⟨kind, hp⟩ := plays_of_opensList ht hreg hempty
      exact absurd (exists_list_of_opensList ht).1 (hlist kind hp).1
  cases hb with
  | directly hk hrole hnext =>
    simp only [nextAcrossSpace, Bool.or_eq_true, Bool.and_eq_true, beq_iff_eq] at hnext
    rcases hnext with ht | ⟨hspace, hafter⟩
    · exact .inl (hpassed ht)
    · right
      rw [react_spaceCharacters hspace hreg] at hr
      cases hr
      rw [context_spaceCharacters]
      refine ⟨hreg, ?_⟩
      cases after with
      | nil => simp at hafter
      | cons u us => exact .acrossSpace hk hrole hspace (by simpa using hafter)
  | acrossSpace hk hrole hspace hnext => exact .inl (hpassed hnext)

/-- Where a list is to be continued, no list is open, one has just been closed and another one comes
next, unless a list with nothing in it has been passed over. -/
theorem between_of_passes (h : Passes o after {} before s)
    (hflag : s.context.listContinuation = true) :
    s.context.lists = [] ∧ (PassedOver o (before ++ after) ∨
      s.context.region o = .ordinary ∧ Between before after) := by
  induction before using List.reverseRecOn generalizing after s with
  | nil =>
    cases h
    cases hflag
  | append_singleton before t ih =>
    obtain ⟨s₀, h₀, h₁⟩ := h.of_append
    cases h₁ with
    | @cons _ _ _ _ r hr hrest =>
      cases hrest
      rw [List.nil_append] at hr
      rw [List.append_assoc]
      rw [State.context_accept] at hflag ⊢
      by_cases hlist : ∀ kind, (s₀.window t after).Plays o s₀.context (.list kind) →
          t.kind ≠ .startTag ∧ t.kind ≠ .endTag
      · have hsame := (handles_of_react hr).sameLists hlist
        have hflag₀ := hsame.continuation.symm.trans hflag
        obtain ⟨hlists, hnext⟩ := ih h₀ hflag₀
        have hmap := hsame.lists
        rw [hlists, List.map_nil, List.map_eq_nil_iff] at hmap
        refine ⟨hmap, ?_⟩
        rcases hnext with hpassed | ⟨hreg, hb⟩
        · exact .inl hpassed
        · exact between_step h₀ hr hflag₀ hlist hreg hb
      · obtain ⟨kind, hkind⟩ := not_forall.mp hlist
        obtain ⟨hp, hk⟩ := Classical.not_imp.mp hkind
        by_cases hs : t.kind = .startTag
        · rw [react_openList hp hs] at hr
          cases hr
          rw [listContinuation_openList, Bool.and_eq_true, decide_eq_true_eq] at hflag
          exact absurd (ih h₀ hflag.2).1 hflag.1
        · have he : t.kind = .endTag := by_contra fun he => hk ⟨hs, he⟩
          rw [react_closeList hp he] at hr
          obtain ⟨hmore, hlists, hregion⟩ :=
            closeList_continued hr hflag fun hflag₀ => (ih h₀ hflag₀).1
          exact ⟨hlists, .inr ⟨hregion.trans hp.region, .directly he hp.role hmore⟩⟩

/-- The list that is awaited takes up the continuation, unless it has nothing in it. -/
theorem continued_of_next (h : Passes o after {} before s)
    (hflag : s.context.listContinuation = true) (hlists : s.context.lists = [])
    (hreg : s.context.region o = .ordinary) (hnext : nextAcrossSpace opensList after = true)
    (hnot : ¬PassedOver o (before ++ after)) : Continued o s after := by
  have opens {before rest : List Html.Token} {t : Html.Token} {s₁ : State}
      (h₁ : Passes o (t :: rest) {} before s₁) (hsame : s₁.context = s.context)
      (ht : opensList t = true) (hnot : ¬PassedOver o (before ++ t :: rest)) :
      ∃ kind, react o (s₁.window t rest) s₁.emitted.head? s₁.context =
        .ok (openList kind s.context) := by
    rw [hsame]
    cases hempty : (s₁.window t rest).isEmptyPair t.tagName with
    | true => exact absurd (.intro h₁ (hsame ▸ hflag) ht hempty) hnot
    | false =>
      obtain ⟨kind, hp⟩ := plays_of_opensList ht (hsame ▸ hreg) hempty
      exact ⟨kind, hsame ▸ react_openList hp (exists_list_of_opensList ht).1⟩
  have quiet (kind : Html.ListKind) : (openList kind s.context).produced = [] := by
    simp [openList, hlists, hflag, Reaction.quiet]
  have ends (kind : Html.ListKind) :
      (openList kind s.context).context.listContinuation = false := by
    rw [listContinuation_openList]
    simp [hlists]
  cases after with
  | nil => cases hnext
  | cons t rest =>
    simp only [nextAcrossSpace, Bool.or_eq_true, Bool.and_eq_true, beq_iff_eq] at hnext
    by_cases ht : opensList t = true
    · obtain ⟨kind, hr⟩ := opens h rfl ht hnot
      exact show Continued o s ([] ++ t :: rest) from .intro (Nat.zero_le 1)
        (List.forall_mem_nil _) ht (.nil s) hr (quiet kind) (ends kind)
    · obtain ⟨hk, hrest⟩ := hnext.resolve_left ht
      cases rest with
      | nil => simp at hrest
      | cons u rest =>
        have hu : opensList u = true := by simpa using hrest
        have hspace := react_spaceCharacters hk hreg (u :: rest)
        have hpass : Passes o (u :: rest) s [t]
            (s.accept t (spaceCharacters t s.emitted.head? s.context)) :=
          .cons hspace (.nil _)
        obtain ⟨kind, hr⟩ := opens (h.append hpass) (context_spaceCharacters _ _ _) hu
          (by simpa using hnot)
        exact show Continued o s ([t] ++ u :: rest) from .intro (Nat.le_refl 1)
          (List.forall_mem_singleton.mpr hk) hu hpass hr (quiet kind) (ends kind)

/-- An empty list leaves the continuation to whatever comes behind it. -/
theorem not_continued_of_empty {t : Html.Token}
    (hflag : s.context.listContinuation = true) (hlist : opensList t = true)
    (hempty : (s.window t after).isEmptyPair t.tagName = true) :
    ¬Continued o s (t :: after) := by
  intro h
  obtain ⟨hk, hname, -⟩ := exists_list_of_opensList hlist
  generalize hts : t :: after = ts at h
  cases h with
  | @intro space rest u s₁ r hlength hspace hlist' hpass hr hnothing hends =>
    cases space with
    | nil =>
      obtain ⟨rfl, rfl⟩ := List.cons.inj hts
      cases hpass
      have hsame := (handles_of_react hr).sameLists fun kind hp => by
        have hcontent : t.name.filter (s.window t after).isEmptyPair = none := hp.content
        rw [hname, Option.filter_some, hempty] at hcontent
        cases hcontent
      rw [hsame.continuation, hflag] at hends
      cases hends
    | cons v space =>
      have hv : t = v := (List.cons.inj hts).1
      have := hspace v List.mem_cons_self
      simp [← hv, hk] at this

/-- Every continuation is taken up exactly if no empty list comes up during one. -/
theorem forall_continued_iff (ts : List Html.Token) :
    (∀ before after s, ts = before ++ after → Passes o after {} before s →
      s.context.listContinuation = true →
        s.context.lists = [] ∧ Between before after ∧ Continued o s after) ↔
      ¬PassedOver o ts := by
  constructor
  · intro h hpassed
    cases hpassed with
    | intro hpass hflag hlist hempty =>
      exact not_continued_of_empty hflag hlist hempty (h _ _ _ rfl hpass hflag).2.2
  · rintro hnot before after s rfl hpass hflag
    obtain ⟨hlists, hnext⟩ := between_of_passes hpass hflag
    obtain ⟨hreg, hb⟩ := hnext.resolve_left hnot
    exact ⟨hlists, hb, continued_of_next hpass hflag hlists hreg hb.next hnot⟩

def starts (ts : List Token) : Nat := ts.countP (·.hasTag .startBlock)

def ends (ts : List Token) : Nat := ts.countP (·.hasTag .endBlock)

theorem edges_isBlock_cons (t : Token) (ts : List Token) :
    edges isBlock (t :: ts) =
      (if t.hasTag .startBlock then [(.opening, .block)]
        else if t.hasTag .endBlock then [(.closing, .block)] else []) ++ edges isBlock ts := by
  obtain ⟨node, _, _⟩ := t
  cases node with
  | markdown tag data => cases tag <;> rfl
  | native edge raw => cases edge <;> rfl
  | html raw => rfl

theorem countEdge_isBlock (ts : List Token) :
    Markdown.countEdge .opening (edges isBlock ts) = starts ts ∧
      Markdown.countEdge .closing (edges isBlock ts) = ends ts := by
  induction ts with
  | nil => exact ⟨rfl, rfl⟩
  | cons t ts ih =>
    obtain ⟨hstarts, hends⟩ := ih
    have hexclusive : t.hasTag .startBlock = true → t.hasTag .endBlock = false := by
      unfold Token.hasTag
      cases t.tag? with
      | none => simp
      | some tag => cases tag <;> simp
    rw [edges_isBlock_cons]
    simp only [starts, ends, List.countP_cons] at hstarts hends ⊢
    split_ifs with h₁ h₂ <;>
      simp_all [Markdown.countEdge_cons]

/-- The block marks of a forest are nested, and the ends that are missing are owed for a list to
come. Every continuation is taken up by the next list exactly if no list with nothing in it is
passed over; then none is owed at the end. -/
theorem blocks_nest_up_to_continuation (o : Options) (f : Forest) :
    ∃ s, ({} : State).run o f.tokens = (s, none) ∧ convert o f.tokens = .ok s.finished ∧
      (∀ ts, ts <+: s.finished → ends ts ≤ starts ts) ∧
      starts s.finished = ends s.finished + s.context.listContinuation.toNat ∧
      ((∀ before after s, f.tokens = before ++ after → Passes o after {} before s →
        s.context.listContinuation = true →
          s.context.lists = [] ∧ Between before after ∧ Continued o s after) ↔
        ¬PassedOver o f.tokens) ∧
      (¬PassedOver o f.tokens → s.context.listContinuation = false) := by
  obtain ⟨s, hs, -⟩ := exists_passes_tokens o f [] {} (Nat.le_refl 0)
  obtain ⟨hword, -⟩ := hs.scan_blocks (Nat.le_refl 0) (fun _ => rfl) 0
  have hscan : scan [] (edges isBlock s.finished) =
      some (List.replicate s.context.listContinuation.toNat .block) :=
    (hs.scan_finished isBlock []).trans hword
  refine ⟨s, hs.run_nil, hs.convert_eq, fun ts hts => ?_, ?_, forall_continued_iff _,
    fun hnot => ?_⟩
  · obtain ⟨hstarts, hends⟩ := countEdge_isBlock ts
    have hedges : edges isBlock ts <+: edges isBlock s.finished := hts.filterMap _
    have hle := Markdown.countEdge_le_of_prefix (by rw [hscan]; rfl) hedges
    rwa [hstarts, hends, List.length_nil, Nat.zero_add] at hle
  · obtain ⟨hstarts, hends⟩ := countEdge_isBlock s.finished
    have hcount := Markdown.countEdge_of_scan hscan
    rw [hstarts, hends, List.length_replicate] at hcount
    exact (Nat.zero_add _).symm.trans hcount.symm
  · by_contra hflag
    rw [Bool.not_eq_false] at hflag
    have hend := (forall_continued_iff f.tokens).mpr hnot f.tokens [] s (List.append_nil _).symm hs
      hflag
    exact absurd hend.2.1.next (by simp [nextAcrossSpace])

/-- A list with nothing in it directly behind a list: it is taken for the list to come and then left
out, and the block of the first list is never closed. -/
theorem unclosed_list_before_empty_list :
    let f : Forest := .element "ul" ∅ (.element "li" ∅ (.text "a" .nil) .nil)
      (.element "ul" ∅ .nil .nil)
    ∃ s, ({} : State).run {} f.tokens = (s, none) ∧
      s.finished = [.startBlock, .listItemStart 1 (.mark '*'), .html (.characters "a")] ∧
      s.context.listContinuation = true ∧ starts s.finished ≠ ends s.finished := by
  refine ⟨_, rfl, ?_, rfl, ?_⟩
  · decide +kernel
  · decide +kernel

end HtmlMarkdown.Conversion
