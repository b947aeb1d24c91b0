import HtmlMarkdown.Proofs.Balance
import HtmlMarkdown.Proofs.Bystanders
import HtmlMarkdown.Proofs.Carried
import HtmlMarkdown.Proofs.Trace

/-!
# Between the marks

A passage over a forest meets elements and leaves. Leaves bystand, and so does all that is inside of
sensitive elements and stripped scripts. The tags of an element in ordinary content play the part of
its name if there is content between them, or they bystand as well. What such a passage writes is
seen by readings that see marks only.
-/

namespace HtmlMarkdown.Conversion

open Html (Forest)
open Markdown (Token Tag)

variable {o : Options} {ctx : Context} {r : Reaction}

/-- The steps over some tokens are neither about lists nor about emphasis. -/
structure State.Bystands (o : Options) (s : State) (ts rest : List Html.Token) (s' : State) :
    Prop where
  spares : s.context.Spares s'.context
  arePlain : ∀ step ∈ s.trace o ts rest, step.2.isPlain = true

theorem Region.inside_of_not_ordinary {region : Region} (h : region ≠ .ordinary) (name : String)
    (after : List Html.Token) : Region.inside o name after region = region := by
  cases region <;> first | rfl | exact absurd rfl h

/-- The content of an element that is marked is as ordinary as the element. -/
theorem Region.inside_of_isMarked {name : String} (hm : (Html.roleOf name).isMarked = true)
    (after : List Html.Token) : Region.inside o name after .ordinary = .ordinary := by
  unfold Region.inside
  generalize Html.roleOf name = role at hm
  cases role <;> first | rfl | cases hm

section Passages

variable {name : String} {attributes : Html.Attributes} {children f : Forest} {s s₁ s' : State}
  {t : Html.Token} {ts us rest : List Html.Token} {role : Html.Role} {r' : Reaction}

namespace State.Bystands

theorem nil (s : State) : s.Bystands o [] rest s := ⟨.refl s.context, List.forall_mem_nil _⟩

theorem cons (hr : react o (s.window t (ts ++ rest)) s.emitted.head? s.context = .ok r)
    (h : r.Bystands s.context) (h' : (s.accept t r).Bystands o ts rest s') :
    s.Bystands o (t :: ts) rest s' := by
  refine ⟨h.spares.trans h'.spares, ?_⟩
  rw [Passes.trace_cons hr]
  exact List.forall_mem_cons.mpr ⟨h.isPlain, h'.arePlain⟩

theorem append (hp : Passes o (us ++ rest) s ts s₁) (h : s.Bystands o ts (us ++ rest) s₁)
    (h' : s₁.Bystands o us rest s') : s.Bystands o (ts ++ us) rest s' := by
  refine ⟨h.spares.trans h'.spares, ?_⟩
  rw [hp.trace_append]
  exact List.forall_mem_append.mpr ⟨h.arePlain, h'.arePlain⟩

end State.Bystands

theorem Passes.bystands_leaves (h : Passes o rest s ts s') (hts : ∀ t ∈ ts, t.IsLeaf) :
    s.Bystands o ts rest s' := by
  induction h with
  | nil => exact .nil _
  | cons hr _ ih =>
    obtain ⟨ht, hts⟩ := List.forall_mem_cons.mp hts
    exact .cons hr (bystands_leaf ht hr) (ih hts)

/-- Nothing inside of sensitive elements and stripped scripts is about lists or emphasis. -/
theorem Passes.bystands_inside (h : Passes o rest s f.tokens s')
    (htags : s.context.anchorAsTag ≤ s.context.anchor) (hreg : s.context.region o ≠ .ordinary) :
    s.Bystands o f.tokens rest s' := by
  induction f using Forest.leavesRec generalizing rest s s' with
  | nil =>
    cases h
    exact .nil _
  | leaves ts f g hts htokens ih =>
    rw [htokens] at h ⊢
    obtain ⟨s₁, h₁, hres, h₂⟩ := h.of_leaves_append hts htags
    exact .append h₁ (h₁.bystands_leaves hts) (ih h₂ hres.tags (by rwa [hres.region_eq]))
  | element name attributes children f hv ihc ih =>
    obtain ⟨r, s₁, r', hr, htags₁, h₁, hr', hres₁, hres', hbr, -, h₂⟩ := h.of_element hv htags
    have hreg₁ : r.context.region o ≠ .ordinary := by
      generalize s.context.region o = outer at hbr hreg
      generalize r.context.region o = inner at hbr
      cases hbr <;> simp_all
    have hstart := Conversion.bystands_inside hreg hr
    have hend := Conversion.bystands_inside (by rwa [hres₁.region_eq]) hr'
    rw [Forest.tokens, hv, if_neg Bool.false_ne_true]
    refine .cons (by simpa using hr) hstart (.append (by simpa using h₁) ?_ (.cons hr' hend ?_))
    · simpa using ihc h₁ htags₁ hreg₁
    · exact ih h₂ hres'.tags (by rwa [State.context_accept, hres'.region_eq])

structure Around (o : Options) (s : State) (name : String) (attributes : Html.Attributes)
    (children : Forest) (rest : List Html.Token) (r : Reaction) (s₁ : State) (r' : Reaction) :
    Prop where
  region : s.context.region o = .ordinary
  opens : react o (s.window (.startTag name attributes) (children.tokens ++ .endTag name :: rest))
    s.emitted.head? s.context = .ok r
  inside : Passes o (.endTag name :: rest) (s.accept (.startTag name attributes) r)
    children.tokens s₁
  closes : react o (s₁.window (.endTag name) rest) s₁.emitted.head? s₁.context = .ok r'
  resumes : r.context.Resumes s₁.context
  content : children.tokens ≠ [] →
    r.context.region o = Region.inside o name children.tokens .ordinary

theorem Passes.around (hv : Html.isVoid name = false)
    (htags : s.context.anchorAsTag ≤ s.context.anchor) (hreg : s.context.region o = .ordinary)
    (h : Passes o rest s (Forest.element name attributes children f).tokens s') :
    ∃ r s₁ r', Around o s name attributes children (f.tokens ++ rest) r s₁ r' ∧
      r.context.anchorAsTag ≤ r.context.anchor ∧ s.context.Resumes r'.context ∧
      Passes o rest (s₁.accept (.endTag name) r') f.tokens s' := by
  obtain ⟨r, s₁, r', hr, htags₁, h₁, hr', hres, hres', -, hinside, h₂⟩ := h.of_element hv htags
  exact ⟨r, s₁, r', ⟨hreg, hr, h₁, hr', hres, hreg ▸ hinside⟩, htags₁, hres', h₂⟩

/-- A tag plays a part only if its element has content. -/
theorem Window.Plays.of_startTag (hp : (s.window (.startTag name attributes)
      (children.tokens ++ .endTag name :: rest)).Plays o s.context role) :
    Html.roleOf name = role ∧ children.tokens ≠ [] := by
  refine ⟨hp.role, fun hnil => ?_⟩
  have hempty := Option.filter_eq_none_iff.mp hp.content name rfl
  rw [isEmptyPair_startTag, hnil] at hempty
  exact hempty rfl

namespace Around

variable (h : Around o s name attributes children rest r s₁ r')
include h

theorem passes : Passes o rest s (.startTag name attributes :: children.tokens ++ [.endTag name])
    (s₁.accept (.endTag name) r') :=
  .append (.cons h.opens h.inside) (.cons h.closes (.nil _))

theorem index_eq : s₁.index = s.index + 1 + children.tokens.length := h.inside.index_eq

theorem index_accept :
    (s₁.accept (.endTag name) r').index = s.index + 2 + children.tokens.length := by
  change s₁.index + 1 = _
  rw [h.index_eq]
  omega

theorem before_eq :
    s₁.before = children.tokens.getLast?.or (some (.startTag name attributes)) :=
  h.inside.before_eq

/-- Both tags play the part of the name if there is content between them. -/
theorem plays (hrole : Html.roleOf name = role) (hm : role.isMarked = true)
    (hne : children.tokens ≠ []) :
    (s.window (.startTag name attributes) (children.tokens ++ .endTag name :: rest)).Plays o
        s.context role ∧ (s₁.window (.endTag name) rest).Plays o s₁.context role := by
  have hin : Region.inside o name children.tokens .ordinary = .ordinary :=
    Region.inside_of_isMarked (hrole ▸ hm) children.tokens
  refine ⟨⟨hrole, h.region, Option.filter_eq_none_iff.mpr fun n hn => ?_⟩,
    ⟨hrole, h.resumes.region_eq.trans ((h.content hne).trans hin),
      Option.filter_eq_none_iff.mpr fun n hn => ?_⟩⟩
  · cases hn
    rw [isEmptyPair_startTag]
    simpa using hne
  · cases hn
    rw [isEmptyPair_endTag children h.before_eq]
    simpa using hne

theorem of_endTag (hp : (s₁.window (.endTag name) rest).Plays o s₁.context role) :
    Html.roleOf name = role ∧ children.tokens ≠ [] := by
  refine ⟨hp.role, fun hnil => ?_⟩
  have hempty := Option.filter_eq_none_iff.mp hp.content name rfl
  rw [isEmptyPair_endTag children h.before_eq, hnil] at hempty
  exact hempty rfl

/-- The tags of an element without content, or of one that is not marked. -/
theorem bystands (hn : (Html.roleOf name).isMarked = true → children.tokens = []) :
    r.Bystands s.context ∧ r'.Bystands s₁.context := by
  constructor
  · refine (bystands_or_playsMarked h.opens).resolve_right ?_
    rintro ⟨role, hp⟩
    obtain ⟨hrole, hne⟩ := hp.plays.of_startTag
    exact hne (hn (hrole ▸ hp.marked))
  · refine (bystands_or_playsMarked h.closes).resolve_right ?_
    rintro ⟨role, hp⟩
    obtain ⟨hrole, hne⟩ := h.of_endTag hp.plays
    exact hne (hn (hrole ▸ hp.marked))

end Around

end Passages

section Readings

variable {α : Type} {read : Token → Option α}

/-- A reading of tokens by their nodes that sees marks only. -/
structure ReadsMarks (read : Token → Option α) : Prop where
  node : ∀ t u : Token, u.node = t.node → read u = read t
  unmarked : ∀ u, u.tagIs Tag.isMarked = false → read u = none

namespace ReadsMarks

variable (h : ReadsMarks read)
include h

theorem passive : Markdown.Passive read where
  node := h.node
  whitespace t tag ht hw := by
    refine h.unmarked t (Token.not_tagIs_isMarked ht ?_)
    cases tag <;> first | rfl | cases hw
  mark t tag ht hm _ := by
    refine h.unmarked t (Token.not_tagIs_isMarked ht ?_)
    cases tag <;> first | rfl | cases hm
  delimiter := h.unmarked _ rfl
  rawSpace t raw hnode _ := h.unmarked t (by simp [Token.tagIs, Token.tag?, hnode])

theorem written (r : Reaction) : r.written.filterMap read = r.produced.filterMap read := by
  rw [Reaction.written, List.filterMap_map]
  exact List.filterMap_congr fun u _ => h.node _ _ (Token.node_within u _)

/-- It sees nothing in what a plain reaction writes. -/
theorem written_of_isPlain (hr : r.isPlain = true) : r.written.filterMap read = [] := by
  rw [h.written]
  refine List.filterMap_eq_nil_iff.mpr fun u hu => h.unmarked u ?_
  simpa using List.all_eq_true.mp hr u hu

theorem trace_of_bystands {s s' : State} {ts rest : List Html.Token}
    (hp : Passes o rest s ts s') (hs : s.Bystands o ts rest s') :
    (s.trace o ts rest).map (fun step => step.2.written.filterMap read) =
      List.replicate ts.length [] := by
  rw [List.map_congr_left fun step hstep => h.written_of_isPlain (hs.arePlain step hstep),
    List.map_const', ← congrArg List.length hp.map_fst_trace, List.length_map]

end ReadsMarks

end Readings

end HtmlMarkdown.Conversion
