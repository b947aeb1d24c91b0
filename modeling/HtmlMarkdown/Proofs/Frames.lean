import HtmlMarkdown.Proofs.Balance
import HtmlMarkdown.Proofs.Marks

/-!
# Frames

The two tags of an element frame its content: what the start tag opens, the end tag closes, in the
opposite order. Only the tags of a list do not, since two lists may share one block.
-/

namespace HtmlMarkdown.Conversion

open Html (Forest)
open Markdown (Token Mark edges scan)

variable {o : Options} {w w' : Window} {last : Option Token} {ctx ctx' : Context}
  {r r' : Reaction} {name : String} {rest : List Html.Token} {s s₁ : State}

/-- The marks that the first reaction opens are those that the second one closes. -/
structure Frames (ms : List Mark) (r r' : Reaction) : Prop where
  opens : r.produced.filterMap Token.edge? = ms.map (.opening, ·)
  closes : r'.produced.filterMap Token.edge? = ms.reverse.map (.closing, ·)

namespace Frames

variable {ms : List Mark}

theorem edges_opens (h : Frames ms r r') (p : Mark → Bool) :
    edges p r.produced = (ms.filter p).map (.opening, ·) := by
  rw [Markdown.edges_eq, h.opens, List.filter_map]
  rfl

theorem edges_closes (h : Frames ms r r') (p : Mark → Bool) :
    edges p r'.produced = (ms.filter p).reverse.map (.closing, ·) := by
  rw [Markdown.edges_eq, h.closes, List.filter_map, ← List.filter_reverse]
  rfl

end Frames

theorem edges_openAnchor : (openAnchor o w ctx).produced.filterMap Token.edge? = [] := by
  obtain h | h | ⟨_, _, _, _, -, -, ⟨rfl, -⟩ | ⟨_, rfl⟩ | rfl, h⟩ := openAnchor_eq o w ctx <;>
    rw [h] <;> rfl

theorem edges_closeAnchor (h : closeAnchor o w ctx = .ok r) :
    r.produced.filterMap Token.edge? = [] := by
  obtain ⟨_, ⟨-, rfl⟩ | ⟨_, -, rfl⟩⟩ := closeAnchor_eq h <;> rfl

theorem edges_emphasis (strong opening : Bool) :
    (emphasis o w strong opening ctx).produced.filterMap Token.edge? = [] := by
  obtain ⟨c, _, -, rfl | rfl | rfl, h⟩ := emphasis_eq o w strong opening ctx <;> rw [h]
  · rfl
  · rfl
  · cases strong <;> rfl

theorem edges_autolink (t : Html.Token) :
    (autolink o t ctx).produced.filterMap Token.edge? = [] := by
  have hlink (href text : String) : (linkTo o href text).filterMap Token.edge? = [] := by
    unfold linkTo
    split_ifs <;> rfl
  unfold autolink
  dsimp only
  split_ifs
  · rfl
  · rfl
  · exact hlink _ _
  · exact hlink _ _

theorem edges_emptyPair (t : Html.Token) (name : String) :
    (emptyPair o t name ctx).produced.filterMap Token.edge? = [] := by
  unfold emptyPair
  split_ifs
  · exact edges_autolink t
  · rfl

theorem frames_paragraph {block : String} (h : paragraph block true ctx = .ok r)
    (h' : paragraph block false ctx' = .ok r') : Frames [.block] r r' := by
  cases h
  obtain ⟨_, _, rfl⟩ := paragraph_eq h'
  exact ⟨rfl, rfl⟩

theorem frames_heading {block : String} {level : Nat} (h : heading block level true ctx = .ok r)
    (h' : heading block level false ctx' = .ok r') : Frames [.block] r r' := by
  cases h
  obtain ⟨_, rfl⟩ := heading_eq h'
  exact ⟨rfl, rfl⟩

theorem frames_quote (h : quote true ctx = .ok r) (h' : quote false ctx' = .ok r') :
    Frames [.block, .quote] r r' := by
  cases h
  obtain ⟨_, _, rfl⟩ := quote_eq h'
  exact ⟨rfl, rfl⟩

theorem frames_item (h : item o true ctx = .ok r) (h' : item o false ctx' = .ok r') :
    Frames [] r r' := by
  cases h
  obtain ⟨_, rfl⟩ := closeItem_eq h'
  exact ⟨rfl, rfl⟩

theorem frames_code (h : code true ctx = .ok r) (h' : code false ctx' = .ok r') :
    Frames [.code] r r' := by
  cases h
  obtain ⟨_, rfl⟩ := code_eq h'
  exact ⟨rfl, rfl⟩

def PreMode.marks (name : Option String) : PreMode → List Mark
  | paragraph => [.block]
  | native => [.block, .native name]
  | injectedCode => [.block, .native name, .code]

theorem frames_pre {mode : PreMode} {raw raw' : Html.Token} (hname : raw'.name = raw.name)
    (hres : (openPre mode raw ctx).context.Resumes ctx') (h' : closePre raw' ctx' = .ok r') :
    Frames (mode.marks raw.name) (openPre mode raw ctx) r' := by
  have hm : ctx'.preModes = mode :: ctx.preModes := by
    cases mode <;> exact hres.preModes_eq
  obtain ⟨_, _, _, _, _, hmodes, rfl⟩ := closePre_eq h'
  obtain ⟨rfl, -⟩ := List.cons.inj (hm.symm.trans hmodes)
  cases mode with
  | paragraph => exact ⟨rfl, rfl⟩
  | native | injectedCode => exact ⟨rfl, by rw [← hname]; rfl⟩

theorem frames_script (hname : w'.token.name = w.token.name) (ho : o.stripScripts = false)
    (h : script o w true ctx = .ok r) (h' : script o w' false ctx' = .ok r') :
    Frames [.block, .native w.token.name] r r' := by
  simp only [script, ho, if_true, Bool.false_eq_true, if_false] at h
  cases h
  obtain ⟨_, rfl⟩ := closeScript_eq h'
  exact ⟨rfl, by rw [← hname]; rfl⟩

theorem frames_otherTag {t t' : Html.Token} (hname : t'.tagName = t.tagName)
    (hk : t.kind = .startTag) (hk' : t'.kind = .endTag) (h : otherTag o t ctx = .ok r)
    (h' : otherTag o t' ctx' = .ok r') : ∃ ms, Frames ms r r' := by
  unfold otherTag at h h'
  simp only [hname, hk, hk', reduceCtorEq, if_true, if_false] at h h'
  split_ifs at h h' <;> cases h <;> cases h'
  · exact ⟨[], rfl, rfl⟩
  · exact ⟨[], rfl, rfl⟩
  · exact ⟨[], rfl, rfl⟩
  · exact ⟨[.block], rfl, rfl⟩

/-- The tags of an element with content, by its part, where it is none of a list. -/
theorem frames_pairedTag {attributes : Html.Attributes} (hw : w.token = .startTag name attributes)
    (hw' : w'.token = .endTag name) (hlist : ∀ kind, Html.roleOf name ≠ .list kind)
    (hscript : Html.roleOf name = .script → o.stripScripts = false)
    (hres : r.context.Resumes ctx') (hr : pairedTag o w ctx = .ok r)
    (hr' : pairedTag o w' ctx' = .ok r') : ∃ ms, Frames ms r r' := by
  have hn : w.token.tagName = name := by rw [hw]; rfl
  have hk : w.token.kind = .startTag := by rw [hw]; rfl
  have hk' : w'.token.kind = .endTag := by rw [hw']; rfl
  have hname : w'.token.name = w.token.name := by rw [hw, hw']; rfl
  have hopening : (w.token.kind == .startTag) = true := by rw [hk]; rfl
  rw [pairedTag_of_endTag hw'] at hr'
  simp only [pairedTag, hn, hopening] at hr
  cases hrole : Html.roleOf name with
  | heading level =>
    rw [hrole] at hr hr'
    exact ⟨_, frames_heading hr hr'⟩
  | paragraph =>
    rw [hrole] at hr hr'
    exact ⟨_, frames_paragraph hr hr'⟩
  | division =>
    rw [hrole] at hr hr'
    simp only [closeRole] at hr hr'
    split_ifs at hr hr'
    · exact ⟨_, frames_paragraph hr hr'⟩
    · cases hr
      cases hr'
      exact ⟨[], rfl, rfl⟩
  | list kind => exact absurd hrole (hlist kind)
  | item =>
    rw [hrole] at hr hr'
    exact ⟨_, frames_item hr hr'⟩
  | emphasis strong =>
    rw [hrole] at hr hr'
    cases hr
    cases hr'
    exact ⟨[], edges_emphasis strong true, edges_emphasis strong false⟩
  | anchor =>
    rw [hrole] at hr hr'
    cases hr
    exact ⟨[], edges_openAnchor, edges_closeAnchor hr'⟩
  | quote =>
    rw [hrole] at hr hr'
    exact ⟨_, frames_quote hr hr'⟩
  | code =>
    rw [hrole] at hr hr'
    exact ⟨_, frames_code hr hr'⟩
  | pre =>
    rw [hrole] at hr hr'
    cases hr
    have hclean : (o.clean w'.token).name = (o.clean w.token).name := hname
    exact ⟨_, frames_pre hclean hres hr'⟩
  | script =>
    rw [hrole] at hr hr'
    exact ⟨_, frames_script hname (hscript hrole) hr hr'⟩
  | bareLink =>
    rw [hrole] at hr hr'
    cases hr
    cases hr'
    exact ⟨[], edges_autolink _, edges_autolink _⟩
  | other =>
    rw [hrole] at hr hr'
    exact frames_otherTag (by simp [Html.Token.tagName, hname]) hk hk' hr hr'

structure Context.SameLists (ctx c : Context) : Prop where
  lists : c.lists.map ListFrame.kind = ctx.lists.map ListFrame.kind
  continuation : c.listContinuation = ctx.listContinuation

theorem Context.Retains.sameLists {c : Context} (h : ctx.Retains c) : ctx.SameLists c :=
  ⟨h.lists, h.continuation⟩

/-- What the two tags of an element do: they frame its content and leave lists alone, or they are
the tags of a list. -/
inductive Encloses (more : Bool) (ctx ctx' : Context) : Reaction → Reaction → Prop
  | frame {r r' : Reaction} (ms : List Mark) (h : Frames ms r r') (hc : ctx.SameLists r.context)
      (hc' : ctx'.SameLists r'.context) : Encloses more ctx ctx' r r'
  | list {r' : Reaction} (kind : Html.ListKind) (h : closeList more ctx' = .ok r') :
      Encloses more ctx ctx' (openList kind ctx) r'

/-- Only the tags of a list that plays its part do anything to lists. -/
theorem Handles.sameLists (h : Handles o w last ctx r)
    (hlist : ∀ kind, w.Plays o ctx (.list kind) →
      w.token.kind ≠ .startTag ∧ w.token.kind ≠ .endTag) :
    ctx.SameLists r.context := by
  cases h with
  | opensList kind hk hp => exact absurd hk (hlist kind hp).1
  | closesList kind hk hp _ => exact absurd hk (hlist kind hp).2
  | nothing notices hc => exact hc.sameLists
  | opensQuote hk hp hc | closesQuote n hk hp hc => exact ⟨hc.lists, hc.continuation⟩
  | referenceLink hk hhref htext hc => exact ⟨hc.lists, hc.continuation⟩
  | referenceImage hk hsrc hc => exact ⟨hc.lists, hc.continuation⟩
  | blankLine hk hlast hu hc => exact hc.sameLists
  | _ => exact Context.Retains.sameLists ‹ctx.Retains _›

/-- A token that is no tag of a paired element opens and closes a block, or does nothing like it. -/
theorem Handles.leaf_edges (h : Handles o w last ctx r) (hs : w.token.kind ≠ .startTag)
    (he : w.token.kind ≠ .endTag) : r.produced.filterMap Token.edge? = [] ∨
      r.produced.filterMap Token.edge? = [(.opening, .block), (.closing, .block)] := by
  cases h with
  | rule hk hc => exact .inr rfl
  | text hk hc =>
    refine .inl (List.filterMap_eq_nil_iff.mpr fun u hu => ?_)
    rcases mem_textTokens hu with ⟨s, rfl⟩ | ⟨s, rfl⟩ | rfl <;> rfl
  | mailLink hc | schemeLink hc =>
    refine .inl ?_
    simp only [Reaction.emit, linkTo]
    split_ifs <;> rfl
  | emphasis strong hc => cases strong <;> exact .inl rfl
  | gap gap hk hc => cases gap <;> exact .inl rfl
  | opensList kind hk hp => exact absurd hk hs
  | closesList kind hk hp _ => exact absurd hk he
  | _ => first | exact .inl rfl | exact absurd ‹_ = Html.Kind.startTag› hs |
      exact absurd ‹_ = Html.Kind.endTag› he

theorem sameLists_emptyPair (t : Html.Token) (name : String) (ctx : Context) :
    ctx.SameLists (emptyPair o t name ctx).context := by
  unfold emptyPair autolink
  dsimp only
  split_ifs <;> exact ⟨rfl, rfl⟩

section Element

variable {attributes : Html.Attributes} {children : Forest}

/-- The tags of an element with content, in ordinary content. -/
theorem encloses_content (hv : Html.isVoid name = false) (hreg : s.context.region o = .ordinary)
    (htags : s.context.anchorAsTag ≤ s.context.anchor) (hcontent : children.tokens.isEmpty = false)
    (hr : react o (s.window (.startTag name attributes) (children.tokens ++ .endTag name :: rest))
      s.emitted.head? s.context = .ok r)
    (hbefore : s₁.before = children.tokens.getLast?.or (some (.startTag name attributes)))
    (hres : r.context.Resumes s₁.context)
    (hr' : react o (s₁.window (.endTag name) rest) s₁.emitted.head? s₁.context = .ok r') :
    Encloses (nextAcrossSpace opensList rest) s.context s₁.context r r' := by
  have hstart := (isEmptyPair_startTag children s name attributes rest).trans hcontent
  have hend := (isEmptyPair_endTag children hbefore rest).trans hcontent
  have hpaired : pairedTag o (s.window (.startTag name attributes)
      (children.tokens ++ .endTag name :: rest)) s.context = .ok r := by
    rw [react_of_ordinary hreg] at hr
    exact (tag_of_content rfl hstart).symm.trans hr
  have hn : (Html.Token.startTag name attributes).tagName = name := rfl
  by_cases hlist : ∃ kind, Html.roleOf name = .list kind
  · obtain ⟨kind, hkind⟩ := hlist
    have hopen : pairedTag o (s.window (.startTag name attributes)
        (children.tokens ++ .endTag name :: rest)) s.context = .ok (openList kind s.context) := by
      simp only [pairedTag, State.window, hn, hkind]
      rfl
    obtain rfl : openList kind s.context = r := Except.ok.inj (hopen.symm.trans hpaired)
    have hin : (openList kind s.context).context.region o = .ordinary := by
      rw [← hreg]
      obtain ⟨_, ⟨_, rfl⟩, h | h⟩ := openList_eq kind s.context <;> rw [h] <;> rfl
    rw [react_of_ordinary (hres.region_eq.trans hin)] at hr'
    have hclose := (tag_of_content rfl hend).symm.trans hr'
    rw [pairedTag_of_endTag rfl, hkind] at hclose
    exact .list kind hclose
  · have hkept := (handles_of_react hr).sameLists fun kind hp =>
      (hlist ⟨kind, hp.role⟩).elim
    have hkept' := (handles_of_react hr').sameLists fun kind hp =>
      (hlist ⟨kind, hp.role⟩).elim
    by_cases hstrip : Html.roleOf name = .script ∧ o.stripScripts = true
    · obtain rfl : name = "script" := Html.name_of_ownName? (by rw [hstrip.1]; rfl)
      have hopen : pairedTag o (s.window (.startTag "script" attributes)
          (children.tokens ++ .endTag "script" :: rest)) s.context =
            .ok (.quiet (s.context.enter .scriptStrip)) := by
        simp only [pairedTag, State.window, hn, hstrip.1, script, hstrip.2]
        rfl
      obtain rfl := Except.ok.inj (hopen.symm.trans hpaired)
      rw [(strip_reverts s₁.emitted.head? rfl hstrip.2 s₁.context hres).1] at hr'
      cases hr'
      exact .frame [] ⟨rfl, rfl⟩ hkept hkept'
    · have hscript : Html.roleOf name = .script → o.stripScripts = false :=
        fun hrole => by simpa [hrole] using hstrip
      obtain ⟨r₀, hr₀, -, hss, hsens, -⟩ := exists_pairedTag (o := o)
        (w := s.window (.startTag name attributes) (children.tokens ++ .endTag name :: rest))
        hv rfl htags hscript
      obtain rfl : r₀ = r := Except.ok.inj (hr₀.symm.trans hpaired)
      rw [react_endTag _ rfl rfl hend hreg hss hsens hres] at hr'
      obtain ⟨ms, hms⟩ := frames_pairedTag rfl rfl (fun kind hk => hlist ⟨kind, hk⟩) hscript
        hres hpaired hr'
      exact .frame ms hms hkept hkept'

theorem encloses_empty (hreg : s.context.region o = .ordinary)
    (htags : s.context.anchorAsTag ≤ s.context.anchor) (hempty : children.tokens.isEmpty = true)
    (hr : react o (s.window (.startTag name attributes) (children.tokens ++ .endTag name :: rest))
      s.emitted.head? s.context = .ok r)
    (hbefore : s₁.before = children.tokens.getLast?.or (some (.startTag name attributes)))
    (hres : r.context.Resumes s₁.context)
    (hr' : react o (s₁.window (.endTag name) rest) s₁.emitted.head? s₁.context = .ok r') :
    Encloses (nextAcrossSpace opensList rest) s.context s₁.context r r' := by
  have hstart := (isEmptyPair_startTag children s name attributes rest).trans hempty
  have hend := (isEmptyPair_endTag children hbefore rest).trans hempty
  rw [react_of_ordinary hreg] at hr
  change tag o _ s.context = .ok r at hr
  rw [tag_of_emptyPair rfl hstart] at hr
  cases hr
  have hsame := resumes_emptyPair (o := o) (.startTag name attributes) name htags
  rw [react_of_ordinary ((hsame.trans hres).region_eq.trans hreg)] at hr'
  change tag o _ s₁.context = .ok r' at hr'
  rw [tag_of_emptyPair rfl hend] at hr'
  cases hr'
  exact .frame [] ⟨edges_emptyPair _ _, edges_emptyPair _ _⟩ (sameLists_emptyPair _ _ _)
    (sameLists_emptyPair _ _ _)

/-- Inside a sensitive element or a script that is left out, no element opens a list. -/
theorem encloses_inside (hreg : s.context.region o ≠ .ordinary)
    (hr : react o w s.emitted.head? s.context = .ok r)
    (hres : r.context.Resumes s₁.context)
    (hr' : react o w' s₁.emitted.head? s₁.context = .ok r')
    (hb : Brackets o name s.context s₁.context (s.context.region o) (r.context.region o) r r')
    (more : Bool) : Encloses more s.context s₁.context r r' := by
  have hkept := (handles_of_react hr).sameLists fun kind hp =>
    (hreg hp.region).elim
  have hkept' (hin : r.context.region o ≠ .ordinary) :
      s₁.context.SameLists r'.context :=
    (handles_of_react hr').sameLists fun kind hp =>
      (hin (hres.region_eq.symm.trans hp.region)).elim
  generalize s.context.region o = outer at hreg hb
  generalize r.context.region o = inner at hkept' hb
  cases hb with
  | stripped hc hc' => exact .frame [] ⟨rfl, rfl⟩ hkept (hkept' (by simp))
  | raw hc hc' ht ht' => exact .frame [] ⟨rfl, rfl⟩ hkept (hkept' (by simp))
  | innerCode hc hc' => exact .frame [.code] ⟨rfl, rfl⟩ hkept (hkept' (by simp))
  | strippedScript | code | native | injectedCode | tame => exact absurd rfl hreg

/-- The passage of an element, with what its tags do. -/
theorem Passes.encloses {f : Forest} {s' : State} (hv : Html.isVoid name = false)
    (htags : s.context.anchorAsTag ≤ s.context.anchor)
    (h : Passes o rest s (Forest.element name attributes children f).tokens s') :
    ∃ r s₁ r', react o (s.window (.startTag name attributes)
          (children.tokens ++ .endTag name :: (f.tokens ++ rest))) s.emitted.head?
        s.context = .ok r ∧
      Passes o (.endTag name :: (f.tokens ++ rest)) (s.accept (.startTag name attributes) r)
        children.tokens s₁ ∧
      react o (s₁.window (.endTag name) (f.tokens ++ rest)) s₁.emitted.head? s₁.context = .ok r' ∧
      Passes o rest (s₁.accept (.endTag name) r') f.tokens s' ∧
      r.context.anchorAsTag ≤ r.context.anchor ∧
      r.context.Resumes s₁.context ∧
      s.context.Resumes r'.context ∧
      Encloses (nextAcrossSpace opensList (f.tokens ++ rest)) s.context s₁.context r r' := by
  obtain ⟨r, s₁, r', hr, htags₁, h₁, hr', hres, hres', hb, -, h₂⟩ := h.of_element hv htags
  refine ⟨r, s₁, r', hr, h₁, hr', h₂, htags₁, hres, hres', ?_⟩
  by_cases hreg : s.context.region o = .ordinary
  · have hbefore := h₁.before_eq
    cases hempty : children.tokens.isEmpty with
    | true => exact encloses_empty hreg htags hempty hr hbefore hres hr'
    | false => exact encloses_content hv hreg htags hempty hr hbefore hres hr'
  · exact encloses_inside hreg hr hres hr' hb _

/-- The edges of an element are those of its tags, with those of its content between. -/
theorem Passes.word_element (p : Mark → Bool) {f : Forest} (hv : Html.isVoid name = false)
    (hr : react o (s.window (.startTag name attributes)
      (children.tokens ++ .endTag name :: (f.tokens ++ rest))) s.emitted.head? s.context = .ok r)
    (h₁ : Passes o (.endTag name :: (f.tokens ++ rest)) (s.accept (.startTag name attributes) r)
      children.tokens s₁)
    (hr' : react o (s₁.window (.endTag name) (f.tokens ++ rest)) s₁.emitted.head? s₁.context =
      .ok r') :
    s.word o p (Forest.element name attributes children f).tokens rest =
      edges p r.produced ++
        ((s.accept (.startTag name attributes) r).word o p children.tokens
            (.endTag name :: (f.tokens ++ rest)) ++
          (edges p r'.produced ++ (s₁.accept (.endTag name) r').word o p f.tokens rest)) := by
  rw [State.word, trace_element hv hr h₁ hr']
  simp only [List.cons_append, List.flatMap_cons, List.flatMap_append]
  rfl

end Element

end HtmlMarkdown.Conversion
