import HtmlMarkdown.Proofs.Alike
import HtmlMarkdown.Proofs.NativeContent
import Mathlib.Data.Set.Finite.Basic

/-!
# Native edges are removed in pairs

Whether a native element gives way to code is decided by one region of code, and in a converted
forest no other region can come between. So either both edges of a native element are left out or
none of them is, and the edges in the output are bracketed like those in the stream.
-/

namespace HtmlMarkdown.Markdown

open Conversion (isInner)

/-- The pass leaves out the token that stands between the two parts of a stream: what comes out
does not show its attributes. -/
def Removed (front : List Token) (t : Token) (back : List Token) : Prop :=
  ∀ a, space (front ++ t.attributed a :: back) = space (front ++ t :: back)

def Kept (front : List Token) (t : Token) (back : List Token) : Prop :=
  ∀ a, t.attributed a ∈ space (front ++ t.attributed a :: back)

structure Partners (start : Token) (inner : List Token) (stop : Token) : Prop where
  names : ∃ name, start.edge? = some (.opening, .native name) ∧
    stop.edge? = some (.closing, .native name)
  inner : scan [] (edges isNative inner) = some []

variable {front inner back ts out done : List Token} {t start stop : Token} {edge : Edge}
  {name : Option String}

section Pairs

theorem Partners.tag?_start (h : Partners start inner stop) :
    start.tag? = some .startNativeBlock := by
  obtain ⟨name, hstart, -⟩ := h.names
  exact Token.tag?_of_opening hstart

theorem Partners.tag?_stop (h : Partners start inner stop) : stop.tag? = some .endNativeBlock := by
  obtain ⟨name, -, hstop⟩ := h.names
  exact Token.tag?_of_closing hstop

/-- In a native element of a walled stream stands content, or the end of the element. -/
theorem content_or_end_of_walled (hw : Walled ((t :: ts).reverse ++ done))
    (hn : inNative done = true) (ht : t.IsProper) : Walled (ts.reverse ++ t :: done) ∧
      (t.IsContent ∧ inNative (t :: done) = true ∧
          edges isNative (t :: ts) = edges isNative ts ∨
        ∃ name, t.edge? = some (.closing, .native name) ∧
          edges isNative (t :: ts) = (.closing, .native name) :: edges isNative ts) := by
  have hw' : Walled (ts.reverse ++ t :: done) := by simpa using hw
  refine ⟨hw', ?_⟩
  rw [edges, filterMap_cons_eq, ← nativeEdge?]
  cases hw'.of_append with
  | cons hstands _ =>
    rcases hstands hn with hcontent | hend
    · left
      rw [inNative_of_notNative hcontent.notNative, nativeEdge?_of_notNative hcontent.notNative]
      exact ⟨hcontent, hn, rfl⟩
    · right
      obtain ⟨name, hedge⟩ := ht.edge?_of_end hend
      rw [nativeEdge?_of_native hedge]
      exact ⟨name, hedge, rfl⟩

/-- In a walled stream the part behind a native start up to its end is content. -/
theorem content_of_walled (hw : Walled (ts.reverse ++ done)) (hn : inNative done = true)
    (hproper : ∀ t ∈ ts, t.IsProper) (hscan : scan [] (edges isNative ts) = some []) :
    ∀ t ∈ ts, t.IsContent := by
  induction ts generalizing done with
  | nil => exact List.forall_mem_nil _
  | cons t ts ih =>
    obtain ⟨ht, hproper⟩ := List.forall_mem_cons.mp hproper
    obtain ⟨hw', ⟨hcontent, hin, hedges⟩ | ⟨name, -, hedges⟩⟩ := content_or_end_of_walled hw hn ht
    · exact List.forall_mem_cons.mpr ⟨hcontent, ih hw' hin hproper (hedges ▸ hscan)⟩
    · -- An end without its start is not bracketed.
      rw [hedges] at hscan
      cases hscan

namespace Fenced

theorem isContent (h : Fenced (front ++ start :: (inner ++ stop :: back)))
    (hp : Partners start inner stop) : ∀ t ∈ inner, t.IsContent := by
  have hw : Walled (inner.reverse ++ start :: front.reverse) := by
    have hw : Walled ((back.reverse ++ [stop]) ++ (inner.reverse ++ start :: front.reverse)) := by
      simpa using h.walled
    exact hw.of_append
  exact content_of_walled hw (inNative_of_start hp.tag?_start _)
    (fun t ht => h.proper t (by simp [ht])) hp.inner

/-- No region of code ends directly behind a native start. -/
theorem head?_ne_endCode (h : Fenced (front ++ start :: (inner ++ stop :: back)))
    (hp : Partners start inner stop) : ∀ t ∈ inner.head?, t.tag? ≠ some .endCode := by
  intro t ht hend
  obtain ⟨body, rfl⟩ := List.head?_eq_some_iff.mp ht
  obtain ⟨name, hstart, -⟩ := hp.names
  have hword : edges isInner (start :: (t :: body ++ stop :: back)) =
      (.opening, .native name) :: (.closing, .code) :: edges isInner (body ++ stop :: back) := by
    rw [List.cons_append, edges, filterMap_cons_eq, filterMap_cons_eq, hstart,
      Token.edge?_of_endCode hend]
    rfl
  have hscan := h.brackets
  rw [edges_append, scan_append, hword] at hscan
  obtain ⟨ms, -, hms⟩ := Option.bind_eq_some_iff.mp hscan
  simp [scan] at hms

/-- In front of a native element the pass is outside of code and foresees nothing. -/
theorem exists_behind (h : Fenced (front ++ start :: (inner ++ stop :: back)))
    (hp : Partners start inner stop) : ∃ out,
      ({} : Spacer).advance none front (start :: (inner ++ stop :: back)) = .behind out :=
  exists_behind_of_tag h.coherent hp.tag?_start (by decide) (by decide) rfl (by decide)

theorem advance_start (hp : Partners start inner stop)
    (hout : ({} : Spacer).advance none front (start :: (inner ++ stop :: back)) = .behind out) :
    ({} : Spacer).advance none (front ++ start :: inner) (stop :: back) =
      (Spacer.behind (start :: settle 2 start.quoteDepth out)).advance (some start) inner
        (stop :: back) := by
  rw [Spacer.advance_append, List.cons_append, hout, Spacer.advance,
    Spacer.step_native hp.tag?_start]

/-- At the end of a native element the pass is outside of code. -/
theorem outside_stop (h : Fenced (front ++ start :: (inner ++ stop :: back)))
    (hp : Partners start inner stop) :
    Outside (front ++ start :: inner).reverse
      (({} : Spacer).advance none (front ++ start :: inner) (stop :: back)) (some stop) :=
  outside_of_tag (by simpa using h.coherent) hp.tag?_stop (by decide) (by decide)

theorem isProper_output (h : Fenced (front ++ back)) :
    ∀ u ∈ (({} : Spacer).advance none front back).output, u.IsProper :=
  innate_isProper.advance (fun t ht => h.proper t (List.mem_append_left _ ht)) (by simp) none back

/-- A native element that gives way holds a region of code, at the start of which its own start is
taken back; its end is dropped. -/
theorem advance_givesWay (h : Fenced (front ++ start :: (inner ++ stop :: back)))
    (hp : Partners start inner stop)
    (hout : ({} : Spacer).advance none front (start :: (inner ++ stop :: back)) = .behind out)
    (hgives : givesWay out start (inner ++ stop :: back) = true) :
    start.isNativePre .startNativeBlock = true ∧
    (∃ c body, inner = c :: body ∧
      ({} : Spacer).advance none (front ++ [start, c]) (body ++ stop :: back) =
        openedBlock start.quoteDepth out c (body ++ stop :: back)) ∧
    (({} : Spacer).advance none (front ++ start :: inner) (stop :: back)).dropNativeEnd = true ∧
    (({} : Spacer).advance none (front ++ start :: inner) (stop :: back)).output.filterMap
      nativeEdge? = out.filterMap nativeEdge? := by
  have hstart := hp.tag?_start
  have hclosed := (h.outside_stop hp).code
  have hin := h.isContent hp
  rw [givesWay, Bool.and_eq_true, beq_iff_eq] at hgives
  obtain ⟨hhead, hkind⟩ := hgives
  rw [advance_start hp hout] at hclosed ⊢
  cases inner with
  | nil => simp [Token.hasTag, hp.tag?_stop] at hhead
  | cons c body =>
    have hc : c.tag? = some .startCode := by simpa [Token.hasTag] using hhead
    have hbody : ∀ t ∈ body, t.IsContent := fun t ht => hin t (List.mem_cons_of_mem c ht)
    rw [Spacer.advance] at hclosed ⊢
    obtain ⟨hopened, hplace⟩ := step_givesWay hstart hp.tag?_stop hc hbody hkind hclosed
    have hproper : ∀ u ∈ (openedBlock start.quoteDepth out c (body ++ stop :: back)).output,
        u.IsProper := by
      have hout' := h.isProper_output
      rw [hout] at hout'
      exact innate_isProper.codeLine _ (innate_isProper.sown.settle _ _ hout')
    have hforesees : (openedBlock start.quoteDepth out c (body ++ stop :: back)).Foresees
        (body ++ stop :: back) := by
      rw [← hopened]
      exact (Spacer.foresees_behind _ _).step _
    rw [hopened]
    obtain ⟨hdrop, hedges⟩ := advance_region hforesees rfl hplace hbody hproper (some c)
    refine ⟨(CodeRegion.nativeOpen_of_block hstart hkind).1, ⟨c, body, rfl, ?_⟩, hdrop,
      hedges.trans ?_⟩
    · rw [List.cons_append] at hout
      rw [Spacer.advance_append, List.cons_append, List.cons_append, List.nil_append, hout,
        Spacer.advance, Spacer.step_native hstart, Spacer.advance, Spacer.advance]
      exact hopened
    · exact (blind_nativeEdge?.codeLine _ _).trans (blind_nativeEdge?.settle _ _ _)

/-- The start of a native element that does not give way is in the output behind its end. -/
theorem advance_stays (h : Fenced (front ++ start :: (inner ++ stop :: back)))
    (hp : Partners start inner stop)
    (hout : ({} : Spacer).advance none front (start :: (inner ++ stop :: back)) = .behind out)
    (hstays : givesWay out start (inner ++ stop :: back) = false) :
    ∃ later, ({} : Spacer).advance none (front ++ start :: (inner ++ [stop])) back =
        .behind (stop :: (later ++ start :: settle 2 start.quoteDepth out)) ∧
      ∀ u ∈ later, u.NotNative := by
  obtain ⟨hdrop, later, hlater, hnot⟩ :=
    Markdown.advance_stays (h.isContent hp) (h.head?_ne_endCode hp) hstays (some start)
  have houtside := h.outside_stop hp
  rw [← advance_start hp hout] at hdrop hlater
  refine ⟨later, ?_, hnot⟩
  have hsplit : front ++ start :: (inner ++ [stop]) = (front ++ start :: inner) ++ [stop] := by simp
  rw [hsplit, Spacer.advance_append, List.singleton_append,
    Spacer.eq_behind houtside.code houtside.skip hdrop, hlater, Spacer.advance, Spacer.advance,
    Spacer.step_of_tag hp.tag?_stop]
  rfl

/-- Both edges of a native element that does not give way are in the output. -/
theorem mem_space (h : Fenced (front ++ start :: (inner ++ stop :: back)))
    (hp : Partners start inner stop)
    (hout : ({} : Spacer).advance none front (start :: (inner ++ stop :: back)) = .behind out)
    (hstays : givesWay out start (inner ++ stop :: back) = false) :
    start ∈ space (front ++ start :: (inner ++ stop :: back)) ∧
      stop ∈ space (front ++ start :: (inner ++ stop :: back)) := by
  obtain ⟨later, hadvance, -⟩ := h.advance_stays hp hout hstays
  have hstop := hp.tag?_stop
  have hcoherent : Coherent (front ++ start :: inner ++ stop :: back).reverse := by
    simpa using h.coherent
  have hunflagged : stop.inCode = false := (fits_of_coherent hcoherent).unflagged
  have hfixed : Fixed (stop :: (later ++ start :: settle 2 start.quoteDepth out)) := by
    rintro u hu
    obtain rfl := Option.some.inj hu
    simp [Token.isFixed, Token.tagIs, Token.hasTag, hstop, Tag.isWhitespace, Spacer.isCodeSpace,
      hunflagged]
  have hsplit : front ++ start :: (inner ++ stop :: back) =
      front ++ start :: (inner ++ [stop]) ++ back := by simp
  have hsuffix := hfixed.run (s := .behind _) List.suffix_rfl
    ((front ++ start :: (inner ++ [stop])).getLast?.or none) back
  rw [hsplit, space, Spacer.run_append, hadvance]
  exact ⟨List.mem_reverse.mpr (hsuffix.subset (by simp)),
    List.mem_reverse.mpr (hsuffix.subset (by simp))⟩

end Fenced

theorem givesWay_alike {start' : Token} {rest' : List Token} (hstart : start.Alike start')
    (hrest : Alike rest rest') : givesWay out start' rest' = givesWay out start rest := by
  have hhead : rest'.head?.any (·.hasTag .startCode) = rest.head?.any (·.hasTag .startCode) := by
    cases hrest with
    | nil => rfl
    | cons hu _ =>
      obtain ⟨a, rfl⟩ := hu
      exact Token.hasTag_attributed _ a _
  have hgap : Alike (start :: settle 2 start.quoteDepth out)
      (start' :: settle 2 start'.quoteDepth out) := by
    obtain ⟨a, rfl⟩ := hstart
    rw [Token.quoteDepth_attributed]
    exact .cons ⟨a, rfl⟩ (Alike.refl _)
  rw [givesWay, givesWay, hhead, classify_alike hgap hrest]

/-- The attributes of a native start have no part in what is decided at it. -/
theorem Partners.start_attributed (hp : Partners start inner stop)
    (hout : ({} : Spacer).advance none front (start :: (inner ++ stop :: back)) = .behind out)
    (a : Html.Attributes) : Partners (start.attributed a) inner stop ∧
      ({} : Spacer).advance none front (start.attributed a :: (inner ++ stop :: back)) =
        .behind out ∧
      givesWay out (start.attributed a) (inner ++ stop :: back) =
        givesWay out start (inner ++ stop :: back) := by
  refine ⟨⟨by simpa using hp.names, hp.inner⟩, ?_, givesWay_alike ⟨a, rfl⟩ (Alike.refl _)⟩
  rw [← hout]
  exact Spacer.advance_alike _ _ rfl (.cons ⟨a, rfl⟩ (Alike.refl _))

namespace Fenced

/-- Where a native element does not give way, both of its edges are kept. -/
theorem both_kept (h : Fenced (front ++ start :: (inner ++ stop :: back)))
    (hp : Partners start inner stop)
    (hout : ({} : Spacer).advance none front (start :: (inner ++ stop :: back)) = .behind out)
    (hstays : givesWay out start (inner ++ stop :: back) = false) :
    Kept front start (inner ++ stop :: back) ∧ Kept (front ++ start :: inner) stop back := by
  constructor
  · intro a
    obtain ⟨hnames, hout', hsame⟩ := hp.start_attributed hout a
    exact ((h.alike (alike_attributed front start a _)).mem_space hnames hout'
      (hsame.trans hstays)).1
  · intro a
    have hnames : Partners start inner (stop.attributed a) := ⟨by simpa using hp.names, hp.inner⟩
    have hinner := alike_attributed inner stop a back
    have halike : Alike (front ++ start :: (inner ++ stop :: back))
        (front ++ start :: (inner ++ stop.attributed a :: back)) :=
      List.rel_append (Alike.refl front) (.cons (.refl start) hinner)
    rw [List.append_assoc, List.cons_append]
    have hout' : ({} : Spacer).advance none front (start :: (inner ++ stop.attributed a :: back)) =
        .behind out := by
      rw [← hout]
      exact Spacer.advance_alike _ _ rfl (.cons (.refl start) hinner)
    refine ((h.alike halike).mem_space hnames hout' ?_).2
    rw [← hstays]
    exact givesWay_alike (.refl start) hinner

/-- Where a native element gives way, both of its edges are removed. -/
theorem both_removed (h : Fenced (front ++ start :: (inner ++ stop :: back)))
    (hp : Partners start inner stop)
    (hout : ({} : Spacer).advance none front (start :: (inner ++ stop :: back)) = .behind out)
    (hgives : givesWay out start (inner ++ stop :: back) = true) :
    Removed front start (inner ++ stop :: back) ∧
      Removed (front ++ start :: inner) stop back := by
  constructor
  · intro a
    obtain ⟨hnames, hout', hsame⟩ := hp.start_attributed hout a
    obtain ⟨-, ⟨c, body, rfl, hopened⟩, -⟩ := h.advance_givesWay hp hout hgives
    obtain ⟨-, ⟨c', body', hbody, hopened'⟩, -⟩ :=
      (h.alike (alike_attributed front start a _)).advance_givesWay hnames hout'
        (hsame.trans hgives)
    cases hbody
    rw [Token.quoteDepth_attributed] at hopened'
    have hspace (u : Token) (hu : ({} : Spacer).advance none (front ++ [u, c])
        (body ++ stop :: back) = openedBlock start.quoteDepth out c (body ++ stop :: back)) :
        space (front ++ u :: (c :: body ++ stop :: back)) =
          ((openedBlock start.quoteDepth out c (body ++ stop :: back)).run (some c)
            (body ++ stop :: back)).output.reverse := by
      have hsplit : front ++ u :: (c :: body ++ stop :: back) =
          front ++ [u, c] ++ (body ++ stop :: back) := by simp
      rw [hsplit, space, Spacer.run_append, hu]
      simp
    rw [hspace _ hopened, hspace _ hopened']
  · intro a
    obtain ⟨-, -, hdrop, -⟩ := h.advance_givesWay hp hout hgives
    have houtside := h.outside_stop hp
    have hspace (u : Token) (hu : u.tag? = some .endNativeBlock)
        (hadvance : ({} : Spacer).advance none (front ++ start :: inner) (u :: back) =
          ({} : Spacer).advance none (front ++ start :: inner) (stop :: back)) :
        space (front ++ start :: inner ++ u :: back) =
          ({ ({} : Spacer).advance none (front ++ start :: inner) (stop :: back) with
            dropNativeEnd := false }.run (some u) back).output.reverse := by
      rw [space, Spacer.run_append, hadvance, Spacer.run,
        Spacer.step_dropped houtside.code houtside.skip hdrop hu]
    rw [hspace stop hp.tag?_stop rfl, hspace (stop.attributed a)
      ((Token.tag?_attributed stop a).trans hp.tag?_stop)
      (Spacer.advance_alike _ _ rfl (.cons ⟨a, rfl⟩ (Alike.refl back)))]
    congr 2
    exact Spacer.run_alike _ _ (congrArg some (Token.tag?_attributed stop a))

end Fenced

theorem infinite_attributes : Infinite Html.Attributes := by
  refine Infinite.of_injective (fun s : String => (∅ : Html.Attributes).insert (.plain "") s) ?_
  intro s s' h
  have hentries := congrArg OrderedMap.entries h
  simpa [OrderedMap.insertEntry] using hentries

/-- A native edge that shows each of its attributes is not removed: the output is finite. -/
theorem Kept.not_removed {raw : Html.Token} (hk : Kept front t back)
    (hnode : t.node = .native edge raw) : ¬Removed front t back := by
  intro hr
  have hall : Set.range t.attributed ⊆ {u | u ∈ space (front ++ t :: back)} := by
    rintro u ⟨a, rfl⟩
    change t.attributed a ∈ space (front ++ t :: back)
    rw [← hr a]
    exact hk a
  have := infinite_attributes
  exact Set.infinite_range_of_injective (Token.attributed_injective hnode)
    ((List.finite_toSet _).subset hall)

/-- The edges of one native element are both removed, which happens to a `<pre>` only, or kept. -/
theorem Fenced.removed_or_kept (h : Fenced (front ++ start :: (inner ++ stop :: back)))
    (hp : Partners start inner stop) :
    (start.isNativePre .startNativeBlock = true ∧ Removed front start (inner ++ stop :: back) ∧
      Removed (front ++ start :: inner) stop back) ∨
    (Kept front start (inner ++ stop :: back) ∧ Kept (front ++ start :: inner) stop back) := by
  obtain ⟨out, hout⟩ := h.exists_behind hp
  cases hgives : givesWay out start (inner ++ stop :: back) with
  | true => exact .inl ⟨(h.advance_givesWay hp hout hgives).1, h.both_removed hp hout hgives⟩
  | false => exact .inr (h.both_kept hp hout hgives)

end Pairs

section Bracketing

inductive Flat : List Token → Prop
  | nil : Flat []
  | cons {t : Token} {ts : List Token} (ht : t.NotNative) (h : Flat ts) : Flat (t :: ts)
  | element {start stop : Token} {inner back : List Token} (hp : Partners start inner stop)
      (h : Flat back) : Flat (start :: (inner ++ stop :: back))

theorem edges_of_isContent (hts : ∀ t ∈ ts, t.IsContent) : edges isNative ts = [] :=
  List.filterMap_eq_nil_iff.mpr fun t ht => nativeEdge?_of_notNative (hts t ht).notNative

/-- A native element that is open comes to its end. -/
theorem exists_stop (hw : Walled (ts.reverse ++ done)) (hn : inNative done = true)
    (hproper : ∀ t ∈ ts, t.IsProper)
    (hscan : scan [.native name] (edges isNative ts) = some []) :
    ∃ inner stop back, ts = inner ++ stop :: back ∧ (∀ t ∈ inner, t.IsContent) ∧
      stop.edge? = some (.closing, .native name) ∧ scan [] (edges isNative back) = some [] := by
  induction ts generalizing done with
  | nil => cases hscan
  | cons t ts ih =>
    obtain ⟨ht, hproper⟩ := List.forall_mem_cons.mp hproper
    obtain ⟨hw', ⟨hcontent, hin, hedges⟩ | ⟨name', hedge, hedges⟩⟩ :=
      content_or_end_of_walled hw hn ht <;> rw [hedges] at hscan
    · obtain ⟨inner, stop, back, rfl, hinner, hstop, hback⟩ := ih hw' hin hproper hscan
      exact ⟨t :: inner, stop, back, rfl, List.forall_mem_cons.mpr ⟨hcontent, hinner⟩, hstop,
        hback⟩
    · simp only [scan] at hscan
      split_ifs at hscan with heq
      exact ⟨[], t, ts, rfl, List.forall_mem_nil _, heq ▸ hedge, hscan⟩

theorem flat_of_walled (hw : Walled (ts.reverse ++ done)) (hn : inNative done = false)
    (hproper : ∀ t ∈ ts, t.IsProper) (hscan : scan [] (edges isNative ts) = some []) :
    Flat ts := by
  induction hlength : ts.length using Nat.strong_induction_on generalizing ts done with
  | _ n ih =>
    cases ts with
    | nil => exact .nil
    | cons t ts =>
      obtain ⟨ht, hproper⟩ := List.forall_mem_cons.mp hproper
      have hw' : Walled (ts.reverse ++ t :: done) := by simpa using hw
      rw [List.length_cons] at hlength
      rw [edges, filterMap_cons_eq, ← nativeEdge?] at hscan
      rcases ht.cases with hnot | ⟨edge, name, hedge⟩
      · rw [nativeEdge?_of_notNative hnot] at hscan
        exact .cons hnot (ih ts.length (by omega) hw' ((inNative_of_notNative hnot done).trans hn)
          hproper hscan rfl)
      · rw [nativeEdge?_of_native hedge] at hscan
        cases edge with
        | closing => cases hscan
        | opening =>
          obtain ⟨inner, stop, back, rfl, hinner, hstop, hback⟩ := exists_stop hw'
            (inNative_of_start (Token.tag?_of_opening hedge) done) hproper hscan
          have hp : Partners t inner stop :=
            ⟨⟨name, hedge, hstop⟩, by rw [edges_of_isContent hinner]; rfl⟩
          have hw'' : Walled (back.reverse ++ stop :: (inner.reverse ++ t :: done)) := by
            simpa using hw'
          refine .element hp (ih back.length ?_ hw'' (inNative_of_end hp.tag?_stop _)
            (fun u hu => hproper u (by simp [hu])) hback rfl)
          simp only [List.length_append, List.length_cons] at hlength
          omega

/-- Where the native elements in the output are closed, the latest token is no native start. -/
theorem hasTag_start_of_scan (hproper : ∀ u ∈ out, u.IsProper)
    (hscan : scan [] (edges isNative out.reverse) = some []) :
    ∀ u ∈ out.head?, u.hasTag .startNativeBlock = false := by
  intro u hu
  obtain ⟨earlier, rfl⟩ := List.head?_eq_some_iff.mp hu
  by_contra hstart
  have htag : u.tag? = some .startNativeBlock := by simpa [Token.hasTag] using hstart
  obtain hnot | ⟨edge, name, hedge⟩ := (hproper u List.mem_cons_self).cases
  · exact hnot.start htag
  · cases edge with
    | closing => simp [Token.tag?_of_closing hedge] at htag
    | opening =>
      rw [List.reverse_cons, edges_append, scan_append] at hscan
      obtain ⟨ms, -, hms⟩ := Option.bind_eq_some_iff.mp hscan
      rw [edges, filterMap_cons_eq, ← nativeEdge?, nativeEdge?_of_native hedge] at hms
      simp [scan] at hms

/-- The native edges of the output, in the order of the stream. -/
theorem edges_reverse (out : List Token) :
    edges isNative out.reverse = (out.filterMap nativeEdge?).reverse :=
  List.filterMap_reverse

/-- Over a flat rest the pass keeps the native edges of its output bracketed. -/
theorem scan_space_of_flat (hflat : Flat ts) (h : Fenced (done ++ ts))
    (hscan : scan [] (edges isNative
      (({} : Spacer).advance none done ts).output.reverse) = some []) :
    scan [] (edges isNative (space (done ++ ts))) = some [] := by
  induction hflat generalizing done with
  | nil => rwa [space, Spacer.run_append]
  | @cons t ts hnot _ ih =>
    have hsplit : done ++ t :: ts = done ++ [t] ++ ts := by simp
    rw [hsplit] at h ⊢
    refine ih h ?_
    have h' : Fenced (done ++ t :: ts) := by rwa [hsplit]
    have hproper := h'.isProper_output
    have hforesees := (Spacer.Foresees.start (done ++ t :: ts)).advance none
    have hstep := nativeEdges_step hforesees hproper hnot.stop
      (fun _ => hasTag_start_of_scan hproper hscan) (done.getLast?.or none)
    rw [nativeEdge?_of_notNative hnot, Option.toList_none, List.nil_append] at hstep
    rw [edges_reverse] at hscan ⊢
    rw [Spacer.advance_append, List.singleton_append, Spacer.advance, Spacer.advance,
      List.nil_append, hstep]
    exact hscan
  | @element start stop inner back hp _ ih =>
    have hsplit : done ++ start :: (inner ++ stop :: back) =
        done ++ start :: (inner ++ [stop]) ++ back := by simp
    obtain ⟨out, hout⟩ := h.exists_behind hp
    have hadd := h
    rw [hsplit] at hadd ⊢
    refine ih hadd ?_
    rw [hout, edges_reverse] at hscan
    rw [edges_reverse]
    cases hgives : givesWay out start (inner ++ stop :: back) with
    | true =>
      obtain ⟨-, -, hdrop, hedges⟩ := h.advance_givesWay hp hout hgives
      have houtside := h.outside_stop hp
      have hadvance : ({} : Spacer).advance none (done ++ start :: (inner ++ [stop])) back =
          { ({} : Spacer).advance none (done ++ start :: inner) (stop :: back) with
            dropNativeEnd := false } := by
        have hsplit' : done ++ start :: (inner ++ [stop]) = done ++ start :: inner ++ [stop] := by
          simp
        rw [hsplit', Spacer.advance_append, List.singleton_append, Spacer.advance, Spacer.advance]
        exact Spacer.step_dropped houtside.code houtside.skip hdrop hp.tag?_stop _ _
      rw [hadvance]
      exact (congrArg (scan [] ·.reverse) hedges).trans hscan
    | false =>
      obtain ⟨later, hadvance, hlater⟩ := h.advance_stays hp hout hgives
      obtain ⟨name, hstart, hstop⟩ := hp.names
      have hnone : later.filterMap nativeEdge? = [] :=
        List.filterMap_eq_nil_iff.mpr fun u hu => nativeEdge?_of_notNative (hlater u hu)
      have hsettled := blind_nativeEdge?.settle 2 start.quoteDepth out
      have hword : (stop :: (later ++ start :: settle 2 start.quoteDepth out)).filterMap
          nativeEdge? =
            (.closing, .native name) :: (.opening, .native name) :: out.filterMap nativeEdge? := by
        rw [filterMap_cons_eq, List.filterMap_append, hnone, filterMap_cons_eq, hsettled,
          nativeEdge?_of_native hstart, nativeEdge?_of_native hstop]
        rfl
      have hout : (Spacer.behind out).output = out := rfl
      rw [hadvance, Spacer.behind, hword, List.reverse_cons, List.reverse_cons, List.append_assoc,
        scan_append_of (hout ▸ hscan)]
      simp [scan]

end Bracketing

theorem Fenced.scan_native (h : Fenced ts) : scan [] (edges isNative ts) = some [] := by
  have hword : edges isNative ts = (edges isInner ts).filter (isNative ·.2) := by
    rw [edges_eq, edges_eq, List.filter_filter]
    refine List.filter_congr fun e _ => ?_
    obtain ⟨edge, m⟩ := e
    cases m <;> rfl
  rw [hword]
  exact scan_filter isNative h.brackets

/-- The pass keeps the native edges of a conversion bracketed. -/
theorem Fenced.scan_space (h : Fenced ts) : scan [] (edges isNative (space ts)) = some [] := by
  have hwalled : Walled (ts.reverse ++ []) := by simpa using h.walled
  have hfenced : Fenced ([] ++ ts) := h
  exact scan_space_of_flat (flat_of_walled hwalled rfl h.proper h.scan_native) hfenced rfl

end HtmlMarkdown.Markdown

namespace HtmlMarkdown.Conversion

open Markdown (Kept Partners Removed Token edges isNative scan space)

/-- The native edges of a converted forest are bracketed by the names of their elements, and so they
are behind the spacing pass. Of the two edges of one element the end is removed exactly when the
start is; an edge that is not removed is kept; and the edges of a script are kept. -/
theorem nativeEdges_removed_in_pairs (o : Options) (f : Html.Forest) :
    ∃ ts, convert o f.tokens = .ok ts ∧
      scan [] (edges isNative ts) = some [] ∧
      scan [] (edges isNative (space ts)) = some [] ∧
      ∀ front start inner stop back, ts = front ++ start :: (inner ++ stop :: back) →
        Partners start inner stop →
          (Removed (front ++ start :: inner) stop back ↔
            Removed front start (inner ++ stop :: back)) ∧
          (Kept front start (inner ++ stop :: back) ↔
            ¬Removed front start (inner ++ stop :: back)) ∧
          (Kept (front ++ start :: inner) stop back ↔
            ¬Removed (front ++ start :: inner) stop back) ∧
          (start.nativeName? = some "script" → Kept front start (inner ++ stop :: back) ∧
            Kept (front ++ start :: inner) stop back) := by
  obtain ⟨ts, hts, hfenced⟩ := exists_convert_fenced o f
  refine ⟨ts, hts, hfenced.scan_native, hfenced.scan_space, ?_⟩
  rintro front start inner stop back rfl hp
  obtain ⟨name, hstart, hstop⟩ := hp.names
  obtain ⟨raw, hnode, -⟩ := Token.node_of_native hstart
  obtain ⟨raw', hnode', -⟩ := Token.node_of_native hstop
  rcases hfenced.removed_or_kept hp with ⟨hpre, hremoved, hremoved'⟩ | ⟨hkept, hkept'⟩
  · have hscript : start.nativeName? ≠ some "script" := by
      have hname := (Bool.and_eq_true_iff.mp hpre).2
      rw [eq_of_beq hname]
      decide
    exact ⟨iff_of_true hremoved' hremoved,
      iff_of_false (fun hk => hk.not_removed hnode hremoved) (not_not_intro hremoved),
      iff_of_false (fun hk => hk.not_removed hnode' hremoved') (not_not_intro hremoved'),
      fun h => absurd h hscript⟩
  · exact ⟨iff_of_false (hkept'.not_removed hnode') (hkept.not_removed hnode),
      iff_of_true hkept (hkept.not_removed hnode),
      iff_of_true hkept' (hkept'.not_removed hnode'), fun _ => ⟨hkept, hkept'⟩⟩

/-- Both edges of a `<pre>` that holds nothing but code are removed. -/
theorem nativeEdges_of_pre :
    let start := Token.native .opening (.startTag "pre" ∅)
    let inner := [.startCode, .html (.characters "x"), .endCode]
    let stop := Token.native .closing (.endTag "pre")
    convert {} (Html.Forest.element "pre" ∅ (.element "code" ∅ (.text "x" .nil) .nil) .nil).tokens =
        .ok ([.startBlock] ++ start :: (inner ++ stop :: [.endBlock])) ∧
      Partners start inner stop ∧ Removed [.startBlock] start (inner ++ stop :: [.endBlock]) ∧
      Removed ([.startBlock] ++ start :: inner) stop [.endBlock] := by
  intro start inner stop
  have hp : Partners start inner stop := ⟨⟨some "pre", rfl, rfl⟩, rfl⟩
  have hremoved : Removed [.startBlock] start (inner ++ stop :: [.endBlock]) := fun a => rfl
  obtain ⟨ts, hts, -, -, hpairs⟩ := nativeEdges_removed_in_pairs {}
    (.element "pre" ∅ (.element "code" ∅ (.text "x" .nil) .nil) .nil)
  obtain rfl : ts = _ := Except.ok.inj (hts.symm.trans rfl)
  obtain ⟨hpair, -⟩ := hpairs [.startBlock] start inner stop [.endBlock] rfl hp
  exact ⟨rfl, hp, hremoved, hpair.mpr hremoved⟩

end HtmlMarkdown.Conversion
