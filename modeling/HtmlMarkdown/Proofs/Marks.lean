import HtmlMarkdown.Proofs.Coherence
import HtmlMarkdown.Proofs.Handling
import HtmlMarkdown.Proofs.Trace

/-!
# Marks

Blocks, quotes, code and native elements stand in the stream between two edges. A word of edges is
well bracketed if `scan` gets through it and leaves no mark open. Every token that is no tag of a
paired element writes both edges of a block or none.
-/

namespace HtmlMarkdown.Markdown

/-- What an edge of the stream opens or closes. -/
inductive Mark where
  | block
  | quote
  | code
  /-- A native element, with its name. -/
  | native (name : Option String)
  deriving DecidableEq, Repr

def Token.edge? (t : Token) : Option (Edge × Mark) :=
  match t.node with
  | .markdown .startBlock _ => some (.opening, .block)
  | .markdown .endBlock _ => some (.closing, .block)
  | .markdown .startBlockquote _ => some (.opening, .quote)
  | .markdown .endBlockquote _ => some (.closing, .quote)
  | .markdown .startCode _ => some (.opening, .code)
  | .markdown .endCode _ => some (.closing, .code)
  | .native edge raw => some (edge, .native raw.name)
  | _ => none

@[simp] theorem Token.edge?_within (t : Token) (d : Option Nat) :
    (t.within d).edge? = t.edge? := by
  unfold edge?
  rw [node_within]

def Tag.isEdge : Tag → Bool
  | startBlock | endBlock | startBlockquote | endBlockquote => true
  | startCode | endCode | startNativeBlock | endNativeBlock => true
  | _ => false

theorem Token.edge?_of_tag? {t : Token} (h : t.tagIs Tag.isEdge = false) : t.edge? = none := by
  obtain ⟨node, _, _⟩ := t
  cases node with
  | markdown tag data =>
    have htag : tag.isEdge = false := h
    cases tag <;> first | rfl | cases htag
  | native edge raw => cases edge <;> cases h
  | html raw => rfl

theorem Token.edge?_of_isWhitespace {t : Token} (h : t.tagIs Tag.isWhitespace = true) :
    t.edge? = none := by
  apply edge?_of_tag?
  unfold tagIs at *
  cases htag : t.tag? with
  | none => rfl
  | some tag =>
    have hw : tag.isWhitespace = true := by simpa [htag] using h
    cases tag <;> first | rfl | cases hw

def edges (p : Mark → Bool) (ts : List Token) : List (Edge × Mark) :=
  ts.filterMap fun t => t.edge?.filter (p ·.2)

theorem edges_eq (p : Mark → Bool) (ts : List Token) :
    edges p ts = (ts.filterMap Token.edge?).filter (p ·.2) := by
  simp [edges, List.filter_filterMap]

theorem edges_append (p : Mark → Bool) (ts us : List Token) :
    edges p (ts ++ us) = edges p ts ++ edges p us :=
  List.filterMap_append

theorem edges_stamped (p : Mark → Bool) (ts : List Token) (d : Option Nat) :
    edges p (ts.map (·.within d)) = edges p ts := by
  simp [edges, List.filterMap_map]

/-- The marks that are open behind a word, innermost first, where those of the list are open before
it; none if an end does not match the innermost mark. -/
def scan : List Mark → List (Edge × Mark) → Option (List Mark)
  | opened, [] => some opened
  | opened, (.opening, m) :: word => scan (m :: opened) word
  | [], (.closing, _) :: _ => none
  | m' :: opened, (.closing, m) :: word => if m' = m then scan opened word else none

theorem scan_append (opened : List Mark) (v w : List (Edge × Mark)) :
    scan opened (v ++ w) = (scan opened v).bind (scan · w) := by
  induction v generalizing opened with
  | nil => rfl
  | cons e v ih =>
    obtain ⟨edge, m⟩ := e
    cases edge with
    | opening => exact ih _
    | closing =>
      cases opened with
      | nil => rfl
      | cons m' opened =>
        simp only [List.cons_append, scan]
        split_ifs
        · exact ih opened
        · rfl

theorem scan_append_of {opened opened' : List Mark} {v : List (Edge × Mark)}
    (h : scan opened v = some opened') (w : List (Edge × Mark)) :
    scan opened (v ++ w) = scan opened' w := by
  rw [scan_append, h, Option.bind_some]

theorem scan_opening (opened ms : List Mark) :
    scan opened (ms.map (.opening, ·)) = some (ms.reverse ++ opened) := by
  induction ms generalizing opened with
  | nil => rfl
  | cons m ms ih =>
    rw [List.map_cons, scan, ih, List.reverse_cons, List.append_assoc, List.singleton_append]

theorem scan_closing (opened ms : List Mark) :
    scan (ms ++ opened) (ms.map (.closing, ·)) = some opened := by
  induction ms with
  | nil => rfl
  | cons m ms ih => rw [List.cons_append, List.map_cons, scan, if_pos rfl, ih]

def countEdge (edge : Edge) (w : List (Edge × Mark)) : Nat := w.countP (·.1 = edge)

theorem countEdge_cons (edge : Edge) (e : Edge × Mark) (w : List (Edge × Mark)) :
    countEdge edge (e :: w) = countEdge edge w + if e.1 = edge then 1 else 0 := by
  simp [countEdge, List.countP_cons]

/-- The edges of a word account for the marks that are open before and behind it. -/
theorem countEdge_of_scan {opened opened' : List Mark} {w : List (Edge × Mark)}
    (h : scan opened w = some opened') :
    countEdge .closing w + opened'.length = opened.length + countEdge .opening w := by
  induction w generalizing opened with
  | nil =>
    cases h
    exact Nat.add_comm _ _
  | cons e w ih =>
    obtain ⟨edge, m⟩ := e
    cases edge with
    | opening =>
      have hw := ih (show scan (m :: opened) w = some opened' from h)
      simp only [countEdge_cons, List.length_cons, reduceCtorEq, if_true, if_false] at hw ⊢
      omega
    | closing =>
      cases opened with
      | nil => cases h
      | cons m' opened =>
        simp only [scan] at h
        split_ifs at h
        have hw := ih h
        simp only [countEdge_cons, List.length_cons, reduceCtorEq, if_true, if_false]
        omega

/-- On the way through a word no more marks are closed than were opened. -/
theorem countEdge_le_of_prefix {opened : List Mark} {v w : List (Edge × Mark)}
    (h : (scan opened w).isSome = true) (hv : v <+: w) :
    countEdge .closing v ≤ opened.length + countEdge .opening v := by
  obtain ⟨u, rfl⟩ := hv
  rw [scan_append] at h
  cases hscan : scan opened v with
  | none => simp [hscan] at h
  | some opened' =>
    have := countEdge_of_scan hscan
    omega

end HtmlMarkdown.Markdown

namespace HtmlMarkdown.Conversion

open Markdown (Token Mark edges scan)

variable {o : Options} {w : Window} {last : Option Token} {ctx : Context} {r : Reaction}
  {rest ts us : List Html.Token} {s s' : State}

/-- A step adds the edges of what it writes: a token that it replaces has none. -/
theorem edges_accept (p : Mark → Bool) (t : Html.Token) {after : List Html.Token}
    (h : Handles o (s.window t after) s.emitted.head? s.context r) :
    edges p (s.accept t r).emitted.reverse =
      edges p s.emitted.reverse ++ edges p r.produced := by
  have hkept : edges p (if r.replacesLast then s.emitted.tail else s.emitted).reverse =
      edges p s.emitted.reverse := by
    split_ifs with hr
    · obtain ⟨u, hlast, hu⟩ := h.isNewline_of_replacesLast hr
      cases he : s.emitted with
      | nil => rfl
      | cons last emitted =>
        rw [he, List.head?_cons, Option.some.injEq] at hlast
        subst hlast
        have hedge := Token.edge?_of_isWhitespace (Token.isWhitespace_of_isNewline hu)
        simp [edges, hedge]
    · rfl
  rw [State.emitted_accept, Markdown.edges_append, hkept, Reaction.written,
    Markdown.edges_stamped]

def State.word (o : Options) (p : Mark → Bool) (s : State) (ts rest : List Html.Token) :
    List (Markdown.Edge × Mark) :=
  (s.trace o ts rest).flatMap fun step => edges p step.2.produced

theorem Passes.word_cons (p : Mark → Bool) {t : Html.Token}
    (hr : react o (s.window t (ts ++ rest)) s.emitted.head? s.context = .ok r) :
    s.word o p (t :: ts) rest = edges p r.produced ++ (s.accept t r).word o p ts rest := by
  rw [State.word, trace_cons hr, List.flatMap_cons]
  rfl

theorem Passes.word_append (p : Mark → Bool) (h : Passes o (us ++ rest) s ts s') :
    s.word o p (ts ++ us) rest = s.word o p ts (us ++ rest) ++ s'.word o p us rest := by
  rw [State.word, h.trace_append, List.flatMap_append]
  rfl

theorem Passes.edges_emitted (p : Mark → Bool) (h : Passes o rest s ts s') :
    edges p s'.emitted.reverse = edges p s.emitted.reverse ++ s.word o p ts rest := by
  induction h with
  | nil s => simp [State.word, State.trace]
  | cons hr _ ih =>
    rw [ih, edges_accept p _ (handles_of_react hr), word_cons p hr, List.append_assoc]

theorem edges_body (p : Mark → Bool) (s : State) :
    edges p s.body = edges p s.emitted.reverse := by
  unfold State.body
  split
  · rfl
  · cases s.emitted with
    | nil => rfl
    | cons last emitted =>
      dsimp only
      split_ifs with hw
      · simp [edges, Token.edge?_of_isWhitespace hw]
      · rfl

/-- The reference block opens one block and closes it. -/
theorem scan_referenceBlock (p : Mark → Bool) (references : References) (opened : List Mark) :
    scan opened (edges p (State.referenceBlock references)) = some opened := by
  have hdefs : (references.entries.flatMap fun entry =>
      [Token.newline, .anchorReference entry.1 entry.2.1 entry.2.2]).filterMap Token.edge? =
        [] := by
    refine List.filterMap_eq_nil_iff.mpr fun u hu => ?_
    obtain ⟨entry, -, hu⟩ := List.mem_flatMap.mp hu
    simp only [List.mem_cons, List.not_mem_nil, or_false] at hu
    rcases hu with rfl | rfl <;> rfl
  have hblock : (State.referenceBlock references).filterMap Token.edge? =
      [(.opening, .block), (.closing, .block)] := by
    rw [State.referenceBlock_eq, List.filterMap_append, List.filterMap_append, hdefs]
    rfl
  rw [Markdown.edges_eq, hblock]
  cases hp : p .block <;> simp [hp, scan]

/-- What a passage from the start brackets, the finished stream brackets. -/
theorem Passes.scan_finished (p : Mark → Bool) (h : Passes o rest {} ts s) (opened : List Mark) :
    scan opened (edges p s.finished) = scan opened (({} : State).word o p ts rest) := by
  have hword : edges p s.body = ({} : State).word o p ts rest := by
    rw [edges_body, h.edges_emitted]
    rfl
  have hending (opened : List Mark) : scan opened (edges p
      (if s.context.references.isEmpty then [] else State.referenceBlock s.context.references)) =
        some opened := by
    split_ifs
    · rfl
    · exact scan_referenceBlock p _ opened
  rw [s.finished_eq, Markdown.edges_append, hword, Markdown.scan_append]
  cases scan opened (({} : State).word o p ts rest) with
  | none => rfl
  | some opened' => exact hending opened'

end HtmlMarkdown.Conversion
