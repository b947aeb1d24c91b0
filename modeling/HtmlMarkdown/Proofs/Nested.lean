import HtmlMarkdown.Proofs.Frames

/-!
# Nested marks

The tokens of a forest add a well bracketed word of quotes, code and native elements, wherever the
forest stands. Their block marks close what they open, up to one block: the end of an outermost
list is left out where another list is to continue it, and is owed until that list opens.
-/

namespace HtmlMarkdown.Conversion

open Html (Forest)
open Markdown (Token Mark edges scan)

variable {o : Options} {ctx ctx' : Context} {r r' : Reaction} {rest ts : List Html.Token}
  {s s' : State}

def isBlock (m : Mark) : Bool := m = .block

def isInner (m : Mark) : Bool := m ≠ .block

/-- The block ends that have been left out for a list to come. -/
def Context.owed (ctx : Context) : Nat := ctx.listContinuation.toNat

/-- No list is to be continued while one is open. -/
def Context.Settled (ctx : Context) : Prop := ctx.lists ≠ [] → ctx.listContinuation = false

theorem Context.Resumes.lists_eq_nil (h : ctx.Resumes ctx') : ctx'.lists = [] ↔ ctx.lists = [] := by
  rw [← List.map_eq_nil_iff (f := ListFrame.kind), h.lists_eq, List.map_eq_nil_iff]

theorem Context.Settled.of_sameLists (h : ctx.Settled) (hs : ctx.SameLists ctx') :
    ctx'.Settled := by
  intro hne
  refine hs.continuation.trans (h fun hnil => hne ?_)
  rw [← List.map_eq_nil_iff (f := ListFrame.kind), hs.lists, hnil, List.map_nil]

theorem word_leaves (p : Mark → Bool) (hts : ∀ t ∈ ts, t.IsLeaf) (h : Passes o rest s ts s')
    (htags : s.context.anchorAsTag ≤ s.context.anchor) (opened : List Mark) :
    scan opened (s.word o p ts rest) = some opened ∧
      s.context.SameLists s'.context := by
  induction ts generalizing s with
  | nil =>
    cases h
    exact ⟨rfl, rfl, rfl⟩
  | cons t ts ih =>
    cases h with
    | @cons _ _ _ _ r hr hrest =>
      have ht := hts t List.mem_cons_self
      have hleaf := handles_of_react hr
      have hkept : s.context.SameLists r.context :=
        hleaf.sameLists fun _ _ => ⟨ht.startTag, ht.endTag⟩
      have hword : scan opened (edges p r.produced) = some opened := by
        rw [Markdown.edges_eq]
        rcases hleaf.leaf_edges ht.startTag ht.endTag with h | h
        · rw [h]
          rfl
        · rw [h]
          cases hp : p .block <;> simp [hp, scan]
      have hres := Context.Resumes.of_leaf hr ht htags
      obtain ⟨hbehind, hlists⟩ := ih (fun u hu => hts u (List.mem_cons_of_mem t hu)) hrest hres.tags
      rw [Passes.word_cons p hr, Markdown.scan_append, hword]
      exact ⟨hbehind, hlists.lists.trans hkept.lists,
        hlists.continuation.trans hkept.continuation⟩

theorem edges_inner_openList (kind : Html.ListKind) (ctx : Context) :
    edges isInner (openList kind ctx).produced = [] := by
  obtain ⟨c, -, h | h⟩ := openList_eq kind ctx <;> rw [h] <;> rfl

theorem edges_inner_closeList {more : Bool} (h : closeList more ctx = .ok r) :
    edges isInner r.produced = [] := by
  obtain ⟨c, -, rfl | rfl⟩ := closeList_eq h <;> rfl

/-- A forest brackets quotes, code and native elements well, inside what is open already. -/
theorem Passes.scan_inner {f : Forest} (h : Passes o rest s f.tokens s')
    (htags : s.context.anchorAsTag ≤ s.context.anchor) (opened : List Mark) :
    scan opened (s.word o isInner f.tokens rest) = some opened := by
  induction f using Forest.leavesRec generalizing rest s s' opened with
  | nil => rfl
  | leaves ts f g hts htokens ih =>
    rw [htokens] at h ⊢
    obtain ⟨s₁, h₁, hres, h₂⟩ := h.of_leaves_append hts htags
    rw [h₁.word_append, Markdown.scan_append_of (word_leaves isInner hts h₁ htags opened).1]
    exact ih h₂ hres.tags opened
  | element name attributes children f hv ihc ih =>
    obtain ⟨r, s₁, r', hr, h₁, hr', h₂, htags₁, hres, hres', hencloses⟩ := h.encloses hv htags
    rw [word_element isInner hv hr h₁ hr']
    cases hencloses with
    | frame ms hms _ _ =>
      rw [hms.edges_opens, Markdown.scan_append_of (Markdown.scan_opening _ _),
        Markdown.scan_append_of (ihc h₁ htags₁ _), hms.edges_closes,
        Markdown.scan_append_of (Markdown.scan_closing _ _)]
      exact ih h₂ hres'.tags opened
    | list kind hclose =>
      rw [edges_inner_openList, edges_inner_closeList hclose, List.nil_append, List.nil_append,
        Markdown.scan_append_of (ihc h₁ htags₁ opened)]
      exact ih h₂ hres'.tags opened

/-- The start of a list opens a block, unless it continues a list or stands in one; behind it no
block end is owed. -/
theorem scan_openList (kind : Html.ListKind) (h : ctx.Settled) (n : Nat) :
    scan (List.replicate (ctx.owed + n) .block) (edges isBlock (openList kind ctx).produced) =
        some (List.replicate ((if ctx.lists = [] then 1 else 0) + n) .block) ∧
      (openList kind ctx).context.listContinuation = false := by
  unfold openList Context.owed
  dsimp only
  by_cases hl : ctx.lists = []
  · cases hf : ctx.listContinuation with
    | true =>
      simp only [hl, ne_eq, not_true_eq_false, if_false, if_true]
      exact ⟨rfl, rfl⟩
    | false =>
      simp only [hl, ne_eq, not_true_eq_false, Bool.false_eq_true, if_false, if_true]
      refine ⟨?_, rfl⟩
      rw [Nat.add_comm 1 n, List.replicate_succ, Bool.toNat_false, Nat.zero_add]
      rfl
  · have hf := h hl
    simp only [hl, ne_eq, not_false_eq_true, if_false, if_true]
    refine ⟨?_, hf⟩
    rw [hf]
    rfl

/-- The end of a list closes the block of an outermost list, or owes that end. -/
theorem scan_closeList {more : Bool} {lists : List ListFrame} (h : closeList more ctx = .ok r)
    (hlists : ctx.lists.tail.map ListFrame.kind = lists.map ListFrame.kind)
    (hf : ctx.listContinuation = false) (n : Nat) :
    scan (List.replicate ((if lists = [] then 1 else 0) + n) .block) (edges isBlock r.produced) =
      some (List.replicate (r.context.owed + n) .block) ∧ (lists ≠ [] →
        r.context.listContinuation = false) := by
  unfold closeList at h
  cases hl : ctx.lists with
  | nil => simp [hl] at h
  | cons frame outer =>
    have houter : outer = [] ↔ lists = [] := by
      rw [hl, List.tail_cons] at hlists
      rw [← List.map_eq_nil_iff (f := ListFrame.kind), hlists, List.map_eq_nil_iff]
    simp only [hl] at h
    cases h
    by_cases ho : outer = []
    · have hlist := houter.mp ho
      simp only [ho, hlist, ne_eq, not_true_eq_false, if_false, if_true]
      cases more with
      | true => exact ⟨rfl, fun hne => hne.elim⟩
      | false =>
        refine ⟨?_, fun hne => hne.elim⟩
        simp only [Bool.false_eq_true, if_false, Reaction.emit, Context.owed, hf]
        rw [Nat.add_comm 1 n, List.replicate_succ, Bool.toNat_false, Nat.zero_add]
        rfl
    · have hlist := mt houter.mpr ho
      simp only [ho, hlist, ne_eq, not_false_eq_true, if_false, if_true]
      simp only [Reaction.quiet, Context.owed, hf]
      exact ⟨rfl, fun _ => trivial⟩

theorem filter_isBlock (ms : List Mark) :
    ∃ k, ms.filter isBlock = List.replicate k .block := by
  refine ⟨(ms.filter isBlock).length, List.eq_replicate_iff.mpr ⟨rfl, fun m hm => ?_⟩⟩
  simpa [isBlock] using (List.mem_filter.mp hm).2

/-- A forest closes the blocks that it opens, but for the block end owed for a list to come. -/
theorem Passes.scan_blocks {f : Forest} (h : Passes o rest s f.tokens s')
    (htags : s.context.anchorAsTag ≤ s.context.anchor) (hs : s.context.Settled) (n : Nat) :
    scan (List.replicate (s.context.owed + n) .block) (s.word o isBlock f.tokens rest) =
        some (List.replicate (s'.context.owed + n) .block) ∧ s'.context.Settled := by
  induction f using Forest.leavesRec generalizing rest s s' n with
  | nil =>
    cases h
    exact ⟨rfl, hs⟩
  | leaves ts f g hts htokens ih =>
    rw [htokens] at h ⊢
    obtain ⟨s₁, h₁, hres, h₂⟩ := h.of_leaves_append hts htags
    obtain ⟨hword, hlists⟩ := word_leaves isBlock hts h₁ htags
      (List.replicate (s.context.owed + n) .block)
    have howed : s.context.owed = s₁.context.owed := congrArg Bool.toNat hlists.continuation.symm
    rw [h₁.word_append, Markdown.scan_append_of hword, howed]
    exact ih h₂ hres.tags (hs.of_sameLists hlists) n
  | element name attributes children f hv ihc ih =>
    obtain ⟨r, s₁, r', hr, h₁, hr', h₂, htags₁, hres, hres', hencloses⟩ := h.encloses hv htags
    rw [word_element isBlock hv hr h₁ hr']
    cases hencloses with
    | frame ms hms hlists hlists' =>
      obtain ⟨k, hk⟩ := filter_isBlock ms
      have howed : r.context.owed = s.context.owed := congrArg Bool.toNat hlists.continuation
      have howed' : r'.context.owed = s₁.context.owed := congrArg Bool.toNat hlists'.continuation
      obtain ⟨hcontent, hs₁⟩ := ihc h₁ htags₁ (hs.of_sameLists hlists) (k + n)
      have hopens : scan (List.replicate (s.context.owed + n) .block) (edges isBlock r.produced) =
          some (List.replicate (r.context.owed + (k + n)) .block) := by
        rw [hms.edges_opens, Markdown.scan_opening, hk, List.reverse_replicate,
          ← List.replicate_add, howed]
        congr 2
        omega
      have hcloses : scan (List.replicate (s₁.context.owed + (k + n)) .block)
          (edges isBlock r'.produced) = some (List.replicate (r'.context.owed + n) .block) := by
        rw [hms.edges_closes, hk, List.reverse_replicate, howed',
          show s₁.context.owed + (k + n) = k + (s₁.context.owed + n) by omega, List.replicate_add,
          Markdown.scan_closing]
      rw [State.context_accept] at hcontent
      rw [Markdown.scan_append_of hopens, Markdown.scan_append_of hcontent,
        Markdown.scan_append_of hcloses]
      exact ih h₂ hres'.tags (hs₁.of_sameLists hlists') n
    | list kind hclose =>
      obtain ⟨hopens, hflag⟩ := scan_openList kind hs n
      obtain ⟨hcontent, hs₁⟩ := ihc h₁ htags₁ (fun _ => hflag)
        ((if s.context.lists = [] then 1 else 0) + n)
      have hlists : s₁.context.lists.map ListFrame.kind =
          kind :: s.context.lists.map ListFrame.kind :=
        hres.lists_eq.trans (congrArg Nesting.lists (nesting_openList kind s.context))
      have hflag₁ : s₁.context.listContinuation = false :=
        hs₁ fun hnil => by simp [hnil] at hlists
      have houter : s₁.context.lists.tail.map ListFrame.kind =
          s.context.lists.map ListFrame.kind := by
        rw [List.map_tail, hlists, List.tail_cons]
      obtain ⟨hcloses, hs₂⟩ := scan_closeList hclose houter hflag₁ n
      have howed : (openList kind s.context).context.owed = 0 := by rw [Context.owed, hflag]; rfl
      have howed₁ : s₁.context.owed = 0 := by rw [Context.owed, hflag₁]; rfl
      rw [State.context_accept, howed, howed₁, Nat.zero_add] at hcontent
      rw [Markdown.scan_append_of hopens, Markdown.scan_append_of hcontent,
        Markdown.scan_append_of hcloses]
      exact ih h₂ hres'.tags (fun hne => hs₂ (mt hres'.lists_eq_nil.mpr hne)) n

end HtmlMarkdown.Conversion
