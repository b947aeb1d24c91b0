import HtmlMarkdown.Proofs.FoldedText
import HtmlMarkdown.Proofs.SmoothText

/-!
# Newline runs of text laid out once

Runs of newlines are cut before the indents of lines are dropped. A line with nothing but blanks on
it keeps two runs apart while they are cut, and is gone afterwards. So text that is laid out has
everything of its normal form but one thing: it has three newlines in a row exactly where blanks
stand among three newlines of one gap, and there laying out once more makes a difference. The
second time is always enough.
-/

namespace HtmlMarkdown.Text

/-- Inside the text there is a gap that begins and ends with a newline, with another newline and
with blanks in between. -/
def Interrupted (cs : List Char) : Prop :=
  ∃ before gap after, cs = before ++ '\n' :: (gap ++ '\n' :: after) ∧
    (∀ c ∈ gap, isFlowSpace c = true) ∧ '\n' ∈ gap ∧ (∃ c ∈ gap, isSpaceOrTab c = true) ∧
    ink before ≠ [] ∧ ink after ≠ []

variable {cs ds es : List Char} {c : Char}

theorem eq_newline_of_isFlowSpace (h : isFlowSpace c = true) (hblank : isSpaceOrTab c = false) :
    c = '\n' := by simpa [isFlowSpace, hblank] using h

section Lists

/-- The first and the last of two or more occurrences. -/
theorem exists_first_last (h : 2 ≤ cs.count c) : ∃ ds gap es,
    cs = ds ++ c :: (gap ++ c :: es) ∧ c ∉ ds ∧ c ∉ es := by
  have hmem : c ∈ cs := List.count_pos_iff.mp (by omega)
  obtain ⟨ds, rest, rfl, hds⟩ := List.eq_append_cons_of_mem hmem
  have hrest : c ∈ rest.reverse := by
    rw [List.count_append, List.count_eq_zero_of_not_mem hds, List.count_cons_self] at h
    exact List.mem_reverse.mpr (List.count_pos_iff.mp (by omega))
  obtain ⟨es, gap, hsplit, hes⟩ := List.eq_append_cons_of_mem hrest
  refine ⟨ds, gap.reverse, es.reverse, ?_, hds, fun hmem => hes (List.mem_reverse.mp hmem)⟩
  rw [← List.reverse_reverse rest, hsplit]
  simp

/-- A text that contains the characters of a gap, in their order, contains them in a gap. -/
theorem exists_gap_of_sublist (h : (c :: (ds ++ [c])).Sublist cs) : ∃ before gap after,
    cs = before ++ c :: (gap ++ c :: after) ∧ ds.Sublist gap := by
  obtain ⟨xs, ys, rfl, hx, hrest⟩ := List.cons_sublist_iff.mp h
  obtain ⟨zs, ws, rfl, hds, hlast⟩ := List.append_sublist_iff.mp hrest
  obtain ⟨before, xs', rfl⟩ := List.append_of_mem hx
  obtain ⟨ws', after, rfl⟩ := List.append_of_mem (List.singleton_sublist.mp hlast)
  refine ⟨before, xs' ++ (zs ++ ws'), after, by simp, ?_⟩
  exact (hds.trans (List.sublist_append_left zs ws')).trans (List.sublist_append_right xs' _)

theorem exists_append_takeTail (p : Char → Bool) (h : ∃ d ∈ cs, p d = false) :
    ∃ ds d, p d = false ∧ cs = ds ++ d :: takeTail p cs := by
  have hsplit := dropTail_append_takeTail p cs
  rcases List.eq_nil_or_concat' (dropTail p cs) with hnil | ⟨ds, d, hds⟩
  · obtain ⟨d, hd, hnot⟩ := h
    rw [hnil, List.nil_append] at hsplit
    rw [← hsplit] at hd
    rw [List.mem_takeWhile_imp (List.mem_reverse.mp hd)] at hnot
    cases hnot
  · have hlast : p d = false := getLast?_dropTail p cs d (by rw [hds]; simp)
    rw [hds, List.append_assoc, List.singleton_append] at hsplit
    exact ⟨ds, d, hlast, hsplit.symm⟩

end Lists

section Ink

theorem exists_of_ink_ne_nil (h : ink cs ≠ []) : ∃ c ∈ cs, isWhite c = false := by
  obtain ⟨c, hc⟩ := List.exists_mem_of_ne_nil _ h
  rw [ink, List.mem_filter] at hc
  exact ⟨c, hc.1, by simpa using hc.2⟩

theorem ink_ne_nil_of_mem (hmem : c ∈ cs) (hc : isWhite c = false) : ink cs ≠ [] :=
  List.ne_nil_of_mem (List.mem_filter.mpr ⟨hmem, by simp [hc]⟩)

theorem ink_eq_nil (h : ∀ c ∈ cs, isWhite c = true) : ink cs = [] :=
  List.filter_eq_nil_iff.mpr fun c hc => by simp [h c hc]

theorem ink_append_ne_nil_left (h : ink cs ≠ []) (ds : List Char) : ink (cs ++ ds) ≠ [] := by
  rw [ink_append]
  exact List.append_ne_nil_of_left_ne_nil h _

theorem ink_append_ne_nil_right (h : ink ds ≠ []) (cs : List Char) : ink (cs ++ ds) ≠ [] := by
  rw [ink_append]
  exact List.append_ne_nil_of_right_ne_nil _ h

/-- Trimming keeps what has ink on both sides. -/
theorem isInfix_trimChars (hcs : ink cs ≠ []) (hes : ink es ≠ []) :
    ds <:+: trimChars (cs ++ ds ++ es) := by
  have hkeep {xs : List Char} (hxs : ink xs ≠ []) : (xs.dropWhile isWhite).isEmpty = false := by
    rw [← ink_dropWhile fun _ h => h] at hxs
    rw [List.isEmpty_eq_false_iff]
    exact fun hnil => hxs (by rw [hnil]; rfl)
  have hreverse : ink es.reverse ≠ [] := by rwa [ink_reverse, List.reverse_ne_nil_iff]
  refine ⟨cs.dropWhile isWhite, (es.reverse.dropWhile isWhite).reverse, ?_⟩
  have hfront : (cs ++ (ds ++ es)).dropWhile isWhite = cs.dropWhile isWhite ++ (ds ++ es) := by
    rw [List.dropWhile_append, hkeep hcs, if_neg Bool.false_ne_true]
  have hback (xs : List Char) : dropTail isWhite (xs ++ es) = xs ++ dropTail isWhite es := by
    rw [dropTail, List.reverse_append, List.dropWhile_append, hkeep hreverse,
      if_neg Bool.false_ne_true, List.reverse_append, List.reverse_reverse]
    rfl
  rw [trimChars, List.append_assoc cs, hfront, ← List.append_assoc, hback]
  rfl

end Ink

namespace Blanked

theorem trans (h : Blanked cs ds) (h' : Blanked ds es) : Blanked cs es := by
  induction h generalizing es with
  | nil => exact h'
  | keep c _ ih =>
    cases h' with
    | keep _ h' => exact .keep c (ih h')
    | drop hc h' => exact .drop hc (ih h')
    | space hc h' => exact .space hc (ih h')
  | drop hc _ ih => exact .drop hc (ih h')
  | space hc _ ih =>
    cases h' with
    | keep _ h' => exact .space hc (ih h')
    | drop _ h' => exact .drop hc (ih h')
    | space _ h' => exact .space hc (ih h')

theorem ink_eq (h : Blanked cs ds) : ink cs = ink ds := by
  induction h with
  | nil => rfl
  | keep c _ ih => exact ink_cons_congr c ih
  | drop hc _ ih => rw [ink_cons_of_white (isWhite_of_isSpaceOrTab hc), ih]
  | space hc _ ih =>
    rw [ink_cons_of_white (isWhite_of_isSpaceOrTab hc), ink_cons_of_white isWhite_space, ih]

theorem count_newline (h : Blanked cs ds) : cs.count '\n' = ds.count '\n' := by
  induction h with
  | nil => rfl
  | keep c _ ih => rw [List.count_cons, List.count_cons, ih]
  | drop hc _ ih => rw [List.count_cons_of_ne (ne_newline_of_isSpaceOrTab hc), ih]
  | space hc _ ih =>
    rw [List.count_cons_of_ne (ne_newline_of_isSpaceOrTab hc),
      List.count_cons_of_ne (by decide), ih]

theorem exists_append (h : Blanked cs (ds ++ es)) : ∃ xs ys,
    cs = xs ++ ys ∧ Blanked xs ds ∧ Blanked ys es := by
  generalize hout : ds ++ es = out at h
  induction h generalizing ds with
  | nil =>
    obtain ⟨rfl, rfl⟩ := List.append_eq_nil_iff.mp hout
    exact ⟨[], [], rfl, .nil, .nil⟩
  | keep c h ih =>
    cases ds with
    | nil =>
      obtain rfl := hout
      exact ⟨[], _, rfl, .nil, .keep c h⟩
    | cons d ds =>
      obtain ⟨rfl, hrest⟩ := List.cons.inj hout
      obtain ⟨xs, ys, rfl, hxs, hys⟩ := ih hrest
      exact ⟨d :: xs, ys, rfl, .keep d hxs, hys⟩
  | drop hc _ ih =>
    obtain ⟨xs, ys, rfl, hxs, hys⟩ := ih hout
    exact ⟨_ :: xs, ys, rfl, .drop hc hxs, hys⟩
  | space hc h ih =>
    cases ds with
    | nil =>
      obtain rfl := hout
      exact ⟨[], _, rfl, .nil, .space hc h⟩
    | cons d ds =>
      obtain ⟨rfl, hrest⟩ := List.cons.inj hout
      obtain ⟨xs, ys, rfl, hxs, hys⟩ := ih hrest
      exact ⟨_ :: xs, ys, rfl, .space hc hxs, hys⟩

/-- In front of a newline nothing but blanks was left out. -/
theorem exists_newline (h : Blanked cs ('\n' :: ds)) : ∃ blanks rest,
    cs = blanks ++ '\n' :: rest ∧ (∀ c ∈ blanks, isSpaceOrTab c = true) ∧ Blanked rest ds := by
  generalize hout : '\n' :: ds = out at h
  induction h with
  | nil => cases hout
  | keep c h _ =>
    obtain ⟨rfl, rfl⟩ := List.cons.inj hout
    exact ⟨[], _, rfl, fun _ hmem => absurd hmem List.not_mem_nil, h⟩
  | drop hc _ ih =>
    obtain ⟨blanks, rest, rfl, hblanks, hrest⟩ := ih hout
    exact ⟨_ :: blanks, rest, rfl, List.forall_mem_cons.mpr ⟨hc, hblanks⟩, hrest⟩
  | space _ _ _ => exact absurd (List.cons.inj hout).1 (by decide)

end Blanked

section Passes

/-- What is left of a text whose newlines are cut, piece by piece. -/
theorem exists_append_of_capNewlines {kept : Nat} (h : capNewlines kept cs = ds ++ es) :
    ∃ xs ys kept', cs = xs ++ ys ∧ capNewlines kept xs = ds ∧ capNewlines kept' ys = es := by
  induction cs generalizing kept ds with
  | nil =>
    obtain ⟨rfl, rfl⟩ := List.append_eq_nil_iff.mp h.symm
    exact ⟨[], [], 0, rfl, rfl, rfl⟩
  | cons c cs ih =>
    cases ds with
    | nil => exact ⟨[], c :: cs, kept, rfl, rfl, h⟩
    | cons d ds =>
      rw [capNewlines] at h
      split_ifs at h with hc hkept
      · obtain ⟨rfl, hrest⟩ := List.cons.inj h
        obtain ⟨xs, ys, kept', rfl, hxs, hys⟩ := ih hrest
        exact ⟨c :: xs, ys, kept', rfl, by rw [capNewlines, if_pos hc, if_pos hkept, hxs], hys⟩
      · obtain ⟨xs, ys, kept', rfl, hxs, hys⟩ := ih h
        exact ⟨c :: xs, ys, kept', rfl, by rw [capNewlines, if_pos hc, if_neg hkept, hxs], hys⟩
      · obtain ⟨rfl, hrest⟩ := List.cons.inj h
        obtain ⟨xs, ys, kept', rfl, hxs, hys⟩ := ih hrest
        exact ⟨c :: xs, ys, kept', rfl, by rw [capNewlines, if_neg hc, hxs], hys⟩

theorem mem_or_newline_of_capNewlines (kept : Nat) (h : c ∈ cs) :
    c = '\n' ∨ c ∈ capNewlines kept cs := by
  induction cs generalizing kept with
  | nil => cases h
  | cons d cs ih =>
    rw [capNewlines]
    rcases List.mem_cons.mp h with rfl | h <;> split_ifs with hd hkept
    · exact .inl hd
    · exact .inl hd
    · exact .inr List.mem_cons_self
    · exact (ih _ h).imp_right (List.mem_cons_of_mem d)
    · exact ih _ h
    · exact (ih _ h).imp_right (List.mem_cons_of_mem d)

theorem exists_capNewlines_append (kept : Nat) (cs ds : List Char) : ∃ kept',
    capNewlines kept (cs ++ ds) = capNewlines kept cs ++ capNewlines kept' ds := by
  induction cs generalizing kept with
  | nil => exact ⟨kept, rfl⟩
  | cons c cs ih =>
    simp only [List.cons_append, capNewlines]
    split_ifs
    · exact (ih _).imp fun _ hrest => congrArg _ hrest
    · exact ih _
    · exact (ih _).imp fun _ hrest => congrArg _ hrest

/-- Behind text the newlines are counted anew. -/
theorem capNewlines_append_cons (hc : c ≠ '\n') (kept : Nat) (cs ds : List Char) :
    capNewlines kept (cs ++ c :: ds) = capNewlines kept cs ++ c :: capNewlines 0 ds := by
  induction cs generalizing kept with
  | nil => simp only [List.nil_append, capNewlines, if_neg hc]
  | cons d cs ih =>
    simp only [List.cons_append, capNewlines]
    split_ifs
    · exact congrArg _ (ih _)
    · exact ih _
    · exact congrArg _ (ih _)

theorem le_count_capNewlines (kept : Nat) (cs : List Char) :
    min (2 - kept) (cs.count '\n') ≤ (capNewlines kept cs).count '\n' := by
  induction cs generalizing kept with
  | nil => simp [capNewlines]
  | cons c cs ih =>
    rw [capNewlines]
    split_ifs with hc hkept
    · rw [hc, List.count_cons_self, List.count_cons_self]
      have hrest := ih (kept + 1)
      omega
    · have hrest := ih kept
      omega
    · rw [List.count_cons_of_ne hc, List.count_cons_of_ne hc]
      have hrest := ih 0
      omega

theorem exists_squeeze_append (inRun : Bool) (cs ds : List Char) : ∃ inRun',
    squeeze inRun (cs ++ ds) = squeeze inRun cs ++ squeeze inRun' ds := by
  induction cs generalizing inRun with
  | nil => exact ⟨inRun, rfl⟩
  | cons c cs ih =>
    simp only [List.cons_append, squeeze]
    split_ifs
    · exact ih true
    · exact (ih true).imp fun _ hrest => congrArg _ hrest
    · exact (ih false).imp fun _ hrest => congrArg _ hrest

/-- What the indents of a text are followed by is seen up to the next newline. -/
theorem exists_dropIndents_append (inIndent : Bool) (cs ds : List Char) : ∃ out, Blanked cs out ∧
    dropIndents inIndent (cs ++ '\n' :: ds) = out ++ '\n' :: dropIndents true ds := by
  induction cs generalizing inIndent with
  | nil =>
    refine ⟨[], .nil, ?_⟩
    rw [List.nil_append, dropIndents, if_neg (by simp [isSpaceOrTab])]
    rfl
  | cons c cs ih =>
    rw [List.cons_append, dropIndents]
    split_ifs with hc hitem
    · obtain ⟨out, hout, hrest⟩ := ih true
      exact ⟨c :: out, .keep c hout, congrArg _ hrest⟩
    · obtain ⟨out, hout, hrest⟩ := ih true
      exact ⟨out, .drop (Bool.and_eq_true_iff.mp hc).2 hout, hrest⟩
    · obtain ⟨out, hout, hrest⟩ := ih (c == '\n')
      exact ⟨c :: out, .keep c hout, congrArg _ hrest⟩

theorem head?_dropWhile_gap (h : ∀ c ∈ cs, isFlowSpace c = true) (ds : List Char) :
    ((cs ++ '\n' :: ds).dropWhile isSpaceOrTab).head? = some '\n' := by
  induction cs with
  | nil => rfl
  | cons c cs ih =>
    obtain ⟨hc, hrest⟩ := List.forall_mem_cons.mp h
    rw [List.cons_append]
    cases hblank : isSpaceOrTab c with
    | true => rw [List.dropWhile_cons_of_pos hblank, ih hrest]
    | false =>
      rw [List.dropWhile_cons_of_neg (by simp [hblank]), List.head?_cons,
        eq_newline_of_isFlowSpace hc hblank]

/-- Between two newlines of a gap every blank is an indent. -/
theorem dropIndents_gap (h : ∀ c ∈ cs, isFlowSpace c = true) (ds : List Char) :
    dropIndents true (cs ++ '\n' :: ds) =
      List.replicate (cs.count '\n') '\n' ++ '\n' :: dropIndents true ds := by
  induction cs with
  | nil =>
    rw [List.nil_append, dropIndents, if_neg (by simp [isSpaceOrTab])]
    rfl
  | cons c cs ih =>
    obtain ⟨hc, hrest⟩ := List.forall_mem_cons.mp h
    rw [List.cons_append, dropIndents]
    cases hblank : isSpaceOrTab c with
    | true =>
      have hitem : opensItem '\n' = false := by decide
      rw [if_pos (by rfl), head?_dropWhile_gap hrest, Option.any_some, hitem,
        if_neg Bool.false_ne_true, ih hrest,
        List.count_cons_of_ne (ne_newline_of_isSpaceOrTab hblank)]
    | false =>
      obtain rfl := eq_newline_of_isFlowSpace hc hblank
      rw [if_neg (by simp), List.count_cons_self, List.replicate_succ]
      exact congrArg _ (ih hrest)

end Passes

section Wide

def Wide (cs : List Char) : Prop :=
  ∃ before gap after, cs = before ++ (gap ++ after) ∧ (∀ c ∈ gap, isFlowSpace c = true) ∧
    3 ≤ gap.count '\n' ∧ ink before ≠ [] ∧ ink after ≠ []

/-- On each side of the blanks some newlines are kept, and on one side two. -/
theorem Interrupted.wide (h : Interrupted cs) : Wide (capNewlines 0 cs) := by
  obtain ⟨before, gap, after, rfl, hgap, hnewline, ⟨e, he, hblank⟩, hbefore, hafter⟩ := h
  have hvisible : ∃ d ∈ before, (d == '\n') = false := by
    obtain ⟨d, hd, hwhite⟩ := exists_of_ink_ne_nil hbefore
    refine ⟨d, hd, beq_eq_false_iff_ne.mpr ?_⟩
    rintro rfl
    exact absurd hwhite (by decide)
  obtain ⟨front, d, hd, hsplit⟩ := exists_append_takeTail (· == '\n') hvisible
  have hrun : ∀ c ∈ takeTail (· == '\n') before, c = '\n' := fun c hc => by
    simpa using List.mem_takeWhile_imp (List.mem_reverse.mp hc)
  obtain ⟨left, right, rfl⟩ := List.append_of_mem he
  generalize takeTail (· == '\n') before = newlines at hsplit hrun
  have hcount : 1 ≤ left.count '\n' + right.count '\n' := by
    have hpos := List.count_pos_iff.mpr hnewline
    rwa [List.count_append, List.count_cons_of_ne (ne_newline_of_isSpaceOrTab hblank)] at hpos
  obtain ⟨kept, hkept⟩ := exists_capNewlines_append 0 (right ++ ['\n']) after
  have hcapped : capNewlines 0 (before ++ '\n' :: (left ++ e :: right ++ '\n' :: after)) =
      (capNewlines 0 front ++ [d]) ++ ((capNewlines 0 (newlines ++ '\n' :: left) ++
        e :: capNewlines 0 (right ++ ['\n'])) ++ capNewlines kept after) := by
    have htext : before ++ '\n' :: (left ++ e :: right ++ '\n' :: after) =
        front ++ d :: ((newlines ++ '\n' :: left) ++ e :: (right ++ ['\n'] ++ after)) := by
      rw [hsplit]
      simp
    rw [htext, capNewlines_append_cons (by simpa using hd),
      capNewlines_append_cons (ne_newline_of_isSpaceOrTab hblank), hkept]
    simp
  refine ⟨_, _, _, hcapped, fun c hc => ?_, ?_, ?_, ?_⟩
  · simp only [List.mem_append, List.mem_cons] at hc
    have hsub {kept : Nat} {xs : List Char} (hx : c ∈ capNewlines kept xs) : c ∈ xs :=
      (sublist_capNewlines kept xs).subset hx
    rcases hc with hc | rfl | hc
    · rcases List.mem_append.mp (hsub hc) with hc | hc
      · rw [hrun c hc]
        rfl
      · rcases List.mem_cons.mp hc with rfl | hc
        · rfl
        · exact hgap c (List.mem_append_left _ hc)
    · exact isFlowSpace_of_isSpaceOrTab hblank
    · rcases List.mem_append.mp (hsub hc) with hc | hc
      · exact hgap c (List.mem_append_right _ (List.mem_cons_of_mem e hc))
      · rw [List.mem_singleton.mp hc]
        rfl
  · have hleft := le_count_capNewlines 0 (newlines ++ '\n' :: left)
    have hright := le_count_capNewlines 0 (right ++ ['\n'])
    rw [List.count_append, List.count_cons_self] at hleft
    rw [List.count_append, List.count_singleton_self] at hright
    rw [List.count_append, List.count_cons_of_ne (ne_newline_of_isSpaceOrTab hblank)]
    omega
  · have hnone : ink newlines = [] := ink_eq_nil fun c hc => by
      rw [hrun c hc]
      exact isWhite_newline
    rw [hsplit, ← List.singleton_append, ← List.append_assoc, ink_append, hnone,
      List.append_nil] at hbefore
    rwa [ink_append, ink_capNewlines, ← ink_append]
  · rwa [ink_capNewlines]

theorem Wide.squeeze (h : Wide cs) : Wide (squeeze false cs) := by
  obtain ⟨before, gap, after, rfl, hgap, hcount, hbefore, hafter⟩ := h
  obtain ⟨inRun, hrest⟩ := exists_squeeze_append false before (gap ++ after)
  obtain ⟨inRun', hafter'⟩ := exists_squeeze_append inRun gap after
  refine ⟨_, _, _, hrest.trans (congrArg _ hafter'), fun c hc => ?_, ?_, ?_, ?_⟩
  · rcases (blanked_squeeze inRun gap).mem hc with hc | rfl
    · exact hgap c hc
    · rfl
  · rwa [← (blanked_squeeze inRun gap).count_newline]
  · rwa [ink_squeeze]
  · rwa [ink_squeeze]

theorem Wide.triple (h : Wide cs) : Triple (trimChars (dropIndents false cs)) := by
  obtain ⟨before, gap, after, rfl, hgap, hcount, hbefore, hafter⟩ := h
  have htwo : 2 ≤ gap.count '\n' := by omega
  obtain ⟨left, middle, right, rfl, hleft, hright⟩ := exists_first_last htwo
  have hmiddle : 1 ≤ middle.count '\n' := by
    simp only [List.count_append, List.count_cons_self, List.count_eq_zero_of_not_mem hleft,
      List.count_eq_zero_of_not_mem hright] at hcount
    omega
  obtain ⟨out, hout, hdrop⟩ := exists_dropIndents_append false (before ++ left)
    (middle ++ '\n' :: (right ++ after))
  have hlaid : dropIndents false (before ++ (left ++ '\n' :: (middle ++ '\n' :: right) ++ after)) =
      out ++ List.replicate (middle.count '\n' + 2) '\n' ++ dropIndents true (right ++ after) := by
    have htext : before ++ (left ++ '\n' :: (middle ++ '\n' :: right) ++ after) =
        before ++ left ++ '\n' :: (middle ++ '\n' :: (right ++ after)) := by simp
    have hinner : ∀ c ∈ middle, isFlowSpace c = true := fun c hc => hgap c (by simp [hc])
    rw [htext, hdrop, dropIndents_gap hinner, List.replicate_succ, List.replicate_succ']
    simp
  have hpart : List.replicate (middle.count '\n' + 2) '\n' <:+:
      trimChars (out ++ List.replicate (middle.count '\n' + 2) '\n' ++
        dropIndents true (right ++ after)) := by
    refine isInfix_trimChars ?_ ?_
    · rw [← hout.ink_eq]
      exact ink_append_ne_nil_left hbefore left
    · rw [ink_dropIndents]
      exact ink_append_ne_nil_right hafter right
  have hthree : 3 ≤ middle.count '\n' + 2 := by omega
  have hstart : ['\n', '\n', '\n'] <+: List.replicate (middle.count '\n' + 2) '\n' :=
    List.prefix_replicate_iff.mpr ⟨hthree, rfl⟩
  rw [hlaid]
  exact hstart.isInfix.trans hpart

end Wide

section Triple

/-- Three newlines that are left by trimming stand between ink. -/
theorem exists_of_triple_trimChars (h : Triple (trimChars cs)) : ∃ before after,
    cs = before ++ '\n' :: '\n' :: '\n' :: after ∧ ink before ≠ [] ∧ ink after ≠ [] := by
  obtain ⟨before, after, hout⟩ := h
  obtain ⟨front, back, hcs⟩ := trimChars_isInfix cs
  have hbefore : ink before ≠ [] := by
    cases before with
    | nil => exact absurd (head?_trimChars (c := '\n') (by rw [← hout]; rfl)) (by decide)
    | cons c before =>
      exact ink_ne_nil_of_mem List.mem_cons_self (head?_trimChars (by rw [← hout]; rfl))
  have hafter : ink after ≠ [] := by
    rcases List.eq_nil_or_concat' after with rfl | ⟨after, c, rfl⟩
    · exact absurd (getLast?_trimChars (c := '\n') (by rw [← hout]; simp)) (by decide)
    · have hlast : (trimChars cs).getLast? = some c := by
        rw [← hout, ← List.append_assoc, List.getLast?_concat]
      exact ink_ne_nil_of_mem (by simp) (getLast?_trimChars hlast)
  refine ⟨front ++ before, after ++ back, ?_, ink_append_ne_nil_right hbefore front,
    ink_append_ne_nil_left hafter back⟩
  rw [← hcs, ← hout]
  simp

/-- What stood among three newlines in a row was blank, and something did if there were not three in
a row before. -/
theorem Blanked.exists_gap (h : Blanked cs (ds ++ '\n' :: '\n' :: '\n' :: es)) (hcs : ¬Triple cs) :
    ∃ before gap after, cs = before ++ ('\n' :: (gap ++ ['\n']) ++ after) ∧
      (∀ c ∈ gap, isFlowSpace c = true) ∧ '\n' ∈ gap ∧ (∃ c ∈ gap, isSpaceOrTab c = true) ∧
      ink before = ink ds ∧ ink after = ink es := by
  obtain ⟨xs, ys, rfl, hxs, hys⟩ := h.exists_append
  obtain ⟨first, ys, rfl, hfirst, hys⟩ := hys.exists_newline
  obtain ⟨left, ys, rfl, hleft, hys⟩ := hys.exists_newline
  obtain ⟨right, ys, rfl, hright, hys⟩ := hys.exists_newline
  refine ⟨xs ++ first, left ++ '\n' :: right, ys, by simp, fun c hc => ?_, by simp, ?_, ?_, ?_⟩
  · simp only [List.mem_append, List.mem_cons] at hc
    rcases hc with hc | rfl | hc
    · exact isFlowSpace_of_isSpaceOrTab (hleft c hc)
    · rfl
    · exact isFlowSpace_of_isSpaceOrTab (hright c hc)
  · cases left with
    | cons c left => exact ⟨c, List.mem_cons_self, hleft c List.mem_cons_self⟩
    | nil =>
      cases right with
      | cons c right => exact ⟨c, by simp, hright c List.mem_cons_self⟩
      | nil => exact absurd ⟨xs ++ first, ys, by simp⟩ hcs
  · have hnone : ink first = [] :=
      ink_eq_nil fun c hc => isWhite_of_isSpaceOrTab (hfirst c hc)
    rw [ink_append, hnone, List.append_nil, hxs.ink_eq]
  · exact hys.ink_eq

theorem interrupted_of_triple (h : Triple (flowChars false cs)) : Interrupted cs := by
  obtain ⟨ds, es, hlaid, hds, hes⟩ := exists_of_triple_trimChars h
  rw [if_neg Bool.false_ne_true] at hlaid
  have hblanked : Blanked (capNewlines 0 cs) (ds ++ '\n' :: '\n' :: '\n' :: es) := by
    have htrans := (blanked_squeeze false (capNewlines 0 cs)).trans (blanked_dropIndents false _)
    rwa [hlaid] at htrans
  obtain ⟨before, gap, after, hcapped, hgap, hnewline, ⟨e, he, hblank⟩, hbefore, hafter⟩ :=
    hblanked.exists_gap (not_triple_capNewlines (Nat.zero_le 2) cs)
  obtain ⟨front, rest, kept, rfl, hfront, hrest⟩ := exists_append_of_capNewlines hcapped
  obtain ⟨whole, back, kept', rfl, hwhole, hback⟩ := exists_append_of_capNewlines hrest
  have hsub : ('\n' :: (gap ++ ['\n'])).Sublist whole := hwhole ▸ sublist_capNewlines kept whole
  obtain ⟨left, inner, right, rfl, hinner⟩ := exists_gap_of_sublist hsub
  refine ⟨front ++ left, inner, right ++ back, by simp, fun c hc => ?_, hinner.subset hnewline,
    ⟨e, hinner.subset he, hblank⟩, ink_append_ne_nil_left ?_ left,
    ink_append_ne_nil_right ?_ right⟩
  · have hmem : c ∈ left ++ '\n' :: (inner ++ '\n' :: right) := by simp [hc]
    rcases mem_or_newline_of_capNewlines kept hmem with rfl | hmem
    · rfl
    · rw [hwhole] at hmem
      simp only [List.mem_cons, List.mem_append, List.not_mem_nil, or_false] at hmem
      rcases hmem with rfl | hmem | rfl
      · rfl
      · exact hgap c hmem
      · rfl
  · rwa [← ink_capNewlines 0, hfront, hbefore]
  · rwa [← ink_capNewlines kept', hback, hafter]

theorem triple_flowChars_iff (cs : List Char) : Triple (flowChars false cs) ↔ Interrupted cs :=
  ⟨interrupted_of_triple, fun h => h.wide.squeeze.triple⟩

end Triple

section Again

/-- Somewhere in a gap with blanks a blank stands behind a newline and in front of flowing space. -/
theorem exists_blank_line (h : ∀ c ∈ cs, isFlowSpace c = true)
    (hblank : ∃ c ∈ cs, isSpaceOrTab c = true) : ∃ c d, isSpaceOrTab c = true ∧
      isFlowSpace d = true ∧ ['\n', c, d] <:+: '\n' :: (cs ++ ['\n']) := by
  induction cs with
  | nil =>
    obtain ⟨c, hc, -⟩ := hblank
    exact absurd hc List.not_mem_nil
  | cons c cs ih =>
    obtain ⟨hc, hrest⟩ := List.forall_mem_cons.mp h
    cases hb : isSpaceOrTab c with
    | true =>
      cases cs with
      | nil => exact ⟨c, '\n', hb, rfl, [], [], rfl⟩
      | cons d cs => exact ⟨c, d, hb, (List.forall_mem_cons.mp hrest).1, [], cs ++ ['\n'], rfl⟩
    | false =>
      obtain rfl := eq_newline_of_isFlowSpace hc hb
      obtain ⟨d, hd, hdb⟩ := hblank
      rcases List.mem_cons.mp hd with rfl | hd
      · exact absurd hdb (by decide)
      · obtain ⟨x, y, hx, hy, hpart⟩ := ih hrest ⟨d, hd, hdb⟩
        exact ⟨x, y, hx, hy, List.infix_cons hpart⟩

theorem Squeezed.eq_space (h : Squeezed cs) (hmem : c ∈ cs) (hc : isSpaceOrTab c = true) :
    c = ' ' := by
  obtain ⟨xs, ys, rfl⟩ := List.append_of_mem hmem
  exact ((h.of_isInfix (List.suffix_append xs (c :: ys)).isInfix).1 hc).1

/-- Text that is laid out is not interrupted: an indent is left in front of an item only. -/
theorem not_interrupted_flowChars (cs : List Char) : ¬Interrupted (flowChars false cs) := by
  rintro ⟨before, gap, after, hout, hgap, -, hblank, -, -⟩
  have hpart : '\n' :: (gap ++ ['\n']) <:+: flowChars false cs :=
    ⟨before, after, by rw [hout]; simp⟩
  obtain ⟨c, d, hc, hd, hline⟩ := exists_blank_line hgap hblank
  obtain rfl : c = ' ' :=
    (squeezed_flowChars cs).eq_space (hpart.subset (hline.subset (by simp))) hc
  have hitem := indents_flowChars cs d (hline.trans hpart)
  rw [isFlowSpace, isSpaceOrTab, Bool.or_eq_true, Bool.or_eq_true, beq_iff_eq, beq_iff_eq,
    beq_iff_eq] at hd
  rcases hd with (rfl | rfl) | rfl <;> exact absurd hitem (by decide)

theorem flowChars_flowChars_iff (cs : List Char) :
    flowChars false (flowChars false cs) = flowChars false cs ↔ ¬Triple (flowChars false cs) := by
  constructor
  · intro hsame htriple
    rw [← hsame] at htriple
    exact not_interrupted_flowChars cs (interrupted_of_triple htriple)
  · exact fun hthin => flowChars_eq_self (fun _ => head?_trimChars) (getLast?_flowChars false cs)
      (squeezed_flowChars cs) hthin (indents_flowChars cs)

end Again

/-- Text that is laid out has no tab, no two spaces in a row and no white space at either end. It
has three newlines in a row, and is not laid out as itself, exactly where blanks stand among three
newlines of one gap. Laid out twice every text is in normal form. -/
theorem flow_normal (s : String) :
    '\t' ∉ (flow false s).toList ∧ ¬[' ', ' '] <:+: (flow false s).toList ∧
      (∀ c ∈ (flow false s).toList.head?, isWhite c = false) ∧
      (∀ c ∈ (flow false s).toList.getLast?, isWhite c = false) ∧
      (Triple (flow false s).toList ↔ Interrupted s.toList) ∧
      (flow false (flow false s) = flow false s ↔ ¬Interrupted s.toList) ∧
      ¬Triple (flow false (flow false s)).toList ∧
      flow false (flow false (flow false s)) = flow false (flow false s) := by
  have hsqueezed := squeezed_flowChars s.toList
  have hsame (cs : List Char) : String.ofList (flowChars false (flowChars false cs)) =
      String.ofList (flowChars false cs) ↔ ¬Interrupted cs := by
    rw [String.ofList_inj, flowChars_flowChars_iff, triple_flowChars_iff]
  simp only [flow, String.toList_ofList]
  refine ⟨fun htab => absurd (hsqueezed.eq_space htab rfl) (by decide), fun hspaces => ?_,
    fun _ => head?_trimChars, getLast?_flowChars false s.toList, triple_flowChars_iff _, hsame _,
    fun htriple => ?_, (hsame _).mpr (not_interrupted_flowChars _)⟩
  · have halone := ((hsqueezed.of_isInfix hspaces).1 rfl).2 ' ' rfl
    exact absurd halone (by decide)
  · exact not_interrupted_flowChars _ (interrupted_of_triple htriple)

/-- A line with a space on it keeps the newlines around it from being cut, and goes. -/
theorem flow_of_blank_line : flow false "a\n\n \nb" = "a\n\n\nb" ∧
    Triple (flow false "a\n\n \nb").toList ∧ flow false "a\n\n\nb" = "a\n\nb" := by
  decide +kernel

end HtmlMarkdown.Text
