import HtmlMarkdown.Text.Flow
import Mathlib.Data.List.SplitBy
import Mathlib.Data.List.TakeWhile

/-!
# Text folded inside a paragraph

Inside a paragraph the layout of text is plain folding: every run of spaces, tabs and newlines, as
far as it goes, becomes one space, and the result is trimmed. None of the passes over the text
shows in that. Each of them shortens runs, and leaves out nothing but what stands behind a part of
the run that stays.
-/

namespace HtmlMarkdown.Text

def isFlowSpace (c : Char) : Bool := isSpaceOrTab c || c == '\n'

/-- The text with every maximal run of flowing space made one space. -/
def foldRuns (cs : List Char) : List Char :=
  (cs.splitBy fun c d => isFlowSpace c && isFlowSpace d).flatMap fun run =>
    if run.all isFlowSpace then [' '] else run

variable {c : Char} {cs : List Char}

theorem foldRuns_cons_of_not (h : isFlowSpace c = false) (cs : List Char) :
    foldRuns (c :: cs) = c :: foldRuns cs := by
  have hsplit := List.splitBy_append (r := fun c d => isFlowSpace c && isFlowSpace d) (l := [c])
    (m := cs) (by simp [h])
  rw [List.singleton_append] at hsplit
  rw [foldRuns, hsplit, List.flatMap_append]
  simp [List.splitBy, List.splitBy.loop, h, foldRuns]

/-- A run is as long as flowing space goes on. -/
theorem foldRuns_cons (h : isFlowSpace c = true) (cs : List Char) :
    foldRuns (c :: cs) = ' ' :: foldRuns (cs.dropWhile isFlowSpace) := by
  have hall : ∀ d ∈ c :: cs.takeWhile isFlowSpace, isFlowSpace d = true :=
    List.forall_mem_cons.mpr ⟨h, fun d hd => List.mem_takeWhile_imp hd⟩
  have hrun : (c :: cs.takeWhile isFlowSpace).splitBy (fun c d => isFlowSpace c && isFlowSpace d) =
      [c :: cs.takeWhile isFlowSpace] := by
    refine List.splitBy_of_isChain (List.cons_ne_nil _ _) (List.Pairwise.isChain ?_)
    exact List.pairwise_of_forall_mem_list fun d hd e he => by simp [hall d hd, hall e he]
  have hsplit := List.splitBy_append (r := fun c d => isFlowSpace c && isFlowSpace d)
    (l := c :: cs.takeWhile isFlowSpace) (m := cs.dropWhile isFlowSpace) fun x _ y hy => by
      have hnot := List.head?_dropWhile_not isFlowSpace cs
      rw [Option.mem_def.mp hy] at hnot
      simp [hnot]
  rw [List.cons_append, List.takeWhile_append_dropWhile, hrun] at hsplit
  rw [foldRuns, hsplit, List.flatMap_append, List.flatMap_singleton,
    if_pos (List.all_eq_true.mpr hall)]
  rfl

section Unfolded

theorem isSpaceOrTab_unfoldNewline (c : Char) :
    isSpaceOrTab (unfoldNewline c) = isFlowSpace c := by
  unfold unfoldNewline isFlowSpace
  split_ifs with hc
  · subst hc
    rfl
  · rw [beq_eq_false_iff_ne.mpr hc, Bool.or_false]

theorem squeeze_unfolded_cons (h : isFlowSpace c = true) (inRun : Bool) (cs : List Char) :
    squeeze inRun ((c :: cs).map unfoldNewline) =
      (if inRun then [] else [' ']) ++ squeeze true (cs.map unfoldNewline) := by
  rw [List.map_cons, squeeze, if_pos ((isSpaceOrTab_unfoldNewline c).trans h)]
  cases inRun <;> rfl

theorem squeeze_unfolded_cons_of_not (h : isFlowSpace c = false) (inRun : Bool)
    (cs : List Char) : squeeze inRun ((c :: cs).map unfoldNewline) =
      c :: squeeze false (cs.map unfoldNewline) := by
  have hc : c ≠ '\n' := by
    rintro rfl
    exact absurd h (by decide)
  rw [List.map_cons, squeeze, isSpaceOrTab_unfoldNewline, h, if_neg Bool.false_ne_true,
    unfoldNewline, if_neg hc]

/-- Behind a character the pass is in a run exactly if the character is flowing space. -/
theorem squeeze_unfolded_congr {ds : List Char}
    (h : squeeze (isFlowSpace c) (ds.map unfoldNewline) =
      squeeze (isFlowSpace c) (cs.map unfoldNewline)) (inRun : Bool) :
    squeeze inRun ((c :: ds).map unfoldNewline) = squeeze inRun ((c :: cs).map unfoldNewline) := by
  cases hc : isFlowSpace c with
  | true =>
    rw [hc] at h
    rw [squeeze_unfolded_cons hc, squeeze_unfolded_cons hc, h]
  | false =>
    rw [hc] at h
    rw [squeeze_unfolded_cons_of_not hc, squeeze_unfolded_cons_of_not hc, h]

theorem squeeze_unfolded_dropWhile (cs : List Char) : squeeze true (cs.map unfoldNewline) =
    squeeze false ((cs.dropWhile isFlowSpace).map unfoldNewline) := by
  induction cs with
  | nil => rfl
  | cons c cs ih =>
    cases hc : isFlowSpace c with
    | true =>
      rw [squeeze_unfolded_cons hc, List.dropWhile_cons_of_pos hc, ← ih]
      rfl
    | false =>
      rw [List.dropWhile_cons_of_neg (by simp [hc]), squeeze_unfolded_cons_of_not hc,
        squeeze_unfolded_cons_of_not hc]

theorem squeeze_unfolded (cs : List Char) : squeeze false (cs.map unfoldNewline) = foldRuns cs := by
  generalize hn : cs.length = n
  induction n using Nat.strongRecOn generalizing cs with
  | ind n ih =>
    cases cs with
    | nil => rfl
    | cons c cs =>
      rw [List.length_cons] at hn
      cases hc : isFlowSpace c with
      | true =>
        have hlength := (List.dropWhile_suffix isFlowSpace (l := cs)).length_le
        rw [squeeze_unfolded_cons hc, squeeze_unfolded_dropWhile, foldRuns_cons hc,
          ih _ (by omega) _ rfl]
        rfl
      | false =>
        rw [squeeze_unfolded_cons_of_not hc, foldRuns_cons_of_not hc, ih _ (by omega) _ rfl]

end Unfolded

section Passes

theorem isFlowSpace_of_isSpaceOrTab (h : isSpaceOrTab c = true) : isFlowSpace c = true := by
  rw [isFlowSpace, h, Bool.true_or]

/-- A newline is left out behind two others only. -/
theorem squeeze_capNewlines {kept : Nat} {inRun : Bool} (h : 0 < kept → inRun = true)
    (cs : List Char) : squeeze inRun ((capNewlines kept cs).map unfoldNewline) =
      squeeze inRun (cs.map unfoldNewline) := by
  have hnewline : isFlowSpace '\n' = true := rfl
  induction cs generalizing kept inRun with
  | nil => rfl
  | cons c cs ih =>
    rw [capNewlines]
    split_ifs with hc hkept
    · rw [hc, squeeze_unfolded_cons hnewline, squeeze_unfolded_cons hnewline, ih fun _ => rfl]
    · obtain rfl := h (by omega)
      rw [hc, squeeze_unfolded_cons hnewline, ih h]
      rfl
    · exact squeeze_unfolded_congr (ih fun hzero => absurd hzero (Nat.lt_irrefl 0)) inRun

theorem squeeze_squeezed {inBlanks inRun : Bool} (h : inBlanks = true → inRun = true)
    (cs : List Char) : squeeze inRun ((squeeze inBlanks cs).map unfoldNewline) =
      squeeze inRun (cs.map unfoldNewline) := by
  have hspace : isFlowSpace ' ' = true := rfl
  induction cs generalizing inBlanks inRun with
  | nil => rfl
  | cons c cs ih =>
    rw [squeeze]
    split_ifs with hc hin
    · rw [squeeze_unfolded_cons (isFlowSpace_of_isSpaceOrTab hc), h hin, ih fun _ => rfl]
      rfl
    · rw [squeeze_unfolded_cons hspace, squeeze_unfolded_cons (isFlowSpace_of_isSpaceOrTab hc),
        ih fun _ => rfl]
    · exact squeeze_unfolded_congr (ih fun hin => absurd hin Bool.false_ne_true) inRun

/-- An indent stands behind its newline. -/
theorem squeeze_dropIndents {inIndent inRun : Bool} (h : inIndent = true → inRun = true)
    (cs : List Char) : squeeze inRun ((dropIndents inIndent cs).map unfoldNewline) =
      squeeze inRun (cs.map unfoldNewline) := by
  induction cs generalizing inIndent inRun with
  | nil => rfl
  | cons c cs ih =>
    rw [dropIndents]
    split_ifs with hc hitem
    · have hf := isFlowSpace_of_isSpaceOrTab (Bool.and_eq_true_iff.mp hc).2
      rw [squeeze_unfolded_cons hf, squeeze_unfolded_cons hf, ih fun _ => rfl]
    · have hf := isFlowSpace_of_isSpaceOrTab (Bool.and_eq_true_iff.mp hc).2
      rw [squeeze_unfolded_cons hf, h (Bool.and_eq_true_iff.mp hc).1, ih fun _ => rfl]
      rfl
    · refine squeeze_unfolded_congr (ih fun hnewline => ?_) inRun
      rw [isFlowSpace, hnewline, Bool.or_true]

end Passes

/-- Inside a paragraph text is folded: every maximal run of spaces, tabs and newlines becomes one
space, and the white space at both ends goes. -/
theorem flow_in_paragraph (s : String) :
    flow true s = String.ofList (trimChars (foldRuns s.toList)) := by
  have hlaid : squeeze false
      ((dropIndents false (squeeze false (capNewlines 0 s.toList))).map unfoldNewline) =
        foldRuns s.toList := by
    rw [squeeze_dropIndents id, squeeze_squeezed id,
      squeeze_capNewlines fun hzero => absurd hzero (Nat.lt_irrefl 0), squeeze_unfolded]
  rw [flow, flowChars, if_pos rfl, hlaid]

end HtmlMarkdown.Text
