import HtmlMarkdown.Proofs.Crowding
import HtmlMarkdown.Proofs.Flowing
import HtmlMarkdown.Proofs.Ink
import Mathlib.Data.List.Chain

/-!
# Smooth text

Flowing text is laid out once. Where no line ends in white space, as in a text whose lines are
trimmed, what comes out is smooth: single spaces, single blank lines, no indent but that of an item,
and no white space at either end. A smooth text is laid out as itself, so laying out twice is laying
out once.
-/

namespace HtmlMarkdown.Text

/-- No line ends in white space, except perhaps the last one. -/
def Tight (cs : List Char) : Prop := cs.IsChain fun c d => d = '\n' → isWhite c = true → c = '\n'

instance (cs : List Char) : Decidable (Tight cs) := inferInstanceAs (Decidable (List.IsChain _ cs))

/-- The text has nothing that laying it out would take away. -/
structure Smooth (cs : List Char) : Prop where
  first : ∀ c ∈ cs.head?, isWhite c = false
  last : ∀ c ∈ cs.getLast?, isWhite c = false
  unix : '\r' ∉ cs
  tight : Tight cs
  squeezed : Squeezed cs
  thin : ¬Triple cs
  indents : ∀ c, ['\n', ' ', c] <:+: cs → opensItem c = true

inductive Blanked : List Char → List Char → Prop
  | nil : Blanked [] []
  | keep (c : Char) {cs ds : List Char} (h : Blanked cs ds) : Blanked (c :: cs) (c :: ds)
  | drop {c : Char} {cs ds : List Char} (hc : isSpaceOrTab c = true) (h : Blanked cs ds) :
      Blanked (c :: cs) ds
  | space {c : Char} {cs ds : List Char} (hc : isSpaceOrTab c = true) (h : Blanked cs ds) :
      Blanked (c :: cs) (' ' :: ds)

variable {cs ds : List Char} {c : Char}

theorem ne_newline_of_isSpaceOrTab (h : isSpaceOrTab c = true) : c ≠ '\n' := by
  rintro rfl
  exact absurd h (by decide)

theorem Tight.tail (h : Tight (c :: cs)) : Tight cs := List.IsChain.tail h

theorem Tight.of_isInfix (h : Tight ds) (hcs : cs <:+: ds) : Tight cs := List.IsChain.infix h hcs

/-- No newline stands behind a blank. -/
theorem Tight.head?_ne (h : Tight (c :: cs)) (hc : isSpaceOrTab c = true) :
    cs.head? ≠ some '\n' := fun hhead =>
  ne_newline_of_isSpaceOrTab hc
    ((List.isChain_cons.mp h).1 '\n' hhead rfl (isWhite_of_isSpaceOrTab hc))

/-- What stands behind a character may change, if no newline comes to stand there. -/
theorem Tight.cons_of_head? (h : Tight (c :: cs)) (hds : Tight ds)
    (hhead : ds.head? = some '\n' → cs.head? = some '\n') : Tight (c :: ds) := by
  refine List.isChain_cons.mpr ⟨?_, hds⟩
  rintro d hd rfl
  exact (List.isChain_cons.mp h).1 '\n' (hhead hd) rfl

namespace Blanked

theorem mem (h : Blanked cs ds) (hc : c ∈ ds) : c ∈ cs ∨ c = ' ' := by
  induction h with
  | nil => exact .inl hc
  | keep d _ ih =>
    rcases List.mem_cons.mp hc with rfl | hc
    · exact .inl List.mem_cons_self
    · exact (ih hc).imp_left (List.mem_cons_of_mem d)
  | drop _ _ ih => exact (ih hc).imp_left (List.mem_cons_of_mem _)
  | space _ _ ih =>
    rcases List.mem_cons.mp hc with rfl | hc
    · exact .inr rfl
    · exact (ih hc).imp_left (List.mem_cons_of_mem _)

/-- The newlines in front stand there already. -/
theorem newlines_isPrefix (h : Blanked cs ds) (hcs : Tight cs) (n : Nat)
    (hds : List.replicate n '\n' <+: ds) : List.replicate n '\n' <+: cs := by
  induction h generalizing n with
  | nil => exact hds
  | keep c _ ih =>
    cases n with
    | zero => exact List.nil_prefix
    | succ n =>
      rw [List.replicate_succ, List.cons_prefix_cons] at hds ⊢
      exact ⟨hds.1, ih hcs.tail n hds.2⟩
  | drop hc _ ih =>
    cases n with
    | zero => exact List.nil_prefix
    | succ n =>
      -- a newline behind the dropped blank would end its line in white space
      have hone := ih hcs.tail 1 ((List.prefix_append _ _).trans hds)
      obtain ⟨rest, hrest⟩ := hone
      exact absurd (by rw [← hrest]; rfl) (hcs.head?_ne hc)
  | space _ _ _ =>
    cases n with
    | zero => exact List.nil_prefix
    | succ n =>
      rw [List.replicate_succ, List.cons_prefix_cons] at hds
      exact absurd hds.1 (by decide)

theorem head? (h : Blanked cs ds) (hcs : Tight cs) (hds : ds.head? = some '\n') :
    cs.head? = some '\n' := by
  obtain ⟨es, rfl⟩ := List.head?_eq_some_iff.mp hds
  obtain ⟨rest, rfl⟩ := h.newlines_isPrefix hcs 1 ⟨es, rfl⟩
  rfl

theorem tight (h : Blanked cs ds) (hcs : Tight cs) : Tight ds := by
  induction h with
  | nil => exact hcs
  | keep c h ih => exact hcs.cons_of_head? (ih hcs.tail) (h.head? hcs.tail)
  | drop _ _ ih => exact ih hcs.tail
  | space hc h ih =>
    refine List.isChain_cons.mpr ⟨?_, ih hcs.tail⟩
    rintro d hd rfl
    exact absurd (h.head? hcs.tail hd) (hcs.head?_ne hc)

theorem triple (h : Blanked cs ds) (hcs : Tight cs) (hds : Triple ds) : Triple cs := by
  induction h with
  | nil => exact hds
  | keep c h ih =>
    unfold Triple at hds ih ⊢
    rw [List.infix_cons_iff] at hds ⊢
    exact hds.imp (Blanked.keep c h |>.newlines_isPrefix hcs 3) (ih hcs.tail)
  | drop _ _ ih => exact List.infix_cons (ih hcs.tail hds)
  | space hc h ih =>
    unfold Triple at hds ih ⊢
    rw [List.infix_cons_iff] at hds ⊢
    exact hds.imp (Blanked.space hc h |>.newlines_isPrefix hcs 3) (ih hcs.tail)

end Blanked

theorem blanked_squeeze (inRun : Bool) (cs : List Char) : Blanked cs (squeeze inRun cs) := by
  induction cs generalizing inRun with
  | nil => exact .nil
  | cons c cs ih =>
    rw [squeeze]
    split_ifs with hc
    · exact .drop hc (ih true)
    · exact .space hc (ih true)
    · exact .keep c (ih false)

theorem blanked_dropIndents (inIndent : Bool) (cs : List Char) :
    Blanked cs (dropIndents inIndent cs) := by
  induction cs generalizing inIndent with
  | nil => exact .nil
  | cons c cs ih =>
    rw [dropIndents]
    split_ifs with hc
    · exact .keep c (ih true)
    · exact .drop (Bool.and_eq_true_iff.mp hc).2 (ih true)
    · exact .keep c (ih _)

section Newlines

theorem sublist_capNewlines (kept : Nat) (cs : List Char) : (capNewlines kept cs).Sublist cs := by
  induction cs generalizing kept with
  | nil => exact .slnil
  | cons c cs ih =>
    rw [capNewlines]
    split_ifs
    · exact (ih _).cons_cons c
    · exact (ih _).cons c
    · exact (ih _).cons_cons c

theorem head?_capNewlines (kept : Nat) (h : (capNewlines kept cs).head? = some '\n') :
    cs.head? = some '\n' := by
  cases cs with
  | nil => exact h
  | cons c cs =>
    by_cases hc : c = '\n'
    · rw [hc]
      rfl
    · rwa [capNewlines, if_neg hc] at h

theorem Tight.capNewlines (h : Tight cs) (kept : Nat) : Tight (capNewlines kept cs) := by
  induction cs generalizing kept with
  | nil => exact h
  | cons c cs ih =>
    rw [Text.capNewlines]
    split_ifs
    · exact h.cons_of_head? (ih h.tail _) (head?_capNewlines _)
    · exact ih h.tail _
    · exact h.cons_of_head? (ih h.tail _) (head?_capNewlines _)

/-- Two newlines and text behind them are no three newlines. -/
theorem triple_replicate_cons {n : Nat} (hn : n ≤ 2) (hc : c ≠ '\n') (cs : List Char) :
    Triple (List.replicate n '\n' ++ c :: cs) ↔ Triple cs := by
  have hne : '\n' ≠ c := Ne.symm hc
  unfold Triple
  obtain rfl | rfl | rfl : n = 0 ∨ n = 1 ∨ n = 2 := by omega
  all_goals simp [List.infix_cons_iff, List.cons_prefix_cons, List.replicate_succ, hne]

theorem not_triple_capNewlines {kept : Nat} (h : kept ≤ 2) (cs : List Char) :
    ¬Triple (List.replicate kept '\n' ++ capNewlines kept cs) := by
  induction cs generalizing kept with
  | nil =>
    intro htriple
    have hlength := htriple.length_le
    simp [capNewlines] at hlength
    omega
  | cons c cs ih =>
    rw [capNewlines]
    split_ifs with hc hkept
    · rw [hc, ← List.singleton_append, ← List.append_assoc, ← List.replicate_succ']
      exact ih hkept
    · exact ih h
    · rw [triple_replicate_cons h hc]
      exact ih (Nat.zero_le 2)

theorem capNewlines_of_not_triple {kept : Nat} (hkept : kept ≤ 2)
    (h : ¬Triple (List.replicate kept '\n' ++ cs)) : capNewlines kept cs = cs := by
  induction cs generalizing kept with
  | nil => rfl
  | cons c cs ih =>
    rw [capNewlines]
    split_ifs with hc hlt
    · rw [hc, ← List.singleton_append, ← List.append_assoc, ← List.replicate_succ'] at h
      rw [ih hlt h]
    · obtain rfl : kept = 2 := by omega
      exact absurd ⟨[], cs, by rw [hc]; rfl⟩ h
    · rw [triple_replicate_cons hkept hc] at h
      rw [ih (Nat.zero_le 2) h]

end Newlines

section Blanks

theorem squeeze_of_squeezed (h : Squeezed cs) {inRun : Bool}
    (hrun : inRun = true → ∀ d ∈ cs.head?, isSpaceOrTab d = false) : squeeze inRun cs = cs := by
  induction cs generalizing inRun with
  | nil => rfl
  | cons c cs ih =>
    rw [squeeze]
    split_ifs with hc hin
    · rw [hrun hin c rfl] at hc
      cases hc
    · obtain ⟨rfl, hnext⟩ := h.1 hc
      rw [ih h.2 fun _ => hnext]
    · rw [ih h.2 fun hf => (Bool.false_ne_true hf).elim]

theorem Squeezed.dropIndents (h : Squeezed cs) (inIndent : Bool) :
    Squeezed (dropIndents inIndent cs) := by
  induction cs generalizing inIndent with
  | nil => trivial
  | cons c cs ih =>
    have hkept (b : Bool) : Squeezed (c :: Text.dropIndents b cs) := by
      refine ⟨fun hc => ⟨(h.1 hc).1, ?_⟩, ih h.2 b⟩
      rw [head?_dropIndents (h.1 hc).2]
      exact (h.1 hc).2
    rw [Text.dropIndents]
    split_ifs
    · exact hkept true
    · exact ih h.2 true
    · exact hkept _

/-- Behind a newline, and behind the indent that the pass is in, a space stays in front of an item
only. -/
theorem indents_dropIndents (h : Squeezed cs) (inIndent : Bool) :
    (∀ d, ['\n', ' ', d] <:+: dropIndents inIndent cs → opensItem d = true) ∧
      (inIndent = true → ∀ d, [' ', d] <+: dropIndents inIndent cs → opensItem d = true) := by
  induction cs generalizing inIndent with
  | nil => simp [dropIndents]
  | cons c cs ih =>
    rw [dropIndents]
    split_ifs with hblank hitem
    · obtain ⟨rfl, hnext⟩ := h.1 (Bool.and_eq_true_iff.mp hblank).2
      refine ⟨fun d hd => ?_, fun _ d hd => ?_⟩
      · rw [List.infix_cons_iff, List.cons_prefix_cons] at hd
        exact hd.elim (fun hd => absurd hd.1 (by decide)) ((ih h.2 true).1 d)
      · obtain ⟨rest, hrest⟩ := (List.cons_prefix_cons.mp hd).2
        have hhead : cs.head? = some d := by
          rw [← head?_dropIndents hnext true, ← hrest]
          rfl
        obtain ⟨es, rfl⟩ := List.head?_eq_some_iff.mp hhead
        rw [List.dropWhile_cons_of_neg (by simp [hnext d rfl])] at hitem
        exact hitem
    · exact ⟨(ih h.2 true).1, fun _ => (ih h.2 true).2 rfl⟩
    · refine ⟨fun d hd => ?_, fun hin d hd => ?_⟩
      · rw [List.infix_cons_iff, List.cons_prefix_cons] at hd
        rcases hd with ⟨rfl, hd⟩ | hd
        · exact (ih h.2 true).2 rfl d hd
        · exact (ih h.2 _).1 d hd
      · rw [hin, ← (List.cons_prefix_cons.mp hd).1] at hblank
        exact absurd rfl hblank

theorem dropIndents_of_head? (h : ∀ d ∈ cs.head?, isSpaceOrTab d = false) (inIndent : Bool) :
    dropIndents inIndent cs = dropIndents false cs := by
  cases cs with
  | nil => rfl
  | cons c cs =>
    have hc : isSpaceOrTab c = false := h c rfl
    simp [dropIndents, hc]

theorem dropIndents_of_indents (h : Squeezed cs) (hlast : ∀ c ∈ cs.getLast?, isWhite c = false)
    (hitems : ∀ d, ['\n', ' ', d] <:+: cs → opensItem d = true) {inIndent : Bool}
    (hfirst : inIndent = true → ∀ d, [' ', d] <+: cs → opensItem d = true) :
    dropIndents inIndent cs = cs := by
  induction cs generalizing inIndent with
  | nil => rfl
  | cons c cs ih =>
    have hlast' : ∀ d ∈ cs.getLast?, isWhite d = false := fun d hd =>
      hlast d (by rw [List.getLast?_cons, Option.mem_def.mp hd]; rfl)
    have hitems' : ∀ d, ['\n', ' ', d] <:+: cs → opensItem d = true := fun d hd =>
      hitems d (List.infix_cons hd)
    have hrest : dropIndents false cs = cs := ih h.2 hlast' hitems' fun hf => by cases hf
    rw [dropIndents]
    by_cases hc : isSpaceOrTab c = true
    · obtain ⟨rfl, hnext⟩ := h.1 hc
      by_cases hin : inIndent = true
      · cases cs with
        | nil => exact absurd (hlast ' ' rfl) (by decide)
        | cons d ds =>
          have hd : opensItem d = true := hfirst hin d ⟨ds, rfl⟩
          rw [if_pos (by simp [hin, hc]), List.dropWhile_cons_of_neg (by simp [hnext d rfl]),
            if_pos (by simpa using hd), dropIndents_of_head? hnext, hrest]
      · rw [if_neg (by simp [hin]), dropIndents_of_head? hnext, hrest]
    · rw [if_neg (by simp [hc])]
      by_cases hnewline : c = '\n'
      · subst hnewline
        have hbehind : dropIndents true cs = cs := ih h.2 hlast' hitems' fun _ d hd =>
          hitems d (List.prefix_cons_inj '\n' |>.mpr hd).isInfix
        exact congrArg _ hbehind
      · rw [beq_eq_false_iff_ne.mpr hnewline, hrest]

end Blanks

theorem trimChars_isInfix (cs : List Char) : trimChars cs <:+: cs := by
  have hsplit := dropTail_append_takeTail isWhite (cs.dropWhile isWhite)
  exact (List.IsPrefix.isInfix ⟨_, hsplit⟩).trans (List.dropWhile_suffix _).isInfix

theorem dropWhile_of_head? {p : Char → Bool} (h : ∀ c ∈ cs.head?, p c = false) :
    cs.dropWhile p = cs := by
  cases cs with
  | nil => rfl
  | cons c cs => exact List.dropWhile_cons_of_neg (by simp [h c rfl])

theorem dropTail_of_getLast? {p : Char → Bool} (h : ∀ c ∈ cs.getLast?, p c = false) :
    dropTail p cs = cs := by
  rw [dropTail, dropWhile_of_head? (by rwa [List.head?_reverse]), List.reverse_reverse]

theorem Squeezed.of_isInfix (h : Squeezed ds) (hcs : cs <:+: ds) : Squeezed cs := by
  obtain ⟨xs, ys, rfl⟩ := hcs
  induction xs with
  | nil =>
    induction cs with
    | nil => trivial
    | cons c cs ih =>
      refine ⟨fun hc => ⟨(h.1 hc).1, fun d hd => (h.1 hc).2 d ?_⟩, ih h.2⟩
      change d ∈ (cs ++ ys).head?
      rw [List.head?_append, Option.mem_def.mp hd]
      rfl
  | cons x xs ih => exact ih h.2

theorem mem_flowChars (h : c ∈ flowChars false cs) : c ∈ cs ∨ c = ' ' := by
  have hdrop := blanked_dropIndents false (squeeze false (capNewlines 0 cs))
  rcases hdrop.mem ((trimChars_isInfix _).subset h) with h | hspace
  · exact ((blanked_squeeze false _).mem h).imp_left fun h => (sublist_capNewlines 0 cs).subset h
  · exact .inr hspace

theorem getLast?_flowChars (inParagraph : Bool) (cs : List Char) :
    ∀ c ∈ (flowChars inParagraph cs).getLast?, isWhite c = false := fun _ => getLast?_trimChars

theorem squeezed_flowChars (cs : List Char) : Squeezed (flowChars false cs) :=
  ((squeezed_squeeze false _).1.dropIndents false).of_isInfix (trimChars_isInfix _)

theorem indents_flowChars (cs : List Char) (d : Char)
    (hd : ['\n', ' ', d] <:+: flowChars false cs) : opensItem d = true :=
  (indents_dropIndents (squeezed_squeeze false _).1 false).1 d (hd.trans (trimChars_isInfix _))

/-- Text whose lines are trimmed is laid out smooth. -/
theorem smooth_flowChars (h : Tight cs) (hunix : '\r' ∉ cs) : Smooth (flowChars false cs) := by
  have hcapped : Tight (capNewlines 0 cs) := h.capNewlines 0
  have hsqueeze := blanked_squeeze false (capNewlines 0 cs)
  have hdrop := blanked_dropIndents false (squeeze false (capNewlines 0 cs))
  have hinfix := trimChars_isInfix (dropIndents false (squeeze false (capNewlines 0 cs)))
  refine
    { first := fun c => head?_trimChars
      last := getLast?_flowChars false cs
      unix := fun hmem => (mem_flowChars hmem).elim hunix (by decide)
      tight := (hdrop.tight (hsqueeze.tight hcapped)).of_isInfix hinfix
      squeezed := squeezed_flowChars cs
      thin := fun htriple => ?_
      indents := indents_flowChars cs }
  have hthin := hsqueeze.triple hcapped (hdrop.triple (hsqueeze.tight hcapped)
    (htriple.trans hinfix))
  exact not_triple_capNewlines (Nat.zero_le 2) cs hthin

/-- Text that no pass changes is laid out as it is. -/
theorem flowChars_eq_self (hfirst : ∀ c ∈ cs.head?, isWhite c = false)
    (hlast : ∀ c ∈ cs.getLast?, isWhite c = false) (hsqueezed : Squeezed cs) (hthin : ¬Triple cs)
    (hindents : ∀ c, ['\n', ' ', c] <:+: cs → opensItem c = true) :
    flowChars false cs = cs := by
  have hcap : capNewlines 0 cs = cs := capNewlines_of_not_triple (Nat.zero_le 2) hthin
  have hsqueeze : squeeze false cs = cs := squeeze_of_squeezed hsqueezed fun hf => by cases hf
  have hdrop : dropIndents false cs = cs :=
    dropIndents_of_indents hsqueezed hlast hindents fun hf => by cases hf
  have htrim : trimChars cs = cs := by
    rw [trimChars, dropWhile_of_head? hfirst, dropTail_of_getLast? hlast]
  rw [Text.flowChars, hcap, hsqueeze, hdrop]
  exact htrim

/-- Smooth text is laid out as it is. -/
theorem Smooth.flowChars (h : Smooth cs) : flowChars false cs = cs :=
  flowChars_eq_self h.first h.last h.squeezed h.thin h.indents

end HtmlMarkdown.Text
