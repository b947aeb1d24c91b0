import HtmlMarkdown.Proofs.Prose
import Mathlib.Data.List.TakeWhile

/-!
# Spaces at the ends of lines

A hard break is a newline behind two spaces. Flowing text is laid out so that none is in it: no two
spaces stand side by side, and no line behind a newline is a space and nothing else. So every line
of it ends in one space at most, and the last one in none.
-/

namespace HtmlMarkdown.Text

def HardBreak (cs : List Char) : Prop := [' ', ' ', '\n'] <:+: cs

instance (cs : List Char) : Decidable (HardBreak cs) := inferInstanceAs (Decidable (_ <:+: _))

def spacesBehind (cs : List Char) : Nat := (takeTail (· == ' ') cs).length

variable {cs ds : List Char} {c : Char}

theorem takeTail_spaces (cs : List Char) :
    takeTail (· == ' ') cs = List.replicate (spacesBehind cs) ' ' := by
  refine List.eq_replicate_iff.mpr ⟨rfl, fun c hc => ?_⟩
  simpa using List.mem_takeWhile_imp (List.mem_reverse.mp hc)

theorem spacesBehind_of_replicate (hc : c ≠ ' ') (cs : List Char) (n : Nat) :
    spacesBehind (cs ++ c :: List.replicate n ' ') = n := by
  have hall : ∀ d ∈ List.replicate n ' ', (d == ' ') = true := by simp
  have hreverse : (cs ++ c :: List.replicate n ' ').reverse =
      List.replicate n ' ' ++ c :: cs.reverse := by simp
  rw [spacesBehind, takeTail, hreverse, List.takeWhile_append_of_pos hall, List.length_reverse,
    List.takeWhile_cons_of_neg (by simpa using hc)]
  simp

theorem spacesBehind_replicate (n : Nat) : spacesBehind (List.replicate n ' ') = n := by
  simp [spacesBehind, takeTail]

/-- What stands in front of the spaces at the end is nothing, or ends in something else. -/
theorem exists_append_replicate (cs : List Char) :
    cs = List.replicate (spacesBehind cs) ' ' ∨
      ∃ ds c, c ≠ ' ' ∧ cs = ds ++ c :: List.replicate (spacesBehind cs) ' ' := by
  have hsplit := dropTail_append_takeTail (· == ' ') cs
  rw [takeTail_spaces] at hsplit
  rcases List.eq_nil_or_concat' (dropTail (· == ' ') cs) with hnil | ⟨ds, c, hds⟩
  · rw [hnil, List.nil_append] at hsplit
    exact .inl hsplit.symm
  · rw [hds, List.append_assoc, List.singleton_append] at hsplit
    refine .inr ⟨ds, c, ?_, hsplit.symm⟩
    have hreverse : cs.reverse.dropWhile (· == ' ') = c :: ds.reverse := by
      rw [← List.reverse_reverse (cs.reverse.dropWhile _)]
      simpa [dropTail] using congrArg List.reverse hds
    have hhead := List.head?_dropWhile_not (· == ' ') cs.reverse
    rw [hreverse] at hhead
    simpa using hhead

theorem spacesBehind_append (h : ∃ c ∈ ds, c ≠ ' ') (cs : List Char) :
    spacesBehind (cs ++ ds) = spacesBehind ds := by
  rcases exists_append_replicate ds with hds | ⟨xs, c, hc, hds⟩
  · obtain ⟨c, hmem, hne⟩ := h
    rw [hds] at hmem
    exact absurd (List.eq_of_mem_replicate hmem) hne
  · rw [hds, spacesBehind_of_replicate hc, ← List.append_assoc, spacesBehind_of_replicate hc]

theorem hardBreak_cons_of_ne (hc : c ≠ ' ') (cs : List Char) :
    HardBreak (c :: cs) ↔ HardBreak cs := by
  have hfirst : ¬[' ', ' ', '\n'] <+: c :: cs := by
    rw [List.cons_prefix_cons]
    exact fun h => hc h.1.symm
  unfold HardBreak
  rw [List.infix_cons_iff, or_iff_right hfirst]

/-- Spaces and a newline are a hard break where there are two of them. -/
theorem hardBreak_replicate (n : Nat) (cs : List Char) :
    HardBreak (List.replicate n ' ' ++ '\n' :: cs) ↔ 2 ≤ n ∨ HardBreak cs := by
  have hnewline : HardBreak ('\n' :: cs) ↔ HardBreak cs := hardBreak_cons_of_ne (by decide) cs
  rcases n with _ | _ | n
  · simpa using hnewline
  · have hfirst : ¬[' ', ' ', '\n'] <+: ' ' :: '\n' :: cs := by simp [List.cons_prefix_cons]
    have hone : HardBreak (' ' :: '\n' :: cs) ↔ HardBreak ('\n' :: cs) := by
      unfold HardBreak
      rw [List.infix_cons_iff, or_iff_right hfirst]
    simpa using hone.trans hnewline
  · refine iff_of_true ⟨List.replicate n ' ', cs, ?_⟩ (.inl (by omega))
    simp [List.replicate_add]

theorem hardBreak_append_cons (h : '\n' ∉ ds) (hc : c ≠ ' ') (hnewline : c ≠ '\n')
    (cs : List Char) : HardBreak (ds ++ c :: cs) ↔ HardBreak cs := by
  induction ds with
  | nil => exact hardBreak_cons_of_ne hc cs
  | cons d ds ih =>
    rw [List.mem_cons, not_or] at h
    have hfirst : ¬[' ', ' ', '\n'] <+: d :: (ds ++ c :: cs) := by
      rcases ds with _ | ⟨e, _ | ⟨f, ds⟩⟩ <;> simp_all [List.cons_prefix_cons, eq_comm]
    have hrest := ih h.2
    unfold HardBreak at hrest ⊢
    rw [List.cons_append, List.infix_cons_iff, or_iff_right hfirst]
    exact hrest

/-- On a line a hard break needs the spaces at its end only. -/
theorem hardBreak_append (h : '\n' ∉ ds) (cs : List Char) :
    HardBreak (ds ++ cs) ↔ HardBreak (List.replicate (spacesBehind ds) ' ' ++ cs) := by
  rcases exists_append_replicate ds with hds | ⟨xs, c, hc, hds⟩
  · rw [← hds]
  · rw [hds, List.mem_append, List.mem_cons, not_or, not_or] at h
    have hcons := hardBreak_append_cons h.1 hc (Ne.symm h.2.1)
      (List.replicate (spacesBehind ds) ' ' ++ cs)
    rw [← hcons, ← List.cons_append, ← List.append_assoc, ← hds]

/-- Spaces stand alone, and none is all there is on a line behind a newline. -/
def Calm : List Char → Prop
  | [] => True
  | c :: cs =>
    (c = ' ' → cs.head? ≠ some ' ') ∧ (c = '\n' → ¬[' ', '\n'] <+: cs) ∧ Calm cs

theorem Calm.of_append_left (h : Calm (cs ++ ds)) : Calm cs := by
  induction cs with
  | nil => trivial
  | cons c cs ih =>
    refine ⟨fun hc hhead => h.1 hc ?_, fun hc hprefix => h.2.1 hc ?_, ih h.2.2⟩
    · change (cs ++ ds).head? = some ' '
      rw [List.head?_append, hhead]
      rfl
    · exact hprefix.trans (List.prefix_append cs ds)

theorem Calm.of_append_right (h : Calm (cs ++ ds)) : Calm ds := by
  induction cs with
  | nil => exact h
  | cons c cs ih => exact ih h.2.2

def Squeezed : List Char → Prop
  | [] => True
  | c :: cs =>
    (isSpaceOrTab c = true → c = ' ' ∧ ∀ d ∈ cs.head?, isSpaceOrTab d = false) ∧ Squeezed cs

theorem squeezed_squeeze (inRun : Bool) (cs : List Char) : Squeezed (squeeze inRun cs) ∧
    (inRun = true → ∀ d ∈ (squeeze inRun cs).head?, isSpaceOrTab d = false) := by
  induction cs generalizing inRun with
  | nil => exact ⟨trivial, fun _ d hd => (Option.not_mem_none d hd).elim⟩
  | cons c cs ih =>
    rw [squeeze]
    split_ifs with hc hrun
    · exact ⟨(ih true).1, fun _ => (ih true).2 rfl⟩
    · exact ⟨⟨fun _ => ⟨rfl, (ih true).2 rfl⟩, (ih true).1⟩, fun h => absurd h hrun⟩
    · refine ⟨⟨fun h => absurd h hc, (ih false).1⟩, fun _ d hd => ?_⟩
      obtain rfl : c = d := Option.some.inj hd
      simpa using hc

theorem head?_dropIndents (h : ∀ d ∈ cs.head?, isSpaceOrTab d = false) (inIndent : Bool) :
    (dropIndents inIndent cs).head? = cs.head? := by
  cases cs with
  | nil => rfl
  | cons c cs =>
    have hc : isSpaceOrTab c = false := h c rfl
    simp [dropIndents, hc]

theorem calm_dropIndents (h : Squeezed cs) (inIndent : Bool) :
    Calm (dropIndents inIndent cs) ∧
      (inIndent = true → ¬[' ', '\n'] <+: dropIndents inIndent cs) := by
  have hspace : isSpaceOrTab ' ' = true := rfl
  induction cs generalizing inIndent with
  | nil => exact ⟨trivial, fun _ hprefix => by simp [dropIndents] at hprefix⟩
  | cons c cs ih =>
    obtain ⟨hc, hcs⟩ := h
    have alone (hblank : isSpaceOrTab c = true) (inIndent : Bool) :
        c = ' ' → (dropIndents inIndent cs).head? ≠ some ' ' := by
      intro _ hhead
      rw [head?_dropIndents (hc hblank).2] at hhead
      exact absurd ((hc hblank).2 ' ' hhead) (by simp [hspace])
    rw [dropIndents]
    split_ifs with hblank hitem
    · rw [Bool.and_eq_true] at hblank
      obtain ⟨hsp, hnext⟩ := hc hblank.2
      refine ⟨⟨alone hblank.2 true, fun hn => ?_, (ih hcs true).1⟩, fun _ hprefix => ?_⟩
      · rw [hsp] at hn
        exact absurd hn (by decide)
      · -- a digit or a bullet follows, which is no newline
        rw [List.cons_prefix_cons] at hprefix
        have hhead : (dropIndents true cs).head? = some '\n' := by
          obtain ⟨rest, hrest⟩ := hprefix.2
          rw [← hrest]
          rfl
        rw [head?_dropIndents hnext] at hhead
        cases cs with
        | nil => cases hhead
        | cons d cs =>
          obtain rfl : d = '\n' := Option.some.inj hhead
          rw [List.dropWhile_cons, if_neg (by decide)] at hitem
          cases hitem
    · exact ⟨(ih hcs true).1, fun _ => (ih hcs true).2 rfl⟩
    · refine ⟨⟨fun hsp => ?_, fun hn => ?_, (ih hcs _).1⟩, fun hindent hprefix => ?_⟩
      · exact alone (hsp ▸ hspace) _ hsp
      · exact (ih hcs _).2 (by simpa using hn)
      · rw [List.cons_prefix_cons] at hprefix
        rw [hindent, ← hprefix.1] at hblank
        exact hblank rfl

theorem calm_of_squeezed (h : Squeezed cs) (hn : '\n' ∉ cs) : Calm cs := by
  induction cs with
  | nil => trivial
  | cons c cs ih =>
    rw [List.mem_cons, not_or] at hn
    refine ⟨fun hc hhead => ?_, fun hc => absurd hc.symm hn.1, ih h.2 hn.2⟩
    exact absurd ((h.1 (hc ▸ rfl)).2 ' ' hhead) (by decide)

theorem Calm.trimChars (h : Calm cs) : Calm (trimChars cs) := by
  rw [← List.takeWhile_append_dropWhile (p := isWhite) (l := cs)] at h
  have hright := h.of_append_right
  rw [← dropTail_append_takeTail isWhite (cs.dropWhile isWhite)] at hright
  exact hright.of_append_left

theorem calm_flowChars (inParagraph : Bool) (cs : List Char) : Calm (flowChars inParagraph cs) := by
  unfold flowChars
  dsimp only
  split_ifs
  · exact (calm_of_squeezed (squeezed_squeeze false _).1
      (not_mem_squeeze (not_mem_map_unfoldNewline _) false)).trimChars
  · exact (calm_dropIndents (squeezed_squeeze false _).1 false).1.trimChars

theorem head?_trimChars {c : Char} (h : (trimChars cs).head? = some c) : isWhite c = false := by
  have hsplit := dropTail_append_takeTail isWhite (cs.dropWhile isWhite)
  have hhead : (cs.dropWhile isWhite).head? = some c := by
    rw [← hsplit, List.head?_append]
    change ((trimChars cs).head?.or _) = _
    rw [h]
    rfl
  have hnot := List.head?_dropWhile_not isWhite cs
  rw [hhead] at hnot
  simpa using hnot

theorem getLast?_trimChars {c : Char} (h : (trimChars cs).getLast? = some c) :
    isWhite c = false := getLast?_dropTail isWhite _ c h

/-- A line that may be followed by a newline: it ends in one space at most, and is not that space
alone. -/
structure Loose (line : List Char) : Prop where
  single : '\n' ∉ line
  spaces : spacesBehind line ≤ 1
  blank : line ≠ [' ']

structure Firm (line : List Char) : Prop where
  single : '\n' ∉ line
  ends : ∃ c, line.getLast? = some c ∧ c ≠ ' '

def Flowing : List (List Char) → Prop
  | [] => False
  | [last] => Firm last
  | line :: rest => Loose line ∧ Flowing rest

theorem Calm.spacesBehind (h : Calm cs) : spacesBehind cs ≤ 1 := by
  by_contra hmany
  have hsplit := dropTail_append_takeTail (· == ' ') cs
  rw [takeTail_spaces] at hsplit
  obtain ⟨n, hn⟩ : ∃ n, Text.spacesBehind cs = n + 2 := ⟨Text.spacesBehind cs - 2, by omega⟩
  rw [hn] at hsplit
  rw [← hsplit] at h
  exact h.of_append_right.1 rfl rfl

/-- The first line of a text and the rest. -/
theorem splitNewlines_cases (cs : List Char) : '\n' ∉ cs ∧ splitNewlines cs = [cs] ∨
    ∃ line rest, '\n' ∉ line ∧ cs = line ++ '\n' :: rest ∧
      splitNewlines cs = line :: splitNewlines rest := by
  induction cs with
  | nil => exact .inl ⟨List.not_mem_nil, rfl⟩
  | cons c cs ih =>
    by_cases hc : c = '\n'
    · subst hc
      exact .inr ⟨[], cs, List.not_mem_nil, rfl, by simp [splitNewlines]⟩
    · rcases ih with ⟨hmem, hsplit⟩ | ⟨line, rest, hmem, hcs, hsplit⟩
      · exact .inl ⟨by simp [hmem, Ne.symm hc], by simp [splitNewlines, hc, hsplit]⟩
      · refine .inr ⟨c :: line, rest, by simp [hmem, Ne.symm hc], by simp [hcs], ?_⟩
        rw [splitNewlines, if_neg hc, hsplit]

theorem flowing_splitNewlines (h : Calm ('\n' :: cs))
    (hlast : ∃ c, cs.getLast? = some c ∧ isWhite c = false) : Flowing (splitNewlines cs) := by
  generalize hn : cs.length = n
  induction n using Nat.strongRecOn generalizing cs with
  | ind n ih =>
    obtain ⟨c, hc, hwhite⟩ := hlast
    rcases splitNewlines_cases cs with ⟨hmem, hsplit⟩ | ⟨line, rest, hmem, hcs, hsplit⟩
    · rw [hsplit]
      refine ⟨hmem, c, hc, ?_⟩
      rintro rfl
      exact absurd hwhite (by decide)
    · rw [hsplit]
      have hrest : Calm ('\n' :: rest) := by
        rw [hcs] at h
        exact h.2.2.of_append_right
      have hbehind : rest.getLast? = some c := by
        rw [hcs, List.getLast?_append, List.getLast?_cons] at hc
        cases hl : rest.getLast? with
        | none =>
          obtain rfl : '\n' = c := by simpa [hl] using hc
          exact absurd hwhite (by decide)
        | some d => simpa [hl] using hc
      have hlines := ih rest.length (by simp [← hn, hcs]; omega) hrest ⟨c, hbehind, hwhite⟩ rfl
      have hloose : Loose line := by
        rw [hcs] at h
        refine ⟨hmem, h.2.2.of_append_left.spacesBehind, ?_⟩
        rintro rfl
        exact h.2.1 rfl ⟨rest, rfl⟩
      cases hsplit' : splitNewlines rest with
      | nil => exact absurd hsplit' (splitNewlines_ne_nil rest)
      | cons line' lines => exact ⟨hloose, hsplit' ▸ hlines⟩

end HtmlMarkdown.Text
