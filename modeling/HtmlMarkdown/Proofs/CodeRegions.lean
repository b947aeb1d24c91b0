import HtmlMarkdown.Proofs.NativeCode

/-!
# Where a region of code ends

The spacing pass reads a region of code twice. At its start it looks ahead for the end that matches,
to tell a block from inline code; then it counts the regions inside it step by step. The two
readings agree in every stream, whatever the order of its marks: the region is open, as the kind
that it was found to be, up to the end that was found, and closes there. Where no end was found the
region is inline and stays open. No edge of code is left behind the pass.
-/

namespace HtmlMarkdown.Markdown

variable {ts rest : List Token} {t : Token} {s : Spacer} {before : Option Token}
  {opened opened' : OpenCode} {i j k : Nat}

/-- The region behind a token that stands in it: none if the token closes it. -/
def OpenCode.next (opened : OpenCode) (t : Token) : Option OpenCode :=
  match t.tag? with
  | some .startCode => some { opened with depth := opened.depth + 1 }
  | some .endCode =>
    match opened.depth with
    | 0 => none
    | n + 1 => some { opened with depth := n }
  | _ => some opened

theorem OpenCode.kind_of_next (h : opened.next t = some opened') : opened'.kind = opened.kind := by
  unfold OpenCode.next at h
  split at h
  · cases h
    rfl
  · split at h <;> cases h
    rfl
  · cases h
    rfl

theorem OpenCode.next_of_other (hs : t.tag? ≠ some .startCode) (he : t.tag? ≠ some .endCode) :
    opened.next t = some opened := by
  unfold OpenCode.next
  split
  · next ht => exact absurd ht hs
  · next ht => exact absurd ht he
  · rfl

theorem matchingCodeEnd_of_other (hs : t.tag? ≠ some .startCode) (he : t.tag? ≠ some .endCode)
    (depth : Nat) (ts : List Token) :
    matchingCodeEnd depth (t :: ts) = (matchingCodeEnd depth ts).map (· + 1) := by
  rw [matchingCodeEnd]
  split
  · next ht => exact absurd ht hs
  · next ht => exact absurd ht he
  · rfl

/-- The look ahead counts one region more than the pass, which counts those inside only. -/
theorem matchingCodeEnd_next (opened : OpenCode) (t : Token) (ts : List Token) :
    matchingCodeEnd (opened.depth + 1) (t :: ts) = match opened.next t with
      | none => some 0
      | some opened' => (matchingCodeEnd (opened'.depth + 1) ts).map (· + 1) := by
  by_cases hs : t.tag? = some .startCode
  · simp [matchingCodeEnd, OpenCode.next, hs]
  by_cases he : t.tag? = some .endCode
  · obtain ⟨kind, depth⟩ := opened
    cases depth <;> simp [matchingCodeEnd, OpenCode.next, he]
  · rw [OpenCode.next_of_other hs he, matchingCodeEnd_of_other hs he]

namespace Spacer

theorem code_insideCode (hcode : s.code = some opened) :
    (s.insideCode opened t).code = opened.next t := by
  unfold insideCode
  split
  · next ht => simp [OpenCode.next, ht]
  · next ht =>
    obtain ⟨kind, depth⟩ := opened
    cases depth with
    | zero =>
      simp only [OpenCode.next, ht, closeCode]
      split <;> rfl
    | succ n => simp [OpenCode.next, ht]
  · next hs he =>
    rw [OpenCode.next_of_other hs he]
    split <;> exact hcode

/-- A step inside of code moves the region on, also where it skips its token. -/
theorem Foresees.code_step (h : s.Foresees (t :: rest)) (hcode : s.code = some opened)
    (before : Option Token) : (s.step before t rest).code = opened.next t := by
  unfold Spacer.step
  split
  · next hskip =>
    have ht := Token.isRawNewlines_tag? (h.skip hskip)
    rw [OpenCode.next_of_other (by simp [ht]) (by simp [ht])]
    exact hcode
  · rw [hcode]
    exact code_insideCode hcode

/-- Outside of code a step opens a region at a code start, and nowhere else. -/
theorem Foresees.code_step_outside (h : s.Foresees (t :: rest)) (hcode : s.code = none)
    (before : Option Token) : (s.step before t rest).code =
      if t.tag? = some .startCode then
        some { kind := (CodeRegion.classify s.output (t :: rest)).kind }
      else none := by
  unfold Spacer.step
  split
  · next hskip =>
    rw [Token.isRawNewlines_tag? (h.skip hskip), if_neg (by simp)]
    exact hcode
  · rw [hcode]
    dsimp only
    split
    · next ht =>
      rw [ht, if_neg (by simp)]
      exact hcode
    · next tag ht =>
      rw [ht]
      by_cases hstart : tag = .startCode
      · subst hstart
        rw [if_pos rfl]
        exact congrArg Prod.fst (flags_openCode t rest)
      · rw [if_neg (by simpa using hstart), ← hcode]
        by_cases hend : tag = .endNativeBlock
        · subst hend
          unfold ordinary
          dsimp only
          split <;> rfl
        · exact congrArg Prod.fst (flags_ordinary before t rest hstart hend)

/-- Up to the end that the look ahead finds, the region stays open, and the look ahead from further
on finds the same end. -/
theorem Foresees.code_advance (h : s.Foresees (ts ++ rest)) (hcode : s.code = some opened)
    (hopen : ∀ place ∈ matchingCodeEnd (opened.depth + 1) (ts ++ rest), ts.length ≤ place)
    (before : Option Token) :
    ∃ n, (s.advance before ts rest).code = some { opened with depth := n } ∧
      matchingCodeEnd (opened.depth + 1) (ts ++ rest) =
        (matchingCodeEnd (n + 1) rest).map (· + ts.length) := by
  induction ts generalizing s opened before with
  | nil => exact ⟨opened.depth, hcode, by simp⟩
  | cons t ts ih =>
    rw [List.cons_append] at h hopen ⊢
    rw [matchingCodeEnd_next] at hopen ⊢
    have hstep := h.code_step hcode before
    cases hnext : opened.next t with
    | none =>
      rw [hnext] at hopen
      exact absurd (hopen 0 rfl) (Nat.not_succ_le_zero _)
    | some opened' =>
      simp only [hnext] at hopen hstep ⊢
      obtain ⟨n, hn, hplace⟩ := ih (h.step before) hstep (fun place hplace => by
        have := hopen (place + 1) (Option.mem_map_of_mem (· + 1) hplace)
        simpa using this) (some t)
      refine ⟨n, ?_, ?_⟩
      · rw [Spacer.advance, hn, OpenCode.kind_of_next hnext]
      · rw [hplace, Option.map_map]
        congr 1

end Spacer

def spacerAt (ts : List Token) (i : Nat) : Spacer :=
  ({} : Spacer).advance none (ts.take i) (ts.drop i)

theorem take_append_drop_add (ts : List Token) (i m : Nat) :
    (ts.drop i).take m ++ ts.drop (i + m) = ts.drop i := by
  rw [← List.drop_drop, List.take_append_drop]

theorem spacerAt_add (ts : List Token) (i m : Nat) : spacerAt ts (i + m) =
    (spacerAt ts i).advance (ts.take i).getLast? ((ts.drop i).take m) (ts.drop (i + m)) := by
  rw [spacerAt, List.take_add, Spacer.advance_append, take_append_drop_add, spacerAt,
    Option.or_none]

theorem foresees_spacerAt (ts : List Token) (i : Nat) : (spacerAt ts i).Foresees (ts.drop i) :=
  Spacer.Foresees.advance (by rw [List.take_append_drop]; exact .start ts) none

def matchingEndAt (ts : List Token) (i : Nat) : Option Nat :=
  (matchingCodeEnd 0 (ts.drop i)).map (i + ·)

def regionAt (ts : List Token) (i : Nat) : CodeRegion :=
  CodeRegion.classifyAt (spacerAt ts i).output.reverse ts i

def OpensAt (ts : List Token) (i : Nat) : Prop :=
  (spacerAt ts i).code = none ∧ (spacerAt ts (i + 1)).code ≠ none

def ClosesAt (ts : List Token) (i : Nat) : Prop :=
  (spacerAt ts i).code ≠ none ∧ (spacerAt ts (i + 1)).code = none

theorem spacerAt_succ (h : ts.drop i = t :: rest) :
    spacerAt ts (i + 1) = (spacerAt ts i).step (ts.take i).getLast? t rest := by
  have hrest : ts.drop (i + 1) = rest := by rw [← List.tail_drop, h, List.tail_cons]
  rw [spacerAt_add, h, hrest]
  rfl

theorem spacerAt_succ_of_length_le (h : ts.length ≤ i) : spacerAt ts (i + 1) = spacerAt ts i := by
  rw [spacerAt, spacerAt, List.take_of_length_le h, List.take_of_length_le (by omega),
    List.drop_eq_nil_of_le h, List.drop_eq_nil_of_le (by omega)]

theorem opensAt_iff (ts : List Token) (i : Nat) : OpensAt ts i ↔
    (spacerAt ts i).code = none ∧ ∃ t, ts[i]? = some t ∧ t.tag? = some .startCode := by
  refine and_congr_right fun hcode => ?_
  have hforesees := foresees_spacerAt ts i
  rw [← List.head?_drop]
  cases hdrop : ts.drop i with
  | nil => simp [spacerAt_succ_of_length_le (List.drop_eq_nil_iff.mp hdrop), hcode]
  | cons t rest =>
    rw [hdrop] at hforesees
    rw [spacerAt_succ hdrop, hforesees.code_step_outside hcode]
    simp

/-- Where a region opens, its kind is the one that was found there, and the look ahead has found the
end that is to be expected inside of it. -/
theorem OpensAt.code_succ (h : OpensAt ts i) :
    (spacerAt ts (i + 1)).code = some { kind := (regionAt ts i).kind } ∧
      matchingEndAt ts i =
        (matchingCodeEnd 1 (ts.drop (i + 1))).map (i + 1 + ·) := by
  obtain ⟨hcode, t, ht, htag⟩ := (opensAt_iff ts i).mp h
  rw [← List.head?_drop] at ht
  obtain ⟨rest, hdrop⟩ := List.head?_eq_some_iff.mp ht
  have hforesees := foresees_spacerAt ts i
  rw [hdrop] at hforesees
  have hrest : ts.drop (i + 1) = rest := by rw [← List.tail_drop, hdrop, List.tail_cons]
  constructor
  · rw [spacerAt_succ hdrop, hforesees.code_step_outside hcode, if_pos htag, regionAt,
      CodeRegion.classifyAt, List.reverse_reverse, hdrop]
  · rw [matchingEndAt, hdrop, matchingCodeEnd, htag, hrest, Option.map_map]
    congr 1
    funext place
    simp only [Function.comp_apply]
    omega

/-- Up to the end that was found a region is open, as the kind that was found. -/
theorem OpensAt.code_of_le (h : OpensAt ts i) (hk : i < k)
    (hend : ∀ j ∈ matchingEndAt ts i, k ≤ j) :
    ∃ n, (spacerAt ts k).code = some { kind := (regionAt ts i).kind, depth := n } ∧
      matchingEndAt ts i = (matchingCodeEnd (n + 1) (ts.drop k)).map (k + ·) := by
  obtain ⟨hcode, hplace⟩ := h.code_succ
  obtain ⟨m, rfl⟩ : ∃ m, k = i + 1 + m := ⟨k - (i + 1), by omega⟩
  have hsplit := (take_append_drop_add ts (i + 1) m).symm
  have hforesees := foresees_spacerAt ts (i + 1)
  rw [hplace] at hend
  rw [hsplit] at hforesees hend
  have hopen : ∀ place ∈ matchingCodeEnd 1
      ((ts.drop (i + 1)).take m ++ ts.drop (i + 1 + m)),
      ((ts.drop (i + 1)).take m).length ≤ place := by
    intro place hp
    have hle := hend (i + 1 + place) (Option.mem_map_of_mem (i + 1 + ·) hp)
    have := List.length_take_le m (ts.drop (i + 1))
    omega
  obtain ⟨n, hn, hfound⟩ := hforesees.code_advance hcode hopen (ts.take (i + 1)).getLast?
  refine ⟨n, by rw [spacerAt_add, hn], ?_⟩
  rw [hplace, hsplit, hfound, Option.map_map]
  cases hrest : ts.drop (i + 1 + m) with
  | nil => rfl
  | cons t rest =>
    have hlength : i + 1 + m < ts.length := by
      by_contra hle
      rw [List.drop_eq_nil_of_le (by omega)] at hrest
      cases hrest
    congr 1
    funext place
    simp only [Function.comp_apply, List.length_take, List.length_drop]
    omega

/-- The region closes at the end that the look ahead has found. -/
theorem OpensAt.closesAt (h : OpensAt ts i) (hj : matchingEndAt ts i = some j) :
    i < j ∧ ClosesAt ts j := by
  have hlt : i < j := by
    rw [h.code_succ.2] at hj
    obtain ⟨place, -, rfl⟩ := Option.map_eq_some_iff.mp hj
    omega
  refine ⟨hlt, ?_⟩
  obtain ⟨n, hn, hfound⟩ := h.code_of_le hlt fun j' hj' => by
    rw [hj] at hj'
    exact (Option.some.inj hj').le
  rw [hj] at hfound
  obtain ⟨place, hplace, hzero⟩ := Option.map_eq_some_iff.mp hfound.symm
  obtain rfl : place = 0 := by omega
  refine ⟨by simp [hn], ?_⟩
  have hforesees := foresees_spacerAt ts j
  cases hdrop : ts.drop j with
  | nil => simp [hdrop, matchingCodeEnd] at hplace
  | cons t rest =>
    rw [hdrop] at hforesees hplace
    rw [spacerAt_succ hdrop, hforesees.code_step hn]
    -- A region that went on behind the token would end behind it.
    have hnext := matchingCodeEnd_next { kind := (regionAt ts i).kind, depth := n } t rest
    rw [hplace] at hnext
    cases hopened : OpenCode.next { kind := (regionAt ts i).kind, depth := n } t with
    | none => rfl
    | some opened' =>
      rw [hopened] at hnext
      obtain ⟨_, -, hsucc⟩ := Option.map_eq_some_iff.mp hnext.symm
      exact absurd hsucc (Nat.succ_ne_zero _)

def Token.IsUncoded (t : Token) : Prop := t.tag? ≠ some .startCode ∧ t.tag? ≠ some .endCode

theorem innate_isUncoded : Innate Token.IsUncoded where
  node t u h ht := by
    have htag : u.tag? = t.tag? := by unfold Token.tag?; rw [h]
    rwa [Token.IsUncoded, htag]
  newline := ⟨by decide, by decide⟩
  newlineBlank := ⟨by decide, by decide⟩
  delimiter := ⟨by decide, by decide⟩

/-- No step writes an edge of code. -/
theorem Spacer.isUncoded_step (before : Option Token) (t : Token) (after : List Token)
    (hout : ∀ u ∈ s.output, u.IsUncoded) : ∀ u ∈ (s.step before t after).output, u.IsUncoded := by
  by_cases ht : t.IsUncoded
  · exact innate_isUncoded.step ht before after hout
  · have hedge : t.tag? = some .startCode ∨ t.tag? = some .endCode := by
      unfold Token.IsUncoded at ht
      tauto
    unfold Spacer.step
    split
    · exact hout
    · split
      · next opened _ =>
        unfold Spacer.insideCode
        rcases hedge with h | h <;> rw [h]
        · exact hout
        · dsimp only
          split
          · exact innate_isUncoded.closeCode _ hout
          · exact hout
      · rcases hedge with h | h <;> rw [h]
        · exact innate_isUncoded.openCode t after hout
        · exact hout

theorem Spacer.isUncoded_run (ts : List Token) (before : Option Token)
    (hout : ∀ u ∈ s.output, u.IsUncoded) : ∀ u ∈ (s.run before ts).output, u.IsUncoded := by
  induction ts generalizing s before with
  | nil => exact hout
  | cons t ts ih => exact ih (some t) (isUncoded_step before t ts hout)

/-- The two readings of a region of code agree in every stream. The pass opens regions at the code
starts outside of code; it closes such a region at the end that the look ahead finds, and holds it
open up to there as the kind that was found at its start. A region for which no end is found is
inline and open to the end of the stream. Behind the pass there is no edge of code. -/
theorem codeRegions_agree (ts : List Token) :
    (∀ i, OpensAt ts i ↔
      (spacerAt ts i).code = none ∧ ∃ t, ts[i]? = some t ∧ t.tag? = some .startCode) ∧
    (∀ i, OpensAt ts i → match matchingEndAt ts i with
      | some j => i < j ∧ ClosesAt ts j ∧ ∀ k, i < k → k ≤ j →
          ∃ depth, (spacerAt ts k).code = some { kind := (regionAt ts i).kind, depth }
      | none => (regionAt ts i).kind = .inline ∧ ∀ k, i < k →
          ∃ depth, (spacerAt ts k).code = some { kind := .inline, depth }) ∧
    ∀ t ∈ space ts, t.tag? ≠ some .startCode ∧ t.tag? ≠ some .endCode := by
  refine ⟨opensAt_iff ts, fun i h => ?_, fun t ht => ?_⟩
  · cases hj : matchingEndAt ts i with
    | some j =>
      obtain ⟨hlt, hcloses⟩ := h.closesAt hj
      refine ⟨hlt, hcloses, fun k hk hle => ?_⟩
      obtain ⟨n, hn, -⟩ := h.code_of_le hk fun j' hj' => by
        rw [hj] at hj'
        exact hle.trans (Option.some.inj hj').le
      exact ⟨n, hn⟩
    | none =>
      have hinline : (regionAt ts i).kind = .inline := by
        rw [matchingEndAt, Option.map_eq_none_iff] at hj
        simp [regionAt, CodeRegion.classifyAt, CodeRegion.classify, hj, CodeRegion.inline]
      refine ⟨hinline, fun k hk => ?_⟩
      obtain ⟨n, hn, -⟩ := h.code_of_le hk (by simp [hj])
      exact ⟨n, hinline ▸ hn⟩
  · exact Spacer.isUncoded_run ts none (by simp) t (List.mem_reverse.mp ht)

end HtmlMarkdown.Markdown
