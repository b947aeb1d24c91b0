import HtmlMarkdown.Html.Parse
import HtmlMarkdown.Markdown.Layout
import HtmlMarkdown.Proofs.Angles
import HtmlMarkdown.Proofs.SmoothText
import HtmlMarkdown.Proofs.TextRuns

/-!
# Text read back

Before HTML is read its lines are trimmed; then its line ends become newlines and its references
are decoded. Escaping a text goes through all of these: what is read from escaped text is the text,
its lines trimmed. So what reading and laying out make of a text is the text itself exactly when it
is an escaped smooth text.
-/

namespace HtmlMarkdown.Text

open Html (decodeFrom decodeReferences)
open Markdown (isNewlineChar trimNewlinesEnd)

variable {cs ds : List Char} {c : Char} {s : String}

section Escape

theorem escapeChar_eq_self (hand : c ≠ '&') (hlt : c ≠ '<') (hgt : c ≠ '>') :
    escapeChar c = [c] := by
  rw [escapeChar, if_neg hand, if_neg hlt, if_neg hgt]

/-- White space stands for itself. -/
theorem escapeChar_of_isWhite (h : isWhite c = true) : escapeChar c = [c] := by
  refine escapeChar_eq_self ?_ ?_ ?_ <;>
  · rintro rfl
    exact absurd h (by decide)

/-- What stands for a character that is no white space does not end in white space. -/
theorem exists_escapeChar_of_not_isWhite (h : isWhite c = false) :
    ∃ ds d, isWhite d = false ∧ escapeChar c = ds ++ [d] :=
  exists_escapeChar (p := (isWhite · = false)) (by decide) h

theorem escapeChar_ne_nil (c : Char) : escapeChar c ≠ [] := by
  unfold escapeChar
  split_ifs <;> simp

theorem escaped_eq_nil_iff : cs.flatMap escapeChar = [] ↔ cs = [] := by
  cases cs with
  | nil => simp
  | cons c cs =>
    rw [List.flatMap_cons, List.append_eq_nil_iff]
    exact iff_of_false (fun h => escapeChar_ne_nil c h.1) (List.cons_ne_nil c cs)

theorem flatMap_escapeChar_replicate (h : isWhite c = true) (n : Nat) :
    (List.replicate n c).flatMap escapeChar = List.replicate n c := by
  induction n with
  | zero => rfl
  | succ n ih => rw [List.replicate_succ, List.flatMap_cons, ih, escapeChar_of_isWhite h]; rfl

theorem lt_not_mem_escaped (cs : List Char) : '<' ∉ cs.flatMap escapeChar := by
  rw [List.mem_flatMap]
  rintro ⟨c, -, hc⟩
  exact not_mem_escapeChar c hc

end Escape

section Lines

theorem dropTail_concat {p : Char → Bool} (h : p c = true) (cs : List Char) :
    dropTail p (cs ++ [c]) = dropTail p cs := by
  simp [dropTail, h]

theorem splitNewlines_escaped (cs : List Char) : splitNewlines (cs.flatMap escapeChar) =
    (splitNewlines cs).map (·.flatMap escapeChar) := by
  induction cs with
  | nil => rfl
  | cons c cs ih =>
    by_cases hc : c = '\n'
    · subst hc
      have hescape : escapeChar '\n' = ['\n'] := by decide
      rw [List.flatMap_cons, hescape, List.singleton_append, splitNewlines, splitNewlines,
        if_pos rfl, if_pos rfl, ih]
      rfl
    · obtain ⟨line, rest, hsplit⟩ := List.exists_cons_of_ne_nil (splitNewlines_ne_nil cs)
      rw [hsplit, List.map_cons] at ih
      rw [List.flatMap_cons, splitNewlines_append (newline_not_mem_escapeChar hc) ih, splitNewlines,
        if_neg hc, hsplit]
      rfl

theorem joinNewlines_escaped (ls : List (List Char)) :
    joinNewlines (ls.map (·.flatMap escapeChar)) = (joinNewlines ls).flatMap escapeChar := by
  induction ls with
  | nil => rfl
  | cons line rest ih =>
    cases rest with
    | nil => rfl
    | cons line' rest =>
      have hescape : escapeChar '\n' = ['\n'] := by decide
      change line.flatMap escapeChar ++ '\n' ::
        joinNewlines ((line' :: rest).map (·.flatMap escapeChar)) = _
      rw [ih]
      change _ = (line ++ '\n' :: joinNewlines (line' :: rest)).flatMap escapeChar
      rw [List.flatMap_append, List.flatMap_cons, hescape]
      rfl

theorem lines_escaped (cs : List Char) :
    lines (cs.flatMap escapeChar) = (lines cs).map (·.flatMap escapeChar) := by
  have hlast : ((splitNewlines cs).map (·.flatMap escapeChar)).getLast? = some [] ↔
      (splitNewlines cs).getLast? = some [] := by
    rw [List.getLast?_map]
    cases (splitNewlines cs).getLast? with
    | none => simp
    | some line => rw [Option.map_some, Option.some_inj, Option.some_inj, escaped_eq_nil_iff]
  unfold lines
  rw [splitNewlines_escaped]
  simp only [hlast]
  split_ifs
  · exact List.map_dropLast.symm
  · rfl

theorem dropTail_escaped (cs : List Char) : dropTail isWhite (cs.flatMap escapeChar) =
    (dropTail isWhite cs).flatMap escapeChar := by
  induction cs using List.reverseRecOn with
  | nil => rfl
  | append_singleton cs c ih =>
    rw [List.flatMap_append, List.flatMap_singleton]
    cases hc : isWhite c with
    | true => rw [escapeChar_of_isWhite hc, dropTail_concat hc, dropTail_concat hc, ih]
    | false =>
      have hends {ds : List Char} {d : Char} (hd : isWhite d = false) :
          dropTail isWhite (ds ++ [d]) = ds ++ [d] :=
        dropTail_of_getLast? fun e he => by
          rw [List.getLast?_concat] at he
          exact Option.some.inj he ▸ hd
      obtain ⟨ds, d, hd, hescape⟩ := exists_escapeChar_of_not_isWhite hc
      rw [hends hc, List.flatMap_append, List.flatMap_singleton, hescape, ← List.append_assoc,
        hends hd]

theorem trimLines_escapeText (s : String) :
    trimLines (escapeText s) = escapeText (trimLines s) := by
  have hmap : (lines (s.toList.flatMap escapeChar)).map (dropTail isWhite) =
      ((lines s.toList).map (dropTail isWhite)).map (·.flatMap escapeChar) := by
    rw [lines_escaped, List.map_map, List.map_map]
    exact List.map_congr_left fun line _ => dropTail_escaped line
  rw [trimLines, escapeText, escapeText, trimLines, String.toList_ofList, String.toList_ofList,
    hmap, joinNewlines_escaped]

end Lines

section Reading

theorem unixNewlines_cons (h : ∀ ds, c = '\r' → cs ≠ '\n' :: ds) :
    unixNewlines (c :: cs) = (if c = '\r' then '\n' else c) :: unixNewlines cs := by
  rw [unixNewlines]
  exact h

theorem unixNewlines_append (h : '\r' ∉ cs) (ds : List Char) :
    unixNewlines (cs ++ ds) = cs ++ unixNewlines ds := by
  induction cs with
  | nil => rfl
  | cons c cs ih =>
    rw [List.mem_cons, not_or] at h
    have hc : c ≠ '\r' := Ne.symm h.1
    rw [List.cons_append, unixNewlines_cons fun _ hreturn => absurd hreturn hc, if_neg hc, ih h.2,
      List.cons_append]

theorem unixNewlines_of_not_mem (h : '\r' ∉ cs) : unixNewlines cs = cs := by
  have happend := unixNewlines_append h []
  rwa [List.append_nil, unixNewlines, List.append_nil] at happend

theorem not_mem_unixNewlines (cs : List Char) : '\r' ∉ unixNewlines cs := by
  fun_induction unixNewlines cs with
  | case1 => exact List.not_mem_nil
  | case2 cs ih => simpa using ih
  | case3 c cs _ ih =>
    rw [List.mem_cons, not_or]
    refine ⟨?_, ih⟩
    split_ifs with hc
    · decide
    · exact Ne.symm hc

theorem unixNewlines_escaped (cs : List Char) : unixNewlines (cs.flatMap escapeChar) =
    (unixNewlines cs).flatMap escapeChar := by
  have hreturn : escapeChar '\r' = ['\r'] := by decide
  have hnewline : escapeChar '\n' = ['\n'] := by decide
  fun_induction unixNewlines cs with
  | case1 => rfl
  | case2 cs ih =>
    rw [List.flatMap_cons, List.flatMap_cons, List.flatMap_cons, hreturn, hnewline, ← ih]
    rfl
  | case3 c cs hcs ih =>
    rw [List.flatMap_cons, List.flatMap_cons, ← ih]
    split_ifs with hc
    · subst hc
      rw [hreturn, hnewline, List.singleton_append, List.singleton_append, unixNewlines_cons,
        if_pos rfl]
      rintro ds - hds
      -- a newline at the front of the escaped text is one of the text
      cases cs with
      | nil => cases hds
      | cons d cs =>
        have hd : d ≠ '\n' := fun hd => hcs cs rfl (hd ▸ rfl)
        obtain ⟨e, es, he⟩ := List.exists_cons_of_ne_nil (escapeChar_ne_nil d)
        have hmem : '\n' ∉ escapeChar d := newline_not_mem_escapeChar hd
        rw [List.flatMap_cons, he] at hds
        rw [he, ← (List.cons.inj hds).1] at hmem
        exact hmem List.mem_cons_self
    · exact unixNewlines_append (not_mem_escapeChar_of_ne (by decide) hc) _

/-- A character is decoded from what stands for it. -/
theorem decodeFrom_escapeChar (c : Char) (cs : List Char) :
    decodeFrom 0 (escapeChar c ++ cs) = c :: decodeFrom 0 cs := by
  unfold escapeChar
  split_ifs with hand hlt hgt
  · rw [hand]
    rfl
  · rw [hlt]
    rfl
  · rw [hgt]
    rfl
  · rw [List.singleton_append, decodeFrom, if_neg hand]

theorem decodeReferences_escaped (cs : List Char) :
    decodeReferences (cs.flatMap escapeChar) = cs := by
  induction cs with
  | nil => rfl
  | cons c cs ih =>
    rw [decodeReferences] at ih ⊢
    rw [List.flatMap_cons, decodeFrom_escapeChar, ih]

theorem decodeReferences_of_not_mem {cs : List Char} (h : '&' ∉ cs) : decodeReferences cs = cs := by
  induction cs with
  | nil => rfl
  | cons c cs ih =>
    obtain ⟨hc, hcs⟩ := List.ne_and_not_mem_of_not_mem_cons h
    rw [decodeReferences, decodeFrom, if_neg (Ne.symm hc)]
    exact congrArg (c :: ·) (ih hcs)

end Reading

section Kept

theorem middle_isInfix (cs : List Char) : middle cs <:+: cs := by
  have hsplit := dropTail_append_takeTail isHtmlSpace (cs.dropWhile isHtmlSpace)
  exact (List.IsPrefix.isInfix ⟨_, hsplit⟩).trans (List.dropWhile_suffix _).isInfix

theorem middle_newlines (cs : List Char) (n : Nat) :
    middle (cs ++ List.replicate n '\n') = middle cs := by
  induction n with
  | zero => rw [List.replicate_zero, List.append_nil]
  | succ n ih =>
    rw [List.replicate_succ', ← List.append_assoc, ← ih]
    generalize cs ++ List.replicate n '\n' = ds
    have hnewline : isHtmlSpace '\n' = true := by decide
    unfold middle
    rw [List.dropWhile_append]
    split_ifs with hempty
    · rw [List.isEmpty_iff.mp hempty]
      rfl
    · exact dropTail_concat hnewline _

theorem not_isHtmlSpace_of_not_isWhite (h : isWhite c = false) : isHtmlSpace c = false := by
  by_contra hspace
  rw [isWhite_of_isHtmlSpace (eq_true_of_ne_false hspace)] at h
  cases h

theorem Smooth.middle_eq (h : Smooth cs) : middle cs = cs := by
  rw [middle, dropWhile_of_head? fun c hc => not_isHtmlSpace_of_not_isWhite (h.first c hc),
    dropTail_of_getLast? fun c hc => not_isHtmlSpace_of_not_isWhite (h.last c hc)]

theorem mem_of_mem_splitNewlines {line : List Char} (hline : line ∈ splitNewlines cs)
    (hc : c ∈ line) : c ∈ cs := by
  induction cs generalizing line with
  | nil =>
    rw [splitNewlines, List.mem_singleton] at hline
    rwa [hline] at hc
  | cons d cs ih =>
    obtain ⟨first, rest, hsplit⟩ := List.exists_cons_of_ne_nil (splitNewlines_ne_nil cs)
    rw [splitNewlines, hsplit] at hline
    rw [hsplit] at ih
    split_ifs at hline
    · rcases List.mem_cons.mp hline with rfl | hline
      · cases hc
      · exact List.mem_cons_of_mem d (ih hline hc)
    · rcases List.mem_cons.mp hline with rfl | hline
      · rcases List.mem_cons.mp hc with rfl | hc
        · exact List.mem_cons_self
        · exact List.mem_cons_of_mem d (ih List.mem_cons_self hc)
      · exact List.mem_cons_of_mem d (ih (List.mem_cons_of_mem first hline) hc)

theorem mem_splitNewlines_of_mem_lines {line : List Char} (h : line ∈ lines cs) :
    line ∈ splitNewlines cs := by
  unfold lines at h
  dsimp only at h
  split_ifs at h
  · exact List.dropLast_subset _ h
  · exact h

theorem mem_joinNewlines {ls : List (List Char)} (h : c ∈ joinNewlines ls) :
    c = '\n' ∨ ∃ line ∈ ls, c ∈ line := by
  induction ls with
  | nil => cases h
  | cons line rest ih =>
    cases rest with
    | nil => exact .inr ⟨line, List.mem_cons_self, h⟩
    | cons line' rest =>
      change c ∈ line ++ '\n' :: joinNewlines (line' :: rest) at h
      rw [List.mem_append, List.mem_cons] at h
      rcases h with h | rfl | h
      · exact .inr ⟨line, List.mem_cons_self, h⟩
      · exact .inl rfl
      · exact (ih h).imp_right fun ⟨l, hl, hc⟩ => ⟨l, List.mem_cons_of_mem line hl, hc⟩

/-- Trimming lines adds no character. -/
theorem mem_trimLines (h : c ∈ (trimLines s).toList) : c = '\n' ∨ c ∈ s.toList := by
  rw [trimLines, String.toList_ofList] at h
  refine (mem_joinNewlines h).imp_right ?_
  rintro ⟨_, hmem, hc⟩
  obtain ⟨line, hline, rfl⟩ := List.mem_map.mp hmem
  refine mem_of_mem_splitNewlines (mem_splitNewlines_of_mem_lines hline) ?_
  rw [← dropTail_append_takeTail isWhite line]
  exact List.mem_append_left _ hc

theorem tight_of_not_mem (h : '\n' ∉ cs) : Tight cs := by
  induction cs with
  | nil => exact .nil
  | cons c cs ih =>
    rw [List.mem_cons, not_or] at h
    refine List.isChain_cons.mpr ⟨?_, ih h.2⟩
    rintro d hd rfl
    exact absurd (List.mem_of_mem_head? hd) h.2

theorem tight_joinNewlines {ls : List (List Char)}
    (h : ∀ line ∈ ls, '\n' ∉ line ∧ ∀ c ∈ line.getLast?, isWhite c = false) :
    Tight (joinNewlines ls) := by
  induction ls with
  | nil => exact .nil
  | cons line rest ih =>
    obtain ⟨⟨hline, hlast⟩, hrest⟩ := List.forall_mem_cons.mp h
    cases rest with
    | nil => exact tight_of_not_mem hline
    | cons line' rest =>
      have hbehind : Tight ('\n' :: joinNewlines (line' :: rest)) :=
        List.isChain_cons.mpr ⟨fun _ _ _ _ => rfl, ih hrest⟩
      refine List.isChain_append.mpr ⟨tight_of_not_mem hline, hbehind, fun c hc d _ _ hwhite => ?_⟩
      rw [hlast c hc] at hwhite
      cases hwhite

theorem tight_trimLines (s : String) : Tight (trimLines s).toList := by
  rw [trimLines, String.toList_ofList]
  refine tight_joinNewlines fun _ hmem => ?_
  obtain ⟨line, hline, rfl⟩ := List.mem_map.mp hmem
  refine ⟨fun hmem => ?_, getLast?_dropTail isWhite line⟩
  have hnone := newline_not_mem_of_mem_splitNewlines (mem_splitNewlines_of_mem_lines hline)
  rw [← dropTail_append_takeTail isWhite line] at hnone
  exact hnone (List.mem_append_left _ hmem)

/-- A line that does not end in white space is left as it is. -/
theorem trimLines_of_line (hline : '\n' ∉ s.toList) (hlast : s.toList.getLast? = some c)
    (hc : isWhite c = false) : trimLines s = s := by
  have hne : s.toList ≠ [] := by
    intro hnil
    rw [hnil] at hlast
    cases hlast
  have hlines : lines s.toList = [s.toList] := by
    unfold lines
    rw [splitNewlines_of_not_mem hline]
    exact if_neg fun h => hne (Option.some.inj h)
  have hkept : dropTail isWhite s.toList = s.toList := dropTail_of_getLast? fun d hd => by
    rw [Option.some.inj (hlast.symm.trans hd)] at hc
    exact hc
  rw [trimLines, hlines, List.map_singleton, hkept]
  exact String.ofList_toList

/-- Of a text whose lines end in no white space each line is trimmed. -/
theorem Tight.getLast?_lines (h : Tight cs) (hlast : ∀ c ∈ cs.getLast?, isWhite c = true → c = '\n')
    {line : List Char} (hline : line ∈ splitNewlines cs) :
    ∀ c ∈ line.getLast?, isWhite c = false := by
  have hsolid {line : List Char} (hmem : '\n' ∉ line)
      (hends : ∀ c ∈ line.getLast?, isWhite c = true → c = '\n') :
      ∀ c ∈ line.getLast?, isWhite c = false := by
    intro c hc
    by_contra hwhite
    obtain rfl := hends c hc (eq_true_of_ne_false hwhite)
    exact hmem (List.mem_of_getLast? hc)
  generalize hn : cs.length = n
  induction n using Nat.strongRecOn generalizing cs with
  | ind n ih =>
    rcases splitNewlines_cases cs with ⟨hmem, hsplit⟩ | ⟨first, rest, hmem, rfl, hsplit⟩
    · rw [hsplit, List.mem_singleton] at hline
      rw [hline]
      exact hsolid hmem hlast
    · obtain ⟨-, hrest, hjoin⟩ := List.isChain_append.mp h
      rw [hsplit] at hline
      rcases List.mem_cons.mp hline with rfl | hline
      · exact hsolid hmem fun c hc hwhite => hjoin c hc '\n' rfl rfl hwhite
      · refine ih rest.length (by simp [← hn]; omega) (Tight.tail hrest) (fun c hc => ?_) hline rfl
        exact hlast c (by simp [List.getLast?_append, List.getLast?_cons, Option.mem_def.mp hc])

theorem joinNewlines_concat {ls : List (List Char)} (h : ls ≠ []) (line : List Char) :
    joinNewlines (ls ++ [line]) = joinNewlines ls ++ '\n' :: line := by
  induction ls with
  | nil => exact absurd rfl h
  | cons first rest ih =>
    cases rest with
    | nil => rfl
    | cons next rest =>
      change first ++ '\n' :: joinNewlines (next :: rest ++ [line]) = _
      rw [ih (List.cons_ne_nil next rest)]
      change _ = (first ++ '\n' :: joinNewlines (next :: rest)) ++ '\n' :: line
      rw [List.append_assoc, List.cons_append]

/-- The lines of a text are the text up to newlines at its end. -/
theorem joinNewlines_lines (cs : List Char) :
    ∃ n, joinNewlines (lines cs) ++ List.replicate n '\n' = cs := by
  have hjoin := joinNewlines_splitNewlines cs
  unfold lines
  dsimp only
  split_ifs with hlast
  · obtain ⟨ls, hls⟩ := List.getLast?_eq_some_iff.mp hlast
    rw [hls] at hjoin
    rw [hls, List.dropLast_concat]
    by_cases hne : ls = []
    · subst hne
      exact ⟨0, hjoin⟩
    · rw [joinNewlines_concat hne] at hjoin
      exact ⟨1, hjoin⟩
  · exact ⟨0, by rw [hjoin, List.replicate_zero, List.append_nil]⟩

theorem middle_trimLines (h : Tight s.toList)
    (hlast : ∀ c ∈ s.toList.getLast?, isWhite c = true → c = '\n') :
    middle (trimLines s).toList = middle s.toList := by
  have hkept : (lines s.toList).map (dropTail isWhite) = lines s.toList :=
    (List.map_congr_left fun line hline => dropTail_of_getLast?
      (h.getLast?_lines hlast (mem_splitNewlines_of_mem_lines hline))).trans (List.map_id' _)
  obtain ⟨n, hn⟩ := joinNewlines_lines s.toList
  rw [trimLines, String.toList_ofList, hkept, ← middle_newlines _ n, hn]

/-- Trimmed lines without carriage returns are laid out smooth. -/
theorem smooth_trimLines (h : '\r' ∉ s.toList) :
    Smooth (flowChars false (middle (unixNewlines (trimLines s).toList))) := by
  have hreturn : '\r' ∉ (trimLines s).toList := fun hmem =>
    (mem_trimLines hmem).elim (by decide) h
  rw [unixNewlines_of_not_mem hreturn]
  exact smooth_flowChars ((tight_trimLines s).of_isInfix (middle_isInfix _)) fun hmem =>
    hreturn ((middle_isInfix _).subset hmem)

theorem not_mem_flowChars_unixNewlines (cs : List Char) :
    '\r' ∉ flowChars false (middle (unixNewlines cs)) := fun hmem =>
  (mem_flowChars hmem).elim
    (fun hmem => not_mem_unixNewlines cs ((middle_isInfix _).subset hmem)) (by decide)

theorem trimNewlinesEnd_newlines (h : ∀ c ∈ cs.getLast?, c ≠ '\n') (n : Nat) :
    trimNewlinesEnd (String.ofList (cs ++ List.replicate n '\n')) = String.ofList cs := by
  have hends : dropTail isNewlineChar cs = cs := dropTail_of_getLast? fun c hc =>
    beq_eq_false_iff_ne.mpr (h c hc)
  rw [trimNewlinesEnd, String.toList_ofList]
  congr 1
  induction n with
  | zero => rw [List.replicate_zero, List.append_nil, hends]
  | succ n ih => rw [List.replicate_succ', ← List.append_assoc, dropTail_concat (by decide), ih]

/-- Nothing is left of the lines of a blank text. -/
theorem middle_trimLines_of_isBlank (h : isBlank s = true) :
    middle (unixNewlines (trimLines s).toList) = [] := by
  have hwhite : ∀ c ∈ s.toList, isWhite c = true := List.all_eq_true.mp h
  have hnewlines : ∀ c ∈ (trimLines s).toList, c = '\n' := by
    intro c hc
    rw [trimLines, String.toList_ofList] at hc
    refine (mem_joinNewlines hc).elim id ?_
    rintro ⟨_, hmem, hc⟩
    obtain ⟨line, hline, rfl⟩ := List.mem_map.mp hmem
    have hline : ∀ d ∈ line, isWhite d = true := fun d hd =>
      hwhite d (mem_of_mem_splitNewlines (mem_splitNewlines_of_mem_lines hline) hd)
    have hempty : dropTail isWhite line = [] := by
      rw [dropTail, List.dropWhile_eq_nil_iff.mpr fun d hd => hline d (List.mem_reverse.mp hd)]
      rfl
    rw [hempty] at hc
    cases hc
  obtain ⟨n, hn⟩ : ∃ n, (trimLines s).toList = List.replicate n '\n' :=
    ⟨_, List.eq_replicate_iff.mpr ⟨rfl, hnewlines⟩⟩
  have hreturn : '\r' ∉ List.replicate n '\n' := fun hmem =>
    absurd (List.eq_of_mem_replicate hmem) (by decide)
  rw [hn, unixNewlines_of_not_mem hreturn]
  exact middle_newlines [] n

theorem isBlank_of_escapeText (h : isBlank (escapeText s) = true) : isBlank s = true := by
  refine List.all_eq_true.mpr fun c hc => ?_
  by_contra hwhite
  obtain ⟨ds, d, hd, hescape⟩ := exists_escapeChar_of_not_isWhite (eq_false_of_ne_true hwhite)
  have hmem : d ∈ (escapeText s).toList := by
    rw [escapeText, String.toList_ofList]
    exact List.mem_flatMap.mpr ⟨c, hc, by simp [hescape]⟩
  rw [List.all_eq_true.mp h d hmem] at hd
  cases hd

theorem exists_newlines (s : String) :
    ∃ n, s.toList = (trimNewlinesEnd s).toList ++ List.replicate n '\n' := by
  have hnewlines : takeTail isNewlineChar s.toList =
      List.replicate (takeTail isNewlineChar s.toList).length '\n' := by
    refine List.eq_replicate_iff.mpr ⟨rfl, fun c hc => ?_⟩
    have hnewline : isNewlineChar c = true := List.mem_takeWhile_imp (List.mem_reverse.mp hc)
    exact eq_of_beq hnewline
  refine ⟨(takeTail isNewlineChar s.toList).length, ?_⟩
  rw [← hnewlines, trimNewlinesEnd, String.toList_ofList, dropTail_append_takeTail]

/-- A text that ends as an escaped one is that one, with newlines behind it. -/
theorem exists_eq_escapeText {v : List Char}
    (h : trimNewlinesEnd s = String.ofList (v.flatMap escapeChar)) :
    ∃ n, s = escapeText (String.ofList (v ++ List.replicate n '\n')) := by
  obtain ⟨n, hn⟩ := exists_newlines s
  refine ⟨n, String.toList_inj.mp ?_⟩
  rw [hn, h, escapeText, String.toList_ofList, String.toList_ofList, String.toList_ofList,
    List.flatMap_append, flatMap_escapeChar_replicate (by decide)]

/-- Of a smooth text and newlines behind it the text is left. -/
theorem Smooth.middle_trimLines (h : Smooth cs) (n : Nat) :
    middle (unixNewlines (trimLines (String.ofList (cs ++ List.replicate n '\n'))).toList) =
      cs := by
  have htight : Tight (cs ++ List.replicate n '\n') := by
    refine List.isChain_append.mpr ⟨h.tight, List.isChain_replicate_of_rel n fun _ _ => rfl, ?_⟩
    intro c hc d _ _ hwhite
    rw [h.last c hc] at hwhite
    cases hwhite
  have hlast : ∀ c ∈ (cs ++ List.replicate n '\n').getLast?, isWhite c = true → c = '\n' := by
    intro c hc hwhite
    cases n with
    | zero =>
      rw [List.replicate_zero, List.append_nil] at hc
      rw [h.last c hc] at hwhite
      cases hwhite
    | succ n =>
      rw [List.replicate_succ', ← List.append_assoc, List.getLast?_concat] at hc
      exact (Option.some.inj hc).symm
  have hreturn : '\r' ∉ (trimLines (String.ofList (cs ++ List.replicate n '\n'))).toList :=
    fun hmem => (mem_trimLines hmem).elim (by decide) (by simpa using h.unix)
  rw [unixNewlines_of_not_mem hreturn, Text.middle_trimLines (by rwa [String.toList_ofList])
    (by rwa [String.toList_ofList]), String.toList_ofList, middle_newlines, h.middle_eq]

/-- Where an escaped text is read as its lines, laid out, reading gives the text, up to the newlines
at its end, exactly when it is an escaped smooth text. -/
theorem kept_iff_smooth (s : String) (hescaped : ∃ v : List Char, cs = v.flatMap escapeChar)
    (hread : ∀ u, s = escapeText u →
      cs = (flowChars false (middle (unixNewlines (trimLines u).toList))).flatMap escapeChar) :
    String.ofList cs = trimNewlinesEnd s ↔
      ∃ u, trimNewlinesEnd s = escapeText u ∧ Smooth u.toList := by
  have hlaid {v : List Char} (h : trimNewlinesEnd s = String.ofList (v.flatMap escapeChar)) :
      ∃ u, s = escapeText u ∧ ('\r' ∉ v → '\r' ∉ u.toList) := by
    obtain ⟨n, hs⟩ := exists_eq_escapeText h
    exact ⟨_, hs, fun hv => by simpa using hv⟩
  constructor
  · intro h
    obtain ⟨v, rfl⟩ := hescaped
    obtain ⟨u, hu, -⟩ := hlaid h.symm
    -- what is read has no carriage returns, so neither has what is read from it once more
    obtain ⟨u', hu', hreturn⟩ := hlaid (h.symm.trans (congrArg String.ofList (hread u hu)))
    refine ⟨String.ofList (flowChars false (middle (unixNewlines (trimLines u').toList))), ?_, ?_⟩
    · rw [escapeText, String.toList_ofList, ← hread u' hu', h]
    · rw [String.toList_ofList]
      exact smooth_trimLines (hreturn (not_mem_flowChars_unixNewlines _))
  · rintro ⟨u, hu, hsmooth⟩
    rw [escapeText] at hu
    obtain ⟨n, hs⟩ := exists_eq_escapeText hu
    rw [hread _ hs, hsmooth.middle_trimLines n, hsmooth.flowChars, hu]

end Kept

end HtmlMarkdown.Text
