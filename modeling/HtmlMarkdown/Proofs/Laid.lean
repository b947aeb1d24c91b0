import HtmlMarkdown.Markdown.Layout
import HtmlMarkdown.Proofs.Carried

/-!
# What the layout carries over

Behind the spacing pass the layout sets newlines around rules, indents the texts and trims both
ends of the stream. A passive reading that these changes to a text do not alter reads the same in
the stream that is laid out, and what is innate and survives them holds there of every token.
-/

namespace HtmlMarkdown.Markdown

variable {α : Type} {read : Token → Option α} {P : Token → Prop} {t : Token} {ts : List Token}

theorem mapText_eq_self {f : String → String} (h : ∀ s ∈ t.text?, f s = s) : t.mapText f = t := by
  obtain ⟨node, depth, flag⟩ := t
  cases node with
  | markdown tag data => simp [Token.mapText, h data rfl]
  | native edge raw => rfl
  | html raw =>
    unfold Token.mapText
    dsimp only
    split_ifs with htag
    · rfl
    · have htext : raw.text.map f = raw.text := by
        cases hraw : raw.text with
        | none => rfl
        | some s => exact congrArg some (h s (by simp [Token.text?, htag, hraw]))
      rw [htext]

theorem filterMap_dropWhile {p : Token → Bool} (hp : ∀ t, p t = true → read t = none)
    (ts : List Token) : (ts.dropWhile p).filterMap read = ts.filterMap read := by
  induction ts with
  | nil => rfl
  | cons t ts ih =>
    by_cases ht : p t = true
    · rw [List.dropWhile_cons_of_pos ht, ih, List.filterMap_cons_none (hp t ht)]
    · rw [List.dropWhile_cons_of_neg ht]

/-- The newlines around rules are not seen. -/
theorem Passive.layRules (h : Passive read) (ts : List Token) :
    (layRules ts).filterMap read = ts.filterMap read := by
  induction ts with
  | nil => rfl
  | cons t ts ih =>
    have hnewline : read { Token.newline.within t.quoteDepth with inCode := t.inCode } = none :=
      (h.blind.relabelled .newline _ _).trans (h.whitespace .newline .newline rfl rfl)
    rw [Markdown.layRules, List.flatMap_cons, List.filterMap_append, ← Markdown.layRules, ih,
      filterMap_cons_eq read t ts]
    congr 1
    unfold ruleLines
    split_ifs
    · rw [List.filterMap_cons_none hnewline, filterMap_cons_eq, List.filterMap_cons_none hnewline]
      exact List.append_nil _
    · exact (filterMap_cons_eq read t []).trans (List.append_nil _)

structure Enduring (read : Token → Option α) : Prop where
  passive : Passive read
  indent : ∀ t, read (indentToken t) = read t
  trimStart : ∀ t, read (t.mapText trimNewlinesStart) = read t
  trimEnd : ∀ t, read (t.mapText trimNewlinesEnd) = read t
  leading : ∀ t, isLeadingSpace t = true → read t = none

/-- A passive reading that sees no token with a text. -/
theorem Enduring.of_textless (h : Passive read)
    (htext : ∀ t, t.text?.isSome = true → read t = none) : Enduring read := by
  have hmap (t : Token) (f : String → String) : read (t.mapText f) = read t := by
    cases ht : t.text? with
    | none => rw [mapText_eq_self (by simp [ht])]
    | some s => rw [htext t (by simp [ht]), htext _ (by rw [Token.text?_mapText, ht]; rfl)]
  refine ⟨h, fun t => hmap t _, fun t => hmap t _, fun t => hmap t _, fun t ht => ?_⟩
  obtain ⟨node, depth, flag⟩ := t
  cases node with
  | markdown tag data => exact htext _ rfl
  | native edge raw => cases ht
  | html raw =>
    by_cases hspace : raw.kind = .spaceCharacters
    · exact h.rawSpace _ raw rfl hspace
    · refine htext _ ?_
      have hlines : isNewlinesOnly
          { node := .html raw, quoteDepth := depth, inCode := flag } = true := by
        simpa [isLeadingSpace, Token.isPureSpace, hspace] using ht
      unfold isNewlinesOnly at hlines
      cases hs : Token.text? { node := .html raw, quoteDepth := depth, inCode := flag } with
      | none => simp [hs] at hlines
      | some s => rfl

namespace Enduring

variable (h : Enduring read)
include h

theorem isPureSpace (ht : t.isPureSpace = true) : read t = none :=
  h.leading t (by simp [isLeadingSpace, ht])

theorem indentAll (ts : List Token) : (indentAll ts).filterMap read = ts.filterMap read := by
  rw [Markdown.indentAll, List.filterMap_map]
  exact List.filterMap_congr fun t _ => h.indent t

theorem trimLeading (ts : List Token) :
    (Markdown.trimStart ts).filterMap read = ts.filterMap read := by
  rw [← filterMap_dropWhile h.leading ts]
  unfold Markdown.trimStart
  cases ts.dropWhile isLeadingSpace with
  | nil => rfl
  | cons first rest => rw [filterMap_cons_eq, filterMap_cons_eq, h.trimStart]

theorem trimTrailing (ts : List Token) :
    (Markdown.trimEnd ts).filterMap read = ts.filterMap read := by
  have hreverse : ((ts.reverse.dropWhile (·.isPureSpace)).filterMap read).reverse =
      ts.filterMap read := by
    rw [filterMap_dropWhile (fun _ => h.isPureSpace), List.filterMap_reverse, List.reverse_reverse]
  rw [← hreverse]
  unfold Markdown.trimEnd
  cases ts.reverse.dropWhile (·.isPureSpace) with
  | nil => rfl
  | cons last earlier =>
    dsimp only
    rw [List.filterMap_reverse, filterMap_cons_eq, filterMap_cons_eq]
    split_ifs
    · rfl
    · rw [h.trimEnd]

/-- The layout keeps what an enduring reading sees. -/
theorem layout (ts : List Token) : (layout ts).filterMap read = ts.filterMap read := by
  rw [Markdown.layout, Markdown.trim, h.trimTrailing, h.trimLeading, h.indentAll,
    h.passive.layRules, h.passive.space]

end Enduring

structure Lasting (P : Token → Prop) : Prop where
  innate : Innate P
  indent : ∀ t, P t → P (indentToken t)
  trimStart : ∀ t, P t → P (t.mapText trimNewlinesStart)
  trimEnd : ∀ t, P t → P (t.mapText trimNewlinesEnd)

/-- What lasts and holds before the layout holds behind it. -/
theorem Lasting.layout (h : Lasting P) (hts : ∀ t ∈ ts, P t) : ∀ u ∈ layout ts, P u := by
  have hrules : ∀ u ∈ layRules (space ts), P u := by
    intro u hu
    obtain ⟨t, ht, hu⟩ := List.mem_flatMap.mp hu
    have hPt := h.innate.space hts t ht
    have hnewline : P { Token.newline.within t.quoteDepth with inCode := t.inCode } :=
      h.innate.node _ _ (Token.node_within _ _) h.innate.newline
    unfold ruleLines at hu
    split_ifs at hu
    · simp only [List.mem_cons, List.not_mem_nil, or_false] at hu
      rcases hu with rfl | rfl | rfl
      · exact hnewline
      · exact hPt
      · exact hnewline
    · exact List.mem_singleton.mp hu ▸ hPt
  have hindented : ∀ u ∈ indentAll (layRules (space ts)), P u := by
    intro u hu
    obtain ⟨t, ht, rfl⟩ := List.mem_map.mp hu
    exact h.indent t (hrules t ht)
  have hstart : ∀ u ∈ Markdown.trimStart (indentAll (layRules (space ts))), P u := by
    unfold Markdown.trimStart
    have hkept := fun u hu => hindented u
      ((List.dropWhile_sublist Markdown.isLeadingSpace).subset hu)
    split
    · exact List.forall_mem_nil _
    · next first rest heq =>
      rw [heq] at hkept
      obtain ⟨hfirst, hrest⟩ := List.forall_mem_cons.mp hkept
      exact List.forall_mem_cons.mpr ⟨h.trimStart first hfirst, hrest⟩
  intro u hu
  unfold Markdown.layout Markdown.trim Markdown.trimEnd at hu
  have hkept := fun u hu => hstart u
    (List.mem_reverse.mp ((List.dropWhile_sublist (·.isPureSpace)).subset hu))
  split at hu
  · cases hu
  · next last earlier heq =>
    rw [heq] at hkept
    obtain ⟨hlast, hearlier⟩ := List.forall_mem_cons.mp hkept
    rcases List.mem_cons.mp (List.mem_reverse.mp hu) with rfl | hu
    · split_ifs
      · exact hlast
      · exact h.trimEnd last hlast
    · exact hearlier u hu

end HtmlMarkdown.Markdown
