import HtmlMarkdown.Markdown.Render
import HtmlMarkdown.Proofs.Emitted
import HtmlMarkdown.Proofs.Prose
import Mathlib.Algebra.Ring.Nat

/-!
# Opening brackets in a rendered text

In a stream of texts, spaces and Markdown marks only the links are written with a `<`: the text of
a document is escaped, and no mark has one. So the text that such a stream is rendered as has as
many of them as its links, and the layout does not change that number.
-/

namespace HtmlMarkdown

namespace Text

def angles (s : String) : Nat := s.toList.count '<'

theorem angles_append (s s' : String) : angles (s ++ s') = angles s + angles s' := by
  rw [angles, String.toList_append, List.count_append]
  rfl

theorem angles_eq_zero {s : String} : angles s = 0 ↔ '<' ∉ s.toList := List.count_eq_zero

theorem not_mem_escapeChar (c : Char) : '<' ∉ escapeChar c := by
  unfold escapeChar
  split_ifs with _ hc
  · decide
  · decide
  · decide
  · simpa using Ne.symm hc

theorem not_mem_escapeQuoted (depth markers : Nat) (cs : List Char) :
    '<' ∉ escapeQuoted depth markers cs := by
  fun_induction escapeQuoted depth markers cs with
  | case1 => exact List.not_mem_nil
  | case2 cs ih =>
    rw [List.mem_append, List.mem_cons]
    rintro (h | h | h)
    · exact not_mem_escapeChar '>' h
    · exact absurd h (by decide)
    · exact ih h
  | case3 n cs ih => simpa using ih
  | case4 markers c cs hc ih =>
    rw [List.mem_append, not_or]
    exact ⟨not_mem_escapeChar c, ih⟩

theorem count_dropWhile {p : Char → Bool} {c : Char} (hc : p c = false) (cs : List Char) :
    (cs.dropWhile p).count c = cs.count c := by
  induction cs with
  | nil => rfl
  | cons d cs ih =>
    by_cases hd : p d = true
    · have hne : d ≠ c := by
        rintro rfl
        rw [hd] at hc
        cases hc
      rw [List.dropWhile_cons_of_pos hd, ih, List.count_cons_of_ne hne]
    · rw [List.dropWhile_cons_of_neg hd]

theorem angles_trimNewlinesStart (s : String) :
    angles (Markdown.trimNewlinesStart s) = angles s := by
  rw [angles, Markdown.trimNewlinesStart, String.toList_ofList, count_dropWhile (by decide)]
  rfl

theorem angles_trimNewlinesEnd (s : String) : angles (Markdown.trimNewlinesEnd s) = angles s := by
  rw [angles, Markdown.trimNewlinesEnd, String.toList_ofList, dropTail, List.count_reverse,
    count_dropWhile (by decide), List.count_reverse]
  rfl

theorem angles_indentLines {head : List Char} (hhead : '<' ∉ head) (s : String) :
    angles (Markdown.indentLines head s) = angles s := by
  rw [angles, angles, Markdown.indentLines, String.toList_ofList]
  induction s.toList with
  | nil => rfl
  | cons c cs ih =>
    rw [List.flatMap_cons, List.count_append, ih, List.count_cons, Nat.add_comm]
    congr 1
    by_cases hc : c = '\n'
    · subst hc
      rw [if_pos rfl, List.count_cons_of_ne (by decide), List.count_eq_zero.mpr hhead]
      rfl
    · rw [if_neg hc, List.count_singleton]

end Text

namespace Markdown

def Token.linkAngles (t : Token) : Nat :=
  match t.node with
  | .markdown .anchorInline data => Text.angles data
  | _ => 0

/-- The token is written without a `<`, unless it is a link. -/
def Token.Guarded (t : Token) : Prop :=
  match t.node with
  | .markdown tag data => tag = .charactersSplit ∨ tag = .anchorInline ∨ Text.angles data = 0
  | .native _ _ => False
  | .html raw => raw.kind = .characters ∨ raw.kind = .spaceCharacters ∧ Text.angles raw.content = 0

def Token.linkAngles? (t : Token) : Option Nat :=
  if t.linkAngles = 0 then none else some t.linkAngles

variable {t u : Token} {ts : List Token}

theorem Token.linkAngles_of_node (h : u.node = t.node) : u.linkAngles = t.linkAngles := by
  unfold Token.linkAngles
  rw [h]

theorem Token.Guarded.of_node (h : u.node = t.node) (ht : t.Guarded) : u.Guarded := by
  unfold Token.Guarded
  rw [h]
  exact ht

theorem Token.linkAngles_of_tag? {tag : Tag} (h : t.tag? = some tag) (hlink : tag ≠ .anchorInline) :
    t.linkAngles = 0 := by
  obtain ⟨node, depth, flag⟩ := t
  cases node with
  | markdown tag' data =>
    obtain rfl : tag' = tag := by simpa [Token.tag?] using h
    unfold Token.linkAngles
    cases tag' <;> first | rfl | contradiction
  | native edge raw => rfl
  | html raw => rfl

theorem Token.linkAngles_of_angles {tag : Tag} {data : String} (h : t.node = .markdown tag data)
    (hdata : Text.angles data = 0) : t.linkAngles = 0 := by
  unfold Token.linkAngles
  rw [h]
  cases tag <;> first | rfl | exact hdata

theorem Token.count_chars (h : t.Guarded) : (t.chars none).count '<' = t.linkAngles := by
  obtain ⟨node, depth, flag⟩ := t
  have hescaped (markers : Nat) (cs : List Char) :
      (Text.escapeQuoted markers 0 cs).count '<' = 0 :=
    List.count_eq_zero.mpr (Text.not_mem_escapeQuoted markers 0 cs)
  cases node with
  | native edge raw => cases h
  | html raw =>
    rcases h with hk | ⟨hk, hraw⟩
    · simp [Token.chars, htmlChars, hk, hescaped, Token.linkAngles]
    · have hcontent : raw.content.toList.count '<' = 0 := hraw
      simp [Token.chars, htmlChars, hk, hcontent, Token.linkAngles]
  | markdown tag data =>
    rcases h with rfl | rfl | hdata
    · exact hescaped _ _
    · rfl
    · rw [Token.linkAngles_of_angles rfl hdata]
      unfold Token.chars
      dsimp only
      split
      · exact hescaped _ _
      · exact hdata
      · exact hdata

theorem Token.rawTextAfter_of_guarded (h : t.Guarded) : t.rawTextAfter none = none := by
  obtain ⟨node, depth, flag⟩ := t
  cases node with
  | native edge raw => cases h
  | html raw =>
    rcases h with hk | ⟨hk, -⟩ <;>
      simp [Token.rawTextAfter, Token.raw?, Markdown.rawTextAfter, hk]
  | markdown tag data => rfl

/-- A guarded stream is rendered with as many `<` as its links have. -/
theorem count_renderChars (h : ∀ t ∈ ts, t.Guarded) :
    (renderChars none ts).count '<' = (ts.map Token.linkAngles).sum := by
  induction ts with
  | nil => rfl
  | cons t ts ih =>
    obtain ⟨ht, hts⟩ := List.forall_mem_cons.mp h
    rw [renderChars, List.count_append, Token.count_chars ht, Token.rawTextAfter_of_guarded ht,
      ih hts, List.map_cons, List.sum_cons]

theorem sum_linkAngles? (ts : List Token) :
    (ts.filterMap Token.linkAngles?).sum = (ts.map Token.linkAngles).sum := by
  induction ts with
  | nil => rfl
  | cons t ts ih =>
    rw [List.map_cons, List.sum_cons, ← ih, List.filterMap_cons]
    unfold Token.linkAngles?
    split_ifs with h
    · simp [h]
    · rfl

section

variable {f : String → String} (hf : ∀ s, Text.angles (f s) = Text.angles s)
include hf

theorem Token.linkAngles_mapText (t : Token) : (t.mapText f).linkAngles = t.linkAngles := by
  obtain ⟨node, depth, flag⟩ := t
  cases node with
  | markdown tag data =>
    unfold Token.linkAngles Token.mapText
    cases tag <;> first | rfl | exact hf data
  | native edge raw => rfl
  | html raw =>
    unfold Token.mapText
    dsimp only
    split_ifs <;> rfl

theorem Token.Guarded.mapText (h : t.Guarded) : (t.mapText f).Guarded := by
  obtain ⟨node, depth, flag⟩ := t
  cases node with
  | markdown tag data => exact h.imp_right fun h => h.imp_right (hf data).trans
  | native edge raw => exact h
  | html raw =>
    unfold Token.mapText
    dsimp only
    split_ifs
    · exact h
    · refine h.imp_right fun ⟨hk, hcontent⟩ => ⟨hk, ?_⟩
      unfold Html.Token.content at hcontent ⊢
      cases hraw : raw.text with
      | none => rfl
      | some s =>
        rw [hraw] at hcontent
        exact (hf s).trans hcontent

end

theorem Token.linkAngles_of_isLeadingSpace (h : isLeadingSpace t = true) : t.linkAngles = 0 := by
  obtain ⟨node, depth, flag⟩ := t
  cases node with
  | native edge raw => rfl
  | html raw => rfl
  | markdown tag data =>
    by_cases htag : tag = .anchorInline
    · subst htag
      have hlines : data.toList.all isNewlineChar = true := by
        simp only [isLeadingSpace, Token.isPureSpace, isNewlinesOnly, Token.text?,
          Option.any_some, Bool.or_eq_true, Bool.and_eq_true] at h
        exact (h.resolve_left (by simp)).2
      exact List.count_eq_zero.mpr fun hmem =>
        absurd (List.all_eq_true.mp hlines '<' hmem) (by decide)
    · exact Token.linkAngles_of_tag? rfl htag

/-- The layout leaves the `<` of every link that has any. -/
theorem enduring_linkAngles? : Enduring Token.linkAngles? := by
  have hnone {t : Token} (h : t.linkAngles = 0) : t.linkAngles? = none := if_pos h
  have htag (t : Token) (tag : Tag) (h : t.tag? = some tag) (hlink : tag ≠ .anchorInline) :
      t.linkAngles? = none := hnone (Token.linkAngles_of_tag? h hlink)
  have hmap {f : String → String} (hf : ∀ s, Text.angles (f s) = Text.angles s) (t : Token) :
      (t.mapText f).linkAngles? = t.linkAngles? := by
    unfold Token.linkAngles?
    rw [Token.linkAngles_mapText hf]
  exact
    { passive :=
        { node := fun t u h => by rw [Token.linkAngles?, Token.linkAngles_of_node h]; rfl
          whitespace := fun t tag h hw => htag t tag h (by rintro rfl; cases hw)
          mark := fun t tag h hm _ => htag t tag h (by rintro rfl; cases hm)
          delimiter := rfl
          rawSpace := fun t raw hnode _ => hnone (by rw [Token.linkAngles, hnode]) }
      indent := fun t => hmap (Text.angles_indentLines (not_mem_lineHead (by decide) _ _)) t
      trimStart := hmap Text.angles_trimNewlinesStart
      trimEnd := hmap Text.angles_trimNewlinesEnd
      leading := fun t ht => hnone (Token.linkAngles_of_isLeadingSpace ht) }

theorem lasting_guarded : Lasting Token.Guarded where
  innate :=
    { node := fun _ _ h ht => ht.of_node h
      newline := .inr (.inr (by decide))
      newlineBlank := .inr (.inr (by decide))
      delimiter := .inr (.inr (by decide)) }
  indent _ h := h.mapText (Text.angles_indentLines (not_mem_lineHead (by decide) _ _))
  trimStart _ h := h.mapText Text.angles_trimNewlinesStart
  trimEnd _ h := h.mapText Text.angles_trimNewlinesEnd

end Markdown

end HtmlMarkdown
