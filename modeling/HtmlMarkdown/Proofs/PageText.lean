import HtmlMarkdown.Proofs.PageSpacing

/-!
# The text of a page

The spaced stream of a page is its lines, each behind a newline and the head of the line. Trimming
takes the newline in front of the first line away, and nothing else.
-/

namespace HtmlMarkdown

open Markdown (Token Tag renderChars)

theorem Text.escapeQuoted_of_not_mem {cs : List Char} (depth : Nat) (h : '\n' ∉ cs) :
    escapeQuoted depth 0 cs = cs.flatMap escapeChar := by
  have hgeneral (markers : Nat) (hm : markers = 0) :
      escapeQuoted depth markers cs = cs.flatMap escapeChar := by
    fun_induction escapeQuoted depth markers cs with
    | case1 => rfl
    | case2 cs ih =>
      rw [List.mem_cons, List.mem_cons, not_or, not_or] at h
      simp [ih h.2.2 rfl, escapeChar]
    | case3 => omega
    | case4 markers c cs hc ih =>
      rw [List.mem_cons, not_or] at h
      rw [List.flatMap_cons, ih h.2 (if_neg (Ne.symm h.1))]
  exact hgeneral 0 rfl

namespace Markdown

def indented (ts : List Token) : List Token := indentAll (layRules ts)

theorem indented_append (ts us : List Token) :
    indented (ts ++ us) = indented ts ++ indented us := by
  simp [indented, layRules, indentAll]

def indentChars (head cs : List Char) : List Char :=
  cs.flatMap fun c => if c = '\n' then '\n' :: head else [c]

theorem indentChars_newline (head cs : List Char) :
    indentChars head ('\n' :: cs) = '\n' :: head ++ indentChars head cs := rfl

theorem indentChars_of_not_mem (head : List Char) {cs : List Char} (h : '\n' ∉ cs) :
    indentChars head cs = cs := by
  have hkeep : ∀ c ∈ cs, (if c = '\n' then '\n' :: head else [c]) = [c] := by
    intro c hc
    have hne : c ≠ '\n' := fun heq => h (heq ▸ hc)
    exact if_neg hne
  rw [indentChars, List.flatMap_congr hkeep]
  exact List.flatMap_singleton' cs

theorem toList_indentLines (head : List Char) (s : String) :
    (indentLines head s).toList = indentChars head s.toList := String.toList_ofList

variable {t : Token} {ts : List Token} {tag : Tag} {data : String}

theorem renderChars_literal (h : t.node = .markdown tag data) (hkind : tag.renderKind ≠ .text)
    (us : List Token) : renderChars none (t :: us) = data.toList ++ renderChars none us := by
  obtain ⟨node, depth, inCode⟩ := t
  subst h
  rw [renderChars]
  simp only [Token.chars, Token.rawTextAfter, Token.raw?]
  cases hk : tag.renderKind with
  | text => exact absurd hk hkind
  | literal | space => rfl

theorem node_mapText (h : t.node = .markdown tag data) (f : String → String) :
    (t.mapText f).node = .markdown tag (f data) := by
  simp [Token.mapText, h]

theorem indented_cons (h : t.hasTag .horizontalRule = false) (ts : List Token) :
    indented (t :: ts) = indentToken t :: indented ts := by
  simp [indented, layRules, ruleLines, h, indentAll]

theorem indentLines_of_not_mem (head : List Char) {s : String} (hs : '\n' ∉ s.toList) :
    indentLines head s = s := by
  rw [← String.toList_inj, toList_indentLines, indentChars_of_not_mem head hs]

theorem markers_within (h : t.quoteDepth = none) (depth : Nat) :
    (t.within (some depth)).markers = depth := by
  rw [Token.markers, Token.quoteDepth_within h]
  cases depth <;> rfl

/-- What a newline of so many quotes puts behind itself. -/
def marks (depth : Nat) : List Char := lineHead depth false

theorem toList_newline : "\n".toList = ['\n'] := by decide

theorem toList_headingMark (level : Nat) : ("\n" ++ repeated level "#" ++ " ").toList =
    '\n' :: (List.replicate level '#' ++ [' ']) := by
  simp [repeated]

theorem not_mem_headingMark (level : Nat) : '\n' ∉ List.replicate level '#' ++ [' '] := by
  simp [List.mem_replicate]

end Markdown

structure Options.OnOneLine (o : Options) : Prop where
  valid : o.Valid
  rule : '\n' ∉ o.rule.toList

theorem Options.OnOneLine.bullet {o : Options} (h : o.OnOneLine) : o.bullet ≠ '\n' := by
  intro hnewline
  exact absurd (hnewline ▸ h.valid.bullet) (by decide)

theorem Options.OnOneLine.rule_ne {o : Options} (h : o.OnOneLine) : o.rule ≠ "" := by
  intro hempty
  exact absurd (hempty ▸ h.valid.rule) (by decide)

namespace Markdown

def Opens (t : Token) : Prop := ∃ tag data cs, t.node = .markdown tag data ∧
  tag.renderKind ≠ .text ∧ t.isPureSpace = false ∧ data.toList = '\n' :: cs ∧ '\n' ∉ cs

def Stays (t : Token) : Prop := isLeadingSpace t = false ∧ t.mapText trimNewlinesStart = t

theorem not_mem_lineHead {c : Char} (hc : c ∉ ['>', ' ']) (depth : Nat) (inCode : Bool) :
    c ∉ lineHead depth inCode := by
  have hmarks : c ∉ (List.replicate depth ['>', ' ']).flatten := by
    intro h
    obtain ⟨l, hl, hmem⟩ := List.mem_flatten.mp h
    exact hc (List.eq_of_mem_replicate hl ▸ hmem)
  rw [lineHead, List.mem_append, not_or]
  refine ⟨hmarks, ?_⟩
  cases inCode
  · exact List.not_mem_nil
  · simp_all

theorem dropWhile_isNewlineChar {cs : List Char} (h : '\n' ∉ cs) :
    cs.dropWhile isNewlineChar = cs := by
  cases cs with
  | nil => rfl
  | cons c cs =>
    have hc : isNewlineChar c = false := by
      rw [List.mem_cons, not_or] at h
      simpa [isNewlineChar] using Ne.symm h.1
    rw [List.dropWhile_cons, hc, if_neg Bool.false_ne_true]

theorem trimNewlinesStart_of_not_mem {s : String} (h : '\n' ∉ s.toList) :
    trimNewlinesStart s = s := by
  rw [trimNewlinesStart, dropWhile_isNewlineChar h, String.ofList_toList]

/-- Trimming takes the newline off a token that has more behind it. -/
theorem renderChars_trimStart_of_cons {c : Char} {cs : List Char}
    (hnode : t.node = .markdown tag data) (hkind : tag.renderKind ≠ .text)
    (hspace : t.isPureSpace = false) (hdata : data.toList = '\n' :: c :: cs)
    (hcs : '\n' ∉ c :: cs) (us : List Token) :
    trimStart (t :: us) = t.mapText trimNewlinesStart :: us ∧
      renderChars none (t.mapText trimNewlinesStart :: us) =
        c :: cs ++ renderChars none us := by
  have htext : t.text? = some data := by simp [Token.text?, hnode]
  have hc : isNewlineChar c = false := by
    rw [List.mem_cons, not_or] at hcs
    simpa [isNewlineChar] using Ne.symm hcs.1
  have hleading : isLeadingSpace t = false := by
    simp [isLeadingSpace, isNewlinesOnly, hspace, htext, hdata, hc]
  constructor
  · simp [trimStart, hleading]
  · have hnewline : isNewlineChar '\n' = true := rfl
    have hkept : (trimNewlinesStart data).toList = c :: cs := by
      rw [trimNewlinesStart, String.toList_ofList, hdata, List.dropWhile_cons, if_pos hnewline,
        dropWhile_isNewlineChar hcs]
    rw [renderChars_literal (node_mapText hnode _) hkind, hkept]

theorem trimEnd_concat (ts : List Token) :
    trimEnd (ts ++ [.newlineBlank]) = ts ++ [.newlineBlank] := by
  have hspace : Token.newlineBlank.isPureSpace = false := rfl
  have hspacing : Token.newlineBlank.isSpacing = true := by decide
  simp [trimEnd, hspace, hspacing]

theorem isNewlinesOnly_of_not_mem {s : String} (h : t.text? = some s) (hne : s ≠ "")
    (hs : '\n' ∉ s.toList) : isNewlinesOnly t = false := by
  have hsome : ∃ c ∈ s.toList, c ≠ '\n' := by
    obtain ⟨c, cs, hcs⟩ := List.exists_cons_of_ne_nil fun h => hne (String.toList_eq_nil_iff.mp h)
    refine ⟨c, by simp [hcs], ?_⟩
    rintro rfl
    exact hs (by simp [hcs])
  simpa [isNewlinesOnly, h, hne, isNewlineChar] using hsome

end Markdown

namespace Markdown

end Markdown

namespace Converter

end Converter

end HtmlMarkdown
