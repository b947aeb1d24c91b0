import HtmlMarkdown.Proofs.BlankLines

/-!
# Crowded lines

In the text of laid out prose three newlines follow each other only where a blank line stands
directly before a list item or behind a rule, or one line end between the two: an item brings a
newline of its own, and a rule has one behind it. `Crowded` says that there is such a place.
-/

namespace HtmlMarkdown.Text

def Triple (cs : List Char) : Prop := ['\n', '\n', '\n'] <:+: cs

instance (cs : List Char) : Decidable (Triple cs) := inferInstanceAs (Decidable (_ <:+: _))

def newlinesBehind (cs : List Char) : Nat := (takeTail (· == '\n') cs).length

variable {cs ds : List Char} {c : Char}

theorem newlinesBehind_newline (cs : List Char) :
    newlinesBehind (cs ++ ['\n']) = newlinesBehind cs + 1 := by
  simp [newlinesBehind, takeTail]

theorem newlinesBehind_of_ne (h : c ≠ '\n') (cs : List Char) : newlinesBehind (cs ++ [c]) = 0 := by
  simp [newlinesBehind, takeTail, h]

theorem two_le_newlinesBehind (cs : List Char) :
    2 ≤ newlinesBehind cs ↔ ['\n', '\n'] <:+ cs := by
  rw [← List.reverse_prefix, newlinesBehind, takeTail, List.length_reverse]
  rcases cs.reverse with _ | ⟨c, _ | ⟨d, cs⟩⟩
  · simp
  · by_cases hc : c = '\n' <;> simp [hc]
  · by_cases hc : c = '\n' <;> by_cases hd : d = '\n' <;> simp [hc, hd, Ne.symm]

theorem triple_newline (cs : List Char) :
    Triple (cs ++ ['\n']) ↔ Triple cs ∨ 2 ≤ newlinesBehind cs := by
  have hsuffix : ['\n', '\n'] ++ ['\n'] <:+ cs ++ ['\n'] ↔ ['\n', '\n'] <:+ cs :=
    List.suffix_append_self_iff
  rw [two_le_newlinesBehind, ← hsuffix, or_comm]
  exact List.infix_concat_iff

theorem triple_of_ne (h : c ≠ '\n') (cs : List Char) : Triple (cs ++ [c]) ↔ Triple cs := by
  have hsuffix : ¬['\n', '\n', '\n'] <:+ cs ++ [c] := by
    rintro ⟨ds, hds⟩
    have hlast := congrArg List.getLast? hds
    simp at hlast
    exact h hlast.symm
  unfold Triple
  rw [List.infix_concat_iff, or_iff_right hsuffix]

/-- Text on one line adds no newline. -/
theorem triple_append_of_not_mem (h : '\n' ∉ ds) (cs : List Char) :
    Triple (cs ++ ds) ↔ Triple cs := by
  induction ds generalizing cs with
  | nil => rw [List.append_nil]
  | cons d ds ih =>
    rw [List.mem_cons, not_or] at h
    rw [List.append_cons, ih h.2, triple_of_ne (Ne.symm h.1)]

theorem newlinesBehind_append_of_not_mem (h : '\n' ∉ ds) (hne : ds ≠ []) (cs : List Char) :
    newlinesBehind (cs ++ ds) = 0 := by
  rcases List.eq_nil_or_concat' ds with rfl | ⟨ds, d, rfl⟩
  · exact absurd rfl hne
  · rw [List.mem_append, List.mem_singleton, not_or] at h
    rw [← List.append_assoc, newlinesBehind_of_ne (Ne.symm h.2)]

end HtmlMarkdown.Text

namespace HtmlMarkdown.Markdown

open Text (Triple newlinesBehind)

/-- The tags of tokens that bring three line ends with no text between them. -/
def crowdings : List (List Tag) :=
  [[.newlineBlank, .listItemStart], [.horizontalRule, .newlineBlank],
    [.horizontalRule, .newline, .listItemStart]]

/-- Somewhere in the stream three line ends come together. -/
def Crowded (ts : List Token) : Prop :=
  ∃ tags ∈ crowdings, tags.map some <:+: ts.map Token.tag?

instance (ts : List Token) : Decidable (Crowded ts) :=
  inferInstanceAs (Decidable (∃ tags ∈ crowdings, tags.map some <:+: ts.map Token.tag?))

variable {out ts us : List Token} {t : Token}

def text (out : List Token) : List Char := renderChars none (layRules out.reverse)

theorem exists_text_cons (t : Token) (out : List Token) :
    ∃ rawText, text (t :: out) = text out ++ renderChars rawText (ruleLines t) := by
  have hlay : layRules (t :: out).reverse = layRules out.reverse ++ ruleLines t := by
    simp [layRules]
  rw [text, hlay, renderChars_append]
  exact ⟨_, rfl⟩

theorem renderChars_singleton (rawText : Option String) (t : Token) :
    renderChars rawText [t] = t.chars rawText := by
  rw [renderChars, renderChars, List.append_nil]

theorem chars_of_node {tag : Tag} {data : String} (h : t.node = .markdown tag data)
    (hkind : tag.renderKind ≠ .text) (rawText : Option String) :
    t.chars rawText = data.toList := by
  simp only [Token.chars, h]
  cases hk : tag.renderKind with
  | text => exact absurd hk hkind
  | literal | space => rfl

theorem chars_markdown {tag : Tag} (h : tag.renderKind ≠ .text) (data : String)
    (rawText : Option String) : (Token.markdown tag data).chars rawText = data.toList :=
  chars_of_node rfl h rawText

theorem chars_text (s : String) (rawText : Option String) :
    (Token.html (.characters s)).chars rawText =
      if rawText.isSome then s.toList else s.toList.flatMap Text.escapeChar := by
  cases rawText with
  | none => exact Text.escapeQuoted_zero rfl s.toList
  | some name => rfl

theorem not_mem_openTagChars {raw : Html.Token} (h : raw.Unbroken) :
    '\n' ∉ openTagChars raw := by
  have hescape {cs : List Char} (hcs : '\n' ∉ cs) : '\n' ∉ Text.escapeAttribute cs := by
    refine Text.not_mem_flatMap hcs fun c hc => ?_
    unfold Text.escapeAttributeChar
    split_ifs <;> simp [Ne.symm hc]
  have hattribute : ∀ entry ∈ raw.attributes.entries, '\n' ∉ attributeChars entry.1 entry.2 := by
    intro entry hentry
    obtain ⟨⟨hlocal, hspace⟩, hvalue⟩ := h.attributes entry hentry
    unfold attributeChars
    cases hs : entry.1.space with
    | none => simp [hlocal, hescape hvalue]
    | some space => simp [hlocal, hescape hvalue, hspace space hs]
  intro hmem
  simp only [openTagChars, List.mem_cons, List.mem_append, List.mem_flatMap] at hmem
  rcases hmem with (hmem | hmem) | ⟨entry, hentry, hmem⟩
  · exact absurd hmem (by decide)
  · exact h.name hmem
  · exact hattribute entry (List.mem_mergeSort.mp hentry) hmem

theorem Ink.not_mem_chars (h : Ink t) (rawText : Option String) : '\n' ∉ t.chars rawText := by
  cases h with
  | @markdown tag data htag h hne =>
    have hkind : tag.renderKind ≠ .text := by cases tag <;> first | decide | cases htag
    rwa [chars_markdown hkind]
  | @tag raw hraw h =>
    have hopen := not_mem_openTagChars h
    have hname := h.name
    change '\n' ∉ htmlChars 0 rawText raw
    unfold htmlChars
    simp only [Html.Token.isTag, Bool.or_eq_true, beq_iff_eq] at hraw
    rcases hraw with (hk | hk) | hk <;> simp [hk, hopen, hname]
  | @text s h =>
    rw [chars_text]
    split_ifs
    · exact h
    · refine Text.not_mem_flatMap h fun c hc => ?_
      unfold Text.escapeChar
      split_ifs <;> simp [Ne.symm hc]

theorem Ink.chars_ne_nil (h : Ink t) (hne : t ≠ .html (.characters "")) (rawText : Option String) :
    t.chars rawText ≠ [] := by
  cases h with
  | @markdown tag data htag h hdata =>
    have hkind : tag.renderKind ≠ .text := by cases tag <;> first | decide | cases htag
    rw [chars_markdown hkind]
    simpa using hdata
  | @tag raw hraw h =>
    change htmlChars 0 rawText raw ≠ []
    unfold htmlChars
    simp only [Html.Token.isTag, Bool.or_eq_true, beq_iff_eq] at hraw
    rcases hraw with (hk | hk) | hk <;> simp [hk, openTagChars]
  | @text s h =>
    have hs : s.toList ≠ [] := fun hempty => hne (by rw [String.toList_eq_nil_iff.mp hempty])
    have hescape (c : Char) : Text.escapeChar c ≠ [] := by
      unfold Text.escapeChar
      split_ifs <;> simp
    rw [chars_text]
    split_ifs
    · exact hs
    · obtain ⟨c, cs, hcs⟩ := List.exists_cons_of_ne_nil hs
      simp [hcs, hescape]

theorem exists_crowding_iff (tag : Option Tag) (tags : List (Option Tag)) :
    (∃ p ∈ crowdings, (p.map some).reverse <+: tag :: tags) ↔
      (tag = some .listItemStart ∧ ([some .newlineBlank] <+: tags ∨
        [some .newline, some .horizontalRule] <+: tags)) ∨
      (tag = some .newlineBlank ∧ [some .horizontalRule] <+: tags) := by
  have htag (t : Tag) : some t = tag ↔ tag = some t := eq_comm
  simp only [crowdings, List.mem_cons, List.not_mem_nil, or_false, exists_eq_or_imp,
    exists_eq_left, List.map_cons, List.map_nil, List.reverse_cons, List.reverse_nil,
    List.nil_append, List.cons_append, List.cons_prefix_cons, htag]
  tauto

theorem crowded_concat (t : Token) (out : List Token) :
    Crowded (t :: out).reverse ↔ Crowded out.reverse ∨
      ∃ tags ∈ crowdings, (tags.map some).reverse <+: t.tag? :: out.map Token.tag? := by
  have hreverse (tags : List Tag) (us : List Token) :
      tags.map some <:+: us.reverse.map Token.tag? ↔
        (tags.map some).reverse <:+: us.map Token.tag? := by
    rw [List.map_reverse, ← List.reverse_infix, List.reverse_reverse]
  unfold Crowded
  simp only [hreverse, List.map_cons, List.infix_cons_iff, and_or_left, exists_or]
  exact or_comm

theorem crowded_of_tag? (hitem : t.tag? ≠ some .listItemStart)
    (hblank : t.tag? ≠ some .newlineBlank) (out : List Token) :
    Crowded (t :: out).reverse ↔ Crowded out.reverse := by
  rw [crowded_concat, exists_crowding_iff]
  simp [hitem, hblank]

theorem endsInRule_iff (out : List Token) :
    endsInRule out = true ↔ [some .horizontalRule] <+: out.map Token.tag? := by
  cases out with
  | nil => simp [endsInRule]
  | cons t earlier =>
    simp only [endsInRule, Token.hasTag, beq_iff_eq, List.map_cons, List.cons_prefix_cons,
      List.nil_prefix, and_true]
    exact eq_comm

/-- Two line ends are a blank line, or a newline behind a rule. -/
theorem Spaced.two_le_breaks (h : Spaced out) : 2 ≤ breaks out ↔
    [some .newlineBlank] <+: out.map Token.tag? ∨
      [some .newline, some .horizontalRule] <+: out.map Token.tag? := by
  cases out with
  | nil => simp [breaks]
  | cons t earlier =>
    cases htag : t.tag? with
    | none => simp [breaks, htag, List.cons_prefix_cons]
    | some tag =>
      cases tag with
      | newline =>
        have hn : t.isNewline = true := by simp [Token.isNewline, Token.tagIs, htag, Tag.isNewline]
        have hbreaks := breaks_of_not_isNewline (h.not_isNewline_tail hn)
        have hone : 2 ≤ breaks (t :: earlier) ↔ endsInRule earlier = true := by
          rw [breaks, htag]
          dsimp only
          split_ifs at hbreaks with hrule <;> simp [hbreaks, hrule]
        rw [hone, endsInRule_iff]
        simp [htag, List.cons_prefix_cons]
      | _ => simp [breaks, htag, List.cons_prefix_cons]

/-- A mark that begins with a newline: it ends the line before it, and its own stays open. -/
theorem triple_mark {mark : List Char} (h : '\n' ∉ mark) (hne : mark ≠ []) (cs : List Char) :
    newlinesBehind (cs ++ '\n' :: mark) = 0 ∧
      (Triple (cs ++ '\n' :: mark) ↔ Triple cs ∨ 2 ≤ newlinesBehind cs) := by
  rw [List.append_cons, Text.newlinesBehind_append_of_not_mem h hne,
    Text.triple_append_of_not_mem h, Text.triple_newline]
  exact ⟨rfl, Iff.rfl⟩

/-- A token that is no rule adds its own text. -/
theorem text_cons_of_chars {cs : List Char} (hr : t.hasTag .horizontalRule = false)
    (hcs : ∀ rawText, t.chars rawText = cs) (out : List Token) :
    text (t :: out) = text out ++ cs := by
  obtain ⟨rawText, htext⟩ := exists_text_cons t out
  have hlines : ruleLines t = [t] := by simp [ruleLines, hr]
  rw [htext, hlines, renderChars_singleton, hcs]

/-- A rule stands on a line of its own. -/
theorem text_cons_rule (rule : String) (out : List Token) :
    text (.horizontalRule rule :: out) = text out ++ '\n' :: rule.toList ++ ['\n'] := by
  obtain ⟨rawText, htext⟩ := exists_text_cons (.horizontalRule rule) out
  have hlines : ruleLines (.horizontalRule rule) =
      [.newline, .horizontalRule rule, .newline] := rfl
  have hchars (rawText : Option String) : (Token.horizontalRule rule).chars rawText =
      rule.toList := rfl
  rw [htext, hlines, List.append_assoc]
  simp only [renderChars, hchars]
  rfl

theorem text_cons_ink (h : Ink t) (out : List Token) :
    ∃ rawText, text (t :: out) = text out ++ t.chars rawText := by
  obtain ⟨rawText, htext⟩ := exists_text_cons t out
  have hlines : ruleLines t = [t] := by simp [ruleLines, h.not_rule]
  exact ⟨rawText, by rw [htext, hlines, renderChars_singleton]⟩

/-- Ink ends no line and crowds none. -/
theorem Ink.breaks (h : Ink t) (out : List Token) : Markdown.breaks (t :: out) = 0 ∧
    (Crowded (t :: out).reverse ↔ Crowded out.reverse) := by
  cases h with
  | @markdown tag data htag =>
    have hitem : tag ≠ .listItemStart := by rintro rfl; cases htag
    have hblank : tag ≠ .newlineBlank := by rintro rfl; cases htag
    refine ⟨?_, crowded_of_tag? (by simpa [Token.markdown, Token.tag?] using hitem)
      (by simpa [Token.markdown, Token.tag?] using hblank) out⟩
    cases tag <;> first | rfl | cases htag
  | tag | text => exact ⟨rfl, crowded_of_tag? (by simp [Token.html, Token.tag?])
      (by simp [Token.html, Token.tag?]) out⟩

/-- The text of spaced prose ends in the line ends that are counted, and it has three newlines in a
row where the stream is crowded. -/
theorem Spaced.newlines_text (h : Spaced out) : newlinesBehind (text out) = breaks out ∧
    (Triple (text out) ↔ Crowded out.reverse) := by
  induction h with
  | nil => exact ⟨rfl, by decide⟩
  | @space out h ih =>
    have hspace : '\n' ∉ [' '] := by decide
    rw [text_cons_of_chars rfl (fun _ => rfl) out, crowded_of_tag? (by decide) (by decide)]
    exact ⟨Text.newlinesBehind_append_of_not_mem hspace (by decide) _,
      (Text.triple_append_of_not_mem hspace _).trans ih.2⟩
  | @newline t out ht hlast h ih =>
    obtain ⟨hcount, htriple⟩ := ih
    have hbreaks := breaks_of_not_isNewline hlast
    rcases mem_newlineTokens.mp ht with rfl | rfl | rfl
    · rw [text_cons_of_chars rfl (fun _ => rfl) out, crowded_of_tag? (by decide) (by decide)]
      change newlinesBehind (text out ++ ['\n']) = breaks out + 1 ∧
        (Triple (text out ++ ['\n']) ↔ _)
      rw [Text.newlinesBehind_newline, Text.triple_newline, hcount, htriple]
      refine ⟨rfl, or_iff_left ?_⟩
      split_ifs at hbreaks <;> omega
    · have hspaces : '\n' ∉ [' ', ' '] := by decide
      rw [text_cons_of_chars rfl (fun _ => rfl) out, crowded_of_tag? (by decide) (by decide)]
      change newlinesBehind (text out ++ ([' ', ' '] ++ ['\n'])) = 1 ∧
        (Triple (text out ++ ([' ', ' '] ++ ['\n'])) ↔ _)
      rw [← List.append_assoc, Text.newlinesBehind_newline, Text.triple_newline,
        Text.newlinesBehind_append_of_not_mem hspaces (by decide),
        Text.triple_append_of_not_mem hspaces, htriple]
      exact ⟨rfl, or_iff_left (by omega)⟩
    · rw [text_cons_of_chars rfl (fun _ => rfl) out, crowded_concat, exists_crowding_iff,
        ← endsInRule_iff]
      change newlinesBehind (text out ++ (['\n'] ++ ['\n'])) = breaks out + 2 ∧
        (Triple (text out ++ (['\n'] ++ ['\n'])) ↔ _)
      rw [← List.append_assoc, Text.newlinesBehind_newline, Text.triple_newline,
        Text.newlinesBehind_newline, Text.triple_newline, hcount, htriple]
      refine ⟨rfl, ?_⟩
      split_ifs at hbreaks with hrule <;> simp [hbreaks, hrule, Token.newlineBlank,
        Token.markdown, Token.tag?]
  | @ownLine tag data mark out htag hdata hmark hne hbreaks h ih =>
    obtain ⟨hcount, htriple⟩ := ih
    have hkind : tag.renderKind ≠ .text := by rcases htag with rfl | rfl <;> decide
    obtain ⟨hbehind, hthree⟩ := triple_mark hmark hne (text out)
    rw [hcount, htriple] at hthree
    rw [text_cons_of_chars (by rcases htag with rfl | rfl <;> rfl)
      (fun _ => (chars_markdown hkind data _).trans hdata) out, hbehind, hthree]
    rcases htag with rfl | rfl
    · refine ⟨rfl, ?_⟩
      rw [crowded_of_tag? (by simp [Token.markdown, Token.tag?])
        (by simp [Token.markdown, Token.tag?])]
      have := hbreaks rfl
      exact or_iff_left (by omega)
    · refine ⟨rfl, ?_⟩
      rw [crowded_concat, exists_crowding_iff, h.two_le_breaks]
      simp [Token.markdown, Token.tag?]
  | @rule rule out hrule hne hbreaks h ih =>
    obtain ⟨hcount, htriple⟩ := ih
    have hne' : rule.toList ≠ [] := mt String.toList_eq_nil_iff.mp hne
    obtain ⟨hbehind, hthree⟩ := triple_mark hrule hne' (text out)
    rw [hcount, htriple] at hthree
    rw [text_cons_rule, Text.newlinesBehind_newline, Text.triple_newline, hbehind, hthree,
      crowded_of_tag? (by simp [Token.horizontalRule, Token.markdown, Token.tag?])
        (by simp [Token.horizontalRule, Token.markdown, Token.tag?])]
    refine ⟨rfl, ?_⟩
    rw [or_iff_left (by omega), or_iff_left (by omega)]
  | @ink t out ht hempty h ih =>
    obtain ⟨hcount, htriple⟩ := ih
    obtain ⟨rawText, htext⟩ := text_cons_ink ht out
    obtain ⟨hbreaks, hcrowded⟩ := ht.breaks out
    rw [htext, hbreaks, hcrowded, Text.triple_append_of_not_mem (ht.not_mem_chars rawText)]
    refine ⟨?_, htriple⟩
    by_cases hne : t = .html (.characters "")
    · have hnothing : t.chars rawText = [] := by
        rw [hne, chars_text]
        split_ifs <;> rfl
      rw [hnothing, List.append_nil, hcount, hempty hne]
    · exact Text.newlinesBehind_append_of_not_mem (ht.not_mem_chars rawText)
        (ht.chars_ne_nil hne rawText) _

inductive Shape : Token → Prop
  | space : Shape .space
  | newline {t : Token} (ht : t ∈ newlineTokens) : Shape t
  | ownLine {tag : Tag} {data : String} {mark : List Char}
      (htag : tag = .headingStart ∨ tag = .listItemStart) (hdata : data.toList = '\n' :: mark)
      (hmark : '\n' ∉ mark) (hne : mark ≠ []) : Shape (.markdown tag data)
  | rule {rule : String} (hrule : '\n' ∉ rule.toList) (hne : rule ≠ "") :
      Shape (.horizontalRule rule)
  | ink {t : Token} (ht : Ink t) : Shape t

theorem Spaced.shape (h : Spaced out) : ∀ t ∈ out, Shape t := by
  induction h with
  | nil => exact List.forall_mem_nil _
  | space h ih => exact List.forall_mem_cons.mpr ⟨.space, ih⟩
  | newline ht hlast h ih => exact List.forall_mem_cons.mpr ⟨.newline ht, ih⟩
  | ownLine htag hdata hmark hne hbreaks h ih =>
    exact List.forall_mem_cons.mpr ⟨.ownLine htag hdata hmark hne, ih⟩
  | rule hrule hne hbreaks h ih => exact List.forall_mem_cons.mpr ⟨.rule hrule hne, ih⟩
  | ink ht hempty h ih => exact List.forall_mem_cons.mpr ⟨.ink ht, ih⟩

theorem breaks_le_append (ts us : List Token) : breaks ts ≤ breaks (ts ++ us) := by
  induction ts with
  | nil => exact Nat.zero_le _
  | cons t ts ih =>
    rw [List.cons_append, breaks, breaks]
    split <;> omega

/-- What stands in front of spaced prose may go. -/
theorem Spaced.of_append (h : Spaced (ts ++ us)) : Spaced ts := by
  induction ts with
  | nil => exact .nil
  | cons t ts ih =>
    have hle := breaks_le_append ts us
    rw [List.cons_append] at h
    have hts := ih h.tail
    cases h with
    | space _ => exact .space hts
    | newline ht hlast _ =>
      refine .newline ht (fun u hu => hlast u ?_) hts
      rw [List.head?_append, hu]
      rfl
    | ownLine htag hdata hmark hne hbreaks _ =>
      exact .ownLine htag hdata hmark hne (fun hh => hle.trans (hbreaks hh)) hts
    | rule hrule hne hbreaks _ => exact .rule hrule hne (hle.trans hbreaks) hts
    | ink ht hempty _ =>
      exact .ink ht (fun hh => Nat.le_zero.mp (hempty hh ▸ hle)) hts

end HtmlMarkdown.Markdown
