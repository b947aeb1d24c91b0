import HtmlMarkdown.Proofs.Crowding
import HtmlMarkdown.Proofs.Laid
import Mathlib.Data.List.TakeWhile

/-!
# Trimmed text

Trimming takes the white space at the start of a stream, and of the first text its newlines; at the
end it takes spaces. So the trimmed text has three newlines in a row where the stream behind the
leading white space is crowded.
-/

namespace HtmlMarkdown.Markdown

open Text (Triple)

variable {out ts us : List Token} {t : Token}

theorem Ink.not_mem_text (h : Ink t) : ∀ s ∈ t.text?, '\n' ∉ s.toList := by
  intro s hs
  cases h with
  | markdown htag h hne => exact Option.some.inj hs ▸ h
  | tag hraw h => simp [Token.text?, Token.html, hraw] at hs
  | text h => exact Option.some.inj hs ▸ h

theorem indentLines_nil (s : String) : indentLines [] s = s := by
  have hchar (c : Char) : (if c = '\n' then ['\n'] else [c]) = [c] := by
    split_ifs with h
    · rw [h]
    · rfl
  rw [← String.toList_inj, toList_indentLines, indentChars]
  simp only [hchar]
  exact List.flatMap_singleton' _

/-- Where nothing stands at the heads of the lines, the text stays. -/
theorem indentToken_of_lineHead (h : lineHead t.markers t.inCode = []) : indentToken t = t :=
  mapText_eq_self fun s _ => by rw [h, indentLines_nil]

theorem indentToken_of_unquoted (hd : t.quoteDepth = none) (hc : t.inCode = false) :
    indentToken t = t :=
  indentToken_of_lineHead (by simp [Token.markers, hd, hc, lineHead])

theorem Shape.unquoted (h : Shape t) : t.quoteDepth = none ∧ t.inCode = false := by
  cases h with
  | newline ht =>
    rcases mem_newlineTokens.mp ht with rfl | rfl | rfl <;> exact ⟨rfl, rfl⟩
  | ink ht => cases ht <;> exact ⟨rfl, rfl⟩
  | _ => exact ⟨rfl, rfl⟩

theorem shape_layRules (h : ∀ t ∈ ts, Shape t) : ∀ u ∈ layRules ts, Shape u := by
  intro u hu
  obtain ⟨t, ht, hu⟩ := List.mem_flatMap.mp hu
  have hnewline : Shape .newline := .newline (by simp [newlineTokens])
  obtain ⟨hd, hc⟩ := (h t ht).unquoted
  unfold ruleLines at hu
  split_ifs at hu
  · simp only [hd, hc, Token.within_none, List.mem_cons, List.not_mem_nil, or_false] at hu
    rcases hu with rfl | rfl | rfl
    · exact hnewline
    · exact h _ ht
    · exact hnewline
  · exact List.mem_singleton.mp hu ▸ h t ht

/-- Outside of quotes and code the lines have nothing at their heads. -/
theorem indentAll_layRules (h : ∀ t ∈ ts, Shape t) : indentAll (layRules ts) = layRules ts := by
  rw [indentAll, List.map_congr_left, List.map_id']
  intro u hu
  obtain ⟨hd, hc⟩ := (shape_layRules h u hu).unquoted
  exact indentToken_of_unquoted hd hc

structure Closes (t : Token) : Prop where
  dropped : t.isPureSpace = true → ∀ rawText, '\n' ∉ t.chars rawText
  kept : t.isSpacing = false → t.mapText trimNewlinesEnd = t

theorem trimNewlinesEnd_of_not_mem {s : String} (h : '\n' ∉ s.toList) :
    trimNewlinesEnd s = s := by
  rw [trimNewlinesEnd, Text.dropTail, dropWhile_isNewlineChar (by simpa using h),
    List.reverse_reverse, String.ofList_toList]

theorem trimNewlinesEnd_of_getLast? {s : String} {c : Char} (h : s.toList.getLast? = some c)
    (hc : c ≠ '\n') : trimNewlinesEnd s = s := by
  obtain ⟨cs, hs⟩ := List.getLast?_eq_some_iff.mp h
  have hreverse : s.toList.reverse = c :: cs.reverse := by simp [hs]
  have hkept : isNewlineChar c = false := by simpa [isNewlineChar] using hc
  rw [trimNewlinesEnd, Text.dropTail, hreverse, List.dropWhile_cons, hkept,
    if_neg Bool.false_ne_true, ← hreverse, List.reverse_reverse, String.ofList_toList]

theorem getLast?_of_mark {cs mark : List Char} (hcs : cs = '\n' :: mark) (h : '\n' ∉ mark)
    (hne : mark ≠ []) : ∃ c, cs.getLast? = some c ∧ c ≠ '\n' := by
  rcases List.eq_nil_or_concat' mark with rfl | ⟨ms, m, rfl⟩
  · exact absurd rfl hne
  · rw [List.mem_append, List.mem_singleton, not_or] at h
    exact ⟨m, by rw [hcs, ← List.cons_append, List.getLast?_concat], Ne.symm h.2⟩

theorem trimNewlinesEnd_of_mark {s : String} {mark : List Char} (hs : s.toList = '\n' :: mark)
    (h : '\n' ∉ mark) (hne : mark ≠ []) : trimNewlinesEnd s = s := by
  obtain ⟨c, hlast, hc⟩ := getLast?_of_mark hs h hne
  exact trimNewlinesEnd_of_getLast? hlast hc

theorem Shape.closes (h : Shape t) : Closes t := by
  cases h with
  | space =>
    have hspace (rawText : Option String) : Token.space.chars rawText = [' '] := rfl
    exact ⟨fun _ rawText => by rw [hspace]; decide, fun h => by cases h⟩
  | newline ht =>
    rcases mem_newlineTokens.mp ht with rfl | rfl | rfl <;>
      exact ⟨fun h => absurd h (by decide), fun h => absurd h (by decide)⟩
  | ownLine htag hdata hmark hne =>
    refine ⟨fun h => ?_, fun _ => mapText_eq_self fun s hs => ?_⟩
    · rcases htag with rfl | rfl <;> cases h
    · obtain rfl := Option.some.inj hs
      exact trimNewlinesEnd_of_mark hdata hmark hne
  | rule hrule hne =>
    refine ⟨fun h => (by cases h), fun _ => mapText_eq_self fun s hs => ?_⟩
    obtain rfl := Option.some.inj hs
    exact trimNewlinesEnd_of_not_mem hrule
  | ink ht =>
    exact ⟨fun _ => ht.not_mem_chars, fun _ => mapText_eq_self fun s hs =>
      trimNewlinesEnd_of_not_mem (ht.not_mem_text s hs)⟩

theorem not_mem_renderChars (h : ∀ t ∈ ts, ∀ rawText, '\n' ∉ t.chars rawText)
    (rawText : Option String) : '\n' ∉ renderChars rawText ts := by
  induction ts generalizing rawText with
  | nil => exact List.not_mem_nil
  | cons t ts ih =>
    rw [renderChars, List.mem_append, not_or]
    exact ⟨h t List.mem_cons_self rawText,
      ih (fun u hu => h u (List.mem_cons_of_mem t hu)) _⟩

/-- Trimming at the end takes text on one line away. -/
theorem exists_trimEnd (h : ∀ t ∈ ts, Closes t) :
    ∃ cs, '\n' ∉ cs ∧ renderChars none ts = renderChars none (trimEnd ts) ++ cs := by
  let dropped := (ts.reverse.takeWhile (·.isPureSpace)).reverse
  let kept := (ts.reverse.dropWhile (·.isPureSpace)).reverse
  have hsplit : ts = kept ++ dropped := by
    rw [← List.reverse_append, List.takeWhile_append_dropWhile, List.reverse_reverse]
  have hdropped (rawText : Option String) : '\n' ∉ renderChars rawText dropped := by
    refine not_mem_renderChars (fun t ht => ?_) rawText
    have ht := List.mem_reverse.mp ht
    exact (h t (List.mem_reverse.mp ((List.takeWhile_sublist _).subset ht))).dropped
      (List.mem_takeWhile_imp ht)
  have hkept : trimEnd ts = kept := by
    have hmem : ∀ t ∈ ts.reverse.dropWhile (·.isPureSpace), t ∈ ts := fun t ht =>
      List.mem_reverse.mp ((List.dropWhile_sublist _).subset ht)
    unfold trimEnd
    split
    · next hnone => rw [show kept = [] from congrArg List.reverse hnone]
    · next last earlier hlast =>
      rw [show kept = (last :: earlier).reverse from congrArg List.reverse hlast]
      split_ifs with hspacing
      · rfl
      · rw [(h last (hmem last (by simp [hlast]))).kept (by simpa using hspacing)]
  rw [hkept, hsplit, renderChars_append]
  exact ⟨_, hdropped _, rfl⟩

theorem closes_layRules (h : ∀ t ∈ ts, Shape t) : ∀ u ∈ layRules ts, Closes u :=
  fun u hu => (shape_layRules h u hu).closes

theorem trimNewlinesStart_of_head? {s : String} (h : s.toList.head? ≠ some '\n') :
    trimNewlinesStart s = s := by
  have hkept : s.toList.dropWhile isNewlineChar = s.toList := by
    cases hs : s.toList with
    | nil => rfl
    | cons c cs =>
      have hc : isNewlineChar c = false := by simpa [hs, isNewlineChar] using h
      rw [List.dropWhile_cons, hc, if_neg Bool.false_ne_true]
  rw [trimNewlinesStart, hkept, String.ofList_toList]

theorem stays_of_head? (hpure : t.isPureSpace = false)
    (h : ∀ s ∈ t.text?, s.toList.head? ≠ some '\n') : Stays t := by
  refine ⟨?_, mapText_eq_self fun s hs => trimNewlinesStart_of_head? (h s hs)⟩
  rw [isLeadingSpace, hpure, Bool.false_or, isNewlinesOnly]
  cases htext : t.text? with
  | none => rfl
  | some s =>
    have hs := h s htext
    rw [Option.any_some]
    cases hcs : s.toList with
    | nil => simp [String.toList_eq_nil_iff.mp hcs]
    | cons c cs =>
      have hc : isNewlineChar c = false := by simpa [hcs, isNewlineChar] using hs
      simp [hc]

theorem trimmed_of_getLast? (h : ∀ s ∈ t.text?, s.toList.getLast? ≠ some '\n') :
    t.mapText trimNewlinesEnd = t := by
  refine mapText_eq_self fun s hs => ?_
  cases hlast : s.toList.getLast? with
  | none => exact trimNewlinesEnd_of_not_mem (by simp [List.getLast?_eq_none_iff.mp hlast])
  | some c =>
    refine trimNewlinesEnd_of_getLast? hlast ?_
    rintro rfl
    exact h s hs hlast

theorem not_leading_of_not_mem (hpure : t.isPureSpace = false)
    (h : ∀ s ∈ t.text?, '\n' ∉ s.toList) : isLeadingSpace t = false :=
  (stays_of_head? hpure fun s hs hhead => h s hs (List.mem_of_mem_head? hhead)).1

theorem trimStart_cons (h : isLeadingSpace t = false) (ts : List Token) :
    trimStart (t :: ts) = t.mapText trimNewlinesStart :: ts := by
  rw [trimStart, List.dropWhile_cons, h, if_neg Bool.false_ne_true]

/-- The second stream is the first one without a newline in front at most, behind which the text
goes on with something else. -/
structure Clipped (ts us : List Token) : Prop where
  closes : ∀ u ∈ us, Closes u
  text : renderChars none ts = renderChars none us ∨ ∃ c cs, c ≠ '\n' ∧
    renderChars none us = c :: cs ∧ renderChars none ts = '\n' :: c :: cs

theorem triple_cons_newline {c : Char} (hc : c ≠ '\n') (cs : List Char) :
    Triple ('\n' :: c :: cs) ↔ Triple (c :: cs) := by
  have hfirst : ¬['\n', '\n', '\n'] <+: '\n' :: c :: cs := by
    rw [List.cons_prefix_cons, List.cons_prefix_cons]
    exact fun h => hc h.2.1.symm
  unfold Triple
  rw [List.infix_cons_iff, or_iff_right hfirst]

theorem Clipped.triple (h : Clipped ts us) :
    Triple (renderChars none ts) ↔ Triple (renderChars none us) := by
  rcases h.text with heq | ⟨c, cs, hc, hus, hts⟩
  · rw [heq]
  · rw [hts, hus]
    exact triple_cons_newline hc cs

/-- A mark that begins with a newline loses it at the start. -/
theorem clipped_ownLine {tag : Tag} {data : String} {mark : List Char}
    (htag : tag = .headingStart ∨ tag = .listItemStart) (hdata : data.toList = '\n' :: mark)
    (hmark : '\n' ∉ mark) (hne : mark ≠ []) (hclosed : ∀ u ∈ us, Closes u) :
    Clipped (.markdown tag data :: us) (.markdown tag (trimNewlinesStart data) :: us) := by
  have hkind : tag.renderKind ≠ .text := by rcases htag with rfl | rfl <;> decide
  have hkept : (trimNewlinesStart data).toList = mark := by
    have hnewline : isNewlineChar '\n' = true := rfl
    rw [trimNewlinesStart, String.toList_ofList, hdata, List.dropWhile_cons, if_pos hnewline,
      dropWhile_isNewlineChar hmark]
  have hcloses : Closes (.markdown tag (trimNewlinesStart data)) := by
    refine ⟨fun hspace => ?_, fun _ => mapText_eq_self fun s hs => trimNewlinesEnd_of_not_mem ?_⟩
    · rcases htag with rfl | rfl <;> cases hspace
    · rw [← Option.some.inj hs, hkept]
      exact hmark
  refine ⟨List.forall_mem_cons.mpr ⟨hcloses, hclosed⟩, .inr ?_⟩
  obtain ⟨c, cs, rfl⟩ := List.exists_cons_of_ne_nil hne
  rw [renderChars_literal rfl hkind, renderChars_literal rfl hkind, hdata, hkept]
  exact ⟨c, _, fun hc => hmark (hc ▸ List.mem_cons_self), rfl, rfl⟩

/-- A rule loses the newline that was laid before it at the start. -/
theorem clipped_rule {rule : String} (hrule : '\n' ∉ rule.toList) (hne : rule ≠ "")
    (hclosed : ∀ u ∈ us, Closes u) :
    Clipped (.newline :: .horizontalRule rule :: us) (.horizontalRule rule :: us) := by
  refine ⟨List.forall_mem_cons.mpr ⟨(Shape.rule hrule hne).closes, hclosed⟩, .inr ?_⟩
  obtain ⟨c, cs, hcs⟩ := List.exists_cons_of_ne_nil (mt String.toList_eq_nil_iff.mp hne)
  have hliteral : renderChars none (.horizontalRule rule :: us) =
      c :: cs ++ renderChars none us := by
    rw [renderChars_literal rfl (by decide), hcs]
  exact ⟨c, cs ++ renderChars none us, fun hc => hrule (by simp [hcs, hc]), hliteral,
    congrArg ('\n' :: ·) hliteral⟩

/-- A stream whose first token is no leading space is trimmed by one newline at most. -/
theorem clipped_trimStart (h : ∀ u ∈ ts, Shape u) (ht : Shape t)
    (hfirst : isLeadingSpace t = false) :
    Clipped (layRules (t :: ts)) (trimStart (layRules (t :: ts))) := by
  have hcloses := closes_layRules (List.forall_mem_cons.mpr ⟨ht, h⟩)
  have stays (hrule : t.hasTag .horizontalRule = false) (hsame : t.mapText trimNewlinesStart = t) :
      Clipped (layRules (t :: ts)) (trimStart (layRules (t :: ts))) := by
    have hall : trimStart (layRules (t :: ts)) = layRules (t :: ts) := by
      rw [layRules_cons_of_not_rule hrule, trimStart_cons hfirst, hsame]
    rw [hall]
    exact ⟨hcloses, .inl rfl⟩
  cases ht with
  | space => cases hfirst
  | newline ht =>
    rcases mem_newlineTokens.mp ht with rfl | rfl | rfl
    · exact absurd hfirst (by decide)
    · exact stays rfl (by decide)
    · exact absurd hfirst (by decide)
  | @ownLine tag data mark htag hdata hmark hne =>
    have hrule : (Token.markdown tag data).hasTag .horizontalRule = false := by
      rcases htag with rfl | rfl <;> rfl
    rw [layRules_cons_of_not_rule hrule, trimStart_cons hfirst]
    exact clipped_ownLine htag hdata hmark hne (closes_layRules h)
  | @rule rule hrule hne =>
    have hlines : layRules (.horizontalRule rule :: ts) =
        .newline :: .horizontalRule rule :: .newline :: layRules ts := rfl
    have hsame : (Token.horizontalRule rule).mapText trimNewlinesStart = .horizontalRule rule :=
      mapText_eq_self fun s hs => trimNewlinesStart_of_not_mem (Option.some.inj hs ▸ hrule)
    have htrim : trimStart (layRules (.horizontalRule rule :: ts)) =
        .horizontalRule rule :: .newline :: layRules ts := by
      have hnewline : isLeadingSpace .newline = true := by decide
      have hstart : trimStart (layRules (.horizontalRule rule :: ts)) =
          trimStart (.horizontalRule rule :: .newline :: layRules ts) := by
        rw [hlines, trimStart, List.dropWhile_cons, if_pos hnewline]
        rfl
      rw [hstart, trimStart_cons hfirst, hsame]
    rw [hlines] at hcloses
    rw [htrim, hlines]
    exact clipped_rule hrule hne (List.forall_mem_cons.mp (List.forall_mem_cons.mp hcloses).2).2
  | ink ht =>
    exact stays ht.not_rule
      (mapText_eq_self fun s hs => trimNewlinesStart_of_not_mem (ht.not_mem_text s hs))

/-- A rule is no white space. -/
theorem Shape.not_rule_of_leading (h : Shape t) (hleading : isLeadingSpace t = true) :
    t.hasTag .horizontalRule = false := by
  cases h with
  | space => rfl
  | newline ht => rcases mem_newlineTokens.mp ht with rfl | rfl | rfl <;> rfl
  | ownLine htag => rcases htag with rfl | rfl <;> rfl
  | @rule rule hrule hne =>
    have hnot : isNewlinesOnly (.horizontalRule rule) = false :=
      isNewlinesOnly_of_not_mem rfl hne hrule
    rw [isLeadingSpace, hnot] at hleading
    cases hleading
  | ink ht => exact ht.not_rule

/-- The first token that stays is the first one that is no leading space. -/
theorem trimStart_layRules (h : ∀ t ∈ ts, Shape t) :
    ts.dropWhile isLeadingSpace = [] ∧ trimStart (layRules ts) = [] ∨
      ∃ first behind, ts.dropWhile isLeadingSpace = first :: behind ∧
        isLeadingSpace first = false ∧
        trimStart (layRules ts) = trimStart (layRules (first :: behind)) := by
  induction ts with
  | nil => exact .inl ⟨rfl, rfl⟩
  | cons t ts ih =>
    obtain ⟨ht, hts⟩ := List.forall_mem_cons.mp h
    by_cases hleading : isLeadingSpace t = true
    · have htrim : trimStart (layRules (t :: ts)) = trimStart (layRules ts) := by
        rw [layRules_cons_of_not_rule (ht.not_rule_of_leading hleading), trimStart,
          List.dropWhile_cons, if_pos hleading]
        rfl
      rw [List.dropWhile_cons, if_pos hleading, htrim]
      exact ih hts
    · rw [List.dropWhile_cons, if_neg hleading]
      exact .inr ⟨t, ts, rfl, by simpa using hleading, rfl⟩

/-- Laid out prose has three newlines in a row exactly if its stream is crowded behind the leading
white space. -/
theorem triple_layout (h : Prose ts) : Triple (renderChars none (layout ts)) ↔
    Crowded ((space ts).dropWhile isLeadingSpace) := by
  have hspaced := spaced_space h
  have hshape : ∀ t ∈ space ts, Shape t := fun t ht => hspaced.shape t (List.mem_reverse.mpr ht)
  have hlayout : layout ts = trimEnd (trimStart (layRules (space ts))) := by
    rw [layout, trim, indentAll_layRules hshape]
  rw [hlayout]
  rcases trimStart_layRules hshape with ⟨hnone, htrim⟩ | ⟨first, behind, hbody, hfirst, htrim⟩
  · rw [htrim, hnone]
    decide
  · rw [htrim, hbody]
    have hmem : ∀ t ∈ first :: behind, t ∈ space ts := fun t ht =>
      (List.dropWhile_sublist _).subset (hbody ▸ ht)
    have hreverse : (space ts).reverse =
        (first :: behind).reverse ++ ((space ts).takeWhile isLeadingSpace).reverse := by
      rw [← List.reverse_append, ← hbody, List.takeWhile_append_dropWhile]
    rw [hreverse] at hspaced
    obtain ⟨-, htriple⟩ := hspaced.of_append.newlines_text
    rw [text, List.reverse_reverse] at htriple
    have hclipped := clipped_trimStart
      (fun t ht => hshape t (hmem t (List.mem_cons_of_mem first ht)))
      (hshape first (hmem first List.mem_cons_self)) hfirst
    obtain ⟨cs, hcs, hend⟩ := exists_trimEnd hclipped.closes
    rw [← htriple, hclipped.triple, hend]
    exact (Text.triple_append_of_not_mem hcs _).symm

end HtmlMarkdown.Markdown

namespace HtmlMarkdown.Converter

/-- Without quotes, code and comments, and with newlines in space only, a converter always makes a
text of a forest. The text has three newlines in a row exactly if its spaced stream is crowded: a
blank line stands directly before a list item or behind a rule, or one line end between the two. -/
theorem three_newlines_iff_crowded (o : Options) (f : Html.Forest)
    (hf : ∀ t ∈ f.tokens, t.OnOneLine) (hrule : '\n' ∉ o.sanitized.rule.toList) :
    ∃ ts text, Conversion.convert o.sanitized f.tokens = .ok ts ∧
      (ofOptions o).render f.tokens = .ok text ∧
      (Text.Triple text.toList ↔
        Markdown.Crowded ((Markdown.space ts).dropWhile Markdown.isLeadingSpace)) := by
  obtain ⟨ts, hts, hprose⟩ := Conversion.exists_convert_prose (o := o.sanitized)
    ⟨o.valid_sanitized, hrule⟩ hf
  have hadapt : (ofOptions o).adapt f.tokens = .ok (Markdown.layout ts) := by
    have hconvert : Conversion.convert (ofOptions o).options f.tokens = .ok ts := hts
    rw [adapt, hconvert]
    rfl
  have hrender : (ofOptions o).render f.tokens = .ok (Markdown.render (Markdown.layout ts)) := by
    rw [render, hadapt]
    rfl
  refine ⟨ts, _, hts, hrender, ?_⟩
  rw [Markdown.render, String.toList_ofList]
  exact Markdown.triple_layout hprose

/-- A heading, a list and a rule, with a blank line between two of them and never more. -/
theorem not_crowded_heading_list_rule :
    let f : Html.Forest := .element "h1" ∅ (.text "T" .nil) <| .text "\n\n" <|
      .element "ul" ∅ (.element "li" ∅ (.text "a" .nil) (.element "li" ∅ (.text "b" .nil) .nil)) <|
      .element "hr" ∅ .nil <| .element "p" ∅ (.text "c" .nil) .nil
    (∀ t ∈ f.tokens, t.OnOneLine) ∧ '\n' ∉ ({} : Options).sanitized.rule.toList ∧
      ∃ ts text, Conversion.convert ({} : Options).sanitized f.tokens = .ok ts ∧
        (ofOptions {}).render f.tokens = .ok text ∧ text = "# T\n\n* a\n* b\n\n---\n\nc\n\n" ∧
        ¬Markdown.Crowded ((Markdown.space ts).dropWhile Markdown.isLeadingSpace) := by
  intro f
  have hf : ∀ t ∈ f.tokens, t.OnOneLine := by decide +kernel
  have hrule : '\n' ∉ ({} : Options).sanitized.rule.toList := by decide
  have hvalue : (ofOptions {}).render f.tokens =
      .ok "# T\n\n* a\n* b\n\n---\n\nc\n\n" := by decide +kernel
  obtain ⟨ts, text, hts, htext, hiff⟩ := three_newlines_iff_crowded {} f hf hrule
  obtain rfl : text = "# T\n\n* a\n* b\n\n---\n\nc\n\n" :=
    Except.ok.inj (htext.symm.trans hvalue)
  have hnot : ¬Text.Triple "# T\n\n* a\n* b\n\n---\n\nc\n\n".toList := by decide +kernel
  exact ⟨hf, hrule, ts, _, hts, htext, rfl, mt hiff.mpr hnot⟩

/-- A list item behind a paragraph in the item before it: the paragraph leaves a blank line, and the
item begins with a newline of its own. -/
theorem crowded_item_behind_paragraph :
    let f : Html.Forest := .element "ul" ∅
      (.element "li" ∅ (.text "a" (.element "p" ∅ (.text "b" .nil) .nil))
        (.element "li" ∅ (.text "c" .nil) .nil)) .nil
    (∀ t ∈ f.tokens, t.OnOneLine) ∧ '\n' ∉ ({} : Options).sanitized.rule.toList ∧
      (ofOptions {}).render f.tokens = .ok "* a\n\nb\n\n\n* c\n\n" ∧
      Text.Triple "* a\n\nb\n\n\n* c\n\n".toList := by
  decide +kernel

end HtmlMarkdown.Converter
