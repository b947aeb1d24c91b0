import HtmlMarkdown.Proofs.Slack

/-!
# Hard breaks nobody wrote

The spacing pass makes a draft of a draft, and trimming takes whole tokens from its ends, or
newlines. So the text of a forest without line breaks has a hard break exactly where its spaced
stream gapes: white space is merged with the white space directly before it only where both are
newlines.
-/

namespace HtmlMarkdown

namespace Text

variable {cs ds : List Char}

/-- Text on one line makes no hard break behind it. -/
theorem hardBreak_append_of_not_mem (h : '\n' ∉ ds) (cs : List Char) :
    HardBreak (cs ++ ds) ↔ HardBreak cs := by
  induction ds generalizing cs with
  | nil => rw [List.append_nil]
  | cons d ds ih =>
    rw [List.mem_cons, not_or] at h
    have hsuffix : ¬[' ', ' ', '\n'] <:+ cs ++ [d] := by
      rintro ⟨xs, hxs⟩
      have hlast := congrArg List.getLast? hxs
      simp only [List.getLast?_append, List.getLast?_singleton] at hlast
      exact h.1 (by simpa using hlast)
    have hconcat : HardBreak (cs ++ [d]) ↔ HardBreak cs := by
      unfold HardBreak
      rw [List.infix_concat_iff, or_iff_right hsuffix]
    rw [List.append_cons, ih h.2, hconcat]

/-- Newlines at the front make none. -/
theorem hardBreak_dropWhile (cs ds : List Char) :
    HardBreak (cs.dropWhile Markdown.isNewlineChar ++ ds) ↔ HardBreak (cs ++ ds) := by
  induction cs with
  | nil => rfl
  | cons c cs ih =>
    rw [List.dropWhile_cons]
    split_ifs with hc
    · have hnewline : c = '\n' := by simpa [Markdown.isNewlineChar] using hc
      rw [ih, List.cons_append, hnewline, hardBreak_cons_of_ne (by decide)]
    · rfl

end Text

namespace Markdown

open Text (HardBreak)

variable {out after ts : List Token} {t u : Token} {before next : Option Token} {inText : Bool}
  {tag : Tag} {data : String}

theorem Draft.concat (h : Draft inText ts) (ht : Cell t) : Draft inText (ts ++ [t]) :=
  h.append (.singleton ht)

theorem cell_newlines (count : Nat) (depth : Option Nat) :
    Cell ((Token.newlines count).within depth) := by
  have hlike := Token.like_within (Token.newlines count) depth
  unfold Token.newlines at hlike ⊢
  split_ifs at hlike ⊢
  · exact .blank hlike
  · exact .newline hlike

/-- What stays of a blank line is a newline or the blank line. -/
theorem cell_foreignBlank (h : t.inCode = false) (earlier : List Token) :
    Cell (foreignBlank t earlier) := by
  unfold foreignBlank
  split_ifs
  · exact .blank ⟨Token.node_within _ _, h⟩
  · exact .newline ⟨Token.node_within _ _, h⟩

theorem Draft.rewind (h : Draft false out.reverse) (wanted : Nat) (depth : Option Nat) :
    Draft false (rewind wanted depth out).1.reverse := by
  induction out generalizing wanted with
  | nil => exact h
  | cons last earlier ih =>
    rw [Markdown.rewind]
    split
    · exact h
    · next tag htag =>
      obtain ⟨hlast, hwhite⟩ := Option.filter_eq_some_iff.mp htag
      rw [List.reverse_cons] at h
      have hend : last.tagIs Tag.isWhitespace = true := by simp [Token.tagIs, hlast, hwhite]
      obtain ⟨hearlier, hcode⟩ := h.of_whitespace_end hend
      split_ifs with hforeign hblank
      · rw [List.reverse_cons]
        exact hearlier.concat (cell_foreignBlank hcode earlier)
      · rw [List.reverse_cons]
        exact hearlier.concat (cell_foreignBlank hcode earlier)
      · rwa [List.reverse_cons]
      · exact ih hearlier wanted

theorem Draft.settle (h : Draft false out.reverse) (wanted : Nat) (depth : Option Nat) :
    Draft false (settle wanted depth out).reverse := by
  have hkept := h.rewind wanted depth
  unfold Markdown.settle
  dsimp only
  generalize Markdown.rewind wanted depth out = rewound at hkept ⊢
  generalize (if rewound.1.isEmpty || endsInRule rewound.1 then rewound.2 - 1 else rewound.2) = n
  split_ifs
  · exact hkept
  · rw [List.reverse_cons]
    exact hkept.concat (cell_newlines _ _)

namespace Spacer

def Drafted (s : Spacer) : Prop := ∃ out, s = behind out ∧ Draft false out.reverse

theorem drafted_push (h : Draft false out.reverse) (ht : Cell t) :
    ((behind out).push t).Drafted := by
  refine ⟨t :: out, rfl, ?_⟩
  rw [List.reverse_cons]
  exact h.concat ht

theorem drafted_blockStart (h : Draft false out.reverse) :
    ((behind out).blockStart t next).Drafted := by
  have hsettle (wanted : Nat) (depth : Option Nat) : ((behind out).settle wanted depth).Drafted :=
    ⟨_, rfl, h.settle wanted depth⟩
  unfold blockStart
  dsimp only
  split
  · exact hsettle _ _
  · split_ifs
    · exact ⟨out, rfl, h⟩
    · exact hsettle _ _
    · exact hsettle _ _

theorem drafted_blockEnd (h : Draft false out.reverse) :
    ((behind out).blockEnd t before next).Drafted := by
  unfold blockEnd
  split_ifs
  · exact ⟨out, rfl, h⟩
  · exact ⟨_, rfl, h.settle _ _⟩
  · exact ⟨_, rfl, h.settle _ _⟩

theorem drafted_whitespace (h : Draft false out.reverse) (ht : Cell t) :
    ((behind out).whitespace t next).Drafted := by
  unfold whitespace
  split_ifs
  · exact ⟨out, rfl, h⟩
  · cases out with
    | nil => exact drafted_push h ht
    | cons last earlier =>
      dsimp only [behind]
      split_ifs with hnewlines
      · rw [List.reverse_cons] at h
        obtain ⟨hearlier, -⟩ := h.of_whitespace_end (Token.isWhitespace_of_isNewline hnewlines.2)
        exact drafted_push hearlier (.blank (Token.like_within _ _))
      · unfold newlineAfterRule
        split_ifs
        · exact ⟨_, rfl, h⟩
        · exact drafted_push h (.newline (Token.like_within _ _))
        · exact ⟨_, rfl, h⟩
      · exact drafted_push h ht

/-- What the classes of tags have no rule for is written behind what is there. -/
theorem step_of_like_markdown (h : t.Like (.markdown tag data))
    (htag : tag.isInk = true ∨ tag = .headingStart ∨ tag = .listItemStart ∨
      tag = .charactersSplit) :
    (behind out).step before t after = behind (t :: out) := by
  have ht : t.tag? = some tag := h.tag?
  rw [step_of_tag ht]
  rcases htag with htag | rfl | rfl | rfl
  · cases tag <;> first | rfl | cases htag
  all_goals rfl

theorem step_of_like_html {raw : Html.Token} (h : t.Like (.html raw)) :
    (behind out).step before t after = behind (t :: out) := step_of_none h.tag?

theorem step_word (h : Word t) : (behind out).step before t after = behind (t :: out) := by
  cases h with
  | markdown htag hdef hdata h => exact step_of_like_markdown h (.inl htag)
  | tag hraw hu h => exact step_of_like_html h
  | text hs h => exact step_of_like_html h
  | line hs h => exact step_of_like_markdown h (.inr (.inr (.inr rfl)))

theorem drafted_step (h : Draft false out.reverse) (ht : Cell t) :
    ((behind out).step before t after).Drafted := by
  have hpush := drafted_push h ht
  have hwhitespace {tag : Tag} (htag : t.tag? = some tag)
      (hspace : tag = .space ∨ tag = .newline ∨ tag = .newlineBlank) :
      ((behind out).step before t after).Drafted := by
    rw [step_of_tag htag]
    rcases hspace with rfl | rfl | rfl <;> exact drafted_whitespace h ht
  cases ht with
  | @blockMark tag hmark hl =>
    have htag : t.tag? = some tag := hl.tag?
    rw [step_of_tag htag]
    cases tag <;> first | exact drafted_blockStart h | exact drafted_blockEnd h |
      simp [Tag.isBlockStart, Tag.isBlockEnd] at hmark
  | space hl => exact hwhitespace hl.tag? (.inl rfl)
  | newline hl => exact hwhitespace hl.tag? (.inr (.inl rfl))
  | blank hl => exact hwhitespace hl.tag? (.inr (.inr rfl))
  | ownLine hline hdata hmark hne hl =>
    rw [step_of_like_markdown hl (.inr (hline.imp_right .inl))]
    exact hpush
  | definition hdata hcs hl =>
    rw [step_of_like_markdown hl (.inl rfl)]
    exact hpush
  | word hw =>
    rw [step_word hw]
    exact hpush

/-- No block ends where a text goes on. -/
theorem not_blockEnd_of_draft (h : Draft true ts) :
    ts.head?.any (·.tagIs Tag.isBlockEnd) = false := by
  cases h with
  | line ht hs hne hu h => exact (Option.any_some ..).trans (ht.tagIs _)
  | last ht h =>
    exact (Option.any_some ..).trans (ht.tagIs_eq_false fun tag htag => by
      cases tag <;> simp_all [Tag.isInk, Tag.isBlockEnd])

/-- Behind the spaced output, whatever goes on as it is to go on makes a draft. -/
theorem drafted_run (h : Draft inText ts)
    (hout : ∀ us, Draft inText us → Draft false (out.reverse ++ us)) :
    ((behind out).run before ts).Drafted := by
  have complete {out : List Token} (h : ∀ us, Draft false us → Draft false (out.reverse ++ us)) :
      Draft false out.reverse := by simpa using h [] .nil
  induction h generalizing before out with
  | nil => exact ⟨out, rfl, complete hout⟩
  | cell ht _ ih =>
    obtain ⟨out', hstep, hout'⟩ := drafted_step (complete hout) ht
    rw [run, hstep]
    exact ih fun us hus => hout'.append hus
  | linked ht hs hu _ ih =>
    rw [run, step_of_like_html ht, run, step_word hu]
    refine ih fun us hus => ?_
    rw [List.reverse_cons, List.reverse_cons, List.append_assoc, List.append_assoc]
    exact hout _ (.linked ht hs hu hus)
  | line ht hs hne hu hrest ih =>
    rw [run, step_of_like_markdown ht (.inr (.inr (.inr rfl))), run,
      step_newline hu.tag? (ht.tagIs _) (ht.hasTag _) (not_blockEnd_of_draft hrest)]
    refine ih fun us hus => ?_
    rw [List.reverse_cons, List.reverse_cons, List.append_assoc, List.append_assoc]
    exact hout _ (.line ht hs hne hu hus)
  | last ht _ ih =>
    rw [run, step_word ht]
    refine ih fun us hus => ?_
    rw [List.reverse_cons, List.append_assoc]
    exact hout _ (.last ht hus)

end Spacer

theorem draft_space (h : Draft false ts) : Draft false (space ts) := by
  obtain ⟨out, heq, hout⟩ : (({} : Spacer).run none ts).Drafted :=
    Spacer.drafted_run h fun us hus => hus
  rwa [space, heq]

inductive Outlined (t : Token) : Prop
  | oneLine (h : ∀ s ∈ t.text?, '\n' ∉ s.toList)
  | newlines (h : t.node = Token.newline.node ∨ t.node = Token.newlineBlank.node)
  | headed {tag : Tag} {data : String} {c : Char} (h : t.node = .markdown tag data)
      (hline : tag.beginsLine = true) (hlast : data.toList.getLast? = some c) (hc : c ≠ '\n')

theorem getLast?_lineHead {depth : Nat} (h : depth ≠ 0) (cs : List Char) :
    (cs ++ lineHead depth false).getLast? = some ' ' := by
  obtain ⟨n, rfl⟩ := Nat.exists_eq_succ_of_ne_zero h
  simp [lineHead, List.replicate_succ', List.getLast?_append]

/-- In quotes a line end ends in the head of a line. -/
theorem outlined_gap (h : t.Like .newline ∨ t.Like .newlineBlank) : Outlined (indentToken t) := by
  have hcode : t.inCode = false := h.elim (·.2) (·.2)
  by_cases hdepth : t.markers = 0
  · rw [indentToken_of_lineHead (by rw [hdepth, hcode]; rfl)]
    exact .newlines (h.imp (·.1) (·.1))
  · rcases h with h | h
    all_goals
      have hnode := indentToken_node h.1
      rw [hcode] at hnode
    · have hdata : (indentLines (lineHead t.markers false) "\n").toList =
          ['\n'] ++ lineHead t.markers false := by simp [indentLines]
      exact .headed hnode rfl (hdata ▸ getLast?_lineHead hdepth _) (by decide)
    · have hdata : (indentLines (lineHead t.markers false) "\n\n").toList =
          ('\n' :: lineHead t.markers false ++ ['\n']) ++ lineHead t.markers false := by
        simp [indentLines]
      exact .headed hnode rfl (hdata ▸ getLast?_lineHead hdepth _) (by decide)

theorem outlined_of_not_mem (h : ∀ s ∈ t.text?, '\n' ∉ s.toList) : Outlined (indentToken t) := by
  rw [indentToken_of_not_mem h]
  exact .oneLine h

theorem Cell.outlined (h : Cell t) : Outlined (indentToken t) := by
  cases h with
  | blockMark htag h => exact outlined_of_not_mem (not_mem_text_of_node h.1 (by decide))
  | space h => exact outlined_of_not_mem (not_mem_text_of_node h.1 (by decide))
  | newline h => exact outlined_gap (.inl h)
  | blank h => exact outlined_gap (.inr h)
  | @ownLine tag data mark htag hdata hmark hne h =>
    have hline : tag.beginsLine = true := by rcases htag with rfl | rfl <;> rfl
    obtain ⟨hindent, hsingle⟩ := toList_indentLines_mark hdata hmark t.markers t.inCode
    obtain ⟨c, hlast, hc⟩ := getLast?_of_mark hindent hsingle (by simp [hne])
    exact .headed (indentToken_node h.1) hline hlast hc
  | definition hdata hcs h =>
    exact outlined_of_not_mem (not_mem_text_of_node h.1 (by simp [hdata, hcs]))
  | word h => exact outlined_of_not_mem h.solitary.text

theorem Draft.outlined (h : Draft inText ts) : ∀ t ∈ indentAll ts, Outlined t := by
  induction h with
  | nil => exact List.forall_mem_nil _
  | cell ht _ ih => exact List.forall_mem_cons.mpr ⟨ht.outlined, ih⟩
  | linked ht hs hu _ ih =>
    have htext := outlined_of_not_mem (not_mem_text_of_characters ht.1 hs)
    exact List.forall_mem_cons.mpr ⟨htext, List.forall_mem_cons.mpr ⟨(Cell.word hu).outlined, ih⟩⟩
  | line ht hs hne hu _ ih =>
    have hline := outlined_of_not_mem (not_mem_text_of_node ht.1 hs.single)
    exact List.forall_mem_cons.mpr
      ⟨hline, List.forall_mem_cons.mpr ⟨outlined_gap (.inl hu), ih⟩⟩
  | last ht _ ih => exact List.forall_mem_cons.mpr ⟨(Cell.word ht).outlined, ih⟩

/-- Space that is dropped at the ends has its text for its characters. -/
theorem not_mem_chars_of_isPureSpace (h : t.isPureSpace = true)
    (htext : ∀ s ∈ t.text?, '\n' ∉ s.toList) (rawText : Option String) :
    '\n' ∉ t.chars rawText := by
  obtain ⟨node, depth, inCode⟩ := t
  cases node with
  | markdown tag data =>
    have hkind : tag.renderKind ≠ .text := by
      cases tag <;> first | decide | cases h
    rw [chars_of_node rfl hkind]
    exact htext data rfl
  | native edge raw => cases h
  | html raw =>
    simp only [Token.isPureSpace, Bool.and_eq_true, beq_iff_eq] at h
    have hchars : Token.chars rawText ⟨.html raw, depth, inCode⟩ = raw.content.toList := by
      simp only [Token.chars, htmlChars, h.1]
    have htag : raw.isTag = false := by simp [Html.Token.isTag, h.1]
    rw [hchars, Html.Token.content]
    cases hraw : raw.text with
    | none => decide
    | some s => exact htext s (by simp [Token.text?, htag, hraw])

theorem Tag.not_pure_of_beginsLine (h : tag.beginsLine = true) :
    (tag == .space || tag == .tab) = false := by
  cases tag <;> first | rfl | cases h

theorem Outlined.closes (h : Outlined t) : Closes t := by
  cases h with
  | oneLine h =>
    exact ⟨fun hpure => not_mem_chars_of_isPureSpace hpure h,
      fun _ => mapText_eq_self fun s hs => trimNewlinesEnd_of_not_mem (h s hs)⟩
  | newlines h =>
    have hspacing : t.isPureSpace = false ∧ t.isSpacing = true := by
      unfold Token.isPureSpace Token.isSpacing
      rcases h with h | h <;> rw [h] <;> decide
    exact ⟨fun hpure => by simp [hspacing.1] at hpure, fun hkept => by simp [hspacing.2] at hkept⟩
  | @headed tag data c h hline hlast hc =>
    refine ⟨fun hpure => ?_, fun _ => mapText_eq_self fun s hs => ?_⟩
    · simp only [Token.isPureSpace, h] at hpure
      rw [Tag.not_pure_of_beginsLine hline] at hpure
      cases hpure
    · simp only [Token.text?, h, Option.mem_some_iff] at hs
      exact trimNewlinesEnd_of_getLast? (hs ▸ hlast) hc

theorem getLast?_dropWhile {cs : List Char} {c : Char} (h : cs.getLast? = some c) (hc : c ≠ '\n') :
    (cs.dropWhile isNewlineChar).getLast? = some c := by
  obtain ⟨xs, rfl⟩ := List.getLast?_eq_some_iff.mp h
  have hkept : isNewlineChar c = false := by simpa [isNewlineChar] using hc
  rw [List.dropWhile_append]
  split_ifs
  · simp [hkept]
  · exact List.getLast?_concat

/-- The first token of the text loses newlines at its front, and with them no hard break. -/
theorem Outlined.trimmed (h : Outlined t) (hfirst : isLeadingSpace t = false) :
    Closes (t.mapText trimNewlinesStart) ∧ ∀ ts,
      HardBreak (renderChars none (t.mapText trimNewlinesStart :: ts)) ↔
        HardBreak (renderChars none (t :: ts)) := by
  have hclosed := h.closes
  cases h with
  | oneLine h =>
    rw [mapText_eq_self fun s hs => trimNewlinesStart_of_not_mem (h s hs)]
    exact ⟨hclosed, fun ts => Iff.rfl⟩
  | newlines h =>
    have hleading : isLeadingSpace t = true := by
      unfold isLeadingSpace isNewlinesOnly Token.isPureSpace Token.text?
      rcases h with h | h <;> rw [h] <;> decide
    rw [hleading] at hfirst
    cases hfirst
  | @headed tag data c h hline hlast hc =>
    have hkind : tag.renderKind ≠ .text := by cases tag <;> first | decide | cases hline
    have hnode := node_mapText h trimNewlinesStart
    have hbehind : (trimNewlinesStart data).toList.getLast? = some c := by
      rw [trimNewlinesStart, String.toList_ofList]
      exact getLast?_dropWhile hlast hc
    refine ⟨(Outlined.headed hnode hline hbehind hc).closes, fun ts => ?_⟩
    rw [renderChars_literal hnode hkind, renderChars_literal h hkind, trimNewlinesStart,
      String.toList_ofList, Text.hardBreak_dropWhile]

theorem not_leading_indentToken (hpure : t.isPureSpace = false)
    (h : ∀ s ∈ t.text?, '\n' ∉ s.toList) : ¬isLeadingSpace (indentToken t) = true := by
  rw [indentToken_of_not_mem h, not_leading_of_not_mem hpure h]
  decide

/-- Behind the white space at its front a draft goes on as one. -/
theorem Draft.dropWhile_leading (h : Draft false ts) :
    ∃ us, Draft false us ∧ (indentAll ts).dropWhile isLeadingSpace = indentAll us := by
  generalize hb : false = inText at h
  induction h with
  | nil => exact ⟨[], .nil, rfl⟩
  | @cell t ts ht h ih =>
    by_cases hleading : isLeadingSpace (indentToken t) = true
    · obtain ⟨us, hus, heq⟩ := ih rfl
      exact ⟨us, hus, (List.dropWhile_cons_of_pos hleading).trans heq⟩
    · exact ⟨t :: ts, .cell ht h, List.dropWhile_cons_of_neg hleading⟩
  | @linked t u s ts ht hs hu h ih =>
    have hleading := not_leading_indentToken (by rw [Token.isPureSpace, ht.1]; rfl)
      (not_mem_text_of_characters ht.1 hs)
    exact ⟨t :: u :: ts, .linked ht hs hu h, List.dropWhile_cons_of_neg hleading⟩
  | @line inText t u s ts ht hs hne hu h ih =>
    have hleading := not_leading_indentToken (by rw [Token.isPureSpace, ht.1]; rfl)
      (not_mem_text_of_node ht.1 hs.single)
    exact ⟨t :: u :: ts, .line ht hs (hb ▸ hne) hu h, List.dropWhile_cons_of_neg hleading⟩
  | last ht h ih => cases hb

theorem Word.not_rule (h : Word t) : t.hasTag .horizontalRule = false := by
  have hclass := h.tagIs_eq_false (p := (· == .horizontalRule)) fun tag htag => by
    cases tag <;> simp_all [Tag.isInk]
  rw [← hclass, Token.hasTag, Token.tagIs]
  cases t.tag? <;> rfl

theorem Cell.not_rule (h : Cell t) : t.hasTag .horizontalRule = false := by
  cases h with
  | @blockMark tag htag h =>
    rw [h.hasTag]
    cases tag <;> first | rfl | simp [Tag.isBlockStart, Tag.isBlockEnd] at htag
  | ownLine htag hdata hmark hne h =>
    rw [h.hasTag]
    rcases htag with rfl | rfl <;> rfl
  | space h | newline h | blank h | definition hdata hcs h =>
    rw [h.hasTag]
    rfl
  | word h => exact h.not_rule

theorem Draft.not_rule (h : Draft inText ts) : ∀ t ∈ ts, t.hasTag .horizontalRule = false := by
  induction h with
  | nil => exact List.forall_mem_nil _
  | cell ht _ ih => exact List.forall_mem_cons.mpr ⟨ht.not_rule, ih⟩
  | linked ht hs hu _ ih =>
    exact List.forall_mem_cons.mpr ⟨ht.hasTag _, List.forall_mem_cons.mpr ⟨hu.not_rule, ih⟩⟩
  | line ht hs hne hu _ ih =>
    exact List.forall_mem_cons.mpr ⟨ht.hasTag _, List.forall_mem_cons.mpr ⟨hu.hasTag _, ih⟩⟩
  | last ht _ ih => exact List.forall_mem_cons.mpr ⟨ht.not_rule, ih⟩

/-- A laid out draft has a hard break exactly if its stream gapes behind the leading white
space. -/
theorem hardBreak_layout (h : Draft false ts) : HardBreak (renderChars none (layout ts)) ↔
    gapes 0 ((indentAll (space ts)).dropWhile isLeadingSpace) = true := by
  have hspaced := draft_space h
  have hlayout : layout ts = trimEnd (trimStart (indentAll (space ts))) := by
    rw [layout, trim, layRules_eq_self hspaced.not_rule]
  obtain ⟨us, hus, hbody⟩ := hspaced.dropWhile_leading
  have hbreaks := hardBreak_indentAll hus (k := 0) (fun h => by cases h) none
  rw [List.replicate_zero, List.nil_append, ← hbody] at hbreaks
  have houtlined := hus.outlined
  rw [← hbody] at houtlined
  rw [← hbreaks, hlayout, trimStart]
  cases hfirst : (indentAll (space ts)).dropWhile isLeadingSpace with
  | nil => exact Iff.rfl
  | cons first rest =>
    rw [hfirst] at houtlined
    obtain ⟨hout, hrest⟩ := List.forall_mem_cons.mp houtlined
    have hnot : isLeadingSpace first = false := by
      have hhead := List.head?_dropWhile_not isLeadingSpace (indentAll (space ts))
      rw [hfirst] at hhead
      simpa using hhead
    obtain ⟨hcloses, htrimmed⟩ := hout.trimmed hnot
    obtain ⟨cs, hcs, hend⟩ := exists_trimEnd
      (List.forall_mem_cons.mpr ⟨hcloses, fun t ht => (hrest t ht).closes⟩)
    rw [← htrimmed, hend]
    exact (Text.hardBreak_append_of_not_mem hcs _).symm

end Markdown

namespace Converter

/-- Without line breaks, rules, code and comments, a converter always makes a text of a forest. The
text has a hard break exactly if its spaced stream gapes: two spaces, or the space at the head of a
line and one more, stand directly before a token that begins a line. -/
theorem hardBreak_iff_gapes (o : Options) (f : Html.Forest) (hf : ∀ t ∈ f.tokens, t.Breakless) :
    ∃ ts text, Conversion.convert o.sanitized f.tokens = .ok ts ∧
      (ofOptions o).render f.tokens = .ok text ∧
      (Text.HardBreak text.toList ↔ Markdown.gapes 0
        ((Markdown.indentAll (Markdown.space ts)).dropWhile Markdown.isLeadingSpace) = true) := by
  obtain ⟨ts, hts, hdraft⟩ := Conversion.exists_convert_draft o.valid_sanitized hf
  refine ⟨ts, _, hts, render_of_adapt (adapt_of_convert hts), ?_⟩
  rw [Markdown.render, String.toList_ofList]
  exact Markdown.hardBreak_layout hdraft

/-- A paragraph, a text of some lines and a quote, each line with one space at its end at most. -/
theorem not_gapes_lines :
    let f : Html.Forest := .element "p" ∅ (.text "a" (.text " " (.element "b" ∅ (.text "c" .nil)
        (.text " " .nil)))) <|
      .text "d \n e\n\nf" <| .element "blockquote" ∅ (.element "p" ∅ (.text "g" .nil) .nil) .nil
    (∀ t ∈ f.tokens, t.Breakless) ∧
      ∃ ts text, Conversion.convert ({} : Options).sanitized f.tokens = .ok ts ∧
        (ofOptions {}).render f.tokens = .ok text ∧
        text = "a **c**\n\nd \ne\n\nf\n> \n> g\n\n" ∧ ¬Markdown.gapes 0
          ((Markdown.indentAll (Markdown.space ts)).dropWhile Markdown.isLeadingSpace) = true := by
  intro f
  have hf : ∀ t ∈ f.tokens, t.Breakless := by decide +kernel
  have hvalue : (ofOptions {}).render f.tokens =
      .ok "a **c**\n\nd \ne\n\nf\n> \n> g\n\n" := by decide +kernel
  obtain ⟨ts, text, hts, htext, hiff⟩ := hardBreak_iff_gapes {} f hf
  obtain rfl : text = "a **c**\n\nd \ne\n\nf\n> \n> g\n\n" :=
    Except.ok.inj (htext.symm.trans hvalue)
  have hnot : ¬Text.HardBreak "a **c**\n\nd \ne\n\nf\n> \n> g\n\n".toList := by decide +kernel
  exact ⟨hf, ts, _, hts, htext, rfl, mt hiff.mpr hnot⟩

/-- The spaces around an element that leaves nothing behind stay both, and so does the newline. -/
theorem hardBreak_around_nothing :
    let f : Html.Forest := .text "a" <| .text " " <| .element "span" ∅ .nil <| .text " " <|
      .element "span" ∅ .nil <| .text "\n" <| .text "b" .nil
    (∀ t ∈ f.tokens, t.Breakless) ∧ (ofOptions {}).render f.tokens = .ok "a  \nb" ∧
      Text.HardBreak "a  \nb".toList := by
  decide +kernel

end Converter

end HtmlMarkdown
