import HtmlMarkdown.Proofs.Lines

/-!
# Settled lines

`Placed` is what the output of the spacing pass keeps at every moment: each visible token stands on
a line of its own kind, up to lines behind rules. `settle` starts a line of the wanted depth, or
stays behind a rule, and `codeLine` starts a line of a code block.
-/

namespace HtmlMarkdown.Markdown

structure Stands (earlier : List Token) (t : Token) : Prop where
  formed : t.Formed
  depth : t.quoteDepth ≠ some 0
  unflagged : (t.hasTag .horizontalRule = true ∨ t.hasTag .newlineBlank = true ∨
    t.hasTag .startNativeBlock = true) → t.inCode = false
  line : t.isVisible = true → t.hasTag .horizontalRule = true ∨ t.startsLine = true ∨
    EndsAt t.quoteDepth t.inCode (layRules earlier)
  native : t.hasTag .startNativeBlock = true → EndsAt t.quoteDepth t.inCode (layRules earlier)

inductive Placed : List Token → Prop
  | nil : Placed []
  | cons {t : Token} {earlier : List Token} (ht : Stands earlier t) (h : Placed earlier) :
      Placed (t :: earlier)

variable {out earlier : List Token} {t : Token} {depth : Option Nat} {inCode : Bool} {wanted : Nat}

theorem Placed.tail (h : Placed (t :: earlier)) : Placed earlier := by
  cases h with
  | cons _ h => exact h

theorem Placed.head (h : Placed (t :: earlier)) : Stands earlier t := by
  cases h with
  | cons ht _ => exact ht

theorem Placed.of_append (ts : List Token) (h : Placed (ts ++ earlier)) : Placed earlier := by
  induction ts with
  | nil => exact h
  | cons t ts ih => exact ih h.tail

theorem Token.tag?_eq_of_hasTag {tag : Tag} (h : t.hasTag tag = true) : t.tag? = some tag :=
  eq_of_beq h

theorem Token.chars_of_isNewline (h : t.isNewline = true) :
    ∃ tag data, t.node = .markdown tag data ∧ tag.isNewline = true ∧
      t.chars none = data.toList := by
  obtain ⟨node, depth, flag⟩ := t
  cases node with
  | markdown tag data =>
    refine ⟨tag, data, rfl, h, ?_⟩
    have htag : tag.isNewline = true := h
    cases tag <;> first | rfl | cases htag
  | native edge raw => cases edge <;> cases h
  | html raw => cases h

theorem Token.hasNewline_of_isNewline (hf : t.Formed) (h : t.isNewline = true) :
    t.hasNewline = true := by
  obtain ⟨tag, data, hnode, htag, hchars⟩ := Token.chars_of_isNewline h
  unfold Token.Formed at hf
  rw [hnode] at hf
  unfold Token.hasNewline
  rw [hchars]
  simpa using (hf.1 htag).1

theorem Token.not_isVisible_of_isNewline (hf : t.Formed) (h : t.isNewline = true) :
    t.isVisible = false := by
  obtain ⟨tag, data, hnode, htag, hchars⟩ := Token.chars_of_isNewline h
  unfold Token.Formed at hf
  rw [hnode] at hf
  have hblank := (hf.1 htag).2
  unfold Token.isVisible
  rw [hchars]
  simpa [Text.isBlank] using hblank

theorem Token.not_hasTag_of_isNewline (h : t.isNewline = true) :
    t.hasTag .horizontalRule = false ∧ t.hasTag .startNativeBlock = false := by
  unfold Token.isNewline Token.tagIs at h
  unfold Token.hasTag
  cases ht : t.tag? with
  | none => simp [ht] at h
  | some tag =>
    rw [ht] at h
    cases tag <;> simp_all [Tag.isNewline]

/-- A newline may stand anywhere, and begins a line of its own kind. -/
theorem stands_of_isNewline (hf : t.Formed) (h : t.isNewline = true) (hd : t.quoteDepth ≠ some 0)
    (hu : t.hasTag .newlineBlank = true → t.inCode = false) : Stands earlier t where
  formed := hf
  depth := hd
  unflagged hany := by
    obtain ⟨hrule, hnative⟩ := Token.not_hasTag_of_isNewline h
    simp only [hrule, hnative, Bool.false_eq_true, false_or, or_false] at hany
    exact hu hany
  line hvisible := by simp [Token.not_isVisible_of_isNewline hf h] at hvisible
  native hnative := by simp [(Token.not_hasTag_of_isNewline h).2] at hnative

theorem endsAt_newline_iff (hf : t.Formed) (h : t.isNewline = true) :
    EndsAt depth inCode (layRules (t :: earlier)) ↔ t.inCode = inCode ∧
      (t.quoteDepth = depth ∨
        endsInRule ((layRules earlier).dropWhile Token.isNewline) = true) := by
  rw [layRules_cons_of_not_rule (Token.not_hasTag_of_isNewline h).1]
  simp [EndsAt, lineBreak?, behindRule, Token.hasNewline_of_isNewline hf h, h]

structure FreshNewline (depth : Option Nat) (t : Token) : Prop where
  formed : t.Formed
  newline : t.isNewline = true
  depth : t.quoteDepth = depth
  unflagged : t.inCode = false

theorem quoteDepth_within_eq (ht : t.quoteDepth = none) (hd : depth ≠ some 0) :
    (t.within depth).quoteDepth = depth := by
  simp only [Token.within, ht]
  cases depth with
  | none => rfl
  | some n =>
    have hn : 0 < n := Nat.pos_of_ne_zero fun h => hd (by rw [h])
    simp [Option.filter, hn]

theorem freshNewline_newline (hd : depth ≠ some 0) :
    FreshNewline depth (Token.newline.within depth) where
  formed := Token.formed_within (Token.plain_newline rfl (by decide) (by decide)).formed _
  newline := Token.tagIs_within _ _ _
  depth := quoteDepth_within_eq rfl hd
  unflagged := Token.inCode_within _ _

theorem freshNewline_blank (hd : depth ≠ some 0) :
    FreshNewline depth (Token.newlineBlank.within depth) where
  formed := Token.formed_within (Token.plain_newline rfl (by decide) (by decide)).formed _
  newline := Token.tagIs_within _ _ _
  depth := quoteDepth_within_eq rfl hd
  unflagged := Token.inCode_within _ _

theorem freshNewline_newlines (count : Nat) (hd : depth ≠ some 0) :
    FreshNewline depth ((Token.newlines count).within depth) := by
  unfold Token.newlines
  split
  · exact freshNewline_blank hd
  · exact freshNewline_newline hd

theorem FreshNewline.placed (h : FreshNewline depth t) (hd : depth ≠ some 0) (hp : Placed out) :
    Placed (t :: out) :=
  .cons (stands_of_isNewline h.formed h.newline (h.depth ▸ hd) fun _ => h.unflagged) hp

theorem FreshNewline.endsAt (h : FreshNewline depth t) :
    EndsAt depth false (layRules (t :: out)) := by
  rw [endsAt_newline_iff h.formed h.newline]
  exact ⟨h.unflagged, .inl h.depth⟩

/-- What `rewind` leaves: with all newlines still wanted, behind a newline of another depth, or
behind a rule with a blank line of another depth. -/
inductive Rewound (wanted : Nat) (depth : Option Nat) : List Token × Nat → Prop
  | cleared {kept : List Token} (hp : Placed kept) : Rewound wanted depth (kept, wanted)
  | foreign {kept : List Token} (hp : Placed kept) (hne : kept ≠ [])
      (hr : endsInRule kept = false) : Rewound wanted depth (kept, 1)
  | behindRule {t : Token} {kept : List Token} (hp : Placed (t :: kept)) (ht : t.isNewline = true)
      (he : EndsAt depth false (layRules (t :: kept))) : Rewound wanted depth (t :: kept, 0)

theorem foreignBlank_fresh (earlier : List Token) (hd : t.quoteDepth ≠ some 0)
    (hu : t.inCode = false) : FreshNewline t.quoteDepth (foreignBlank t earlier) := by
  unfold foreignBlank
  dsimp only
  split
  · obtain ⟨hf, hn, hdepth, -⟩ := freshNewline_blank hd
    rw [hu]
    exact ⟨hf, hn, hdepth, rfl⟩
  · obtain ⟨hf, hn, hdepth, -⟩ := freshNewline_newline hd
    rw [hu]
    exact ⟨hf, hn, hdepth, rfl⟩

/-- Only newlines stand between a rule and the end of the stream, so its last line is any line. -/
theorem endsAt_newline_rule (hf : t.Formed) (h : t.isNewline = true) (hu : t.inCode = false)
    (hr : endsInRule earlier = true) (depth : Option Nat) :
    EndsAt depth false (layRules (t :: earlier)) := by
  rw [endsAt_newline_iff hf h]
  exact ⟨hu, .inr (endsInRule_dropWhile_layRules hr)⟩

theorem rewound (wanted : Nat) (depth : Option Nat) (h : Placed out) :
    Rewound wanted depth (rewind wanted depth out) := by
  induction out with
  | nil => exact .cleared h
  | cons last earlier ih =>
    rw [rewind]
    split
    · exact .cleared h
    · next tag htag =>
      have htag? : last.tag? = some tag := by
        cases hl : last.tag? with
        | none => simp [hl] at htag
        | some tag' =>
          simp only [hl, Option.filter_some] at htag
          split_ifs at htag
          exact htag
      have hstands := h.head
      split_ifs with hforeign hblank hrule
      · have hflag : last.inCode = false :=
          hstands.unflagged (.inr (.inl (by simp [Token.hasTag, htag?, hblank])))
        have hfresh := foreignBlank_fresh earlier hstands.depth hflag
        exact .behindRule (hfresh.placed hstands.depth h.tail) hfresh.newline
          (endsAt_newline_rule hfresh.formed hfresh.newline hfresh.unflagged hrule depth)
      · have hflag : last.inCode = false :=
          hstands.unflagged (.inr (.inl (by simp [Token.hasTag, htag?, hblank])))
        have hfresh := foreignBlank_fresh earlier hstands.depth hflag
        refine .foreign (hfresh.placed hstands.depth h.tail) (List.cons_ne_nil _ _) ?_
        exact (Token.not_hasTag_of_isNewline hfresh.newline).1
      · refine .foreign h (List.cons_ne_nil _ _) ?_
        have hnewline : last.isNewline = true := by
          simpa [Token.isNewline, Token.tagIs, htag?] using hforeign.1
        exact (Token.not_hasTag_of_isNewline hnewline).1
      · exact ih h.tail

structure Settled (depth : Option Nat) (out : List Token) : Prop where
  placed : Placed out
  endsAt : EndsAt depth false (layRules out)
  head : out.head?.any (·.hasTag .startNativeBlock) = false

theorem FreshNewline.settled (h : FreshNewline depth t) (hd : depth ≠ some 0) (hp : Placed out) :
    Settled depth (t :: out) where
  placed := h.placed hd hp
  endsAt := h.endsAt
  head := by simpa using (Token.not_hasTag_of_isNewline h.newline).2

theorem settled_of_endsInRule (hp : Placed out) (hr : endsInRule out = true) (depth : Option Nat) :
    Settled depth out := by
  cases hp with
  | nil => cases hr
  | @cons rule earlier ht h =>
    have hrule : rule.hasTag .horizontalRule = true := hr
    refine ⟨.cons ht h, ?_, ?_⟩
    · rw [← ht.unflagged (.inl hrule)]
      exact endsAt_layRules_rule hrule depth
    · have hne : rule.hasTag .startNativeBlock = false := by
        unfold Token.hasTag at hrule ⊢
        rw [eq_of_beq hrule]
        rfl
      simpa using hne

theorem settled_settle (hp : Placed out) (hd : depth ≠ some 0) (hw : 0 < wanted) :
    Settled depth (settle wanted depth out) ∨ settle wanted depth out = [] ∧ wanted = 1 := by
  have hstart (kept : List Token) (hk : Placed kept) (missing : Nat) :
      Settled depth ((Token.newlines missing).within depth :: kept) :=
    (freshNewline_newlines missing hd).settled hd hk
  have hcases := rewound wanted depth hp
  unfold settle
  generalize rewind wanted depth out = rewound at hcases
  cases hcases with
  | @cleared kept hk =>
    dsimp only
    split_ifs with hrule hmissing
    · rw [Bool.or_eq_true] at hrule
      rcases hrule with hempty | hrule
      · exact .inr ⟨List.isEmpty_iff.mp hempty, by omega⟩
      · exact .inl (settled_of_endsInRule hk hrule depth)
    · exact .inl (hstart kept hk _)
    · omega
    · exact .inl (hstart kept hk _)
  | @foreign kept hk hne hr =>
    have hempty : kept.isEmpty = false := by simpa using hne
    simp only [hempty, hr, Bool.or_self, Bool.false_eq_true, if_false, Nat.one_ne_zero]
    exact .inl (hstart kept hk 1)
  | @behindRule t kept hk ht he =>
    simp only [Nat.zero_sub, ite_self, if_true]
    exact .inl ⟨hk, he, by simpa using (Token.not_hasTag_of_isNewline ht).2⟩

theorem settled_settle_two (hp : Placed out) (hd : depth ≠ some 0) :
    Settled depth (settle 2 depth out) := by
  rcases settled_settle hp hd (Nat.succ_pos 1) with h | ⟨-, h⟩
  · exact h
  · omega

theorem settle_one_of_endsInRule (h : endsInRule out = true) (depth : Option Nat) :
    settle 1 depth out = out := by
  cases out with
  | nil => cases h
  | cons rule earlier =>
    have hrule : rule.tag? = some .horizontalRule := Token.tag?_eq_of_hasTag h
    have hrewind : rewind 1 depth (rule :: earlier) = (rule :: earlier, 1) := by
      rw [rewind, hrule]
      rfl
    simp [settle, hrewind, h]

theorem Token.isNewline_of_isSingleNewline (h : t.tagIs Tag.isSingleNewline = true) :
    t.isNewline = true ∧ t.hasTag .newlineBlank = false := by
  unfold Token.tagIs at h
  unfold Token.isNewline Token.tagIs Token.hasTag
  cases ht : t.tag? with
  | none => simp [ht] at h
  | some tag =>
    rw [ht] at h
    cases tag <;> simp_all [Tag.isSingleNewline, Tag.isNewline]

/-- A single newline begins a line of code when it is flagged. -/
theorem placed_inCodeBlock (hf : t.Formed) (h : t.tagIs Tag.isSingleNewline = true)
    (hd : t.quoteDepth ≠ some 0) (hp : Placed out) : Placed (t.inCodeBlock :: out) := by
  obtain ⟨hnewline, hblank⟩ := Token.isNewline_of_isSingleNewline h
  refine .cons (stands_of_isNewline hf hnewline hd fun hb => ?_) hp
  exact absurd (hblank.symm.trans hb) Bool.false_ne_true

theorem endsAt_inCodeBlock_iff (hf : t.Formed) (h : t.isNewline = true) :
    EndsAt depth true (layRules (t.inCodeBlock :: earlier)) ↔
      t.quoteDepth = depth ∨ endsInRule ((layRules earlier).dropWhile Token.isNewline) = true := by
  have hiff := @endsAt_newline_iff earlier t.inCodeBlock depth true hf h
  rw [hiff]
  exact and_iff_right rfl

/-- A code block begins on a line of its own, at the depth where it opens. -/
theorem placed_codeLine (hp : Placed out) (hd : depth ≠ some 0)
    (he : EndsAt depth false (layRules out)) :
    Placed (Spacer.codeLine depth out) ∧
      EndsAt depth true (layRules (Spacer.codeLine depth out)) := by
  have hsingle : (Token.newline.within depth).tagIs Tag.isSingleNewline = true :=
    Token.tagIs_within _ _ _
  have hfresh : Placed ((Token.newline.within depth).inCodeBlock :: out) ∧
      EndsAt depth true (layRules ((Token.newline.within depth).inCodeBlock :: out)) := by
    obtain ⟨hf, hn, hdepth, -⟩ := freshNewline_newline hd
    refine ⟨placed_inCodeBlock hf hsingle (by rwa [hdepth]) hp, ?_⟩
    exact (endsAt_inCodeBlock_iff hf hn).mpr (.inl hdepth)
  cases hp with
  | nil => exact hfresh
  | @cons last earlier ht h =>
    unfold Spacer.codeLine
    dsimp only
    split_ifs with hone hblank
    · have hnewline := (Token.isNewline_of_isSingleNewline hone).1
      refine ⟨placed_inCodeBlock ht.formed hone ht.depth h, ?_⟩
      rw [endsAt_inCodeBlock_iff ht.formed hnewline]
      exact ((endsAt_newline_iff ht.formed hnewline).mp he).2
    · have hnewline : last.isNewline = true := by
        simp [Token.isNewline, Token.tagIs, Token.tag?_eq_of_hasTag hblank, Tag.isNewline]
      have hline := freshNewline_newline ht.depth
      have hsingle' : (Token.newline.within last.quoteDepth).tagIs Tag.isSingleNewline = true :=
        Token.tagIs_within _ _ _
      refine ⟨placed_inCodeBlock hline.formed hsingle' (by rw [hline.depth]; exact ht.depth)
        (hline.placed ht.depth h), ?_⟩
      rw [endsAt_inCodeBlock_iff hline.formed hline.newline, hline.depth,
        layRules_cons_of_not_rule (Token.not_hasTag_of_isNewline hline.newline).1,
        List.dropWhile_cons_of_pos hline.newline]
      exact ((endsAt_newline_iff ht.formed hnewline).mp he).2
    · exact hfresh

end HtmlMarkdown.Markdown
