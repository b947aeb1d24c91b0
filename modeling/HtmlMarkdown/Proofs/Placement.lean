import HtmlMarkdown.Proofs.Settling

/-!
# Placement through the spacing pass

The spacing pass keeps its output placed. Outside of code the output ends on a line of the current
depth, or the next token is one that begins a line; inside code it ends on a line of the current
depth and of the kind of the region. Over a coherent stream every step keeps that up, so every
visible token of a laid out stream is in place unless it is stranded behind a rule.
-/

namespace HtmlMarkdown.Markdown

namespace Spacer

/-- The token begins a line, leaves that to the token behind it, or is not shown. -/
def expects (s : Spacer) (t : Token) : Bool :=
  t.isBlockMark || t.isNewline || t.tagIs Tag.opensOnNewLine ||
    (t.hasTag .endNativeBlock && s.dropNativeEnd)

end Spacer

structure Ready (depth : Option Nat) (out : List Token) : Prop where
  endsAt : EndsAt depth false (layRules out)
  head : ∀ t ∈ out.head?, t.hasTag .startNativeBlock = true → t.quoteDepth = depth

structure Outside (done : List Token) (s : Spacer) (next : Option Token) : Prop where
  code : s.code = none
  skip : s.skipNext = false
  regions : openRegions done = 0
  placed : Placed s.output
  ready : Ready (depthBehind done) s.output ∨ next.all s.expects = true
  rule : done.head?.any (·.hasTag .horizontalRule) = true → endsInRule s.output = true

structure Inside (done : List Token) (s : Spacer) (opened : OpenCode) (rest : List Token) :
    Prop where
  code : s.code = some opened
  regions : openRegions done = opened.depth + 1
  placed : Placed s.output
  endsAt : EndsAt (depthBehind done) (opened.kind == .block) (layRules s.output)
  skip : s.skipNext = true → rest.head?.any Token.isRawNewlines = true
  close : opened.kind = .block → ∃ place native,
    matchingCodeEnd (opened.depth + 1) rest = some place ∧
    CodeRegion.ahead (rest.drop (place + 1)) = some native ∧
      (native.isSome = true → s.dropNativeEnd = true)

variable {done rest out : List Token} {s : Spacer} {t : Token} {depth : Option Nat}
  {opened : OpenCode}

theorem Settled.ready (h : Settled depth out) : Ready depth out where
  endsAt := h.endsAt
  head t ht hn := by
    have hhead := h.head
    rw [Option.mem_def.mp ht] at hhead
    exact absurd (hhead.symm.trans hn) Bool.false_ne_true

theorem Ready.push (h : Ready depth out) (hd : t.quoteDepth = depth) (hc : t.inCode = false) :
    Ready depth (t :: out) where
  endsAt := h.endsAt.layRules_cons hd hc
  head u hu _ := by
    obtain rfl : t = u := by simpa using hu
    exact hd

theorem ready_of_hasNewline (hn : t.hasNewline = true) (hr : t.hasTag .horizontalRule = false)
    (hc : t.inCode = false) : Ready t.quoteDepth (t :: out) where
  endsAt := by
    rw [layRules_cons_of_not_rule hr, ← hc]
    exact endsAt_of_hasNewline hn
  head u hu _ := by
    obtain rfl : t = u := by simpa using hu
    rfl

theorem Fits.stands (hf : Fits done t) (hline : EndsAt t.quoteDepth t.inCode (layRules out)) :
    Stands out t where
  formed := hf.formed
  depth := hf.depth
  unflagged _ := hf.unflagged
  line _ := .inr (.inr hline)
  native _ := hline

/-- A token that moves no depth stays on the line that is ready for it. -/
theorem Ready.placed (h : Ready (depthBehind done) out) (hp : Placed out) (hf : Fits done t)
    (hm : t.isBlockMark = false) : Placed (t :: out) ∧ Ready t.quoteDepth (t :: out) := by
  have hd : t.quoteDepth = depthBehind done := hf.level.resolve_left (by simp [hm])
  rw [hd]
  refine ⟨.cons (hf.stands ?_) hp, h.push hd hf.unflagged⟩
  rw [hd, hf.unflagged]
  exact h.endsAt

/-- A stream that is settled for the next token is a state outside of code. -/
theorem Outside.of_ready {s' : Spacer} {next : Option Token} (hcode : s'.code = none)
    (hskip : s'.skipNext = false) (hz : openRegions (t :: done) = 0) (hp : Placed s'.output)
    (hr : Ready t.quoteDepth s'.output) (ht : t.hasTag .horizontalRule = false) :
    Outside (t :: done) s' next where
  code := hcode
  skip := hskip
  regions := hz
  placed := hp
  ready := .inl hr
  rule h := by simp [ht] at h

theorem Outside.of_expects {s' : Spacer} {next : Option Token} (hcode : s'.code = none)
    (hskip : s'.skipNext = false) (hz : openRegions (t :: done) = 0) (hp : Placed s'.output)
    (hn : next.all s'.expects = true) (ht : t.hasTag .horizontalRule = false) :
    Outside (t :: done) s' next where
  code := hcode
  skip := hskip
  regions := hz
  placed := hp
  ready := .inr hn
  rule h := by simp [ht] at h

/-- Where the next token begins no line, the output is ready for it. -/
theorem Outside.ready_of_not_expects (h : Outside done s (some t)) (ht : s.expects t = false) :
    Ready (depthBehind done) s.output := by
  rcases h.ready with hr | hn
  · exact hr
  · simp [ht] at hn

theorem Outside.blockStart {next : Option Token} (h : Outside done s (some t)) (hf : Fits done t)
    (ht : t.hasTag .horizontalRule = false) (hz : openRegions (t :: done) = 0)
    (hnext : ∀ u ∈ next, u.quoteDepth ≠ some 0) :
    Outside (t :: done) (s.blockStart t next) next := by
  have hwanted : Outside (t :: done) (s.settle 2 t.quoteDepth) next := by
    have hs := settled_settle_two h.placed hf.depth
    exact .of_ready h.code h.skip hz hs.placed hs.ready ht
  unfold Spacer.blockStart
  dsimp only
  split
  · exact hwanted
  · next u =>
    split_ifs with hopen hline
    · refine .of_expects h.code h.skip hz h.placed ?_ ht
      rcases hopen with hopen | hopen <;>
        simp [Spacer.expects, Token.isBlockMark, hopen]
    · have hp : Placed (settle 1 u.quoteDepth s.output) := by
        rcases settled_settle h.placed (hnext u rfl) (Nat.succ_pos 0) with hs | ⟨hs, -⟩
        · exact hs.placed
        · rw [hs]
          exact .nil
      refine .of_expects h.code h.skip hz hp ?_ ht
      simp [Spacer.expects, hline]
    · exact hwanted

theorem Outside.blockEnd {next : Option Token} (h : Outside done s (some t)) (hf : Fits done t)
    (ht : t.hasTag .horizontalRule = false) (hz : openRegions (t :: done) = 0) :
    Outside (t :: done) (s.blockEnd t done.head? next) next := by
  unfold Spacer.blockEnd
  split
  · next hopen =>
    refine .of_expects h.code h.skip hz h.placed ?_ ht
    cases next with
    | none => rfl
    | some u =>
      rcases hopen with hopen | hopen <;> rw [Option.any_some] at hopen <;>
        simp [Spacer.expects, Token.isBlockMark, hopen]
  · split_ifs with hrule
    · have hlast : done.head?.any (·.hasTag .horizontalRule) = true := by
        cases hd : done.head? with
        | none => simp [hd] at hrule
        | some u =>
          rw [hd] at hrule
          rw [Option.any_some] at hrule ⊢
          unfold Token.tagIs at hrule
          unfold Token.hasTag
          cases hu : u.tag? with
          | none => simp [hu] at hrule
          | some tag =>
            rw [hu] at hrule
            cases tag <;> simp_all [Tag.closesItsLine]
      have hends := h.rule hlast
      have hsame : s.settle 1 t.quoteDepth = s := by
        unfold Spacer.settle
        rw [settle_one_of_endsInRule hends]
      rw [hsame]
      exact .of_ready h.code h.skip hz h.placed
        (settled_of_endsInRule h.placed hends t.quoteDepth).ready ht
    · have hs := settled_settle_two h.placed hf.depth
      exact .of_ready h.code h.skip hz hs.placed hs.ready ht

theorem Token.exists_of_tagIs {p : Tag → Bool} (h : t.tagIs p = true) :
    ∃ tag, t.tag? = some tag ∧ p tag = true := by
  unfold Token.tagIs at h
  cases ht : t.tag? with
  | none => simp [ht] at h
  | some tag => exact ⟨tag, rfl, by simpa [ht] using h⟩

/-- A newline begins a line of its own. -/
theorem Outside.push_newline {next : Option Token} (h : Outside done s (some t)) (hf : Fits done t)
    (hn : t.isNewline = true) (hz : openRegions (t :: done) = 0) :
    Outside (t :: done) (s.push t) next := by
  have hrule := (Token.not_hasTag_of_isNewline hn).1
  refine .of_ready h.code h.skip hz ?_
    (ready_of_hasNewline (Token.hasNewline_of_isNewline hf.formed hn) hrule hf.unflagged) hrule
  exact .cons (stands_of_isNewline hf.formed hn hf.depth fun _ => hf.unflagged) h.placed

/-- A token that expects nothing of itself stands where the output is ready for it. -/
theorem Outside.push {next : Option Token} (h : Outside done s (some t)) (hf : Fits done t)
    (ht : s.expects t = false) (hz : openRegions (t :: done) = 0) :
    Outside (t :: done) (s.push t) next := by
  have hready := h.ready_of_not_expects ht
  simp only [Spacer.expects, Bool.or_eq_false_iff] at ht
  obtain ⟨⟨⟨hmark, -⟩, hline⟩, -⟩ := ht
  have hrule : t.hasTag .horizontalRule = false := by
    by_contra hr
    rw [Bool.not_eq_false] at hr
    simp [Token.tagIs, Token.tag?_eq_of_hasTag hr, Tag.opensOnNewLine] at hline
  obtain ⟨hp, hr⟩ := hready.placed h.placed hf hmark
  exact .of_ready h.code h.skip hz hp hr hrule

theorem Outside.whitespace {next : Option Token} (h : Outside done s (some t)) (hf : Fits done t)
    (hw : t.tagIs Tag.isWhitespace = true) (hz : openRegions (t :: done) = 0) :
    Outside (t :: done) (s.whitespace t next) next := by
  obtain ⟨tag, htag, hclass⟩ := Token.exists_of_tagIs hw
  have hrule : t.hasTag .horizontalRule = false := by
    cases tag <;> simp_all [Token.hasTag, Tag.isWhitespace]
  have hpush : Outside (t :: done) (s.push t) next := by
    by_cases hn : t.isNewline = true
    · exact h.push_newline hf hn hz
    · refine h.push hf ?_ hz
      cases tag <;> simp_all [Spacer.expects, Token.isBlockMark, Token.isNewline, Token.tagIs,
        Token.hasTag, Tag.isWhitespace, Tag.isNewline, Tag.isBlockStart, Tag.isBlockEnd,
        Tag.opensOnNewLine]
  unfold Spacer.whitespace
  split_ifs with hend
  · refine .of_expects h.code h.skip hz h.placed ?_ hrule
    cases next with
    | none => cases hend
    | some u =>
      rw [Option.any_some] at hend
      simp [Spacer.expects, Token.isBlockMark, hend]
  · cases hout : s.output with
    | nil => exact hpush
    | cons last earlier =>
      have hp : Placed (last :: earlier) := hout ▸ h.placed
      dsimp only
      split_ifs with hmerge hbehind
      · have hfresh := freshNewline_blank hf.depth
        have hs := hfresh.settled hf.depth hp.tail
        exact .of_ready h.code h.skip hz hs.placed hs.ready hrule
      · have hends : endsInRule s.output = true := by
          rw [hout]
          exact hbehind.2
        unfold Spacer.newlineAfterRule
        split_ifs with hstart hblank
        · refine .of_expects h.code h.skip hz h.placed ?_ hrule
          cases next with
          | none => rfl
          | some u =>
            rw [Option.any_some] at hstart
            simp [Spacer.expects, Token.isBlockMark, hstart]
        · have hs := (freshNewline_newline hf.depth).settled hf.depth h.placed
          exact .of_ready h.code h.skip hz hs.placed hs.ready hrule
        · exact .of_ready h.code h.skip hz h.placed
            (settled_of_endsInRule h.placed hends t.quoteDepth).ready hrule
      · exact hpush

/-- A region is a block only where what is ahead of its end lets it be one. -/
theorem CodeRegion.ahead_of_block {tokens : List Token}
    (h : (CodeRegion.classify out tokens).kind = .block) :
    ∃ place native, matchingCodeEnd 0 tokens = some place ∧
      CodeRegion.ahead (tokens.drop (place + 1)) = some native ∧
      (CodeRegion.classify out tokens).nativeClose.isSome = native.isSome := by
  unfold CodeRegion.classify at h ⊢
  cases hm : matchingCodeEnd 0 tokens with
  | none => simp [hm, CodeRegion.inline] at h
  | some place =>
    simp only [hm] at h ⊢
    cases hb : CodeRegion.behind out with
    | none => simp [hb, CodeRegion.inline] at h
    | some nativeOpen =>
      cases ha : CodeRegion.ahead (tokens.drop (place + 1)) with
      | none => simp [hb, ha, CodeRegion.inline] at h
      | some native => exact ⟨place, native, rfl, ha, by simp⟩

theorem matchingCodeEnd_startCode {n place : Nat} (ht : t.tag? = some .startCode)
    (h : matchingCodeEnd n (t :: rest) = some place) :
    ∃ p, place = p + 1 ∧ matchingCodeEnd (n + 1) rest = some p := by
  rw [matchingCodeEnd, ht] at h
  obtain ⟨p, hp, rfl⟩ := Option.map_eq_some_iff.mp h
  exact ⟨p, rfl, hp⟩

theorem placed_codeDelimiter (hd : t.quoteDepth ≠ some 0) (hp : Placed out)
    (he : EndsAt t.quoteDepth false (layRules out)) :
    Placed (Spacer.codeDelimiter t :: out) ∧
      EndsAt t.quoteDepth false (layRules (Spacer.codeDelimiter t :: out)) := by
  have hplain : (Token.charactersAdded "`").Plain := Token.plain_markdown _ rfl
  have hdepth : (Spacer.codeDelimiter t).quoteDepth = t.quoteDepth :=
    quoteDepth_within_eq hplain.depth hd
  have hflag : (Spacer.codeDelimiter t).inCode = false := Token.inCode_within _ _
  have hline : EndsAt (Spacer.codeDelimiter t).quoteDepth (Spacer.codeDelimiter t).inCode
      (layRules out) := by rwa [hdepth, hflag]
  exact ⟨.cons ⟨Token.formed_within hplain.formed _, by rwa [hdepth], fun _ => hflag,
    fun _ => .inr (.inr hline), fun _ => hline⟩ hp, he.layRules_cons hdepth hflag⟩

def dropNative (drop : Bool) : List Token → List Token
  | [] => []
  | last :: earlier => if drop && last.hasTag .startNativeBlock then earlier else last :: earlier

theorem Ready.dropNative (h : Ready depth out) (hp : Placed out) (drop : Bool) :
    Placed (dropNative drop out) ∧ EndsAt depth false (layRules (dropNative drop out)) := by
  cases hp with
  | nil => exact ⟨.nil, h.endsAt⟩
  | @cons last earlier ht hp =>
    unfold Markdown.dropNative
    dsimp only
    split_ifs with hdrop
    · rw [Bool.and_eq_true] at hdrop
      have hnative := hdrop.2
      have hflag := ht.unflagged (.inr (.inr hnative))
      have hdepth := h.head last rfl hnative
      refine ⟨hp, ?_⟩
      have hline := ht.native hnative
      rwa [hdepth, hflag] at hline
    · exact ⟨.cons ht hp, h.endsAt⟩

theorem Outside.openCode (h : Outside done s (some t)) (hf : Fits done t)
    (ht : t.tag? = some .startCode) :
    ∃ opened, Inside (t :: done) (s.openCode t rest) opened rest := by
  have hexpects : s.expects t = false := by
    simp [Spacer.expects, Token.isBlockMark, Token.isNewline, Token.tagIs, Token.hasTag, ht,
      Tag.isBlockStart, Tag.isBlockEnd, Tag.isNewline, Tag.opensOnNewLine]
  have hmark : t.isBlockMark = false := by
    simp [Token.isBlockMark, Token.tagIs, ht, Tag.isBlockStart, Tag.isBlockEnd]
  have hd : t.quoteDepth = depthBehind done := hf.level.resolve_left (by simp [hmark])
  have hready : Ready t.quoteDepth s.output := by
    rw [hd]
    exact h.ready_of_not_expects hexpects
  have hz : openRegions (t :: done) = 0 + 1 := by
    simp [openRegions, ht, h.regions]
  refine ⟨{ kind := (CodeRegion.classify s.output (t :: rest)).kind }, ?_⟩
  unfold Spacer.openCode
  dsimp only
  split
  · next hkind =>
    obtain ⟨hp, he⟩ := placed_codeDelimiter hf.depth h.placed hready.endsAt
    refine ⟨rfl, hz, hp, ?_, fun hskip => hskip, fun hblock => ?_⟩
    · rw [hkind]
      exact he
    · rw [hkind] at hblock
      cases hblock
  · next hkind =>
    obtain ⟨hkept, hends⟩ := hready.dropNative h.placed
      (CodeRegion.classify s.output (t :: rest)).nativeOpen.isSome
    obtain ⟨hp, he⟩ := placed_codeLine hkept hf.depth hends
    refine ⟨rfl, hz, hp, ?_, fun hskip => hskip, fun _ => ?_⟩
    · rw [hkind]
      exact he
    · obtain ⟨place, native, hplace, hahead, hclose⟩ := CodeRegion.ahead_of_block hkind
      obtain ⟨p, rfl, hp⟩ := matchingCodeEnd_startCode ht hplace
      refine ⟨p, native, hp, hahead, fun hsome => ?_⟩
      simp [hclose, hsome]

theorem matchingCodeEnd_of_tag?_none {n place : Nat} (ht : t.tag? = none)
    (h : matchingCodeEnd n (t :: rest) = some place) :
    ∃ p, place = p + 1 ∧ matchingCodeEnd n rest = some p := by
  rw [matchingCodeEnd, ht] at h
  obtain ⟨p, hp, rfl⟩ := Option.map_eq_some_iff.mp h
  exact ⟨p, rfl, hp⟩

theorem matchingCodeEnd_endCode {n place : Nat} (ht : t.tag? = some .endCode)
    (h : matchingCodeEnd (n + 2) (t :: rest) = some place) :
    ∃ p, place = p + 1 ∧ matchingCodeEnd (n + 1) rest = some p := by
  have hn : ¬n + 2 ≤ 1 := by omega
  rw [matchingCodeEnd, ht] at h
  simp only [if_neg hn] at h
  obtain ⟨p, hp, rfl⟩ := Option.map_eq_some_iff.mp h
  exact ⟨p, rfl, hp⟩

/-- What is ahead of a code block begins a line, or is an end that is not shown. -/
theorem expects_of_ahead {native : Option Nat} (h : CodeRegion.ahead rest = some native)
    (hn : native.isSome = true → s.dropNativeEnd = true) : rest.head?.all s.expects = true := by
  cases rest with
  | nil => rfl
  | cons u us =>
    rw [List.head?_cons, Option.all_some]
    by_cases hu : u.isNewline = true
    · simp [Spacer.expects, hu]
    · unfold CodeRegion.ahead at h
      rw [Bool.not_eq_true] at hu
      simp only [pastNewlines, hu, Bool.false_eq_true, if_false] at h
      split_ifs at h with hpre hend
      · have hdrop : s.dropNativeEnd = true := hn (by rw [← Option.some.inj h]; rfl)
        have hedge : u.hasTag .endNativeBlock = true := by
          simp only [Token.isNativePre, Bool.and_eq_true] at hpre
          exact hpre.1
        simp [Spacer.expects, hedge, hdrop]
      · simp [Spacer.expects, Token.isBlockMark, hend]

/-- What an `Inside` says of the rest, for a token that moves the end of the region one place up. -/
theorem Inside.close_tail {n : Nat} {kind : CodeKind} {drops : Bool}
    (h : kind = .block → ∃ place native, matchingCodeEnd n (t :: rest) = some place ∧
      CodeRegion.ahead ((t :: rest).drop (place + 1)) = some native ∧
        (native.isSome = true → drops = true)) {m : Nat}
    (hm : ∀ place, matchingCodeEnd n (t :: rest) = some place →
      ∃ p, place = p + 1 ∧ matchingCodeEnd m rest = some p) (hk : kind = .block) :
    ∃ place native, matchingCodeEnd m rest = some place ∧
      CodeRegion.ahead (rest.drop (place + 1)) = some native ∧
        (native.isSome = true → drops = true) := by
  obtain ⟨place, native, hplace, hahead, hn⟩ := h hk
  obtain ⟨p, rfl, hp⟩ := hm place hplace
  exact ⟨p, native, hp, hahead, hn⟩

theorem Inside.closeCode (h : Inside done s opened (t :: rest)) (hf : Fits done t)
    (ht : t.tag? = some .endCode) (hdepth : opened.depth = 0) (hskip : s.skipNext = false) :
    Outside (t :: done) (s.closeCode opened.kind t) rest.head? := by
  have hmark : t.isBlockMark = false := by
    simp [Token.isBlockMark, Token.tagIs, ht, Tag.isBlockStart, Tag.isBlockEnd]
  have hd : t.quoteDepth = depthBehind done := hf.level.resolve_left (by simp [hmark])
  have hrule : t.hasTag .horizontalRule = false := by simp [Token.hasTag, ht]
  have hz : openRegions (t :: done) = 0 := by simp [openRegions, ht, h.regions, hdepth]
  have hends := h.endsAt
  unfold Spacer.closeCode
  dsimp only
  split
  · next hkind =>
    obtain ⟨place, native, hplace, hahead, hn⟩ := h.close hkind
    have hzero : place = 0 := by
      rw [matchingCodeEnd, ht, hdepth] at hplace
      simpa using hplace.symm
    have hsuffix : Placed (s.output.dropWhile Spacer.isCodeSpace) := by
      refine Placed.of_append (s.output.takeWhile Spacer.isCodeSpace) ?_
      rw [List.takeWhile_append_dropWhile]
      exact h.placed
    refine .of_expects rfl hskip hz hsuffix ?_ hrule
    rw [hzero] at hahead
    exact expects_of_ahead hahead hn
  · next hkind =>
    rw [hkind, ← hd] at hends
    obtain ⟨hp, he⟩ := placed_codeDelimiter hf.depth h.placed hends
    refine .of_ready rfl hskip hz hp ⟨he, fun u hu hnative => ?_⟩ hrule
    obtain rfl : Spacer.codeDelimiter t = u := by simpa [Spacer.push] using hu
    rw [Spacer.codeDelimiter, Token.hasTag_within] at hnative
    cases hnative

theorem Inside.push (h : Inside done s opened (t :: rest)) (hf : Fits done t)
    (ht : t.tag? = none) :
    Placed ((if opened.kind = .block then t.inCodeBlock else t) :: s.output) ∧
      EndsAt t.quoteDepth (opened.kind == .block)
        (layRules ((if opened.kind = .block then t.inCodeBlock else t) :: s.output)) := by
  have hmark : t.isBlockMark = false := by simp [Token.isBlockMark, Token.tagIs, ht]
  have hd : t.quoteDepth = depthBehind done := hf.level.resolve_left (by simp [hmark])
  have hends := h.endsAt
  rw [← hd] at hends
  by_cases hkind : opened.kind = .block
  · rw [if_pos hkind]
    rw [hkind] at hends ⊢
    have hnone : t.inCodeBlock.tag? = none := ht
    have hstands : Stands s.output t.inCodeBlock :=
      ⟨hf.formed, hf.depth, fun hany => by simp [Token.hasTag, hnone] at hany,
        fun _ => .inr (.inr hends), fun _ => hends⟩
    exact ⟨.cons hstands h.placed, hends.layRules_cons rfl rfl⟩
  · have hflag : (opened.kind == .block) = false := by simpa using hkind
    rw [if_neg hkind]
    rw [hflag] at hends ⊢
    refine ⟨.cons (hf.stands ?_) h.placed, hends.layRules_cons rfl hf.unflagged⟩
    rw [hf.unflagged]
    exact hends

theorem Inside.step (h : Inside done s opened (t :: rest)) (hf : Fits done t) :
    Outside (t :: done) (s.step done.head? t rest) rest.head? ∨
      ∃ opened', Inside (t :: done) (s.step done.head? t rest) opened' rest := by
  have hpos : 0 < openRegions done := by
    rw [h.regions]
    omega
  have hkinds := hf.code hpos
  have hd : t.quoteDepth = depthBehind done := by
    refine hf.level.resolve_left ?_
    rcases hkinds with ht | ht | ht <;>
      simp [Token.isBlockMark, Token.tagIs, ht, Tag.isBlockStart, Tag.isBlockEnd]
  have hends := h.endsAt
  rw [← hd] at hends
  unfold Spacer.step
  by_cases hskip : s.skipNext = true
  · rw [if_pos hskip]
    have ht : t.tag? = none := by
      have hraw := h.skip hskip
      rw [List.head?_cons, Option.any_some] at hraw
      unfold Token.isRawNewlines at hraw
      split at hraw
      · next hnode => simp [Token.tag?, hnode]
      · cases hraw
    exact .inr ⟨opened, h.code, by simp [openRegions, ht, h.regions], h.placed, hends,
      fun hs => absurd hs Bool.false_ne_true,
      Inside.close_tail h.close fun _ => matchingCodeEnd_of_tag?_none ht⟩
  · rw [Bool.not_eq_true] at hskip
    rw [if_neg (by simp [hskip]), h.code]
    unfold Spacer.insideCode
    dsimp only
    rcases hkinds with ht | ht | ht
    · obtain ⟨hp, he⟩ := h.push hf ht
      have hz : openRegions (t :: done) = opened.depth + 1 := by simp [openRegions, ht, h.regions]
      have hclose := Inside.close_tail h.close fun _ => matchingCodeEnd_of_tag?_none ht
      have hpushed : Inside (t :: done)
          (s.push (if opened.kind = .block then t.inCodeBlock else t)) opened rest :=
        ⟨h.code, hz, hp, he, fun hs => absurd (hskip.symm.trans hs) Bool.false_ne_true, hclose⟩
      refine .inr ⟨opened, ?_⟩
      rw [ht]
      cases hkind : opened.kind <;> simpa [hkind] using hpushed
    · rw [ht]
      refine .inr ⟨{ opened with depth := opened.depth + 1 }, rfl, ?_, h.placed, hends,
        fun hs => absurd (hskip.symm.trans hs) Bool.false_ne_true,
        Inside.close_tail h.close fun _ => matchingCodeEnd_startCode ht⟩
      simp [openRegions, ht, h.regions]
    · rw [ht]
      dsimp only
      cases hn : opened.depth with
      | zero => exact .inl (h.closeCode hf ht hn hskip)
      | succ n =>
        have hclose := h.close
        rw [hn] at hclose
        refine .inr ⟨{ opened with depth := n }, rfl, ?_, h.placed, hends,
          fun hs => absurd (hskip.symm.trans hs) Bool.false_ne_true,
          Inside.close_tail hclose fun _ => matchingCodeEnd_endCode ht⟩
        simp [openRegions, ht, h.regions, hn]

/-- A heading or a list item begins with a newline. -/
theorem Token.startsLine_of_tag (hf : t.Formed)
    (ht : t.tag? = some .headingStart ∨ t.tag? = some .listItemStart) :
    t.startsLine = true ∧ t.hasNewline = true := by
  obtain ⟨node, depth, flag⟩ := t
  cases node with
  | markdown tag data =>
    have htag : tag = .headingStart ∨ tag = .listItemStart := by
      simpa [Token.tag?] using ht
    have hhead : data.toList.head? = some '\n' := hf.2 htag
    have hmem : '\n' ∈ data.toList := List.mem_of_head? hhead
    rcases htag with rfl | rfl <;>
      simp [Token.startsLine, Token.hasNewline, Token.chars, Tag.renderKind, hhead, hmem]
  | native edge raw => cases edge <;> simp [Token.tag?] at ht
  | html raw => simp [Token.tag?] at ht

theorem Outside.push_ownLine {next : Option Token} (h : Outside done s (some t)) (hf : Fits done t)
    (ht : t.tag? = some .headingStart ∨ t.tag? = some .listItemStart) :
    Outside (t :: done) (s.push t) next := by
  have hrule : t.hasTag .horizontalRule = false := by
    rcases ht with ht | ht <;> simp [Token.hasTag, ht]
  have hz : openRegions (t :: done) = 0 := by
    rcases ht with ht | ht <;> simp [openRegions, ht, h.regions]
  obtain ⟨hline, hnewline⟩ := Token.startsLine_of_tag hf.formed ht
  refine .of_ready h.code h.skip hz (.cons ⟨hf.formed, hf.depth, fun _ => hf.unflagged,
    fun _ => .inr (.inl hline), fun hn => ?_⟩ h.placed)
    (ready_of_hasNewline hnewline hrule hf.unflagged) hrule
  rcases ht with ht | ht <;> simp [Token.hasTag, ht] at hn

theorem Outside.push_rule {next : Option Token} (h : Outside done s (some t)) (hf : Fits done t)
    (ht : t.tag? = some .horizontalRule) :
    Outside (t :: done) ((s.settle 1 t.quoteDepth).push t) next := by
  have hrule : t.hasTag .horizontalRule = true := by simp [Token.hasTag, ht]
  have hsettled : Placed (settle 1 t.quoteDepth s.output) := by
    rcases settled_settle h.placed hf.depth (Nat.succ_pos 0) with hs | ⟨hs, -⟩
    · exact hs.placed
    · rw [hs]
      exact .nil
  have hp : Placed (t :: settle 1 t.quoteDepth s.output) :=
    .cons ⟨hf.formed, hf.depth, fun _ => hf.unflagged, fun _ => .inl hrule,
      fun hn => by simp [Token.hasTag, ht] at hn⟩ hsettled
  exact ⟨h.code, h.skip, by simp [openRegions, ht, h.regions], hp,
    .inl (settled_of_endsInRule hp hrule t.quoteDepth).ready, fun _ => hrule⟩

theorem Outside.push_native {next : Option Token} (h : Outside done s (some t)) (hf : Fits done t)
    (ht : t.tag? = some .startNativeBlock) :
    Outside (t :: done) ((s.settle 2 t.quoteDepth).push t) next := by
  have hs := settled_settle_two h.placed hf.depth
  refine .of_ready h.code h.skip (by simp [openRegions, ht, h.regions])
    (.cons (hf.stands ?_) hs.placed) (hs.ready.push rfl hf.unflagged) (by simp [Token.hasTag, ht])
  rw [hf.unflagged]
  exact hs.endsAt

/-- The end of a native block goes with a start that has gone, or stands on the line at hand. -/
theorem Outside.closeNative (h : Outside done s (some t)) (hf : Fits done t)
    (ht : t.tag? = some .endNativeBlock) (hnext : ∀ u ∈ rest.head?, Fits (t :: done) u) :
    Outside (t :: done) (if s.dropNativeEnd then { s with dropNativeEnd := false } else s.push t)
      rest.head? := by
  have hrule : t.hasTag .horizontalRule = false := by simp [Token.hasTag, ht]
  have hz : openRegions (t :: done) = 0 := by simp [openRegions, ht, h.regions]
  split_ifs with hdrop
  · refine .of_expects h.code h.skip hz h.placed ?_ hrule
    cases hr : rest.head? with
    | none => rfl
    | some u =>
      have hend := (hnext u hr).edge (by simp [Token.hasTag, ht])
      simp [Spacer.expects, Token.isBlockMark, hend]
  · refine h.push hf ?_ hz
    simp [Spacer.expects, Token.isBlockMark, Token.isNewline, Token.tagIs, ht, hdrop,
      Tag.isBlockStart, Tag.isBlockEnd, Tag.isNewline, Tag.opensOnNewLine]

theorem Outside.step (h : Outside done s (some t)) (hf : Fits done t)
    (hnext : ∀ u ∈ rest.head?, Fits (t :: done) u) :
    Outside (t :: done) (s.step done.head? t rest) rest.head? ∨
      ∃ opened, Inside (t :: done) (s.step done.head? t rest) opened rest := by
  unfold Spacer.step
  rw [h.skip, if_neg Bool.false_ne_true, h.code]
  dsimp only
  cases ht : t.tag? with
  | none =>
    refine .inl (h.push hf ?_ (by simp [openRegions, ht, h.regions]))
    simp [Spacer.expects, Token.isBlockMark, Token.isNewline, Token.tagIs, Token.hasTag, ht]
  | some tag =>
    unfold Spacer.ordinary
    cases tag with
    | startCode => exact .inr (h.openCode hf ht)
    | endCode =>
      have hexpects : s.expects t = false := by
        simp [Spacer.expects, Token.isBlockMark, Token.isNewline, Token.tagIs, Token.hasTag, ht,
          Tag.isBlockStart, Tag.isBlockEnd, Tag.isNewline, Tag.opensOnNewLine]
      have hd : t.quoteDepth = depthBehind done := hf.level.resolve_left (by
        simp [Token.isBlockMark, Token.tagIs, ht, Tag.isBlockStart, Tag.isBlockEnd])
      refine .inl (.of_ready h.code h.skip (by simp [openRegions, ht, h.regions]) h.placed ?_
        (by simp [Token.hasTag, ht]))
      rw [hd]
      exact h.ready_of_not_expects hexpects
    | startBlock | startBlockquote =>
      refine .inl (h.blockStart hf (by simp [Token.hasTag, ht])
        (by simp [openRegions, ht, h.regions]) fun u hu => ?_)
      exact (hnext u hu).depth
    | endBlock | endBlockquote =>
      exact .inl (h.blockEnd hf (by simp [Token.hasTag, ht]) (by simp [openRegions, ht, h.regions]))
    | space | tab | newline | newlineHard | newlineBlank =>
      refine .inl (h.whitespace hf ?_ (by simp [openRegions, ht, h.regions]))
      simp [Token.tagIs, ht, Tag.isWhitespace]
    | startNativeBlock => exact .inl (h.push_native hf ht)
    | endNativeBlock => exact .inl (h.closeNative hf ht hnext)
    | horizontalRule => exact .inl (h.push_rule hf ht)
    | headingStart => exact .inl (h.push_ownLine hf (.inl ht))
    | listItemStart => exact .inl (h.push_ownLine hf (.inr ht))
    | anchorInline | anchorReference | anchorSimple | boldItalic | charactersAdded | charactersSplit
    | emphasis | image | strong =>
      refine .inl (h.push hf ?_ (by simp [openRegions, ht, h.regions]))
      simp [Spacer.expects, Token.isBlockMark, Token.isNewline, Token.tagIs, Token.hasTag, ht,
        Tag.isBlockStart, Tag.isBlockEnd, Tag.isNewline, Tag.opensOnNewLine]

/-- Over a coherent stream a step leads from outside or inside of code to outside or inside. -/
theorem outside_or_inside_step
    (h : Outside done s (some t) ∨ ∃ opened, Inside done s opened (t :: rest))
    (hc : Coherent (rest.reverse ++ t :: done)) :
    Outside (t :: done) (s.step done.head? t rest) rest.head? ∨
      ∃ opened, Inside (t :: done) (s.step done.head? t rest) opened rest := by
  have hf : Fits done t := by
    cases hc.of_append with
    | cons hf _ => exact hf
  have hnext : ∀ u ∈ rest.head?, Fits (t :: done) u := by
    intro u hu
    cases rest with
    | nil => cases hu
    | cons v rest =>
      obtain rfl : v = u := by simpa using hu
      have hc' : Coherent (rest.reverse ++ v :: t :: done) := by simpa using hc
      cases hc'.of_append with
      | cons hf _ => exact hf
  rcases h with h | ⟨opened, h⟩
  · exact h.step hf hnext
  · exact h.step hf

theorem placed_run (h : Outside done s rest.head? ∨ ∃ opened, Inside done s opened rest)
    (hc : Coherent (rest.reverse ++ done)) : Placed (s.run done.head? rest).output := by
  induction rest generalizing s done with
  | nil =>
    rcases h with h | ⟨opened, h⟩
    · exact h.placed
    · exact h.placed
  | cons t rest ih =>
    have hc' : Coherent (rest.reverse ++ t :: done) := by simpa using hc
    exact ih (outside_or_inside_step h hc') hc'

/-- The spacing pass begins outside of code. -/
theorem outside_start (next : Option Token) : Outside [] {} next :=
  ⟨rfl, rfl, rfl, .nil, .inl ⟨endsAt_nil, by simp⟩, by simp⟩

theorem placed_space {ts : List Token} (h : Coherent ts.reverse) : Placed (space ts).reverse := by
  have hrun := placed_run (.inl (outside_start ts.head?)) (by simpa using h)
  simpa [space] using hrun

/-- In a placed stream every visible token is in place once the rules are laid, or is stranded. -/
theorem Placed.inPlace_iff (h : Placed out) {later earlier : List Token}
    (hsplit : layRules out = later ++ t :: earlier) (ht : t.isVisible = true) :
    InPlace earlier t ↔ ¬Stranded earlier t := by
  induction h generalizing later with
  | nil => simp [layRules] at hsplit
  | @cons last out hs h ih =>
    rw [layRules_cons] at hsplit
    by_cases hrule : last.hasTag .horizontalRule = true
    · obtain ⟨u, hlines, hnode, hflag, hdepth⟩ := ruleLines_of_rule hrule
      obtain ⟨hnewline, -, hvisible⟩ := newline_of_node hnode
      have hne : u ≠ t := by
        rintro rfl
        exact absurd (hvisible.symm.trans ht) Bool.false_ne_true
      rw [hlines] at hsplit
      -- The token is the newline before the rule, the rule, the newline behind it, or further on.
      rcases later with _ | ⟨a, _ | ⟨b, _ | ⟨c, later⟩⟩⟩ <;>
        simp only [List.cons_append, List.nil_append, List.cons.injEq] at hsplit
      · exact absurd hsplit.1 hne
      · obtain ⟨-, rfl, rfl⟩ := hsplit
        have hends := @endsAt_of_hasNewline (layRules out) u hnewline
        rw [hdepth, quoteDepth_within_eq rfl hs.depth, hflag] at hends
        exact inPlace_iff_of_endsAt (.inr hends)
      · exact absurd hsplit.2.2.1 hne
      · exact ih hsplit.2.2.2
    · rw [Bool.not_eq_true] at hrule
      rw [ruleLines, hrule, if_neg Bool.false_ne_true, List.cons_append, List.nil_append] at hsplit
      cases later with
      | nil =>
        obtain ⟨rfl, rfl⟩ : last = t ∧ layRules out = earlier := by simpa using hsplit
        refine inPlace_iff_of_endsAt ((hs.line ht).resolve_left ?_)
        simp [hrule]
      | cons v later => exact ih (List.cons.inj hsplit).2

end HtmlMarkdown.Markdown

namespace HtmlMarkdown.Conversion

open Markdown (InPlace Stranded Token layRules space)

/-- Once the rules are laid, every token of a converted forest that shows text stands on a line of
its own depth and code flag, unless it follows a rule on a line of another depth. -/
theorem inPlace_iff_not_stranded (o : Options) (f : Html.Forest) :
    ∃ ts, convert o f.tokens = .ok ts ∧
      ∀ before t after, layRules (space ts) = before ++ t :: after → t.isVisible = true →
        (InPlace before.reverse t ↔ ¬Stranded before.reverse t) := by
  obtain ⟨ts, hts, hc⟩ := exists_convert_coherent o f
  refine ⟨ts, hts, fun before t after hsplit ht => ?_⟩
  have hreverse : layRules (space ts).reverse = after.reverse ++ t :: before.reverse := by
    rw [← Markdown.reverse_layRules, hsplit]
    simp
  exact (Markdown.placed_space hc).inPlace_iff hreverse ht

/-- Behind a rule the line break that begins a quote is left out, and so is the change of depth:
the text of the quote follows the rule unquoted. -/
theorem stranded_quote_behind_rule :
    ∃ ts, convert {} (Html.Forest.element "hr" ∅ .nil
        (.element "blockquote" ∅ (.element "br" ∅ .nil (.text "x" .nil)) .nil)).tokens = .ok ts ∧
      ∃ before t after, layRules (space ts) = before ++ t :: after ∧ t.isVisible = true ∧
        ¬InPlace before.reverse t := by
  let line : List Token := [.newline, .horizontalRule "---", .newline]
  refine ⟨_, rfl, line, (Token.html (.characters "x")).within (some 1), [.newlineBlank], ?_, ?_, ?_⟩
  · decide +kernel
  · decide
  · decide

end HtmlMarkdown.Conversion
