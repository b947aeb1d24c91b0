import HtmlMarkdown.Proofs.FirstSteps
import HtmlMarkdown.Proofs.Written

/-!
# Counters that mirror the stacks

The depth of paragraphs, the depth of quotes and the modes of the open `<pre>` elements say again
what the stack of open blocks says, for tokens in any order: whatever counts also opens or closes a
block. So the depth of quotes never falls below zero, and neither does that of anchors kept as tags.
-/

namespace HtmlMarkdown.Conversion

def flowBlocks : List String := ["p", "div", "pre"]

structure Context.Mirrors (ctx : Context) : Prop where
  paragraph : ctx.paragraph = ctx.blocks.countP (· ∈ flowBlocks)
  blockquote : ctx.blockquote = ctx.blocks.count "blockquote"
  preModes : ctx.preModes.count .paragraph = ctx.blocks.count "pre"
  anchorAsTag : ctx.anchorAsTag ≤ ctx.anchor

/-- What a step may come to: a context whose counters mirror its stacks, or a failure, but none at
the depth of quotes or of anchors kept as tags. -/
def Mirrored : Except Failure Reaction → Prop
  | .ok r => r.context.Mirrors
  | .error f => f ≠ .belowZero .blockquote ∧ f ≠ .belowZero .anchorAsTag

variable {o : Options} {w : Window} {last : Option Markdown.Token} {ctx ctx' : Context}

namespace Context

theorem leave_eq_ok_iff {c : Counter} : ctx.leave c = .ok ctx' ↔ ctx = ctx'.enter c := by
  constructor
  · intro h
    unfold leave at h
    cases hd : ctx.depth c with
    | zero => simp [hd] at h
    | succ n =>
      simp only [hd, Except.ok.injEq] at h
      subst h
      cases c <;> cases ctx <;> cases hd <;> rfl
  · rintro rfl
    exact leave_enter ctx' c

theorem closeBlock_eq_ok_iff {name : String} :
    ctx.closeBlock name = .ok ctx' ↔ ctx = ctx'.openBlock name := by
  constructor
  · intro h
    unfold closeBlock popBlock at h
    cases hb : ctx.blocks with
    | nil => simp [hb] at h
    | cons opened outer =>
      by_cases hn : opened = name
      · simp only [hb, hn, if_true, Except.ok.injEq] at h
        subst hn h
        rw [openBlock, ← hb]
      · simp [hb, hn] at h
  · rintro rfl
    exact closeBlock_openBlock ctx' name

theorem closeBlock_ne_belowZero (ctx : Context) (name : String) (c : Counter) :
    ctx.closeBlock name ≠ .error (.belowZero c) := by
  unfold closeBlock popBlock
  cases ctx.blocks with
  | nil => simp
  | cons opened outer => by_cases hn : opened = name <;> simp [hn]

theorem mirrors_start : ({} : Context).Mirrors := ⟨rfl, rfl, rfl, Nat.le_refl 0⟩

/-- Where the counters and what they count have grown alike, they mirror as before. -/
theorem mirrors_iff_of_add (p q m : Nat) (hparagraph : ctx'.paragraph = ctx.paragraph + p)
    (hflow : ctx'.blocks.countP (· ∈ flowBlocks) = ctx.blocks.countP (· ∈ flowBlocks) + p)
    (hblockquote : ctx'.blockquote = ctx.blockquote + q)
    (hquotes : ctx'.blocks.count "blockquote" = ctx.blocks.count "blockquote" + q)
    (hmodes : ctx'.preModes.count .paragraph = ctx.preModes.count .paragraph + m)
    (hpres : ctx'.blocks.count "pre" = ctx.blocks.count "pre" + m)
    (hanchor : ctx'.anchor = ctx.anchor) (hasTag : ctx'.anchorAsTag = ctx.anchorAsTag) :
    ctx'.Mirrors ↔ ctx.Mirrors := by
  constructor <;>
  · rintro ⟨hp, hq, hm, ha⟩
    constructor <;> omega

theorem Mirrors.of_eq (h : ctx.Mirrors) (hparagraph : ctx'.paragraph = ctx.paragraph)
    (hblockquote : ctx'.blockquote = ctx.blockquote) (hblocks : ctx'.blocks = ctx.blocks)
    (hmodes : ctx'.preModes = ctx.preModes) (hanchor : ctx'.anchor = ctx.anchor)
    (hasTag : ctx'.anchorAsTag = ctx.anchorAsTag) : ctx'.Mirrors :=
  (mirrors_iff_of_add 0 0 0 hparagraph (by rw [hblocks]; rfl) hblockquote (by rw [hblocks]; rfl)
    (by rw [hmodes]; rfl) (by rw [hblocks]; rfl) hanchor hasTag).mpr h

/-- A heading or an item counts nothing. -/
theorem mirrors_openBlock_iff {name : String} (hflow : name ∉ flowBlocks)
    (hquote : name ≠ "blockquote") : (ctx.openBlock name).Mirrors ↔ ctx.Mirrors := by
  have hpre : name ≠ "pre" := by
    rintro rfl
    exact hflow (by decide)
  refine mirrors_iff_of_add 0 0 0 rfl ?_ rfl ?_ rfl ?_ rfl rfl
  · exact List.countP_cons_of_neg (by simpa using hflow)
  · exact List.count_cons_of_ne hquote
  · exact List.count_cons_of_ne hpre

/-- A paragraph counts one block whose text flows. -/
theorem mirrors_openParagraph_iff {name : String} (hname : name = "p" ∨ name = "div") :
    ((ctx.enter .paragraph).openBlock name).Mirrors ↔ ctx.Mirrors := by
  refine mirrors_iff_of_add 1 0 0 rfl ?_ rfl ?_ rfl ?_ rfl rfl
  · apply List.countP_cons_of_pos
    rcases hname with rfl | rfl <;> decide
  · apply List.count_cons_of_ne
    rcases hname with rfl | rfl <;> decide
  · apply List.count_cons_of_ne
    rcases hname with rfl | rfl <;> decide

/-- A `<pre>` in the mode of a paragraph counts as one, and keeps its mode. -/
theorem mirrors_openPre_iff : ((Context.enter
      { ctx with preModes := .paragraph :: ctx.preModes } .paragraph).openBlock "pre").Mirrors ↔
    ctx.Mirrors := by
  refine mirrors_iff_of_add 1 0 1 rfl ?_ rfl ?_ ?_ ?_ rfl rfl
  · exact List.countP_cons_of_pos (by decide)
  · exact List.count_cons_of_ne (by decide)
  · exact List.count_cons_self
  · exact List.count_cons_self

/-- Any other `<pre>` counts nothing. -/
theorem mirrors_pushMode_iff {mode : PreMode} (hmode : mode ≠ .paragraph) :
    ({ ctx with preModes := mode :: ctx.preModes } : Context).Mirrors ↔ ctx.Mirrors := by
  refine mirrors_iff_of_add 0 0 0 rfl rfl rfl rfl ?_ rfl rfl rfl
  exact List.count_cons_of_ne hmode

theorem mirrors_openQuote_iff :
    ((ctx.enter .blockquote).openBlock "blockquote").Mirrors ↔ ctx.Mirrors := by
  refine mirrors_iff_of_add 0 1 0 rfl ?_ rfl ?_ rfl ?_ rfl rfl
  · exact List.countP_cons_of_neg (by decide)
  · exact List.count_cons_self
  · exact List.count_cons_of_ne (by decide)

theorem Mirrors.enter_sensitive (h : ctx.Mirrors) : (ctx.enter .sensitive).Mirrors :=
  h.of_eq rfl rfl rfl rfl rfl rfl

theorem Mirrors.of_enter_sensitive (h : (ctx.enter .sensitive).Mirrors) : ctx.Mirrors :=
  h.of_eq rfl rfl rfl rfl rfl rfl

end Context

theorem mirrored_bind {x : Except Failure Context} {k : Context → Except Failure Reaction}
    (herror : ∀ f, x = .error f → Mirrored (.error f)) (hok : ∀ c, x = .ok c → Mirrored (k c)) :
    Mirrored (x >>= k) := by
  cases hx : x with
  | error f => exact herror f hx
  | ok c => exact hok c hx

theorem mirrored_error_of_leave {c : Counter} (hquote : c ≠ .blockquote) (htag : c ≠ .anchorAsTag)
    (f : Failure) (h : ctx.leave c = .error f) : Mirrored (.error f) := by
  obtain ⟨-, rfl⟩ := Context.leave_eq_error_iff.mp h
  exact ⟨by simpa using hquote, by simpa using htag⟩

theorem mirrored_error_of_closeBlock {name : String} (f : Failure)
    (h : ctx.closeBlock name = .error f) : Mirrored (.error f) := by
  constructor <;> rintro rfl <;> exact Context.closeBlock_ne_belowZero _ _ _ h

section Handlers

variable (h : ctx.Mirrors)
include h

theorem mirrored_heading {name : String} {level : Nat}
    (hrole : Html.roleOf name = .heading level) (opening : Bool) :
    Mirrored (heading name level opening ctx) := by
  have hflow : name ∉ flowBlocks := by
    intro hm
    have hall : ∀ n ∈ flowBlocks, n = "p" ∨ n = "div" ∨ n = "pre" := by decide
    rcases hall name hm with rfl | rfl | rfl <;> cases hrole
  have hquote : name ≠ "blockquote" := by
    rintro rfl
    cases hrole
  cases opening with
  | true => exact (Context.mirrors_openBlock_iff hflow hquote).mpr h
  | false =>
    apply mirrored_bind mirrored_error_of_closeBlock
    intro c hc
    obtain rfl := Context.closeBlock_eq_ok_iff.mp hc
    exact (Context.mirrors_openBlock_iff hflow hquote).mp h

theorem mirrored_paragraph {name : String} (hname : name = "p" ∨ name = "div") (opening : Bool) :
    Mirrored (paragraph name opening ctx) := by
  cases opening with
  | true => exact (Context.mirrors_openParagraph_iff hname).mpr h
  | false =>
    apply mirrored_bind (mirrored_error_of_leave (by decide) (by decide))
    intro c hc
    obtain rfl := Context.leave_eq_ok_iff.mp hc
    apply mirrored_bind mirrored_error_of_closeBlock
    intro c' hc'
    obtain rfl := Context.closeBlock_eq_ok_iff.mp hc'
    exact (Context.mirrors_openParagraph_iff hname).mp h

/-- The end tag of a quote closes a block that has been counted. -/
theorem mirrored_quote (opening : Bool) : Mirrored (quote opening ctx) := by
  cases opening with
  | true => exact Context.mirrors_openQuote_iff.mpr h
  | false =>
    apply mirrored_bind mirrored_error_of_closeBlock
    intro c hc
    obtain rfl := Context.closeBlock_eq_ok_iff.mp hc
    apply mirrored_bind
    · intro f hf
      obtain ⟨hzero, -⟩ := Context.leave_eq_error_iff.mp hf
      have hcount : c.blockquote = c.blocks.count "blockquote" + 1 :=
        h.blockquote.trans List.count_cons_self
      change c.blockquote = 0 at hzero
      omega
    · intro c' hc'
      obtain rfl := Context.leave_eq_ok_iff.mp hc'
      exact Context.mirrors_openQuote_iff.mp h

theorem mirrored_openList (kind : Html.ListKind) : (openList kind ctx).context.Mirrors := by
  obtain ⟨c, ⟨continued, rfl⟩, hr | hr⟩ := openList_eq kind ctx <;> rw [hr] <;>
    exact h.of_eq rfl rfl rfl rfl rfl rfl

theorem mirrored_closeList (more : Bool) : Mirrored (closeList more ctx) := by
  cases hr : closeList more ctx with
  | error f =>
    unfold closeList at hr
    cases hlists : ctx.lists with
    | nil =>
      simp only [hlists] at hr
      cases hr
      exact ⟨by simp, by simp⟩
    | cons frame outer => simp [hlists] at hr
  | ok r =>
    obtain ⟨c, ⟨continued, rfl⟩, rfl | rfl⟩ := closeList_eq hr <;>
      exact h.of_eq rfl rfl rfl rfl rfl rfl

theorem mirrored_item (opening : Bool) : Mirrored (item o opening ctx) := by
  have hflow : "li" ∉ flowBlocks := by decide
  have hquote : "li" ≠ "blockquote" := by decide
  cases opening with
  | true =>
    obtain ⟨lists, -, hcounted⟩ := nextBullet_eq o (ctx.openBlock "li")
    have hopened : (ctx.openBlock "li").Mirrors :=
      (Context.mirrors_openBlock_iff hflow hquote).mpr h
    change (nextBullet o (ctx.openBlock "li")).1.Mirrors
    rw [hcounted]
    exact hopened.of_eq rfl rfl rfl rfl rfl rfl
  | false =>
    apply mirrored_bind mirrored_error_of_closeBlock
    intro c hc
    obtain rfl := Context.closeBlock_eq_ok_iff.mp hc
    exact (Context.mirrors_openBlock_iff hflow hquote).mp h

theorem mirrored_emphasis (strong opening : Bool) :
    (emphasis o w strong opening ctx).context.Mirrors := by
  obtain ⟨c, us, ⟨fusions, rfl⟩, -, hr⟩ := emphasis_eq o w strong opening ctx
  rw [hr]
  exact h.of_eq rfl rfl rfl rfl rfl rfl

theorem mirrored_openAnchor : (openAnchor o w ctx).context.Mirrors := by
  have hin : (ctx.enter .anchor).Mirrors :=
    ⟨h.paragraph, h.blockquote, h.preModes, Nat.le_succ_of_le h.anchorAsTag⟩
  obtain hr | hr | ⟨_, _, _, _, -, -, -, hr⟩ := openAnchor_eq o w ctx <;> rw [hr]
  · exact ⟨h.paragraph, h.blockquote, h.preModes, Nat.succ_le_succ h.anchorAsTag⟩
  · exact hin
  · exact hin.of_eq rfl rfl rfl rfl rfl rfl

/-- Where no anchor is kept as a tag, the end tag of an anchor does not count one less. -/
theorem mirrored_closeAnchor : Mirrored (closeAnchor o w ctx) := by
  apply mirrored_bind (mirrored_error_of_leave (by decide) (by decide))
  intro c hc
  obtain rfl := Context.leave_eq_ok_iff.mp hc
  cases htag : c.leave .anchorAsTag with
  | error f =>
    obtain ⟨hzero, -⟩ := Context.leave_eq_error_iff.mp htag
    change c.anchorAsTag = 0 at hzero
    have hle : c.anchorAsTag ≤ c.anchor := by omega
    exact ⟨h.paragraph, h.blockquote, h.preModes, hle⟩
  | ok c' =>
    obtain rfl := Context.leave_eq_ok_iff.mp htag
    exact ⟨h.paragraph, h.blockquote, h.preModes, Nat.le_of_succ_le_succ h.anchorAsTag⟩

theorem mirrored_code (opening : Bool) : Mirrored (code opening ctx) := by
  cases opening with
  | true => exact h.enter_sensitive
  | false =>
    apply mirrored_bind (mirrored_error_of_leave (by decide) (by decide))
    intro c hc
    obtain rfl := Context.leave_eq_ok_iff.mp hc
    exact h.of_enter_sensitive

theorem mirrored_openPre (mode : PreMode) (raw : Html.Token) :
    (openPre mode raw ctx).context.Mirrors := by
  cases mode with
  | paragraph => exact Context.mirrors_openPre_iff.mpr h
  | native => exact ((Context.mirrors_pushMode_iff (by decide)).mpr h).enter_sensitive
  | injectedCode => exact ((Context.mirrors_pushMode_iff (by decide)).mpr h).enter_sensitive

theorem mirrored_closePre (raw : Html.Token) : Mirrored (closePre raw ctx) := by
  unfold closePre
  split
  · exact ⟨by simp, by simp⟩
  · next mode outer hmodes =>
    generalize hpopped : ({ ctx with preModes := outer } : Context) = c
    have hpushed : ({ c with preModes := mode :: c.preModes } : Context).Mirrors := by
      rw [← hpopped]
      dsimp only
      rwa [← hmodes]
    cases mode with
    | paragraph =>
      apply mirrored_bind (mirrored_error_of_leave (by decide) (by decide))
      intro c₁ h₁
      obtain rfl := Context.leave_eq_ok_iff.mp h₁
      apply mirrored_bind mirrored_error_of_closeBlock
      intro c₂ h₂
      obtain rfl := Context.closeBlock_eq_ok_iff.mp h₂
      exact Context.mirrors_openPre_iff.mp hpushed
    | native =>
      apply mirrored_bind (mirrored_error_of_leave (by decide) (by decide))
      intro c₁ h₁
      obtain rfl := Context.leave_eq_ok_iff.mp h₁
      exact ((Context.mirrors_pushMode_iff (by decide)).mp hpushed).of_enter_sensitive
    | injectedCode =>
      apply mirrored_bind (mirrored_error_of_leave (by decide) (by decide))
      intro c₁ h₁
      obtain rfl := Context.leave_eq_ok_iff.mp h₁
      exact ((Context.mirrors_pushMode_iff (by decide)).mp hpushed).of_enter_sensitive

theorem mirrored_preformatted (opening : Bool) : Mirrored (preformatted o w opening ctx) := by
  cases opening with
  | true => exact mirrored_openPre h _ _
  | false => exact mirrored_closePre h _

theorem mirrored_anchor (opening : Bool) : Mirrored (anchor o w opening ctx) := by
  cases opening with
  | true => exact mirrored_openAnchor h
  | false => exact mirrored_closeAnchor h

theorem mirrored_script (opening : Bool) : Mirrored (script o w opening ctx) := by
  cases opening with
  | true =>
    unfold script
    simp only [if_true]
    split_ifs
    · exact h.of_eq rfl rfl rfl rfl rfl rfl
    · exact h.enter_sensitive
  | false =>
    apply mirrored_bind (mirrored_error_of_leave (by decide) (by decide))
    intro c hc
    obtain rfl := Context.leave_eq_ok_iff.mp hc
    exact h.of_enter_sensitive

theorem mirrored_autolink (t : Html.Token) : (autolink o t ctx).context.Mirrors := by
  unfold autolink
  dsimp only
  split_ifs <;> exact h

theorem mirrored_otherTag (t : Html.Token) : Mirrored (otherTag o t ctx) := by
  unfold otherTag
  dsimp only
  split_ifs
  · exact h
  · exact ⟨by simp, by simp⟩
  · exact h
  · exact h
  · exact h
  · exact h

theorem mirrored_pairedTag : Mirrored (pairedTag o w ctx) := by
  unfold pairedTag
  dsimp only
  split
  · next level hrole => exact mirrored_heading h hrole _
  · next hrole =>
    exact mirrored_paragraph h (.inl (Html.name_of_ownName? (by rw [hrole]; rfl))) _
  · next hrole =>
    have hname : w.token.tagName = "div" := Html.name_of_ownName? (by rw [hrole]; rfl)
    split
    · exact mirrored_paragraph h (.inr hname) _
    · exact h
  · split
    · exact mirrored_openList h _
    · exact mirrored_closeList h _
  · exact mirrored_item h _
  · exact mirrored_emphasis h _ _
  · exact mirrored_anchor h _
  · exact mirrored_quote h _
  · exact mirrored_code h _
  · exact mirrored_preformatted h _
  · exact mirrored_script h _
  · exact mirrored_autolink h _
  · exact mirrored_otherTag h _

theorem mirrored_tag : Mirrored (tag o w ctx) := by
  unfold tag
  split
  · unfold emptyPair
    split_ifs
    · exact mirrored_autolink h _
    · exact h
  · exact mirrored_pairedTag h

theorem mirrored_emptyTag (t : Html.Token) : (emptyTag o t last ctx).context.Mirrors := by
  unfold emptyTag
  dsimp only
  split_ifs
  · unfold image
    split
    · exact h
    · split
      · exact h
      · dsimp only
        split
        · exact h.of_eq rfl rfl rfl rfl rfl rfl
        · exact h
  · unfold lineBreak
    split_ifs <;> exact h
  · exact h
  · exact h
  · exact h

theorem mirrored_ordinary : Mirrored (ordinary o w last ctx) := by
  unfold ordinary
  split
  · exact mirrored_tag h
  · exact mirrored_tag h
  · exact mirrored_emptyTag h _
  · unfold characters
    split_ifs
    · exact h.of_eq rfl rfl rfl rfl rfl rfl
    · exact h
  · unfold spaceCharacters
    split <;> exact h
  · split_ifs <;> exact h
  · exact h
  · exact h

theorem mirrored_insideStripped (t : Html.Token) : (insideStripped t ctx).context.Mirrors := by
  unfold insideStripped
  split_ifs
  · exact h
  · split
    · exact h.of_eq rfl rfl rfl rfl rfl rfl
    · exact h.of_eq rfl rfl rfl rfl rfl rfl
    · exact h

theorem mirrored_insideSensitive {t : Html.Token} {r : Reaction}
    (hr : insideSensitive t ctx = some r) : r.context.Mirrors := by
  unfold insideSensitive at hr
  split_ifs at hr <;> cases hr
  · exact h
  · exact h.enter_sensitive
  · exact h.of_eq rfl rfl rfl rfl rfl rfl

theorem mirrored_react : Mirrored (react o w last ctx) := by
  cases hregion : ctx.region o with
  | stripped =>
    rw [react_of_stripped hregion]
    exact mirrored_insideStripped h _
  | sensitive =>
    cases hin : insideSensitive w.token ctx with
    | some r =>
      rw [react_of_insideSensitive hregion hin]
      exact mirrored_insideSensitive h hin
    | none =>
      rw [react_eq_ordinary (by simp [hregion]) fun _ => hin]
      exact mirrored_ordinary h
  | ordinary =>
    rw [react_of_ordinary hregion]
    exact mirrored_ordinary h

end Handlers

/-- The counters mirror the stacks wherever a conversion stops, or is stopped, in any stream: the
depth of paragraphs counts the open blocks whose text flows, the depth of quotes the open quotes,
the modes of a paragraph the open `<pre>` blocks. So a conversion never fails by taking the depth
of quotes, or that of anchors kept as tags, below zero. -/
theorem counters_mirror_stacks (o : Options) (n : Nat) (ts : List Html.Token) :
    (({} : State).runFor o n ts).1.context.Mirrors ∧
      (({} : State).runFor o n ts).2 ≠ some (.belowZero .blockquote) ∧
      (({} : State).runFor o n ts).2 ≠ some (.belowZero .anchorAsTag) ∧
      convert o ts ≠ .error (.belowZero .blockquote) ∧
      convert o ts ≠ .error (.belowZero .anchorAsTag) := by
  have hsteps (n : Nat) : (({} : State).runFor o n ts).1.context.Mirrors ∧
      ∀ f, (({} : State).runFor o n ts).2 = some f →
        f ≠ .belowZero .blockquote ∧ f ≠ .belowZero .anchorAsTag := by
    apply State.runFor_invariant (P := fun s => s.context.Mirrors)
    · intro s t us r hs hr
      have hreact : Mirrored (react o (s.window t us) s.emitted.head? s.context) :=
        mirrored_react hs
      rwa [hr] at hreact
    · intro s t us f hs hr
      have hreact : Mirrored (react o (s.window t us) s.emitted.head? s.context) :=
        mirrored_react hs
      rwa [hr] at hreact
    · exact Context.mirrors_start
  refine ⟨(hsteps n).1, ?_, ?_, ?_, ?_⟩
  · intro h
    exact ((hsteps n).2 _ h).1 rfl
  · intro h
    exact ((hsteps n).2 _ h).2 rfl
  · intro h
    exact ((hsteps ts.length).2 _ (State.runFor_of_convert h)).1 rfl
  · intro h
    exact ((hsteps ts.length).2 _ (State.runFor_of_convert h)).2 rfl

end HtmlMarkdown.Conversion
