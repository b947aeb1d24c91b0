import HtmlMarkdown.Proofs.Passage

/-!
# Nesting

`Context.nesting` is the part of a context that says which elements are open. Every end tag takes
back what its start tag has done to it: `Reverts` states this for one handler, one pair of tags at
a time, and the tokens of a forest leave the nesting as it was. A whole forest is converted without
a failure, and nothing is open at the end.
-/

namespace HtmlMarkdown.Conversion

open Html (Forest)

structure Nesting where
  anchor : Nat
  paragraph : Nat
  blockquote : Nat
  sensitive : Nat
  scriptStrip : Nat
  blocks : List String
  lists : List Html.ListKind
  preModes : List PreMode
  deriving DecidableEq, Repr

namespace Context

def nesting (ctx : Context) : Nesting where
  anchor := ctx.anchor
  paragraph := ctx.paragraph
  blockquote := ctx.blockquote
  sensitive := ctx.sensitive
  scriptStrip := ctx.scriptStrip
  blocks := ctx.blocks
  lists := ctx.lists.map ListFrame.kind
  preModes := ctx.preModes

/-- The same elements are open, and no more anchors are kept as tags than are open. -/
structure Resumes (ctx ctx' : Context) : Prop where
  nesting : ctx'.nesting = ctx.nesting
  tags : ctx'.anchorAsTag ≤ ctx'.anchor

variable {ctx ctx' ctx'' : Context}

theorem Resumes.refl (h : ctx.anchorAsTag ≤ ctx.anchor) : ctx.Resumes ctx := ⟨rfl, h⟩

theorem Resumes.trans (h : ctx.Resumes ctx') (h' : ctx'.Resumes ctx'') : ctx.Resumes ctx'' :=
  ⟨h'.nesting.trans h.nesting, h'.tags⟩

theorem Resumes.anchor_eq (h : ctx.Resumes ctx') : ctx'.anchor = ctx.anchor :=
  congrArg Nesting.anchor h.nesting

theorem Resumes.paragraph_eq (h : ctx.Resumes ctx') : ctx'.paragraph = ctx.paragraph :=
  congrArg Nesting.paragraph h.nesting

theorem Resumes.blockquote_eq (h : ctx.Resumes ctx') : ctx'.blockquote = ctx.blockquote :=
  congrArg Nesting.blockquote h.nesting

theorem Resumes.sensitive_eq (h : ctx.Resumes ctx') : ctx'.sensitive = ctx.sensitive :=
  congrArg Nesting.sensitive h.nesting

theorem Resumes.scriptStrip_eq (h : ctx.Resumes ctx') : ctx'.scriptStrip = ctx.scriptStrip :=
  congrArg Nesting.scriptStrip h.nesting

theorem Resumes.blocks_eq (h : ctx.Resumes ctx') : ctx'.blocks = ctx.blocks :=
  congrArg Nesting.blocks h.nesting

theorem Resumes.lists_eq (h : ctx.Resumes ctx') :
    ctx'.lists.map ListFrame.kind = ctx.lists.map ListFrame.kind :=
  congrArg Nesting.lists h.nesting

theorem Resumes.preModes_eq (h : ctx.Resumes ctx') : ctx'.preModes = ctx.preModes :=
  congrArg Nesting.preModes h.nesting

theorem leave_of_depth {c : Counter} {n : Nat} (h : ctx.depth c = n + 1) :
    ctx.leave c = .ok (ctx.setDepth n c) := by
  simp only [leave, h]

theorem closeBlock_of_blocks {name : String} {rest : List String} (h : ctx.blocks = name :: rest) :
    ctx.closeBlock name = .ok { ctx with blocks := rest } := by
  simp [closeBlock, popBlock, h]

end Context

/-- The handler `close` succeeds in every context in which the elements of `inside` are open, and
leads back to the elements of `ctx`. -/
def Reverts (close : Context → Except Failure Reaction) (ctx inside : Context) : Prop :=
  ∀ ctx', inside.Resumes ctx' → ∃ r, close ctx' = .ok r ∧ ctx.Resumes r.context

theorem paragraph_reverts (name : String) (ctx : Context) :
    Reverts (paragraph name false) ctx ((ctx.enter .paragraph).openBlock name) := by
  intro ctx' h
  have hp : ctx'.depth .paragraph = ctx.paragraph + 1 := h.paragraph_eq
  have hb : (ctx'.setDepth ctx.paragraph .paragraph).blocks = name :: ctx.blocks := h.blocks_eq
  refine ⟨.emit { ctx'.setDepth ctx.paragraph .paragraph with blocks := ctx.blocks } [.endBlock],
    ?_, ?_, h.tags⟩
  · simp only [paragraph, Context.leave_of_depth hp, bind, Except.bind,
      Context.closeBlock_of_blocks hb]
    rfl
  · change { ctx'.nesting with paragraph := ctx.paragraph, blocks := ctx.blocks } = ctx.nesting
    rw [h.nesting]
    rfl

theorem heading_reverts (name : String) (level : Nat) (ctx : Context) :
    Reverts (heading name level false) ctx (ctx.openBlock name) := by
  intro ctx' h
  have hb : ctx'.blocks = name :: ctx.blocks := h.blocks_eq
  refine ⟨.emit { ctx' with blocks := ctx.blocks } [.endBlock], ?_, ?_, h.tags⟩
  · simp only [heading, Context.closeBlock_of_blocks hb, bind, Except.bind]
    rfl
  · change { ctx'.nesting with blocks := ctx.blocks } = ctx.nesting
    rw [h.nesting]
    rfl

theorem quote_reverts (ctx : Context) :
    Reverts (quote false) ctx ((ctx.enter .blockquote).openBlock "blockquote") := by
  intro ctx' h
  have hb : ctx'.blocks = "blockquote" :: ctx.blocks := h.blocks_eq
  have hq : ({ ctx' with blocks := ctx.blocks } : Context).depth .blockquote = ctx.blockquote + 1 :=
    h.blockquote_eq
  refine ⟨.emit (({ ctx' with blocks := ctx.blocks } : Context).setDepth ctx.blockquote .blockquote)
    [.endBlockquote, .endBlock], ?_, ?_, h.tags⟩
  · simp only [quote, Context.closeBlock_of_blocks hb, bind, Except.bind,
      Context.leave_of_depth hq]
    rfl
  · change { ctx'.nesting with blocks := ctx.blocks, blockquote := ctx.blockquote } = ctx.nesting
    rw [h.nesting]
    rfl

theorem nesting_openList (kind : Html.ListKind) (ctx : Context) :
    (openList kind ctx).context.nesting =
      { ctx.nesting with lists := kind :: ctx.lists.map ListFrame.kind } := by
  obtain ⟨_, ⟨_, rfl⟩, h | h⟩ := openList_eq kind ctx <;> rw [h] <;> rfl

theorem list_reverts (kind : Html.ListKind) (more : Bool) (ctx : Context) :
    Reverts (closeList more) ctx (openList kind ctx).context := by
  intro ctx' h
  have hn := h.nesting.trans (nesting_openList kind ctx)
  cases hl : ctx'.lists with
  | nil =>
    have := congrArg Nesting.lists hn
    simp [Context.nesting, hl] at this
  | cons frame outer =>
    have ho : outer.map ListFrame.kind = ctx.lists.map ListFrame.kind := by
      have := congrArg Nesting.lists hn
      simp only [Context.nesting, hl, List.map_cons, List.cons.injEq] at this
      exact this.2
    simp only [closeList, hl]
    refine ⟨_, rfl, ?_, ?_⟩
    · suffices hs : { ctx'.nesting with lists := outer.map ListFrame.kind } = ctx.nesting by
        split_ifs <;> exact hs
      rw [hn, ho]
      rfl
    · split_ifs <;> exact h.tags

theorem item_reverts (o : Options) (ctx : Context) :
    Reverts (item o false) ctx (nextBullet o (ctx.openBlock "li")).1 := by
  have hn : (nextBullet o (ctx.openBlock "li")).1.nesting = (ctx.openBlock "li").nesting := by
    obtain ⟨lists, hkinds, h⟩ := nextBullet_eq o (ctx.openBlock "li")
    rw [h, Context.nesting, hkinds]
    rfl
  intro ctx' h
  have hb : ctx'.blocks = "li" :: ctx.blocks := congrArg Nesting.blocks (h.nesting.trans hn)
  refine ⟨.quiet { ctx' with blocks := ctx.blocks }, ?_, ?_, h.tags⟩
  · simp only [item, Context.closeBlock_of_blocks hb, bind, Except.bind]
    rfl
  · change { ctx'.nesting with blocks := ctx.blocks } = ctx.nesting
    rw [h.nesting.trans hn]
    rfl

theorem nesting_openAnchor (o : Options) (w : Window) (ctx : Context)
    (h : ctx.anchorAsTag ≤ ctx.anchor) :
    (openAnchor o w ctx).context.nesting = { ctx.nesting with anchor := ctx.anchor + 1 } ∧
      (openAnchor o w ctx).context.anchorAsTag ≤ (openAnchor o w ctx).context.anchor := by
  obtain hr | hr | ⟨_, _, _, _, -, -, -, hr⟩ := openAnchor_eq o w ctx <;> rw [hr]
  · exact ⟨rfl, Nat.succ_le_succ h⟩
  · exact ⟨rfl, Nat.le_succ_of_le h⟩
  · exact ⟨rfl, Nat.le_succ_of_le h⟩

theorem anchor_reverts (o : Options) (w w' : Window) (ctx : Context)
    (h : ctx.anchorAsTag ≤ ctx.anchor) :
    Reverts (closeAnchor o w') ctx (openAnchor o w ctx).context := by
  intro ctx' h'
  have hn := h'.nesting.trans (nesting_openAnchor o w ctx h).1
  have ha : ctx'.depth .anchor = ctx.anchor + 1 := congrArg Nesting.anchor hn
  have htags : ctx'.anchorAsTag ≤ ctx.anchor + 1 := ha ▸ h'.tags
  have hback : { ctx'.nesting with anchor := ctx.anchor } = ctx.nesting := by
    rw [hn]
    rfl
  cases ht : ctx'.anchorAsTag with
  | zero =>
    refine ⟨.quiet (ctx'.setDepth ctx.anchor .anchor), ?_, hback, ?_⟩
    · simp only [closeAnchor, Context.leave_of_depth ha, bind, Except.bind]
      simp only [Context.leave, Context.depth, Context.setDepth, ht]
      rfl
    · change ctx'.anchorAsTag ≤ ctx.anchor
      omega
  | succ n =>
    have hd : (ctx'.setDepth ctx.anchor .anchor).depth .anchorAsTag = n + 1 := ht
    refine ⟨.emit ((ctx'.setDepth ctx.anchor .anchor).setDepth n .anchorAsTag)
      [.html (o.clean w'.token)], ?_, hback, ?_⟩
    · simp only [closeAnchor, Context.leave_of_depth ha, bind, Except.bind,
        Context.leave_of_depth hd]
      rfl
    · change n ≤ ctx.anchor
      omega

theorem code_reverts (ctx : Context) : Reverts (code false) ctx (ctx.enter .sensitive) := by
  intro ctx' h
  have hs : ctx'.depth .sensitive = ctx.sensitive + 1 := h.sensitive_eq
  refine ⟨.emit (ctx'.setDepth ctx.sensitive .sensitive) [.endCode], ?_, ?_, h.tags⟩
  · simp only [code, Context.leave_of_depth hs, bind, Except.bind]
    rfl
  · change { ctx'.nesting with sensitive := ctx.sensitive } = ctx.nesting
    rw [h.nesting]
    rfl

theorem script_reverts (o : Options) (w : Window) (ctx : Context) :
    Reverts (script o w false) ctx (ctx.enter .sensitive) := by
  intro ctx' h
  have hs : ctx'.depth .sensitive = ctx.sensitive + 1 := h.sensitive_eq
  refine ⟨.emit (ctx'.setDepth ctx.sensitive .sensitive)
    [.native .closing (o.clean w.token), .endBlock], ?_, ?_, h.tags⟩
  · simp only [script, Context.leave_of_depth hs, bind, Except.bind]
    rfl
  · change { ctx'.nesting with sensitive := ctx.sensitive } = ctx.nesting
    rw [h.nesting]
    rfl

theorem pre_reverts (mode : PreMode) (raw raw' : Html.Token) (ctx : Context) :
    Reverts (closePre raw') ctx (openPre mode raw ctx).context := by
  intro ctx' h
  have hm : ctx'.preModes = mode :: ctx.preModes := by
    cases mode <;> exact h.preModes_eq
  cases mode with
  | paragraph =>
    have hp : ({ ctx' with preModes := ctx.preModes } : Context).depth .paragraph =
        ctx.paragraph + 1 := h.paragraph_eq
    have hb : (({ ctx' with preModes := ctx.preModes } : Context).setDepth ctx.paragraph
        .paragraph).blocks = "pre" :: ctx.blocks := h.blocks_eq
    simp only [closePre, hm, Context.leave_of_depth hp, bind, Except.bind,
      Context.closeBlock_of_blocks hb]
    refine ⟨_, rfl, ?_, h.tags⟩
    change { ctx'.nesting with
      paragraph := ctx.paragraph, blocks := ctx.blocks, preModes := ctx.preModes } = ctx.nesting
    rw [h.nesting]
    rfl
  | native | injectedCode =>
    have hs : ({ ctx' with preModes := ctx.preModes } : Context).depth .sensitive =
        ctx.sensitive + 1 := h.sensitive_eq
    simp only [closePre, hm, Context.leave_of_depth hs, bind, Except.bind]
    refine ⟨_, rfl, ?_, h.tags⟩
    change { ctx'.nesting with sensitive := ctx.sensitive, preModes := ctx.preModes } = ctx.nesting
    rw [h.nesting]
    rfl

end HtmlMarkdown.Conversion
