import HtmlMarkdown.Proofs.Region
import HtmlMarkdown.Proofs.Written

/-!
# Decisions made ahead

A context knows two things about tokens still to come, both by their positions: the emphasis tags
that belong to a fused pair, and the text that a link has taken. The rules for emphasis, for the
start of an anchor and for text deal with them. Every other rule is framed: it neither reads nor
changes them.
-/

namespace HtmlMarkdown.Conversion

open Markdown (Token)

structure Ahead where
  fusions : OrderedMap Nat Fusion
  consumedText : Option Nat

namespace Context

def ahead (ctx : Context) : Ahead :=
  { fusions := ctx.fusions, consumedText := ctx.consumedText }

def withAhead (ctx : Context) (a : Ahead) : Context :=
  { ctx with fusions := a.fusions, consumedText := a.consumedText }

variable (ctx : Context) (a : Ahead)

@[simp] theorem withAhead_ahead : ctx.withAhead ctx.ahead = ctx := rfl

@[simp] theorem sensitive_withAhead : (ctx.withAhead a).sensitive = ctx.sensitive := rfl

@[simp] theorem scriptStrip_withAhead : (ctx.withAhead a).scriptStrip = ctx.scriptStrip := rfl

@[simp] theorem blocks_withAhead : (ctx.withAhead a).blocks = ctx.blocks := rfl

@[simp] theorem lists_withAhead : (ctx.withAhead a).lists = ctx.lists := rfl

@[simp] theorem preModes_withAhead : (ctx.withAhead a).preModes = ctx.preModes := rfl

@[simp] theorem references_withAhead : (ctx.withAhead a).references = ctx.references := rfl

@[simp] theorem inList_withAhead : (ctx.withAhead a).inList = ctx.inList := rfl

@[simp] theorem depth_withAhead (c : Counter) : (ctx.withAhead a).depth c = ctx.depth c := by
  cases c <;> rfl

theorem setDepth_withAhead (n : Nat) (c : Counter) :
    (ctx.withAhead a).setDepth n c = (ctx.setDepth n c).withAhead a := by
  cases c <;> rfl

end Context

def Reaction.withAhead (r : Reaction) (a : Ahead) : Reaction :=
  { r with context := r.context.withAhead a }

/-- A rule that neither reads nor changes what is decided ahead. -/
def Framed (rule : Context → Except Failure Reaction) : Prop :=
  ∀ ctx a, rule (ctx.withAhead a) = (rule ctx).map (·.withAhead a)

def FramedChange (change : Context → Except Failure Context) : Prop :=
  ∀ ctx a, change (ctx.withAhead a) = (change ctx).map (·.withAhead a)

variable {o : Options} {w : Window} {last : Option Token}

namespace Framed

theorem bind {change : Context → Except Failure Context}
    {rule : Context → Except Failure Reaction} (hc : FramedChange change) (hr : Framed rule) :
    Framed fun ctx => change ctx >>= rule := by
  intro ctx a
  dsimp only
  rw [hc ctx a]
  cases change ctx with
  | error f => rfl
  | ok ctx' => exact hr ctx' a

theorem ok {rule : Context → Reaction}
    (h : ∀ ctx a, rule (ctx.withAhead a) = (rule ctx).withAhead a) :
    Framed fun ctx => .ok (rule ctx) :=
  fun ctx a => congrArg Except.ok (h ctx a)

theorem error (f : Failure) : Framed fun _ => .error f := fun _ _ => rfl

theorem emit (ts : List Token) : Framed fun ctx => .ok (.emit ctx ts) := fun _ _ => rfl

theorem quiet : Framed fun ctx => .ok (.quiet ctx) := fun _ _ => rfl

theorem remark (n : Notice) : Framed fun ctx => .ok (.remark ctx n) := fun _ _ => rfl

/-- A framed rule leaves what is decided ahead as it was. -/
theorem ahead_eq {rule : Context → Except Failure Reaction} (h : Framed rule) {ctx : Context}
    {r : Reaction} (hr : rule ctx = .ok r) : r.context.ahead = ctx.ahead := by
  have hself := h ctx ctx.ahead
  rw [Context.withAhead_ahead, hr] at hself
  have hr' : r = r.withAhead ctx.ahead := Except.ok.inj hself
  rw [hr']
  rfl

end Framed

theorem framed_leave (c : Counter) : FramedChange (·.leave c) := by
  intro ctx a
  simp only [Context.leave, Context.depth_withAhead]
  cases ctx.depth c with
  | zero => rfl
  | succ n => exact congrArg Except.ok (ctx.setDepth_withAhead a n c)

theorem framed_closeBlock (name : String) : FramedChange (·.closeBlock name) := by
  intro ctx a
  simp only [Context.closeBlock, Context.popBlock, Context.blocks_withAhead]
  cases ctx.blocks with
  | nil => rfl
  | cons opened rest =>
    by_cases h : opened = name
    · simp only [h, if_true]
      rfl
    · simp only [h, if_false]
      rfl

theorem framed_paragraph (name : String) (opening : Bool) : Framed (paragraph name opening) := by
  cases opening with
  | true => exact fun _ _ => rfl
  | false => exact .bind (framed_leave _) (.bind (framed_closeBlock _) (.emit _))

theorem framed_heading (name : String) (level : Nat) (opening : Bool) :
    Framed (heading name level opening) := by
  cases opening with
  | true => exact fun _ _ => rfl
  | false => exact .bind (framed_closeBlock _) (.emit _)

theorem framed_quote (opening : Bool) : Framed (quote opening) := by
  cases opening with
  | true => exact fun _ _ => rfl
  | false => exact .bind (framed_closeBlock _) (.bind (framed_leave _) (.emit _))

theorem framed_openList (kind : Html.ListKind) : Framed fun ctx => .ok (openList kind ctx) := by
  refine .ok fun ctx a => ?_
  dsimp only [openList, Context.withAhead]
  split_ifs <;> rfl

theorem framed_closeList (more : Bool) : Framed (closeList more) := by
  intro ctx a
  simp only [closeList, Context.lists_withAhead]
  cases ctx.lists with
  | nil => rfl
  | cons frame outer =>
    dsimp only
    split_ifs <;> rfl

theorem framed_item (opening : Bool) : Framed (item o opening) := by
  cases opening with
  | true =>
    intro ctx a
    have hopen : (ctx.withAhead a).openBlock "li" = (ctx.openBlock "li").withAhead a := rfl
    have hnext (ctx : Context) : nextBullet o (ctx.withAhead a) =
        ((nextBullet o ctx).1.withAhead a, (nextBullet o ctx).2) := by
      simp only [nextBullet, Context.lists_withAhead]
      split <;> rfl
    simp only [item, if_true, hopen, hnext, Context.lists_withAhead]
    rfl
  | false => exact .bind (framed_closeBlock _) .quiet

theorem framed_closeAnchor : Framed (closeAnchor o w) := by
  refine .bind (framed_leave _) fun ctx a => ?_
  have hleave : (ctx.withAhead a).leave .anchorAsTag =
      (ctx.leave .anchorAsTag).map (·.withAhead a) := framed_leave .anchorAsTag ctx a
  rw [hleave]
  cases ctx.leave .anchorAsTag <;> rfl

theorem framed_code (opening : Bool) : Framed (code opening) := by
  cases opening with
  | true => exact fun _ _ => rfl
  | false => exact .bind (framed_leave _) (.emit _)

theorem framed_preformatted (opening : Bool) : Framed (preformatted o w opening) := by
  cases opening with
  | true =>
    intro ctx a
    simp only [preformatted, if_true]
    cases preMode o w <;> rfl
  | false =>
    intro ctx a
    change closePre (o.clean w.token) (ctx.withAhead a) =
      (closePre (o.clean w.token) ctx).map (·.withAhead a)
    simp only [closePre, Context.preModes_withAhead]
    cases ctx.preModes with
    | nil => rfl
    | cons mode outer =>
      cases mode with
      | paragraph =>
        exact Framed.bind (framed_leave _) (.bind (framed_closeBlock _) (.emit _))
          { ctx with preModes := outer } a
      | native | injectedCode =>
        exact Framed.bind (framed_leave _) (.emit _) { ctx with preModes := outer } a

theorem framed_script (opening : Bool) : Framed (script o w opening) := by
  cases opening with
  | true =>
    intro ctx a
    simp only [script, if_true]
    split_ifs <;> rfl
  | false => exact .bind (framed_leave _) (.emit _)

theorem framed_autolink (t : Html.Token) : Framed fun ctx => .ok (autolink o t ctx) := by
  unfold autolink
  dsimp only
  split_ifs
  · exact .remark _
  · exact .quiet
  · exact .emit _
  · exact .emit _

theorem framed_emptyPair (t : Html.Token) (name : String) :
    Framed fun ctx => .ok (emptyPair o t name ctx) := by
  unfold emptyPair
  split_ifs
  · exact framed_autolink t
  · exact .remark _

theorem framed_otherTag (t : Html.Token) : Framed (otherTag o t) := by
  unfold otherTag
  dsimp only
  split_ifs
  · exact .quiet
  · exact .error _
  · exact .remark _
  all_goals exact .emit _

theorem framed_image (t : Html.Token) : Framed fun ctx => .ok (image o t ctx) := by
  refine .ok fun ctx a => ?_
  unfold image
  split
  · rfl
  · split
    · rfl
    · dsimp only
      split <;> rfl

theorem framed_emptyTag (t : Html.Token) : Framed fun ctx => .ok (emptyTag o t last ctx) := by
  unfold emptyTag
  dsimp only
  split_ifs
  · exact framed_image t
  · refine .ok fun ctx a => ?_
    by_cases hskip : ctx.inList ∨ last.any (·.tagIs Markdown.Tag.isNewline)
    · simp only [lineBreak, Context.inList_withAhead, hskip, if_true]
      rfl
    · simp only [lineBreak, Context.inList_withAhead, hskip, if_false]
      rfl
  · exact .emit _
  · exact .emit _
  · exact .remark _

theorem framed_spaceCharacters (t : Html.Token) :
    Framed fun ctx => .ok (spaceCharacters t last ctx) := by
  refine .ok fun ctx a => ?_
  dsimp only [spaceCharacters, Context.withAhead, Context.inList]
  cases settleSpace t last (0 < ctx.sensitive) (!ctx.lists.isEmpty || ctx.listContinuation) <;> rfl

theorem framed_insideStripped (t : Html.Token) : Framed fun ctx => .ok (insideStripped t ctx) := by
  refine .ok fun ctx a => ?_
  unfold insideStripped
  split_ifs
  · rfl
  · split <;> rfl

theorem insideSensitive_withAhead (t : Html.Token) (ctx : Context) (a : Ahead) :
    insideSensitive t (ctx.withAhead a) = (insideSensitive t ctx).map (·.withAhead a) := by
  dsimp only [insideSensitive, Context.withAhead]
  split_ifs <;> rfl

theorem ahead_of_insideSensitive {t : Html.Token} {ctx : Context} {r : Reaction}
    (h : insideSensitive t ctx = some r) : r.context.ahead = ctx.ahead := by
  unfold insideSensitive at h
  split_ifs at h <;> cases h <;> rfl

end HtmlMarkdown.Conversion
