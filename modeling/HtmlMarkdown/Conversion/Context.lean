import HtmlMarkdown.Conversion.Failure
import HtmlMarkdown.Conversion.References
import HtmlMarkdown.Html.Element

/-!
# Context of a conversion

What a conversion keeps in mind between two tokens: how deep it is in anchors, paragraphs, quotes
and sensitive elements, the blocks and lists that are open, and the decisions made ahead about
tokens still to come. The innermost block and the innermost list come first. Every counter goes up
with `enter` and down with `leave`, which fails at zero.
-/

namespace HtmlMarkdown.Conversion

structure ListFrame where
  kind : Html.ListKind
  /-- The items numbered so far. -/
  count : Nat := 0
  deriving DecidableEq, Repr

/-- How an open `<pre>` is rendered. -/
inductive PreMode where
  /-- As a block around its `<code>` child. -/
  | native
  /-- As a block with code delimiters added. -/
  | injectedCode
  /-- Like a `<p>`. -/
  | paragraph
  deriving DecidableEq, Repr

/-- What becomes of an emphasis tag that belongs to a fused pair. -/
inductive Fusion where
  | emit
  | swallow
  deriving DecidableEq, Repr

structure Context where
  anchor : Nat := 0
  anchorAsTag : Nat := 0
  paragraph : Nat := 0
  blockquote : Nat := 0
  sensitive : Nat := 0
  scriptStrip : Nat := 0
  blocks : List String := []
  lists : List ListFrame := []
  preModes : List PreMode := []
  /-- An outermost list has closed and another one follows it directly. -/
  listContinuation : Bool := false
  /-- The position of a text token that a link has taken as its text. -/
  consumedText : Option Nat := none
  /-- The emphasis tags, by position, that belong to a fused pair. -/
  fusions : OrderedMap Nat Fusion := ∅
  references : References := {}
  deriving DecidableEq, Repr

namespace Context

def depth (ctx : Context) : Counter → Nat
  | .anchor => ctx.anchor
  | .anchorAsTag => ctx.anchorAsTag
  | .paragraph => ctx.paragraph
  | .blockquote => ctx.blockquote
  | .sensitive => ctx.sensitive
  | .scriptStrip => ctx.scriptStrip

def setDepth (ctx : Context) (n : Nat) : Counter → Context
  | .anchor => { ctx with anchor := n }
  | .anchorAsTag => { ctx with anchorAsTag := n }
  | .paragraph => { ctx with paragraph := n }
  | .blockquote => { ctx with blockquote := n }
  | .sensitive => { ctx with sensitive := n }
  | .scriptStrip => { ctx with scriptStrip := n }

def enter (ctx : Context) (c : Counter) : Context := ctx.setDepth (ctx.depth c + 1) c

def leave (ctx : Context) (c : Counter) : Except Failure Context :=
  match ctx.depth c with
  | 0 => .error (.belowZero c)
  | n + 1 => .ok (ctx.setDepth n c)

theorem leave_enter (ctx : Context) (c : Counter) : (ctx.enter c).leave c = .ok ctx := by
  cases c <;> rfl

theorem eq_of_leave {ctx ctx' : Context} {c : Counter} (h : ctx.leave c = .ok ctx') :
    ∃ n, ctx' = ctx.setDepth n c := by
  unfold leave at h
  cases hd : ctx.depth c with
  | zero => simp [hd] at h
  | succ n =>
    simp only [hd, Except.ok.injEq] at h
    exact ⟨n, h.symm⟩

theorem leave_eq_error_iff {ctx : Context} {c : Counter} {f : Failure} :
    ctx.leave c = .error f ↔ ctx.depth c = 0 ∧ f = .belowZero c := by
  unfold leave
  cases h : ctx.depth c with
  | zero => simp [eq_comm]
  | succ n => simp

def inList (ctx : Context) : Bool := !ctx.lists.isEmpty || ctx.listContinuation

def openBlock (ctx : Context) (name : String) : Context := { ctx with blocks := name :: ctx.blocks }

/-- Takes the innermost block away, and says what is wrong if it is not the one to close. -/
def popBlock (ctx : Context) (name : String) : Context × Option Failure :=
  match ctx.blocks with
  | [] => (ctx, some (.noOpenBlock name))
  | opened :: rest =>
    ({ ctx with blocks := rest }, if opened = name then none else some (.wrongBlock name opened))

def closeBlock (ctx : Context) (name : String) : Except Failure Context :=
  match ctx.popBlock name with
  | (after, none) => .ok after
  | (_, some failure) => .error failure

theorem closeBlock_openBlock (ctx : Context) (name : String) :
    (ctx.openBlock name).closeBlock name = .ok ctx := by
  simp [openBlock, closeBlock, popBlock]

theorem eq_of_closeBlock {ctx ctx' : Context} {name : String}
    (h : ctx.closeBlock name = .ok ctx') : ∃ blocks, ctx' = { ctx with blocks } := by
  unfold closeBlock popBlock at h
  cases hb : ctx.blocks with
  | nil => simp [hb] at h
  | cons opened rest =>
    simp only [hb] at h
    split at h
    · next after heq =>
      simp only [Prod.mk.injEq] at heq
      simp only [Except.ok.injEq] at h
      exact ⟨rest, by rw [← h, heq.1]⟩
    · cases h

def counters : List Counter :=
  [.anchor, .anchorAsTag, .paragraph, .blockquote, .sensitive, .scriptStrip]

def unbalanced (ctx : Context) : List String :=
  (counters.filter (ctx.depth · ≠ 0)).map Counter.name ++
    (if ctx.blocks = [] then [] else ["blocks"]) ++ if ctx.lists = [] then [] else ["lists"]

end Context

end HtmlMarkdown.Conversion
