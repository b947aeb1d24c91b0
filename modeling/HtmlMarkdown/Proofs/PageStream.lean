import HtmlMarkdown.Proofs.Balance
import HtmlMarkdown.Proofs.Page
import Mathlib.Data.List.Chain

/-!
# The stream of a page

A page is converted block by block. Every block begins and ends with a block mark and leaves the
context as it was; the space behind it becomes a blank line, and the space in front of the first
block becomes nothing.
-/

namespace HtmlMarkdown

open Markdown (Token)

def Line.token (l : Line) : Token := .html (.characters l.text)

def itemStream (o : Options) (kind : Html.ListKind) (count : Nat) : List Item → List Token
  | [] => []
  | i :: is =>
    .listItemStart 1 (bulletAt o kind count) :: i.line.token :: itemStream o kind (count + 1) is

namespace Block

def content (o : Options) : Block → List Token
  | paragraph _ line => [line.token]
  | heading _ level _ _ line => [.headingStart level, line.token]
  | rule _ => [.horizontalRule o.rule]
  | list kind _ first others => itemStream o kind 0 (first :: others)
  | code _ _ line => [line.token]

def opening (o : Options) : Block → List Token
  | code attributes _ _ =>
    [.startBlock, .native .opening (o.clean (.startTag "pre" attributes)), .startCode]
  | _ => [.startBlock]

def closing (o : Options) : Block → List Token
  | code .. => [.endCode, .native .closing (o.clean (.endTag "pre"))]
  | _ => []

def stream (o : Options) (b : Block) : List Token :=
  b.opening o ++ b.content o ++ b.closing o ++ [.endBlock]

end Block

def stamped (depth : Nat) (ts : List Token) : List Token := ts.map (·.within (some depth))

theorem stamped_append (depth : Nat) (ts us : List Token) :
    stamped depth (ts ++ us) = stamped depth ts ++ stamped depth us := List.map_append

def quoteOpenings (depth : Nat) : Nat → List Token
  | 0 => []
  | n + 1 => stamped (depth + 1) [.startBlock, .startBlockquote] ++ quoteOpenings (depth + 1) n

def quoteClosings : Nat → List Token
  | 0 => []
  | n + 1 => stamped n [.endBlockquote, .endBlock] ++ quoteClosings n

def gapStream (space : Option String) : List Token := space.toList.map fun _ => .newlineBlank

def blocksStream (o : Options) (depth : Nat) (bs : List (Block × Option String)) : List Token :=
  stamped depth (bs.flatMap fun b => b.1.stream o ++ gapStream b.2)

def Page.stream (o : Options) (p : Page) : List Token :=
  quoteOpenings 0 p.depth ++ blocksStream o p.depth p.blocks ++ quoteClosings p.depth

namespace Conversion

def Context.quoted (depth : Nat) : Context :=
  { blockquote := depth, blocks := List.replicate depth "blockquote" }

/-- From this state the tokens lead to this context, and these tokens are emitted for them. -/
def Produces (o : Options) (rest : List Html.Token) (s : State) (ts : List Html.Token)
    (us : List Token) (ctx : Context) : Prop :=
  ∃ s', Passes o rest s ts s' ∧ s'.context = ctx ∧ s'.emitted = us.reverse ++ s.emitted

variable {o : Options} {rest ts ts' after : List Html.Token} {s : State} {us us' : List Token}
  {ctx ctx' inside outside : Context} {last : Option Token} {name : String}
  {attributes : Html.Attributes}

namespace Produces

theorem nil (h : s.context = ctx) : Produces o rest s [] [] ctx := ⟨s, .nil s, h, rfl⟩

theorem cons {t : Html.Token} (hr : react o (s.window t (ts ++ rest)) s.emitted.head? s.context =
      .ok (.emit ctx us))
    (h : Produces o rest (s.accept t (.emit ctx us)) ts us' ctx') :
    Produces o rest s (t :: ts) (stamped ctx.blockquote us ++ us') ctx' := by
  obtain ⟨s', hs', hctx, hemitted⟩ := h
  refine ⟨s', .cons hr hs', hctx, ?_⟩
  rw [hemitted, List.reverse_append, List.append_assoc]
  rfl

theorem one {t : Html.Token} (hr : react o (s.window t rest) s.emitted.head? s.context =
      .ok (.emit ctx us)) : Produces o rest s [t] (stamped ctx.blockquote us) ctx := by
  have hproduced : Produces o rest s [t] (stamped ctx.blockquote us ++ []) ctx := cons hr (nil rfl)
  rwa [List.append_nil] at hproduced

theorem append (h : Produces o (ts' ++ rest) s ts us ctx)
    (h' : ∀ s', s'.context = ctx → s'.emitted = us.reverse ++ s.emitted →
      s'.before = ts.getLast?.or s.before → Produces o rest s' ts' us' ctx') :
    Produces o rest s (ts ++ ts') (us ++ us') ctx' := by
  obtain ⟨s₁, h₁, hctx, hemitted⟩ := h
  obtain ⟨s₂, h₂, hctx', hemitted'⟩ := h' s₁ hctx hemitted h₁.before_eq
  refine ⟨s₂, h₁.append h₂, hctx', ?_⟩
  rw [hemitted', hemitted, List.reverse_append, List.append_assoc]

end Produces

theorem isEmptyPair_of_after (hafter : ∀ t ∈ after.head?, t.kind ≠ .endTag) :
    (s.window (.startTag name attributes) after).isEmptyPair name = false := by
  cases after with
  | nil => rfl
  | cons t ts =>
    have ht : t.kind ≠ .endTag := hafter t rfl
    simp [Window.isEmptyPair, State.window, Html.Token.startTag, Html.Token.isNamed, ht]

theorem isEmptyPair_of_before (hbefore : ∀ t ∈ s.before, t.kind ≠ .startTag) :
    (s.window (.endTag name) after).isEmptyPair name = false := by
  cases hb : s.before with
  | none => simp [Window.isEmptyPair, State.window, Html.Token.endTag, hb]
  | some t =>
    have ht : t.kind ≠ .startTag := hbefore t hb
    simp [Window.isEmptyPair, State.window, Html.Token.endTag, Html.Token.isNamed, hb, ht]

theorem react_openTag (hreg : s.context.region o = .ordinary)
    (hafter : ∀ t ∈ after.head?, t.kind ≠ .endTag) :
    react o (s.window (.startTag name attributes) after) last s.context =
      pairedTag o (s.window (.startTag name attributes) after) s.context := by
  rw [react_of_ordinary hreg]
  exact tag_of_content rfl (isEmptyPair_of_after hafter)

theorem react_closeTag (hreg : s.context.region o = .ordinary)
    (hbefore : ∀ t ∈ s.before, t.kind ≠ .startTag) :
    react o (s.window (.endTag name) after) last s.context =
      pairedTag o (s.window (.endTag name) after) s.context := by
  rw [react_of_ordinary hreg]
  exact tag_of_content rfl (isEmptyPair_of_before hbefore)

theorem region_quoted (o : Options) (depth : Nat) :
    (Context.quoted depth).region o = .ordinary := by
  simp [Context.region, Context.quoted]

theorem quote_close (ctx : Context) :
    quote false ((ctx.enter .blockquote).openBlock "blockquote") =
      .ok (.emit ctx [.endBlockquote, .endBlock]) := by
  have hclose : ((ctx.enter .blockquote).openBlock "blockquote").closeBlock "blockquote" =
      .ok (ctx.enter .blockquote) := Context.closeBlock_openBlock _ _
  simp only [quote, hclose, bind, Except.bind, Context.leave_enter, pure, Except.pure,
    Bool.false_eq_true, if_false]

theorem roleOf_of_headingLevel? {level : Nat} (h : Html.headingLevel? name = some level) :
    Html.roleOf name = .heading level := by
  simp only [Html.roleOf, h]

theorem produces_openings {depth : Nat} (quotes : List Html.Attributes)
    (hrest : ∀ t ∈ rest.head?, t.kind ≠ .endTag) (h : s.context = .quoted depth) :
    Produces o rest s (quotes.map (.startTag "blockquote")) (quoteOpenings depth quotes.length)
      (.quoted (depth + quotes.length)) := by
  induction quotes generalizing s depth with
  | nil => exact .nil h
  | cons attributes quotes ih =>
    have hrole : Html.roleOf "blockquote" = .quote := by decide
    have hafter : ∀ t ∈ (quotes.map (Html.Token.startTag "blockquote") ++ rest).head?,
        t.kind ≠ .endTag := by
      cases quotes with
      | nil => exact hrest
      | cons attributes quotes => simp [Html.Token.startTag]
    have hopen : react o (s.window (.startTag "blockquote" attributes)
        (quotes.map (.startTag "blockquote") ++ rest)) s.emitted.head? s.context =
          .ok (.emit (.quoted (depth + 1)) [.startBlock, .startBlockquote]) := by
      rw [react_openTag (h ▸ region_quoted o depth) hafter]
      have htag : (s.window (.startTag "blockquote" attributes)
          (quotes.map (.startTag "blockquote") ++ rest)).token.tagName = "blockquote" := rfl
      simp only [pairedTag, htag, hrole, h]
      rfl
    rw [List.length_cons, ← Nat.add_assoc, Nat.add_right_comm]
    exact .cons hopen (ih rfl)

theorem produces_closings {depth : Nat} (h : s.context = .quoted depth)
    (hbefore : ∀ t ∈ s.before, t.kind ≠ .startTag) :
    Produces o rest s (List.replicate depth (.endTag "blockquote")) (quoteClosings depth)
      (.quoted 0) := by
  induction depth generalizing s with
  | zero => exact .nil h
  | succ depth ih =>
    have hrole : Html.roleOf "blockquote" = .quote := by decide
    have hclose : react o (s.window (.endTag "blockquote")
        (List.replicate depth (.endTag "blockquote") ++ rest)) s.emitted.head? s.context =
          .ok (.emit (.quoted depth) [.endBlockquote, .endBlock]) := by
      rw [react_closeTag (h ▸ region_quoted o (depth + 1)) hbefore, pairedTag_of_endTag rfl, hrole,
        h]
      exact quote_close (.quoted depth)
    exact .cons hclose (ih rfl (by simp [State.accept, Html.Token.endTag]))

def EndsClosed (ts : List Html.Token) : Prop := ∀ t ∈ ts.getLast?, t.kind ≠ .startTag

theorem EndsClosed.append (h : EndsClosed ts) (h' : EndsClosed ts') : EndsClosed (ts ++ ts') := by
  intro t ht
  rw [List.getLast?_append] at ht
  cases hlast : ts'.getLast? with
  | none => exact h t (by simpa [hlast] using ht)
  | some u =>
    obtain rfl : u = t := by simpa [hlast] using ht
    exact h' u hlast

end Conversion

end HtmlMarkdown
