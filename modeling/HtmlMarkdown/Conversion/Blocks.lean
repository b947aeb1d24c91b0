import HtmlMarkdown.Conversion.Reaction
import HtmlMarkdown.Conversion.Window
import HtmlMarkdown.Options

/-!
# Blocks

Paragraphs, headings, quotes, lists and list items. Each opens a block at its start tag and closes
it at its end tag. Lists share one block with the lists inside them, and with a list that follows
directly.
-/

namespace HtmlMarkdown.Conversion

open Markdown (Token Bullet)

def paragraph (name : String) (opening : Bool) (ctx : Context) : Except Failure Reaction :=
  if opening then .ok (.emit ((ctx.enter .paragraph).openBlock name) [.startBlock])
  else do
    let ctx ← ctx.leave .paragraph
    let ctx ← ctx.closeBlock name
    return .emit ctx [.endBlock]

/-- Each tag of a paragraph writes one mark, and changes the depth and the open blocks only. -/
theorem paragraph_eq {name : String} {opening : Bool} {ctx : Context} {r : Reaction}
    (h : paragraph name opening ctx = .ok r) : ∃ depth blocks,
      r = .emit { ctx with paragraph := depth, blocks }
        [if opening then .startBlock else .endBlock] := by
  cases opening with
  | true =>
    cases h
    exact ⟨_, _, rfl⟩
  | false =>
    obtain ⟨c₁, h₁, h⟩ := bind_eq_ok h
    obtain ⟨c₂, h₂, h⟩ := bind_eq_ok h
    obtain ⟨depth, rfl⟩ := Context.eq_of_leave h₁
    obtain ⟨blocks, rfl⟩ := Context.eq_of_closeBlock h₂
    cases h
    exact ⟨depth, blocks, rfl⟩

def heading (name : String) (level : Nat) (opening : Bool) (ctx : Context) :
    Except Failure Reaction :=
  if opening then .ok (.emit (ctx.openBlock name) [.startBlock, .headingStart level])
  else do
    let ctx ← ctx.closeBlock name
    return .emit ctx [.endBlock]

theorem heading_eq {name : String} {level : Nat} {opening : Bool} {ctx : Context} {r : Reaction}
    (h : heading name level opening ctx = .ok r) : ∃ blocks,
      r = .emit { ctx with blocks }
        (if opening then [.startBlock, .headingStart level] else [.endBlock]) := by
  cases opening with
  | true =>
    cases h
    exact ⟨_, rfl⟩
  | false =>
    obtain ⟨c₁, h₁, h⟩ := bind_eq_ok h
    obtain ⟨blocks, rfl⟩ := Context.eq_of_closeBlock h₁
    cases h
    exact ⟨blocks, rfl⟩

def quote (opening : Bool) (ctx : Context) : Except Failure Reaction :=
  if opening then
    .ok (.emit ((ctx.enter .blockquote).openBlock "blockquote") [.startBlock, .startBlockquote])
  else do
    let ctx ← ctx.closeBlock "blockquote"
    let ctx ← ctx.leave .blockquote
    return .emit ctx [.endBlockquote, .endBlock]

theorem quote_eq {opening : Bool} {ctx : Context} {r : Reaction}
    (h : quote opening ctx = .ok r) : ∃ depth blocks,
      r = .emit { ctx with blockquote := depth, blocks }
        (if opening then [.startBlock, .startBlockquote] else [.endBlockquote, .endBlock]) := by
  cases opening with
  | true =>
    cases h
    exact ⟨_, _, rfl⟩
  | false =>
    obtain ⟨c₁, h₁, h⟩ := bind_eq_ok h
    obtain ⟨c₂, h₂, h⟩ := bind_eq_ok h
    obtain ⟨blocks, rfl⟩ := Context.eq_of_closeBlock h₁
    obtain ⟨depth, rfl⟩ := Context.eq_of_leave h₂
    cases h
    exact ⟨depth, blocks, rfl⟩

def openList (kind : Html.ListKind) (ctx : Context) : Reaction :=
  let within := { ctx with lists := { kind } :: ctx.lists }
  if ctx.lists ≠ [] then .quiet within
  else if ctx.listContinuation then .quiet { within with listContinuation := false }
  else .emit within [.startBlock]

/-- The start of a list opens the list and writes the start of a block or nothing. -/
theorem openList_eq (kind : Html.ListKind) (ctx : Context) :
    ∃ c, (∃ continued,
        c = { ctx with lists := { kind } :: ctx.lists, listContinuation := continued }) ∧
      (openList kind ctx = .quiet c ∨ openList kind ctx = .emit c [.startBlock]) := by
  unfold openList
  dsimp only
  split
  · exact ⟨_, ⟨ctx.listContinuation, rfl⟩, .inl rfl⟩
  · split
    · exact ⟨_, ⟨false, rfl⟩, .inl rfl⟩
    · exact ⟨_, ⟨ctx.listContinuation, rfl⟩, .inr rfl⟩

/-- Closes the innermost list; `more` when another list follows directly. -/
def closeList (more : Bool) (ctx : Context) : Except Failure Reaction :=
  match ctx.lists with
  | [] => .error .noOpenList
  | _ :: outer =>
    let after := { ctx with lists := outer }
    .ok (if outer ≠ [] then .quiet after
      else if more then .quiet { after with listContinuation := true }
      else .emit after [.endBlock])

/-- The end of a list closes the list and writes the end of a block or nothing. -/
theorem closeList_eq {more : Bool} {ctx : Context} {r : Reaction}
    (h : closeList more ctx = .ok r) :
    ∃ c, (∃ continued,
        c = { ctx with lists := ctx.lists.tail, listContinuation := continued }) ∧
      (r = .quiet c ∨ r = .emit c [.endBlock]) := by
  unfold closeList at h
  split at h
  · cases h
  · next hlists =>
    cases h
    rw [hlists]
    split
    · exact ⟨_, ⟨ctx.listContinuation, rfl⟩, .inl rfl⟩
    · split
      · exact ⟨_, ⟨true, rfl⟩, .inl rfl⟩
      · exact ⟨_, ⟨ctx.listContinuation, rfl⟩, .inr rfl⟩

def nextBullet (o : Options) (ctx : Context) : Context × Bullet :=
  match ctx.lists with
  | ⟨.ordered, count⟩ :: outer =>
    ({ ctx with lists := ⟨.ordered, count + 1⟩ :: outer }, .ordinal (count + 1))
  | _ => (ctx, .mark o.bullet)

/-- An item is counted by the innermost list. -/
theorem nextBullet_eq (o : Options) (ctx : Context) : ∃ lists,
    lists.map ListFrame.kind = ctx.lists.map ListFrame.kind ∧
      (nextBullet o ctx).1 = { ctx with lists } := by
  unfold nextBullet
  split
  · next hlists => exact ⟨_, by rw [hlists]; rfl, rfl⟩
  · exact ⟨ctx.lists, rfl, rfl⟩

def item (o : Options) (opening : Bool) (ctx : Context) : Except Failure Reaction :=
  if opening then
    let (counted, bullet) := nextBullet o (ctx.openBlock "li")
    .ok (.emit counted [.listItemStart (max ctx.lists.length 1) bullet])
  else do
    let ctx ← ctx.closeBlock "li"
    return .quiet ctx

/-- The end of an item writes nothing. -/
theorem closeItem_eq {o : Options} {ctx : Context} {r : Reaction} (h : item o false ctx = .ok r) :
    ∃ blocks, r = .quiet { ctx with blocks } := by
  obtain ⟨c₁, h₁, h⟩ := bind_eq_ok h
  obtain ⟨blocks, rfl⟩ := Context.eq_of_closeBlock h₁
  cases h
  exact ⟨blocks, rfl⟩

end HtmlMarkdown.Conversion
