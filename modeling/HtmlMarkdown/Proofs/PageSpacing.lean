import HtmlMarkdown.Proofs.CodeSpacing

/-!
# The spacing of a page

Between two blocks the spacing pass leaves one blank line. Behind a rule the line end of the rule
is there already, and so is the line on which the output begins: there a block is fresh, and one
newline less stands in front of it.
-/

namespace HtmlMarkdown

open Markdown (Token Tag Spacer)

namespace Markdown

def Solid (out : List Token) : Prop := ∀ t ∈ out.head?, t.tagIs Tag.isWhitespace = false

/-- Nothing is there yet, or a rule that ends its line. -/
def isFresh (out : List Token) : Bool := out.isEmpty || endsInRule out

variable {out after : List Token} {t : Token} {before : Option Token} {depth : Option Nat}

theorem rewind_of_solid (h : Solid out) (wanted : Nat) (depth : Option Nat) :
    rewind wanted depth out = (out, wanted) := by
  cases out with
  | nil => rfl
  | cons t out =>
    have ht : t.tagIs Tag.isWhitespace = false := h t rfl
    have hnone : t.tag?.filter Tag.isWhitespace = none := by
      rw [Option.filter_eq_none_iff]
      intro tag htag hw
      simp [Token.tagIs, htag, hw] at ht
    rw [rewind, hnone]

/-- White space of the depth at hand is taken back. -/
theorem settle_cons (ht : t.tagIs Tag.isWhitespace = true) (hdepth : t.quoteDepth = depth)
    (wanted : Nat) : settle wanted depth (t :: out) = settle wanted depth out := by
  obtain ⟨tag, htag, hw⟩ := (Option.any_eq_true _ _).mp ht
  have hrewind : rewind wanted depth (t :: out) = rewind wanted depth out := by
    have hfilter : t.tag?.filter Tag.isWhitespace = some tag := by simp [htag, hw]
    rw [rewind, hfilter]
    dsimp only
    rw [if_neg fun h => h.2 hdepth]
  rw [settle, hrewind]
  rfl

def missing (wanted : Nat) (out : List Token) : Nat := if isFresh out then wanted - 1 else wanted

theorem settle_of_solid (h : Solid out) (wanted : Nat) (depth : Option Nat) :
    settle wanted depth out = if missing wanted out = 0 then out
      else (Token.newlines (missing wanted out)).within depth :: out := by
  rw [settle, rewind_of_solid h]
  rfl

theorem settle_two (h : Solid out) (depth : Option Nat) : settle 2 depth out =
    (if isFresh out then Token.newline else Token.newlineBlank).within depth :: out := by
  rw [settle_of_solid h, missing]
  split_ifs <;> simp_all [Token.newlines]

theorem settle_one (h : Solid out) (depth : Option Nat) : settle 1 depth out =
    if isFresh out then out else Token.newline.within depth :: out := by
  rw [settle_of_solid h, missing]
  split_ifs <;> simp_all [Token.newlines]

namespace Spacer

/-- Behind anything but a newline or a rule, and where no block ends, a newline stays. -/
theorem step_newline {last : Token} (ht : t.tag? = some .newline) (hlast : last.isNewline = false)
    (hrule : last.hasTag .horizontalRule = false)
    (hnext : after.head?.any (·.tagIs Tag.isBlockEnd) = false) :
    (behind (last :: out)).step before t after = behind (t :: last :: out) := by
  rw [step_of_tag ht]
  change (behind (last :: out)).whitespace t after.head? = _
  unfold whitespace
  rw [hnext, if_neg Bool.false_ne_true]
  simp [behind, hlast, hrule, push]

end Spacer

theorem inCodeBlock_within (t : Token) (depth : Option Nat) :
    (t.within depth).inCodeBlock = t.inCodeBlock.within depth := by
  obtain ⟨node, quoteDepth, inCode⟩ := t
  cases quoteDepth <;> rfl

def gapBehind (depth : Nat) (out : List Token) : List Token :=
  if isFresh out then [] else [Token.newlineBlank.within (some depth)]

theorem tagIs_newlines (count : Nat) : (Token.newlines count).tagIs Tag.isWhitespace = true := by
  unfold Token.newlines
  split_ifs <;> rfl

theorem quoteDepth_newlines (count : Nat) : (Token.newlines count).quoteDepth = none := by
  unfold Token.newlines
  split_ifs <;> rfl

/-- The newlines are there after they were put there once. -/
theorem settle_settle (h : Solid out) (wanted depth : Nat) :
    settle wanted (quoteLevel depth) (settle wanted (quoteLevel depth) out) =
      settle wanted (quoteLevel depth) out := by
  rw [settle_of_solid h]
  split_ifs with hmissing
  · rw [settle_of_solid h, if_pos hmissing]
  · have hwhite : ((Token.newlines (missing wanted out)).within (some depth)).tagIs
        Tag.isWhitespace = true := (Token.tagIs_within _ _ _).trans (tagIs_newlines _)
    have hdepth : ((Token.newlines (missing wanted out)).within (some depth)).quoteDepth =
        quoteLevel depth := Token.quoteDepth_within (quoteDepth_newlines _) depth
    rw [within_quoteLevel, settle_cons hwhite hdepth, settle_of_solid h, if_neg hmissing,
      within_quoteLevel]

end Markdown

namespace Block

/-- What stands in front of a block: the newline that begins it, and one more for a blank line. -/
def lead (fresh : Bool) : Block → List Token
  | paragraph .. => [if fresh then .newline else .newlineBlank]
  | code .. => (if fresh then [] else [.newline]) ++ [Token.newline.inCodeBlock]
  | _ => if fresh then [] else [.newline]

def laid (o : Options) : Block → List Token
  | code _ _ line => [line.token.inCodeBlock]
  | b => b.content o

def spaced (o : Options) (fresh : Bool) (b : Block) : List Token := b.lead fresh ++ b.laid o

def body (o : Options) (b : Block) : List Token := b.opening o ++ b.content o ++ b.closing o

end Block

def spacedBlocks (o : Options) (fresh : Bool) : List (Block × Option String) → List Token
  | [] => []
  | b :: bs => b.1.spaced o fresh ++ spacedBlocks o b.1.isRule bs

def Page.spaced (o : Options) (p : Page) : List Token :=
  stamped p.depth (spacedBlocks o true p.blocks) ++ [.newlineBlank]

namespace Markdown

namespace Spacer

variable {out rest : List Token} {t n : Token} {before : Option Token} {depth : Nat}

theorem run_cons {s : Spacer} :
    s.run before (t :: rest) = (s.step before t rest).run (some t) rest := rfl

theorem step_rule (h : t.tag? = some .horizontalRule) :
    (behind out).step before t rest = behind (t :: Markdown.settle 1 t.quoteDepth out) := by
  rw [step_of_tag h]
  rfl

variable {o : Options}

/-- The line of a block of code, behind a blank one unless it is fresh. -/
theorem codeLine_settle_two (h : Solid out) (depth : Nat) :
    codeLine (quoteLevel depth) (Markdown.settle 2 (quoteLevel depth) out) =
      (stamped depth
        ((if isFresh out then [] else [.newline]) ++ [Token.newline.inCodeBlock])).reverse ++
          out := by
  rw [settle_two h, within_quoteLevel]
  cases hfresh : isFresh out with
  | true =>
    have hsingle : (Token.newline.within (some depth)).tagIs Tag.isSingleNewline = true :=
      Token.tagIs_within _ _ _
    simp only [if_true, codeLine, hsingle]
    rw [inCodeBlock_within]
    rfl
  | false =>
    have hsingle : (Token.newlineBlank.within (some depth)).tagIs Tag.isSingleNewline = false :=
      Token.tagIs_within _ _ _
    have hblank : (Token.newlineBlank.within (some depth)).hasTag .newlineBlank = true :=
      Token.hasTag_within _ _ _
    simp only [Bool.false_eq_true, if_false, codeLine, hsingle, hblank, if_true]
    rw [Token.quoteDepth_within rfl, within_quoteLevel, inCodeBlock_within]
    rfl

variable {last : Token} {b : Block}

/-- The mark that closes a block, in front of nothing that closes another one, leaves a blank
line. -/
theorem settle_close (h : Solid out) (hlast : last.tagIs Tag.closesItsLine = isFresh out) :
    Markdown.settle (if (some last).any (·.tagIs Tag.closesItsLine) then 1 else 2)
      (quoteLevel depth) out = gapBehind depth out ++ out := by
  rw [Option.any_some, hlast]
  cases hfresh : isFresh out with
  | true => rw [if_pos rfl, settle_one h, hfresh, if_pos rfl, gapBehind, hfresh]; rfl
  | false =>
    rw [if_neg Bool.false_ne_true, settle_two h, hfresh, gapBehind, hfresh, within_quoteLevel]
    rfl

theorem any_head?_within (t : Token) (depth : Option Nat) (ts : List Token) (p : Tag → Bool) :
    (t.within depth :: ts).head?.any (·.tagIs p) = t.tagIs p := Token.tagIs_within t depth p

/-- The token behind the mark that closes a block closes one as well or is a newline. -/
def ClosesOn (rest : List Token) : Prop :=
  rest.head?.any (·.tagIs Tag.isBlockEnd) = true ∨ rest.head?.any (·.isNewline) = true

theorem step_endBlock (h : Solid out) (hlast : last.tagIs Tag.closesItsLine = isFresh out)
    (hnext : ¬ClosesOn rest) :
    (behind out).step (some last) (Token.endBlock.within (some depth)) rest =
      behind (gapBehind depth out ++ out) := by
  rw [step_of_tag (Token.tag?_within _ _)]
  change (behind out).blockEnd _ _ rest.head? = _
  unfold ClosesOn at hnext
  rw [blockEnd, if_neg hnext, Token.quoteDepth_within rfl]
  exact congrArg behind (settle_close h hlast)

theorem step_end_of_closesOn (ht : t.tag? = some .endBlock ∨ t.tag? = some .endBlockquote)
    (hnext : ClosesOn rest) : (behind out).step before t rest = behind out := by
  have hend : (behind out).step before t rest = (behind out).blockEnd t before rest.head? := by
    rcases ht with ht | ht <;> exact step_of_tag ht
  unfold ClosesOn at hnext
  rw [hend, blockEnd, if_pos hnext]

/-- The space behind a block makes the blank line that would be there without it. -/
theorem step_blank (h : Solid out) (hne : out ≠ [])
    (hend : rest.head?.any (·.tagIs Tag.isBlockEnd) = false)
    (hstart : isFresh out = true → rest.head?.any (·.tagIs Tag.isBlockStart) = true) :
    (behind out).step before (Token.newlineBlank.within (some depth)) rest =
      behind (gapBehind depth out ++ out) := by
  obtain ⟨t, earlier, rfl⟩ := List.exists_cons_of_ne_nil hne
  have ht : t.tagIs Tag.isWhitespace = false := h t rfl
  have hline : t.isNewline = false := by
    unfold Token.isNewline Token.tagIs at *
    cases htag : t.tag? with
    | none => rfl
    | some tag =>
      rw [htag] at ht
      cases hnew : tag.isNewline with
      | false => simp [hnew]
      | true => simp [Tag.isWhitespace_of_isNewline hnew] at ht
  have hblank : (Token.newlineBlank.within (some depth)).isNewline = true :=
    Token.tagIs_within _ _ _
  have hfresh : isFresh (t :: earlier) = t.hasTag .horizontalRule := rfl
  rw [step_of_tag (Token.tag?_within _ _)]
  change (behind (t :: earlier)).whitespace _ rest.head? = _
  rw [whitespace, hend, if_neg Bool.false_ne_true]
  simp only [behind, hline, hblank, Bool.false_eq_true, and_false, if_false, true_and]
  cases hrule : t.hasTag .horizontalRule with
  | true =>
    rw [if_pos rfl, newlineAfterRule, if_pos (hstart (hfresh.trans hrule)), gapBehind, hfresh,
      hrule]
    rfl
  | false =>
    rw [if_neg Bool.false_ne_true, push, gapBehind, hfresh, hrule]
    rfl

theorem step_blank_of_end (hend : rest.head?.any (·.tagIs Tag.isBlockEnd) = true) :
    (behind out).step before (Token.newlineBlank.within (some depth)) rest = behind out := by
  rw [step_of_tag (Token.tag?_within _ _)]
  change (behind out).whitespace _ rest.head? = _
  rw [whitespace, if_pos hend]

theorem closesOn_blank (depth : Nat) (rest : List Token) :
    ClosesOn (Token.newlineBlank.within (some depth) :: rest) :=
  .inr (any_head?_within .newlineBlank (some depth) rest Tag.isNewline)

/-- Behind a block, with or without space, a blank line stands before what opens next. -/
theorem run_between (space : Option String) (h : Solid out) (hne : out ≠ [])
    (hlast : last.tagIs Tag.closesItsLine = isFresh out) (hnext : ¬ClosesOn rest)
    (hstart : isFresh out = true → rest.head?.any (·.tagIs Tag.isBlockStart) = true) :
    ∃ before, (behind out).run (some last) (stamped depth (.endBlock :: gapStream space) ++ rest) =
      (behind (gapBehind depth out ++ out)).run before rest := by
  cases space with
  | none =>
    refine ⟨some (Token.endBlock.within (some depth)), ?_⟩
    change ((behind out).step (some last) (Token.endBlock.within (some depth)) rest).run _ rest = _
    rw [step_endBlock h hlast hnext]
  | some text =>
    have hend : rest.head?.any (·.tagIs Tag.isBlockEnd) = false := by
      rw [← Bool.not_eq_true]
      exact fun hend => hnext (.inl hend)
    refine ⟨some (Token.newlineBlank.within (some depth)), ?_⟩
    change (((behind out).step (some last) (Token.endBlock.within (some depth))
      (Token.newlineBlank.within (some depth) :: rest)).step _
        (Token.newlineBlank.within (some depth)) rest).run _ rest = _
    rw [step_end_of_closesOn (.inl (Token.tag?_within _ _)) (closesOn_blank depth rest),
      step_blank h hne hend hstart]

/-- In front of the end of a quote the space behind a block is nothing. -/
theorem run_before_end (space : Option String)
    (hend : rest.head?.any (·.tagIs Tag.isBlockEnd) = true) :
    ∃ before, (behind out).run (some last) (stamped depth (.endBlock :: gapStream space) ++ rest) =
      (behind out).run before rest := by
  cases space with
  | none =>
    refine ⟨some (Token.endBlock.within (some depth)), ?_⟩
    change ((behind out).step (some last) (Token.endBlock.within (some depth)) rest).run _ rest = _
    rw [step_end_of_closesOn (.inl (Token.tag?_within _ _)) (.inl hend)]
  | some text =>
    refine ⟨some (Token.newlineBlank.within (some depth)), ?_⟩
    change (((behind out).step (some last) (Token.endBlock.within (some depth))
      (Token.newlineBlank.within (some depth) :: rest)).step _
        (Token.newlineBlank.within (some depth)) rest).run _ rest = _
    rw [step_end_of_closesOn (.inl (Token.tag?_within _ _)) (closesOn_blank depth rest),
      step_blank_of_end hend]

theorem head?_quoteClosings (depth : Nat) :
    (quoteClosings (depth + 1)).head?.any (·.tagIs Tag.isBlockEnd) = true :=
  any_head?_within .endBlockquote (some depth) _ Tag.isBlockEnd

/-- Where all quotes close, one blank line is left. -/
theorem run_closings (h : Solid out) (hfresh : isFresh out = false) (depth : Nat)
    (before : Option Token) :
    (behind out).run before (quoteClosings (depth + 1)) = behind (.newlineBlank :: out) := by
  have hends (n : Nat) (ts : List Token) : ClosesOn (Token.endBlock.within (some n) :: ts) :=
    .inl (any_head?_within .endBlock (some n) ts Tag.isBlockEnd)
  induction depth generalizing before with
  | zero =>
    change (behind out).run before
      [Token.endBlockquote.within (some 0), Token.endBlock.within (some 0)] = _
    have hlast : (Token.endBlockquote.within (some 0)).tagIs Tag.closesItsLine = isFresh out := by
      rw [hfresh]
      rfl
    rw [run_cons, step_end_of_closesOn (.inr (Token.tag?_within _ _)) (hends 0 []), run_cons,
      step_endBlock h hlast (by simp [ClosesOn]), gapBehind, hfresh]
    rfl
  | succ depth ih =>
    change (behind out).run before (Token.endBlockquote.within (some (depth + 1)) ::
      Token.endBlock.within (some (depth + 1)) :: quoteClosings (depth + 1)) = _
    rw [run_cons, step_end_of_closesOn (.inr (Token.tag?_within _ _)) (hends _ _), run_cons,
      step_end_of_closesOn (.inl (Token.tag?_within _ _)) (.inl (head?_quoteClosings depth)), ih]

/-- The marks of quotes that open leave the output empty. -/
theorem run_openings (n depth : Nat) (before : Option Token)
    (hrest : rest.head?.any (·.tagIs Tag.isBlockStart) = true) :
    ∃ before', (behind out).run before (quoteOpenings depth n ++ rest) =
      (behind out).run before' rest := by
  have hstep {t : Token} {before : Option Token} {ts : List Token}
      (ht : t.tag? = some .startBlock ∨ t.tag? = some .startBlockquote)
      (hts : ts.head?.any (·.tagIs Tag.isBlockStart) = true) :
      (behind out).step before t ts = behind out := by
    have hstart : (behind out).step before t ts = (behind out).blockStart t ts.head? := by
      rcases ht with ht | ht <;> exact step_of_tag ht
    cases ts with
    | nil => simp at hts
    | cons u us =>
      have hu : u.tagIs Tag.isBlockStart = true := hts
      rw [hstart]
      simp [blockStart, hu]
  induction n generalizing depth before with
  | zero => exact ⟨before, rfl⟩
  | succ n ih =>
    obtain ⟨before', hrun⟩ :=
      ih (depth + 1) (some (Token.startBlockquote.within (some (depth + 1))))
    refine ⟨before', ?_⟩
    change (behind out).run before (Token.startBlock.within (some (depth + 1)) ::
      Token.startBlockquote.within (some (depth + 1)) :: (quoteOpenings (depth + 1) n ++ rest)) = _
    have hnext : (quoteOpenings (depth + 1) n ++ rest).head?.any (·.tagIs Tag.isBlockStart) =
        true := by
      cases n with
      | zero => exact hrest
      | succ n => exact any_head?_within .startBlock (some (depth + 1 + 1)) _ Tag.isBlockStart
    have hquote := any_head?_within .startBlockquote (some (depth + 1))
      (quoteOpenings (depth + 1) n ++ rest) Tag.isBlockStart
    have hopen : (behind out).step before (Token.startBlock.within (some (depth + 1)))
        (Token.startBlockquote.within (some (depth + 1)) :: (quoteOpenings (depth + 1) n ++ rest)) =
          behind out := hstep (.inl (Token.tag?_within _ _)) hquote
    rw [run_cons, hopen, run_cons, hstep (.inr (Token.tag?_within _ _)) hnext, hrun]

/-- Behind the last block of a page all quotes close, and a blank line is left. -/
theorem run_end (space : Option String) (h : Solid out) (hne : out ≠ [])
    (hlast : last.tagIs Tag.closesItsLine = isFresh out) (hfresh : isFresh out = false) :
    (behind out).run (some last)
        (stamped depth (.endBlock :: gapStream space) ++ quoteClosings depth) =
      behind (.newlineBlank :: out) := by
  cases depth with
  | zero =>
    have hend : ¬ClosesOn (quoteClosings 0) := by simp [quoteClosings, ClosesOn]
    obtain ⟨before, hrun⟩ := run_between space h hne hlast hend fun hf => by simp [hfresh] at hf
    rw [hrun, gapBehind, hfresh]
    rfl
  | succ n =>
    obtain ⟨before, hrun⟩ := run_before_end space (head?_quoteClosings n)
    exact hrun.trans (run_closings h hfresh n before)

end Spacer

end Markdown

end HtmlMarkdown
