import HtmlMarkdown.Proofs.PageSpacing

/-!
# White space that parts

Behind a token that is no white space, the spacing pass writes in front of the output only: it takes
back what it has put there itself. Where a block mark, white space or the mark of an item comes up
between two words, white space stands there in the end: a mark that is passed over has another one
directly behind it.

Streams are given with their latest token first.
-/

namespace HtmlMarkdown.Markdown

def Tag.flows : Tag → Bool
  | startCode | endCode | startNativeBlock | endNativeBlock | horizontalRule => false
  | _ => true

namespace Token

def Blank (t : Token) : Prop :=
  ∃ tag data, t.node = .markdown tag data ∧ tag.renderKind ≠ .text ∧
    ∃ c ∈ data.toList, Text.isWhite c = true

/-- The token is white space, or white space comes to stand where it is. -/
def Parts (t : Token) : Prop :=
  t.tagIs Tag.isBlockStart = true ∨ t.tagIs Tag.isBlockEnd = true ∨ t.Blank

structure Flows (t : Token) : Prop where
  tag : ∀ tag ∈ t.tag?, tag.flows = true
  blank : ∀ tag ∈ t.tag?, tag.isWhitespace = true ∨ tag = .listItemStart → t.Blank

end Token

structure Worded (base : List Token) : Prop where
  solid : Solid base
  rule : endsInRule base = false

variable {base out after ts xs ys : List Token} {t u x : Token} {before : Option Token}
  {wanted : Nat} {depth : Option Nat}

theorem Token.Blank.of_node (h : t.Blank) (hu : u.node = t.node) : u.Blank := by
  obtain ⟨tag, data, ht, hkind, hwhite⟩ := h
  exact ⟨tag, data, hu.trans ht, hkind, hwhite⟩

theorem Token.Flows.not_rule (h : t.Flows) : t.hasTag .horizontalRule = false := by
  unfold Token.hasTag
  cases htag : t.tag? with
  | none => rfl
  | some tag =>
    have hplain := h.tag tag htag
    cases tag <;> first | rfl | cases hplain

theorem Token.Flows.blank_of_isWhitespace (h : t.Flows) (ht : t.tagIs Tag.isWhitespace = true) :
    t.Blank := by
  obtain ⟨tag, htag, hw⟩ := (Option.any_eq_true _ _).mp ht
  exact h.blank tag htag (.inl hw)

/-- What calls for no white space is no block mark, no white space and no mark of an item. -/
theorem Token.Flows.inline (h : t.Flows) (hparts : ¬t.Parts) : ∀ tag ∈ t.tag?,
    tag.isBlockStart = false ∧ tag.isBlockEnd = false ∧
      ¬(tag.isWhitespace = true ∨ tag = .listItemStart) := by
  intro tag htag
  have hclass (p : Tag → Bool) : t.tagIs p = p tag := by
    simp [Token.tagIs, Option.mem_def.mp htag]
  refine ⟨?_, ?_, fun hblank => hparts (.inr (.inr (h.blank tag htag hblank)))⟩
  · by_contra hstart
    exact hparts (.inl ((hclass _).trans (eq_true_of_ne_false hstart)))
  · by_contra hend
    exact hparts (.inr (.inl ((hclass _).trans (eq_true_of_ne_false hend))))

theorem blank_newlines (count : Nat) (depth : Option Nat) :
    ((Token.newlines count).within depth).Blank := by
  have hnewline : Text.isWhite '\n' = true := by decide
  refine Token.Blank.of_node ?_ (Token.node_within _ _)
  unfold Token.newlines
  split_ifs
  · exact ⟨.newlineBlank, "\n\n", rfl, by decide, '\n', by decide, hnewline⟩
  · exact ⟨.newline, "\n", rfl, by decide, '\n', by decide, hnewline⟩

theorem blank_newlineBlank (depth : Option Nat) : (Token.newlineBlank.within depth).Blank :=
  blank_newlines 2 depth

theorem not_rule_newlines (count : Nat) (depth : Option Nat) :
    ((Token.newlines count).within depth).hasTag .horizontalRule = false := by
  rw [Token.hasTag_within]
  unfold Token.newlines
  split_ifs <;> rfl

theorem not_endsInRule (hbase : endsInRule base = false)
    (hxs : ∀ x ∈ xs, x.hasTag .horizontalRule = false) : endsInRule (xs ++ base) = false := by
  cases xs with
  | nil => exact hbase
  | cons x xs => exact hxs x List.mem_cons_self

/-- Taking white space back leaves the base, and with no rule there, newlines stay wanted. -/
theorem rewind_over (hbase : Worded base) (hxs : ∀ x ∈ xs, x.hasTag .horizontalRule = false)
    (hwanted : 1 ≤ wanted) (depth : Option Nat) :
    ∃ ys n, rewind wanted depth (xs ++ base) = (ys ++ base, n) ∧
      (∀ y ∈ ys, y.hasTag .horizontalRule = false) ∧ 1 ≤ n := by
  induction xs with
  | nil => exact ⟨[], wanted, rewind_of_solid hbase.solid wanted depth, hxs, hwanted⟩
  | cons x xs ih =>
    obtain ⟨hx, hrest⟩ := List.forall_mem_cons.mp hxs
    have hearlier := not_endsInRule hbase.rule hrest
    rw [List.cons_append, rewind]
    split
    · exact ⟨x :: xs, wanted, rfl, hxs, hwanted⟩
    · split_ifs with hforeign hblank hrule
      · rw [hearlier] at hrule
        cases hrule
      · refine ⟨foreignBlank x (xs ++ base) :: xs, 1, rfl, List.forall_mem_cons.mpr ⟨?_, hrest⟩,
          Nat.le_refl 1⟩
        unfold foreignBlank
        rw [if_neg hrule]
        exact Token.hasTag_within .newline x.quoteDepth .horizontalRule
      · exact ⟨x :: xs, 1, rfl, hxs, Nat.le_refl 1⟩
      · exact ih hrest

/-- Behind a word, white space comes where newlines are wanted. -/
theorem settle_over (hbase : Worded base) (hxs : ∀ x ∈ xs, x.hasTag .horizontalRule = false)
    (hwanted : 1 ≤ wanted) (depth : Option Nat) :
    ∃ ys, settle wanted depth (xs ++ base) = ys ++ base ∧
      (∀ y ∈ ys, y.hasTag .horizontalRule = false) ∧ (base ≠ [] → ∃ y ∈ ys, y.Blank) := by
  obtain ⟨ys, n, hrewind, hys, hn⟩ := rewind_over hbase hxs hwanted depth
  rw [settle, hrewind]
  dsimp only
  rw [not_endsInRule hbase.rule hys, Bool.or_false]
  have written (m : Nat) : ∃ zs, (Token.newlines m).within depth :: (ys ++ base) = zs ++ base ∧
      (∀ z ∈ zs, z.hasTag .horizontalRule = false) ∧ (base ≠ [] → ∃ z ∈ zs, z.Blank) :=
    ⟨(Token.newlines m).within depth :: ys, rfl,
      List.forall_mem_cons.mpr ⟨not_rule_newlines m depth, hys⟩,
      fun _ => ⟨_, List.mem_cons_self, blank_newlines m depth⟩⟩
  split_ifs with hempty hmissing hmissing
  · refine ⟨ys, rfl, hys, fun hne => ?_⟩
    simp [hne] at hempty
  · exact written _
  · omega
  · exact written _

namespace Spacer

/-- The state is behind the base with no rule in what stands there. Behind a word white space has
come, if it was to, or the next token calls for it. -/
def Follows (base after : List Token) (parted : Prop) (s : Spacer) : Prop :=
  ∃ ys, s = behind (ys ++ base) ∧ (∀ y ∈ ys, y.hasTag .horizontalRule = false) ∧
    (base ≠ [] → parted → (∃ y ∈ ys, y.Blank) ∨ ∃ u ∈ after.head?, u.Parts)

variable {parted : Prop}

theorem follows_settle (hbase : Worded base) (hxs : ∀ x ∈ xs, x.hasTag .horizontalRule = false)
    (hwanted : 1 ≤ wanted) (depth : Option Nat) :
    Follows base after parted ((behind (xs ++ base)).settle wanted depth) := by
  obtain ⟨ys, heq, hys, hblank⟩ := settle_over hbase hxs hwanted depth
  exact ⟨ys, congrArg behind heq, hys, fun hne _ => .inl (hblank hne)⟩

/-- A block mark is passed over where the next token calls for white space. -/
theorem follows_passed (hxs : ∀ x ∈ xs, x.hasTag .horizontalRule = false)
    (hnext : ∃ u ∈ after.head?, u.Parts) : Follows base after parted (behind (xs ++ base)) :=
  ⟨xs, rfl, hxs, fun _ _ => .inr hnext⟩

theorem follows_push (hxs : ∀ x ∈ xs, x.hasTag .horizontalRule = false)
    (ht : t.hasTag .horizontalRule = false) (hparted : parted → (∃ x ∈ xs, x.Blank) ∨ t.Blank) :
    Follows base after parted ((behind (xs ++ base)).push t) := by
  refine ⟨t :: xs, rfl, List.forall_mem_cons.mpr ⟨ht, hxs⟩, fun _ h => .inl ?_⟩
  rcases hparted h with ⟨x, hx, hblank⟩ | hblank
  · exact ⟨x, List.mem_cons_of_mem t hx, hblank⟩
  · exact ⟨t, List.mem_cons_self, hblank⟩

theorem follows_blockStart (hbase : Worded base)
    (hxs : ∀ x ∈ xs, x.hasTag .horizontalRule = false) (hafter : ∀ u ∈ after.head?, u.Flows) :
    Follows base after parted ((behind (xs ++ base)).blockStart t after.head?) := by
  unfold blockStart
  dsimp only
  split
  · exact follows_settle hbase hxs (by omega) _
  · next u hu =>
    split_ifs with hpassed
    · refine follows_passed hxs ⟨u, hu, ?_⟩
      rcases hpassed with hstart | hnewline
      · exact .inl hstart
      · have hwhite := Token.isWhitespace_of_isNewline hnewline
        exact .inr (.inr ((hafter u hu).blank_of_isWhitespace hwhite))
    · exact follows_settle hbase hxs (by omega) _
    · exact follows_settle hbase hxs (by omega) _

theorem follows_blockEnd (hbase : Worded base)
    (hxs : ∀ x ∈ xs, x.hasTag .horizontalRule = false) (hafter : ∀ u ∈ after.head?, u.Flows) :
    Follows base after parted ((behind (xs ++ base)).blockEnd t before after.head?) := by
  unfold blockEnd
  split_ifs with hpassed
  · refine follows_passed hxs ?_
    simp only [Option.any_eq_true] at hpassed
    rcases hpassed with ⟨u, hu, hend⟩ | ⟨u, hu, hnewline⟩
    · exact ⟨u, hu, .inr (.inl hend)⟩
    · have hwhite := Token.isWhitespace_of_isNewline hnewline
      exact ⟨u, hu, .inr (.inr ((hafter u hu).blank_of_isWhitespace hwhite))⟩
  · exact follows_settle hbase hxs (by omega) _
  · exact follows_settle hbase hxs (by omega) _

theorem follows_whitespace (hbase : Worded base)
    (hxs : ∀ x ∈ xs, x.hasTag .horizontalRule = false) (ht : t.Flows)
    (hwhite : t.tagIs Tag.isWhitespace = true) :
    Follows base after parted ((behind (xs ++ base)).whitespace t after.head?) := by
  have hblank := ht.blank_of_isWhitespace hwhite
  have hpush : Follows base after parted ((behind (xs ++ base)).push t) :=
    follows_push hxs ht.not_rule fun _ => .inr hblank
  unfold whitespace
  split_ifs with hend
  · obtain ⟨u, hu, hend⟩ := (Option.any_eq_true _ _).mp hend
    exact follows_passed hxs ⟨u, hu, .inr (.inl hend)⟩
  · cases xs with
    | nil =>
      cases base with
      | nil => exact hpush
      | cons last earlier =>
        have hsolid : last.tagIs Tag.isWhitespace = false := hbase.solid last rfl
        have hlast : last.isNewline = false := by
          by_contra hn
          rw [Token.isWhitespace_of_isNewline (by simpa using hn)] at hsolid
          cases hsolid
        have hrule : last.hasTag .horizontalRule = false := hbase.rule
        simpa [behind, hlast, hrule] using hpush
    | cons x xs =>
      obtain ⟨hx, hrest⟩ := List.forall_mem_cons.mp hxs
      have hrule : ¬(t.isNewline = true ∧ x.hasTag .horizontalRule = true) := by simp [hx]
      dsimp only [behind, List.cons_append]
      rw [if_neg hrule]
      split_ifs
      · exact follows_push hrest (Token.hasTag_within _ _ _) fun _ => .inr (blank_newlineBlank _)
      · exact hpush

/-- A step writes behind a word, and leaves white space there where it is called for. -/
theorem follows_step (hbase : Worded base) (hxs : ∀ x ∈ xs, x.hasTag .horizontalRule = false)
    (ht : t.Flows) (hafter : ∀ u ∈ after.head?, u.Flows) (before : Option Token) :
    Follows base after ((∃ x ∈ xs, x.Blank) ∨ t.Parts)
      ((behind (xs ++ base)).step before t after) := by
  have pushed (hstart : t.tagIs Tag.isBlockStart = false) (hend : t.tagIs Tag.isBlockEnd = false) :
      Follows base after ((∃ x ∈ xs, x.Blank) ∨ t.Parts) ((behind (xs ++ base)).push t) := by
    refine follows_push hxs ht.not_rule fun h => h.imp_right fun hparts => ?_
    simpa [Token.Parts, hstart, hend] using hparts
  cases htag : t.tag? with
  | none =>
    have hnone (p : Tag → Bool) : t.tagIs p = false := by simp [Token.tagIs, htag]
    rw [step_of_none htag]
    exact pushed (hnone _) (hnone _)
  | some tag =>
    have hclass (p : Tag → Bool) : t.tagIs p = p tag := by simp [Token.tagIs, htag]
    have hflows := ht.tag tag htag
    rw [step_of_tag htag]
    unfold ordinary
    cases tag with
    | startCode | endCode | startNativeBlock | endNativeBlock | horizontalRule => cases hflows
    | startBlock | startBlockquote => exact follows_blockStart hbase hxs hafter
    | endBlock | endBlockquote => exact follows_blockEnd hbase hxs hafter
    | space | tab | newline | newlineHard | newlineBlank =>
      exact follows_whitespace hbase hxs ht (hclass _)
    | _ => exact pushed (hclass _) (hclass _)

/-- A run writes behind a word. White space is left there where one of the tokens calls for it and
the run ends before one that does not. -/
theorem follows_run (rest : List Token) (hbase : Worded base)
    (hxs : ∀ x ∈ xs, x.hasTag .horizontalRule = false) (hts : ∀ t ∈ ts, t.Flows)
    (hrest : ∀ u ∈ rest.head?, u.Flows) (hnext : ∀ u ∈ rest.head?, ¬u.Parts)
    (before : Option Token) : ∃ ys before', (behind (xs ++ base)).run before (ts ++ rest) =
        (behind (ys ++ base)).run before' rest ∧
      (∀ y ∈ ys, y.hasTag .horizontalRule = false) ∧
      (base ≠ [] → ((∃ x ∈ xs, x.Blank) ∨ ∃ t ∈ ts, t.Parts) → ∃ y ∈ ys, y.Blank) := by
  induction ts generalizing xs before with
  | nil => exact ⟨xs, before, rfl, hxs, fun _ h => h.resolve_right (by simp)⟩
  | cons t ts ih =>
    obtain ⟨ht, hbehind⟩ := List.forall_mem_cons.mp hts
    have hafter : ∀ u ∈ (ts ++ rest).head?, u.Flows := by
      intro u hu
      cases ts with
      | nil => exact hrest u hu
      | cons v ts =>
        obtain rfl : v = u := Option.some.inj hu
        exact hbehind v List.mem_cons_self
    obtain ⟨zs, hstep, hzs, hparts⟩ := follows_step hbase hxs ht hafter before
    obtain ⟨ys, before', hrun, hys, hblank⟩ := ih hzs hbehind (some t)
    refine ⟨ys, before', ?_, hys, fun hne hparted => hblank hne ?_⟩
    · rw [List.cons_append, run, hstep, hrun]
    · have hsoon (h : (∃ x ∈ xs, x.Blank) ∨ t.Parts) :
          (∃ z ∈ zs, z.Blank) ∨ ∃ t ∈ ts, t.Parts := by
        refine (hparts hne h).imp_right ?_
        rintro ⟨u, hu, hcalls⟩
        cases ts with
        | nil => exact absurd hcalls (hnext u hu)
        | cons v ts => exact ⟨u, List.mem_of_mem_head? hu, hcalls⟩
      rcases hparted with hxs | ⟨u, hu, hcalls⟩
      · exact hsoon (.inl hxs)
      · rcases List.mem_cons.mp hu with rfl | hu
        · exact hsoon (.inr hcalls)
        · exact .inr ⟨u, hu, hcalls⟩

/-- What calls for no white space is written as it is. -/
theorem step_of_not_parts (ht : t.Flows) (hparts : ¬t.Parts) :
    (behind out).step before t after = behind (t :: out) := by
  cases htag : t.tag? with
  | none => exact step_of_none htag
  | some tag =>
    obtain ⟨hstart, hend, hblank⟩ := ht.inline hparts tag htag
    have hflows := ht.tag tag htag
    rw [step_of_tag htag]
    cases tag <;> first | rfl | contradiction

theorem run_of_not_parts (hts : ∀ t ∈ ts, t.Flows ∧ ¬t.Parts) (rest : List Token) :
    ∃ before', (behind out).run before (ts ++ rest) =
      (behind (ts.reverse ++ out)).run before' rest := by
  induction ts generalizing out before with
  | nil => exact ⟨before, rfl⟩
  | cons t ts ih =>
    obtain ⟨⟨ht, hparts⟩, hts⟩ := List.forall_mem_cons.mp hts
    obtain ⟨before', hrun⟩ := ih hts
    refine ⟨before', ?_⟩
    rw [List.cons_append, run, step_of_not_parts ht hparts, hrun]
    simp

/-- Between two words white space is left where a token calls for it. Other tokens are written as
they are, if there are no such tokens. -/
theorem exists_run (rest : List Token) (hbase : Worded base) (hne : base ≠ [])
    (hts : ∀ t ∈ ts, t.Flows) (hrest : ∀ u ∈ rest.head?, u.Flows ∧ ¬u.Parts) :
    ∃ ys before', (behind base).run before (ts ++ rest) = (behind (ys ++ base)).run before' rest ∧
      (∀ y ∈ ys, y.hasTag .horizontalRule = false) ∧
      ((∃ t ∈ ts, t.Parts) → ∃ y ∈ ys, y.Blank) ∧
      ((∀ t ∈ ts, ¬t.Parts) → ys = ts.reverse) := by
  by_cases hparts : ∃ t ∈ ts, t.Parts
  · have hnone : ∀ x ∈ ([] : List Token), x.hasTag .horizontalRule = false := List.forall_mem_nil _
    obtain ⟨ys, before', hrun, hrules, hblank⟩ := follows_run rest hbase hnone hts
      (fun u hu => (hrest u hu).1) (fun u hu => (hrest u hu).2) before
    obtain ⟨t, ht, hcalls⟩ := hparts
    exact ⟨ys, before', hrun, hrules, fun h => hblank hne (.inr h), fun h => absurd hcalls (h t ht)⟩
  · have hnot : ∀ t ∈ ts, ¬t.Parts := fun t ht hcalls => hparts ⟨t, ht, hcalls⟩
    obtain ⟨before', hrun⟩ := run_of_not_parts (fun t ht => ⟨hts t ht, hnot t ht⟩) rest
    exact ⟨ts.reverse, before', hrun, fun y hy => (hts y (List.mem_reverse.mp hy)).not_rule,
      fun h => absurd h hparts, fun _ => rfl⟩

end Spacer

end HtmlMarkdown.Markdown
