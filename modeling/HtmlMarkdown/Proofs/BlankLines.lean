import HtmlMarkdown.Proofs.Lines
import HtmlMarkdown.Proofs.Prose

/-!
# Blank lines in spaced prose

Spaced prose never has two newlines one behind the other, and in front of a heading or a rule it
has at most one line end. `breaks` counts the line ends that a laid out stream ends in: a rule ends
its own line.

Streams are given with their latest token first.
-/

namespace HtmlMarkdown.Markdown

/-- The line ends behind the last token that is not one. -/
def breaks : List Token → Nat
  | [] => 0
  | t :: earlier =>
    match t.tag? with
    | some .newlineBlank => breaks earlier + 2
    | some .newline => breaks earlier + 1
    | some .newlineHard | some .horizontalRule => 1
    | _ => 0

def newlineTokens : List Token := [.newline, .newlineHard, .newlineBlank]

inductive Spaced : List Token → Prop
  | nil : Spaced []
  | space {out : List Token} (h : Spaced out) : Spaced (.space :: out)
  | newline {t : Token} {out : List Token} (ht : t ∈ newlineTokens)
      (hlast : ∀ u ∈ out.head?, u.isNewline = false) (h : Spaced out) : Spaced (t :: out)
  | ownLine {tag : Tag} {data : String} {mark : List Char} {out : List Token}
      (htag : tag = .headingStart ∨ tag = .listItemStart) (hdata : data.toList = '\n' :: mark)
      (hmark : '\n' ∉ mark) (hne : mark ≠ []) (hbreaks : tag = .headingStart → breaks out ≤ 1)
      (h : Spaced out) : Spaced (.markdown tag data :: out)
  | rule {rule : String} {out : List Token} (hrule : '\n' ∉ rule.toList) (hne : rule ≠ "")
      (hbreaks : breaks out ≤ 1) (h : Spaced out) : Spaced (.horizontalRule rule :: out)
  | ink {t : Token} {out : List Token} (ht : Ink t)
      (hempty : t = .html (.characters "") → breaks out = 0) (h : Spaced out) : Spaced (t :: out)

variable {out after ts : List Token} {t : Token} {before next : Option Token}

theorem Spaced.heading (level : Nat) (hbreaks : breaks out ≤ 1) (h : Spaced out) :
    Spaced (.headingStart level :: out) :=
  .ownLine (.inl rfl) (toList_headingMark level) (not_mem_headingMark level) (by simp)
    (fun _ => hbreaks) h

theorem Spaced.item (depth : Nat) {bullet : Bullet} (hb : '\n' ∉ bullet.text.toList)
    (h : Spaced out) : Spaced (.listItemStart depth bullet :: out) := by
  obtain ⟨mark, hdata, hmark, hne⟩ := exists_itemMark depth hb
  exact .ownLine (.inr rfl) hdata hmark hne (fun hh => by cases hh) h

theorem Ink.isWhitespace (h : Ink t) : t.tagIs Tag.isWhitespace = false := by
  cases h with
  | @markdown tag data htag h hne => cases tag <;> first | rfl | cases htag
  | tag hraw h => rfl
  | text h => rfl

theorem Token.not_isNewline_of_not_isWhitespace (h : t.tagIs Tag.isWhitespace = false) :
    t.isNewline = false := by
  by_contra hn
  rw [Bool.not_eq_false] at hn
  rw [Token.isWhitespace_of_isNewline hn] at h
  cases h

theorem mem_newlineTokens :
    t ∈ newlineTokens ↔ t = .newline ∨ t = .newlineHard ∨ t = .newlineBlank := by
  simp [newlineTokens]

theorem isNewline_of_mem (h : t ∈ newlineTokens) :
    t.isNewline = true ∧ t.quoteDepth = none ∧ t.tagIs Tag.isWhitespace = true := by
  rcases mem_newlineTokens.mp h with rfl | rfl | rfl <;> exact ⟨rfl, rfl, rfl⟩

/-- Behind anything but a newline only a rule has ended the line. -/
theorem breaks_of_not_isNewline (h : ∀ u ∈ out.head?, u.isNewline = false) :
    breaks out = if endsInRule out then 1 else 0 := by
  cases out with
  | nil => rfl
  | cons t earlier =>
    have ht : t.isNewline = false := h t rfl
    unfold Token.isNewline Token.tagIs at ht
    rw [breaks, endsInRule, Token.hasTag]
    cases htag : t.tag? with
    | none => rfl
    | some tag =>
      rw [htag] at ht
      cases tag <;> first | rfl | cases ht

theorem Solid.not_isNewline (h : Solid out) : ∀ u ∈ out.head?, u.isNewline = false :=
  fun u hu => Token.not_isNewline_of_not_isWhitespace (h u hu)

/-- Taking white space back leaves spaced prose that ends in no white space. -/
theorem Spaced.exists_solid (h : Spaced out) : ∃ kept, Solid kept ∧ Spaced kept ∧
    ∀ wanted, settle wanted none out = settle wanted none kept := by
  have behind {t : Token} {out : List Token} (hw : t.tagIs Tag.isWhitespace = true)
      (hd : t.quoteDepth = none) (ih : ∃ kept, Solid kept ∧ Spaced kept ∧
        ∀ wanted, settle wanted none out = settle wanted none kept) :
      ∃ kept, Solid kept ∧ Spaced kept ∧
        ∀ wanted, settle wanted none (t :: out) = settle wanted none kept := by
    obtain ⟨kept, hsolid, hkept, hsettle⟩ := ih
    exact ⟨kept, hsolid, hkept, fun wanted => (settle_cons hw hd wanted).trans (hsettle wanted)⟩
  have stays {t : Token} {out : List Token} (hw : t.tagIs Tag.isWhitespace = false)
      (h : Spaced (t :: out)) : ∃ kept, Solid kept ∧ Spaced kept ∧
        ∀ wanted, settle wanted none (t :: out) = settle wanted none kept :=
    ⟨t :: out, fun u hu => Option.some.inj hu ▸ hw, h, fun _ => rfl⟩
  induction h with
  | nil => exact ⟨[], fun u hu => (Option.not_mem_none u hu).elim, .nil, fun _ => rfl⟩
  | space h ih => exact behind rfl rfl ih
  | newline ht hlast h ih =>
    obtain ⟨-, hd, hw⟩ := isNewline_of_mem ht
    exact behind hw hd ih
  | ownLine htag hdata hmark hne hbreaks h ih =>
    exact stays (by rcases htag with rfl | rfl <;> rfl) (.ownLine htag hdata hmark hne hbreaks h)
  | rule hrule hne hbreaks h ih => exact stays rfl (.rule hrule hne hbreaks h)
  | ink ht hempty h ih => exact stays ht.isWhitespace (.ink ht hempty h)

/-- Where one line end is wanted, one is there in the end, or the start of the output. -/
theorem Spaced.settle_one (h : Spaced out) :
    Spaced (settle 1 none out) ∧ breaks (settle 1 none out) ≤ 1 := by
  obtain ⟨kept, hsolid, hkept, hsettle⟩ := h.exists_solid
  rw [hsettle, Markdown.settle_one hsolid]
  have hbreaks := breaks_of_not_isNewline hsolid.not_isNewline
  split_ifs with hfresh
  · refine ⟨hkept, ?_⟩
    split_ifs at hbreaks <;> omega
  · have hrule : endsInRule kept = false := by
      simp only [isFresh, Bool.or_eq_true, not_or, Bool.not_eq_true] at hfresh
      exact hfresh.2
    refine ⟨.newline (by simp [newlineTokens]) hsolid.not_isNewline hkept, ?_⟩
    rw [hrule] at hbreaks
    change breaks kept + 1 ≤ 1
    simp [hbreaks]

theorem Spaced.settle_two (h : Spaced out) : Spaced (settle 2 none out) := by
  obtain ⟨kept, hsolid, hkept, hsettle⟩ := h.exists_solid
  rw [hsettle, Markdown.settle_two hsolid]
  refine .newline ?_ hsolid.not_isNewline hkept
  rw [Token.within_none]
  split_ifs <;> simp [newlineTokens]

/-- Two newlines do not follow each other. -/
theorem Spaced.not_isNewline_tail (h : Spaced (t :: out)) (ht : t.isNewline = true) :
    ∀ u ∈ out.head?, u.isNewline = false := by
  cases h with
  | newline _ hlast _ => exact hlast
  | ownLine htag => rcases htag with rfl | rfl <;> cases ht
  | ink hink hempty h =>
    rw [Token.not_isNewline_of_not_isWhitespace hink.isWhitespace] at ht
    cases ht
  | _ => cases ht

theorem Spaced.tail (h : Spaced (t :: out)) : Spaced out := by
  cases h <;> assumption

/-- In the place of a newline another one may stand. -/
theorem Spaced.replace_newline {u : Token} (h : Spaced (t :: out)) (ht : t.isNewline = true)
    (hu : u ∈ newlineTokens) : Spaced (u :: out) :=
  .newline hu (h.not_isNewline_tail ht) h.tail

namespace Spacer

def Tidy (s : Spacer) : Prop := ∃ out, s = behind out ∧ Spaced out

theorem tidy_push (h : Spaced (t :: out)) : ((behind out).push t).Tidy := ⟨t :: out, rfl, h⟩

theorem tidy_blockStart (h : Spaced out) (hd : t.quoteDepth = none)
    (hnext : ∀ u ∈ next, u.quoteDepth = none) : ((behind out).blockStart t next).Tidy := by
  have hwanted : ((behind out).settle 2 t.quoteDepth).Tidy := ⟨_, rfl, hd ▸ h.settle_two⟩
  unfold blockStart
  dsimp only
  split
  · exact hwanted
  · next u =>
    split_ifs
    · exact ⟨out, rfl, h⟩
    · exact ⟨_, rfl, hnext u rfl ▸ h.settle_one.1⟩
    · exact hwanted

theorem tidy_blockEnd (h : Spaced out) (hd : t.quoteDepth = none) :
    ((behind out).blockEnd t before next).Tidy := by
  unfold blockEnd
  rw [hd]
  split_ifs
  · exact ⟨out, rfl, h⟩
  · exact ⟨_, rfl, h.settle_one.1⟩
  · exact ⟨_, rfl, h.settle_two⟩

theorem tidy_whitespace (h : Spaced out) (ht : t = .space ∨ t ∈ newlineTokens) :
    ((behind out).whitespace t next).Tidy := by
  have hd : t.quoteDepth = none := by
    rcases ht with rfl | ht
    · rfl
    · exact (isNewline_of_mem ht).2.1
  have hpush (hlast : t.isNewline = true → ∀ u ∈ out.head?, u.isNewline = false) :
      ((behind out).push t).Tidy := by
    rcases ht with rfl | ht
    · exact tidy_push (.space h)
    · exact tidy_push (.newline ht (hlast (isNewline_of_mem ht).1) h)
  have hblank : Token.newlineBlank ∈ newlineTokens := by simp [newlineTokens]
  unfold whitespace
  rw [hd]
  split_ifs with hend
  · exact ⟨out, rfl, h⟩
  · cases out with
    | nil => exact hpush fun _ u hu => (Option.not_mem_none u hu).elim
    | cons last earlier =>
      dsimp only [behind]
      split_ifs with hnewlines hrule
      · exact ⟨_, rfl, h.replace_newline hnewlines.2 hblank⟩
      · have hlast : ∀ u ∈ (last :: earlier).head?, u.isNewline = false := by
          rintro u hu
          obtain rfl : last = u := Option.some.inj hu
          exact not_isNewline_of_rule hrule.2
        unfold newlineAfterRule
        rw [hd]
        split_ifs
        · exact ⟨_, rfl, h⟩
        · exact tidy_push (.newline (by simp [newlineTokens]) hlast h)
        · exact ⟨_, rfl, h⟩
      · refine hpush fun hn u hu => ?_
        obtain rfl : last = u := Option.some.inj hu
        exact Bool.not_eq_true _ ▸ fun hlast => hnewlines ⟨hn, hlast⟩

/-- An ink token is written behind what is there. -/
theorem step_ink (h : Ink t) : (behind out).step before t after = behind (t :: out) := by
  cases h with
  | @markdown tag data htag h hne =>
    rw [step_of_tag rfl]
    cases tag <;> first | rfl | cases htag
  | tag hraw h => exact step_of_none rfl
  | text h => exact step_of_none rfl

theorem tidy_step (h : Spaced out) (ht : Piece t)
    (hafter : ∀ u ∈ after.head?, u.quoteDepth = none) :
    ((behind out).step before t after).Tidy := by
  cases ht with
  | blockStart => exact tidy_blockStart h rfl hafter
  | blockEnd => exact tidy_blockEnd h rfl
  | space => exact tidy_whitespace h (.inl rfl)
  | newline | newlineHard | newlineBlank =>
    exact tidy_whitespace h (.inr (by simp [newlineTokens]))
  | item depth hb => exact tidy_push (.item depth hb h)
  | rule hrule hne =>
    obtain ⟨hsettled, hbreaks⟩ := h.settle_one
    exact ⟨_, rfl, .rule hrule hne hbreaks hsettled⟩
  | ink hink hne =>
    rw [step_ink hink]
    exact ⟨_, rfl, .ink hink (fun heq => absurd heq hne) h⟩

/-- Directly behind the start of its block, a heading has at most one line end before it. -/
theorem tidy_heading (h : Spaced out) (level : Nat) :
    ∃ settled, (behind out).step before .startBlock (.headingStart level :: after) =
        behind settled ∧ Spaced (.headingStart level :: settled) := by
  obtain ⟨hsettled, hbreaks⟩ := h.settle_one
  exact ⟨Markdown.settle 1 none out, rfl, .heading level hbreaks hsettled⟩

theorem tidy_run (hts : Prose ts) (h : Spaced out) : ((behind out).run before ts).Tidy := by
  induction hts generalizing before out with
  | nil => exact ⟨out, rfl, h⟩
  | @piece t ts ht hts ih =>
    have hafter : ∀ u ∈ ts.head?, u.quoteDepth = none := fun u hu =>
      hts.quoteDepth u (List.mem_of_mem_head? hu)
    have hstep : ((behind out).step before t ts).Tidy := tidy_step h ht hafter
    obtain ⟨out', heq, hout'⟩ := hstep
    rw [run, heq]
    exact ih hout'
  | heading level hts ih =>
    obtain ⟨settled, heq, hsettled⟩ := tidy_heading h level
    rw [run, heq, run]
    exact ih hsettled
  | @linked raw s ts hraw hu hs hts ih =>
    have htag : Spaced (.html raw :: out) :=
      .ink (.tag hraw hu) (fun heq => absurd heq (html_ne_text hraw "")) h
    rw [run, step_of_none rfl, run, step_of_none rfl]
    exact ih (.ink (.text hs) (fun _ => rfl) htag)

end Spacer

theorem spaced_space (h : Prose ts) : Spaced (space ts).reverse := by
  have hrun : (({} : Spacer).run none ts).Tidy := Spacer.tidy_run h .nil
  obtain ⟨out, heq, hout⟩ := hrun
  rwa [space, heq, List.reverse_reverse]

end HtmlMarkdown.Markdown
