import HtmlMarkdown.Proofs.PageSpacing
import HtmlMarkdown.Proofs.Settling

/-!
# What `settle` leaves

`settle` takes white space back from the end of the output, down to a token that is no white space
or to a newline of another quote depth. Behind that it leaves the end of a line of the wanted depth,
if there is no rule and the output is not empty. There is one exception: a blank line of another
depth stays directly behind a rule, and no line of the wanted depth begins behind it.

Streams are given with their latest token first.
-/

namespace HtmlMarkdown.Markdown

/-- White space that is taken back where lines of this depth are wanted. -/
def Token.isOwnSpace (depth : Option Nat) (t : Token) : Bool :=
  t.tagIs Tag.isWhitespace && !(t.isNewline && t.quoteDepth != depth)

def EndsLine (depth : Option Nat) (out : List Token) : Prop :=
  out = [] ∨ endsInRule out = true ∨
    ∃ t ∈ out.head?, t.isNewline = true ∧ t.quoteDepth = depth

/-- Behind the white space that is taken back, the output ends in a blank line of another depth
directly behind a rule. -/
def BlankBehindRule (depth : Option Nat) (out : List Token) : Prop :=
  ∃ blank earlier, out.dropWhile (Token.isOwnSpace depth) = blank :: earlier ∧
    blank.hasTag .newlineBlank = true ∧ blank.quoteDepth.filter (0 < ·) ≠ depth ∧
    endsInRule earlier = true

inductive Halts (depth : Option Nat) : List Token → Prop
  | solid {out : List Token} (h : Solid out) : Halts depth out
  | foreign {t : Token} {earlier : List Token} (h : t.isNewline = true)
    (hd : t.quoteDepth ≠ depth) : Halts depth (t :: earlier)

variable {out earlier : List Token} {t : Token} {wanted : Nat} {depth : Option Nat}

theorem Token.isWhitespace_of_isOwnSpace (h : t.isOwnSpace depth = true) :
    t.tagIs Tag.isWhitespace = true := by
  unfold isOwnSpace at h
  rw [Bool.and_eq_true] at h
  exact h.1

theorem halts_dropWhile (depth : Option Nat) (out : List Token) :
    Halts depth (out.dropWhile (Token.isOwnSpace depth)) := by
  have hhead := List.head?_dropWhile_not (Token.isOwnSpace depth) out
  cases hrest : out.dropWhile (Token.isOwnSpace depth) with
  | nil => exact .solid (by simp [Solid])
  | cons t earlier =>
    rw [hrest] at hhead
    have ht : t.isOwnSpace depth = false := by simpa using hhead
    cases hw : t.tagIs Tag.isWhitespace with
    | false => exact .solid (by simpa [Solid] using hw)
    | true =>
      have hforeign : t.isNewline = true ∧ t.quoteDepth ≠ depth := by
        simpa [Token.isOwnSpace, hw] using ht
      exact .foreign hforeign.1 hforeign.2

theorem rewind_cons_of_isOwnSpace (h : t.isOwnSpace depth = true) (wanted : Nat) :
    rewind wanted depth (t :: out) = rewind wanted depth out := by
  obtain ⟨tag, htag, hw⟩ := (Option.any_eq_true _ _).mp (Token.isWhitespace_of_isOwnSpace h)
  have hown : ¬(tag.isNewline = true ∧ t.quoteDepth ≠ depth) := by
    rintro ⟨hn, hd⟩
    simp [Token.isOwnSpace, Token.tagIs, Token.isNewline, htag, hw, hn, hd] at h
  have hfilter : t.tag?.filter Tag.isWhitespace = some tag := by simp [htag, hw]
  rw [rewind, hfilter]
  dsimp only
  rw [if_neg hown]

theorem settle_dropWhile (wanted : Nat) (depth : Option Nat) (out : List Token) :
    settle wanted depth (out.dropWhile (Token.isOwnSpace depth)) = settle wanted depth out := by
  unfold settle
  induction out with
  | nil => rfl
  | cons t out ih =>
    cases h : t.isOwnSpace depth with
    | false => rw [List.dropWhile_cons_of_neg (by simp [h])]
    | true => rw [List.dropWhile_cons_of_pos h, ih, rewind_cons_of_isOwnSpace h]

/-- What stays of a blank line of another depth is a newline of its depth. -/
theorem foreignBlank_newline (blank : Token) (earlier : List Token) :
    (foreignBlank blank earlier).isNewline = true ∧
      (foreignBlank blank earlier).quoteDepth = blank.quoteDepth.filter (0 < ·) := by
  have hkept {t : Token} (hn : t.isNewline = true) (hd : t.quoteDepth = none) :
      (t.within blank.quoteDepth).isNewline = true ∧
        (t.within blank.quoteDepth).quoteDepth = blank.quoteDepth.filter (0 < ·) :=
    ⟨(Token.tagIs_within _ _ _).trans hn, by simp only [Token.within, hd]⟩
  unfold foreignBlank
  cases endsInRule earlier with
  | true => exact hkept (t := Token.newlineBlank) rfl rfl
  | false => exact hkept (t := Token.newline) rfl rfl

/-- A single newline of another depth stays, with one of the wanted depth behind it. -/
theorem settle_foreign_line (h : t.isNewline = true) (hd : t.quoteDepth ≠ depth)
    (hline : t.hasTag .newlineBlank = false) (wanted : Nat) :
    settle wanted depth (t :: earlier) = Token.newline.within depth :: t :: earlier := by
  obtain ⟨tag, htag, hn⟩ := (Option.any_eq_true _ _).mp h
  have hne : tag ≠ .newlineBlank := by
    rintro rfl
    simp [Token.hasTag, htag] at hline
  have hfilter : t.tag?.filter Tag.isWhitespace = some tag := by
    simp [htag, Tag.isWhitespace_of_isNewline hn]
  have hrewind : rewind wanted depth (t :: earlier) = (t :: earlier, 1) := by
    rw [rewind, hfilter]
    dsimp only
    rw [if_pos ⟨hn, hd⟩, if_neg hne]
  have hrule : endsInRule (t :: earlier) = false := (Token.not_hasTag_of_isNewline h).1
  rw [settle, hrewind]
  simp [hrule, Token.newlines]

/-- Of a blank line of another depth one newline stays, with one of the wanted depth behind it.
Directly behind a rule the blank line stays as it is. -/
theorem settle_foreign_blank (h : t.hasTag .newlineBlank = true) (hd : t.quoteDepth ≠ depth)
    (wanted : Nat) : settle wanted depth (t :: earlier) =
      if endsInRule earlier then foreignBlank t earlier :: earlier
      else Token.newline.within depth :: foreignBlank t earlier :: earlier := by
  have htag := Token.tag?_eq_of_hasTag h
  have hrewind : rewind wanted depth (t :: earlier) =
      (foreignBlank t earlier :: earlier, if endsInRule earlier then 0 else 1) := by
    rw [rewind, htag]
    exact if_pos ⟨rfl, hd⟩
  have hkept : endsInRule (foreignBlank t earlier :: earlier) = false :=
    (Token.not_hasTag_of_isNewline (foreignBlank_newline t earlier).1).1
  rw [settle, hrewind]
  split_ifs with hrule <;> simp [hkept, Token.newlines]

theorem endsLine_cons (hd : depth ≠ some 0) (wanted : Nat) (out : List Token) :
    EndsLine depth ((Token.newlines wanted).within depth :: out) := by
  have hfresh := freshNewline_newlines wanted hd
  exact .inr (.inr ⟨_, rfl, hfresh.newline, hfresh.depth⟩)

theorem endsLine_settle_of_solid (hout : Solid out) (hd : depth ≠ some 0) (hw : 1 ≤ wanted) :
    EndsLine depth (settle wanted depth out) := by
  rw [settle_of_solid hout]
  split_ifs with hmissing
  · have hfresh : isFresh out = true := by
      by_contra hfresh
      rw [missing, if_neg hfresh] at hmissing
      omega
    rw [isFresh, Bool.or_eq_true] at hfresh
    exact hfresh.imp List.isEmpty_iff.mp .inl
  · exact endsLine_cons hd _ out

/-- White space is taken back and newlines are put there; what is no white space stays. -/
theorem dropWhile_settle (wanted : Nat) (depth : Option Nat) (out : List Token) :
    (settle wanted depth out).dropWhile (·.tagIs Tag.isWhitespace) =
      out.dropWhile (·.tagIs Tag.isWhitespace) := by
  have hwhite {t : Token} (h : t.tagIs Tag.isWhitespace = true) (out : List Token) :
      (t :: out).dropWhile (·.tagIs Tag.isWhitespace) = out.dropWhile (·.tagIs Tag.isWhitespace) :=
    List.dropWhile_cons_of_pos h
  have hnewlines (count : Nat) (out : List Token) :=
    hwhite ((Token.tagIs_within _ depth _).trans (tagIs_newlines count)) out
  have hown : (out.dropWhile (Token.isOwnSpace depth)).dropWhile (·.tagIs Tag.isWhitespace) =
      out.dropWhile (·.tagIs Tag.isWhitespace) := by
    induction out with
    | nil => rfl
    | cons t out ih =>
      cases h : t.isOwnSpace depth with
      | false => rw [List.dropWhile_cons_of_neg (by simp [h])]
      | true =>
        rw [List.dropWhile_cons_of_pos h, ih, hwhite (Token.isWhitespace_of_isOwnSpace h)]
  have hhalts := halts_dropWhile depth out
  rw [← settle_dropWhile, ← hown]
  generalize out.dropWhile (Token.isOwnSpace depth) = kept at hhalts
  cases hhalts with
  | solid hsolid =>
    rw [settle_of_solid hsolid]
    split_ifs
    · rfl
    · exact hnewlines _ kept
  | @foreign t earlier hn hforeign =>
    have hkept := Token.isWhitespace_of_isNewline (foreignBlank_newline t earlier).1
    cases hblank : t.hasTag .newlineBlank with
    | false =>
      rw [settle_foreign_line hn hforeign hblank]
      exact hnewlines 1 _
    | true =>
      rw [settle_foreign_blank hblank hforeign,
        hwhite (Token.isWhitespace_of_isNewline hn)]
      split_ifs
      · exact hwhite hkept earlier
      · exact (hnewlines 1 _).trans (hwhite hkept earlier)

/-- Where newlines are wanted, `settle` leaves everything up to the last token that is no white
space as it was, and the end of a line of the wanted depth behind it, unless it comes to a blank
line of another depth directly behind a rule. -/
theorem endsLine_settle_iff (hd : depth ≠ some 0) (hw : 1 ≤ wanted) (out : List Token) :
    (settle wanted depth out).dropWhile (·.tagIs Tag.isWhitespace) =
        out.dropWhile (·.tagIs Tag.isWhitespace) ∧
      (EndsLine depth (settle wanted depth out) ↔ ¬BlankBehindRule depth out) := by
  refine ⟨dropWhile_settle wanted depth out, ?_⟩
  have hhalts := halts_dropWhile depth out
  rw [← settle_dropWhile]
  unfold BlankBehindRule
  generalize out.dropWhile (Token.isOwnSpace depth) = kept at hhalts
  cases hhalts with
  | solid hsolid =>
    refine iff_of_true (endsLine_settle_of_solid hsolid hd hw) ?_
    rintro ⟨blank, earlier, rfl, hblank, -⟩
    have hwhite := hsolid blank rfl
    simp [Token.tagIs, Token.tag?_eq_of_hasTag hblank, Tag.isWhitespace] at hwhite
  | @foreign t earlier hn hforeign =>
    cases hblank : t.hasTag .newlineBlank with
    | false =>
      rw [settle_foreign_line hn hforeign hblank]
      refine iff_of_true (endsLine_cons hd 1 _) ?_
      rintro ⟨_, _, heq, hblank', -⟩
      cases heq
      simp [hblank] at hblank'
    | true =>
      rw [settle_foreign_blank hblank hforeign]
      cases hrule : endsInRule earlier with
      | false =>
        refine iff_of_true (endsLine_cons hd 1 _) ?_
        rintro ⟨_, _, heq, -, -, hrule'⟩
        cases heq
        simp [hrule] at hrule'
      | true =>
        obtain ⟨hnewline, hdepth⟩ := foreignBlank_newline t earlier
        have hends : EndsLine depth (foreignBlank t earlier :: earlier) ↔
            t.quoteDepth.filter (0 < ·) = depth := by
          have hkept : endsInRule (foreignBlank t earlier :: earlier) = false :=
            (Token.not_hasTag_of_isNewline hnewline).1
          simp [EndsLine, hkept, hnewline, hdepth]
        simp [hends, hblank, hrule]

/-- Behind a quote a line outside of it begins: the blank line of the quote stays as one newline,
and a newline of the wanted depth follows. -/
theorem endsLine_settle_behind_quote :
    let out : List Token := [Token.newlineBlank.within (some 1), .html (.characters "a")]
    none ≠ some 0 ∧ 1 ≤ 2 ∧ EndsLine none (settle 2 none out) ∧
      settle 2 none out =
        [.newline, Token.newline.within (some 1), .html (.characters "a")] := by
  intro out
  have hd : none ≠ some 0 := (Option.some_ne_none 0).symm
  refine ⟨hd, by decide, (endsLine_settle_iff hd (by decide) out).2.mpr ?_, by decide⟩
  have hkept : out.dropWhile (Token.isOwnSpace none) = out := by decide
  rintro ⟨blank, earlier, heq, -, -, hrule⟩
  obtain rfl := (List.cons.inj (hkept.symm.trans heq)).2
  cases hrule

/-- A blank line of an outer quote directly behind a rule: it stays, and no line of the inner quote
begins. -/
theorem not_endsLine_settle_behind_rule :
    let out : List Token := [Token.newlineBlank.within (some 1), .horizontalRule "---"]
    settle 2 (some 2) out = out ∧ ¬EndsLine (some 2) (settle 2 (some 2) out) := by
  intro out
  have hsettle : settle 2 (some 2) out = out := by decide
  refine ⟨hsettle, ?_⟩
  rw [hsettle]
  rintro (hempty | hrule | ⟨t, ht, -, hdepth⟩)
  · exact List.cons_ne_nil _ _ hempty
  · cases hrule
  · cases ht
    cases hdepth

end HtmlMarkdown.Markdown
