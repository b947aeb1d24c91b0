import HtmlMarkdown.Markdown.Spacing
import Mathlib.Data.List.Basic

/-!
# What the spacing pass carries over

The spacing pass deals with marks and white space, and with the edges of native `<pre>` blocks.
Where a reading of tokens is blind to them (`Passive`), a stream reads the same before the pass and
behind it. And every token behind the pass is one from before it, up to its depth and its flag, or a
newline or a code delimiter: what holds of those whatever they stand for (`Innate`) holds of all
that comes out.
-/

namespace HtmlMarkdown.Markdown

def Tag.isMark : Tag → Bool
  | startBlock | endBlock | startBlockquote | endBlockquote => true
  | startCode | endCode | startNativeBlock | endNativeBlock => true
  | _ => false

/-- A reading of tokens by their nodes that sees no white space and no delimiters, and of the marks
only the edges of native blocks. -/
structure Blind {α : Type} (read : Token → Option α) : Prop where
  node : ∀ t u : Token, u.node = t.node → read u = read t
  whitespace : ∀ t tag, Token.tag? t = some tag → tag.isWhitespace = true → read t = none
  mark : ∀ t tag, Token.tag? t = some tag → tag.isMark = true → t.raw? = none → read t = none
  delimiter : read (.charactersAdded "`") = none
  rawNewlines : ∀ t : Token, t.isRawNewlines = true → read t = none

/-- A reading of tokens by their nodes that sees no marks, no white space and no delimiters, and no
edges of a native `<pre>`. -/
structure Passive {α : Type} (read : Token → Option α) : Prop where
  node : ∀ t u : Token, u.node = t.node → read u = read t
  whitespace : ∀ t tag, Token.tag? t = some tag → tag.isWhitespace = true → read t = none
  mark : ∀ t tag, Token.tag? t = some tag → tag.isMark = true →
    (∀ raw ∈ t.raw?, raw.name = some "pre" ∨ raw.kind = .spaceCharacters) → read t = none
  delimiter : read (.charactersAdded "`") = none
  rawSpace : ∀ t raw, t.node = .html raw → raw.kind = .spaceCharacters → read t = none

structure Sown (P : Token → Prop) : Prop where
  newline : ∀ depth, P (Token.newline.within depth)
  newlineBlank : ∀ depth, P (Token.newlineBlank.within depth)
  foreignBlank : ∀ blank earlier, P blank → P (foreignBlank blank earlier)

structure Innate (P : Token → Prop) : Prop where
  node : ∀ t u : Token, u.node = t.node → P t → P u
  newline : P .newline
  newlineBlank : P .newlineBlank
  delimiter : P (.charactersAdded "`")

variable {α : Type} {read : Token → Option α} {P : Token → Prop} {t : Token} {out ts : List Token}
  {s : Spacer} {n : Nat} {depth : Option Nat}

theorem filterMap_cons_eq (read : Token → Option α) (t : Token) (ts : List Token) :
    (t :: ts).filterMap read = (read t).toList ++ ts.filterMap read := by
  rw [List.filterMap_cons]
  cases read t <;> rfl

namespace Token

theorem isNewline_of_tag {tag : Tag} (h : t.tag? = some tag) : t.isNewline = tag.isNewline := by
  rw [isNewline, tagIs, h, Option.any_some]

theorem not_isNativePre_of_tag {tag edge : Tag} (h : t.tag? = some tag) (hne : tag ≠ edge) :
    t.isNativePre edge = false := by
  simp [isNativePre, hasTag, h, hne]

theorem isRawNewlines_tag? (h : t.isRawNewlines = true) : t.tag? = none := by
  obtain ⟨node, depth, flag⟩ := t
  cases node with
  | html raw => rfl
  | _ => cases h

end Token

def endsNativePre (ts : List Token) : Bool :=
  (pastNewlines ts).any fun found => found.1.isNativePre .endNativeBlock

theorem endsNativePre_cons (t : Token) (ts : List Token) : endsNativePre (t :: ts) =
    if t.isNewline then endsNativePre ts else t.isNativePre .endNativeBlock := by
  unfold endsNativePre
  rw [pastNewlines]
  split <;> rfl

/-- The native start that an opening region takes away is that of a `<pre>`. -/
theorem isNativePre_of_nativeOpen {last : Token} {earlier : List Token}
    (h : (CodeRegion.classify (last :: earlier) ts).nativeOpen.isSome = true)
    (hlast : last.hasTag .startNativeBlock = true) :
    last.isNativePre .startNativeBlock = true := by
  have htag : last.tag? = some .startNativeBlock := eq_of_beq hlast
  have hpast : pastNewlines (last :: earlier) = some (last, earlier) := by
    simp [pastNewlines, Token.isNewline_of_tag htag, Tag.isNewline]
  unfold CodeRegion.classify at h
  split at h
  · cases h
  · split at h
    · next hbehind _ =>
      rw [CodeRegion.behind, hpast] at hbehind
      dsimp only at hbehind
      split_ifs at hbehind with hnative
      exact hnative
    · cases h

/-- The native end that is left out behind an opening region is the one that its end foresees. -/
theorem endsNativePre_of_nativeClose
    (h : (CodeRegion.classify out ts).nativeClose.isSome = true) :
    ∃ place, matchingCodeEnd 0 ts = some place ∧ endsNativePre (ts.drop (place + 1)) = true := by
  unfold CodeRegion.classify at h
  split at h
  · cases h
  · next place hplace =>
    refine ⟨place, hplace, ?_⟩
    split at h
    · next close _ hahead =>
      unfold CodeRegion.ahead at hahead
      unfold endsNativePre
      split at hahead
      · cases hahead
        cases h
      · next found later hfound =>
        rw [hfound]
        split_ifs at hahead with hnative
        · exact hnative
        · cases hahead
          cases h
    · cases h

namespace Spacer

def flags (s : Spacer) : Option OpenCode × Bool × Bool := (s.code, s.dropNativeEnd, s.skipNext)

theorem flags_blockStart (next : Option Token) : (s.blockStart t next).flags = s.flags := by
  unfold blockStart
  dsimp only
  split
  · rfl
  · split_ifs <;> rfl

theorem flags_blockEnd (before next : Option Token) :
    (s.blockEnd t before next).flags = s.flags := by
  unfold blockEnd
  split <;> rfl

theorem flags_whitespace (next : Option Token) : (s.whitespace t next).flags = s.flags := by
  unfold whitespace newlineAfterRule
  split
  · rfl
  · split
    · rfl
    · split_ifs <;> rfl

/-- Only the start of a region and a native end change the flags outside of code. -/
theorem flags_ordinary (before : Option Token) (t : Token) (after : List Token) {tag : Tag}
    (hstart : tag ≠ .startCode) (hend : tag ≠ .endNativeBlock) :
    (s.ordinary before t after tag).flags = s.flags := by
  cases tag with
  | startCode => exact absurd rfl hstart
  | endNativeBlock => exact absurd rfl hend
  | startBlock | startBlockquote => exact flags_blockStart _
  | endBlock | endBlockquote => exact flags_blockEnd _ _
  | space | tab | newline | newlineHard | newlineBlank => exact flags_whitespace _
  | _ => rfl

theorem flags_openCode (t : Token) (after : List Token) : (s.openCode t after).flags =
    (some { kind := (CodeRegion.classify s.output (t :: after)).kind },
      match (CodeRegion.classify s.output (t :: after)).kind with
      | .inline => s.dropNativeEnd
      | .block =>
        (CodeRegion.classify s.output (t :: after)).nativeClose.isSome || s.dropNativeEnd,
      after.head?.any Token.isRawNewlines) := by
  unfold openCode
  generalize CodeRegion.classify s.output (t :: after) = region
  obtain ⟨kind, _, _⟩ := region
  cases kind <;> rfl

/-- What the flags say about the tokens to come: the next one is to be skipped where it is raw
newlines, and a native end to be dropped is that of a `<pre>`, which comes next, or next behind the
region that is open. -/
structure Foresees (s : Spacer) (ts : List Token) : Prop where
  skip : s.skipNext = true → ts.head?.any Token.isRawNewlines = true
  drop : s.dropNativeEnd = true → match s.code with
    | none => endsNativePre ts = true
    | some opened => ∃ place, matchingCodeEnd (opened.depth + 1) ts = some place ∧
        endsNativePre (ts.drop (place + 1)) = true

theorem Foresees.of_flags {s' : Spacer} (h : s.Foresees ts) (hs : s'.flags = s.flags) :
    s'.Foresees ts := by
  simp only [flags, Prod.mk.injEq] at hs
  obtain ⟨hcode, hdrop, hskip⟩ := hs
  refine ⟨fun hs' => h.skip (hskip ▸ hs'), fun hs' => ?_⟩
  rw [hcode]
  exact h.drop (hdrop ▸ hs')

/-- Outside of code a token is a newline or the native end to be dropped, where there is one. -/
theorem Foresees.isNativePre (h : s.Foresees (t :: ts)) (hcode : s.code = none)
    (hdrop : s.dropNativeEnd = true) (hnewline : t.isNewline = false) :
    t.isNativePre .endNativeBlock = true := by
  have hends := h.drop hdrop
  rw [hcode] at hends
  rwa [endsNativePre_cons, hnewline, if_neg Bool.false_ne_true] at hends

/-- A token that is no edge of code leaves the end of the region where it is. -/
theorem exists_matchingCodeEnd_tail {depth : Nat} (hs : t.tag? ≠ some .startCode)
    (he : t.tag? ≠ some .endCode)
    (h : ∃ place, matchingCodeEnd depth (t :: ts) = some place ∧
      endsNativePre ((t :: ts).drop (place + 1)) = true) :
    ∃ place, matchingCodeEnd depth ts = some place ∧
      endsNativePre (ts.drop (place + 1)) = true := by
  obtain ⟨place, hplace, hends⟩ := h
  have htail : matchingCodeEnd depth (t :: ts) = (matchingCodeEnd depth ts).map (· + 1) := by
    rw [matchingCodeEnd]
    split
    · next ht => exact absurd ht hs
    · next ht => exact absurd ht he
    · rfl
  rw [htail] at hplace
  obtain ⟨place', hplace', rfl⟩ := Option.map_eq_some_iff.mp hplace
  exact ⟨place', hplace', hends⟩

theorem Foresees.insideCode {opened : OpenCode} (h : s.Foresees (t :: ts))
    (hcode : s.code = some opened) (hskip : s.skipNext = false) :
    (s.insideCode opened t).Foresees ts := by
  have hdrop (hs : s.dropNativeEnd = true) :
      ∃ place, matchingCodeEnd (opened.depth + 1) (t :: ts) = some place ∧
        endsNativePre ((t :: ts).drop (place + 1)) = true := by
    have hends := h.drop hs
    rwa [hcode] at hends
  unfold Spacer.insideCode
  split
  · next htag =>
    refine ⟨fun hs => absurd (hskip.symm.trans hs) Bool.false_ne_true, fun hs => ?_⟩
    obtain ⟨place, hplace, hends⟩ := hdrop hs
    simp only [matchingCodeEnd, htag] at hplace
    obtain ⟨place', hplace', rfl⟩ := Option.map_eq_some_iff.mp hplace
    exact ⟨place', hplace', hends⟩
  · next htag =>
    split
    · next hdepth =>
      have hends (hs : s.dropNativeEnd = true) : endsNativePre ts = true := by
        obtain ⟨place, hplace, hends⟩ := hdrop hs
        simp only [matchingCodeEnd, htag, hdepth] at hplace
        cases hplace
        exact hends
      unfold closeCode
      dsimp only
      split
      · exact ⟨fun hs => absurd (hskip.symm.trans hs) Bool.false_ne_true, hends⟩
      · exact ⟨fun hs => absurd (hskip.symm.trans hs) Bool.false_ne_true, hends⟩
    · next n hdepth =>
      refine ⟨fun hs => absurd (hskip.symm.trans hs) Bool.false_ne_true, fun hs => ?_⟩
      obtain ⟨place, hplace, hends⟩ := hdrop hs
      rw [hdepth] at hplace
      simp only [matchingCodeEnd, htag] at hplace
      rw [if_neg (by omega)] at hplace
      obtain ⟨place', hplace', rfl⟩ := Option.map_eq_some_iff.mp hplace
      exact ⟨place', hplace', hends⟩
  · next hs he =>
    have htail : s.Foresees ts := by
      refine ⟨fun hs' => absurd (hskip.symm.trans hs') Bool.false_ne_true, fun hs' => ?_⟩
      rw [hcode]
      exact exists_matchingCodeEnd_tail hs he (hdrop hs')
    split <;> exact htail.of_flags rfl

theorem Foresees.openCode (h : s.Foresees (t :: ts)) (hcode : s.code = none)
    (ht : t.tag? = some .startCode) : (s.openCode t ts).Foresees ts := by
  have hflags := flags_openCode (s := s) t ts
  simp only [flags, Prod.mk.injEq] at hflags
  obtain ⟨hopened, hdropped, hskipped⟩ := hflags
  have hnone : s.dropNativeEnd = false := by
    by_contra hs
    have hpre := h.isNativePre hcode (Bool.not_eq_false _ ▸ hs) (Token.isNewline_of_tag ht)
    rw [Token.not_isNativePre_of_tag ht (by decide)] at hpre
    cases hpre
  refine ⟨fun hs => hskipped ▸ hs, fun hs => ?_⟩
  rw [hopened]
  rw [hdropped, hnone, Bool.or_false] at hs
  have hclose : (CodeRegion.classify s.output (t :: ts)).nativeClose.isSome = true := by
    split at hs
    · cases hs
    · exact hs
  obtain ⟨place, hplace, hends⟩ := endsNativePre_of_nativeClose hclose
  simp only [matchingCodeEnd, ht] at hplace
  obtain ⟨place', hplace', rfl⟩ := Option.map_eq_some_iff.mp hplace
  exact ⟨place', hplace', hends⟩

/-- What the flags say stays true from step to step. -/
theorem Foresees.step (h : s.Foresees (t :: ts)) (before : Option Token) :
    (s.step before t ts).Foresees ts := by
  unfold Spacer.step
  cases hskip : s.skipNext with
  | true =>
    have hraw : t.isRawNewlines = true := h.skip hskip
    have htag := Token.isRawNewlines_tag? hraw
    rw [if_pos rfl]
    refine ⟨fun hs => (Bool.false_ne_true hs).elim, fun hs => ?_⟩
    have hends := h.drop hs
    change match s.code with
      | none => endsNativePre ts = true
      | some opened => ∃ place, matchingCodeEnd (opened.depth + 1) ts = some place ∧
          endsNativePre (ts.drop (place + 1)) = true
    split at hends
    · next hcode =>
      have hpre := h.isNativePre hcode hs (by rw [Token.isNewline, Token.tagIs, htag]; rfl)
      simp [Token.isNativePre, Token.hasTag, htag] at hpre
    · exact exists_matchingCodeEnd_tail (by simp [htag]) (by simp [htag]) hends
  | false =>
    rw [if_neg Bool.false_ne_true]
    cases hcode : s.code with
    | some opened => exact h.insideCode hcode hskip
    | none =>
      dsimp only
      have hdropped (hs : s.dropNativeEnd = true) (hne : t.tag? ≠ some .endNativeBlock) :
          t.isNewline = true := by
        by_contra hn
        have hpre := h.isNativePre hcode hs (by simpa using hn)
        simp [Token.isNativePre, Token.hasTag, hne] at hpre
      have htail (hne : t.tag? ≠ some .endNativeBlock) : s.Foresees ts := by
        refine ⟨fun hs => absurd (hskip.symm.trans hs) Bool.false_ne_true, fun hs => ?_⟩
        have hends := h.drop hs
        rw [hcode] at hends ⊢
        rwa [endsNativePre_cons, hdropped hs hne, if_pos rfl] at hends
      split
      · next htag => exact (htail (by simp [htag])).of_flags rfl
      · next tag htag =>
        by_cases hstart : tag = .startCode
        · subst hstart
          exact h.openCode hcode htag
        · by_cases hend : tag = .endNativeBlock
          · subst hend
            unfold Spacer.ordinary
            dsimp only
            split
            · exact ⟨fun hs => absurd (hskip.symm.trans hs) Bool.false_ne_true,
                fun hs => (Bool.false_ne_true hs).elim⟩
            · next hdrop =>
              exact ⟨fun hs => absurd (hskip.symm.trans hs) Bool.false_ne_true,
                fun hs => absurd hs hdrop⟩
          · exact (htail (by simpa [htag] using hend)).of_flags
              (flags_ordinary before t ts hstart hend)

theorem Foresees.start (ts : List Token) : ({} : Spacer).Foresees ts where
  skip := by simp
  drop := by simp

end Spacer

namespace Blind

variable (h : Blind read)
include h

theorem within (t : Token) (depth : Option Nat) : read (t.within depth) = read t :=
  h.node _ _ (Token.node_within t depth)

theorem relabelled (t : Token) (depth : Option Nat) (flag : Bool) :
    read { t.within depth with inCode := flag } = read t :=
  h.node _ _ (Token.node_within t depth)

theorem of_tagIs {p : Tag → Bool} (hp : ∀ tag, p tag = true → tag.isWhitespace = true)
    (ht : t.tagIs p = true) : read t = none := by
  unfold Token.tagIs at ht
  cases htag : t.tag? with
  | none => simp [htag] at ht
  | some tag =>
    rw [htag] at ht
    exact h.whitespace t tag htag (hp tag ht)

theorem of_isNewline (ht : t.isNewline = true) : read t = none :=
  h.of_tagIs (fun _ => Tag.isWhitespace_of_isNewline) ht

theorem newline_within : read (Token.newline.within depth) = none := by
  rw [h.within]
  exact h.whitespace .newline .newline rfl rfl

theorem blank_within : read (Token.newlineBlank.within depth) = none := by
  rw [h.within]
  exact h.whitespace .newlineBlank .newlineBlank rfl rfl

theorem newlines_within (count : Nat) : read ((Token.newlines count).within depth) = none := by
  unfold Token.newlines
  split
  · exact h.blank_within
  · exact h.newline_within

theorem foreignBlank (blank : Token) (earlier : List Token) :
    read (foreignBlank blank earlier) = none := by
  unfold Markdown.foreignBlank
  dsimp only
  rw [h.relabelled]
  split
  · exact h.whitespace .newlineBlank .newlineBlank rfl rfl
  · exact h.whitespace .newline .newline rfl rfl

theorem rewind (wanted : Nat) (depth : Option Nat) (out : List Token) :
    (rewind wanted depth out).1.filterMap read = out.filterMap read := by
  induction out with
  | nil => rfl
  | cons last earlier ih =>
    rw [Markdown.rewind]
    split
    · rfl
    · next tag htag =>
      obtain ⟨htag?, hw⟩ := Option.filter_eq_some_iff.mp htag
      have hnone := h.whitespace last tag htag? hw
      have hforeign : (Markdown.foreignBlank last earlier :: earlier).filterMap read =
          (last :: earlier).filterMap read := by
        rw [List.filterMap_cons_none hnone, List.filterMap_cons_none (h.foreignBlank last earlier)]
      split_ifs
      · exact hforeign
      · exact hforeign
      · rfl
      · rw [ih, List.filterMap_cons_none hnone]

/-- A mark that is no native edge. -/
theorem markdownMark {tag : Tag} (ht : t.tag? = some tag) (hm : tag.isMark = true)
    (hs : tag ≠ .startNativeBlock := by nofun) (he : tag ≠ .endNativeBlock := by nofun) :
    read t = none := by
  refine h.mark t tag ht hm ?_
  obtain ⟨node, depth, flag⟩ := t
  cases node with
  | markdown tag data => rfl
  | native edge raw =>
    cases edge with
    | opening => exact absurd (Option.some.inj ht).symm hs
    | closing => exact absurd (Option.some.inj ht).symm he
  | html raw => cases ht

theorem settle (wanted : Nat) (depth : Option Nat) (out : List Token) :
    (settle wanted depth out).filterMap read = out.filterMap read := by
  have hrewind := h.rewind wanted depth out
  unfold Markdown.settle
  generalize Markdown.rewind wanted depth out = rewound at hrewind
  obtain ⟨kept, missing⟩ := rewound
  dsimp only
  split_ifs
  · exact hrewind
  · rwa [List.filterMap_cons_none (h.newlines_within _)]
  · exact hrewind
  · rwa [List.filterMap_cons_none (h.newlines_within _)]

theorem codeLine (depth : Option Nat) (out : List Token) :
    (Spacer.codeLine depth out).filterMap read = out.filterMap read := by
  have hnewline (d : Option Nat) : read (Token.newline.within d).inCodeBlock = none :=
    (h.relabelled .newline d true).trans (h.whitespace .newline .newline rfl rfl)
  unfold Spacer.codeLine
  cases out with
  | nil => exact List.filterMap_cons_none (hnewline _)
  | cons last earlier =>
    dsimp only
    split_ifs with hone hblank
    · rw [filterMap_cons_eq, filterMap_cons_eq, h.node last last.inCodeBlock rfl]
    · have htag : last.tag? = some .newlineBlank := eq_of_beq hblank
      rw [List.filterMap_cons_none (hnewline _), List.filterMap_cons_none h.newline_within,
        List.filterMap_cons_none (h.whitespace last _ htag rfl)]
    · exact List.filterMap_cons_none (hnewline _)

theorem openCode (hpop : ∀ last ∈ s.output.head?, last.isNativePre .startNativeBlock = true →
      read last = none) (t : Token) (after : List Token) :
    (s.openCode t after).output.filterMap read = s.output.filterMap read := by
  unfold Spacer.openCode
  dsimp only
  split
  · exact List.filterMap_cons_none ((h.within _ _).trans h.delimiter)
  · dsimp only
    rw [h.codeLine]
    cases hout : s.output with
    | nil => rfl
    | cons last earlier =>
      dsimp only
      split_ifs with hnative
      · rw [Bool.and_eq_true] at hnative
        have hlast := isNativePre_of_nativeOpen hnative.1 hnative.2
        rw [List.filterMap_cons_none (hpop last (by rw [hout]; rfl) hlast)]
      · rfl

theorem closeCode (hspace : ∀ u ∈ s.output, Spacer.isCodeSpace u = true → read u = none)
    (kind : CodeKind) :
    (s.closeCode kind t).output.filterMap read = s.output.filterMap read := by
  unfold Spacer.closeCode
  dsimp only
  split
  · dsimp only
    generalize s.output = out at hspace
    induction out with
    | nil => rfl
    | cons last earlier ih =>
      obtain ⟨hlast, hearlier⟩ := List.forall_mem_cons.mp hspace
      by_cases hdrop : Spacer.isCodeSpace last = true
      · rw [List.dropWhile_cons_of_pos hdrop, ih hearlier, List.filterMap_cons_none (hlast hdrop)]
      · rw [List.dropWhile_cons_of_neg hdrop]
  · exact List.filterMap_cons_none ((h.within _ _).trans h.delimiter)

theorem insideCode (hspace : ∀ u ∈ s.output, Spacer.isCodeSpace u = true → read u = none)
    (opened : OpenCode) : (s.insideCode opened t).output.filterMap read =
    (read t).toList ++ s.output.filterMap read := by
  unfold Spacer.insideCode
  split
  · next ht => rw [h.markdownMark ht rfl]; rfl
  · next ht =>
    rw [h.markdownMark ht rfl]
    split
    · exact h.closeCode hspace opened.kind
    · rfl
  · split
    · exact (filterMap_cons_eq read _ _).trans (by rw [h.node t t.inCodeBlock rfl])
    · exact filterMap_cons_eq read t s.output

theorem spacing {tag : Tag} (ht : t.tag? = some tag) (hw : tag.isWhitespace = true)
    (next : Option Token) :
    (s.whitespace t next).output.filterMap read = s.output.filterMap read := by
  have hnone := h.whitespace t tag ht hw
  unfold Spacer.whitespace
  split_ifs
  · rfl
  · cases hout : s.output with
    | nil =>
      dsimp only
      rw [Spacer.push, List.filterMap_cons_none hnone, hout]
    | cons last earlier =>
      dsimp only
      split_ifs with hmerge
      · rw [List.filterMap_cons_none h.blank_within,
          List.filterMap_cons_none (h.of_isNewline hmerge.2)]
      · unfold Spacer.newlineAfterRule
        split_ifs
        · rw [hout]
        · rw [Spacer.push, List.filterMap_cons_none h.newline_within, hout]
        · rw [hout]
      · rw [Spacer.push, List.filterMap_cons_none hnone, hout]

theorem blockStart (next : Option Token) :
    (s.blockStart t next).output.filterMap read = s.output.filterMap read := by
  unfold Spacer.blockStart
  dsimp only
  split
  · exact h.settle _ _ _
  · split_ifs
    · rfl
    · exact h.settle _ _ _
    · exact h.settle _ _ _

theorem blockEnd (before next : Option Token) :
    (s.blockEnd t before next).output.filterMap read = s.output.filterMap read := by
  unfold Spacer.blockEnd
  split
  · rfl
  · exact h.settle _ _ _

theorem ordinary {tag : Tag} (ht : t.tag? = some tag)
    (hpop : t.tag? = some .startCode → ∀ last ∈ s.output.head?,
      last.isNativePre .startNativeBlock = true → read last = none)
    (hdrop : s.dropNativeEnd = true → t.tag? = some .endNativeBlock → read t = none)
    (before : Option Token) (after : List Token) :
    (s.ordinary before t after tag).output.filterMap read =
      (read t).toList ++ s.output.filterMap read := by
  have silent (hnone : read t = none) :
      (read t).toList ++ s.output.filterMap read = s.output.filterMap read := by
    rw [hnone]
    rfl
  unfold Spacer.ordinary
  cases tag with
  | startCode => rw [silent (h.markdownMark ht rfl), h.openCode (hpop ht)]
  | endCode => rw [silent (h.markdownMark ht rfl)]
  | startBlock | startBlockquote => rw [silent (h.markdownMark ht rfl), h.blockStart]
  | endBlock | endBlockquote => rw [silent (h.markdownMark ht rfl), h.blockEnd]
  | space | tab | newline | newlineHard | newlineBlank =>
    rw [silent (h.whitespace t _ ht rfl), h.spacing ht rfl]
  | startNativeBlock | horizontalRule =>
    refine (filterMap_cons_eq read t _).trans ?_
    rw [Spacer.settle, h.settle]
  | endNativeBlock =>
    dsimp only
    split
    · next hs => rw [silent (hdrop hs ht)]
    · exact filterMap_cons_eq read t _
  | _ => exact filterMap_cons_eq read t _

/-- A step adds what its token reads as, where the space that a block of code ends with reads as
nothing, nor does an edge of a native block that gives way to it. -/
theorem step (hs : s.Foresees (t :: ts))
    (hspace : ∀ u ∈ s.output, Spacer.isCodeSpace u = true → read u = none)
    (hpop : s.code = none → t.tag? = some .startCode → ∀ last ∈ s.output.head?,
      last.isNativePre .startNativeBlock = true → read last = none)
    (hdrop : s.code = none → s.dropNativeEnd = true → t.tag? = some .endNativeBlock →
      read t = none)
    (before : Option Token) :
    (s.step before t ts).output.filterMap read = (read t).toList ++ s.output.filterMap read := by
  unfold Spacer.step
  split
  · next hskip =>
    rw [h.rawNewlines t (hs.skip hskip)]
    rfl
  · split
    · exact h.insideCode hspace _
    · next hcode =>
      split
      · exact filterMap_cons_eq read t _
      · next tag ht => exact h.ordinary ht (hpop hcode) (hdrop hcode) before ts

end Blind

namespace Passive

variable (h : Passive read)
include h

theorem isNativePre {edge : Tag} (ht : t.isNativePre edge = true) (hm : edge.isMark = true) :
    read t = none := by
  obtain ⟨htag, hname⟩ := Bool.and_eq_true_iff.mp ht
  refine h.mark t edge (eq_of_beq htag) hm fun raw hraw => .inl ?_
  obtain ⟨node, depth, flag⟩ := t
  cases node with
  | native edge raw' =>
    cases hraw
    exact eq_of_beq hname
  | _ => cases hname

theorem isCodeSpace (ht : Spacer.isCodeSpace t = true) : read t = none := by
  obtain ⟨node, depth, flag⟩ := t
  cases node with
  | markdown tag data => simp [Spacer.isCodeSpace, Token.raw?] at ht
  | native edge raw =>
    simp only [Spacer.isCodeSpace, Token.raw?, Option.any_some, Bool.and_eq_true, beq_iff_eq] at ht
    have hspace : ∀ raw' ∈ some raw, raw'.name = some "pre" ∨ raw'.kind = .spaceCharacters :=
      fun raw' hraw => .inr (Option.some.inj hraw ▸ ht.2)
    cases edge
    · exact h.mark _ .startNativeBlock rfl rfl hspace
    · exact h.mark _ .endNativeBlock rfl rfl hspace
  | html raw =>
    simp only [Spacer.isCodeSpace, Token.raw?, Option.any_some, Bool.and_eq_true, beq_iff_eq] at ht
    exact h.rawSpace _ raw rfl ht.2

theorem blind : Blind read where
  node := h.node
  whitespace := h.whitespace
  mark t tag ht hm hraw := h.mark t tag ht hm fun raw hmem => by
    rw [hraw] at hmem
    cases hmem
  delimiter := h.delimiter
  rawNewlines t ht := by
    obtain ⟨node, depth, flag⟩ := t
    cases node with
    | markdown tag data => cases ht
    | native edge raw => cases ht
    | html raw =>
      simp only [Token.isRawNewlines, Bool.and_eq_true, beq_iff_eq] at ht
      exact h.rawSpace _ raw rfl ht.1

/-- A step adds what its token reads as, and what it skips or drops reads as nothing. -/
theorem step (hs : s.Foresees (t :: ts)) (before : Option Token) :
    (s.step before t ts).output.filterMap read = (read t).toList ++ s.output.filterMap read := by
  refine h.blind.step hs (fun u _ => h.isCodeSpace) (fun _ _ u _ hu => h.isNativePre hu rfl)
    (fun hcode hdrop ht => ?_) before
  have hnewline : t.isNewline = false := Token.isNewline_of_tag ht
  exact h.isNativePre (hs.isNativePre hcode hdrop hnewline) rfl

end Passive

theorem Passive.run (h : Passive read) (hs : s.Foresees ts) (before : Option Token) :
    (s.run before ts).output.filterMap read =
      (ts.filterMap read).reverse ++ s.output.filterMap read := by
  induction ts generalizing s before with
  | nil => rfl
  | cons t ts ih =>
    rw [Spacer.run, ih (hs.step before), h.step hs, filterMap_cons_eq, List.reverse_append,
      List.append_assoc]
    cases read t <;> rfl

/-- The spacing pass keeps what a passive reading sees. -/
theorem Passive.space (h : Passive read) (ts : List Token) :
    (space ts).filterMap read = ts.filterMap read := by
  rw [Markdown.space, List.filterMap_reverse, h.run (.start ts) none]
  simp

theorem Spacer.forall_push (ht : P t) (hout : ∀ u ∈ s.output, P u) :
    ∀ u ∈ (s.push t).output, P u :=
  List.forall_mem_cons.mpr ⟨ht, hout⟩

namespace Sown

variable (h : Sown P)
include h

theorem newlines (count : Nat) (depth : Option Nat) : P ((Token.newlines count).within depth) := by
  unfold Token.newlines
  split
  · exact h.newlineBlank depth
  · exact h.newline depth

theorem rewind (wanted : Nat) (depth : Option Nat) (hout : ∀ u ∈ out, P u) :
    ∀ u ∈ (rewind wanted depth out).1, P u := by
  induction out with
  | nil => exact hout
  | cons last earlier ih =>
    obtain ⟨hlast, hearlier⟩ := List.forall_mem_cons.mp hout
    have hforeign : ∀ u ∈ Markdown.foreignBlank last earlier :: earlier, P u :=
      List.forall_mem_cons.mpr ⟨h.foreignBlank last earlier hlast, hearlier⟩
    rw [Markdown.rewind]
    split
    · exact hout
    · split_ifs
      · exact hforeign
      · exact hforeign
      · exact hout
      · exact ih hearlier

theorem settle (wanted : Nat) (depth : Option Nat) (hout : ∀ u ∈ out, P u) :
    ∀ u ∈ settle wanted depth out, P u := by
  have hrewind := h.rewind wanted depth hout
  unfold Markdown.settle
  generalize Markdown.rewind wanted depth out = rewound at hrewind
  obtain ⟨kept, missing⟩ := rewound
  dsimp only
  split_ifs
  · exact hrewind
  · exact List.forall_mem_cons.mpr ⟨h.newlines _ _, hrewind⟩
  · exact hrewind
  · exact List.forall_mem_cons.mpr ⟨h.newlines _ _, hrewind⟩

theorem whitespace (ht : P t) (next : Option Token) (hout : ∀ u ∈ s.output, P u) :
    ∀ u ∈ (s.whitespace t next).output, P u := by
  unfold Spacer.whitespace
  split_ifs
  · exact hout
  · split
    · exact Spacer.forall_push ht hout
    · next last earlier heq =>
      split_ifs
      · rw [heq] at hout
        exact List.forall_mem_cons.mpr
          ⟨h.newlineBlank _, (List.forall_mem_cons.mp hout).2⟩
      · unfold Spacer.newlineAfterRule
        split_ifs
        · exact hout
        · exact Spacer.forall_push (h.newline _) hout
        · exact hout
      · exact Spacer.forall_push ht hout

theorem blockStart (next : Option Token) (hout : ∀ u ∈ s.output, P u) :
    ∀ u ∈ (s.blockStart t next).output, P u := by
  unfold Spacer.blockStart
  dsimp only
  split
  · exact h.settle _ _ hout
  · split_ifs
    · exact hout
    · exact h.settle _ _ hout
    · exact h.settle _ _ hout

theorem blockEnd (before next : Option Token) (hout : ∀ u ∈ s.output, P u) :
    ∀ u ∈ (s.blockEnd t before next).output, P u := by
  unfold Spacer.blockEnd
  split
  · exact hout
  · exact h.settle _ _ hout

end Sown

namespace Innate

variable (h : Innate P)
include h

theorem within (ht : P t) : P (t.within depth) := h.node _ _ (Token.node_within t depth) ht

theorem sown : Sown P where
  newline _ := h.within h.newline
  newlineBlank _ := h.within h.newlineBlank
  foreignBlank blank earlier _ := by
    unfold Markdown.foreignBlank
    dsimp only
    split
    · exact h.node _ _ (Token.node_within _ _) h.newlineBlank
    · exact h.node _ _ (Token.node_within _ _) h.newline

theorem codeLine (depth : Option Nat) (hout : ∀ u ∈ out, P u) :
    ∀ u ∈ Spacer.codeLine depth out, P u := by
  have hnewline (d : Option Nat) : P (Token.newline.within d).inCodeBlock :=
    h.node _ _ (Token.node_within _ _) h.newline
  have hfresh := List.forall_mem_cons.mpr ⟨hnewline depth, hout⟩
  unfold Spacer.codeLine
  cases out with
  | nil => exact hfresh
  | cons last earlier =>
    obtain ⟨hlast, hearlier⟩ := List.forall_mem_cons.mp hout
    dsimp only
    split_ifs
    · exact List.forall_mem_cons.mpr ⟨h.node last last.inCodeBlock rfl hlast, hearlier⟩
    · exact List.forall_mem_cons.mpr
        ⟨hnewline _, List.forall_mem_cons.mpr ⟨h.within h.newline, hearlier⟩⟩
    · exact hfresh

theorem openCode (t : Token) (after : List Token) (hout : ∀ u ∈ s.output, P u) :
    ∀ u ∈ (s.openCode t after).output, P u := by
  unfold Spacer.openCode
  dsimp only
  split
  · exact List.forall_mem_cons.mpr ⟨h.within h.delimiter, hout⟩
  · refine h.codeLine _ ?_
    split
    · exact List.forall_mem_nil _
    · next last earlier heq =>
      rw [heq] at hout
      split_ifs
      · exact (List.forall_mem_cons.mp hout).2
      · exact hout

theorem closeCode (kind : CodeKind) (hout : ∀ u ∈ s.output, P u) :
    ∀ u ∈ (s.closeCode kind t).output, P u := by
  unfold Spacer.closeCode
  dsimp only
  split
  · exact fun u hu => hout u ((List.dropWhile_sublist _).subset hu)
  · exact List.forall_mem_cons.mpr ⟨h.within h.delimiter, hout⟩

theorem insideCode (ht : P t) (opened : OpenCode) (hout : ∀ u ∈ s.output, P u) :
    ∀ u ∈ (s.insideCode opened t).output, P u := by
  unfold Spacer.insideCode
  split
  · exact hout
  · split
    · exact h.closeCode opened.kind hout
    · exact hout
  · split
    · exact Spacer.forall_push (h.node t t.inCodeBlock rfl ht) hout
    · exact Spacer.forall_push ht hout

theorem step (ht : P t) (before : Option Token) (after : List Token)
    (hout : ∀ u ∈ s.output, P u) : ∀ u ∈ (s.step before t after).output, P u := by
  unfold Spacer.step
  split
  · exact hout
  · split
    · exact h.insideCode ht _ hout
    · split
      · exact Spacer.forall_push ht hout
      · next tag _ =>
        unfold Spacer.ordinary
        cases tag with
        | startCode => exact h.openCode t after hout
        | endCode => exact hout
        | startBlock | startBlockquote => exact h.sown.blockStart _ hout
        | endBlock | endBlockquote => exact h.sown.blockEnd _ _ hout
        | space | tab | newline | newlineHard | newlineBlank => exact h.sown.whitespace ht _ hout
        | startNativeBlock | horizontalRule => exact Spacer.forall_push ht (h.sown.settle _ _ hout)
        | endNativeBlock =>
          dsimp only
          split
          · exact hout
          · exact Spacer.forall_push ht hout
        | _ => exact Spacer.forall_push ht hout

theorem run (hts : ∀ t ∈ ts, P t) (before : Option Token) (hout : ∀ u ∈ s.output, P u) :
    ∀ u ∈ (s.run before ts).output, P u := by
  induction ts generalizing s before with
  | nil => exact hout
  | cons t ts ih =>
    obtain ⟨ht, hts⟩ := List.forall_mem_cons.mp hts
    exact ih hts (some t) (h.step ht before ts hout)

/-- What is innate and holds before the spacing pass holds behind it. -/
theorem space (hts : ∀ t ∈ ts, P t) : ∀ u ∈ space ts, P u := by
  intro u hu
  exact h.run hts none (List.forall_mem_nil _) u (List.mem_reverse.mp hu)

end Innate

end HtmlMarkdown.Markdown
