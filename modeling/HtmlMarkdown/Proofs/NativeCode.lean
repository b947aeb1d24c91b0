import HtmlMarkdown.Proofs.Carried
import HtmlMarkdown.Proofs.CodeBlocks
import HtmlMarkdown.Proofs.Fixed
import HtmlMarkdown.Proofs.Handling
import HtmlMarkdown.Proofs.Placement

/-!
# Code in a `<pre>`, wherever it stands

In front of a `<pre>` the spacing pass is outside of code and has nothing in mind but its output,
whatever the stream before it is. So code in a `<pre>` is spaced the same everywhere: as a block if
the `<pre>` holds nothing else, and with its edges and its delimiters if there is space on either
side of the code.
-/

namespace HtmlMarkdown

open Markdown (Token Tag Spacer)

namespace Markdown

variable {done ts rest : List Token} {t : Token} {s : Spacer} {before : Option Token}

/-- Behind a part of a coherent stream the pass is outside or inside of code. -/
theorem outside_or_inside_advance
    (h : Outside done s (ts ++ rest).head? ∨ ∃ opened, Inside done s opened (ts ++ rest))
    (hc : Coherent ((ts ++ rest).reverse ++ done)) :
    Outside (ts.reverse ++ done) (s.advance done.head? ts rest) rest.head? ∨
      ∃ opened, Inside (ts.reverse ++ done) (s.advance done.head? ts rest) opened rest := by
  induction ts generalizing s done with
  | nil => exact h
  | cons t ts ih =>
    have hc' : Coherent ((ts ++ rest).reverse ++ t :: done) := by simpa using hc
    rw [List.reverse_cons, List.append_assoc, List.singleton_append]
    exact ih (outside_or_inside_step h hc') hc'

theorem Spacer.Foresees.advance (h : s.Foresees (ts ++ rest)) (before : Option Token) :
    (s.advance before ts rest).Foresees rest := by
  induction ts generalizing s before with
  | nil => exact h
  | cons t ts ih => exact ih (h.step before) (some t)

theorem Spacer.eq_behind (hcode : s.code = none) (hskip : s.skipNext = false)
    (hdrop : s.dropNativeEnd = false) : s = Spacer.behind s.output := by
  obtain ⟨out, code, drop, skip⟩ := s
  obtain rfl : code = none := hcode
  obtain rfl : skip = false := hskip
  obtain rfl : drop = false := hdrop
  rfl

theorem fits_of_coherent (hc : Coherent (ts ++ t :: rest).reverse) : Fits ts.reverse t := by
  have hearlier : Coherent (rest.reverse ++ t :: ts.reverse) := by simpa using hc
  cases hearlier.of_append with
  | cons hf _ => exact hf

/-- In front of a token with a tag that is no edge of code the pass is outside of code. -/
theorem outside_of_tag {tag : Tag} (hc : Coherent (ts ++ t :: rest).reverse)
    (ht : t.tag? = some tag) (hs : tag ≠ .startCode) (he : tag ≠ .endCode) :
    Outside ts.reverse (({} : Spacer).advance none ts (t :: rest)) (some t) := by
  have hregions : openRegions ts.reverse = 0 := by
    by_contra hopen
    rcases (fits_of_coherent hc).code (Nat.pos_of_ne_zero hopen) with h | h | h <;> rw [ht] at h
    · cases h
    · exact hs (Option.some.inj h)
    · exact he (Option.some.inj h)
  have hplace := @outside_or_inside_advance [] ts (t :: rest) {} (.inl (outside_start _))
    (by simpa using hc)
  rw [List.append_nil] at hplace
  rcases hplace with houtside | ⟨opened, hinside⟩
  · exact houtside
  · have hopen := hinside.regions
    omega

/-- In front of a token with a tag that is neither an edge of code nor a newline nor the end of a
native block the pass foresees nothing. -/
theorem exists_behind_of_tag {tag : Tag} (hc : Coherent (ts ++ t :: rest).reverse)
    (ht : t.tag? = some tag) (hs : tag ≠ .startCode) (he : tag ≠ .endCode)
    (hn : tag.isNewline = false) (hend : tag ≠ .endNativeBlock) :
    ∃ out, ({} : Spacer).advance none ts (t :: rest) = Spacer.behind out := by
  have houtside := outside_of_tag hc ht hs he
  have hforesees := (Spacer.Foresees.start (ts ++ t :: rest)).advance none
  have hdrop : (({} : Spacer).advance none ts (t :: rest)).dropNativeEnd = false := by
    by_contra hkept
    have hnative := hforesees.isNativePre houtside.code (by simpa using hkept)
      ((Token.isNewline_of_tag ht).trans hn)
    simp [Token.isNativePre, Token.hasTag, ht, hend] at hnative
  exact ⟨_, Spacer.eq_behind houtside.code houtside.skip hdrop⟩

/-- In front of the mark of a block the pass is outside of code and foresees nothing. -/
theorem exists_behind (hc : Coherent (ts ++ t :: rest).reverse) (ht : t.tag? = some .startBlock) :
    ∃ out, ({} : Spacer).advance none ts (t :: rest) = Spacer.behind out :=
  exists_behind_of_tag hc ht (by decide) (by decide) rfl (by decide)

/-- Some tokens of a stream in its spacing: the output in front of them and the one behind them,
which up to its latest fixed token is in the spaced stream. -/
structure SpacedTo (front ts back out out' : List Token) : Prop where
  start : ({} : Spacer).advance none front (ts ++ back) = .behind out
  finish : ({} : Spacer).advance none (front ++ ts) back = .behind out'
  stays : (fixedPart out').reverse <+: space (front ++ ts ++ back)

variable {front back out out' out'' : List Token}

theorem SpacedTo.unique (h : SpacedTo front ts back out out')
    (h' : SpacedTo front ts back out out'') : out' = out'' :=
  congrArg Spacer.output (h.finish.symm.trans h'.finish)

theorem spacedTo_of_advance (hstart : ({} : Spacer).advance none front (ts ++ back) = .behind out)
    (hts : ∀ before, (Spacer.behind out).advance before ts back = .behind out') :
    SpacedTo front ts back out out' := by
  have hfinish : ({} : Spacer).advance none (front ++ ts) back = .behind out' := by
    rw [Spacer.advance_append, hstart, hts]
  refine ⟨hstart, hfinish, ?_⟩
  rw [space, Spacer.run_append, hfinish]
  exact List.reverse_prefix.mpr (fixedPart_run (.behind out') _ back)

/-- The latest token of a block of code is flagged. -/
theorem head?_blockCode (depth : Nat) (ts out : List Token) :
    ∃ t, (blockCode depth ts out).head? = some t ∧ t.inCode = true := by
  have hline (out : List Token) :
      ∃ t, (Spacer.codeLine (quoteLevel depth) out).head? = some t ∧ t.inCode = true := by
    unfold Spacer.codeLine
    dsimp only
    split
    · exact ⟨_, rfl, rfl⟩
    · split_ifs <;> exact ⟨_, rfl, rfl⟩
  unfold blockCode
  cases hkept : ((stamped depth (unskipped ts)).map Token.inCodeBlock).reverse.dropWhile
      Spacer.isCodeSpace with
  | nil => exact hline out
  | cons t kept =>
    have hmem : t ∈ ((stamped depth (unskipped ts)).map Token.inCodeBlock).reverse :=
      (List.dropWhile_suffix _).subset (hkept ▸ List.mem_cons_self)
    obtain ⟨u, -, rfl⟩ := List.mem_map.mp (List.mem_reverse.mp hmem)
    exact ⟨_, rfl, rfl⟩

/-- Inline code in a native `<pre>` ends with the edge of the `<pre>`, so it is no block. -/
theorem inlineCode_ne_blockCode (depth : Nat) (opening closing : Html.Token)
    (lead ts trail out : List Token) :
    inlineCode depth opening closing lead ts trail out ≠ blockCode depth ts out := by
  intro heq
  have hhead : (inlineCode depth opening closing lead ts trail out).head? =
      some ((Token.native .closing closing).within (some depth)) := by
    simp [inlineCode, stamped]
  obtain ⟨t, ht, hflag⟩ := head?_blockCode depth ts out
  rw [heq, ht] at hhead
  obtain rfl := Option.some.inj hhead
  rw [Token.inCode_within] at hflag
  cases hflag

end Markdown

namespace Conversion

variable {o : Options} {rest ts : List Html.Token} {s s' : State} {kept : List Token}

/-- A passage keeps what is emitted up to a token that is no newline. -/
theorem Passes.suffix_emitted (h : Passes o rest s ts s')
    (hkept : ∀ t ∈ kept.head?, t.isNewline = false) (hk : kept <:+ s.emitted) :
    kept <:+ s'.emitted := by
  induction h with
  | nil => exact hk
  | @cons s s' t ts r hr _ ih =>
    refine ih (List.suffix_append_of_suffix ?_)
    split
    · next hlast =>
      obtain ⟨u, hu, hnewline⟩ := (handles_of_react hr).isNewline_of_replacesLast hlast
      obtain ⟨us, hus⟩ : ∃ us, s.emitted = u :: us := List.head?_eq_some_iff.mp hu
      rw [hus] at hk ⊢
      rcases List.suffix_cons_iff.mp hk with rfl | hk
      · exact absurd (hnewline.symm.trans (hkept u rfl)) (by simp)
      · exact hk
    · exact hk

/-- The reference block at the end takes the place of no more than white space. -/
theorem State.prefix_finished (hkept : ∀ t ∈ kept.head?, t.tagIs Tag.isWhitespace = false)
    (hk : kept <:+ s.emitted) : kept.reverse <+: s.finished := by
  rw [s.finished_eq]
  refine List.IsPrefix.trans ?_ (List.prefix_append _ _)
  unfold State.body
  split
  · exact List.reverse_prefix.mpr hk
  · cases hemitted : s.emitted with
    | nil =>
      rw [hemitted] at hk
      exact List.reverse_prefix.mpr hk
    | cons last earlier =>
      rw [hemitted] at hk
      dsimp only
      split
      · next hw =>
        rcases List.suffix_cons_iff.mp hk with rfl | hk
        · exact absurd (hw.symm.trans (hkept last rfl)) (by simp)
        · exact List.reverse_prefix.mpr hk
      · exact List.reverse_prefix.mpr hk

/-- What is written up to a mark of a block is in the result of the conversion. -/
theorem Passes.exists_finished {t : Token} {earlier : List Token} (h : Passes o rest s ts s')
    (hs : s.emitted = t :: earlier) (ht : t.tag? = some .endBlock) :
    ∃ later, s'.finished = s.emitted.reverse ++ later := by
  have htag {p : Tag → Bool} (hp : p .endBlock = false) : t.tagIs p = false := by
    simp [Token.tagIs, ht, hp]
  have hkept : s.emitted <:+ s'.emitted := by
    refine h.suffix_emitted ?_ List.suffix_rfl
    rw [hs]
    rintro u hu
    obtain rfl := Option.some.inj hu
    exact htag rfl
  have hend : ∀ u ∈ s.emitted.head?, u.tagIs Tag.isWhitespace = false := by
    rw [hs]
    rintro u hu
    obtain rfl := Option.some.inj hu
    exact htag rfl
  obtain ⟨later, hlater⟩ := State.prefix_finished hend hkept
  exact ⟨later, hlater.symm⟩

section NativeCode

open Html (Forest)
open Markdown (SpacedTo blockCode inlineCode rawText settle quoteLevel)

variable {attributes inner : Html.Attributes} {lead code trail : String}

def codeInPre (attributes inner : Html.Attributes) (lead code trail : String) : Forest :=
  .element "pre" attributes
    (.text lead (.element "code" inner (.text code .nil) (.text trail .nil))) .nil

def codeInPreStream (o : Options) (attributes : Html.Attributes) (lead code trail : String) :
    List Token :=
  Markdown.nativeCode (o.clean (.startTag "pre" attributes)) (o.clean (.endTag "pre"))
    (rawText lead) (rawText code) (rawText trail)

theorem textTokens_of_space {s : String} (hs : ∀ c ∈ s.toList, Text.isHtmlSpace c = true) :
    Html.textTokens s = Html.spaceTokens s.toList := by
  have hinner : s.toList.dropWhile Text.isHtmlSpace = [] := List.dropWhile_eq_nil_iff.mpr hs
  rw [Html.textTokens]
  exact if_pos hinner

theorem rawText_eq_nil (hs : ∀ c ∈ lead.toList, Text.isHtmlSpace c = true) :
    rawText lead = [] ↔ lead = "" := by
  rw [rawText, textTokens_of_space hs, Html.spaceTokens]
  split_ifs with hempty
  · simpa using String.toList_eq_nil_iff.mp hempty
  · simpa using fun h => hempty (String.toList_eq_nil_iff.mpr h)

theorem content_codeInPre (inner : Html.Attributes) (lead code trail : String) :
    (Forest.text lead (.element "code" inner (.text code .nil) (.text trail .nil))).tokens =
      Html.textTokens lead ++ .startTag "code" inner ::
        (Html.textTokens code ++ .endTag "code" :: Html.textTokens trail) := by
  have hv : Html.isVoid "code" = false := by decide
  simp [Forest.tokens, hv]

theorem nextAcrossSpace_codeInPre (hlead : ∀ c ∈ lead.toList, Text.isHtmlSpace c = true)
    (ts : List Html.Token) :
    nextAcrossSpace opensCode (Html.textTokens lead ++ .startTag "code" inner :: ts) = true := by
  rw [textTokens_of_space hlead, Html.spaceTokens]
  split_ifs <;> rfl

theorem produces_codeInPre {ctx : Context} (hctx : s.context = ctx)
    (hreg : ctx.region o = .ordinary) (hlead : ∀ c ∈ lead.toList, Text.isHtmlSpace c = true) :
    Produces o rest s (codeInPre attributes inner lead code trail).tokens
      (stamped ctx.blockquote (codeInPreStream o attributes lead code trail ++ [.endBlock]))
      ctx := by
  have hcontent := content_codeInPre inner lead code trail
  have hnext : nextAcrossSpace opensCode (Forest.text lead (.element "code" inner
      (.text code .nil) (.text trail .nil))).tokens = true := by
    rw [hcontent]
    exact nextAcrossSpace_codeInPre hlead _
  have hproduces : Produces o rest s (codeInPre attributes inner lead code trail).tokens _ ctx :=
    produces_pre hctx hreg (by simp [hcontent]) hnext (.inl rfl)
  rwa [hcontent, preStream_texts] at hproduces

/-- A `<pre>` around code that is outside of other sensitive elements is somewhere in the result of
the conversion, whatever else the forest holds. -/
theorem exists_convert_codeInPre {f : Forest} {before after : List Html.Token}
    (hlead : ∀ c ∈ lead.toList, Text.isHtmlSpace c = true)
    (hf : f.tokens = before ++ (codeInPre attributes inner lead code trail).tokens ++ after)
    (hreg : ∀ s, Passes o ((codeInPre attributes inner lead code trail).tokens ++ after) {} before
      s → s.context.region o = .ordinary) :
    ∃ front back depth, convert o f.tokens = .ok (front ++
      stamped depth (codeInPreStream o attributes lead code trail) ++ back) := by
  obtain ⟨s, hs, -⟩ := exists_passes_tokens o f [] {} (Nat.le_refl 0)
  rw [hf] at hs
  obtain ⟨s₂, hpre, hafter⟩ := hs.of_append
  obtain ⟨s₁, hbefore, hpre⟩ := hpre.of_append
  rw [List.append_nil] at hbefore
  let depth := s₁.context.blockquote
  have hproduces : Produces o (after ++ []) s₁ (codeInPre attributes inner lead code trail).tokens
      (stamped depth (codeInPreStream o attributes lead code trail ++ [.endBlock])) s₁.context :=
    produces_codeInPre rfl (hreg s₁ hbefore) hlead
  obtain ⟨s₂', hpre', -, hemitted⟩ := hproduces
  obtain rfl := hpre.unique hpre'
  have hend : s₂.emitted = Token.endBlock.within (some depth) ::
      ((stamped depth (codeInPreStream o attributes lead code trail)).reverse ++ s₁.emitted) := by
    rw [hemitted, stamped_append, List.reverse_append]
    rfl
  obtain ⟨later, hlater⟩ := hafter.exists_finished hend (Token.tag?_within _ _)
  refine ⟨s₁.emitted.reverse, Token.endBlock.within (some depth) :: later, depth, ?_⟩
  rw [hf, hs.convert_eq, hlater, hend]
  simp

/-- Code in a `<pre>` is a block, without the edges of the `<pre>` and without delimiters, exactly
where it stands alone. Space on either side of it makes it inline code in raw HTML. The rest of the
document and the options do not matter. -/
theorem codeInPre_block_iff_alone (o : Options) {f : Forest} {before after : List Html.Token}
    (attributes inner : Html.Attributes) (code : String)
    (hlead : ∀ c ∈ lead.toList, Text.isHtmlSpace c = true)
    (htrail : ∀ c ∈ trail.toList, Text.isHtmlSpace c = true)
    (hf : f.tokens = before ++ (codeInPre attributes inner lead code trail).tokens ++ after)
    (hreg : ∀ s, Passes o ((codeInPre attributes inner lead code trail).tokens ++ after) {} before
      s → s.context.region o = .ordinary) :
    ∃ front back depth out,
      convert o f.tokens = .ok (front ++
        stamped depth (codeInPreStream o attributes lead code trail) ++ back) ∧
      let gap := settle 2 (quoteLevel depth) (settle 2 (quoteLevel depth) out)
      let spacedTo :=
        SpacedTo front (stamped depth (codeInPreStream o attributes lead code trail)) back out
      (spacedTo (blockCode depth (rawText code) gap) ↔ lead = "" ∧ trail = "") ∧
        (¬(lead = "" ∧ trail = "") → spacedTo (inlineCode depth
          (o.clean (.startTag "pre" attributes)) (o.clean (.endTag "pre")) (rawText lead)
          (rawText code) (rawText trail) gap)) := by
  obtain ⟨front, back, depth, hconvert⟩ := exists_convert_codeInPre hlead hf hreg
  obtain ⟨ts, hts, hcoherent⟩ := exists_convert_coherent o f
  obtain rfl := Except.ok.inj (hconvert.symm.trans hts)
  obtain ⟨out, hstart⟩ := Markdown.exists_behind (by rwa [List.append_assoc] at hcoherent)
    (Token.tag?_within .startBlock (some depth))
  refine ⟨front, back, depth, out, hconvert, ?_⟩
  intro gap spacedTo
  have hspaced : spacedTo (Markdown.spacedCode depth (o.clean (.startTag "pre" attributes))
      (o.clean (.endTag "pre")) (rawText lead) (rawText code) (rawText trail) gap) :=
    Markdown.spacedTo_of_advance hstart fun before => Spacer.advance_nativeCode rfl rfl
      Markdown.tag?_of_mem_rawText Markdown.tag?_of_mem_rawText Markdown.tag?_of_mem_rawText out
      back before
  have halone : rawText lead = [] ∧ rawText trail = [] ↔ lead = "" ∧ trail = "" :=
    and_congr (rawText_eq_nil hlead) (rawText_eq_nil htrail)
  rw [Markdown.spacedCode] at hspaced
  simp only [halone] at hspaced
  by_cases h : lead = "" ∧ trail = ""
  · rw [if_pos h] at hspaced
    exact ⟨⟨fun _ => h, fun _ => hspaced⟩, fun hbeside => absurd h hbeside⟩
  · rw [if_neg h] at hspaced
    refine ⟨⟨fun hblock => ?_, fun halone => absurd halone h⟩, fun _ => hspaced⟩
    exact absurd (hspaced.unique hblock) (Markdown.inlineCode_ne_blockCode _ _ _ _ _ _ _)

/-- Code behind a paragraph and in a quote. -/
theorem codeInPre_in_quote :
    let pre := codeInPre ∅ ∅ "" "x" ""
    let f : Forest := .element "p" ∅ (.text "a" .nil) (.element "blockquote" ∅ pre .nil)
    ∃ front back depth out,
      convert {} f.tokens = .ok (front ++ stamped depth (codeInPreStream {} ∅ "" "x" "") ++ back) ∧
      SpacedTo front (stamped depth (codeInPreStream {} ∅ "" "x" "")) back out
        (blockCode depth (rawText "x")
          (settle 2 (quoteLevel depth) (settle 2 (quoteLevel depth) out))) := by
  intro pre f
  let before : List Html.Token :=
    [.startTag "p" ∅, .characters "a", .endTag "p", .startTag "blockquote" ∅]
  have hspace : ∀ c ∈ "".toList, Text.isHtmlSpace c = true := by simp
  have hf : f.tokens = before ++ pre.tokens ++ [.endTag "blockquote"] := rfl
  have hreg : ∀ s, Passes {} (pre.tokens ++ [.endTag "blockquote"]) {} before s →
      s.context.region {} = .ordinary := by
    intro s hs
    rw [hs.context_eq]
    decide +kernel
  obtain ⟨front, back, depth, out, hconvert, hblock, -⟩ :=
    codeInPre_block_iff_alone {} ∅ ∅ "x" hspace hspace hf hreg
  exact ⟨front, back, depth, out, hconvert, hblock.mpr ⟨rfl, rfl⟩⟩

/-- A line end between the code and the end of the `<pre>` makes the code inline in raw HTML: the
edges of the `<pre>` stay, the code is between backticks and its text is not that of a block. -/
theorem codeInPre_before_newline :
    ∃ ts, convert {} (codeInPre ∅ ∅ "" "x" "\n").tokens = .ok ts ∧
      [Token.native .opening (.startTag "pre" ∅), .charactersAdded "`", .html (.characters "x"),
        .charactersAdded "`", .html (.spaceCharacters "\n"), .native .closing (.endTag "pre")] <:+:
        Markdown.space ts := by
  refine ⟨_, rfl, ?_⟩
  decide +kernel

end NativeCode

end Conversion

end HtmlMarkdown
