import HtmlMarkdown.Markdown.CodeRegion
import HtmlMarkdown.Proofs.Balance

/-!
# Coherent streams

What a conversion emits is coherent: the quote depth changes at block marks only, a code region
holds nothing but raw HTML and the edges of inner regions, and an end of a native block is followed
by an end of a block. A forest leaves as many code regions open as it has found.
-/

namespace HtmlMarkdown

namespace Markdown

def quoteLevel (n : Nat) : Option Nat := (some n).filter (0 < ·)

def depthBehind (ts : List Token) : Option Nat := ts.head?.bind Token.quoteDepth

def openRegions : List Token → Nat
  | [] => 0
  | t :: earlier =>
    match t.tag? with
    | some .startCode => openRegions earlier + 1
    | some .endCode => openRegions earlier - 1
    | _ => openRegions earlier

/-- Newlines are blank and have a newline; headings and list items begin with one. -/
def Token.Formed (t : Token) : Prop :=
  match t.node with
  | .markdown tag data =>
    (tag.isNewline = true → '\n' ∈ data.toList ∧ Text.isBlank data = true) ∧
      (tag = .headingStart ∨ tag = .listItemStart → data.toList.head? = some '\n')
  | _ => True

/-- The token may stand behind the earlier ones, the latest of them first. -/
structure Fits (earlier : List Token) (t : Token) : Prop where
  depth : t.quoteDepth ≠ some 0
  unflagged : t.inCode = false
  formed : t.Formed
  level : t.isBlockMark = true ∨ t.quoteDepth = depthBehind earlier
  code : 0 < openRegions earlier →
    t.tag? = none ∨ t.tag? = some .startCode ∨ t.tag? = some .endCode
  edge : earlier.head?.any (·.hasTag .endNativeBlock) = true → t.tagIs Tag.isBlockEnd = true

inductive Coherent : List Token → Prop
  | nil : Coherent []
  | cons {t : Token} {earlier : List Token} (ht : Fits earlier t) (h : Coherent earlier) :
      Coherent (t :: earlier)

structure Steady (n : Nat) (ts : List Token) : Prop where
  coherent : Coherent ts
  depth : depthBehind ts = quoteLevel n
  edge : ts.head?.any (·.hasTag .endNativeBlock) = false

structure Token.Plain (t : Token) : Prop where
  depth : t.quoteDepth = none
  unflagged : t.inCode = false
  formed : t.Formed
  startCode : t.tag? ≠ some .startCode
  endCode : t.tag? ≠ some .endCode
  closing : t.tag? ≠ some .endNativeBlock

def Tag.isPlain : Tag → Bool
  | startCode | endCode | endNativeBlock => false
  | newline | newlineHard | newlineBlank | headingStart | listItemStart => false
  | _ => true

variable {n m : Nat} {ts : List Token} {t : Token}

theorem Token.plain_markdown {tag : Tag} (data : String) (h : tag.isPlain = true) :
    (Token.markdown tag data).Plain := by
  refine ⟨rfl, rfl, ?_, ?_, ?_, ?_⟩ <;>
    cases tag <;> simp_all [Tag.isPlain, Token.Formed, Token.markdown, Tag.isNewline, Token.tag?]

theorem Token.plain_newline {tag : Tag} {data : String} (h : tag.isNewline = true)
    (hn : '\n' ∈ data.toList) (hb : Text.isBlank data = true) :
    (Token.markdown tag data).Plain := by
  refine ⟨rfl, rfl, ⟨fun _ => ⟨hn, hb⟩, ?_⟩, ?_, ?_, ?_⟩ <;>
    cases tag <;> simp_all [Tag.isNewline, Token.markdown, Token.tag?]

theorem Token.plain_ownLine {tag : Tag} {data : String}
    (h : tag = .headingStart ∨ tag = .listItemStart) (hd : data.toList.head? = some '\n') :
    (Token.markdown tag data).Plain := by
  refine ⟨rfl, rfl, ⟨?_, fun _ => hd⟩, ?_, ?_, ?_⟩ <;>
    rcases h with rfl | rfl <;> simp [Tag.isNewline, Token.markdown, Token.tag?]

theorem Token.plain_html (raw : Html.Token) : (Token.html raw).Plain :=
  ⟨rfl, rfl, trivial, by simp [Token.tag?, Token.html], by simp [Token.tag?, Token.html],
    by simp [Token.tag?, Token.html]⟩

theorem Token.plain_opening (raw : Html.Token) : (Token.native .opening raw).Plain :=
  ⟨rfl, rfl, trivial, by simp [Token.tag?, Token.native], by simp [Token.tag?, Token.native],
    by simp [Token.tag?, Token.native]⟩

theorem quoteLevel_ne_zero (n : Nat) : quoteLevel n ≠ some 0 := by
  cases n <;> simp [quoteLevel]

theorem Coherent.of_append {us : List Token} (h : Coherent (us ++ ts)) : Coherent ts := by
  induction us with
  | nil => exact h
  | cons u us ih =>
    cases h with
    | cons _ h => exact ih h

theorem Token.quoteDepth_within (h : t.quoteDepth = none) (n : Nat) :
    (t.within (some n)).quoteDepth = quoteLevel n := by
  simp only [Token.within, h]
  rfl

theorem Token.formed_within (h : t.Formed) (d : Option Nat) : (t.within d).Formed := by
  unfold Token.Formed
  rwa [Token.node_within]

theorem Token.isBlockMark_within (t : Token) (d : Option Nat) :
    (t.within d).isBlockMark = t.isBlockMark := by
  unfold Token.isBlockMark
  rw [Token.tagIs_within, Token.tagIs_within]

theorem openRegions_within (t : Token) (d : Option Nat) (ts : List Token) :
    openRegions (t.within d :: ts) = openRegions (t :: ts) := by
  simp only [openRegions, Token.tag?_within]

theorem openRegions_of_plain (h : t.Plain) (ts : List Token) :
    openRegions (t :: ts) = openRegions ts := by
  simp only [openRegions]
  split
  · next ht => exact absurd ht h.startCode
  · next ht => exact absurd ht h.endCode
  · rfl

theorem openRegions_of_isWhitespace (h : t.tagIs Tag.isWhitespace = true) (ts : List Token) :
    openRegions (t :: ts) = openRegions ts := by
  unfold Token.tagIs at h
  simp only [openRegions]
  split
  · next ht => simp [ht, Tag.isWhitespace] at h
  · next ht => simp [ht, Tag.isWhitespace] at h
  · rfl

theorem Steady.nil : Steady 0 [] := ⟨.nil, rfl, rfl⟩

/-- A token that is stamped with the depth, or moves it as a block mark, keeps a stream steady. -/
theorem Steady.cons (h : Steady n ts) (hd : t.quoteDepth = none) (hu : t.inCode = false)
    (hf : t.Formed) (hm : m = n ∨ t.isBlockMark = true)
    (hc : 0 < openRegions ts → t.tag? = none ∨ t.tag? = some .startCode ∨ t.tag? = some .endCode)
    (he : t.hasTag .endNativeBlock = false) : Steady m (t.within (some m) :: ts) where
  coherent := by
    refine .cons ⟨?_, ?_, Token.formed_within hf _, ?_, ?_, ?_⟩ h.coherent
    · rw [Token.quoteDepth_within hd]
      exact quoteLevel_ne_zero m
    · rwa [Token.inCode_within]
    · rw [Token.isBlockMark_within, Token.quoteDepth_within hd, h.depth]
      exact hm.symm.imp_right fun h => by rw [h]
    · rwa [Token.tag?_within]
    · simp [h.edge]
  depth := Token.quoteDepth_within hd m
  edge := by simpa [Token.hasTag_within] using he

theorem Steady.push (h : Steady n ts) (hz : openRegions ts = 0) (ht : t.Plain)
    (hm : m = n ∨ t.isBlockMark = true) :
    Steady m (t.within (some m) :: ts) ∧ openRegions (t.within (some m) :: ts) = 0 := by
  refine ⟨h.cons ht.depth ht.unflagged ht.formed hm (by omega) ?_, ?_⟩
  · simpa [Token.hasTag] using ht.closing
  · rw [openRegions_within, openRegions_of_plain ht, hz]

theorem Steady.emit {us : List Token} (h : Steady n ts) (hz : openRegions ts = 0)
    (hus : ∀ t ∈ us, t.Plain) (hm : m = n ∨ us.head?.any (·.isBlockMark) = true) :
    Steady m ((us.map (·.within (some m))).reverse ++ ts) ∧
      openRegions ((us.map (·.within (some m))).reverse ++ ts) = 0 := by
  induction us generalizing n ts with
  | nil =>
    obtain rfl : m = n := by simpa using hm
    exact ⟨h, hz⟩
  | cons u us ih =>
    obtain ⟨hu, hz'⟩ := h.push hz (hus u List.mem_cons_self) (by simpa using hm)
    simpa using ih hu hz' (fun t ht => hus t (List.mem_cons_of_mem u ht)) (.inl rfl)

theorem Steady.push_html (h : Steady n ts) (raw : Html.Token) :
    Steady n ((Token.html raw).within (some n) :: ts) ∧
      openRegions ((Token.html raw).within (some n) :: ts) = openRegions ts :=
  ⟨h.cons rfl rfl trivial (.inl rfl) (fun _ => .inl rfl) rfl, openRegions_within _ _ _⟩

theorem Steady.push_startCode (h : Steady n ts) :
    Steady n (Token.startCode.within (some n) :: ts) ∧
      openRegions (Token.startCode.within (some n) :: ts) = openRegions ts + 1 :=
  ⟨h.cons rfl rfl (by simp [Token.Formed, Token.startCode, Token.markdown, Tag.isNewline])
    (.inl rfl) (fun _ => .inr (.inl rfl)) rfl, openRegions_within _ _ _⟩

theorem Steady.push_endCode (h : Steady n ts) :
    Steady n (Token.endCode.within (some n) :: ts) ∧
      openRegions (Token.endCode.within (some n) :: ts) = openRegions ts - 1 :=
  ⟨h.cons rfl rfl (by simp [Token.Formed, Token.endCode, Token.markdown, Tag.isNewline])
    (.inl rfl) (fun _ => .inr (.inr rfl)) rfl, openRegions_within _ _ _⟩

theorem Steady.push_opening (h : Steady n ts) (hz : openRegions ts = 0) (raw : Html.Token) :
    Steady n
      ((Token.native .opening raw).within (some n) :: Token.startBlock.within (some n) :: ts) ∧
      openRegions
        ((Token.native .opening raw).within (some n) :: Token.startBlock.within (some n) :: ts) =
          0 := by
  have hplain : Token.startBlock.Plain := Token.plain_markdown _ rfl
  obtain ⟨hblock, hopen⟩ := h.push hz hplain (.inl rfl)
  exact hblock.push hopen (Token.plain_opening raw) (.inl rfl)

/-- The end of a native block and the end of its block come together. -/
theorem Steady.push_closing (h : Steady n ts) (hz : openRegions ts = 0) (raw : Html.Token) :
    Steady n (Token.endBlock.within (some n) :: (Token.native .closing raw).within (some n) :: ts) ∧
      openRegions
        (Token.endBlock.within (some n) :: (Token.native .closing raw).within (some n) :: ts) =
          0 := by
  have hopen : openRegions ((Token.native .closing raw).within (some n) :: ts) = 0 := by
    rw [openRegions_within]
    exact hz
  refine ⟨⟨.cons ⟨?_, rfl, ?_, .inl rfl, ?_, ?_⟩ (.cons ⟨?_, rfl, trivial, ?_, ?_, ?_⟩ h.coherent),
    rfl, rfl⟩, ?_⟩
  · exact quoteLevel_ne_zero n
  · simp [Token.Formed, Token.endBlock, Token.markdown, Tag.isNewline, Token.within]
  · omega
  · intro _
    rfl
  · exact quoteLevel_ne_zero n
  · exact .inr h.depth.symm
  · omega
  · simp [h.edge]
  · rw [openRegions_within]
    exact hopen

theorem not_isBlockMark_of_isWhitespace (h : t.tagIs Tag.isWhitespace = true) :
    t.isBlockMark = false ∧ t.tagIs Tag.isBlockEnd = false := by
  unfold Token.tagIs at h
  unfold Token.isBlockMark Token.tagIs
  cases ht : t.tag? with
  | none => simp
  | some tag =>
    rw [ht] at h
    cases tag <;> simp_all [Tag.isWhitespace, Tag.isBlockStart, Tag.isBlockEnd]

theorem Token.isWhitespace_of_isNewline (h : t.isNewline = true) :
    t.tagIs Tag.isWhitespace = true := by
  unfold Token.isNewline Token.tagIs at h
  unfold Token.tagIs
  cases ht : t.tag? with
  | none => simp [ht] at h
  | some tag =>
    rw [ht] at h
    exact Tag.isWhitespace_of_isNewline h

/-- White space stands at the depth of what stands before it. -/
theorem Steady.of_whitespace (h : Steady n (t :: ts)) (ht : t.tagIs Tag.isWhitespace = true) :
    Steady n ts := by
  obtain ⟨hc, hd, _⟩ := h
  cases hc with
  | cons hf hc =>
    obtain ⟨hmark, hend⟩ := not_isBlockMark_of_isWhitespace ht
    refine ⟨hc, ?_, ?_⟩
    · have hlevel : t.quoteDepth = depthBehind ts := hf.level.resolve_left (by simp [hmark])
      rw [← hlevel]
      exact hd
    · by_contra he
      rw [Bool.not_eq_false] at he
      exact absurd (hf.edge he) (by simp [hend])

end Markdown

namespace Conversion

open Html (Forest)
open Markdown (Token Coherent Steady openRegions quoteLevel)

variable {o : Options} {w : Window} {last : Option Token} {ctx : Context} {r : Reaction}

theorem Writes.plain {name : String} {t : Token} (h : Writes o name t) : t.Plain := by
  cases h with
  | startBlock | endBlock | startBlockquote | endBlockquote => exact Token.plain_markdown _ rfl
  | heading level =>
    exact Token.plain_ownLine (.inl rfl) (by simp)
  | item depth bullet =>
    exact Token.plain_ownLine (.inr rfl) (by simp)
  | rule => exact Token.plain_markdown _ rfl
  | lineBreak => exact Token.plain_newline rfl (by decide) (by decide)
  | emphasis strong => cases strong <;> exact Token.plain_markdown _ rfl
  | fused => exact Token.plain_markdown _ rfl
  | image src alt title reference => cases reference <;> exact Token.plain_markdown _ rfl
  | link | referenceLink | selfLink => exact Token.plain_markdown _ rfl
  | address | raw => exact Token.plain_html _

theorem plain_textTokens (cs : List Char) : ∀ t ∈ textTokens cs, t.Plain := by
  intro t ht
  rcases mem_textTokens ht with ⟨s, rfl⟩ | ⟨s, rfl⟩ | rfl
  · exact Token.plain_html _
  · exact Token.plain_markdown _ rfl
  · exact Token.plain_newline rfl (by decide) (by decide)

theorem Gap.plain_token (gap : Gap) : gap.token.Plain := by
  cases gap with
  | space => exact Token.plain_markdown _ rfl
  | newline | blank => exact Token.plain_newline rfl (by decide) (by decide)

theorem plain_referenceBlock (refs : References) : ∀ t ∈ State.referenceBlock refs, t.Plain := by
  intro t ht
  simp only [State.referenceBlock, List.mem_append, List.mem_cons, List.mem_flatMap,
    List.not_mem_nil, or_false] at ht
  rcases ht with ((rfl | rfl) | ⟨entry, _, rfl | rfl⟩) | rfl
  · exact Token.plain_newline rfl (by decide) (by decide)
  · exact Token.plain_markdown _ rfl
  · exact Token.plain_newline rfl (by decide) (by decide)
  · exact Token.plain_markdown _ rfl
  · exact Token.plain_markdown _ rfl

def State.Steady (s : State) : Prop := Markdown.Steady s.context.blockquote s.emitted

theorem State.Steady.tame {s : State} {name : String} (h : s.Steady)
    (hz : openRegions s.emitted = 0) (hr : r.Tame o name s.context) (t : Html.Token) :
    (s.accept t r).Steady ∧ openRegions (s.accept t r).emitted = 0 := by
  have hemitted : (s.accept t r).emitted =
      (r.produced.map (·.within (some r.context.blockquote))).reverse ++ s.emitted := by
    simp [State.accept, hr.keepsLast]
  unfold State.Steady
  rw [hemitted]
  exact Markdown.Steady.emit h hz (fun t ht => (hr.writes t ht).plain) hr.quotes

/-- A run of space is steady, also where a blank line takes the place of a newline. -/
theorem State.Steady.space {s : State} (h : s.Steady) (hz : openRegions s.emitted = 0)
    (t : Html.Token) :
    (s.accept t (spaceCharacters t s.emitted.head? s.context)).Steady ∧
      openRegions (s.accept t (spaceCharacters t s.emitted.head? s.context)).emitted = 0 := by
  have hpush {u : Token} (hu : u.Plain) : (s.accept t (.emit s.context [u])).Steady ∧
      openRegions (s.accept t (.emit s.context [u])).emitted = 0 :=
    Markdown.Steady.push h hz hu (.inl rfl)
  unfold spaceCharacters
  rcases settleSpace_cases t s.emitted.head? (0 < s.context.sensitive) s.context.inList with
    heq | heq | ⟨gap, heq⟩ | ⟨heq, u, hlast, hu⟩
  · rw [heq]
    exact ⟨h, hz⟩
  · rw [heq]
    exact hpush (Token.plain_html t)
  · rw [heq]
    exact hpush (Gap.plain_token gap)
  · rw [heq]
    obtain ⟨us, he⟩ : ∃ us, s.emitted = u :: us := by
      cases he : s.emitted with
      | nil => simp [he] at hlast
      | cons v us =>
        obtain rfl : v = u := by simpa [he] using hlast
        exact ⟨us, rfl⟩
    have hw := Token.isWhitespace_of_isNewline hu
    have hs : Markdown.Steady s.context.blockquote (u :: us) := he ▸ h
    have hopen : openRegions us = 0 := by
      rw [← Markdown.openRegions_of_isWhitespace hw, ← he]
      exact hz
    have hplain : Token.newlineBlank.Plain := Gap.blank.plain_token
    have hnew := (hs.of_whitespace hw).push hopen hplain (.inl rfl)
    simpa [State.Steady, State.accept, he] using hnew

theorem State.Steady.leaf {s : State} {t : Html.Token} {after : List Html.Token}
    (h : s.Steady) (hz : s.context.region o = .ordinary → openRegions s.emitted = 0)
    (hr : Answers o (s.window t after) s.emitted.head? s.context (s.context.region o) r) :
    (s.accept t r).Steady ∧ openRegions (s.accept t r).emitted = openRegions s.emitted := by
  generalize hreg : s.context.region o = region at hr hz
  cases hr with
  | stripped => exact ⟨h, rfl⟩
  | raw => exact Markdown.Steady.push_html h t
  | text hk =>
    rw [hz rfl]
    unfold characters
    split_ifs
    · exact ⟨h, hz rfl⟩
    · exact Markdown.Steady.emit h (hz rfl) (plain_textTokens _) (.inl rfl)
  | space hk =>
    rw [hz rfl]
    exact h.space (hz rfl) t
  | tame hk hr =>
    rw [hz rfl]
    exact h.tame (hz rfl) hr t

theorem steady_of_leaves {ts rest : List Html.Token} {s s' : State}
    (hts : ∀ t ∈ ts, t.IsLeaf) (h : Passes o rest s ts s')
    (htags : s.context.anchorAsTag ≤ s.context.anchor) (hs : s.Steady)
    (hz : s.context.region o = .ordinary → openRegions s.emitted = 0) :
    s.context.Resumes s'.context ∧ s'.Steady ∧ openRegions s'.emitted = openRegions s.emitted := by
  induction h with
  | nil => exact ⟨.refl htags, hs, rfl⟩
  | @cons s s' t ts r hr _ ih =>
    have ht : t.IsLeaf := hts t List.mem_cons_self
    have hres := Context.Resumes.of_leaf hr ht htags
    obtain ⟨hs₁, hopen₁⟩ := hs.leaf hz (answers_of_react ht hr)
    obtain ⟨hres₂, hs₂, hopen₂⟩ := ih (fun u hu => hts u (List.mem_cons_of_mem t hu)) hres.tags hs₁
      (fun hreg => by rw [hopen₁]; exact hz (hres.region_eq.symm.trans hreg))
    exact ⟨hres.trans hres₂, hs₂, hopen₂.trans hopen₁⟩

/-- Both tags of an element keep a stream steady, and its end tag closes the code that its start tag
has opened. -/
theorem State.Steady.brackets {s s₁ : State} {name : String} {r' : Reaction} (h : s.Steady)
    (hz : s.context.region o = .ordinary → openRegions s.emitted = 0)
    (hb : Brackets o name s.context s₁.context (s.context.region o) (r.context.region o) r r')
    (t t' : Html.Token) :
    ((s.accept t r).Steady ∧
        (r.context.region o = .ordinary → openRegions (s.accept t r).emitted = 0)) ∧
      (s₁.Steady → openRegions s₁.emitted = openRegions (s.accept t r).emitted →
        (s₁.accept t' r').Steady ∧
          openRegions (s₁.accept t' r').emitted = openRegions s.emitted) := by
  generalize s.context.region o = outer at hb hz
  generalize r.context.region o = inner at hb
  cases hb with
  | stripped hc hc' | strippedScript hc hc' =>
    unfold State.Steady
    refine ⟨⟨?_, by simp⟩, fun h₁ hopen => ⟨?_, hopen⟩⟩
    · exact hc.quotes ▸ h
    · exact hc'.quotes ▸ h₁
  | raw hc hc' =>
    simp only [State.Steady, Reaction.emit, State.accept, hc.quotes, hc'.quotes]
    have hopens := Markdown.Steady.push_html h
    refine ⟨⟨(hopens _).1, by simp⟩, fun h₁ hopen => ?_⟩
    have hcloses := Markdown.Steady.push_html h₁
    exact ⟨(hcloses _).1, (hcloses _).2.trans (hopen.trans (hopens _).2)⟩
  | innerCode hc hc' | code hc hc' =>
    simp only [State.Steady, Reaction.emit, State.accept, hc.quotes, hc'.quotes]
    have hopens := Markdown.Steady.push_startCode h
    refine ⟨⟨hopens.1, by simp⟩, fun h₁ hopen => ?_⟩
    have hcloses := Markdown.Steady.push_endCode h₁
    refine ⟨hcloses.1, hcloses.2.trans ?_⟩
    rw [hopen]
    exact (congrArg (· - 1) hopens.2).trans (Nat.add_sub_cancel _ 1)
  | native raw raw' hc hc' =>
    simp only [State.Steady, Reaction.emit, State.accept, hc.quotes, hc'.quotes]
    have hopens := Markdown.Steady.push_opening h (hz rfl) raw
    refine ⟨⟨hopens.1, by simp⟩, fun h₁ hopen => ?_⟩
    rw [hz rfl]
    exact Markdown.Steady.push_closing h₁ (hopen.trans hopens.2) raw'
  | injectedCode raw raw' hc hc' =>
    simp only [State.Steady, Reaction.emit, State.accept, hc.quotes, hc'.quotes]
    have hopens := Markdown.Steady.push_opening h (hz rfl) raw
    have hcode := hopens.1.push_startCode
    refine ⟨⟨hcode.1, by simp⟩, fun h₁ hopen => ?_⟩
    have hclosed := Markdown.Steady.push_endCode h₁
    have hzero :
        openRegions (Token.endCode.within (some s₁.context.blockquote) :: s₁.emitted) = 0 := by
      rw [hclosed.2, hopen]
      exact (congrArg (· - 1) hcode.2).trans (by rw [hopens.2])
    rw [hz rfl]
    exact hclosed.1.push_closing hzero raw'
  | tame hr hr' =>
    have hopens := h.tame (hz rfl) hr t
    refine ⟨⟨hopens.1, fun _ => hopens.2⟩, fun h₁ hopen => ?_⟩
    rw [hz rfl]
    exact h₁.tame (hopen.trans hopens.2) hr' t'

/-- A forest keeps a stream steady, and leaves the code regions open that it has found. -/
theorem steady_of_passes {f : Forest} {rest : List Html.Token} {s s' : State}
    (h : Passes o rest s f.tokens s') (htags : s.context.anchorAsTag ≤ s.context.anchor)
    (hs : s.Steady) (hz : s.context.region o = .ordinary → openRegions s.emitted = 0) :
    s'.Steady ∧ openRegions s'.emitted = openRegions s.emitted := by
  induction f using Forest.leavesRec generalizing rest s s' with
  | nil =>
    cases h
    exact ⟨hs, rfl⟩
  | leaves ts f g hts htokens ih =>
    rw [htokens] at h
    obtain ⟨s₁, h₁, h₂⟩ := h.of_append
    obtain ⟨hres, hs₁, hopen₁⟩ := steady_of_leaves hts h₁ htags hs hz
    obtain ⟨hs₂, hopen₂⟩ := ih h₂ hres.tags hs₁
      (fun hreg => by rw [hopen₁]; exact hz (hres.region_eq.symm.trans hreg))
    exact ⟨hs₂, hopen₂.trans hopen₁⟩
  | element name attributes children f hv ihc ih =>
    obtain ⟨r, s₁, r', -, htags₁, h₁, -, hres₁, hres, hb, -, h₂⟩ := h.of_element hv htags
    obtain ⟨⟨hopens, hzero⟩, hcloses⟩ := hs.brackets hz hb (.startTag name attributes)
      (.endTag name)
    obtain ⟨hs₁, hopen₁⟩ := ihc h₁ htags₁ hopens hzero
    obtain ⟨hs₂, hopen₂⟩ := hcloses hs₁ hopen₁
    obtain ⟨hs₃, hopen₃⟩ := ih h₂ hres.tags hs₂
      (fun hreg => by rw [hopen₂]; exact hz (hres.region_eq.symm.trans hreg))
    exact ⟨hs₃, hopen₃.trans hopen₂⟩

theorem within_zero {t : Token} (h : t.quoteDepth = none) : t.within (some 0) = t := by
  obtain ⟨node, depth, flag⟩ := t
  obtain rfl : depth = none := h
  rfl

/-- A forest has a coherent conversion, with its reference block. -/
theorem exists_convert_coherent (o : Options) (f : Forest) :
    ∃ ts, convert o f.tokens = .ok ts ∧ Coherent ts.reverse := by
  obtain ⟨s, hs, hres⟩ := exists_passes_tokens o f [] {} (Nat.le_refl 0)
  obtain ⟨hsteady, hopen⟩ := steady_of_passes hs (Nat.le_refl 0) Markdown.Steady.nil fun _ => rfl
  have hzero : s.context.blockquote = 0 := hres.blockquote_eq
  have hs₀ : Markdown.Steady 0 s.emitted := hzero ▸ hsteady
  refine ⟨s.finished, hs.convert_eq, ?_⟩
  unfold State.finished
  dsimp only
  split
  · rw [List.reverse_reverse]
    exact hs₀.coherent
  · rw [List.reverse_append, List.reverse_reverse]
    have hblock : (State.referenceBlock s.context.references).map (·.within (some 0)) =
        State.referenceBlock s.context.references := by
      rw [List.map_congr_left, List.map_id']
      exact fun t ht => within_zero (plain_referenceBlock _ t ht).depth
    rw [← hblock]
    refine (Markdown.Steady.emit (n := 0) ?_ ?_ (plain_referenceBlock _) (.inl rfl)).1.coherent
    · cases he : s.emitted with
      | nil => exact .nil
      | cons last rest =>
        rw [he] at hs₀
        dsimp only
        split
        · next hw => exact hs₀.of_whitespace hw
        · exact hs₀
    · cases he : s.emitted with
      | nil => rfl
      | cons last rest =>
        have hlast : openRegions (last :: rest) = 0 := he ▸ hopen
        dsimp only
        split
        · next hw => rw [← hlast, Markdown.openRegions_of_isWhitespace hw]
        · exact hlast

end Conversion

end HtmlMarkdown
