import HtmlMarkdown.Proofs.Handling
import HtmlMarkdown.Proofs.Trace
import Mathlib.Data.List.Chain

/-!
# The normal form of white space

However text, line breaks and white space follow each other, a conversion writes no newline directly
behind a newline, and no space where the start of a line is. A step sees the token that was
written last; where a blank line takes the place of that one, what stands in front of it was
settled when the newline was written.
-/

namespace HtmlMarkdown

open Markdown (Tag)

/-- A space directly behind a token of this kind would stand at the start of a line. -/
def Markdown.Tag.refusesSpace : Tag → Bool
  | .newlineBlank | .startBlock | .startBlockquote | .listItemStart | .endBlock | .endBlockquote =>
    true
  | _ => false

theorem Markdown.Tag.refusesSpace_eq_false {tag : Tag} (hblank : tag ≠ .newlineBlank)
    (hitem : tag ≠ .listItemStart) (hstart : tag.isBlockStart = false)
    (hend : tag.isBlockEnd = false) : tag.refusesSpace = false := by
  cases tag <;> first | rfl | contradiction

theorem Markdown.Tag.isNewline_eq_false {tag : Tag} (hblank : tag ≠ .newlineBlank)
    (hsingle : tag.isSingleNewline = false) : tag.isNewline = false := by
  cases tag <;> first | rfl | contradiction

theorem Markdown.Tag.isNewline_of_isBlockEnd {tag : Tag} (h : tag.isBlockEnd = true) :
    tag.isNewline = false := by
  cases tag <;> first | rfl | cases h

namespace Conversion

open Markdown (Token)

/-- The second token may stand directly behind the first. -/
structure MayMeet (t u : Token) : Prop where
  newline : ¬(t.isNewline = true ∧ u.isNewline = true)
  space : ¬(t.tagIs Tag.refusesSpace = true ∧ u.hasTag .space = true)

structure MayOpen (u : Token) : Prop where
  space : u.hasTag .space = false
  newline : u.hasTag .newline = false

def MayJoin (last : Option Token) (u : Token) : Prop :=
  match last with
  | none => MayOpen u
  | some t => MayMeet t u

structure NormalSpace (ts : List Token) : Prop where
  chain : ts.IsChain MayMeet
  opens : ∀ u ∈ ts.head?, MayOpen u

def NoGap (u : Token) : Prop := u.isNewline = false ∧ u.hasTag .space = false

variable {o : Options} {w : Window} {last : Option Token} {ctx : Context} {r : Reaction}
  {s s' : State} {t u : Token} {ts us : List Token}

theorem NoGap.mayMeet (h : NoGap u) (t : Token) : MayMeet t u :=
  ⟨by simp [h.1], by simp [h.2]⟩

theorem NoGap.mayOpen (h : NoGap u) : MayOpen u where
  space := h.2
  newline := by
    have hn := h.1
    by_contra hnew
    have htag : u.tag? = some .newline := by simpa [Token.hasTag] using hnew
    simp [Token.isNewline, Token.tagIs, htag, Tag.isNewline] at hn

theorem NoGap.mayJoin (h : NoGap u) (last : Option Token) : MayJoin last u := by
  cases last with
  | none => exact h.mayOpen
  | some t => exact h.mayMeet t

theorem isChain_of_noGap (h : ∀ u ∈ us, NoGap u) : us.IsChain MayMeet := by
  induction us with
  | nil => exact List.isChain_nil
  | cons u us ih =>
    obtain ⟨-, hus⟩ := List.forall_mem_cons.mp h
    apply List.isChain_cons.mpr
    exact ⟨fun v hv => (hus v (List.mem_of_mem_head? hv)).mayMeet u, ih hus⟩

theorem NormalSpace.append (h : NormalSpace ts) (hus : us.IsChain MayMeet)
    (hjoin : ∀ u ∈ us.head?, MayJoin ts.getLast? u) : NormalSpace (ts ++ us) where
  chain := by
    refine h.chain.append hus ?_
    intro t ht u hu
    have hmeet := hjoin u hu
    rwa [Option.mem_def.mp ht] at hmeet
  opens := by
    intro u hu
    cases ts with
    | nil => exact hjoin u hu
    | cons t ts => exact h.opens u hu

theorem NormalSpace.of_prefix (h : NormalSpace ts) (hp : us <+: ts) : NormalSpace us where
  chain := h.chain.prefix hp
  opens := by
    intro u hu
    obtain ⟨vs, rfl⟩ := hp
    apply h.opens u
    rw [List.head?_append, Option.mem_def.mp hu]
    rfl

/-- A text that is split into lines has text on both sides of each newline. -/
theorem isChain_textTokens (cs : List Char) :
    (textTokens cs).IsChain MayMeet ∧ ∀ u ∈ (textTokens cs).head?, NoGap u := by
  have hsplit (l : List Char) : NoGap (.charactersSplit (String.ofList l)) := ⟨rfl, rfl⟩
  have hnewline (l : List Char) : MayMeet (.charactersSplit (String.ofList l)) .newline :=
    ⟨by simp [Token.charactersSplit, Token.markdown, Token.isNewline, Token.tagIs, Token.tag?,
      Tag.isNewline], by simp [Token.newline, Token.markdown, Token.hasTag, Token.tag?]⟩
  have hlines (l : List Char) (ls : List (List Char)) :
      (Token.charactersSplit (String.ofList l) ::
        ls.flatMap fun l => [.newline, .charactersSplit (String.ofList l)]).IsChain MayMeet := by
    induction ls generalizing l with
    | nil => exact List.isChain_singleton _
    | cons l' ls ih =>
      exact List.isChain_cons_cons.mpr ⟨hnewline l,
        List.isChain_cons_cons.mpr ⟨(hsplit l').mayMeet _, ih l'⟩⟩
  unfold textTokens
  split
  · exact ⟨List.isChain_nil, by simp⟩
  · split
    · exact ⟨List.isChain_nil, by simp⟩
    · refine ⟨List.isChain_singleton _, ?_⟩
      intro u hu
      cases hu
      exact ⟨rfl, rfl⟩
  · refine ⟨hlines _ _, ?_⟩
    intro u hu
    cases hu
    exact hsplit _

theorem Gap.mayMeet_token {gap : Gap} (hspace : t.tagIs Tag.refusesSpace = false)
    (hnewline : gap ≠ .space → t.isNewline = false) : MayMeet t gap.token := by
  cases gap with
  | space => exact ⟨fun h => absurd h.2 (by decide), by simp [hspace]⟩
  | newline | blank =>
    exact ⟨by simp [hnewline (by decide)], fun h => absurd h.2 (by decide)⟩

/-- A gap that is written behind such a token may stand there. -/
theorem mayMeet_of_behind {gap : Gap} (hitem : t.tag? ≠ some .listItemStart)
    (hstart : t.tagIs Tag.isBlockStart = false) (hend : t.tagIs Tag.isBlockEnd = false)
    (h : gap.behind t.tag? = .push u) : MayMeet t u := by
  unfold Gap.behind at h
  split_ifs at h with hblank hsingle
  cases h
  cases htag : t.tag? with
  | none =>
    apply Gap.mayMeet_token
    · rw [Token.tagIs, htag]
      rfl
    · intro _
      rw [Token.isNewline, Token.tagIs, htag]
      rfl
  | some tag =>
    rw [Token.tagIs, htag] at hstart hend
    have hblank' : tag ≠ .newlineBlank := fun heq => hblank (by rw [htag, heq])
    have hitem' : tag ≠ .listItemStart := fun heq => hitem (by rw [htag, heq])
    apply Gap.mayMeet_token
    · rw [Token.tagIs, htag]
      exact Tag.refusesSpace_eq_false hblank' hitem' hstart hend
    · intro hgap
      have hone : tag.isSingleNewline = false := by simpa [htag, hgap] using hsingle
      rw [Token.isNewline, Token.tagIs, htag]
      exact Tag.isNewline_eq_false hblank' hone

/-- White space is written where it may stand. -/
theorem mayJoin_of_settleSpace {raw : Html.Token} {sensitive inList : Bool}
    (h : settleSpace raw last sensitive inList = .push u) : MayJoin last u := by
  unfold settleSpace at h
  dsimp only at h
  split_ifs at h with hs hitem hstart hend hlist hnone
  · cases h
    exact NoGap.mayJoin ⟨rfl, rfl⟩ last
  · cases h
    cases last with
    | none => cases hend
    | some t =>
      cases htag : t.tag? with
      | none => simp [htag] at hend
      | some tag =>
        have hblock : tag.isBlockEnd = true := by simpa [htag] using hend
        have hnewline : t.isNewline = false := by
          rw [Token.isNewline, Token.tagIs, htag]
          exact Tag.isNewline_of_isBlockEnd hblock
        exact ⟨by simp [hnewline], fun hspace => absurd hspace.2 (by decide)⟩
  · cases last with
    | none => exact absurd rfl hnone
    | some t =>
      have hitem' : t.tag? ≠ some .listItemStart := fun htag => hitem (.inl htag)
      exact mayMeet_of_behind hitem' (eq_false_of_ne_true hstart) (eq_false_of_ne_true hend) h

/-- A blank line may stand where a newline stands. -/
theorem MayMeet.blank (h : MayMeet t u) (hu : u.isNewline = true) : MayMeet t .newlineBlank :=
  ⟨fun hn => h.newline ⟨hn.1, hu⟩, fun hs => absurd hs.2 (by decide)⟩

inductive Reaction.Normal (last : Option Token) (r : Reaction) : Prop
  | behind (hkeeps : r.replacesLast = false) (hchain : r.produced.IsChain MayMeet)
      (hjoin : ∀ u ∈ r.produced.head?, MayJoin last u)
  | inPlace (u : Token) (hreplaces : r.replacesLast = true) (hlast : last = some u)
      (hu : u.isNewline = true) (hproduced : r.produced = [.newlineBlank])

theorem Reaction.Normal.of_noGap (hkeeps : r.replacesLast = false) (h : ∀ u ∈ r.produced, NoGap u) :
    r.Normal last :=
  .behind hkeeps (isChain_of_noGap h) fun u hu => (h u (List.mem_of_mem_head? hu)).mayJoin last

theorem normal_spaceCharacters (raw : Html.Token) (last : Option Token) (ctx : Context) :
    (spaceCharacters raw last ctx).Normal last := by
  unfold spaceCharacters
  cases h : settleSpace raw last (0 < ctx.sensitive) ctx.inList with
  | drop => exact .of_noGap rfl (List.forall_mem_nil _)
  | push u =>
    refine .behind rfl (List.isChain_singleton u) ?_
    intro v hv
    cases hv
    exact mayJoin_of_settleSpace h
  | replace u =>
    rcases settleSpace_cases raw last (0 < ctx.sensitive) ctx.inList with
      heq | heq | ⟨gap, heq⟩ | ⟨heq, v, hlast, hv⟩ <;> rw [heq] at h <;> cases h
    exact .inPlace v rfl hlast hv rfl

theorem normal_lineBreak (last : Option Token) (ctx : Context) :
    (lineBreak last ctx).Normal last := by
  unfold lineBreak
  split_ifs with hnone
  · exact .of_noGap rfl (List.forall_mem_nil _)
  · refine .behind rfl (List.isChain_singleton _) ?_
    intro u hu
    cases hu
    cases last with
    | none => exact ⟨by decide, by decide⟩
    | some t =>
      have hnewline : t.isNewline = false := by
        by_contra hn
        exact hnone (.inr (by simpa [Token.isNewline] using hn))
      exact ⟨by simp [hnewline], fun hspace => absurd hspace.2 (by decide)⟩

theorem normal_emptyTag (raw : Html.Token) (last : Option Token) (ctx : Context) :
    (emptyTag o raw last ctx).Normal last := by
  unfold emptyTag
  dsimp only
  split_ifs
  · unfold image
    split
    · exact .of_noGap rfl (List.forall_mem_singleton.mpr ⟨rfl, rfl⟩)
    · split
      · exact .of_noGap rfl (List.forall_mem_nil _)
      · dsimp only
        split <;> exact .of_noGap rfl (List.forall_mem_singleton.mpr ⟨rfl, rfl⟩)
  · exact normal_lineBreak last ctx
  · apply Reaction.Normal.of_noGap rfl
    simp only [Reaction.emit, List.forall_mem_cons]
    exact ⟨⟨rfl, rfl⟩, ⟨rfl, rfl⟩, ⟨rfl, rfl⟩, List.forall_mem_nil _⟩
  · exact .of_noGap rfl (List.forall_mem_singleton.mpr ⟨rfl, rfl⟩)
  · exact .of_noGap rfl (List.forall_mem_nil _)

/-- A token that is neither a start tag nor an end tag is left out, kept or answered by its
kind. -/
theorem react_of_unpaired (hstart : w.token.kind ≠ .startTag) (hend : w.token.kind ≠ .endTag)
    (h : react o w last ctx = .ok r) : r.produced = [] ∧ r.replacesLast = false ∨
      r.produced = [.html w.token] ∧ r.replacesLast = false ∨ ordinary o w last ctx = .ok r := by
  cases hregion : ctx.region o with
  | stripped =>
    rw [react_of_stripped hregion] at h
    cases h
    left
    unfold insideStripped
    split_ifs
    · exact ⟨rfl, rfl⟩
    · split <;> exact ⟨rfl, rfl⟩
  | sensitive =>
    cases hin : insideSensitive w.token ctx with
    | some r' =>
      rw [react_of_insideSensitive hregion hin] at h
      cases h
      unfold insideSensitive at hin
      split_ifs at hin with _ hclosing
      · cases hin
        exact .inr (.inl ⟨rfl, rfl⟩)
      · exact absurd hclosing.1 hend
    | none =>
      rw [react_eq_ordinary (by simp [hregion]) fun _ => hin] at h
      exact .inr (.inr h)
  | ordinary =>
    rw [react_of_ordinary hregion] at h
    exact .inr (.inr h)

theorem normal_of_unpaired (hstart : w.token.kind ≠ .startTag) (hend : w.token.kind ≠ .endTag)
    (h : react o w last ctx = .ok r)
    (hown : ordinary o w last ctx = .ok r → r.Normal last) : r.Normal last := by
  rcases react_of_unpaired hstart hend h with ⟨hnone, hkeeps⟩ | ⟨hraw, hkeeps⟩ | hr
  · exact .of_noGap hkeeps (by simp [hnone])
  · exact .of_noGap hkeeps (by rw [hraw]; exact List.forall_mem_singleton.mpr ⟨rfl, rfl⟩)
  · exact hown hr

theorem normal_of_react (h : react o w last ctx = .ok r) : r.Normal last := by
  by_cases hspace : w.token.kind = .spaceCharacters
  · apply normal_of_unpaired (by simp [hspace]) (by simp [hspace]) h
    intro hr
    simp only [ordinary, hspace, Except.ok.injEq] at hr
    rw [← hr]
    exact normal_spaceCharacters _ _ _
  by_cases hempty : w.token.kind = .emptyTag
  · apply normal_of_unpaired (by simp [hempty]) (by simp [hempty]) h
    intro hr
    simp only [ordinary, hempty, Except.ok.injEq] at hr
    rw [← hr]
    exact normal_emptyTag _ _ _
  -- Of the other reactions only a text has newlines, and it keeps them apart.
  cases handles_of_react h with
  | gap gap hk hc => exact absurd hk hspace
  | blankLine hk hlast hu hc => exact absurd hk hspace
  | lineBreak hk hc => exact absurd hk hempty
  | text hk hc =>
    obtain ⟨hchain, hsolid⟩ := isChain_textTokens
      (Text.flowChars (0 < ctx.paragraph) w.token.content.toList)
    exact .behind rfl hchain fun u hu => (hsolid u hu).mayJoin last
  | opensList kind hk hp =>
    obtain ⟨c, -, h | h⟩ := openList_eq kind ctx <;> rw [h]
    · exact .of_noGap rfl (List.forall_mem_nil _)
    · exact .of_noGap rfl (List.forall_mem_singleton.mpr ⟨rfl, rfl⟩)
  | closesList kind hk hp h =>
    obtain ⟨c, -, rfl | rfl⟩ := closeList_eq h
    · exact .of_noGap rfl (List.forall_mem_nil _)
    · exact .of_noGap rfl (List.forall_mem_singleton.mpr ⟨rfl, rfl⟩)
  | mailLink hc | schemeLink hc =>
    apply Reaction.Normal.of_noGap rfl
    simp only [Reaction.emit, linkTo]
    split_ifs <;> simp only [List.forall_mem_cons] <;> and_intros <;>
      first | rfl | exact List.forall_mem_nil _
  | emphasis strong hc =>
    cases strong <;> exact .of_noGap rfl (List.forall_mem_singleton.mpr ⟨rfl, rfl⟩)
  | _ =>
    apply Reaction.Normal.of_noGap rfl
    simp only [Reaction.emit, List.forall_mem_cons]
    and_intros <;> first | rfl | exact List.forall_mem_nil _

/-- How deep in quotes a token stands does not matter to its neighbours. -/
theorem MayMeet.within (h : MayMeet t u) (d d' : Option Nat) :
    MayMeet (t.within d) (u.within d') :=
  ⟨by simpa [Token.isNewline] using h.newline, by simpa using h.space⟩

theorem MayJoin.within (h : MayJoin last u) (d : Option Nat) : MayJoin last (u.within d) := by
  cases last with
  | none => exact ⟨by simpa using h.space, by simpa using h.newline⟩
  | some t => exact Token.within_none t ▸ MayMeet.within h none d

theorem isChain_written (h : r.produced.IsChain MayMeet) : r.written.IsChain MayMeet :=
  List.isChain_map_of_isChain _ (fun _ _ hmeet => hmeet.within _ _) h

/-- A step keeps the normal form. -/
theorem NormalSpace.accept (h : NormalSpace s.emitted.reverse) (hr : r.Normal s.emitted.head?)
    (t : Html.Token) : NormalSpace (s.accept t r).emitted.reverse := by
  rw [State.emitted_accept]
  cases hr with
  | behind hkeeps hchain hjoin =>
    rw [hkeeps, if_neg Bool.false_ne_true]
    apply h.append (isChain_written hchain)
    intro u hu
    rw [List.getLast?_reverse]
    rw [Reaction.written, List.head?_map, Option.mem_def, Option.map_eq_some_iff] at hu
    obtain ⟨v, hv, rfl⟩ := hu
    exact (hjoin v hv).within _
  | inPlace u hreplaces hlast hu hproduced =>
    obtain ⟨vs, hemitted⟩ := List.head?_eq_some_iff.mp hlast
    rw [hreplaces, if_pos rfl, hemitted, List.tail_cons, Reaction.written, hproduced]
    rw [hemitted, List.reverse_cons] at h
    have hvs : NormalSpace vs.reverse := h.of_prefix (List.prefix_append _ _)
    have hblank : MayJoin vs.reverse.getLast? .newlineBlank := by
      rw [List.getLast?_reverse]
      cases vs with
      | nil => exact ⟨by decide, by decide⟩
      | cons v vs =>
        have hmeet : MayMeet v u := by
          have hpair : [v, u].IsChain MayMeet := h.chain.suffix ⟨vs.reverse, by simp⟩
          exact (List.isChain_cons_cons.mp hpair).1
        exact hmeet.blank hu
    apply hvs.append (List.isChain_singleton _)
    intro v hv
    cases hv
    exact hblank.within _

theorem Passes.normalSpace {rest us : List Html.Token} (h : Passes o rest s us s')
    (hs : NormalSpace s.emitted.reverse) : NormalSpace s'.emitted.reverse := by
  induction h with
  | nil => exact hs
  | @cons s s' t us r hr _ ih => exact ih (hs.accept (normal_of_react hr) t)

/-- The normal form of white space: in front of the reference block no newline stands directly
behind a newline, no space directly behind a blank line, the start of a block, a quote or an item,
or the end of a block or a quote, and the stream begins with no space and no newline, whatever the
tokens and the options are. A line break may begin the stream, hard or made a blank line by the
white space behind it. -/
theorem convert_normalSpace {o : Options} {ts : List Html.Token} {out : List Token}
    (h : convert o ts = .ok out) :
    ∃ s, ({} : State).run o ts = (s, none) ∧
      out = s.body ++ (if s.context.references.isEmpty then []
        else State.referenceBlock s.context.references) ∧
      s.body.IsChain MayMeet ∧ ∀ u ∈ s.body.head?, MayOpen u := by
  obtain ⟨s, hs, rfl⟩ := Passes.of_convert h
  have hnormal : NormalSpace s.emitted.reverse :=
    hs.normalSpace ⟨List.isChain_nil, fun u hu => nomatch hu⟩
  have hbody : NormalSpace s.body := hnormal.of_prefix s.body_isPrefix
  exact ⟨s, hs.run_nil, s.finished_eq, hbody.chain, hbody.opens⟩

/-- White space around line breaks and paragraphs in its normal form. -/
theorem normal_space_around_breaks :
    let gap (text : String) : Html.Token := .spaceCharacters text
    let br : Html.Token := .emptyTag "br" ∅
    let ts := [gap " ", br, gap "\n", br, .characters "x", br, gap " ", .startTag "p" ∅, gap "\n",
      .characters "y", .endTag "p", gap " ", gap "\n"]
    convert {} ts = .ok [.newlineBlank, .html (.characters "x"), .newlineHard, .space,
        .startBlock, .html (.characters "y"), .endBlock, .newlineBlank] ∧
      ∃ s, ({} : State).run {} ts = (s, none) ∧
        s.body.IsChain MayMeet ∧ ∀ u ∈ s.body.head?, MayOpen u := by
  intro gap br ts
  have hout : convert {} ts = .ok [.newlineBlank, .html (.characters "x"), .newlineHard, .space,
      .startBlock, .html (.characters "y"), .endBlock, .newlineBlank] :=
    eq_ok_of_toOption (by decide +kernel)
  obtain ⟨s, hrun, -, hchain, hopens⟩ := convert_normalSpace hout
  exact ⟨hout, s, hrun, hchain, hopens⟩

end Conversion

end HtmlMarkdown
