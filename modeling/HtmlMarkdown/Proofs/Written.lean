import HtmlMarkdown.Proofs.Region

/-!
# What is written for a tag

`Writes o name t` lists the tokens that a tag of this name can lead to where it stands outside of
sensitive elements and opens none. A reaction is tame if it writes such tokens only, keeps what is
there, and opens with a block mark wherever it changes the number of open quotes.
-/

namespace HtmlMarkdown

def Markdown.Token.isBlockMark (t : Markdown.Token) : Bool :=
  t.tagIs Markdown.Tag.isBlockStart || t.tagIs Markdown.Tag.isBlockEnd

namespace Conversion

open Markdown (Token Bullet)

inductive Writes (o : Options) (name : String) : Token → Prop
  | startBlock : Writes o name .startBlock
  | endBlock : Writes o name .endBlock
  | startBlockquote : Writes o name .startBlockquote
  | endBlockquote : Writes o name .endBlockquote
  | heading (level : Nat) : Writes o name (.headingStart level)
  | item (depth : Nat) (bullet : Bullet) : Writes o name (.listItemStart depth bullet)
  | rule : Writes o name (.horizontalRule o.rule)
  | lineBreak : Writes o name .newlineHard
  | emphasis (strong : Bool) : Writes o name (emphasisMarker o strong)
  | fused : Writes o name (.boldItalic o.boldItalicMark)
  | image (src : String) (alt title : Option String) (reference : Option Nat) :
    Writes o name (.image src alt title reference)
  | link (href text : String) (title : Option String)
    (h : name = "a" ∨ Html.isBareLink name = true) : Writes o name (.anchorInline href text title)
  | referenceLink (text : String) (reference : Nat) (h : name = "a") :
    Writes o name (.anchorReferenceLink text reference)
  | selfLink (href : String) : Writes o name (.anchorSimple href)
  | address (text : String) (h : Html.isBareLink name = true) :
    Writes o name (.html (.characters text))
  | raw (t : Html.Token) (h : t.kind ≠ .characters) : Writes o name (.html t)

structure Reaction.Tame (r : Reaction) (o : Options) (name : String) (ctx : Context) : Prop where
  writes : ∀ t ∈ r.produced, Writes o name t
  keepsLast : r.replacesLast = false
  quotes : r.context.blockquote = ctx.blockquote ∨ r.produced.head?.any (·.isBlockMark) = true
  consumed : r.context.consumedText = ctx.consumedText ∨ name = "a"

variable {o : Options} {w : Window} {last : Option Token} {ctx ctx' : Context} {r : Reaction}
  {name : String}

theorem Reaction.Tame.of_quiet (hq : ctx'.blockquote = ctx.blockquote)
    (hc : ctx'.consumedText = ctx.consumedText) : (Reaction.quiet ctx').Tame o name ctx where
  writes := by simp [Reaction.quiet]
  keepsLast := rfl
  quotes := .inl hq
  consumed := .inl hc

theorem Reaction.Tame.of_remark (n : Notice) : (Reaction.remark ctx n).Tame o name ctx where
  writes := by simp [Reaction.remark]
  keepsLast := rfl
  quotes := .inl rfl
  consumed := .inl rfl

theorem Reaction.Tame.of_emit {ts : List Token} (hts : ∀ t ∈ ts, Writes o name t)
    (hq : ctx'.blockquote = ctx.blockquote ∨ ts.head?.any (·.isBlockMark) = true)
    (hc : ctx'.consumedText = ctx.consumedText) : (Reaction.emit ctx' ts).Tame o name ctx where
  writes := hts
  keepsLast := rfl
  quotes := hq
  consumed := .inl hc

theorem Reaction.Tame.of_emit_one {t : Token} (ht : Writes o name t)
    (hq : ctx'.blockquote = ctx.blockquote) (hc : ctx'.consumedText = ctx.consumedText) :
    (Reaction.emit ctx' [t]).Tame o name ctx :=
  .of_emit (by simpa using ht) (.inl hq) hc

theorem tame_paragraph {block : String} {opening : Bool} (h : paragraph block opening ctx = .ok r) :
    r.Tame o name ctx := by
  obtain ⟨_, _, rfl⟩ := paragraph_eq h
  cases opening with
  | true => exact .of_emit_one .startBlock rfl rfl
  | false => exact .of_emit_one .endBlock rfl rfl

theorem tame_heading {block : String} {level : Nat} {opening : Bool}
    (h : heading block level opening ctx = .ok r) : r.Tame o name ctx := by
  obtain ⟨_, rfl⟩ := heading_eq h
  cases opening with
  | true =>
    refine .of_emit ?_ (.inl rfl) rfl
    simpa using And.intro Writes.startBlock (Writes.heading level)
  | false => exact .of_emit_one .endBlock rfl rfl

theorem tame_quote {opening : Bool} (h : quote opening ctx = .ok r) : r.Tame o name ctx := by
  obtain ⟨_, _, rfl⟩ := quote_eq h
  cases opening with
  | true =>
    refine .of_emit ?_ (.inr rfl) rfl
    simpa using And.intro Writes.startBlock Writes.startBlockquote
  | false =>
    refine .of_emit ?_ (.inr rfl) rfl
    simpa using And.intro Writes.endBlockquote Writes.endBlock

theorem tame_openList (kind : Html.ListKind) : (openList kind ctx).Tame o name ctx := by
  obtain ⟨_, ⟨_, rfl⟩, h | h⟩ := openList_eq kind ctx <;> rw [h]
  · exact .of_quiet rfl rfl
  · exact .of_emit_one .startBlock rfl rfl

theorem tame_closeList {more : Bool} (h : closeList more ctx = .ok r) : r.Tame o name ctx := by
  obtain ⟨_, ⟨_, rfl⟩, rfl | rfl⟩ := closeList_eq h
  · exact .of_quiet rfl rfl
  · exact .of_emit_one .endBlock rfl rfl

theorem tame_item {opening : Bool} (h : item o opening ctx = .ok r) : r.Tame o name ctx := by
  cases opening with
  | true =>
    cases h
    refine .of_emit_one (.item _ _) ?_ ?_ <;> split <;> rfl
  | false =>
    obtain ⟨_, rfl⟩ := closeItem_eq h
    exact .of_quiet rfl rfl

theorem tame_emphasis (strong opening : Bool) :
    (emphasis o w strong opening ctx).Tame o name ctx := by
  obtain ⟨_, _, ⟨_, rfl⟩, rfl | rfl | rfl, h⟩ := emphasis_eq o w strong opening ctx <;> rw [h]
  · exact .of_emit (List.forall_mem_nil _) (.inl rfl) rfl
  · exact .of_emit_one .fused rfl rfl
  · exact .of_emit_one (.emphasis strong) rfl rfl

theorem tame_openAnchor (hk : w.token.kind ≠ .characters) :
    (openAnchor o w ctx).Tame o "a" ctx := by
  obtain h | h | ⟨href, _, _, t, -, -, ht, h⟩ := openAnchor_eq o w ctx <;> rw [h]
  · exact .of_emit_one (.raw _ hk) rfl rfl
  · exact .of_quiet rfl rfl
  · refine ⟨List.forall_mem_singleton.mpr ?_, rfl, .inl rfl, .inr rfl⟩
    obtain ⟨rfl, -⟩ | ⟨_, rfl⟩ | rfl := ht
    · exact .selfLink href
    · exact .referenceLink _ _ rfl
    · exact .link _ _ _ (.inl rfl)

theorem tame_closeAnchor (hk : w.token.kind ≠ .characters) (h : closeAnchor o w ctx = .ok r) :
    r.Tame o name ctx := by
  obtain ⟨_, ⟨-, rfl⟩ | ⟨_, -, rfl⟩⟩ := closeAnchor_eq h
  · exact .of_quiet rfl rfl
  · exact .of_emit_one (.raw _ hk) rfl rfl

theorem writes_linkTo {href text : String} (hb : Html.isBareLink name = true) :
    ∀ t ∈ linkTo o href text, Writes o name t := by
  unfold linkTo
  split_ifs
  · simpa using Writes.selfLink href
  · intro t ht
    simp only [List.mem_cons, List.not_mem_nil, or_false] at ht
    rcases ht with rfl | rfl | rfl
    · exact .raw _ (by simp [Html.Token.withAttribute, Html.Token.startTag])
    · exact .address text hb
    · exact .raw _ (by simp [Html.Token.endTag])
  · simpa using Writes.link href text none (.inr hb)

theorem tame_autolink {t : Html.Token} (hb : Html.isBareLink name = true) :
    (autolink o t ctx).Tame o name ctx := by
  unfold autolink
  dsimp only
  split_ifs
  · exact .of_remark _
  · exact .of_quiet rfl rfl
  · exact .of_emit (writes_linkTo hb) (.inl rfl) rfl
  · exact .of_emit (writes_linkTo hb) (.inl rfl) rfl

theorem tame_emptyPair {t : Html.Token} : (emptyPair o t name ctx).Tame o name ctx := by
  unfold emptyPair
  split_ifs with hb
  · exact tame_autolink hb
  · exact .of_remark _

theorem tame_otherTag {t : Html.Token} (hk : t.kind ≠ .characters) (h : otherTag o t ctx = .ok r) :
    r.Tame o name ctx := by
  have hraw : Writes o name (.html (o.clean t)) := .raw _ hk
  unfold otherTag at h
  dsimp only at h
  split_ifs at h <;> cases h
  · exact .of_quiet rfl rfl
  · exact .of_remark _
  · exact .of_emit_one (.raw _ hk) rfl rfl
  · refine .of_emit ?_ (.inl rfl) rfl
    simpa using And.intro Writes.startBlock hraw
  · refine .of_emit ?_ (.inl rfl) rfl
    simpa using And.intro hraw Writes.endBlock

theorem tame_image {t : Html.Token} (hk : t.kind ≠ .characters) :
    (image o t ctx).Tame o name ctx := by
  unfold image
  split
  · exact .of_emit_one (.raw _ hk) rfl rfl
  · split
    · exact .of_remark _
    · dsimp only
      split
      · exact .of_emit_one (.image _ _ _ _) rfl rfl
      · exact .of_emit_one (.image _ _ _ _) rfl rfl

theorem tame_emptyTag {t : Html.Token} (hk : t.kind ≠ .characters) :
    (emptyTag o t last ctx).Tame o name ctx := by
  unfold emptyTag lineBreak
  dsimp only
  split_ifs
  · exact tame_image hk
  · exact .of_quiet rfl rfl
  · exact .of_emit_one .lineBreak rfl rfl
  · refine .of_emit ?_ (.inl rfl) rfl
    simpa using ⟨Writes.startBlock, Writes.rule, Writes.endBlock⟩
  · exact .of_emit_one (.raw _ hk) rfl rfl
  · exact .of_remark _

/-- A tag of an element that is not sensitive has a tame answer, if it has any. -/
theorem tame_pairedTag (hk : w.token.kind ≠ .characters)
    (hs : Html.isSensitive w.token.tagName = false) (h : pairedTag o w ctx = .ok r) :
    r.Tame o w.token.tagName ctx := by
  unfold pairedTag at h
  dsimp only at h
  have hsens {role : Html.Role} (hr : Html.roleOf w.token.tagName = role)
      (hrole : role = .code ∨ role = .pre ∨ role = .script) : False := by
    have := Html.isSensitive_of_roleOf (hr ▸ hrole)
    simp [hs] at this
  cases hr : Html.roleOf w.token.tagName with
  | heading level => exact tame_heading (by rwa [hr] at h)
  | paragraph => exact tame_paragraph (by rwa [hr] at h)
  | division =>
    rw [hr] at h
    dsimp only at h
    split at h
    · exact tame_paragraph h
    · cases h
      exact .of_quiet rfl rfl
  | list kind =>
    rw [hr] at h
    dsimp only at h
    split at h
    · cases h
      exact tame_openList kind
    · exact tame_closeList h
  | item => exact tame_item (by rwa [hr] at h)
  | emphasis strong =>
    rw [hr] at h
    cases h
    exact tame_emphasis strong _
  | anchor =>
    have hn := Html.name_of_ownName? (show (Html.roleOf w.token.tagName).ownName? = some "a" by
      rw [hr]; rfl)
    rw [hr] at h
    change anchor o w (w.token.kind == .startTag) ctx = .ok r at h
    unfold anchor at h
    split at h
    · cases h
      rw [hn]
      exact tame_openAnchor hk
    · exact tame_closeAnchor hk h
  | quote => exact tame_quote (by rwa [hr] at h)
  | code => exact (hsens hr (.inl rfl)).elim
  | pre => exact (hsens hr (.inr (.inl rfl))).elim
  | script => exact (hsens hr (.inr (.inr rfl))).elim
  | bareLink =>
    rw [hr] at h
    cases h
    exact tame_autolink (Html.isBareLink_of_roleOf hr)
  | other => exact tame_otherTag hk (by rwa [hr] at h)

end Conversion

end HtmlMarkdown
