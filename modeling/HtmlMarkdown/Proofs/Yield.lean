import HtmlMarkdown.Proofs.Brackets

/-!
# What a step can write

`Yields o w t` lists the tokens that a step can write at a window, each with the part of the input
token and the options that it is made of. A raw tag is the token of the window, cleaned, or a tag of
the anchor around a bare link. `yields_of_react` shows that there are no others, for tokens in any
order, apart from what is kept as the content of a sensitive element.
-/

namespace HtmlMarkdown

inductive Options.Admits (o : Options) (name : String) : Prop
  | listed (h : o.isPassthrough name = true)
  | anchor (h : name = "a")
  | image (h : name = "img") (ho : o.imagesAsTags = true)

namespace Conversion

open Markdown (Token Bullet)

def markTags : List Markdown.Tag :=
  [.startBlock, .endBlock, .startBlockquote, .endBlockquote, .startCode, .endCode]

/-- The start tag of an anchor around a bare link stands for the start tag of the link. -/
structure BareAnchor (o : Options) (t : Html.Token) (href : String) : Prop where
  kind : t.kind = .startTag
  name : Html.isBareLink t.tagName = true
  address : href = t.tagName ∨ href = bareLinkUrl t.tagName t
  read : o.bareAutolinks = true
  asTag : o.anchorsAsTags = true

inductive Yields (o : Options) (w : Window) : Token → Prop
  | mark (tag : Markdown.Tag) (h : tag ∈ markTags) : Yields o w (.markdown tag "")
  | heading (level : Nat) : Yields o w (.headingStart level)
  | item (depth : Nat) (bullet : Bullet)
    (h : bullet = .mark o.bullet ∨ ∃ n, bullet = .ordinal n) :
    Yields o w (.listItemStart depth bullet)
  | rule : Yields o w (.horizontalRule o.rule)
  | lineBreak : Yields o w .newlineHard
  | gap (gap : Gap) : Yields o w gap.token
  | emphasis (strong : Bool) : Yields o w (emphasisMarker o strong)
  | fused : Yields o w (.boldItalic o.boldItalicMark)
  | text (s : String) : Yields o w (.html (.characters s))
  | line (s : String) : Yields o w (.charactersSplit s)
  | image {src : String} (reference : Option Nat)
    (h : w.token.filledAttribute? "src" = some src) :
    Yields o w (.image src (w.token.attribute? "alt") (w.token.filledAttribute? "title") reference)
  | selfLink (href : String) (h : o.simplifySelfLinks = true) : Yields o w (.anchorSimple href)
  | link {href text : String} (hn : w.token.tagName = "a")
    (hhref : w.token.filledAttribute? "href" = some href) (htext : w.flatText? = some text) :
    Yields o w (.anchorInline href (Text.flow true text) (w.token.filledAttribute? "title"))
  | referenceLink {text : String} (reference : Nat) (hn : w.token.tagName = "a")
    (htext : w.flatText? = some text) :
    Yields o w (.anchorReferenceLink (Text.flow true text) reference)
  | bareLink (href text : String) (h : Html.isBareLink w.token.tagName = true) :
    Yields o w (.anchorInline href text none)
  | bareStart {href : String} (h : BareAnchor o w.token href) :
    Yields o w (.html ((Html.Token.startTag "a" ∅).withAttribute "href" href))
  | bareEnd (h : Html.isBareLink w.token.tagName = true) : Yields o w (.html (.endTag "a"))
  | comment (h : w.token.kind = .comment) : Yields o w (.html w.token)
  | space (h : w.token.kind = .spaceCharacters) : Yields o w (.html w.token)
  | cleaned (h : o.Admits w.token.tagName) : Yields o w (.html (o.clean w.token))
  | native (edge : Markdown.Edge) (h : w.token.tagName = "pre" ∨ w.token.tagName = "script") :
    Yields o w (.native edge (o.clean w.token))

def Reaction.Yielding (r : Reaction) (o : Options) (w : Window) : Prop :=
  ∀ u ∈ r.produced, Yields o w u

variable {o : Options} {w : Window} {last : Option Token} {ctx ctx' : Context} {r : Reaction}

namespace Reaction.Yielding

theorem quiet : (Reaction.quiet ctx).Yielding o w := List.forall_mem_nil _

theorem remark (n : Notice) : (Reaction.remark ctx n).Yielding o w := List.forall_mem_nil _

theorem one {t : Token} (h : Yields o w t) : (Reaction.emit ctx [t]).Yielding o w :=
  List.forall_mem_singleton.mpr h

theorem two {t t' : Token} (h : Yields o w t) (h' : Yields o w t') :
    (Reaction.emit ctx [t, t']).Yielding o w :=
  List.forall_mem_cons.mpr ⟨h, List.forall_mem_singleton.mpr h'⟩

theorem three {t t' t'' : Token} (h : Yields o w t) (h' : Yields o w t') (h'' : Yields o w t'') :
    (Reaction.emit ctx [t, t', t'']).Yielding o w :=
  List.forall_mem_cons.mpr ⟨h, List.forall_mem_cons.mpr ⟨h', List.forall_mem_singleton.mpr h''⟩⟩

end Reaction.Yielding

open Reaction.Yielding

theorem yields_startBlock : Yields o w .startBlock := .mark .startBlock (by decide)

theorem yields_endBlock : Yields o w .endBlock := .mark .endBlock (by decide)

theorem yielding_paragraph {name : String} {opening : Bool}
    (h : paragraph name opening ctx = .ok r) : r.Yielding o w := by
  obtain ⟨_, _, rfl⟩ := paragraph_eq h
  cases opening with
  | true => exact one yields_startBlock
  | false => exact one yields_endBlock

theorem yielding_heading {name : String} {level : Nat} {opening : Bool}
    (h : heading name level opening ctx = .ok r) : r.Yielding o w := by
  obtain ⟨_, rfl⟩ := heading_eq h
  cases opening with
  | true => exact two yields_startBlock (.heading level)
  | false => exact one yields_endBlock

theorem yielding_quote {opening : Bool} (h : quote opening ctx = .ok r) : r.Yielding o w := by
  obtain ⟨_, _, rfl⟩ := quote_eq h
  cases opening with
  | true => exact two yields_startBlock (.mark .startBlockquote (by decide))
  | false => exact two (.mark .endBlockquote (by decide)) yields_endBlock

theorem yielding_openList (kind : Html.ListKind) : (openList kind ctx).Yielding o w := by
  obtain ⟨c, -, h | h⟩ := openList_eq kind ctx <;> rw [h]
  · exact quiet
  · exact one yields_startBlock

theorem yielding_closeList {more : Bool} (h : closeList more ctx = .ok r) : r.Yielding o w := by
  obtain ⟨c, -, rfl | rfl⟩ := closeList_eq h
  · exact quiet
  · exact one yields_endBlock

theorem yielding_item {opening : Bool} (h : item o opening ctx = .ok r) : r.Yielding o w := by
  cases opening with
  | true =>
    cases h
    refine one (.item _ _ ?_)
    split
    · exact .inr ⟨_, rfl⟩
    · exact .inl rfl
  | false =>
    obtain ⟨_, rfl⟩ := closeItem_eq h
    exact quiet

theorem yielding_emphasis (strong opening : Bool) :
    (emphasis o w strong opening ctx).Yielding o w := by
  obtain ⟨c, _, -, rfl | rfl | rfl, h⟩ := emphasis_eq o w strong opening ctx <;> rw [h]
  · exact quiet
  · exact one .fused
  · exact one (.emphasis strong)

theorem yielding_openAnchor (hn : w.token.tagName = "a") :
    (openAnchor o w ctx).Yielding o w := by
  obtain h | h | ⟨href, _, _, t, hhref, hflat, ht, h⟩ := openAnchor_eq o w ctx <;> rw [h]
  · exact one (.cleaned (.anchor hn))
  · exact quiet
  · obtain ⟨rfl, hself⟩ | ⟨_, rfl⟩ | rfl := ht
    · exact one (.selfLink href hself)
    · exact one (.referenceLink _ hn hflat)
    · exact one (.link hn hhref hflat)

theorem yielding_closeAnchor (hn : w.token.tagName = "a") (h : closeAnchor o w ctx = .ok r) :
    r.Yielding o w := by
  obtain ⟨_, ⟨-, rfl⟩ | ⟨_, -, rfl⟩⟩ := closeAnchor_eq h
  · exact quiet
  · exact one (.cleaned (.anchor hn))

theorem yielding_linkTo {href text : String} (hb : Html.isBareLink w.token.tagName = true)
    (h : o.anchorsAsTags = true → BareAnchor o w.token href) :
    (Reaction.emit ctx (linkTo o href text)).Yielding o w := by
  unfold linkTo
  split_ifs with hself htags
  · exact one (.selfLink href hself)
  · exact three (.bareStart (h htags)) (.text text) (.bareEnd hb)
  · exact one (.bareLink href text hb)

theorem yielding_autolink (hb : Html.isBareLink w.token.tagName = true) :
    (autolink o w.token ctx).Yielding o w := by
  unfold autolink
  dsimp only
  split_ifs with hoff hk hmail
  · exact remark _
  · exact quiet
  · refine yielding_linkTo hb fun htags => ⟨by simpa using hk, hb, .inl rfl, ?_, htags⟩
    simpa using hoff
  · refine yielding_linkTo hb fun htags => ⟨by simpa using hk, hb, .inr rfl, ?_, htags⟩
    simpa using hoff

theorem yielding_code {opening : Bool} (h : code opening ctx = .ok r) : r.Yielding o w := by
  obtain ⟨_, rfl⟩ := code_eq h
  cases opening with
  | true => exact one (.mark .startCode (by decide))
  | false => exact one (.mark .endCode (by decide))

theorem yielding_preformatted {opening : Bool} (hn : w.token.tagName = "pre")
    (h : preformatted o w opening ctx = .ok r) : r.Yielding o w := by
  have hedge (edge : Markdown.Edge) : Yields o w (.native edge (o.clean w.token)) :=
    .native edge (.inl hn)
  cases opening with
  | true =>
    cases h
    cases preMode o w with
    | paragraph => exact one yields_startBlock
    | native => exact two yields_startBlock (hedge .opening)
    | injectedCode =>
      exact three yields_startBlock (hedge .opening) (.mark .startCode (by decide))
  | false =>
    obtain ⟨mode, _, _, _, _, -, rfl⟩ := closePre_eq h
    cases mode with
    | paragraph => exact one yields_endBlock
    | native => exact two (hedge .closing) yields_endBlock
    | injectedCode =>
      exact three (.mark .endCode (by decide)) (hedge .closing) yields_endBlock

theorem yielding_script {opening : Bool} (hn : w.token.tagName = "script")
    (h : script o w opening ctx = .ok r) : r.Yielding o w := by
  have hedge (edge : Markdown.Edge) : Yields o w (.native edge (o.clean w.token)) :=
    .native edge (.inr hn)
  cases opening with
  | true =>
    cases h
    split_ifs
    · exact quiet
    · exact two yields_startBlock (hedge .opening)
  | false =>
    obtain ⟨_, rfl⟩ := closeScript_eq h
    exact two (hedge .closing) yields_endBlock

theorem yielding_otherTag (h : otherTag o w.token ctx = .ok r) : r.Yielding o w := by
  unfold otherTag at h
  dsimp only at h
  split_ifs at h with _ _ hlisted _ _ <;> cases h
  · exact quiet
  · exact remark _
  all_goals
    have hraw : Yields o w (.html (o.clean w.token)) :=
      .cleaned (.listed (by simpa using hlisted))
  · exact one hraw
  · exact two yields_startBlock hraw
  · exact two hraw yields_endBlock

theorem yielding_pairedTag (h : pairedTag o w ctx = .ok r) : r.Yielding o w := by
  have hname {own : String} (hown : (Html.roleOf w.token.tagName).ownName? = some own) :
      w.token.tagName = own := Html.name_of_ownName? hown
  unfold pairedTag at h
  dsimp only at h
  split at h
  · exact yielding_heading h
  · exact yielding_paragraph h
  · split at h
    · exact yielding_paragraph h
    · cases h
      exact quiet
  · split at h
    · cases h
      exact yielding_openList _
    · exact yielding_closeList h
  · exact yielding_item h
  · cases h
    exact yielding_emphasis _ _
  · next hrole =>
    have hn : w.token.tagName = "a" := hname (by rw [hrole]; rfl)
    unfold anchor at h
    split at h
    · cases h
      exact yielding_openAnchor hn
    · exact yielding_closeAnchor hn h
  · exact yielding_quote h
  · exact yielding_code h
  · next hrole => exact yielding_preformatted (hname (by rw [hrole]; rfl)) h
  · next hrole => exact yielding_script (hname (by rw [hrole]; rfl)) h
  · next hrole =>
    cases h
    exact yielding_autolink (Html.isBareLink_of_roleOf hrole)
  · exact yielding_otherTag h

theorem yielding_tag (h : tag o w ctx = .ok r) : r.Yielding o w := by
  unfold tag at h
  split at h
  · next name hname =>
    have hn : w.token.tagName = name := by
      rw [Html.Token.tagName, (Option.filter_eq_some_iff.mp hname).1]
      rfl
    cases h
    unfold emptyPair
    split_ifs with hb
    · exact yielding_autolink (hn ▸ hb)
    · exact remark _
  · exact yielding_pairedTag h

theorem yielding_image (hn : w.token.tagName = "img") : (image o w.token ctx).Yielding o w := by
  unfold image
  split
  · next htags => exact one (.cleaned (.image hn htags))
  · split
    · exact remark _
    · next src hsrc =>
      dsimp only
      split
      · exact one (.image _ hsrc)
      · exact one (.image _ hsrc)

theorem yielding_emptyTag : (emptyTag o w.token last ctx).Yielding o w := by
  unfold emptyTag lineBreak
  dsimp only
  split_ifs with himg _ _ _ hlisted
  · exact yielding_image himg
  · exact quiet
  · exact one .lineBreak
  · exact three yields_startBlock .rule yields_endBlock
  · exact one (.cleaned (.listed hlisted))
  · exact remark _

theorem yielding_characters : (characters w ctx).Yielding o w := by
  unfold characters
  split_ifs
  · exact quiet
  · intro u hu
    rcases mem_textTokens hu with ⟨s, rfl⟩ | ⟨s, rfl⟩ | rfl
    · exact .text s
    · exact .line s
    · exact .gap .newline

theorem yielding_spaceCharacters (hk : w.token.kind = .spaceCharacters) :
    (spaceCharacters w.token last ctx).Yielding o w := by
  unfold spaceCharacters
  rcases settleSpace_cases w.token last (0 < ctx.sensitive) ctx.inList with
    heq | heq | ⟨gap, heq⟩ | ⟨heq, -⟩
  · rw [heq]
    exact quiet
  · rw [heq]
    exact one (.space hk)
  · rw [heq]
    exact one (.gap gap)
  · rw [heq]
    exact List.forall_mem_singleton.mpr (.gap .blank)

theorem yielding_ordinary (h : ordinary o w last ctx = .ok r) : r.Yielding o w := by
  unfold ordinary at h
  split at h
  · exact yielding_tag h
  · exact yielding_tag h
  · cases h
    exact yielding_emptyTag
  · cases h
    exact yielding_characters
  · next hk =>
    cases h
    exact yielding_spaceCharacters hk
  · next hk =>
    cases h
    split_ifs
    · exact quiet
    · exact one (.comment hk)
  · cases h
    exact remark _
  · cases h
    exact remark _

/-- The content of a sensitive element leaves the element open. -/
theorem sensitive_pos_of_insideSensitive {t : Html.Token} (hs : 0 < ctx.sensitive)
    (h : insideSensitive t ctx = some r) : 0 < r.context.sensitive := by
  unfold insideSensitive at h
  split_ifs at h with _ _ hend <;> cases h
  · exact hs
  · exact Nat.succ_pos _
  · exact Nat.sub_pos_of_lt hend.2

theorem produced_insideStripped (t : Html.Token) (ctx : Context) :
    (insideStripped t ctx).produced = [] := by
  unfold insideStripped
  split_ifs
  · rfl
  · split <;> rfl

/-- Where no sensitive element is open before a step or none is behind it, everything that the step
writes is listed. -/
theorem yields_of_react (h : react o w last ctx = .ok r)
    (hfree : ctx.sensitive = 0 ∨ r.context.sensitive = 0) : r.Yielding o w := by
  cases hreg : ctx.region o with
  | stripped =>
    rw [react_of_stripped hreg] at h
    cases h
    intro u hu
    rw [produced_insideStripped] at hu
    cases hu
  | ordinary =>
    rw [react_of_ordinary hreg] at h
    exact yielding_ordinary h
  | sensitive =>
    have hs := (Context.region_eq_sensitive_iff.mp hreg).2
    cases hin : insideSensitive w.token ctx with
    | none =>
      rw [react_eq_ordinary (by simp [hreg]) fun _ => hin] at h
      exact yielding_ordinary h
    | some r' =>
      rw [react_of_insideSensitive hreg hin] at h
      cases h
      have := sensitive_pos_of_insideSensitive hs hin
      omega

end Conversion

end HtmlMarkdown
