import HtmlMarkdown.Proofs.Brackets

/-!
# What one token can do

`Handles o w last ctx r` lists the reactions to a token, one constructor for each form of Markdown
that a step can write. `handles_of_react` shows that there are no others, for tokens in any order.
Quotes and lists have constructors with a context of their own: nothing else changes the number of
open quotes, or whether a list is to be continued.
-/

namespace HtmlMarkdown.Html

theorem roleOf_of_isSensitive {name : String} (h : isSensitive name = true) :
    roleOf name = .code ∨ roleOf name = .pre ∨ roleOf name = .script := by
  have hall : ∀ n ∈ sensitiveElements,
      roleOf n = .code ∨ roleOf n = .pre ∨ roleOf n = .script := by decide
  exact hall name (by simpa [isSensitive] using h)

theorem one_le_of_roleOf_heading {name : String} {level : Nat} (h : roleOf name = .heading level) :
    1 ≤ level := by
  have hall : ∀ n ∈ ruledNames, (roleOf n matches .heading _) = false := by decide
  have hm : name ∉ ruledNames := fun hm => by simpa [h] using hall name hm
  rw [roleOf_of_not_mem_ruledNames hm] at h
  cases hl : headingLevel? name with
  | none =>
    rw [hl] at h
    dsimp only at h
    split at h <;> cases h
  | some found =>
    rw [hl] at h
    obtain rfl : found = level := Role.heading.inj h
    unfold headingLevel? at hl
    split at hl
    · have hlevel := (Option.filter_eq_some_iff.mp hl).2
      simp only [Bool.and_eq_true, decide_eq_true_eq] at hlevel
      exact hlevel.1
    · cases hl

end HtmlMarkdown.Html

namespace HtmlMarkdown.Conversion

open Markdown (Token Bullet)

structure Context.Retains (ctx c : Context) : Prop where
  quotes : c.blockquote = ctx.blockquote
  lists : c.lists.map ListFrame.kind = ctx.lists.map ListFrame.kind
  continuation : c.listContinuation = ctx.listContinuation
  references : c.references = ctx.references

theorem Context.Retains.refl (ctx : Context) : ctx.Retains ctx := ⟨rfl, rfl, rfl, rfl⟩

/-- The tag is one of an element with content that plays its part: it is neither kept nor left out
as the content of another element. -/
structure Window.Plays (o : Options) (w : Window) (ctx : Context) (role : Html.Role) : Prop where
  role : Html.roleOf w.token.tagName = role
  region : ctx.region o = .ordinary
  content : w.token.name.filter w.isEmptyPair = none

inductive Handles (o : Options) (w : Window) (last : Option Token) (ctx : Context) :
    Reaction → Prop
  | nothing {c : Context} (notices : List Notice) (hc : ctx.Retains c) :
      Handles o w last ctx { context := c, notices }
  | verbatim {c : Context} (hc : ctx.Retains c)
      (h : 0 < ctx.sensitive ∨ w.token.kind = .comment) :
      Handles o w last ctx (.emit c [.html w.token])
  | cleaned {c : Context} (hc : ctx.Retains c) (h : w.token.isTag = true) :
      Handles o w last ctx (.emit c [.html (o.clean w.token)])
  | opensBlock {c : Context} (hk : w.token.kind = .startTag) (hc : ctx.Retains c) :
      Handles o w last ctx (.emit c [.startBlock])
  | closesBlock {c : Context} (hk : w.token.kind = .endTag) (hc : ctx.Retains c) :
      Handles o w last ctx (.emit c [.endBlock])
  | opensHeading {c : Context} (level : Nat) (hk : w.token.kind = .startTag) (hc : ctx.Retains c)
      (hlevel : 1 ≤ level) :
      Handles o w last ctx (.emit c [.startBlock, .headingStart level])
  | opensQuote {c : Context} (hk : w.token.kind = .startTag) (hp : w.Plays o ctx .quote)
      (hc : ctx.Retains c) : Handles o w last ctx
        (.emit { c with blockquote := ctx.blockquote + 1 } [.startBlock, .startBlockquote])
  | closesQuote {c : Context} (n : Nat) (hk : w.token.kind = .endTag) (hp : w.Plays o ctx .quote)
      (hc : ctx.Retains c) : Handles o w last ctx
        (.emit { c with blockquote := n } [.endBlockquote, .endBlock])
  | opensWrapped {c : Context} (hk : w.token.kind = .startTag) (hc : ctx.Retains c) :
      Handles o w last ctx (.emit c [.startBlock, .html (o.clean w.token)])
  | closesWrapped {c : Context} (hk : w.token.kind = .endTag) (hc : ctx.Retains c) :
      Handles o w last ctx (.emit c [.html (o.clean w.token), .endBlock])
  | opensList (kind : Html.ListKind) (hk : w.token.kind = .startTag)
      (hp : w.Plays o ctx (.list kind)) : Handles o w last ctx (openList kind ctx)
  | closesList {r : Reaction} (kind : Html.ListKind) (hk : w.token.kind = .endTag)
      (hp : w.Plays o ctx (.list kind)) (h : closeList w.listFollows ctx = .ok r) :
      Handles o w last ctx r
  | opensItem {c : Context} (depth : Nat) (bullet : Bullet) (hk : w.token.kind = .startTag)
      (hb : bullet = .mark o.bullet ∨ ∃ n, bullet = .ordinal n) (hc : ctx.Retains c) :
      Handles o w last ctx (.emit c [.listItemStart depth bullet])
  | emphasis {c : Context} (strong : Bool) (hc : ctx.Retains c) :
      Handles o w last ctx (.emit c [emphasisMarker o strong])
  | fused {c : Context} (hc : ctx.Retains c) :
      Handles o w last ctx (.emit c [.boldItalic o.boldItalicMark])
  | selfLink {c : Context} {href : String} (hk : w.token.kind = .startTag)
      (hhref : w.token.filledAttribute? "href" = some href) (hc : ctx.Retains c) :
      Handles o w last ctx (.emit c [.anchorSimple href])
  | inlineLink {c : Context} {href text : String} (hk : w.token.kind = .startTag)
      (hhref : w.token.filledAttribute? "href" = some href) (htext : w.flatText? = some text)
      (hc : ctx.Retains c) : Handles o w last ctx (.emit c
        [.anchorInline href (Text.flow true text) (w.token.filledAttribute? "title")])
  | referenceLink {c : Context} {href text : String} (hk : w.token.kind = .startTag)
      (hhref : w.token.filledAttribute? "href" = some href) (htext : w.flatText? = some text)
      (hc : ctx.Retains c) : Handles o w last ctx (.emit
        { c with references := ctx.references.register href (w.token.filledAttribute? "title") }
        [.anchorReferenceLink (Text.flow true text) (ctx.references.number href)])
  | mailLink {c : Context} (hc : ctx.Retains c) : Handles o w last ctx (.emit c
      (linkTo o w.token.tagName (Html.mailAddress w.token.tagName)))
  | schemeLink {c : Context} (hc : ctx.Retains c) : Handles o w last ctx (.emit c
      (linkTo o (bareLinkUrl w.token.tagName w.token) (bareLinkUrl w.token.tagName w.token)))
  | opensCode {c : Context} (hk : w.token.kind = .startTag)
      (hn : Html.isSensitive w.token.tagName = true) (hc : ctx.Retains c) :
      Handles o w last ctx (.emit c [.startCode])
  | closesCode {c : Context} (hk : w.token.kind = .endTag)
      (hn : Html.isSensitive w.token.tagName = true) (hc : ctx.Retains c) :
      Handles o w last ctx (.emit c [.endCode])
  | opensNative {c : Context} (hk : w.token.kind = .startTag)
      (hn : Html.isSensitive w.token.tagName = true) (hc : ctx.Retains c) :
      Handles o w last ctx (.emit c [.startBlock, .native .opening (o.clean w.token)])
  | closesNative {c : Context} (hk : w.token.kind = .endTag)
      (hn : Html.isSensitive w.token.tagName = true) (hc : ctx.Retains c) :
      Handles o w last ctx (.emit c [.native .closing (o.clean w.token), .endBlock])
  | opensInjected {c : Context} (hk : w.token.kind = .startTag)
      (hn : Html.isSensitive w.token.tagName = true) (hc : ctx.Retains c) :
      Handles o w last ctx (.emit c
        [.startBlock, .native .opening (o.clean w.token), .startCode])
  | closesInjected {c : Context} (hk : w.token.kind = .endTag)
      (hn : Html.isSensitive w.token.tagName = true) (hc : ctx.Retains c) :
      Handles o w last ctx (.emit c
        [.endCode, .native .closing (o.clean w.token), .endBlock])
  | inlineImage {c : Context} {src : String} (hk : w.token.kind = .emptyTag)
      (hsrc : w.token.filledAttribute? "src" = some src) (hc : ctx.Retains c) :
      Handles o w last ctx (.emit c [.image src (w.token.attribute? "alt")
        (w.token.filledAttribute? "title") none])
  | referenceImage {c : Context} {src : String} (hk : w.token.kind = .emptyTag)
      (hsrc : w.token.filledAttribute? "src" = some src) (hc : ctx.Retains c) :
      Handles o w last ctx (.emit
        { c with references := ctx.references.register src (w.token.filledAttribute? "title") }
        [.image src (w.token.attribute? "alt") (w.token.filledAttribute? "title")
          (some (ctx.references.number src))])
  | lineBreak {c : Context} (hk : w.token.kind = .emptyTag) (hc : ctx.Retains c) :
      Handles o w last ctx (.emit c [.newlineHard])
  | rule {c : Context} (hk : w.token.kind = .emptyTag) (hc : ctx.Retains c) :
      Handles o w last ctx (.emit c [.startBlock, .horizontalRule o.rule, .endBlock])
  | text {c : Context} (hk : w.token.kind = .characters) (hc : ctx.Retains c) :
      Handles o w last ctx (.emit c
        (textTokens (Text.flowChars (0 < ctx.paragraph) w.token.content.toList)))
  | gap {c : Context} (gap : Gap) (hk : w.token.kind = .spaceCharacters) (hc : ctx.Retains c) :
      Handles o w last ctx (.emit c [gap.token])
  | blankLine {c : Context} {u : Token} (hk : w.token.kind = .spaceCharacters)
      (hlast : last = some u) (hu : u.isNewline = true) (hc : ctx.Retains c) :
      Handles o w last ctx { context := c, produced := [.newlineBlank], replacesLast := true }

variable {o : Options} {w : Window} {last : Option Token} {ctx ctx' : Context} {r : Reaction}

theorem Handles.quiet {c : Context} (hc : ctx.Retains c) : Handles o w last ctx (.quiet c) :=
  .nothing [] hc

theorem Handles.remark {c : Context} (n : Notice) (hc : ctx.Retains c) :
    Handles o w last ctx (.remark c n) :=
  .nothing [n] hc

theorem handles_paragraph {name : String} {opening : Bool}
    (hk : w.token.kind = if opening then .startTag else .endTag)
    (h : paragraph name opening ctx = .ok r) : Handles o w last ctx r := by
  obtain ⟨_, _, rfl⟩ := paragraph_eq h
  cases opening with
  | true => exact .opensBlock hk ⟨rfl, rfl, rfl, rfl⟩
  | false => exact .closesBlock hk ⟨rfl, rfl, rfl, rfl⟩

theorem handles_heading {name : String} {level : Nat} {opening : Bool} (hlevel : 1 ≤ level)
    (hk : w.token.kind = if opening then .startTag else .endTag)
    (h : heading name level opening ctx = .ok r) : Handles o w last ctx r := by
  obtain ⟨_, rfl⟩ := heading_eq h
  cases opening with
  | true => exact .opensHeading level hk ⟨rfl, rfl, rfl, rfl⟩ hlevel
  | false => exact .closesBlock hk ⟨rfl, rfl, rfl, rfl⟩

theorem handles_quote {opening : Bool} (hp : w.Plays o ctx .quote)
    (hk : w.token.kind = if opening then .startTag else .endTag)
    (h : quote opening ctx = .ok r) : Handles o w last ctx r := by
  cases opening with
  | true =>
    cases h
    exact .opensQuote (c := ctx.openBlock "blockquote") hk hp ⟨rfl, rfl, rfl, rfl⟩
  | false =>
    obtain ⟨n, blocks, rfl⟩ := quote_eq h
    exact .closesQuote (c := { ctx with blocks }) n hk hp ⟨rfl, rfl, rfl, rfl⟩

theorem handles_item {opening : Bool} (hk : w.token.kind = if opening then .startTag else .endTag)
    (h : item o opening ctx = .ok r) : Handles o w last ctx r := by
  cases opening with
  | true =>
    cases h
    split
    · next count outer hl =>
      refine .opensItem _ _ hk (.inr ⟨count + 1, rfl⟩) ⟨rfl, ?_, rfl, rfl⟩
      have hlists : ctx.lists = ⟨.ordered, count⟩ :: outer := hl
      simp [hlists]
    · exact .opensItem _ _ hk (.inl rfl) ⟨rfl, rfl, rfl, rfl⟩
  | false =>
    obtain ⟨_, rfl⟩ := closeItem_eq h
    exact .quiet ⟨rfl, rfl, rfl, rfl⟩

theorem handles_emphasis (strong opening : Bool) :
    Handles o w last ctx (emphasis o w strong opening ctx) := by
  unfold Conversion.emphasis
  split
  · next fusion _ =>
    cases fusion with
    | emit => exact .fused ⟨rfl, rfl, rfl, rfl⟩
    | swallow => exact .quiet ⟨rfl, rfl, rfl, rfl⟩
  · split
    · exact .fused ⟨rfl, rfl, rfl, rfl⟩
    · exact .emphasis strong (.refl ctx)

theorem handles_openAnchor (hk : w.token.kind = .startTag) :
    Handles o w last ctx (openAnchor o w ctx) := by
  unfold openAnchor
  dsimp only
  split
  · exact .cleaned ⟨rfl, rfl, rfl, rfl⟩ (Html.Token.isTag_iff.mpr (.inl hk))
  · next text htext =>
    have hflat : w.flatText? = some text := by
      split at htext
      · cases htext
      · exact htext
    split
    · exact .quiet ⟨rfl, rfl, rfl, rfl⟩
    · next href hhref =>
      unfold linkToken
      split_ifs
      · exact .selfLink hk hhref ⟨rfl, rfl, rfl, rfl⟩
      · exact .referenceLink (c := { ctx.enter .anchor with consumedText := some (w.index + 1) })
          hk hhref hflat ⟨rfl, rfl, rfl, rfl⟩
      · exact .inlineLink hk hhref hflat ⟨rfl, rfl, rfl, rfl⟩

theorem handles_closeAnchor (hk : w.token.kind = .endTag) (h : closeAnchor o w ctx = .ok r) :
    Handles o w last ctx r := by
  obtain ⟨_, ⟨-, rfl⟩ | ⟨_, -, rfl⟩⟩ := closeAnchor_eq h
  · exact .quiet ⟨rfl, rfl, rfl, rfl⟩
  · exact .cleaned ⟨rfl, rfl, rfl, rfl⟩ (Html.Token.isTag_iff.mpr (.inr (.inl hk)))

theorem handles_autolink : Handles o w last ctx (autolink o w.token ctx) := by
  unfold autolink
  dsimp only
  split_ifs
  · exact .remark _ (.refl ctx)
  · exact .quiet (.refl ctx)
  · exact .mailLink (.refl ctx)
  · exact .schemeLink (.refl ctx)

theorem handles_code {opening : Bool} (hn : Html.isSensitive w.token.tagName = true)
    (hk : w.token.kind = if opening then .startTag else .endTag)
    (h : code opening ctx = .ok r) : Handles o w last ctx r := by
  obtain ⟨_, rfl⟩ := code_eq h
  cases opening with
  | true => exact .opensCode hk hn ⟨rfl, rfl, rfl, rfl⟩
  | false => exact .closesCode hk hn ⟨rfl, rfl, rfl, rfl⟩

theorem handles_openPre (mode : PreMode) (hn : Html.isSensitive w.token.tagName = true)
    (hk : w.token.kind = .startTag) :
    Handles o w last ctx (openPre mode (o.clean w.token) ctx) := by
  cases mode with
  | paragraph => exact .opensBlock hk ⟨rfl, rfl, rfl, rfl⟩
  | native => exact .opensNative hk hn ⟨rfl, rfl, rfl, rfl⟩
  | injectedCode => exact .opensInjected hk hn ⟨rfl, rfl, rfl, rfl⟩

theorem handles_closePre (hn : Html.isSensitive w.token.tagName = true)
    (hk : w.token.kind = .endTag) (h : closePre (o.clean w.token) ctx = .ok r) :
    Handles o w last ctx r := by
  obtain ⟨mode, _, _, _, _, -, rfl⟩ := closePre_eq h
  cases mode with
  | paragraph => exact .closesBlock hk ⟨rfl, rfl, rfl, rfl⟩
  | native => exact .closesNative hk hn ⟨rfl, rfl, rfl, rfl⟩
  | injectedCode => exact .closesInjected hk hn ⟨rfl, rfl, rfl, rfl⟩

theorem handles_script {opening : Bool} (hn : Html.isSensitive w.token.tagName = true)
    (hk : w.token.kind = if opening then .startTag else .endTag)
    (h : script o w opening ctx = .ok r) : Handles o w last ctx r := by
  cases opening with
  | true =>
    cases h
    split_ifs
    · exact .quiet ⟨rfl, rfl, rfl, rfl⟩
    · exact .opensNative hk hn ⟨rfl, rfl, rfl, rfl⟩
  | false =>
    obtain ⟨_, rfl⟩ := closeScript_eq h
    exact .closesNative hk hn ⟨rfl, rfl, rfl, rfl⟩

theorem handles_otherTag (hk : w.token.kind = .startTag ∨ w.token.kind = .endTag)
    (h : otherTag o w.token ctx = .ok r) : Handles o w last ctx r := by
  have htag : w.token.isTag = true := Html.Token.isTag_iff.mpr (hk.imp_right .inl)
  unfold otherTag at h
  dsimp only at h
  split_ifs at h with _ _ _ _ hs <;> cases h
  · exact .quiet (.refl ctx)
  · exact .remark _ (.refl ctx)
  · exact .cleaned (.refl ctx) htag
  · exact .opensWrapped hs (.refl ctx)
  · exact .closesWrapped (hk.resolve_left hs) (.refl ctx)

/-- A list or a quote plays its part; a sensitive element may be answered where its region is not
ordinary, at its end tag. -/
theorem handles_pairedTag (hk : w.token.kind = .startTag ∨ w.token.kind = .endTag)
    (hregion : Html.isSensitive w.token.tagName = false → ctx.region o = .ordinary)
    (hcontent : w.token.name.filter w.isEmptyPair = none)
    (h : pairedTag o w ctx = .ok r) : Handles o w last ctx r := by
  have hedge : w.token.kind =
      if (w.token.kind == .startTag) = true then .startTag else .endTag := by
    rcases hk with hk | hk <;> simp [hk]
  have not_sensitive (hne : ¬(Html.roleOf w.token.tagName = .code ∨
      Html.roleOf w.token.tagName = .pre ∨ Html.roleOf w.token.tagName = .script)) :
      Html.isSensitive w.token.tagName = false := by
    by_contra hs
    exact hne (Html.roleOf_of_isSensitive (by simpa using hs))
  unfold pairedTag at h
  dsimp only at h
  split at h
  · next level hrole => exact handles_heading (Html.one_le_of_roleOf_heading hrole) hedge h
  · exact handles_paragraph hedge h
  · split at h
    · exact handles_paragraph hedge h
    · cases h
      exact .quiet (.refl ctx)
  · next kind hrole =>
    have hp : w.Plays o ctx (.list kind) :=
      ⟨hrole, hregion (not_sensitive (by simp [hrole])), hcontent⟩
    split at h
    · next hs =>
      cases h
      exact .opensList kind (by simpa using hs) hp
    · next hs => exact .closesList kind (hk.resolve_left (by simpa using hs)) hp h
  · exact handles_item hedge h
  · cases h
    exact handles_emphasis _ _
  · unfold anchor at h
    split at h
    · next hs =>
      cases h
      exact handles_openAnchor (by simpa using hs)
    · next hs => exact handles_closeAnchor (hk.resolve_left (by simpa using hs)) h
  · next hrole =>
    exact handles_quote ⟨hrole, hregion (not_sensitive (by simp [hrole])), hcontent⟩ hedge h
  · next hrole => exact handles_code (Html.isSensitive_of_roleOf (.inl hrole)) hedge h
  · next hrole =>
    have hn := Html.isSensitive_of_roleOf (.inr (.inl hrole))
    unfold preformatted at h
    split at h
    · next hs =>
      cases h
      exact handles_openPre _ hn (by simpa using hs)
    · next hs => exact handles_closePre hn (hk.resolve_left (by simpa using hs)) h
  · next hrole => exact handles_script (Html.isSensitive_of_roleOf (.inr (.inr hrole))) hedge h
  · cases h
    exact handles_autolink
  · exact handles_otherTag hk h

theorem handles_tag (hk : w.token.kind = .startTag ∨ w.token.kind = .endTag)
    (hregion : Html.isSensitive w.token.tagName = false → ctx.region o = .ordinary)
    (h : tag o w ctx = .ok r) : Handles o w last ctx r := by
  unfold tag at h
  split at h
  · cases h
    unfold emptyPair
    split_ifs
    · exact handles_autolink
    · exact .remark _ (.refl ctx)
  · next hnone => exact handles_pairedTag hk hregion hnone h

theorem handles_image (hk : w.token.kind = .emptyTag) :
    Handles o w last ctx (image o w.token ctx) := by
  unfold image
  split
  · exact .cleaned (.refl ctx) (Html.Token.isTag_iff.mpr (.inr (.inr hk)))
  · split
    · exact .remark _ (.refl ctx)
    · next src hsrc =>
      dsimp only
      split
      · exact .referenceImage hk hsrc (.refl ctx)
      · exact .inlineImage hk hsrc (.refl ctx)

theorem handles_emptyTag (hk : w.token.kind = .emptyTag) :
    Handles o w last ctx (emptyTag o w.token last ctx) := by
  unfold emptyTag
  dsimp only
  split_ifs
  · exact handles_image hk
  · unfold Conversion.lineBreak
    split_ifs
    · exact .quiet (.refl ctx)
    · exact .lineBreak hk (.refl ctx)
  · exact .rule hk (.refl ctx)
  · exact .cleaned (.refl ctx) (Html.Token.isTag_iff.mpr (.inr (.inr hk)))
  · exact .remark _ (.refl ctx)

theorem handles_characters (hk : w.token.kind = .characters) :
    Handles o w last ctx (characters w ctx) := by
  unfold characters
  split_ifs
  · exact .quiet ⟨rfl, rfl, rfl, rfl⟩
  · exact .text hk (.refl ctx)

theorem handles_spaceCharacters (hk : w.token.kind = .spaceCharacters) :
    Handles o w last ctx (spaceCharacters w.token last ctx) := by
  unfold spaceCharacters
  by_cases hs : 0 < ctx.sensitive
  · have hraw : settleSpace w.token last (0 < ctx.sensitive) ctx.inList =
        .push (.html w.token) := by
      simp [settleSpace, hs]
    rw [hraw]
    exact .verbatim (.refl ctx) (.inl hs)
  · have hkept : settleSpace w.token last (0 < ctx.sensitive) ctx.inList ≠
        .push (.html w.token) := by
      have hgap (g : Gap) : g.token ≠ .html w.token := by cases g <;> simp [Gap.token, Token.html,
        Markdown.Token.space, Markdown.Token.newline, Markdown.Token.newlineBlank, Token.markdown]
      simp only [settleSpace, hs, Gap.behind]
      have hblank := hgap .blank
      have hg := hgap (Gap.ofText w.token.content)
      simp only [Gap.token] at hblank
      split_ifs <;> simp_all
    rcases settleSpace_cases w.token last (0 < ctx.sensitive) ctx.inList with
      heq | heq | ⟨gap, heq⟩ | ⟨heq, u, hlast, hu⟩
    · rw [heq]
      exact .quiet (.refl ctx)
    · exact absurd heq hkept
    · rw [heq]
      exact .gap gap hk (.refl ctx)
    · rw [heq]
      exact .blankLine hk hlast hu (.refl ctx)

theorem handles_ordinary
    (hregion : Html.isSensitive w.token.tagName = false → ctx.region o = .ordinary)
    (h : ordinary o w last ctx = .ok r) : Handles o w last ctx r := by
  unfold ordinary at h
  split at h
  · next hk => exact handles_tag (.inl hk) hregion h
  · next hk => exact handles_tag (.inr hk) hregion h
  · next hk => cases h; exact handles_emptyTag hk
  · next hk => cases h; exact handles_characters hk
  · next hk => cases h; exact handles_spaceCharacters hk
  · next hk =>
    cases h
    split_ifs
    · exact .quiet (.refl ctx)
    · exact .verbatim (.refl ctx) (.inr hk)
  · cases h
    exact .remark _ (.refl ctx)
  · cases h
    exact .remark _ (.refl ctx)

theorem handles_insideStripped (t : Html.Token) : Handles o w last ctx (insideStripped t ctx) := by
  unfold insideStripped
  split_ifs
  · exact .quiet (.refl ctx)
  · split <;> exact .quiet ⟨rfl, rfl, rfl, rfl⟩

theorem handles_insideSensitive (hs : 0 < ctx.sensitive)
    (h : insideSensitive w.token ctx = some r) : Handles o w last ctx r := by
  unfold insideSensitive nestedSensitive at h
  split_ifs at h with hplain hstart _ hend <;> cases h
  · exact .verbatim (.refl ctx) (.inl hs)
  · exact .opensCode hstart (by simpa using hplain) ⟨rfl, rfl, rfl, rfl⟩
  · exact .verbatim ⟨rfl, rfl, rfl, rfl⟩ (.inl hs)
  · exact .closesCode hend.1 (by simpa using hplain) ⟨rfl, rfl, rfl, rfl⟩
  · exact .verbatim ⟨rfl, rfl, rfl, rfl⟩ (.inl hs)

/-- Every reaction is one of those listed. -/
theorem handles_of_react (h : react o w last ctx = .ok r) : Handles o w last ctx r := by
  cases hreg : ctx.region o with
  | stripped =>
    rw [react_of_stripped hreg] at h
    cases h
    exact handles_insideStripped _
  | sensitive =>
    cases hin : insideSensitive w.token ctx with
    | some r' =>
      rw [react_of_insideSensitive hreg hin] at h
      cases h
      exact handles_insideSensitive (Context.region_eq_sensitive_iff.mp hreg).2 hin
    | none =>
      rw [react_eq_ordinary (by simp [hreg]) fun _ => hin] at h
      exact handles_ordinary (fun hn => by simp [insideSensitive, hn] at hin) h
  | ordinary =>
    rw [react_of_ordinary hreg] at h
    exact handles_ordinary (fun _ => hreg) h

/-- A tag that plays its part is answered by it. -/
theorem react_of_plays {role : Html.Role} (hp : w.Plays o ctx role)
    (hk : w.token.kind = .startTag ∨ w.token.kind = .endTag) :
    react o w last ctx = pairedTag o w ctx := by
  rw [react_of_ordinary hp.region, ordinary]
  rcases hk with hk | hk <;> simp only [hk, tag, hp.content]

theorem react_openList {kind : Html.ListKind} (hp : w.Plays o ctx (.list kind))
    (hk : w.token.kind = .startTag) : react o w last ctx = .ok (openList kind ctx) := by
  rw [react_of_plays hp (.inl hk)]
  simp [pairedTag, hp.role, hk]

theorem react_closeList {kind : Html.ListKind} (hp : w.Plays o ctx (.list kind))
    (hk : w.token.kind = .endTag) : react o w last ctx = closeList w.listFollows ctx := by
  rw [react_of_plays hp (.inr hk)]
  simp [pairedTag, hp.role, hk]

/-- Only a newline is ever replaced. -/
theorem Handles.isNewline_of_replacesLast (h : Handles o w last ctx r)
    (hr : r.replacesLast = true) : ∃ u, last = some u ∧ u.isNewline = true := by
  cases h with
  | blankLine hk hlast hu hc => exact ⟨_, hlast, hu⟩
  | opensList kind hk hp =>
    obtain ⟨c, -, h | h⟩ := openList_eq kind ctx <;> rw [h] at hr <;> cases hr
  | closesList kind hk hp h => obtain ⟨c, -, rfl | rfl⟩ := closeList_eq h <;> cases hr
  | _ => cases hr

/-- Only the tags of a quote that plays its part change the number of open quotes. -/
theorem Handles.quotes (h : Handles o w last ctx r) (hq : ¬w.Plays o ctx .quote) :
    r.context.blockquote = ctx.blockquote := by
  cases h with
  | opensQuote hk hp hc | closesQuote n hk hp hc => exact absurd hp hq
  | opensList kind hk hp =>
    obtain ⟨_, ⟨_, rfl⟩, h | h⟩ := openList_eq kind ctx <;> rw [h] <;> rfl
  | closesList kind hk hp h =>
    obtain ⟨_, ⟨_, rfl⟩, rfl | rfl⟩ := closeList_eq h <;> rfl
  | nothing notices hc => exact hc.quotes
  | referenceLink hk hhref htext hc => exact hc.quotes
  | referenceImage hk hsrc hc => exact hc.quotes
  | blankLine hk hlast hu hc => exact hc.quotes
  | _ => exact Context.Retains.quotes ‹ctx.Retains _›

/-- Nothing that a reaction writes has a depth before it is stamped, or is a definition. -/
theorem Handles.forall_produced (h : Handles o w last ctx r) :
    ∀ u ∈ r.produced, u.quoteDepth = none ∧ u.hasTag .anchorReference = false := by
  cases h with
  | opensList kind hk hp =>
    obtain ⟨c, -, h | h⟩ := openList_eq kind ctx
    · rw [h]
      exact List.forall_mem_nil _
    · rw [h]
      exact List.forall_mem_singleton.mpr ⟨rfl, rfl⟩
  | closesList kind hk hp h =>
    obtain ⟨c, -, rfl | rfl⟩ := closeList_eq h
    · exact List.forall_mem_nil _
    · exact List.forall_mem_singleton.mpr ⟨rfl, rfl⟩
  | text hk hc =>
    intro u hu
    rcases mem_textTokens hu with ⟨s, rfl⟩ | ⟨s, rfl⟩ | rfl <;> exact ⟨rfl, rfl⟩
  | mailLink hc | schemeLink hc =>
    simp only [Reaction.emit, linkTo]
    split_ifs <;> simp only [List.forall_mem_cons] <;> and_intros <;>
      first | rfl | exact List.forall_mem_nil _
  | emphasis strong hc => cases strong <;> exact List.forall_mem_singleton.mpr ⟨rfl, rfl⟩
  | gap gap hk hc => cases gap <;> exact List.forall_mem_singleton.mpr ⟨rfl, rfl⟩
  | _ =>
    simp only [Reaction.emit, List.forall_mem_cons]
    and_intros <;> first | rfl | exact List.forall_mem_nil _

end HtmlMarkdown.Conversion
