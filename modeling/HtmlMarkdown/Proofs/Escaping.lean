import HtmlMarkdown.Converter
import HtmlMarkdown.Proofs.Angles
import HtmlMarkdown.Proofs.TextKept
import HtmlMarkdown.Proofs.Yield
import Mathlib.Data.List.TakeWhile

/-!
# Text that stays text

Without sensitive elements, comments and bare links, and with no tag kept as HTML, the text of a
document is escaped wherever it gets into the output, with one exception: a link takes the text of
its anchor as it stands. So the rendered text has as many `<` as the texts of the links have.
-/

namespace HtmlMarkdown

structure Options.Markless (o : Options) : Prop where
  passthrough : o.passthrough = []
  links : o.simplifySelfLinks = false
  anchors : o.anchorsAsTags = false
  images : o.imagesAsTags = false
  rule : '<' ∉ o.rule.toList

theorem Options.Markless.sanitized {o : Options} (h : o.Markless) : o.sanitized.Markless where
  passthrough := h.passthrough
  links := h.links
  anchors := h.anchors
  images := h.images
  rule := by
    simp only [Options.sanitized]
    split_ifs
    · decide
    · exact h.rule

namespace Html

structure Token.Mild (t : Token) : Prop where
  comment : t.kind ≠ .comment
  sensitive : isSensitive t.tagName = false
  bare : isBareLink t.tagName = false
  attributes : ∀ value ∈ t.attributes.values, '<' ∉ value.toList

instance (t : Token) : Decidable t.Mild :=
  decidable_of_iff (t.kind ≠ .comment ∧ isSensitive t.tagName = false ∧
      isBareLink t.tagName = false ∧ ∀ value ∈ t.attributes.values, '<' ∉ value.toList)
    ⟨fun ⟨hc, hs, hb, ha⟩ => ⟨hc, hs, hb, ha⟩,
      fun h => ⟨h.comment, h.sensitive, h.bare, h.attributes⟩⟩

theorem Token.mem_values_of_attribute? {t : Token} {key value : String}
    (h : t.attribute? key = some value) : value ∈ t.attributes.values := by
  obtain ⟨entry, hfind, rfl⟩ := Option.map_eq_some_iff.mp h
  exact List.mem_map_of_mem (List.mem_of_find?_eq_some hfind)

theorem Token.Mild.attribute? {t : Token} {key value : String} (h : t.Mild)
    (hv : t.attribute? key = some value) : '<' ∉ value.toList :=
  h.attributes value (t.mem_values_of_attribute? hv)

theorem Token.Mild.filledAttribute? {t : Token} {key value : String} (h : t.Mild)
    (hv : t.filledAttribute? key = some value) : '<' ∉ value.toList :=
  h.attribute? (Option.filter_eq_some_iff.mp hv).1

theorem isHtmlSpace_of_mem_spaceTokens {cs : List Char} {t : Token} (h : t ∈ spaceTokens cs)
    (hcs : ∀ c ∈ cs, Text.isHtmlSpace c = true) :
    ∀ c ∈ t.content.toList, Text.isHtmlSpace c = true := by
  unfold spaceTokens at h
  split at h
  · cases h
  · obtain rfl := List.mem_singleton.mp h
    simpa [Token.content, Token.spaceCharacters] using hcs

/-- The space around a text is made of space characters. -/
theorem isHtmlSpace_of_mem_textTokens {s : String} {t : Token} (h : t ∈ textTokens s)
    (hk : t.kind = .spaceCharacters) : ∀ c ∈ t.content.toList, Text.isHtmlSpace c = true := by
  unfold textTokens at h
  dsimp only at h
  split at h
  · next hinner => exact isHtmlSpace_of_mem_spaceTokens h (List.dropWhile_eq_nil_iff.mp hinner)
  · simp only [List.mem_append, List.mem_cons] at h
    rcases h with h | rfl | h
    · exact isHtmlSpace_of_mem_spaceTokens h fun c hc => (List.mem_takeWhile_imp hc)
    · cases hk
    · refine isHtmlSpace_of_mem_spaceTokens h fun c hc => ?_
      exact List.mem_takeWhile_imp (List.mem_reverse.mp hc)

end Html

namespace Markdown

theorem angles_repeated {s : String} (h : Text.angles s = 0) (n : Nat) :
    Text.angles (repeated n s) = 0 := by
  rw [Text.angles_eq_zero] at h ⊢
  rw [repeated, String.toList_ofList]
  simp only [List.mem_flatten, List.mem_replicate, not_exists, not_and]
  rintro cs ⟨-, rfl⟩
  exact h

theorem angles_toString (n : Nat) : Text.angles (toString n) = 0 :=
  Text.angles_eq_zero.mpr (not_mem_toString (by decide) n)

theorem angles_titleSuffix {title : Option String} (h : ∀ s ∈ title, '<' ∉ s.toList) :
    Text.angles (titleSuffix title) = 0 :=
  Text.angles_eq_zero.mpr (not_mem_titleSuffix (by decide) h)

theorem angles_toChar {c : Char} (h : c ≠ '<') : Text.angles c.toString = 0 := by
  rw [Text.angles_eq_zero]
  simpa [Char.toString] using Ne.symm h

/-- Markdown without a `<`. -/
theorem guarded_markdown (tag : Tag) {data : String} (h : Text.angles data = 0) :
    (Token.markdown tag data).Guarded ∧ (Token.markdown tag data).linkAngles = 0 :=
  ⟨.inr (.inr h), Token.linkAngles_of_angles rfl h⟩

theorem guarded_image {src : String} {alt title : Option String} (hsrc : '<' ∉ src.toList)
    (halt : ∀ s ∈ alt, '<' ∉ s.toList) (htitle : ∀ s ∈ title, '<' ∉ s.toList)
    (reference : Option Nat) : (Token.image src alt title reference).Guarded ∧
      (Token.image src alt title reference).linkAngles = 0 := by
  have halt' := Text.angles_eq_zero.mpr (not_mem_imageText (by decide) halt)
  have hsrc' := Text.angles_eq_zero.mpr hsrc
  have htitle' := angles_titleSuffix htitle
  refine guarded_markdown _ ?_
  cases reference with
  | none =>
    simp only [Text.angles_append, halt', hsrc', htitle']
    decide
  | some n =>
    simp only [Text.angles_append, halt', angles_toString]
    decide

theorem linkAngles_anchorInline {href text : String} {title : Option String}
    (hhref : '<' ∉ href.toList) (htitle : ∀ s ∈ title, '<' ∉ s.toList) :
    (Token.anchorInline href text title).linkAngles = Text.angles text := by
  change Text.angles ("[" ++ text ++ "](" ++ href ++ titleSuffix title ++ ")") = _
  rw [Text.angles_append, Text.angles_append, Text.angles_append, Text.angles_append,
    Text.angles_append, Text.angles_eq_zero.mpr hhref, angles_titleSuffix htitle]
  exact Nat.zero_add _

theorem linkAngles_anchorReferenceLink (text : String) (n : Nat) :
    (Token.anchorReferenceLink text n).linkAngles = Text.angles text := by
  change Text.angles ("[" ++ text ++ "][" ++ toString n ++ "]") = _
  rw [Text.angles_append, Text.angles_append, Text.angles_append, Text.angles_append,
    angles_toString]
  exact Nat.zero_add _

theorem guarded_anchorReference {href : String} {title : Option String}
    (hhref : '<' ∉ href.toList) (htitle : ∀ s ∈ title, '<' ∉ s.toList) (n : Nat) :
    (Token.anchorReference n href title).Guarded := by
  refine (guarded_markdown _ ?_).1
  rw [Text.angles_append, Text.angles_append, Text.angles_append, Text.angles_append,
    Text.angles_eq_zero.mpr hhref, angles_titleSuffix htitle, angles_toString]
  decide

end Markdown

namespace Conversion

open Html (Forest)
open Markdown (Token)

def flatAnchors : Forest → Bool
  | .nil => true
  | .text _ rest => flatAnchors rest
  | .comment _ rest => flatAnchors rest
  | .element name _ children rest =>
    (Html.isVoid name || (name != "a" || (flatText? children).isSome) && flatAnchors children) &&
      flatAnchors rest

structure Context.Roams (ctx : Context) (o : Options) : Prop where
  region : ctx.region o = .ordinary
  anchor : ctx.anchor = 0
  tags : ctx.anchorAsTag ≤ ctx.anchor

/-- Tokens that have no `<` outside of links, and in the links those of these texts. -/
structure Bears (us : List Token) (texts : List String) : Prop where
  guarded : ∀ u ∈ us, u.Guarded
  angles : (us.map Token.linkAngles).sum = (texts.map Text.angles).sum

variable {o : Options} {w : Window} {last : Option Token} {ctx ctx' : Context} {r r' : Reaction}
  {u : Token} {us us' : List Token} {texts texts' : List String} {s s' : State}
  {rest ts : List Html.Token} {f : Forest} {attributes : Html.Attributes}

theorem Context.Roams.resumes (h : ctx.Roams o) (hres : ctx.Resumes ctx') : ctx'.Roams o where
  region := hres.region_eq.trans h.region
  anchor := hres.anchor_eq.trans h.anchor
  tags := hres.tags

theorem Bears.append (h : Bears us texts) (h' : Bears us' texts') :
    Bears (us ++ us') (texts ++ texts') where
  guarded := List.forall_mem_append.mpr ⟨h.guarded, h'.guarded⟩
  angles := by
    rw [List.map_append, List.map_append, List.sum_append, List.sum_append, h.angles, h'.angles]

theorem Bears.of_linkless (h : ∀ u ∈ us, u.Guarded ∧ u.linkAngles = 0) : Bears us [] where
  guarded u hu := (h u hu).1
  angles := by
    induction us with
    | nil => rfl
    | cons u us ih =>
      obtain ⟨hu, hus⟩ := List.forall_mem_cons.mp h
      rw [List.map_cons, List.sum_cons, hu.2, ih hus]
      rfl

/-- What a step can write outside of anchors. -/
theorem Yields.guarded (h : Yields o w u) (ho : o.Markless) (hv : o.Valid) (ht : w.token.Mild)
    (hspace : w.token.kind = .spaceCharacters → '<' ∉ w.token.content.toList)
    (ha : w.token.tagName ≠ "a") : u.Guarded ∧ u.linkAngles = 0 := by
  have hmark {c : Char} (hc : c ∈ Options.emphasisMarks) : c ≠ '<' := by
    rintro rfl
    exact absurd hc (by decide)
  have hbullet : o.bullet ≠ '<' := by
    intro hc
    exact absurd (hc ▸ hv.bullet) (by decide)
  cases h with
  | mark tag htag => exact Markdown.guarded_markdown tag rfl
  | heading level =>
    refine Markdown.guarded_markdown _ ?_
    rw [Text.angles_append, Text.angles_append, Markdown.angles_repeated (by decide)]
    rfl
  | item depth bullet hb =>
    have hbulletText : Text.angles bullet.text = 0 := by
      rcases hb with rfl | ⟨n, rfl⟩
      · exact Markdown.angles_toChar hbullet
      · rw [Markdown.Bullet.text, Text.angles_append, Markdown.angles_toString]
        rfl
    refine Markdown.guarded_markdown _ ?_
    rw [Text.angles_append, Text.angles_append, Text.angles_append,
      Markdown.angles_repeated (by decide), hbulletText]
    rfl
  | rule => exact Markdown.guarded_markdown _ (Text.angles_eq_zero.mpr ho.rule)
  | lineBreak => exact Markdown.guarded_markdown _ (by decide)
  | gap gap => cases gap <;> exact Markdown.guarded_markdown _ (by decide)
  | emphasis strong =>
    cases strong
    · exact Markdown.guarded_markdown _ (Markdown.angles_toChar (hmark hv.emphasisMark))
    · exact Markdown.guarded_markdown _
        (Markdown.angles_repeated (Markdown.angles_toChar (hmark hv.strongMark)) 2)
  | fused =>
    exact Markdown.guarded_markdown _
      (Markdown.angles_repeated (Markdown.angles_toChar (hmark hv.boldItalicMark)) 3)
  | text s => exact ⟨.inl rfl, rfl⟩
  | line s => exact ⟨.inl rfl, rfl⟩
  | image reference hsrc =>
    exact Markdown.guarded_image (ht.filledAttribute? hsrc) (fun _ => ht.attribute?)
      (fun _ => ht.filledAttribute?) reference
  | selfLink href hlink => exact absurd hlink (by simp [ho.links])
  | link hn | referenceLink reference hn => exact absurd hn ha
  | bareLink href text hb | bareEnd hb => exact absurd hb (by simp [ht.bare])
  | bareStart hb => exact absurd hb.name (by simp [ht.bare])
  | comment hk => exact absurd hk ht.comment
  | space hk => exact ⟨.inr ⟨hk, Text.angles_eq_zero.mpr (hspace hk)⟩, rfl⟩
  | cleaned hadmits =>
    cases hadmits with
    | listed h => simp [Options.isPassthrough, ho.passthrough] at h
    | anchor h => exact absurd h ha
    | image h himages => exact absurd himages (by simp [ho.images])
  | native edge hn =>
    have hsensitive := ht.sensitive
    rcases hn with hn | hn <;>
    · rw [hn] at hsensitive
      cases hsensitive

theorem Bears.written (h : ∀ u ∈ r.produced, u.Guarded ∧ u.linkAngles = 0) :
    Bears r.written [] := by
  refine .of_linkless fun u hu => ?_
  obtain ⟨v, hv, rfl⟩ := List.mem_map.mp hu
  obtain ⟨hguarded, hangles⟩ := h v hv
  exact ⟨hguarded.of_node (Token.node_within v _),
    (Token.linkAngles_of_node (Token.node_within v _)).trans hangles⟩

theorem bears_of_react (h : react o w last ctx = .ok r) (hreg : ctx.region o = .ordinary)
    (ho : o.Markless) (hv : o.Valid) (ht : w.token.Mild)
    (hspace : w.token.kind = .spaceCharacters → '<' ∉ w.token.content.toList)
    (ha : w.token.tagName ≠ "a") : Bears r.written [] := by
  have hsensitive := (Context.region_eq_ordinary_iff.mp hreg).2
  exact .written fun u hu =>
    (yields_of_react h (.inl hsensitive) u hu).guarded ho hv ht hspace ha

theorem anchor_pairedTag (hk : w.token.kind = .startTag) (hn : w.token.tagName ≠ "a")
    (h : pairedTag o w ctx = .ok r) : r.context.anchor = ctx.anchor := by
  have hopening : (w.token.kind == .startTag) = true := by
    rw [hk]
    rfl
  unfold pairedTag at h
  rw [hopening] at h
  dsimp only at h
  split at h
  · cases h
    rfl
  · cases h
    rfl
  · split at h <;> cases h <;> rfl
  · cases h
    obtain ⟨_, ⟨_, rfl⟩, h | h⟩ := openList_eq _ ctx <;> rw [h] <;> rfl
  · cases h
    split <;> rfl
  · cases h
    obtain ⟨_, _, ⟨_, rfl⟩, -, h⟩ := emphasis_eq o w _ true ctx
    rw [h]
    rfl
  · next hrole => exact absurd (Html.name_of_ownName? (by rw [hrole]; rfl)) hn
  · cases h
    rfl
  · cases h
    rfl
  · cases h
    cases preMode o w <;> rfl
  · cases h
    split_ifs <;> rfl
  · cases h
    unfold autolink
    dsimp only
    split_ifs <;> rfl
  · unfold otherTag at h
    dsimp only at h
    split_ifs at h <;> cases h <;> rfl

/-- The start tag of an element that is no anchor opens none. -/
theorem anchor_of_startTag {name : String} (hk : w.token = .startTag name attributes)
    (hn : name ≠ "a") (htags : ctx.anchorAsTag ≤ ctx.anchor) (hreg : ctx.region o = .ordinary)
    (h : react o w last ctx = .ok r) : r.context.anchor = ctx.anchor := by
  have hkind : w.token.kind = .startTag := by rw [hk]; rfl
  have hname : w.token.tagName ≠ "a" := by rw [hk]; exact hn
  rw [react_of_ordinary hreg, ordinary, hkind] at h
  change tag o w ctx = .ok r at h
  unfold tag at h
  split at h
  · cases h
    exact (resumes_emptyPair w.token _ htags).anchor_eq
  · exact anchor_pairedTag hkind hname h

/-- Leaves bear no links. -/
theorem Passes.bears_leaves (ho : o.Markless) (hv : o.Valid) (hts : ∀ t ∈ ts, t.IsLeaf)
    (hmild : ∀ t ∈ ts, t.Mild)
    (hspace : ∀ t ∈ ts, t.kind = .spaceCharacters → '<' ∉ t.content.toList)
    (h : Passes o rest s ts s') (hs : s.context.Roams o) : Bears (s.written o ts rest) [] := by
  induction h with
  | nil s => exact .of_linkless (List.forall_mem_nil _)
  | @cons s s' t ts r hr _ ih =>
    obtain ⟨ht, hts⟩ := List.forall_mem_cons.mp hts
    obtain ⟨htmild, hmild⟩ := List.forall_mem_cons.mp hmild
    obtain ⟨htspace, hspace⟩ := List.forall_mem_cons.mp hspace
    have hres := Context.Resumes.of_leaf hr ht hs.tags
    rw [State.written, trace_cons hr]
    exact (bears_of_react hr hs.region ho hv htmild htspace ht.anchor).append
      (ih hts hmild hspace (hs.resumes hres))

theorem Passes.bears_behind_leaves {vs : List Html.Token} (ho : o.Markless) (hv : o.Valid)
    (ts : List Html.Token) (hts : ∀ t ∈ ts, t.IsLeaf)
    (hspace : ∀ t ∈ ts, t.kind = .spaceCharacters → '<' ∉ t.content.toList)
    (hmild : ∀ t ∈ ts ++ vs, t.Mild) (h : Passes o rest s (ts ++ vs) s') (hs : s.context.Roams o)
    (ih : ∀ {s₁ : State}, (∀ t ∈ vs, t.Mild) → Passes o rest s₁ vs s' → s₁.context.Roams o →
      Bears (s₁.written o vs rest) texts) : Bears (s.written o (ts ++ vs) rest) texts := by
  obtain ⟨hleaves, hmild⟩ := List.forall_mem_append.mp hmild
  obtain ⟨s₁, h₁, hres, h₂⟩ := h.of_leaves_append hts hs.tags
  rw [h₁.written_append]
  exact (h₁.bears_leaves ho hv hts hleaves hspace hs).append (ih hmild h₂ (hs.resumes hres))

/-- An anchor around one text that is no link bears nothing; a link bears that text. -/
theorem bears_openAnchor {text : String} (ctx : Context) (ho : o.Markless) (ht : w.token.Mild)
    (hflat : w.flatText? = some text) :
    Bears (openAnchor o w ctx).written
        (if (w.token.filledAttribute? "href").isSome then [Text.flow true text] else []) ∧
      (openAnchor o w ctx).context.anchorAsTag = ctx.anchorAsTag := by
  have hlink {c : Context} {u : Token} (hu : u.tag? = some .anchorInline)
      (hangles : u.linkAngles = Text.angles (Text.flow true text)) :
      Bears (Reaction.emit c [u]).written [Text.flow true text] := by
    refine ⟨List.forall_mem_singleton.mpr ?_, ?_⟩
    · obtain ⟨node, depth, flag⟩ := u
      cases node with
      | markdown tag data =>
        obtain rfl : tag = .anchorInline := by simpa [Token.tag?] using hu
        exact Token.Guarded.of_node (Token.node_within _ _) (.inr (.inl rfl))
      | native edge raw => cases edge <;> cases hu
      | html raw => cases hu
    · change ((u.within _).linkAngles + 0 : Nat) = _
      rw [Token.linkAngles_of_node (Token.node_within u _), hangles]
      rfl
  unfold openAnchor
  simp only [ho.anchors, hflat, Bool.false_eq_true, if_false]
  cases hhref : w.token.filledAttribute? "href" with
  | none => exact ⟨.written (List.forall_mem_nil _), rfl⟩
  | some href =>
    unfold linkToken
    simp only [ho.links, Bool.false_eq_true, false_and, if_false, Option.isSome_some, if_true]
    split_ifs
    · exact ⟨hlink rfl (Markdown.linkAngles_anchorReferenceLink _ _), rfl⟩
    · exact ⟨hlink rfl (Markdown.linkAngles_anchorInline (ht.filledAttribute? hhref)
        fun _ => ht.filledAttribute?), rfl⟩

/-- Text bears nothing, whether a link has taken it or not. -/
theorem bears_characters (hk : w.token.kind = .characters) (hreg : ctx.region o = .ordinary)
    (h : react o w last ctx = .ok r) :
    Bears r.written [] ∧ r.context.anchorAsTag = ctx.anchorAsTag := by
  rw [react_of_ordinary hreg, ordinary, hk] at h
  obtain rfl : characters w ctx = r := Except.ok.inj h
  unfold characters
  split_ifs
  · exact ⟨.written (List.forall_mem_nil _), rfl⟩
  · refine ⟨.written fun u hu => ?_, rfl⟩
    rcases mem_textTokens hu with ⟨s, rfl⟩ | ⟨s, rfl⟩ | rfl
    · exact ⟨.inl rfl, rfl⟩
    · exact ⟨.inl rfl, rfl⟩
    · exact Markdown.guarded_markdown _ (by decide)

/-- The end tag of an anchor that is not kept as a tag writes nothing. -/
theorem produced_anchorEnd (hreg : ctx.region o = .ordinary) (htag : ctx.anchorAsTag = 0)
    (hw : w.token = .endTag "a") (h : react o w last ctx = .ok r) : r.produced = [] := by
  rw [react_anchorEnd hreg hw] at h
  split_ifs at h
  · cases h
    rw [emptyAnchor_eq]
    rfl
  · obtain ⟨_, ⟨-, rfl⟩ | ⟨n, hn, -⟩⟩ := closeAnchor_eq h
    · rfl
    · cases htag.symm.trans hn

theorem eq_singleton_of_flatText? {text : String} (h : flatText? f = some text) :
    ∃ t, f.tokens = [t] ∧ t.kind = .characters ∧ t.content = text := by
  unfold flatText? at h
  split at h
  · next t hts =>
    split_ifs at h with hk
    exact ⟨t, hts, hk, Option.some.inj h⟩
  · cases h

/-- An anchor bears the text of its link, or nothing if it has no address. -/
theorem Passes.bears_anchor (ho : o.Markless) {children : Forest} {text : String} {s₁ : State}
    (hflat : flatText? children = some text) (ht : (Html.Token.startTag "a" attributes).Mild)
    (hs : s.context.Roams o)
    (hr : react o (s.window (.startTag "a" attributes) (children.tokens ++ .endTag "a" :: rest))
      s.emitted.head? s.context = .ok r)
    (hc : Passes o (.endTag "a" :: rest) (s.accept (.startTag "a" attributes) r) children.tokens s₁)
    (hr' : react o (s₁.window (.endTag "a") rest) s₁.emitted.head? s₁.context = .ok r')
    (hres : r.context.Resumes s₁.context) :
    Bears (r.written ++ (s.accept (.startTag "a" attributes) r).written o children.tokens
        (.endTag "a" :: rest) ++ r'.written)
      ((linkText? o .ordinary "a" attributes children).toList) := by
  obtain ⟨t, hts, hk, rfl⟩ := eq_singleton_of_flatText? hflat
  have hne : children.tokens ≠ [] := by simp [hts]
  have hregion := region_anchorStart hs.region hs.tags hr
  rw [react_anchorStart hs.region, if_neg hne] at hr
  have hwindow : (s.window (.startTag "a" attributes)
      (children.tokens ++ .endTag "a" :: rest)).flatText? = some t.content :=
    (flatText?_window hne).trans hflat
  have hlink : (linkText? o .ordinary "a" attributes children).toList =
      if ((Html.Token.startTag "a" attributes).filledAttribute? "href").isSome then
        [Text.flow true t.content] else [] := by
    simp only [linkText?, ho.anchors, hflat, true_and]
    split_ifs <;> rfl
  obtain ⟨hstart, htag⟩ := bears_openAnchor s.context ho ht hwindow
  rw [Except.ok.inj hr] at hstart htag
  rw [hts] at hc ⊢
  cases hc with
  | @cons _ _ _ _ r₁ hr₁ hnil =>
    cases hnil
    obtain ⟨htext, htag₁⟩ := bears_characters hk hregion hr₁
    have hout : r'.produced = [] :=
      produced_anchorEnd (hres.region_eq.trans hregion)
        (htag₁.trans (htag.trans (Nat.le_zero.mp (hs.anchor ▸ hs.tags)))) rfl hr'
    have hcontent : (s.accept (.startTag "a" attributes) r).written o [t] (.endTag "a" :: rest) =
        r₁.written := by
      rw [State.written, trace_cons hr₁]
      exact List.append_nil _
    have hend : r'.written = [] := by rw [Reaction.written, hout]; rfl
    have hboth := hstart.append htext
    rw [List.append_nil] at hboth
    rw [hcontent, hend, List.append_nil, hlink]
    exact hboth

/-- The passage of a forest bears the texts of its links. -/
theorem Passes.bears (ho : o.Markless) (hv : o.Valid) (hmild : ∀ t ∈ f.tokens, t.Mild)
    (hflat : flatAnchors f = true) (h : Passes o rest s f.tokens s') (hs : s.context.Roams o) :
    Bears (s.written o f.tokens rest) (linkTexts o .ordinary f) := by
  induction f generalizing rest s s' with
  | nil => exact .of_linkless (List.forall_mem_nil _)
  | text content f ih =>
    refine Passes.bears_behind_leaves ho hv (Html.textTokens content)
      (fun _ => Html.isLeaf_of_mem_textTokens) (fun t ht hk hmem => ?_) hmild h hs
      fun hmild h hs => ih hmild hflat h hs
    exact absurd (Html.isHtmlSpace_of_mem_textTokens ht hk '<' hmem) (by decide)
  | comment content f ih =>
    exact absurd rfl (hmild (.comment content) List.mem_cons_self).comment
  | element name attributes children f ihc ih =>
    rw [flatAnchors, Bool.and_eq_true] at hflat
    obtain ⟨hflat, hflat'⟩ := hflat
    by_cases hvoid : Html.isVoid name = true
    · rw [Forest.tokens, if_pos hvoid] at h hmild ⊢
      rw [linkTexts, if_pos hvoid, List.nil_append]
      exact Passes.bears_behind_leaves ho hv [.emptyTag name attributes]
        (List.forall_mem_singleton.mpr (Html.isLeaf_emptyTag attributes hvoid))
        (List.forall_mem_singleton.mpr fun hk => by cases hk) hmild h hs
        fun hmild h hs => ih hmild hflat' h hs
    rw [Bool.not_eq_true] at hvoid
    rw [hvoid, Bool.false_or, Bool.and_eq_true, Bool.or_eq_true, bne_iff_ne] at hflat
    obtain ⟨hanchor, hflat⟩ := hflat
    obtain ⟨r, s₁, r', hr, htags, hc, hr', hres, hres', -, -, hrest⟩ := h.of_element hvoid hs.tags
    rw [Forest.tokens, hvoid, if_neg Bool.false_ne_true, List.cons_append, List.forall_mem_cons,
      List.forall_mem_append, List.forall_mem_cons] at hmild
    obtain ⟨hstart, hchildren, hend, hbehind⟩ := hmild
    have hbears := ih hbehind hflat' hrest (hs.resumes hres')
    rw [written_element hvoid hr hc hr', ← List.append_assoc, linkTexts, hvoid,
      if_neg Bool.false_ne_true]
    refine Bears.append ?_ hbears
    by_cases hname : name = "a"
    · -- the content is the one text that the link takes, so it bears nothing of its own
      subst hname
      obtain ⟨text, htext⟩ := Option.isSome_iff_exists.mp (hanchor.resolve_left (by simp))
      obtain ⟨t, hts, hk, -⟩ := eq_singleton_of_flatText? htext
      have hlink := Passes.bears_anchor ho htext hstart hs hr hc hr' hres
      have hinner (region : Region) : linkTexts o region children = [] :=
        (kept_of_texts o region (by simp [hts, hk])).2
      rw [hinner]
      cases h : linkText? o .ordinary "a" attributes children <;> rwa [h] at hlink
    · have hsensitive : Html.isSensitive name = false := hstart.sensitive
      have hregion := region_startTag hvoid hsensitive hs.tags hs.region hr
      have hopened := anchor_of_startTag rfl hname hs.tags hs.region hr
      have hcontent := ihc hchildren hflat hc ⟨hregion, hopened.trans hs.anchor, htags⟩
      have hnone : linkText? o .ordinary name attributes children = none :=
        if_neg fun h => hname h.2.1
      rw [hnone, Option.elim_none, inside_of_not_sensitive hsensitive]
      have hopen := bears_of_react hr hs.region ho hv hstart (fun hk => by cases hk) hname
      have hclose := bears_of_react hr' (hres.region_eq.trans hregion) ho hv hend
        (fun hk => by cases hk) hname
      simpa using (hopen.append hcontent).append hclose

/-- The addresses and titles of references come from the attributes of the tokens. -/
theorem Passes.references_of_attributes (h : Passes o rest s ts s') :
    ∀ entry ∈ s'.context.references.targets.entries,
      entry ∈ s.context.references.targets.entries ∨
        ∃ t ∈ ts, address? t = some entry.1 ∧ entry.2 = t.filledAttribute? "title" := by
  induction h with
  | nil s => exact fun _ => .inl
  | @cons s s' t ts r hr _ ih =>
    intro entry hentry
    rcases ih entry hentry with hbefore | ⟨u, hu, haddress, htitle⟩
    · rw [State.context_accept] at hbefore
      rcases (handles_of_react hr).references with ⟨hkept, -⟩ | ⟨href, u, haddress, hnew, -, -⟩
      · exact .inl (hkept ▸ hbefore)
      · rw [hnew] at hbefore
        rcases References.mem_register hbefore with hbefore | rfl
        · exact .inl hbefore
        · exact .inr ⟨t, List.mem_cons_self, haddress, rfl⟩
    · exact .inr ⟨u, List.mem_cons_of_mem t hu, haddress, htitle⟩

theorem guarded_of_mem_referenceBlock {references : References}
    (h : ∀ entry ∈ references.targets.entries,
      '<' ∉ entry.1.toList ∧ ∀ title ∈ entry.2, '<' ∉ title.toList)
    (hu : u ∈ State.referenceBlock references) : u.Guarded := by
  rw [State.referenceBlock_eq] at hu
  simp only [List.mem_append, List.mem_flatMap, List.mem_cons, List.not_mem_nil, or_false] at hu
  rcases hu with ((rfl | rfl) | ⟨entry, hentry, rfl | rfl⟩) | rfl
  · exact .inr (.inr (by decide))
  · exact .inr (.inr (by decide))
  · exact .inr (.inr (by decide))
  · rw [References.entries, entriesFrom_eq] at hentry
    obtain ⟨⟨target, n⟩, htarget, rfl⟩ := List.mem_map.mp hentry
    obtain ⟨hhref, htitle⟩ := h target (List.fst_mem_of_mem_zipIdx htarget)
    exact Markdown.guarded_anchorReference hhref htitle n
  · exact .inr (.inr (by decide))

/-- Without sensitive elements, comments, bare links and anchors around anything but one text, a
document is rendered with as many `<` as the texts of its links have: no other text gets out
unescaped. -/
theorem angles_of_link_texts (o : Options) (ho : o.Markless) (f : Forest)
    (hmild : ∀ t ∈ f.tokens, t.Mild) (hflat : flatAnchors f = true) :
    ∃ text, (Converter.ofOptions o).render f.tokens = .ok text ∧
      Text.angles text =
        ((linkTexts (Converter.ofOptions o).options .ordinary f).map Text.angles).sum := by
  obtain ⟨s, hs, -⟩ := exists_passes_tokens o.sanitized f [] {} (Nat.le_refl 0)
  have hstart : ({} : Context).Roams o.sanitized :=
    ⟨by simp [Context.region], rfl, Nat.le_refl 0⟩
  have hbears := hs.bears ho.sanitized o.valid_sanitized hmild hflat hstart
  have hreferences : ∀ entry ∈ s.context.references.targets.entries,
      '<' ∉ entry.1.toList ∧ ∀ title ∈ entry.2, '<' ∉ title.toList := by
    intro entry hentry
    rcases hs.references_of_attributes entry hentry with hnone | ⟨t, ht, haddress, htitle⟩
    · cases hnone
    · rw [htitle]
      exact ⟨(hmild t ht).filledAttribute? haddress, fun _ => (hmild t ht).filledAttribute?⟩
  have hguarded := hs.forall_layout Markdown.lasting_guarded hbears.guarded
    fun u hu => guarded_of_mem_referenceBlock hreferences hu
  refine ⟨Markdown.render (Markdown.layout s.finished), ?_, ?_⟩
  · rw [Converter.render, Converter.adapt, Converter.ofOptions, hs.convert_eq]
    rfl
  · rw [Text.angles, Markdown.render, String.toList_ofList, Markdown.count_renderChars hguarded,
      ← Markdown.sum_linkAngles?, hs.read_layout Markdown.enduring_linkAngles? fun _ _ _ => rfl,
      Markdown.sum_linkAngles?, hbears.angles]
    rfl

/-- The text of a paragraph is escaped, the text of the link in it is not. -/
theorem angles_of_paragraph_and_link :
    let o : Options := { passthrough := [], simplifySelfLinks := false }
    let f : Forest := .element "p" ∅ (.text "x < y" (.element "a" (.ofList [(.plain "href", "u")])
      (.text "<b>" .nil) .nil)) .nil
    o.Markless ∧ (∀ t ∈ f.tokens, t.Mild) ∧ flatAnchors f = true ∧
      ∃ text, (Converter.ofOptions o).render f.tokens = .ok text ∧ Text.angles text = 1 := by
  intro o f
  have ho : o.Markless := ⟨rfl, rfl, rfl, rfl, by decide⟩
  have hmild : ∀ t ∈ f.tokens, t.Mild := by decide +kernel
  have hflat : flatAnchors f = true := by decide +kernel
  have hlinks : linkTexts (Converter.ofOptions o).options .ordinary f = ["<b>"] := by
    decide +kernel
  obtain ⟨text, hrender, hangles⟩ := angles_of_link_texts o ho f hmild hflat
  rw [hlinks] at hangles
  exact ⟨ho, hmild, hflat, text, hrender, hangles⟩

/-- The text of a link comes out as a tag, although no tag is to stay as HTML. -/
theorem tag_from_link_text :
    let o : Options := { passthrough := [], simplifySelfLinks := false }
    let f : Forest := .element "a" (.ofList [(.plain "href", "u")]) (.text "<b>" .nil) .nil
    o.Markless ∧ (∀ t ∈ f.tokens, t.Mild) ∧ flatAnchors f = true ∧
      (Converter.ofOptions o).render f.tokens = .ok "[<b>](u)" := by
  intro o f
  have ho : o.Markless := ⟨rfl, rfl, rfl, rfl, by decide⟩
  have hmild : ∀ t ∈ f.tokens, t.Mild := by decide +kernel
  exact ⟨ho, hmild, by decide +kernel, eq_ok_of_toOption (by decide +kernel)⟩

end Conversion

end HtmlMarkdown
