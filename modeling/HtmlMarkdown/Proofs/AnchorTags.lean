import HtmlMarkdown.Proofs.Escaping

/-!
# The tags of anchors

An anchor whose start tag stays as HTML is remembered as one more pending end tag, and only the
number of them is kept. The end tag of any anchor takes one away where there is one, whether or not
that is its own. So an anchor that is kept loses its end tag to the links inside of it: each of
them takes one away, and the anchors around them find none left.
-/

namespace HtmlMarkdown.Conversion

open Html (Forest)
open Markdown (Token)

variable {o : Options} {w : Window} {last : Option Token} {ctx ctx' : Context} {r r' : Reaction}
  {s s' s₁ : State} {rest ts : List Html.Token} {f : Forest} {attributes : Html.Attributes}

theorem anchorAsTag_paragraph {name : String} {opening : Bool}
    (h : paragraph name opening ctx = .ok r) : r.context.anchorAsTag = ctx.anchorAsTag := by
  obtain ⟨_, _, rfl⟩ := paragraph_eq h
  rfl

theorem anchorAsTag_heading {name : String} {level : Nat} {opening : Bool}
    (h : heading name level opening ctx = .ok r) : r.context.anchorAsTag = ctx.anchorAsTag := by
  obtain ⟨_, rfl⟩ := heading_eq h
  rfl

theorem anchorAsTag_quote {opening : Bool} (h : quote opening ctx = .ok r) :
    r.context.anchorAsTag = ctx.anchorAsTag := by
  obtain ⟨_, _, rfl⟩ := quote_eq h
  rfl

theorem anchorAsTag_openList (kind : Html.ListKind) (ctx : Context) :
    (openList kind ctx).context.anchorAsTag = ctx.anchorAsTag := by
  obtain ⟨_, ⟨_, rfl⟩, h | h⟩ := openList_eq kind ctx <;> rw [h] <;> rfl

theorem anchorAsTag_closeList {more : Bool} (h : closeList more ctx = .ok r) :
    r.context.anchorAsTag = ctx.anchorAsTag := by
  obtain ⟨_, ⟨_, rfl⟩, rfl | rfl⟩ := closeList_eq h <;> rfl

theorem anchorAsTag_item {opening : Bool} (h : item o opening ctx = .ok r) :
    r.context.anchorAsTag = ctx.anchorAsTag := by
  cases opening with
  | true =>
    cases h
    split <;> rfl
  | false =>
    obtain ⟨_, rfl⟩ := closeItem_eq h
    rfl

theorem anchorAsTag_emphasis (strong opening : Bool) :
    (emphasis o w strong opening ctx).context.anchorAsTag = ctx.anchorAsTag := by
  obtain ⟨_, _, ⟨_, rfl⟩, -, h⟩ := emphasis_eq o w strong opening ctx
  rw [h]
  rfl

theorem anchorAsTag_code {opening : Bool} (h : code opening ctx = .ok r) :
    r.context.anchorAsTag = ctx.anchorAsTag := by
  obtain ⟨_, rfl⟩ := code_eq h
  rfl

theorem anchorAsTag_preformatted {opening : Bool} (h : preformatted o w opening ctx = .ok r) :
    r.context.anchorAsTag = ctx.anchorAsTag := by
  cases opening with
  | true =>
    cases h
    cases preMode o w <;> rfl
  | false =>
    obtain ⟨_, _, _, _, _, -, rfl⟩ := closePre_eq h
    rfl

theorem anchorAsTag_script {opening : Bool} (h : script o w opening ctx = .ok r) :
    r.context.anchorAsTag = ctx.anchorAsTag := by
  cases opening with
  | true =>
    cases h
    split_ifs <;> rfl
  | false =>
    obtain ⟨_, rfl⟩ := closeScript_eq h
    rfl

theorem anchorAsTag_autolink (t : Html.Token) :
    (autolink o t ctx).context.anchorAsTag = ctx.anchorAsTag := by
  unfold autolink
  dsimp only
  split_ifs <;> rfl

theorem anchorAsTag_otherTag {t : Html.Token} (h : otherTag o t ctx = .ok r) :
    r.context.anchorAsTag = ctx.anchorAsTag := by
  unfold otherTag at h
  dsimp only at h
  split_ifs at h <;> cases h <;> rfl

theorem anchorAsTag_pairedTag (hrole : Html.roleOf w.token.tagName ≠ .anchor)
    (h : pairedTag o w ctx = .ok r) : r.context.anchorAsTag = ctx.anchorAsTag := by
  unfold pairedTag at h
  dsimp only at h
  split at h
  · exact anchorAsTag_heading h
  · exact anchorAsTag_paragraph h
  · split at h
    · exact anchorAsTag_paragraph h
    · cases h
      rfl
  · split at h
    · cases h
      exact anchorAsTag_openList _ ctx
    · exact anchorAsTag_closeList h
  · exact anchorAsTag_item h
  · cases h
    exact anchorAsTag_emphasis _ _
  · next hanchor => exact absurd hanchor hrole
  · exact anchorAsTag_quote h
  · exact anchorAsTag_code h
  · exact anchorAsTag_preformatted h
  · exact anchorAsTag_script h
  · cases h
    exact anchorAsTag_autolink _
  · exact anchorAsTag_otherTag h

theorem anchorAsTag_emptyTag (t : Html.Token) :
    (emptyTag o t last ctx).context.anchorAsTag = ctx.anchorAsTag := by
  unfold emptyTag image lineBreak
  dsimp only
  split_ifs <;> first | rfl | (split <;> rfl)

/-- A token that is no tag of an anchor with content. -/
def Window.NoAnchor (w : Window) : Prop :=
  Html.roleOf w.token.tagName = .anchor → w.token.name.filter w.isEmptyPair ≠ none

theorem anchorAsTag_ordinary (hw : w.NoAnchor) (h : ordinary o w last ctx = .ok r) :
    r.context.anchorAsTag = ctx.anchorAsTag := by
  have htag (h : tag o w ctx = .ok r) : r.context.anchorAsTag = ctx.anchorAsTag := by
    unfold tag at h
    split at h
    · cases h
      unfold emptyPair
      split_ifs
      · exact anchorAsTag_autolink _
      · rfl
    · next hnone => exact anchorAsTag_pairedTag (fun hrole => hw hrole hnone) h
  unfold ordinary at h
  split at h
  · exact htag h
  · exact htag h
  · cases h
    exact anchorAsTag_emptyTag _
  · cases h
    unfold characters
    split_ifs <;> rfl
  · cases h
    unfold spaceCharacters
    split <;> rfl
  · cases h
    split_ifs <;> rfl
  · cases h
    rfl
  · cases h
    rfl

/-- Nothing but the tags of anchors with content changes the number of pending end tags, and they
do so only outside of sensitive elements and scripts. -/
theorem anchorAsTag_of_react (hw : ctx.region o = .ordinary → w.NoAnchor)
    (h : react o w last ctx = .ok r) : r.context.anchorAsTag = ctx.anchorAsTag := by
  cases hreg : ctx.region o with
  | stripped =>
    rw [react_of_stripped hreg] at h
    cases h
    unfold insideStripped
    split_ifs
    · rfl
    · split <;> rfl
  | sensitive =>
    cases hin : insideSensitive w.token ctx with
    | some r' =>
      rw [react_of_insideSensitive hreg hin] at h
      cases h
      unfold insideSensitive at hin
      split_ifs at hin <;> cases hin <;> rfl
    | none =>
      rw [react_eq_ordinary (by simp [hreg]) fun _ => hin] at h
      have hsensitive : Html.isSensitive w.token.tagName = true := by
        by_contra hn
        rw [Bool.not_eq_true] at hn
        simp [insideSensitive, hn] at hin
      refine anchorAsTag_ordinary (fun hrole => ?_) h
      rcases Html.roleOf_of_isSensitive hsensitive with hr | hr | hr <;> simp [hr] at hrole
  | ordinary =>
    rw [react_of_ordinary hreg] at h
    exact anchorAsTag_ordinary (hw hreg) h

theorem Window.noAnchor_of_ne (h : w.token.tagName ≠ "a") : w.NoAnchor := fun hrole =>
  absurd (Html.name_of_ownName? (by rw [hrole]; rfl)) h

theorem Window.noAnchor_of_isEmptyPair {name : String} (hn : w.token.name = some name)
    (he : w.isEmptyPair name = true) : w.NoAnchor := fun _ => by simp [hn, he]

theorem Passes.anchorAsTag_leaves (hts : ∀ t ∈ ts, t.IsLeaf) (h : Passes o rest s ts s') :
    s'.context.anchorAsTag = s.context.anchorAsTag := by
  induction h with
  | nil s => rfl
  | @cons s s' t ts r hr _ ih =>
    obtain ⟨ht, hts⟩ := List.forall_mem_cons.mp hts
    have hkept := anchorAsTag_of_react (fun _ => Window.noAnchor_of_ne ht.anchor) hr
    exact (ih hts).trans hkept

def keepsAnchor (o : Options) (children : Forest) : Bool :=
  o.anchorsAsTags || (flatText? children).isNone

def isAnchorSite (region : Region) (name : String) (children : Forest) : Bool :=
  region == .ordinary && name == "a" && !children.tokens.isEmpty

/-- An element is such an anchor and its start tag does not stay as HTML. -/
def dissolves (o : Options) (region : Region) (name : String) (children : Forest) : Bool :=
  isAnchorSite region name children && !keepsAnchor o children

def dissolved (o : Options) : Region → Forest → Nat
  | _, .nil => 0
  | region, .text _ rest => dissolved o region rest
  | region, .comment _ rest => dissolved o region rest
  | region, .element name _ children rest =>
    (if Html.isVoid name then 0
      else dissolved o (Region.inside o name children.tokens region) children +
        (dissolves o region name children).toNat) +
      dissolved o region rest

/-- An anchor with content in a stream, and the number of end tags pending at its start tag. -/
structure AnchorSite where
  pending : Nat
  before : List Html.Token
  attributes : Html.Attributes
  children : Forest
  after : List Html.Token

namespace AnchorSite

def opening (site : AnchorSite) : Html.Token := .startTag "a" site.attributes

def stream (site : AnchorSite) : List Html.Token :=
  site.before ++ site.opening :: site.children.tokens ++ .endTag "a" :: site.after

def kept (o : Options) (site : AnchorSite) : Bool := keepsAnchor o site.children

def closes (o : Options) (site : AnchorSite) : Bool :=
  dissolved o .ordinary site.children < site.pending + (site.kept o).toNat

/-- The conversion writes the start tag as HTML where the site is kept, and the end tag as HTML
where the site closes; else it writes no HTML for them. -/
def Answered (o : Options) (site : AnchorSite) : Prop :=
  ∃ s r s₁ r',
    Passes o (site.opening :: site.children.tokens ++ .endTag "a" :: site.after) {} site.before s ∧
    react o (s.window site.opening (site.children.tokens ++ .endTag "a" :: site.after))
      s.emitted.head? s.context = .ok r ∧
    Passes o (.endTag "a" :: site.after) (s.accept site.opening r) site.children.tokens s₁ ∧
    react o (s₁.window (.endTag "a") site.after) s₁.emitted.head? s₁.context = .ok r' ∧
    (if site.kept o then r.produced = [.html (o.clean site.opening)]
      else ∀ t ∈ r.produced, t.raw? = none) ∧
    r'.produced = if site.closes o then [.html (o.clean (.endTag "a"))] else []

end AnchorSite

/-- The anchors with content of a forest that stands between these tokens, outside of sensitive
elements and scripts, where so many end tags are pending. -/
def anchorSites (o : Options) (pending : Nat) (region : Region) (before after : List Html.Token) :
    Forest → List AnchorSite
  | .nil => []
  | .text content rest =>
    anchorSites o pending region (before ++ Html.textTokens content) after rest
  | .comment content rest => anchorSites o pending region (before ++ [.comment content]) after rest
  | .element name attributes children rest =>
    let opening := .startTag name attributes
    let site := isAnchorSite region name children
    let inner := Region.inside o name children.tokens region
    if Html.isVoid name then
      anchorSites o pending region (before ++ [.emptyTag name attributes]) after rest
    else
      (if site then [⟨pending, before, attributes, children, rest.tokens ++ after⟩] else []) ++
      (anchorSites o (pending + (site && keepsAnchor o children).toNat) inner (before ++ [opening])
        (.endTag name :: (rest.tokens ++ after)) children ++
      anchorSites o
        (pending - (dissolved o inner children + (dissolves o region name children).toNat))
        region (before ++ opening :: children.tokens ++ [.endTag name]) after rest)

variable {region inner : Region} {name : String} {pending : Nat} {before after : List Html.Token}
  {children : Forest} {site : AnchorSite}

theorem isAnchorSite_iff : isAnchorSite region name children = true ↔
    region = .ordinary ∧ name = "a" ∧ children.tokens ≠ [] := by
  simp [isAnchorSite, and_assoc]

/-- Without start tags there are no anchors. -/
theorem no_anchorSites (h : ∀ t ∈ f.tokens, t.kind ≠ .startTag) :
    anchorSites o pending region before after f = [] ∧ dissolved o region f = 0 := by
  induction f generalizing before with
  | nil => exact ⟨rfl, rfl⟩
  | text content rest ih =>
    rw [Forest.tokens, List.forall_mem_append] at h
    exact ih h.2
  | comment content rest ih =>
    rw [Forest.tokens, List.forall_mem_cons] at h
    exact ih h.2
  | element name attributes children rest _ ih =>
    cases hv : Html.isVoid name with
    | true =>
      rw [Forest.tokens, if_pos hv, List.forall_mem_cons] at h
      simpa [anchorSites, dissolved, hv] using ih h.2
    | false =>
      rw [Forest.tokens, hv, if_neg Bool.false_ne_true, List.cons_append,
        List.forall_mem_cons] at h
      exact absurd rfl h.1

theorem dissolved_of_no_startTag (h : ∀ t ∈ f.tokens, t.kind ≠ .startTag) :
    dissolved o region f = 0 := by
  have hnone : anchorSites o 0 region [] [] f = [] ∧ dissolved o region f = 0 := no_anchorSites h
  exact hnone.2

/-- An element without content has no anchors inside, in whatever region. -/
theorem anchorSites_inside (h : children.tokens ≠ [] → region = inner) :
    anchorSites o pending region before after children =
      anchorSites o pending inner before after children := by
  by_cases hnil : children.tokens = []
  · have hnone : ∀ t ∈ children.tokens, t.kind ≠ .startTag := by simp [hnil]
    rw [(no_anchorSites hnone).1, (no_anchorSites hnone).1]
  · rw [h hnil]

theorem dissolved_inside (h : children.tokens ≠ [] → region = inner) :
    dissolved o region children = dissolved o inner children := by
  by_cases hnil : children.tokens = []
  · have hnone : ∀ t ∈ children.tokens, t.kind ≠ .startTag := by simp [hnil]
    rw [dissolved_of_no_startTag hnone, dissolved_of_no_startTag hnone]
  · rw [h hnil]

/-- Inside an anchor that dissolves there is none. -/
theorem dissolved_of_not_keepsAnchor (h : keepsAnchor o children = false) :
    dissolved o region children = 0 := by
  obtain ⟨text, htext⟩ : ∃ text, flatText? children = some text := by
    rw [keepsAnchor, Bool.or_eq_false_iff, Option.isNone_eq_false_iff] at h
    exact Option.isSome_iff_exists.mp h.2
  obtain ⟨t, hts, hk, -⟩ := eq_singleton_of_flatText? htext
  exact dissolved_of_no_startTag (by simp [hts, hk])

theorem stream_of_mem_anchorSites (h : site ∈ anchorSites o pending region before after f) :
    site.stream = before ++ f.tokens ++ after := by
  induction f generalizing pending region before after with
  | nil => cases h
  | text content rest ih | comment content rest ih =>
    rw [ih h]
    simp [Forest.tokens]
  | element name attributes children rest ihc ih =>
    rw [anchorSites] at h
    cases hv : Html.isVoid name with
    | true =>
      rw [if_pos hv] at h
      rw [ih h]
      simp [Forest.tokens, hv]
    | false =>
      rw [if_neg (by simp [hv]), List.mem_append, List.mem_append] at h
      rcases h with h | h | h
      · split_ifs at h with hsite
        · obtain rfl := List.mem_singleton.mp h
          obtain ⟨-, rfl, -⟩ := isAnchorSite_iff.mp hsite
          simp [AnchorSite.stream, AnchorSite.opening, Forest.tokens, hv]
        · cases h
      · rw [ihc h]
        simp [Forest.tokens, hv]
      · rw [ih h]
        simp [Forest.tokens, hv]

/-- The start tag of an anchor with content. -/
theorem openAnchor_of_site (ctx : Context) (hflat : w.flatText? = flatText? children) :
    (openAnchor o w ctx).context.anchorAsTag =
        ctx.anchorAsTag + (keepsAnchor o children).toNat ∧
      if keepsAnchor o children then (openAnchor o w ctx).produced = [.html (o.clean w.token)]
      else ∀ t ∈ (openAnchor o w ctx).produced, t.raw? = none := by
  unfold openAnchor
  dsimp only
  rw [hflat]
  split
  · next hnone =>
    have hkeeps : keepsAnchor o children = true := by
      split_ifs at hnone with htags
      · simp [keepsAnchor, htags]
      · simp [keepsAnchor, hnone]
    rw [if_pos hkeeps, hkeeps]
    exact ⟨rfl, rfl⟩
  · next text htext =>
    have hkeeps : keepsAnchor o children = false := by
      split_ifs at htext with htags
      simp [keepsAnchor, htags, htext]
    rw [if_neg (by simp [hkeeps]), hkeeps]
    split
    · exact ⟨rfl, List.forall_mem_nil _⟩
    · next href _ =>
      obtain ⟨_, _, hlink, ⟨rfl, -⟩ | ⟨_, rfl⟩ | rfl⟩ := linkToken_eq o href (Text.flow true text)
        (w.token.filledAttribute? "title") (ctx.enter .anchor) <;>
        rw [hlink] <;> exact ⟨rfl, List.forall_mem_singleton.mpr rfl⟩

/-- The end tag of any anchor takes a pending end tag away. -/
theorem closeAnchor_of_site (h : closeAnchor o w ctx = .ok r) :
    r.context.anchorAsTag = ctx.anchorAsTag - 1 ∧
      r.produced = if 0 < ctx.anchorAsTag then [.html (o.clean w.token)] else [] := by
  obtain ⟨_, ⟨htags, rfl⟩ | ⟨n, htags, rfl⟩⟩ := closeAnchor_eq h <;> rw [htags] <;>
    exact ⟨rfl, rfl⟩

/-- The two tags of an anchor with content. -/
theorem tags_of_site (hsite : isAnchorSite (s.context.region o) "a" children = true)
    (htags : s.context.anchorAsTag ≤ s.context.anchor)
    (hr : react o (s.window (.startTag "a" attributes) (children.tokens ++ .endTag "a" :: rest))
      s.emitted.head? s.context = .ok r)
    (h : Passes o (.endTag "a" :: rest) (s.accept (.startTag "a" attributes) r) children.tokens s₁)
    (hres : r.context.Resumes s₁.context)
    (hr' : react o (s₁.window (.endTag "a") rest) s₁.emitted.head? s₁.context = .ok r') :
    r.context.anchorAsTag = s.context.anchorAsTag + (keepsAnchor o children).toNat ∧
      r'.context.anchorAsTag = s₁.context.anchorAsTag - 1 ∧
      (if keepsAnchor o children then
        r.produced = [.html (o.clean (.startTag "a" attributes))]
        else ∀ t ∈ r.produced, t.raw? = none) ∧
      r'.produced = if 0 < s₁.context.anchorAsTag then [.html (o.clean (.endTag "a"))] else [] := by
  obtain ⟨hreg, -, hne⟩ := isAnchorSite_iff.mp hsite
  have hregion := hres.region_eq.trans (region_anchorStart hreg htags hr)
  have hempty : (s₁.window (.endTag "a") rest).isEmptyPair "a" = false := by
    rw [isEmptyPair_endTag children h.before_eq]
    simpa using hne
  rw [react_anchorEnd hregion rfl, hempty] at hr'
  have hclose := closeAnchor_of_site hr'
  rw [react_anchorStart hreg, if_neg hne] at hr
  have hopen := openAnchor_of_site s.context (@flatText?_window s children attributes rest hne)
    (o := o)
  rw [Except.ok.inj hr] at hopen
  exact ⟨hopen.1, hclose.1, hopen.2, hclose.2⟩

/-- The two tags of any other element leave the number of pending end tags alone. -/
theorem tags_of_no_site (hsite : isAnchorSite (s.context.region o) name children = false)
    (hr : react o (s.window (.startTag name attributes) (children.tokens ++ .endTag name :: rest))
      s.emitted.head? s.context = .ok r)
    (h : Passes o (.endTag name :: rest) (s.accept (.startTag name attributes) r) children.tokens
      s₁)
    (hres : r.context.Resumes s₁.context)
    (hinside : children.tokens ≠ [] →
      r.context.region o = Region.inside o name children.tokens (s.context.region o))
    (hr' : react o (s₁.window (.endTag name) rest) s₁.emitted.head? s₁.context = .ok r') :
    r.context.anchorAsTag = s.context.anchorAsTag ∧
      r'.context.anchorAsTag = s₁.context.anchorAsTag := by
  by_cases hname : name = "a"
  · subst hname
    by_cases hnil : children.tokens = []
    · have hstart : (s.window (.startTag "a" attributes)
          (children.tokens ++ .endTag "a" :: rest)).isEmptyPair "a" = true := by
        rw [isEmptyPair_startTag, hnil]
        rfl
      have hend : (s₁.window (.endTag "a") rest).isEmptyPair "a" = true := by
        rw [isEmptyPair_endTag children h.before_eq, hnil]
        rfl
      exact ⟨anchorAsTag_of_react (fun _ => Window.noAnchor_of_isEmptyPair rfl hstart) hr,
        anchorAsTag_of_react (fun _ => Window.noAnchor_of_isEmptyPair rfl hend) hr'⟩
    · have hreg : s.context.region o ≠ .ordinary := by
        intro hreg
        rw [isAnchorSite_iff.mpr ⟨hreg, rfl, hnil⟩] at hsite
        cases hsite
      have hregion : s₁.context.region o ≠ .ordinary := by
        rw [hres.region_eq, hinside hnil]
        cases hcase : s.context.region o with
        | ordinary => exact absurd hcase hreg
        | stripped | sensitive => simp [Region.inside]
      exact ⟨anchorAsTag_of_react (fun h => absurd h hreg) hr,
        anchorAsTag_of_react (fun h => absurd h hregion) hr'⟩
  · have hstart : (Html.Token.startTag name attributes).tagName ≠ "a" := hname
    have hend : (Html.Token.endTag name).tagName ≠ "a" := hname
    exact ⟨anchorAsTag_of_react (fun _ => Window.noAnchor_of_ne hstart) hr,
      anchorAsTag_of_react (fun _ => Window.noAnchor_of_ne hend) hr'⟩

/-- The tags of an element answer it if it is an anchor with content, and count its pending end
tag. -/
theorem answered_of_tags
    (hbefore : Passes o (.startTag name attributes :: (children.tokens ++ .endTag name :: rest)) {}
      before s)
    (hr : react o (s.window (.startTag name attributes) (children.tokens ++ .endTag name :: rest))
      s.emitted.head? s.context = .ok r)
    (h : Passes o (.endTag name :: rest) (s.accept (.startTag name attributes) r) children.tokens
      s₁)
    (hres : r.context.Resumes s₁.context)
    (hr' : react o (s₁.window (.endTag name) rest) s₁.emitted.head? s₁.context = .ok r')
    (hinside : children.tokens ≠ [] →
      r.context.region o = Region.inside o name children.tokens (s.context.region o))
    (htags : s.context.anchorAsTag ≤ s.context.anchor)
    (hpending : s₁.context.anchorAsTag =
      r.context.anchorAsTag - dissolved o (r.context.region o) children) :
    (∀ site ∈ (if isAnchorSite (s.context.region o) name children then
        [⟨s.context.anchorAsTag, before, attributes, children, rest⟩] else []),
      AnchorSite.Answered o site) ∧
      r.context.anchorAsTag = s.context.anchorAsTag +
        (isAnchorSite (s.context.region o) name children && keepsAnchor o children).toNat ∧
      r'.context.anchorAsTag = s.context.anchorAsTag -
        (dissolved o (Region.inside o name children.tokens (s.context.region o)) children +
          (dissolves o (s.context.region o) name children).toNat) := by
  rw [dissolved_inside hinside] at hpending
  cases hsite : isAnchorSite (s.context.region o) name children with
  | false =>
    obtain ⟨hopen, hclose⟩ := tags_of_no_site hsite hr h hres hinside hr'
    refine ⟨List.forall_mem_nil _, hopen, ?_⟩
    rw [hclose, hpending, hopen]
    simp [dissolves, hsite]
  | true =>
    obtain ⟨hreg, rfl, -⟩ := isAnchorSite_iff.mp hsite
    obtain ⟨hopen, hclose, hstart, hend⟩ := tags_of_site hsite htags hr h hres hr'
    rw [hreg, inside_anchor] at hpending
    refine ⟨?_, hopen, ?_⟩
    · rw [if_pos rfl, List.forall_mem_singleton]
      refine ⟨s, r, s₁, r', hbefore, hr, h, hr', hstart, hend.trans ?_⟩
      have hcloses : 0 < s₁.context.anchorAsTag ↔ AnchorSite.closes o
          ⟨s.context.anchorAsTag, before, attributes, children, rest⟩ = true := by
        rw [hpending, hopen, AnchorSite.closes, decide_eq_true_iff]
        exact Nat.sub_pos_iff_lt
      exact if_congr hcloses rfl rfl
    · rw [hclose, hpending, hopen, dissolves, hsite, hreg, inside_anchor]
      cases keepsAnchor o children <;> simp <;> omega

/-- Leaves at the front of a passage leave the number of pending end tags alone. -/
theorem Passes.behind_leaves {ts us : List Html.Token} (hts : ∀ t ∈ ts, t.IsLeaf)
    (hbefore : Passes o (ts ++ us ++ after) {} before s) (h : Passes o after s (ts ++ us) s')
    (htags : s.context.anchorAsTag ≤ s.context.anchor) :
    ∃ s₁, Passes o (us ++ after) {} (before ++ ts) s₁ ∧ Passes o after s₁ us s' ∧
      s₁.context.anchorAsTag ≤ s₁.context.anchor ∧
      s₁.context.anchorAsTag = s.context.anchorAsTag ∧
      s₁.context.region o = s.context.region o := by
  obtain ⟨s₁, h₁, hres, h₂⟩ := h.of_leaves_append hts htags
  rw [List.append_assoc] at hbefore
  exact ⟨s₁, hbefore.append h₁, h₂, hres.tags, h₁.anchorAsTag_leaves hts, hres.region_eq⟩

/-- Every anchor of a forest is answered, and the anchors that dissolve take as many of the pending
end tags away as there are. -/
theorem Passes.anchorSites (hbefore : Passes o (f.tokens ++ after) {} before s)
    (h : Passes o after s f.tokens s') (htags : s.context.anchorAsTag ≤ s.context.anchor) :
    (∀ site ∈ anchorSites o s.context.anchorAsTag (s.context.region o) before after f,
      site.Answered o) ∧
      s'.context.anchorAsTag =
        s.context.anchorAsTag - dissolved o (s.context.region o) f := by
  induction f generalizing before after s s' with
  | nil =>
    cases h
    exact ⟨List.forall_mem_nil _, rfl⟩
  | text content rest ih =>
    obtain ⟨s₁, hbefore₁, h₁, htags₁, hpending, hregion⟩ :=
      Passes.behind_leaves (fun _ => Html.isLeaf_of_mem_textTokens) hbefore h htags
    have hrest := ih hbefore₁ h₁ htags₁
    rwa [hpending, hregion] at hrest
  | comment content rest ih =>
    have hleaf : ∀ t ∈ [Html.Token.comment content], t.IsLeaf := by
      simpa using Html.isLeaf_comment content
    obtain ⟨s₁, hbefore₁, h₁, htags₁, hpending, hregion⟩ :=
      Passes.behind_leaves hleaf hbefore h htags
    have hrest := ih hbefore₁ h₁ htags₁
    rwa [hpending, hregion] at hrest
  | element name attributes children rest ihc ih =>
    cases hv : Html.isVoid name with
    | true =>
      have hleaf : ∀ t ∈ [Html.Token.emptyTag name attributes], t.IsLeaf := by
        simpa using Html.isLeaf_emptyTag attributes hv
      rw [Forest.tokens, if_pos hv] at hbefore h
      obtain ⟨s₁, hbefore₁, h₁, htags₁, hpending, hregion⟩ :=
        Passes.behind_leaves hleaf hbefore h htags
      have hrest := ih hbefore₁ h₁ htags₁
      rw [hpending, hregion] at hrest
      simpa [Conversion.anchorSites, dissolved, hv] using hrest
    | false =>
      obtain ⟨r, s₁, r', hr, htags₁, hc, hr', hres, hres', -, hinside, hs'⟩ :=
        h.of_element hv htags
      have hstart : Passes o (.startTag name attributes :: (children.tokens ++
          .endTag name :: (rest.tokens ++ after))) {} before s := by
        simpa [Forest.tokens, hv] using hbefore
      have hopened : Passes o (children.tokens ++ .endTag name :: (rest.tokens ++ after)) {}
          (before ++ [.startTag name attributes]) (s.accept (.startTag name attributes) r) :=
        hstart.append (.cons hr (.nil _))
      have hclosed : Passes o (rest.tokens ++ after) {}
          (before ++ .startTag name attributes :: children.tokens ++ [.endTag name])
          (s₁.accept (.endTag name) r') := by
        have hend : Passes o (rest.tokens ++ after) s₁ [.endTag name]
            (s₁.accept (.endTag name) r') := .cons hr' (.nil _)
        simpa using (hopened.append hc).append hend
      obtain ⟨hcontent, hpending₁⟩ := ihc hopened hc htags₁
      obtain ⟨hrest, hpending'⟩ := ih hclosed hs' hres'.tags
      obtain ⟨hown, hopen, hclose⟩ := answered_of_tags hstart hr hc hres hr' hinside htags hpending₁
      rw [Conversion.anchorSites, dissolved, hv, if_neg Bool.false_ne_true,
        if_neg Bool.false_ne_true, List.forall_mem_append, List.forall_mem_append]
      change s'.context.anchorAsTag = r'.context.anchorAsTag -
        dissolved o (r'.context.region o) rest at hpending'
      refine ⟨⟨hown, ?_, ?_⟩, ?_⟩
      · rw [← hopen, ← anchorSites_inside hinside]
        exact hcontent
      · rw [← hclose, ← hres'.region_eq]
        exact hrest
      · rw [hpending', hclose, hres'.region_eq, Nat.sub_sub]

def AnchorSite.Matches (o : Options) (site : AnchorSite) : Prop := site.closes o = site.kept o

/-- What can be said of the anchors of an element that is not void. -/
theorem forall_anchorSites_element {P : AnchorSite → Prop} (hv : Html.isVoid name = false) :
    (∀ site ∈ anchorSites o pending region before after (.element name attributes children f),
        P site) ↔
      (isAnchorSite region name children = true →
        P ⟨pending, before, attributes, children, f.tokens ++ after⟩) ∧
      (∀ site ∈ anchorSites o
          (pending + (isAnchorSite region name children && keepsAnchor o children).toNat)
          (Region.inside o name children.tokens region) (before ++ [.startTag name attributes])
          (.endTag name :: (f.tokens ++ after)) children, P site) ∧
      ∀ site ∈ anchorSites o (pending -
          (dissolved o (Region.inside o name children.tokens region) children +
            (dissolves o region name children).toNat)) region
          (before ++ .startTag name attributes :: children.tokens ++ [.endTag name]) after f,
        P site := by
  rw [anchorSites, hv, if_neg Bool.false_ne_true, List.forall_mem_append, List.forall_mem_append]
  refine and_congr_left fun _ => ?_
  cases isAnchorSite region name children <;> simp

/-- Where an end tag is pending and all end tags go with their start tags, no anchor dissolves. -/
theorem dissolved_of_matches (hpending : 0 < pending)
    (h : ∀ site ∈ anchorSites o pending region before after f, site.Matches o) :
    dissolved o region f = 0 := by
  induction f generalizing pending region before after with
  | nil => rfl
  | text content rest ih | comment content rest ih => exact ih hpending h
  | element name attributes children rest ihc ih =>
    rw [dissolved]
    cases hv : Html.isVoid name with
    | true =>
      rw [anchorSites, if_pos hv] at h
      simpa using ih hpending h
    | false =>
      obtain ⟨hown, hcontent, hrest⟩ := (forall_anchorSites_element hv).mp h
      have hinner := ihc (Nat.add_pos_left hpending _) hcontent
      have hnone : dissolves o region name children = false := by
        by_contra hd
        rw [Bool.not_eq_false, dissolves, Bool.and_eq_true, Bool.not_eq_true'] at hd
        have hmatches := hown hd.1
        rw [AnchorSite.Matches, AnchorSite.closes, AnchorSite.kept, hd.2,
          dissolved_of_not_keepsAnchor hd.2, decide_eq_false_iff_not] at hmatches
        exact hmatches hpending
      rw [hinner, hnone] at hrest ⊢
      simpa using ih hpending hrest

/-- Where all end tags go with their start tags, no anchor dissolves inside one that is kept. -/
theorem dissolved_of_kept
    (h : ∀ site ∈ anchorSites o pending region before after f, site.Matches o) :
    ∀ site ∈ anchorSites o pending region before after f,
      site.kept o = true → dissolved o .ordinary site.children = 0 := by
  induction f generalizing pending region before after with
  | nil => exact List.forall_mem_nil _
  | text content rest ih | comment content rest ih => exact ih h
  | element name attributes children rest ihc ih =>
    cases hv : Html.isVoid name with
    | true =>
      rw [anchorSites, if_pos hv] at h ⊢
      exact ih h
    | false =>
      rw [forall_anchorSites_element hv] at h ⊢
      refine ⟨fun hsite hkept => ?_, ihc h.2.1, ih h.2.2⟩
      obtain ⟨rfl, rfl, -⟩ := isAnchorSite_iff.mp hsite
      have hkeeps : keepsAnchor o children = true := hkept
      have hcontent := h.2.1
      rw [hsite, hkeeps, inside_anchor] at hcontent
      exact dissolved_of_matches (Nat.succ_pos pending) hcontent

/-- Where no anchor dissolves inside one that is kept, all end tags go with their start tags. -/
theorem matches_of_dissolved (hpending : pending = 0 ∨ dissolved o region f = 0)
    (h : ∀ site ∈ anchorSites o pending region before after f,
      site.kept o = true → dissolved o .ordinary site.children = 0) :
    ∀ site ∈ anchorSites o pending region before after f, site.Matches o := by
  induction f generalizing pending region before after with
  | nil => exact List.forall_mem_nil _
  | text content rest ih | comment content rest ih => exact ih hpending h
  | element name attributes children rest ihc ih =>
    rw [dissolved] at hpending
    cases hv : Html.isVoid name with
    | true =>
      rw [anchorSites, if_pos hv] at h ⊢
      rw [hv, if_pos rfl, Nat.zero_add] at hpending
      exact ih hpending h
    | false =>
      rw [hv, if_neg Bool.false_ne_true] at hpending
      rw [forall_anchorSites_element hv] at h ⊢
      obtain ⟨hown, hcontent, hrest⟩ := h
      refine ⟨fun hsite => ?_, ihc ?_ hcontent, ih ?_ hrest⟩
      · rw [AnchorSite.Matches, AnchorSite.closes, AnchorSite.kept]
        cases hkeeps : keepsAnchor o children with
        | true => simp [hown hsite hkeeps]
        | false =>
          have hzero : pending = 0 := by simpa [dissolves, hsite, hkeeps] using hpending
          simp [hzero]
      · cases hkept : isAnchorSite region name children && keepsAnchor o children with
        | true =>
          rw [Bool.and_eq_true] at hkept
          obtain ⟨rfl, rfl, -⟩ := isAnchorSite_iff.mp hkept.1
          rw [inside_anchor]
          exact .inr (hown hkept.1 hkept.2)
        | false => exact hpending.imp id fun hsum => by omega
      · omega

/-- Every anchor with content is answered: its start tag stays as HTML where it is kept, and its
end tag where one is pending. The two go together for all anchors exactly when no anchor that
dissolves, a link or one without an address, stands inside of one that is kept. -/
theorem anchorTags_answered (o : Options) (f : Forest) :
    (∀ site ∈ anchorSites o 0 .ordinary [] [] f, site.stream = f.tokens ∧ site.Answered o) ∧
      ((∀ site ∈ anchorSites o 0 .ordinary [] [] f, site.closes o = site.kept o) ↔
        ∀ site ∈ anchorSites o 0 .ordinary [] [] f,
          site.kept o = true → dissolved o .ordinary site.children = 0) := by
  obtain ⟨s, hs, -⟩ := exists_passes_tokens o f [] {} (Nat.le_refl 0)
  have hregion : ({} : State).context.region o = .ordinary := by simp [Context.region]
  have hanswered := (Passes.anchorSites (.nil {}) hs (Nat.le_refl 0)).1
  rw [hregion] at hanswered
  refine ⟨fun site hsite => ⟨?_, hanswered site hsite⟩, dissolved_of_kept,
    matches_of_dissolved (.inl rfl)⟩
  simpa using stream_of_mem_anchorSites hsite

/-- A link inside of an anchor that is kept: the link ends with an end tag of its own, and none is
left for the anchor. -/
theorem endTag_taken_by_link :
    let address (href : String) : Html.Attributes := .ofList [(.plain "href", href)]
    let link : Forest := .element "a" (address "v") (.text "x" .nil) .nil
    let bold : Forest := .element "b" ∅ (link.append (.text "y" .nil)) .nil
    let f : Forest := .element "a" (address "u") bold .nil
    (∃ site ∈ anchorSites {} 0 .ordinary [] [] f, site.kept {} = true ∧ site.closes {} = false) ∧
      (∃ site ∈ anchorSites {} 0 .ordinary [] [] f, site.kept {} = false ∧ site.closes {} = true) ∧
      (Converter.ofOptions {}).render f.tokens = .ok "<a href='u'>**[x](v)</a>y**" := by
  decide +kernel

end HtmlMarkdown.Conversion
