import HtmlMarkdown.Proofs.PageStream
import HtmlMarkdown.Proofs.Replacement

/-!
# Preformatted text with and without a code element

Inside a sensitive element every token is kept as it stands, apart from the tags of code, which
become code delimiters. A `<pre>` that begins with a code element has its delimiters from there, and
a bare `<pre>` that is to be a block of code gets them from its own tags. So it makes no difference
whether the content of a bare `<pre>` is wrapped in a code element, whatever the content is.
-/

namespace HtmlMarkdown.Conversion

open Html (Forest)
open Markdown (Token)

/-- What becomes of a token inside a sensitive element. -/
def verbatim (t : Html.Token) : Token :=
  match t.kind with
  | .startTag => nestedSensitive t .startCode
  | .endTag => nestedSensitive t .endCode
  | _ => .html t

def Context.inner (ctx : Context) (name : String) : Context :=
  if Html.isSensitive name then ctx.enter .sensitive else ctx

variable {o : Options} {s s' : State} {ctx : Context} {name : String} {t : Html.Token}
  {rest : List Html.Token} {attributes : Html.Attributes}

theorem nestedSensitive_of_not_sensitive (h : Html.isSensitive t.tagName = false)
    (delimiter : Token) : nestedSensitive t delimiter = .html t := by
  have hcode : t.name ≠ some "code" := by
    intro hn
    rw [Html.Token.tagName, hn] at h
    exact absurd h (by decide)
  rw [nestedSensitive, if_neg hcode]

theorem insideSensitive_leaf (ht : t.IsLeaf) (ctx : Context) :
    insideSensitive t ctx = some (.emit ctx [verbatim t]) := by
  have hplain : verbatim t = .html t := by
    unfold verbatim
    split
    · next hk => exact absurd hk ht.startTag
    · next hk => exact absurd hk ht.endTag
    · rfl
  rw [hplain]
  simp [insideSensitive, ht.sensitive]

theorem insideSensitive_startTag (name : String) (attributes : Html.Attributes) (ctx : Context) :
    insideSensitive (.startTag name attributes) ctx =
      some (.emit (ctx.inner name) [verbatim (.startTag name attributes)]) := by
  have hname : (Html.Token.startTag name attributes).tagName = name := rfl
  unfold insideSensitive Context.inner
  rw [hname]
  cases hs : Html.isSensitive name with
  | true => rfl
  | false =>
    have hplain : verbatim (.startTag name attributes) = .html (.startTag name attributes) :=
      nestedSensitive_of_not_sensitive (hname ▸ hs) _
    rw [hplain]
    rfl

/-- The end tag of an element inside a sensitive one takes back what its start tag has done. -/
theorem insideSensitive_endTag (name : String) (h : 0 < ctx.sensitive) :
    insideSensitive (.endTag name) (ctx.inner name) =
      some (.emit ctx [verbatim (.endTag name)]) := by
  have hname : (Html.Token.endTag name).tagName = name := rfl
  unfold insideSensitive Context.inner
  rw [hname]
  cases hs : Html.isSensitive name with
  | true =>
    have hdeep : 2 ≤ (ctx.enter .sensitive).sensitive := Nat.succ_le_succ h
    simp only [if_true, Bool.not_true, Bool.false_eq_true, if_false,
      show (Html.Token.endTag name).kind = .endTag from rfl, hdeep, and_self]
    rfl
  | false =>
    have hplain : verbatim (.endTag name) = .html (.endTag name) :=
      nestedSensitive_of_not_sensitive (hname ▸ hs) _
    rw [hplain]
    rfl

theorem Context.region_inner (h : ctx.region o = .sensitive) (name : String) :
    (ctx.inner name).region o = .sensitive := by
  unfold inner
  split
  · rw [Context.region_eq_sensitive_iff] at h ⊢
    exact ⟨h.1, Nat.succ_pos _⟩
  · exact h

theorem Context.blockquote_inner (ctx : Context) (name : String) :
    (ctx.inner name).blockquote = ctx.blockquote := by
  unfold inner
  split <;> rfl

theorem react_verbatim {ctx' : Context} {after : List Html.Token} {last : Option Token}
    (hctx : s.context = ctx) (h : ctx.region o = .sensitive)
    (ht : insideSensitive t ctx = some (.emit ctx' [verbatim t])) :
    react o (s.window t after) last s.context = .ok (.emit ctx' [verbatim t]) := by
  rw [hctx]
  exact react_of_insideSensitive h ht

theorem produces_verbatim_leaves {ts : List Html.Token} (hts : ∀ t ∈ ts, t.IsLeaf)
    (hctx : s.context = ctx) (h : ctx.region o = .sensitive) :
    Produces o rest s ts (stamped ctx.blockquote (ts.map verbatim)) ctx := by
  induction ts generalizing s with
  | nil => exact .nil hctx
  | cons t ts ih =>
    obtain ⟨ht, hts⟩ := List.forall_mem_cons.mp hts
    exact .cons (react_verbatim hctx h (insideSensitive_leaf ht ctx)) (ih hts rfl)

/-- Inside a sensitive element every tree is kept token by token. -/
theorem produces_verbatim (f : Forest) (hctx : s.context = ctx) (h : ctx.region o = .sensitive) :
    Produces o rest s f.tokens (stamped ctx.blockquote (f.tokens.map verbatim)) ctx := by
  induction f using Forest.leavesRec generalizing rest s ctx with
  | nil => exact .nil hctx
  | leaves ts f g hts htokens ih =>
    rw [htokens, List.map_append, stamped_append]
    exact (produces_verbatim_leaves hts hctx h).append fun s' hs' _ _ => ih hs' h
  | element name attributes children f hv ihc ih =>
    have hin := Context.region_inner h name
    have hpos := (Context.region_eq_sensitive_iff.mp h).2
    have hstamped : stamped ctx.blockquote
        ((Forest.element name attributes children f).tokens.map verbatim) =
          stamped (ctx.inner name).blockquote [verbatim (.startTag name attributes)] ++
            (stamped (ctx.inner name).blockquote (children.tokens.map verbatim) ++
              (stamped ctx.blockquote [verbatim (.endTag name)] ++
                stamped ctx.blockquote (f.tokens.map verbatim))) := by
      simp [Forest.tokens, hv, stamped, ctx.blockquote_inner name]
    rw [hstamped, Forest.tokens, hv, if_neg Bool.false_ne_true, List.cons_append]
    refine .cons (react_verbatim hctx h (insideSensitive_startTag name attributes ctx)) ?_
    refine (ihc rfl hin).append fun s' hs' _ _ => ?_
    exact .cons (react_verbatim hs' hin (insideSensitive_endTag name hpos)) (ih rfl h)

/-- What is written for a `<pre>` around its content, where the content begins with code or does
not. -/
def preStream (o : Options) (attributes : Html.Attributes) (hasCode : Bool)
    (content : List Token) : List Token :=
  [.startBlock, .native .opening (o.clean (.startTag "pre" attributes))] ++
    (if hasCode then content else .startCode :: (content ++ [.endCode])) ++
    [.native .closing (o.clean (.endTag "pre")), .endBlock]

def Context.preformatted (ctx : Context) (mode : PreMode) : Context :=
  { ctx with sensitive := ctx.sensitive + 1, preModes := mode :: ctx.preModes }

def modeOf (hasCode : Bool) : PreMode := if hasCode then .native else .injectedCode

theorem preMode_eq_modeOf {f : Forest} {hasCode : Bool}
    (hcode : nextAcrossSpace opensCode f.tokens = hasCode)
    (hmode : hasCode = true ∨ o.preBehavior = .codeBlock) (s : State) (rest : List Html.Token) :
    preMode o (s.window (.startTag "pre" attributes) (f.tokens ++ .endTag "pre" :: rest)) =
      modeOf hasCode := by
  have hfollows : (s.window (.startTag "pre" attributes)
      (f.tokens ++ .endTag "pre" :: rest)).codeFollows = hasCode :=
    (nextAcrossSpace_append_endTag f.tokens "pre" rest).trans hcode
  unfold preMode modeOf
  rw [hfollows]
  cases hasCode with
  | true => rfl
  | false =>
    have hbehavior : o.preBehavior = .codeBlock := by simpa using hmode
    simp [hbehavior]

theorem tokens_pre (attributes : Html.Attributes) (f : Forest) :
    (Forest.element "pre" attributes f .nil).tokens =
      .startTag "pre" attributes :: (f.tokens ++ [.endTag "pre"]) := by
  have hv : Html.isVoid "pre" = false := by decide
  simp [Forest.tokens, hv]

theorem tokens_code (attributes : Html.Attributes) (f : Forest) :
    (Forest.element "code" attributes f .nil).tokens =
      .startTag "code" attributes :: (f.tokens ++ [.endTag "code"]) := by
  have hv : Html.isVoid "code" = false := by decide
  simp [Forest.tokens, hv]

theorem roleOf_pre : Html.roleOf "pre" = .pre := by decide

theorem openPre_modeOf (hasCode : Bool) (raw : Html.Token) (ctx : Context) :
    openPre (modeOf hasCode) raw ctx = .emit (ctx.preformatted (modeOf hasCode))
      ([.startBlock, .native .opening raw] ++ if hasCode then [] else [.startCode]) := by
  cases hasCode <;> rfl

theorem closePre_preformatted (hasCode : Bool) (raw : Html.Token) (ctx : Context) :
    closePre raw (ctx.preformatted (modeOf hasCode)) =
      .ok (.emit ctx ((if hasCode then [] else [.endCode]) ++
        [.native .closing raw, .endBlock])) := by
  cases hasCode <;> rfl

/-- The end tag of a `<pre>` that is outermost takes back what its start tag has done. -/
theorem react_preEnd_of_ordinary {hasCode : Bool} {last : Option Token}
    (hctx : s.context = ctx.preformatted (modeOf hasCode)) (hreg : ctx.region o = .ordinary)
    (hfull : (s.window (.endTag "pre") rest).isEmptyPair "pre" = false) :
    react o (s.window (.endTag "pre") rest) last s.context =
      .ok (.emit ctx ((if hasCode then [] else [.endCode]) ++
        [.native .closing (o.clean (.endTag "pre")), .endBlock])) := by
  obtain ⟨hstrip, hzero⟩ := Context.region_eq_ordinary_iff.mp hreg
  have hnone : insideSensitive (.endTag "pre") s.context = none := by
    refine insideSensitive_of_outermost rfl (by decide) ?_
    rw [hctx, Context.preformatted, hzero]
  have hregion : s.context.region o ≠ .stripped := by
    rw [hctx, ne_eq, Context.region_eq_stripped_iff]
    exact hstrip
  rw [react_eq_ordinary hregion fun _ => hnone]
  refine (tag_of_content rfl hfull).trans ?_
  rw [pairedTag_of_endTag rfl, roleOf_pre, hctx]
  exact closePre_preformatted hasCode _ ctx

/-- A `<pre>` with content is a block around it, with code delimiters of its own where the content
has none at its begin. -/
theorem produces_pre {f : Forest} {hasCode : Bool} (hctx : s.context = ctx)
    (hreg : ctx.region o = .ordinary) (hne : f.tokens ≠ [])
    (hcode : nextAcrossSpace opensCode f.tokens = hasCode)
    (hmode : hasCode = true ∨ o.preBehavior = .codeBlock) :
    Produces o rest s (Forest.element "pre" attributes f .nil).tokens
      (stamped ctx.blockquote (preStream o attributes hasCode (f.tokens.map verbatim))) ctx := by
  have hfull : f.tokens.isEmpty = false := by simpa using hne
  have hopen : react o (s.window (.startTag "pre" attributes) (f.tokens ++ .endTag "pre" :: rest))
      s.emitted.head? s.context = .ok (openPre (modeOf hasCode)
        (o.clean (.startTag "pre" attributes)) ctx) := by
    have hname : (s.window (.startTag "pre" attributes)
      (f.tokens ++ .endTag "pre" :: rest)).token.tagName = "pre" := rfl
    rw [hctx, react_of_ordinary hreg]
    refine (tag_of_content rfl ((isEmptyPair_startTag f s "pre" attributes rest).trans hfull)).trans
      ?_
    simp only [pairedTag, hname, roleOf_pre, preformatted, preMode_eq_modeOf hcode hmode]
    rfl
  have hin : (ctx.preformatted (modeOf hasCode)).region o = .sensitive :=
    region_enter_sensitive hreg rfl rfl
  have hstream : stamped ctx.blockquote (preStream o attributes hasCode (f.tokens.map verbatim)) =
      stamped (ctx.preformatted (modeOf hasCode)).blockquote
          ([.startBlock, .native .opening (o.clean (.startTag "pre" attributes))] ++
            if hasCode then [] else [.startCode]) ++
        (stamped (ctx.preformatted (modeOf hasCode)).blockquote (f.tokens.map verbatim) ++
          stamped ctx.blockquote ((if hasCode then [] else [.endCode]) ++
            [.native .closing (o.clean (.endTag "pre")), .endBlock])) := by
    rw [show (ctx.preformatted (modeOf hasCode)).blockquote = ctx.blockquote from rfl,
      ← stamped_append, ← stamped_append, preStream]
    cases hasCode <;> simp
  rw [hstream, tokens_pre]
  refine .cons ?_ ((produces_verbatim f rfl hin).append fun s' hs' _ hb => ?_)
  · rw [List.append_assoc, List.singleton_append, hopen, openPre_modeOf]
  · exact .one (react_preEnd_of_ordinary hs' hreg ((isEmptyPair_endTag f hb rest).trans hfull))

/-- The content with and without code around it is a `<pre>` with the same stream. -/
theorem preStream_code (o : Options) (attributes inner : Html.Attributes) (f : Forest) :
    preStream o attributes true
        ((Forest.element "code" inner f .nil).tokens.map verbatim) =
      preStream o attributes false (f.tokens.map verbatim) := by
  have hcode : (Forest.element "code" inner f .nil).tokens.map verbatim =
      .startCode :: (f.tokens.map verbatim ++ [.endCode]) := by
    rw [tokens_code, List.map_cons, List.map_append]
    rfl
  rw [hcode]
  rfl

/-- A piece of a stream as a step of two conversions side by side. -/
theorem Parallel.of_produces {start m m' : Nat} {piece piece' : List Html.Token} {us : List Token}
    (h : Parallel start m m' s s') (hlast : piece'.getLast? = piece.getLast?)
    (hp : Produces o rest s piece us s.context)
    (hp' : Produces o rest s' piece' us s'.context) :
    ∃ s₂ s₂', Passes o rest s piece s₂ ∧ Passes o rest s' piece' s₂' ∧
      Parallel start m m' s₂ s₂' := by
  obtain ⟨s₂, h₂, hctx, hemitted⟩ := hp
  obtain ⟨s₂', h₂', hctx', hemitted'⟩ := hp'
  refine ⟨s₂, s₂', h₂, h₂', ?_, ?_, ?_, ?_⟩
  · rw [h₂.before_eq, h₂'.before_eq, hlast, h.before]
  · rw [hemitted, hemitted', h.emitted]
  · rw [hctx, hctx']
    exact h.context
  · rw [hctx, hctx']
    exact h.aligned

theorem produces_stripped {ts : List Html.Token} (hreg : s.context.region o = .stripped)
    (h : Html.WellNested ts) : Produces o rest s ts [] s.context := by
  obtain ⟨ho, hs⟩ := Context.region_eq_stripped_iff.mp hreg
  obtain ⟨s', hs', hctx⟩ := exists_mutes_stripped ho h rest s hs
  exact ⟨s', hs'.passes, hctx, hs'.emitted⟩

section Wrapped

variable {attributes inner : Html.Attributes} {f : Forest}

theorem interchangeable_pre (attributes : Html.Attributes) (f g : Forest) :
    Interchangeable (Forest.element "pre" attributes f .nil).tokens
      (Forest.element "pre" attributes g .nil).tokens where
  head := by
    refine ⟨_, _, _, rfl, fun strong => ?_, tokens_pre attributes f,
      tokens_pre attributes g⟩
    rw [Html.Token.tagName, Html.Token.startTag, Option.getD_some, roleOf_pre]
    exact Html.Role.noConfusion
  left := Forest.wellNested_tokens _
  right := Forest.wellNested_tokens _

theorem nextAcrossSpace_code (inner : Html.Attributes) (f : Forest) :
    nextAcrossSpace opensCode (Forest.element "code" inner f .nil).tokens = true := by
  rw [tokens_code]
  rfl

theorem Parallel.pre_code {start m m' : Nat} (h : Parallel start m m' s s')
    (ho : o.preBehavior = .codeBlock) (hne : f.tokens ≠ [])
    (hcode : nextAcrossSpace opensCode f.tokens = false) (hs : s.context.sensitive = 0) :
    ∃ s₂ s₂', Passes o rest s (Forest.element "pre" attributes f .nil).tokens s₂ ∧
      Passes o rest s'
        (Forest.element "pre" attributes (.element "code" inner f .nil) .nil).tokens s₂' ∧
      Parallel start m m' s₂ s₂' := by
  have hlast (g : Forest) : (Forest.element "pre" attributes g .nil).tokens.getLast? =
      some (.endTag "pre") := by
    rw [tokens_pre, ← List.cons_append, List.getLast?_concat]
  have hregion : s'.context.region o = s.context.region o := by
    rw [h.context]
    exact Context.region_eq_of_counters rfl rfl
  have hquote : s'.context.blockquote = s.context.blockquote := by
    rw [h.context]
    rfl
  cases hreg : s.context.region o with
  | sensitive => exact absurd hreg (Context.region_ne_sensitive hs)
  | stripped =>
    exact h.of_produces ((hlast _).trans (hlast _).symm)
      (produces_stripped hreg (Forest.wellNested_tokens _))
      (produces_stripped (hregion.trans hreg) (Forest.wellNested_tokens _))
  | ordinary =>
    have hwrapped : Produces o rest s'
        (Forest.element "pre" attributes (.element "code" inner f .nil) .nil).tokens _ s'.context :=
      produces_pre rfl (hregion.trans hreg) (by simp [tokens_code]) (nextAcrossSpace_code inner f)
        (.inl rfl)
    rw [preStream_code, hquote] at hwrapped
    exact h.of_produces ((hlast _).trans (hlast _).symm)
      (produces_pre rfl hreg hne hcode (.inr ho)) hwrapped

/-- Where a bare `<pre>` is to be a block of code, it makes no difference whether its content is in
a code element, whatever it is: the stream is converted to the same Markdown tokens. -/
theorem convert_code_in_pre (o : Options) (ho : o.preBehavior = .codeBlock)
    {before after : List Html.Token} (attributes inner : Html.Attributes) {content : Forest}
    (hne : content.tokens ≠ []) (hcode : nextAcrossSpace opensCode content.tokens = false)
    (hs : ∀ s, Passes o ((Forest.element "pre" attributes content .nil).tokens ++ after) {} before
      s → s.context.sensitive = 0) :
    convert o (before ++ (Forest.element "pre" attributes (.element "code" inner content .nil)
        .nil).tokens ++ after) =
      convert o (before ++ (Forest.element "pre" attributes content .nil).tokens ++ after) :=
  convert_replace (interchangeable_pre attributes _ _) fun s₁ h₁ _ h =>
    h.pre_code ho hne hcode (hs s₁ h₁)

/-- Code, scripts and a `<pre>` inside a bare `<pre>`, and a fused pair of emphasis around it. -/
theorem code_in_pre_in_fused_emphasis :
    let content : Forest := .text " a\n" (.element "pre" ∅
      (.element "code" ∅ (.text "b" .nil) (.element "em" ∅ (.text "c" .nil) .nil)) .nil)
    let before : List Html.Token := [.startTag "em" ∅, .startTag "strong" ∅]
    let after : List Html.Token := [.characters "x", .endTag "strong", .endTag "em"]
    let bare := (Forest.element "pre" ∅ content .nil).tokens
    let wrapped := (Forest.element "pre" ∅ (.element "code" ∅ content .nil) .nil).tokens
    content.tokens ≠ [] ∧ nextAcrossSpace opensCode content.tokens = false ∧
      (convert { preBehavior := .codeBlock } (before ++ bare ++ after)).isOk = true ∧
      convert { preBehavior := .codeBlock } (before ++ wrapped ++ after) =
        convert { preBehavior := .codeBlock } (before ++ bare ++ after) := by
  intro content before after bare wrapped
  refine ⟨by decide +kernel, by decide +kernel, by decide +kernel,
    convert_code_in_pre _ rfl ∅ ∅ (by decide +kernel) (by decide +kernel) ?_⟩
  intro s hs
  rw [hs.context_eq]
  decide +kernel

end Wrapped

end HtmlMarkdown.Conversion
