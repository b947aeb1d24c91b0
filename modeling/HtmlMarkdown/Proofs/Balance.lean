import HtmlMarkdown.Proofs.Brackets

/-!
# Balance

A conversion answers every token of a forest without a failure, and behind it the same elements are
open as before. So a forest as a whole leaves nothing open: every counter is at zero again and every
stack is empty.
-/

namespace HtmlMarkdown.Conversion

open Html (Forest)

variable {o : Options} {w : Window} {last : Option Markdown.Token} {ctx : Context}

def Window.opensSensitive (o : Options) (w : Window) : Bool :=
  match Html.roleOf w.token.tagName with
  | .code | .script => true
  | .pre => preMode o w != .paragraph
  | _ => false

theorem isSensitive_of_opensSensitive (h : w.opensSensitive o = true) :
    Html.isSensitive w.token.tagName = true := by
  apply Html.isSensitive_of_roleOf
  unfold Window.opensSensitive at h
  split at h
  · next hr => exact .inl hr
  · next hr => exact .inr (.inr hr)
  · next hr => exact .inr (.inl hr)
  · cases h

theorem inside_ordinary {name : String} (hn : w.token.tagName = name)
    (hs : Html.roleOf name = .script → o.stripScripts = false) :
    Region.inside o name w.after .ordinary =
      if w.opensSensitive o then .sensitive else .ordinary := by
  unfold Region.inside Window.opensSensitive
  rw [hn]
  cases hr : Html.roleOf name with
  | script => simp [hs hr]
  | pre =>
    simp only [preMode, Window.codeFollows]
    have hbehavior : o.preBehavior = .codeBlock ∨ o.preBehavior = .paragraph := by
      cases o.preBehavior <;> simp
    by_cases hcode : nextAcrossSpace opensCode w.after = true
    · simp [hcode]
    · rcases hbehavior with hp | hp <;> simp [hcode, hp]
  | _ => rfl

theorem resumes_emphasis (strong opening : Bool) (h : ctx.anchorAsTag ≤ ctx.anchor) :
    ctx.Resumes (emphasis o w strong opening ctx).context := by
  obtain ⟨_, _, ⟨_, rfl⟩, -, heq⟩ := emphasis_eq o w strong opening ctx
  rw [heq]
  exact ⟨rfl, h⟩

theorem resumes_autolink (t : Html.Token) (h : ctx.anchorAsTag ≤ ctx.anchor) :
    ctx.Resumes (autolink o t ctx).context := by
  unfold autolink
  dsimp only
  split_ifs <;> exact .refl h

theorem resumes_emptyPair (t : Html.Token) (name : String) (h : ctx.anchorAsTag ≤ ctx.anchor) :
    ctx.Resumes (emptyPair o t name ctx).context := by
  unfold emptyPair
  split
  · exact resumes_autolink t h
  · exact .refl h

theorem exists_otherTag (o : Options) (t : Html.Token) (ctx : Context)
    (hm : Html.hasMarkdown t.tagName = false) :
    ∃ r, otherTag o t ctx = .ok r ∧ r.context = ctx := by
  unfold otherTag
  simp only [hm]
  split_ifs <;> first | contradiction | exact ⟨_, rfl, rfl⟩

def closeRole (o : Options) (name : String) (w : Window) (ctx : Context) :
    Html.Role → Except Failure Reaction
  | .heading level => heading name level false ctx
  | .paragraph => paragraph name false ctx
  | .division => if o.divAsBlock then paragraph name false ctx else .ok (.quiet ctx)
  | .list _ => closeList w.listFollows ctx
  | .item => item o false ctx
  | .emphasis strong => .ok (emphasis o w strong false ctx)
  | .anchor => closeAnchor o w ctx
  | .quote => quote false ctx
  | .code => code false ctx
  | .pre => closePre (o.clean w.token) ctx
  | .script => script o w false ctx
  | .bareLink => .ok (autolink o w.token ctx)
  | .other => otherTag o w.token ctx

theorem pairedTag_of_endTag {name : String} (hw : w.token = .endTag name) :
    pairedTag o w ctx = closeRole o name w ctx (Html.roleOf name) := by
  have hn : w.token.tagName = name := by rw [hw]; rfl
  have hk : (w.token.kind == .startTag) = false := by rw [hw]; rfl
  simp only [pairedTag, hn, hk]
  cases Html.roleOf name <;> rfl

/-- The start tag of an element that is not a script left out: it has an answer, opens a sensitive
element or none, and the end tag of its name takes it back. -/
theorem exists_pairedTag {name : String} {attributes : Html.Attributes}
    (hv : Html.isVoid name = false) (hw : w.token = .startTag name attributes)
    (h : ctx.anchorAsTag ≤ ctx.anchor)
    (hs : Html.roleOf name = .script → o.stripScripts = false) :
    ∃ r, pairedTag o w ctx = .ok r ∧ r.context.anchorAsTag ≤ r.context.anchor ∧
      r.context.scriptStrip = ctx.scriptStrip ∧
      r.context.sensitive = ctx.sensitive + (w.opensSensitive o).toNat ∧
      ∀ w', w'.token = .endTag name → Reverts (pairedTag o w') ctx r.context := by
  have hn : w.token.tagName = name := by rw [hw]; rfl
  have hk : (w.token.kind == .startTag) = true := by rw [hw]; rfl
  suffices hrole : ∃ r, pairedTag o w ctx = .ok r ∧ r.context.anchorAsTag ≤ r.context.anchor ∧
      r.context.scriptStrip = ctx.scriptStrip ∧
      r.context.sensitive = ctx.sensitive + (w.opensSensitive o).toNat ∧
      ∀ w', w'.token = .endTag name →
        Reverts (fun ctx' => closeRole o name w' ctx' (Html.roleOf name)) ctx r.context by
    obtain ⟨r, hr, htags, hstrip, hsens, hclose⟩ := hrole
    refine ⟨r, hr, htags, hstrip, hsens, fun w' hw' ctx' h' => ?_⟩
    rw [pairedTag_of_endTag hw']
    exact hclose w' hw' ctx' h'
  simp only [pairedTag, Window.opensSensitive, hn, hk]
  cases hr : Html.roleOf name with
  | heading level => exact ⟨_, rfl, h, rfl, rfl, fun _ _ => heading_reverts name level ctx⟩
  | paragraph => exact ⟨_, rfl, h, rfl, rfl, fun _ _ => paragraph_reverts name ctx⟩
  | division =>
    simp only [closeRole]
    cases o.divAsBlock with
    | true => exact ⟨_, rfl, h, rfl, rfl, fun _ _ => paragraph_reverts name ctx⟩
    | false => exact ⟨_, rfl, h, rfl, rfl, fun _ _ ctx' h' => ⟨_, rfl, h'⟩⟩
  | list kind =>
    have hsame : (openList kind ctx).context.anchorAsTag ≤ (openList kind ctx).context.anchor ∧
        (openList kind ctx).context.scriptStrip = ctx.scriptStrip ∧
        (openList kind ctx).context.sensitive = ctx.sensitive := by
      obtain ⟨_, ⟨_, rfl⟩, heq | heq⟩ := openList_eq kind ctx <;> rw [heq] <;>
        exact ⟨h, rfl, rfl⟩
    exact ⟨_, rfl, hsame.1, hsame.2.1, hsame.2.2,
      fun w' _ => list_reverts kind w'.listFollows ctx⟩
  | item =>
    have hsame : (nextBullet o (ctx.openBlock "li")).1.anchorAsTag ≤
          (nextBullet o (ctx.openBlock "li")).1.anchor ∧
        (nextBullet o (ctx.openBlock "li")).1.scriptStrip = ctx.scriptStrip ∧
        (nextBullet o (ctx.openBlock "li")).1.sensitive = ctx.sensitive := by
      obtain ⟨lists, -, heq⟩ := nextBullet_eq o (ctx.openBlock "li")
      rw [heq]
      exact ⟨h, rfl, rfl⟩
    exact ⟨_, rfl, hsame.1, hsame.2.1, hsame.2.2, fun _ _ => item_reverts o ctx⟩
  | emphasis strong =>
    have hopen := resumes_emphasis (o := o) (w := w) strong true h
    refine ⟨_, rfl, hopen.tags, hopen.scriptStrip_eq, hopen.sensitive_eq,
      fun w' _ ctx' h' => ⟨_, rfl, ?_⟩⟩
    exact (hopen.trans h').trans (resumes_emphasis strong false h'.tags)
  | anchor =>
    have hopen := nesting_openAnchor o w ctx h
    exact ⟨_, rfl, hopen.2, congrArg Nesting.scriptStrip hopen.1,
      congrArg Nesting.sensitive hopen.1, fun w' _ => anchor_reverts o w w' ctx h⟩
  | quote => exact ⟨_, rfl, h, rfl, rfl, fun _ _ => quote_reverts ctx⟩
  | code => exact ⟨_, rfl, h, rfl, rfl, fun _ _ => code_reverts ctx⟩
  | pre =>
    refine ⟨_, rfl, ?_, ?_, ?_, fun w' _ => pre_reverts (preMode o w) (o.clean w.token)
      (o.clean w'.token) ctx⟩ <;> cases preMode o w <;> first | exact h | rfl
  | script =>
    simp only [script, hs hr, if_true, Bool.false_eq_true, if_false]
    exact ⟨_, rfl, h, rfl, rfl, fun w' _ => script_reverts o w' ctx⟩
  | bareLink =>
    have hopen := resumes_autolink (o := o) w.token h
    refine ⟨_, rfl, hopen.tags, hopen.scriptStrip_eq, hopen.sensitive_eq,
      fun w' _ ctx' h' => ⟨_, rfl, ?_⟩⟩
    exact (hopen.trans h').trans (resumes_autolink w'.token h'.tags)
  | other =>
    have hm := Html.hasMarkdown_of_roleOf_other hr hv
    obtain ⟨r, hopen, hctx⟩ := exists_otherTag o w.token ctx (hn ▸ hm)
    refine ⟨r, hopen, by rw [hctx]; exact h, by rw [hctx], by rw [hctx]; rfl, ?_⟩
    intro w' hw' ctx' h'
    have hm' : Html.hasMarkdown w'.token.tagName = false := by rw [hw']; exact hm
    obtain ⟨r', hclose, hctx'⟩ := exists_otherTag o w'.token ctx' hm'
    refine ⟨r', hclose, ?_⟩
    rw [hctx']
    exact hctx ▸ h'

theorem brackets_of_pairedTag {name : String} {attributes : Html.Attributes} {w' : Window}
    {ctx' : Context} {r r' : Reaction} (hw : w.token = .startTag name attributes)
    (hw' : w'.token = .endTag name) (hreg : ctx.region o = .ordinary)
    (hs : Html.roleOf name = .script → o.stripScripts = false)
    (hstrip : r.context.scriptStrip = ctx.scriptStrip)
    (hsens : r.context.sensitive = ctx.sensitive + (w.opensSensitive o).toNat)
    (hres : r.context.Resumes ctx') (hr : pairedTag o w ctx = .ok r)
    (hr' : pairedTag o w' ctx' = .ok r') :
    Brackets o name ctx ctx' .ordinary (r.context.region o) r r' := by
  have hn : w.token.tagName = name := by rw [hw]; rfl
  have hn' : w'.token.tagName = name := by rw [hw']; rfl
  have hk : (w.token.kind == .startTag) = true := by rw [hw]; rfl
  have hk' : (w'.token.kind == .startTag) = false := by rw [hw']; rfl
  by_cases hname : Html.isSensitive name = true
  · have hthree : name = "code" ∨ name = "pre" ∨ name = "script" := by
      simpa [Html.isSensitive, Html.sensitiveElements] using hname
    simp only [pairedTag, hn, hk] at hr
    simp only [pairedTag, hn', hk'] at hr'
    rcases hthree with rfl | rfl | rfl
    · exact brackets_of_code hreg hr hr'
    · cases hr
      exact brackets_of_pre hreg hres hr'
    · exact brackets_of_script hreg (hs (by decide)) hr hr'
  · rw [Bool.not_eq_true] at hname
    have hclosed : w.opensSensitive o = false := by
      by_contra hop
      rw [Bool.not_eq_false] at hop
      have := isSensitive_of_opensSensitive hop
      simp [hn, hname] at this
    have hin : r.context.region o = .ordinary := by
      rw [← hreg]
      exact Context.region_eq_of_counters hstrip (by rw [hsens, hclosed]; rfl)
    have hr₁ := tame_pairedTag (by rw [hw]; simp [Html.Token.startTag]) (hn ▸ hname) hr
    have hr₂ := tame_pairedTag (by rw [hw']; simp [Html.Token.endTag]) (hn' ▸ hname) hr'
    rw [hin]
    exact .tame (hn ▸ hr₁) (hn' ▸ hr₂)

theorem tag_of_emptyPair {name : String} (hn : w.token.name = some name)
    (he : w.isEmptyPair name = true) : tag o w ctx = .ok (emptyPair o w.token name ctx) := by
  simp only [tag, hn, Option.filter_some, he, if_true]

theorem tag_of_content {name : String} (hn : w.token.name = some name)
    (he : w.isEmptyPair name = false) : tag o w ctx = pairedTag o w ctx := by
  simp only [tag, hn, Option.filter_some, he, Bool.false_eq_true, if_false]

/-- The end tag of a script that is left out, or of a script inside one. -/
theorem strip_reverts {w : Window} (last : Option Markdown.Token)
    (hw : w.token = .endTag "script") (ho : o.stripScripts = true) (ctx' : Context)
    (h : (ctx.enter .scriptStrip).Resumes ctx') :
    react o w last ctx' = .ok (.quiet { ctx' with scriptStrip := ctx'.scriptStrip - 1 }) ∧
      ctx.Resumes { ctx' with scriptStrip := ctx'.scriptStrip - 1 } := by
  have hs : ctx'.scriptStrip = ctx.scriptStrip + 1 := h.scriptStrip_eq
  have hreg : ctx'.region o = .stripped := Context.region_eq_stripped_iff.mpr ⟨ho, by omega⟩
  refine ⟨?_, ?_, h.tags⟩
  · rw [react_of_stripped hreg, hw]
    rfl
  · change { ctx'.nesting with scriptStrip := ctx'.scriptStrip - 1 } = ctx.nesting
    rw [h.nesting, hs]
    rfl

/-- The end tag of an outermost sensitive element is none of its content. -/
theorem insideSensitive_of_outermost {name : String} {t : Html.Token} (ht : t = .endTag name)
    (hname : Html.isSensitive name = true) (hone : ctx.sensitive = 1) :
    insideSensitive t ctx = none := by
  have hn : t.tagName = name := by rw [ht]; rfl
  have hk : t.kind = .endTag := by rw [ht]; rfl
  simp [insideSensitive, hn, hname, hk, hone]

/-- The end tag of an element with content is answered by the part of the element, also where the
element is an outermost sensitive one. -/
theorem react_endTag {name : String} {attributes : Html.Attributes} {w' : Window} {ctx' : Context}
    {r : Reaction} (last' : Option Markdown.Token) (hw : w.token = .startTag name attributes)
    (hw' : w'.token = .endTag name) (he' : w'.isEmptyPair name = false)
    (hreg : ctx.region o = .ordinary) (hss : r.context.scriptStrip = ctx.scriptStrip)
    (hsens : r.context.sensitive = ctx.sensitive + (w.opensSensitive o).toNat)
    (hres : r.context.Resumes ctx') : react o w' last' ctx' = pairedTag o w' ctx' := by
  have hn : w.token.tagName = name := by rw [hw]; rfl
  have hk' : w'.token.kind = .endTag := by rw [hw']; rfl
  have hzero := (Context.region_eq_ordinary_iff.mp hreg).2
  rw [react_eq_ordinary, Conversion.ordinary, hk']
  · exact tag_of_content (by rw [hw']; rfl) he'
  · intro hc
    rw [Context.region_eq_stripped_iff, hres.scriptStrip_eq, hss] at hc
    exact (Context.region_eq_ordinary_iff.mp hreg).1 hc
  · intro hpos
    have hone : ctx'.sensitive = (w.opensSensitive o).toNat := by
      rw [hres.sensitive_eq, hsens, hzero, Nat.zero_add]
    cases hop : w.opensSensitive o with
    | false => simp [hone, hop] at hpos
    | true =>
      rw [hop] at hone
      exact insideSensitive_of_outermost hw' (hn ▸ isSensitive_of_opensSensitive hop) hone

/-- `Opens o w name ctx r`: behind the answer `r` to the start tag of an element, its content stands
in the region inside of the element, and the end tag has an answer that takes the start tag back. -/
structure Opens (o : Options) (w : Window) (name : String) (ctx : Context) (r : Reaction) :
    Prop where
  tags : r.context.anchorAsTag ≤ r.context.anchor
  region : w.isEmptyPair name = false →
    r.context.region o = Region.inside o name w.after (ctx.region o)
  closes : ∀ w' last' ctx', w'.token = .endTag name → w'.isEmptyPair name = w.isEmptyPair name →
    r.context.Resumes ctx' → ∃ r', react o w' last' ctx' = .ok r' ∧ ctx.Resumes r'.context ∧
      Brackets o name ctx ctx' (ctx.region o) (r.context.region o) r r'

section Opens

variable {name : String} {attributes : Html.Attributes}

theorem opens_insideStripped (hw : w.token = .startTag name attributes)
    (h : ctx.anchorAsTag ≤ ctx.anchor) (hreg : ctx.region o = .stripped) :
    Opens o w name ctx (insideStripped w.token ctx) := by
  have ho := (Context.region_eq_stripped_iff.mp hreg).1
  by_cases hscript : name = "script"
  · subst hscript
    have hin : (ctx.enter .scriptStrip).region o = .stripped :=
      Context.region_eq_stripped_iff.mpr ⟨ho, Nat.succ_pos _⟩
    have hopen : insideStripped w.token ctx = .quiet (ctx.enter .scriptStrip) := by rw [hw]; rfl
    rw [hopen]
    refine ⟨h, fun _ => by rw [hreg]; exact hin, fun w' last' ctx' hw' _ h' => ?_⟩
    obtain ⟨hr', hres⟩ := strip_reverts last' hw' ho ctx' h'
    refine ⟨_, hr', hres, ?_⟩
    rw [Reaction.quiet, hin, hreg]
    exact .stripped ⟨rfl, rfl⟩ ⟨rfl, rfl⟩
  · have hquiet {t : Html.Token} (ht : t.tagName = name) (ctx : Context) :
        insideStripped t ctx = .quiet ctx := by
      rw [insideStripped, ht, if_pos hscript]
    rw [hquiet (by rw [hw]; rfl)]
    refine ⟨h, fun _ => by rw [hreg]; exact hreg, fun w' last' ctx' hw' _ h' => ?_⟩
    refine ⟨_, react_of_stripped (h'.region_eq.trans hreg), ?_⟩
    rw [hquiet (by rw [hw']; rfl)]
    refine ⟨h', ?_⟩
    rw [Reaction.quiet, hreg]
    exact .stripped ⟨rfl, rfl⟩ ⟨rfl, rfl⟩

/-- A sensitive element inside of a sensitive element is counted. -/
theorem opens_nestedSensitive (hw : w.token = .startTag name attributes)
    (h : ctx.anchorAsTag ≤ ctx.anchor) (hreg : ctx.region o = .sensitive)
    (hname : Html.isSensitive name = true) :
    Opens o w name ctx (.emit (ctx.enter .sensitive) [nestedSensitive w.token .startCode]) := by
  have hin : (ctx.enter .sensitive).region o = .sensitive := by
    rw [Context.region_eq_sensitive_iff] at hreg ⊢
    exact ⟨hreg.1, Nat.succ_pos _⟩
  refine ⟨h, fun _ => by rw [hreg]; exact hin, fun w' last' ctx' hw' _ h' => ?_⟩
  have hs : ctx'.sensitive = ctx.sensitive + 1 := h'.sensitive_eq
  have hclose : insideSensitive w'.token ctx' = some (.emit
      { ctx' with sensitive := ctx.sensitive } [nestedSensitive w'.token .endCode]) := by
    have htwo : 2 ≤ ctx.sensitive + 1 := by
      have := (Context.region_eq_sensitive_iff.mp hreg).2
      omega
    have hn' : w'.token.tagName = name := by rw [hw']; rfl
    have hk' : w'.token.kind = .endTag := by rw [hw']; rfl
    simp [insideSensitive, hn', hname, hk', hs, htwo]
  refine ⟨_, react_of_insideSensitive (h'.region_eq.trans hin) hclose, ⟨?_, h'.tags⟩, ?_⟩
  · change { ctx'.nesting with sensitive := ctx.sensitive } = ctx.nesting
    rw [h'.nesting]
    rfl
  · have hsame : w.token.name = some name ∧ w'.token.name = some name := by
      rw [hw, hw']
      exact ⟨rfl, rfl⟩
    simp only [nestedSensitive, hsame, Reaction.emit, hin, hreg]
    split_ifs
    · exact .innerCode ⟨rfl, rfl⟩ ⟨rfl, rfl⟩
    · exact .raw ⟨rfl, rfl⟩ ⟨rfl, rfl⟩ (by rw [hw]; simp [Html.Token.startTag])
        (by rw [hw']; simp [Html.Token.endTag])

/-- Any other element inside of a sensitive element stays as it stands. -/
theorem opens_raw (hw : w.token = .startTag name attributes) (h : ctx.anchorAsTag ≤ ctx.anchor)
    (hreg : ctx.region o = .sensitive) (hname : Html.isSensitive name = false) :
    Opens o w name ctx (.emit ctx [.html w.token]) := by
  refine ⟨h, fun _ => by rw [hreg]; exact hreg, fun w' last' ctx' hw' _ h' => ?_⟩
  have hkept : insideSensitive w'.token ctx' = some (.emit ctx' [.html w'.token]) := by
    have hn' : w'.token.tagName = name := by rw [hw']; rfl
    simp [insideSensitive, hn', hname]
  refine ⟨_, react_of_insideSensitive (h'.region_eq.trans hreg) hkept, h', ?_⟩
  simp only [Reaction.emit, hreg]
  exact .raw ⟨rfl, rfl⟩ ⟨rfl, rfl⟩ (by rw [hw]; simp [Html.Token.startTag])
    (by rw [hw']; simp [Html.Token.endTag])

theorem opens_emptyPair (h : ctx.anchorAsTag ≤ ctx.anchor) (hreg : ctx.region o = .ordinary)
    (he : w.isEmptyPair name = true) : Opens o w name ctx (emptyPair o w.token name ctx) := by
  have hopen := resumes_emptyPair (o := o) w.token name h
  have hin := hopen.region_eq.trans hreg
  refine ⟨hopen.tags, fun hne => absurd hne (by simp [he]), fun w' last' ctx' hw' he' h' => ?_⟩
  refine ⟨emptyPair o w'.token name ctx', ?_,
    (hopen.trans h').trans (resumes_emptyPair (o := o) w'.token name h'.tags), ?_⟩
  · have hk' : w'.token.kind = .endTag := by rw [hw']; rfl
    rw [react_of_ordinary (h'.region_eq.trans hin), Conversion.ordinary, hk']
    exact tag_of_emptyPair (by rw [hw']; rfl) (he'.trans he)
  · rw [hin, hreg]
    exact .tame tame_emptyPair tame_emptyPair

/-- A script that is left out. -/
theorem opens_strippedScript (h : ctx.anchorAsTag ≤ ctx.anchor) (hreg : ctx.region o = .ordinary)
    (ho : o.stripScripts = true) : Opens o w "script" ctx (.quiet (ctx.enter .scriptStrip)) := by
  have hin : (ctx.enter .scriptStrip).region o = .stripped :=
    Context.region_eq_stripped_iff.mpr ⟨ho, Nat.succ_pos _⟩
  have hinside : Region.inside o "script" w.after .ordinary = .stripped := by
    have hrole : Html.roleOf "script" = .script := by decide
    simp [Region.inside, hrole, ho]
  refine ⟨h, fun _ => by rw [hreg]; exact hin.trans hinside.symm,
    fun w' last' ctx' hw' _ h' => ?_⟩
  obtain ⟨hr', hres⟩ := strip_reverts last' hw' ho ctx' h'
  refine ⟨_, hr', hres, ?_⟩
  rw [Reaction.quiet, hin, hreg]
  exact .strippedScript ⟨rfl, rfl⟩ ⟨rfl, rfl⟩

theorem exists_opens_pairedTag (hv : Html.isVoid name = false)
    (hw : w.token = .startTag name attributes) (h : ctx.anchorAsTag ≤ ctx.anchor)
    (hreg : ctx.region o = .ordinary) (he : w.isEmptyPair name = false)
    (hs : Html.roleOf name = .script → o.stripScripts = false) :
    ∃ r, pairedTag o w ctx = .ok r ∧ Opens o w name ctx r := by
  obtain ⟨r, hr, htags, hss, hsens, hclose⟩ := exists_pairedTag (o := o) hv hw h hs
  have hinside : r.context.region o = Region.inside o name w.after .ordinary := by
    rw [inside_ordinary (by rw [hw]; rfl) hs]
    cases hop : w.opensSensitive o with
    | true => exact region_enter_sensitive hreg hss (by rw [hsens, hop]; rfl)
    | false =>
      rw [Context.region_eq_of_counters hss (by rw [hsens, hop]; rfl), hreg]
      rfl
  refine ⟨r, hr, htags, fun _ => by rw [hreg]; exact hinside, fun w' last' ctx' hw' he' h' => ?_⟩
  have hreact : react o w' last' ctx' = pairedTag o w' ctx' :=
    react_endTag last' hw hw' (he'.trans he) hreg hss hsens h'
  obtain ⟨r', hr', hres⟩ := hclose w' hw' ctx' h'
  refine ⟨r', hreact.trans hr', hres, ?_⟩
  rw [hreg]
  exact brackets_of_pairedTag hw hw' hreg hs hss hsens h' hr hr'

end Opens

/-- Whatever its region, a start tag of an element that is not void has an answer, and the end tag
of the element takes it back. -/
theorem exists_react_startTag (o : Options) (w : Window) (last : Option Markdown.Token)
    {name : String} {attributes : Html.Attributes}
    (hv : Html.isVoid name = false) (hw : w.token = .startTag name attributes)
    (h : ctx.anchorAsTag ≤ ctx.anchor) :
    ∃ r, react o w last ctx = .ok r ∧ Opens o w name ctx r := by
  have hn : w.token.tagName = name := by rw [hw]; rfl
  have hname : w.token.name = some name := by rw [hw]; rfl
  have hk : w.token.kind = .startTag := by rw [hw]; rfl
  cases hreg : ctx.region o with
  | stripped => exact ⟨_, react_of_stripped hreg, opens_insideStripped hw h hreg⟩
  | sensitive =>
    cases hsens : Html.isSensitive name with
    | true =>
      have hopen : insideSensitive w.token ctx =
          some (.emit (ctx.enter .sensitive) [nestedSensitive w.token .startCode]) := by
        simp [insideSensitive, hn, hsens, hk]
      exact ⟨_, react_of_insideSensitive hreg hopen, opens_nestedSensitive hw h hreg hsens⟩
    | false =>
      have hkept : insideSensitive w.token ctx = some (.emit ctx [.html w.token]) := by
        simp [insideSensitive, hn, hsens]
      exact ⟨_, react_of_insideSensitive hreg hkept, opens_raw hw h hreg hsens⟩
  | ordinary =>
    have htag : react o w last ctx = tag o w ctx := by
      rw [react_of_ordinary hreg]
      simp only [Conversion.ordinary, hk]
    rw [htag]
    cases he : w.isEmptyPair name with
    | true => exact ⟨_, tag_of_emptyPair hname he, opens_emptyPair h hreg he⟩
    | false =>
      rw [tag_of_content hname he]
      by_cases hstrip : Html.roleOf name = .script ∧ o.stripScripts = true
      · obtain rfl : name = "script" := Html.name_of_ownName? (by rw [hstrip.1]; rfl)
        refine ⟨_, ?_, opens_strippedScript h hreg hstrip.2⟩
        simp [pairedTag, hn, hk, hstrip.1, script, hstrip.2]
      · have hkeep : Html.roleOf name = .script → o.stripScripts = false :=
          fun hrole => by simpa [hrole] using hstrip
        exact exists_opens_pairedTag hv hw h hreg he hkeep

theorem resumes_image (t : Html.Token) (h : ctx.anchorAsTag ≤ ctx.anchor) :
    ctx.Resumes (image o t ctx).context := by
  unfold image
  split
  · exact .refl h
  · split
    · exact .refl h
    · split <;> exact ⟨rfl, h⟩

theorem resumes_emptyTag (t : Html.Token) (h : ctx.anchorAsTag ≤ ctx.anchor) :
    ctx.Resumes (emptyTag o t last ctx).context := by
  unfold emptyTag lineBreak
  dsimp only
  split_ifs
  · exact resumes_image t h
  all_goals exact .refl h

theorem resumes_characters (h : ctx.anchorAsTag ≤ ctx.anchor) :
    ctx.Resumes (characters w ctx).context := by
  unfold characters
  split <;> exact ⟨rfl, h⟩

theorem resumes_spaceCharacters (t : Html.Token) (h : ctx.anchorAsTag ≤ ctx.anchor) :
    ctx.Resumes (spaceCharacters t last ctx).context := by
  unfold spaceCharacters
  split <;> exact .refl h

/-- A token that is no tag of a paired element leaves the open elements alone. -/
theorem exists_react_leaf (o : Options) (w : Window) (last : Option Markdown.Token)
    (ht : w.token.IsLeaf) (h : ctx.anchorAsTag ≤ ctx.anchor) :
    ∃ r, react o w last ctx = .ok r ∧ ctx.Resumes r.context := by
  have hordinary : ∃ r, Conversion.ordinary o w last ctx = .ok r ∧ ctx.Resumes r.context := by
    unfold Conversion.ordinary
    cases hk : w.token.kind with
    | startTag => exact absurd hk ht.startTag
    | endTag => exact absurd hk ht.endTag
    | emptyTag => exact ⟨_, rfl, resumes_emptyTag w.token h⟩
    | characters => exact ⟨_, rfl, resumes_characters h⟩
    | spaceCharacters => exact ⟨_, rfl, resumes_spaceCharacters w.token h⟩
    | comment =>
      refine ⟨_, rfl, ?_⟩
      split <;> exact .refl h
    | doctype | parseError => exact ⟨_, rfl, .refl h⟩
  cases hreg : ctx.region o with
  | stripped =>
    refine ⟨_, react_of_stripped hreg, ?_⟩
    unfold insideStripped
    split_ifs
    · exact .refl h
    · split
      · next hk => exact absurd hk ht.startTag
      · next hk => exact absurd hk ht.endTag
      · exact .refl h
  | sensitive =>
    have hin : insideSensitive w.token ctx = some (.emit ctx [.html w.token]) := by
      simp [insideSensitive, ht.sensitive]
    exact ⟨_, react_of_insideSensitive hreg hin, .refl h⟩
  | ordinary => rwa [react_of_ordinary hreg]

theorem Context.Resumes.of_leaf (hr : react o w last ctx = .ok r)
    (ht : w.token.IsLeaf) (h : ctx.anchorAsTag ≤ ctx.anchor) : ctx.Resumes r.context := by
  obtain ⟨r₀, hr₀, hres⟩ := exists_react_leaf o w last ht h
  obtain rfl : r₀ = r := Except.ok.inj (hr₀.symm.trans hr)
  exact hres

theorem exists_passes_leaves {ts : List Html.Token}
    (hts : ∀ t ∈ ts, t.IsLeaf) (rest : List Html.Token) (s : State)
    (h : s.context.anchorAsTag ≤ s.context.anchor) :
    ∃ s', Passes o rest s ts s' ∧ s.context.Resumes s'.context := by
  induction ts generalizing s with
  | nil => exact ⟨s, .nil s, .refl h⟩
  | cons t ts ih =>
    obtain ⟨r, hr, hresumes⟩ := exists_react_leaf o (s.window t (ts ++ rest)) s.emitted.head?
      (hts t List.mem_cons_self) h
    obtain ⟨s', hs', hresumes'⟩ := ih (fun u hu => hts u (List.mem_cons_of_mem t hu))
      (s.accept t r) hresumes.tags
    exact ⟨s', .cons hr hs', hresumes.trans hresumes'⟩

/-- A passage that begins with leaves passes over them first. -/
theorem Passes.of_leaves_append {ts us rest : List Html.Token} {s s' : State}
    (hts : ∀ t ∈ ts, t.IsLeaf) (h : Passes o rest s (ts ++ us) s')
    (htags : s.context.anchorAsTag ≤ s.context.anchor) :
    ∃ s₁, Passes o (us ++ rest) s ts s₁ ∧ s.context.Resumes s₁.context ∧
      Passes o rest s₁ us s' := by
  obtain ⟨s₁, h₁, h₂⟩ := h.of_append
  obtain ⟨s₁', h₁', hres⟩ := exists_passes_leaves (o := o) hts (us ++ rest) s htags
  obtain rfl := h₁.unique h₁'
  exact ⟨s₁, h₁, hres, h₂⟩

/-- The tags around the tokens of a forest see an empty pair where there is no token. -/
theorem isEmptyPair_startTag (f : Forest) (s : State) (name : String) (attributes : Html.Attributes)
    (rest : List Html.Token) :
    (s.window (.startTag name attributes) (f.tokens ++ .endTag name :: rest)).isEmptyPair name =
      f.tokens.isEmpty := by
  cases hf : f.tokens with
  | nil => simp [Window.isEmptyPair, State.window, Html.Token.startTag, Html.Token.isNamed,
      Html.Token.endTag]
  | cons t ts =>
    have ht := f.head?_tokens_kind t (by simp [hf])
    simp [Window.isEmptyPair, State.window, Html.Token.startTag, Html.Token.isNamed, ht]

theorem isEmptyPair_endTag (f : Forest) {s : State} {name : String} {attributes : Html.Attributes}
    (hs : s.before = f.tokens.getLast?.or (some (.startTag name attributes)))
    (rest : List Html.Token) :
    (s.window (.endTag name) rest).isEmptyPair name = f.tokens.isEmpty := by
  cases hf : f.tokens.getLast? with
  | none =>
    rw [List.getLast?_eq_none_iff] at hf
    simp [Window.isEmptyPair, State.window, Html.Token.startTag, Html.Token.isNamed,
      Html.Token.endTag, hs, hf]
  | some t =>
    have ht := f.getLast?_tokens_kind t hf
    have hne : f.tokens.isEmpty = false := by
      cases hts : f.tokens with
      | nil => simp [hts] at hf
      | cons => rfl
    simp [Window.isEmptyPair, State.window, Html.Token.isNamed, Html.Token.endTag, hs, hf, ht, hne]

/-- A forest passes wherever it stands, and leaves the open elements as they were. -/
theorem exists_passes_tokens (o : Options) (f : Forest) (rest : List Html.Token) (s : State)
    (h : s.context.anchorAsTag ≤ s.context.anchor) :
    ∃ s', Passes o rest s f.tokens s' ∧ s.context.Resumes s'.context := by
  induction f using Forest.leavesRec generalizing rest s with
  | nil => exact ⟨s, .nil s, .refl h⟩
  | leaves ts f g hts htokens ih =>
    obtain ⟨s₁, h₁, hr₁⟩ := exists_passes_leaves (o := o) hts (f.tokens ++ rest) s h
    obtain ⟨s₂, h₂, hr₂⟩ := ih rest s₁ hr₁.tags
    rw [htokens]
    exact ⟨s₂, h₁.append h₂, hr₁.trans hr₂⟩
  | element name attributes children f hv ihc ih =>
    rw [Forest.tokens, hv, if_neg Bool.false_ne_true]
    obtain ⟨r, hr, htags, -, hclose⟩ := exists_react_startTag o
      (s.window (.startTag name attributes)
        (children.tokens ++ .endTag name :: (f.tokens ++ rest))) s.emitted.head? hv rfl h
    obtain ⟨s₁, h₁, hr₁⟩ := ihc (.endTag name :: (f.tokens ++ rest))
      (s.accept (.startTag name attributes) r) htags
    obtain ⟨r', hr', hresumes, -⟩ := hclose (s₁.window (.endTag name) (f.tokens ++ rest))
      s₁.emitted.head? s₁.context rfl
      (by rw [isEmptyPair_endTag children h₁.before_eq, isEmptyPair_startTag]) hr₁
    obtain ⟨s₂, h₂, hr₂⟩ := ih rest (s₁.accept (.endTag name) r') hresumes.tags
    refine ⟨s₂, .cons ?_ (h₁.append (.cons hr' h₂)), hresumes.trans hr₂⟩
    simpa using hr

/-- Whether content begins with code is not changed by what follows its element. -/
theorem nextAcrossSpace_append_endTag (ts : List Html.Token) (name : String)
    (rest : List Html.Token) :
    nextAcrossSpace opensCode (ts ++ .endTag name :: rest) = nextAcrossSpace opensCode ts := by
  rcases ts with _ | ⟨t, _ | ⟨u, us⟩⟩ <;>
    simp [nextAcrossSpace, opensCode, Html.Token.isNamed, Html.Token.endTag]

/-- What follows an element does not change the region of its content. -/
theorem inside_append (o : Options) (name : String) (ts rest : List Html.Token) (region : Region) :
    Region.inside o name (ts ++ .endTag name :: rest) region = Region.inside o name ts region := by
  unfold Region.inside
  rw [nextAcrossSpace_append_endTag]

theorem Passes.resumes {f : Forest} {rest : List Html.Token} {s s' : State}
    (h : Passes o rest s f.tokens s') (htags : s.context.anchorAsTag ≤ s.context.anchor) :
    s.context.Resumes s'.context := by
  obtain ⟨s'', h', hres⟩ := exists_passes_tokens o f rest s htags
  rw [h.unique h']
  exact hres

/-- The passage of an element that is not void: its two tags, and its content between them. -/
theorem Passes.of_element {name : String} {attributes : Html.Attributes} {children f : Forest}
    {rest : List Html.Token} {s s' : State} (hv : Html.isVoid name = false)
    (htags : s.context.anchorAsTag ≤ s.context.anchor)
    (h : Passes o rest s (Forest.element name attributes children f).tokens s') :
    ∃ r s₁ r', react o (s.window (.startTag name attributes)
          (children.tokens ++ .endTag name :: (f.tokens ++ rest))) s.emitted.head?
        s.context = .ok r ∧
      r.context.anchorAsTag ≤ r.context.anchor ∧
      Passes o (.endTag name :: (f.tokens ++ rest)) (s.accept (.startTag name attributes) r)
        children.tokens s₁ ∧
      react o (s₁.window (.endTag name) (f.tokens ++ rest)) s₁.emitted.head? s₁.context = .ok r' ∧
      r.context.Resumes s₁.context ∧
      s.context.Resumes r'.context ∧
      Brackets o name s.context s₁.context (s.context.region o) (r.context.region o) r r' ∧
      (children.tokens ≠ [] →
        r.context.region o = Region.inside o name children.tokens (s.context.region o)) ∧
      Passes o rest (s₁.accept (.endTag name) r') f.tokens s' := by
  rw [Forest.tokens, hv, if_neg Bool.false_ne_true, List.cons_append] at h
  cases h with
  | @cons _ _ _ _ r hr hs =>
    obtain ⟨s₁, h₁, h₂⟩ := hs.of_append
    cases h₂ with
    | @cons _ _ _ _ r' hr' hs' =>
      simp only [List.append_assoc, List.cons_append] at hr h₁
      obtain ⟨r₀, hr₀, htags₀, hinside, hclose⟩ := exists_react_startTag o
        (s.window (.startTag name attributes)
          (children.tokens ++ .endTag name :: (f.tokens ++ rest))) s.emitted.head? hv rfl htags
      obtain rfl : r₀ = r := Except.ok.inj (hr₀.symm.trans hr)
      have hres : r₀.context.Resumes s₁.context := h₁.resumes htags₀
      obtain ⟨r₁, hr₁, hres', hb⟩ := hclose (s₁.window (.endTag name) (f.tokens ++ rest))
        s₁.emitted.head? s₁.context rfl
        (by rw [isEmptyPair_endTag children h₁.before_eq, isEmptyPair_startTag]) hres
      obtain rfl : r₁ = r' := Except.ok.inj (hr₁.symm.trans hr')
      refine ⟨r₀, s₁, r₁, hr, htags₀, h₁, hr', hres, hres', hb, fun hne => ?_, hs'⟩
      rw [hinside (by rw [isEmptyPair_startTag]; simpa using hne)]
      exact inside_append o name children.tokens _ _

/-- A conversion never fails on the tokens of a forest, and leaves no element open. -/
theorem run_tokens_balanced (o : Options) (f : Forest) :
    ∃ s, ({} : State).run o f.tokens = (s, none) ∧
      convert o f.tokens = .ok s.finished ∧
      s.context.unbalanced = [] ∧
      (∀ c, s.context.depth c = 0) ∧
      s.context.blocks = [] ∧ s.context.lists = [] ∧ s.context.preModes = [] := by
  obtain ⟨s, hs, hresumes⟩ := exists_passes_tokens o f [] {} (Nat.le_refl 0)
  have hanchor : s.context.anchor = 0 := hresumes.anchor_eq
  have hdepth : ∀ c, s.context.depth c = 0 := by
    intro c
    cases c with
    | anchor => exact hanchor
    | anchorAsTag => exact Nat.le_zero.mp (hanchor ▸ hresumes.tags)
    | paragraph => exact hresumes.paragraph_eq
    | blockquote => exact hresumes.blockquote_eq
    | sensitive => exact hresumes.sensitive_eq
    | scriptStrip => exact hresumes.scriptStrip_eq
  have hlists : s.context.lists = [] := List.map_eq_nil_iff.mp hresumes.lists_eq
  have hrun := hs.run_eq
  rw [List.append_nil] at hrun
  refine ⟨s, hrun, hs.convert_eq, ?_, hdepth, hresumes.blocks_eq, hlists, hresumes.preModes_eq⟩
  simp [Context.unbalanced, hdepth, hresumes.blocks_eq, hlists]

end HtmlMarkdown.Conversion
