import HtmlMarkdown.Proofs.Telling

/-!
# No text is lost

The stream of a forest shows its kept text in order: nothing is lost, doubled or moved, also where
a link has taken its text with it. A link takes the one text token of its anchor, which comes next
and is then passed over.
-/

namespace HtmlMarkdown.Conversion

open Html (Forest)
open Markdown (Token Shown shown)
open Text (ink)

variable {o : Options} {w : Window} {last : Option Token} {ctx ctx' : Context} {r r' : Reaction}
  {name : String} {s s' s'' : State}

/-- The window of the start tag of an anchor sees the text of its content. -/
theorem flatText?_window {children : Forest} {attributes : Html.Attributes}
    {rest : List Html.Token} (hne : children.tokens ≠ []) :
    (s.window (.startTag "a" attributes) (children.tokens ++ .endTag "a" :: rest)).flatText? =
      flatText? children := by
  unfold Window.flatText? flatText?
  rcases hts : children.tokens with _ | ⟨t, _ | ⟨u, ts⟩⟩
  · exact absurd hts hne
  · simp [State.window, Html.Token.isNamed, Html.Token.endTag]
  · have hu (hk : t.kind = .characters) : u.kind ≠ .endTag := children.second_tokens_kind hts hk
    simpa [State.window, Html.Token.isNamed] using fun hk hend => absurd hend (hu hk)

/-- An anchor that becomes no link shows nothing itself. -/
theorem silent_openAnchor {attributes : Html.Attributes} {children : Forest}
    (hw : w.token = .startTag "a" attributes) (hflat : w.flatText? = flatText? children)
    (h : linkText? o .ordinary "a" attributes children = none) :
    (openAnchor o w ctx).Silent ctx := by
  unfold openAnchor
  dsimp only
  rw [hflat]
  split
  · have hk : w.token.kind ≠ .characters := by simp [hw, Html.Token.startTag]
    exact silent_raw hk rfl
  · next text htext =>
    split
    · exact silent_quiet rfl
    · next href hhref =>
      rw [hw] at hhref
      cases ho : o.anchorsAsTags with
      | true => simp [ho] at htext
      | false =>
        have hchildren : flatText? children = some text := by simpa [ho] using htext
        simp [linkText?, ho, hhref, hchildren] at h

theorem titleSuffix_eq (title : Option String) : Markdown.titleSuffix title = "" ∨
    ∃ escaped, Markdown.titleSuffix title = " \"" ++ escaped ++ "\"" := by
  unfold Markdown.titleSuffix
  split
  · exact .inl rfl
  · split_ifs
    · exact .inl rfl
    · exact .inr ⟨_, rfl⟩

/-- An anchor that becomes a link shows that link, which waits for the text to be taken. -/
theorem openAnchor_of_linkText? (ho : o.simplifySelfLinks = false) {attributes : Html.Attributes}
    {children : Forest} {text : String} (hw : w.token = .startTag "a" attributes)
    (hflat : w.flatText? = flatText? children)
    (h : linkText? o .ordinary "a" attributes children = some text) :
    (openAnchor o w ctx).replacesLast = false ∧
      (openAnchor o w ctx).context.consumedText = some (w.index + 1) ∧
      ∃ markdown, shown (openAnchor o w ctx).produced = [.link markdown] ∧
        BuiltFrom markdown text := by
  unfold linkText? at h
  split_ifs at h with hlink
  obtain ⟨-, -, htags, hsome⟩ := hlink
  obtain ⟨href, hhref⟩ := Option.isSome_iff_exists.mp hsome
  obtain ⟨content, hcontent, rfl⟩ := Option.map_eq_some_iff.mp h
  have hopen : openAnchor o w ctx =
      .emit { (linkToken o href (Text.flow true content) (w.token.filledAttribute? "title")
          (ctx.enter .anchor)).1 with consumedText := some (w.index + 1) }
        [(linkToken o href (Text.flow true content) (w.token.filledAttribute? "title")
          (ctx.enter .anchor)).2] := by
    rw [← hw] at hhref
    simp [openAnchor, htags, hflat, hcontent, hhref]
  rw [hopen]
  refine ⟨rfl, rfl, ?_⟩
  unfold linkToken
  rw [ho, if_neg (by simp)]
  split_ifs
  · exact ⟨_, rfl, .inr ⟨_, rfl⟩⟩
  · exact ⟨_, rfl, .inl ⟨href, _, titleSuffix_eq _, rfl⟩⟩

theorem silent_closeAnchor (hk : w.token.kind ≠ .characters) (h : closeAnchor o w ctx = .ok r) :
    r.Silent ctx := by
  obtain ⟨_, ⟨-, rfl⟩ | ⟨_, -, rfl⟩⟩ := closeAnchor_eq h
  · exact silent_quiet rfl
  · exact silent_raw hk rfl

theorem emptyAnchor_eq (o : Options) (t : Html.Token) (ctx : Context) :
    emptyPair o t "a" ctx = .remark ctx (.emptyElement "a") := by
  have hbare : Html.isBareLink "a" = false := by decide
  simp only [emptyPair, hbare, Bool.false_eq_true, if_false]

theorem silent_emptyAnchor (t : Html.Token) : (emptyPair o t "a" ctx).Silent ctx := by
  rw [emptyAnchor_eq]
  exact ⟨rfl, rfl, rfl⟩

/-- The end tag of an anchor outside of sensitive elements, by whether it holds anything. -/
theorem react_anchorEnd (hreg : ctx.region o = .ordinary) (hw : w.token = .endTag "a") :
    react o w last ctx =
      if w.isEmptyPair "a" then .ok (emptyPair o w.token "a" ctx) else closeAnchor o w ctx := by
  have hname : w.token.name = some "a" := by rw [hw]; rfl
  have hk : w.token.kind = .endTag := by rw [hw]; rfl
  rw [react_of_ordinary hreg, ordinary, hk]
  change tag o w ctx = _
  split_ifs with he
  · exact tag_of_emptyPair hname he
  · rw [tag_of_content hname (by simpa using he)]
    have htag : w.token.tagName = "a" := by rw [hw]; rfl
    simp [pairedTag, htag, roleOf_a, hk, anchor]

theorem silent_anchorEnd (hreg : ctx.region o = .ordinary) (hw : w.token = .endTag "a")
    (h : react o w last ctx = .ok r) : r.Silent ctx := by
  rw [react_anchorEnd hreg hw] at h
  split_ifs at h
  · cases h
    exact silent_emptyAnchor w.token
  · exact silent_closeAnchor (by simp [hw, Html.Token.endTag]) h

/-- The start tag of an anchor outside of sensitive elements, by whether it holds anything. -/
theorem react_anchorStart (hreg : s.context.region o = .ordinary) (children : Forest)
    (attributes : Html.Attributes) (rest : List Html.Token) :
    react o (s.window (.startTag "a" attributes) (children.tokens ++ .endTag "a" :: rest)) last
        s.context =
      .ok (if children.tokens = [] then emptyPair o (.startTag "a" attributes) "a" s.context
        else openAnchor o (s.window (.startTag "a" attributes)
          (children.tokens ++ .endTag "a" :: rest)) s.context) := by
  have hempty := isEmptyPair_startTag children s "a" attributes rest
  generalize hw : s.window (.startTag "a" attributes) (children.tokens ++ .endTag "a" :: rest) = w
    at hempty
  have htoken : w.token = .startTag "a" attributes := by rw [← hw]; rfl
  have hname : w.token.name = some "a" := by rw [htoken]; rfl
  have hk : w.token.kind = .startTag := by rw [htoken]; rfl
  rw [react_of_ordinary hreg, ordinary, hk]
  change tag o w s.context = _
  split_ifs with hnil
  · rw [tag_of_emptyPair hname (by simp [hempty, hnil]), htoken]
  · rw [tag_of_content hname (by simp [hempty, hnil])]
    have htag : w.token.tagName = "a" := by rw [htoken]; rfl
    simp [pairedTag, htag, roleOf_a, hk, anchor]

theorem region_openAnchor (htags : ctx.anchorAsTag ≤ ctx.anchor) :
    (openAnchor o w ctx).context.region o = ctx.region o := by
  have hn := (nesting_openAnchor o w ctx htags).1
  exact Context.region_eq_of_counters (congrArg Nesting.scriptStrip hn)
    (congrArg Nesting.sensitive hn)

theorem region_anchorStart {children : Forest} {attributes : Html.Attributes}
    {rest : List Html.Token} (hreg : s.context.region o = .ordinary)
    (htags : s.context.anchorAsTag ≤ s.context.anchor)
    (hr : react o (s.window (.startTag "a" attributes) (children.tokens ++ .endTag "a" :: rest))
      last s.context = .ok r) : r.context.region o = .ordinary := by
  rw [react_anchorStart hreg] at hr
  cases hr
  split_ifs
  · exact hreg
  · exact (region_openAnchor htags).trans hreg

theorem react_takenText (hk : w.token.kind = .characters) (hreg : ctx.region o = .ordinary)
    (h : ctx.consumedText = some w.index) :
    react o w last ctx = .ok (.quiet { ctx with consumedText := none }) := by
  rw [react_of_ordinary hreg, ordinary, hk]
  simp only [characters, if_pos h]

/-- An anchor that becomes a link shows that link, and its text with it. -/
theorem tells_link (ho : o.simplifySelfLinks = false) (hreg : s.context.region o = .ordinary)
    (htags : s.context.anchorAsTag ≤ s.context.anchor) {attributes : Html.Attributes}
    {children : Forest} {text : String} {rest : List Html.Token}
    (hlink : linkText? o .ordinary "a" attributes children = some text)
    (hr : react o (s.window (.startTag "a" attributes) (children.tokens ++ .endTag "a" :: rest))
      s.emitted.head? s.context = .ok r)
    (h : Passes o (.endTag "a" :: rest) (s.accept (.startTag "a" attributes) r) children.tokens
      s') :
    Tells s s' [text] (ink (keptText o .ordinary children)) := by
  obtain ⟨t, hts, hk, rfl⟩ : ∃ t, children.tokens = [t] ∧ t.kind = .characters ∧
      text = Text.flow true t.content := by
    unfold linkText? flatText? at hlink
    split_ifs at hlink
    split at hlink
    · next t hts =>
      split_ifs at hlink with hk
      · exact ⟨t, hts, hk, by simpa using hlink.symm⟩
      · simp at hlink
    · simp at hlink
  have hne : children.tokens ≠ [] := by simp [hts]
  have hflat := @flatText?_window s children attributes rest hne
  rw [react_anchorStart hreg, if_neg hne] at hr
  obtain ⟨hkeeps, hconsumed, markdown, hshown, hbuilt⟩ :=
    @openAnchor_of_linkText? o _ s.context ho attributes children _ rfl hflat hlink
  have hregion := @region_openAnchor o (s.window (.startTag "a" attributes)
    (children.tokens ++ .endTag "a" :: rest)) s.context htags
  have htaken : r = openAnchor o (s.window (.startTag "a" attributes)
    (children.tokens ++ .endTag "a" :: rest)) s.context := (Except.ok.inj hr).symm
  rw [← htaken] at hkeeps hconsumed hshown hregion
  have hkept : keptText o .ordinary children = t.content.toList := by
    have htexts := kept_of_texts o .ordinary (f := children) (by simp [hts, hk])
    rw [htexts.1, hts]
    simp [keptCharacters, charactersOf, hk]
  rw [hts] at h
  cases h with
  | @cons _ _ _ _ r' hr' hs' =>
    cases hs'
    -- the link has taken this token, so it is skipped
    have hskip := @react_takenText o
      ((s.accept (.startTag "a" attributes) r).window t (.endTag "a" :: rest))
      (s.accept (.startTag "a" attributes) r).emitted.head? r.context hk (hregion.trans hreg)
      hconsumed
    obtain rfl := Except.ok.inj (hskip.symm.trans hr')
    refine ⟨rfl, [.link markdown], ?_, ?_⟩
    · have hshows := shown_accept (s := s) (r := r) (.startTag "a" attributes) (by simp [hkeeps])
      rw [hshown] at hshows
      exact hshows
    · rw [hkept, ← Text.ink_flow true]
      simpa using Conveys.link hbuilt .nil

/-- The tags of an element that becomes no link show nothing. -/
theorem silent_tags {children : Forest} {attributes : Html.Attributes} {rest : List Html.Token}
    {region : Region} (hb : Html.isBareLink name = false)
    (hlink : linkText? o (s.context.region o) name attributes children = none)
    (htags : s.context.anchorAsTag ≤ s.context.anchor)
    (hr : react o (s.window (.startTag name attributes) (children.tokens ++ .endTag name :: rest))
      s.emitted.head? s.context = .ok r)
    (hr' : react o (s'.window (.endTag name) rest) s'.emitted.head? s'.context = .ok r')
    (hres : r.context.Resumes s'.context)
    (hbr : Brackets o name s.context s'.context (s.context.region o) region r r') :
    r.Silent s.context ∧ r'.Silent s'.context := by
  by_cases ha : s.context.region o = .ordinary ∧ name = "a"
  · obtain ⟨hreg, rfl⟩ := ha
    rw [hreg] at hlink
    have hopen := region_anchorStart hreg htags hr
    refine ⟨?_, silent_anchorEnd (hres.region_eq.trans hopen) rfl hr'⟩
    rw [react_anchorStart hreg] at hr
    cases hr
    split_ifs with hnil
    · exact silent_emptyAnchor _
    · exact silent_openAnchor rfl (flatText?_window hnil) hlink
  · exact hbr.silent (fun hreg hname => ha ⟨hreg, hname⟩) hb

/-- An element shows its link, or what its content shows. -/
theorem tells_element (ho : o.simplifySelfLinks = false) {children : Forest}
    {attributes : Html.Attributes} {rest : List Html.Token}
    (hb : Html.isBareLink name = false) (htags : s.context.anchorAsTag ≤ s.context.anchor)
    (hs : s.context.consumedText = none)
    (hr : react o (s.window (.startTag name attributes) (children.tokens ++ .endTag name :: rest))
      s.emitted.head? s.context = .ok r)
    (hc : Passes o (.endTag name :: rest) (s.accept (.startTag name attributes) r) children.tokens
      s')
    (hr' : react o (s'.window (.endTag name) rest) s'.emitted.head? s'.context = .ok r')
    (hres : r.context.Resumes s'.context)
    (hbr : Brackets o name s.context s'.context (s.context.region o) (r.context.region o) r r')
    (hinside : children.tokens ≠ [] →
      r.context.region o = Region.inside o name children.tokens (s.context.region o))
    (hchildren : r.context.consumedText = none → Tells (s.accept (.startTag name attributes) r) s'
      (linkTexts o (r.context.region o) children)
      (ink (keptText o (r.context.region o) children))) :
    Tells s (s'.accept (.endTag name) r')
      ((linkText? o (s.context.region o) name attributes children).elim
        (linkTexts o (Region.inside o name children.tokens (s.context.region o)) children) ([·]))
      (ink (keptText o (Region.inside o name children.tokens (s.context.region o)) children)) := by
  cases hlink : linkText? o (s.context.region o) name attributes children with
  | some text =>
    obtain ⟨hreg, rfl⟩ := ordinary_of_linkText? hlink
    rw [hreg] at hlink ⊢
    have htext := tells_link ho hreg htags hlink hr hc
    have hopen := region_anchorStart hreg htags hr
    have hend := silent_anchorEnd (hres.region_eq.trans hopen) rfl hr'
    rw [inside_anchor]
    simpa using htext.trans (.of_silent _ hend htext.free)
  | none =>
    obtain ⟨hstart, hend⟩ := silent_tags hb hlink htags hr hr' hres hbr
    have hopened := Tells.of_silent (.startTag name attributes) hstart hs
    have hcontent := hchildren hopened.free
    have hclosed := Tells.of_silent (.endTag name) hend hcontent.free
    obtain ⟨hkept, hlinks⟩ := kept_inside (o := o) hinside
    rw [← hkept, ← hlinks]
    simpa using (hopened.trans hcontent).trans hclosed

/-- The passage of a forest shows its links and all of its text. -/
theorem Passes.tells (ho : o.simplifySelfLinks = false) {f : Forest} {rest : List Html.Token}
    (hb : ∀ t ∈ f.tokens, Html.isBareLink t.tagName = false) (h : Passes o rest s f.tokens s')
    (htags : s.context.anchorAsTag ≤ s.context.anchor) (hs : s.context.consumedText = none) :
    Tells s s' (linkTexts o (s.context.region o) f) (ink (keptText o (s.context.region o) f)) := by
  induction f generalizing rest s s' with
  | nil =>
    cases h
    exact .refl hs
  | text content f ih =>
    rw [Forest.tokens] at h hb
    obtain ⟨s₁, h₁, hres, htext⟩ := exists_tells_leaves (Html.textTokens content)
      (fun _ => Html.isLeaf_of_mem_textTokens) (fun t ht => hb t (by simp [ht])) h htags hs
    have hrest := ih (fun t ht => hb t (by simp [ht])) h₁ hres.tags htext.free
    rw [hres.region_eq] at hrest
    rw [keptText, Text.ink_append]
    exact htext.trans hrest
  | comment content f ih =>
    rw [Forest.tokens] at h hb
    obtain ⟨s₁, h₁, hres, htext⟩ := exists_tells_leaves [.comment content]
      (by simpa using Html.isLeaf_comment content) (fun t ht => hb t (by simp_all)) h htags hs
    have hrest := ih (fun t ht => hb t (by simp [ht])) h₁ hres.tags htext.free
    rw [hres.region_eq] at hrest
    rw [keptCharacters_of_ne _ (by simp [Html.Token.comment])] at htext
    exact htext.trans hrest
  | element name attributes children f ihc ih =>
    cases hv : Html.isVoid name with
    | true =>
      rw [Forest.tokens, if_pos hv] at h hb
      obtain ⟨s₁, h₁, hres, htext⟩ := exists_tells_leaves [.emptyTag name attributes]
        (by simpa using Html.isLeaf_emptyTag attributes hv) (fun t ht => hb t (by simp_all)) h
        htags hs
      have hrest := ih (fun t ht => hb t (by simp [ht])) h₁ hres.tags htext.free
      rw [hres.region_eq] at hrest
      rw [keptCharacters_of_ne _ (by simp [Html.Token.emptyTag])] at htext
      rw [keptText, linkTexts, if_pos hv, if_pos hv]
      exact htext.trans hrest
    | false =>
      obtain ⟨r, s₁, r', hr, htags', hc, hr', hres, hres', hbr, hinside, hrest⟩ :=
        h.of_element hv htags
      rw [Forest.tokens, if_neg (by simp [hv])] at hb
      have hname : Html.isBareLink name = false := hb (.startTag name attributes) (by simp)
      have hbchildren : ∀ t ∈ children.tokens, Html.isBareLink t.tagName = false :=
        fun t ht => hb t (by simp [ht])
      have helement := tells_element ho hname htags hs hr hc hr' hres hbr hinside
        fun hfree => ihc hbchildren hc htags' hfree
      have hbehind := ih (fun t ht => hb t (by simp [ht])) hrest hres'.tags helement.free
      have hregion : (s₁.accept (.endTag name) r').context.region o = s.context.region o :=
        hres'.region_eq
      rw [hregion] at hbehind
      rw [keptText, linkTexts, if_neg (by simp [hv]), if_neg (by simp [hv]), Text.ink_append]
      exact helement.trans hbehind

/-- The block of references and the space it takes the place of show no text. -/
theorem shown_finished (s : State) : shown s.finished = shown s.emitted.reverse := by
  have hblock (references : References) : shown (State.referenceBlock references) = [] := by
    rw [State.referenceBlock, Markdown.shown_append, Markdown.shown_append,
      Markdown.shown_flatMap_of_none fun _ => rfl]
    rfl
  unfold State.finished
  split_ifs
  · rfl
  · dsimp only
    rw [Markdown.shown_append, hblock, List.append_nil]
    cases s.emitted with
    | nil => rfl
    | cons last emitted =>
      dsimp only
      split_ifs with hspace
      · unfold Token.tagIs at hspace
        cases htag : last.tag? with
        | none => simp [htag] at hspace
        | some tag =>
          have hw : tag.isWhitespace = true := by simpa [htag] using hspace
          rw [Markdown.shown_reverse, Markdown.shown_reverse,
            Markdown.shown_cons_of_none (Token.shown?_of_isWhitespace htag hw)]
      · rfl

/-- No text of a forest is lost, doubled or moved: the tokens of its document, after the spacing
pass, show its kept text in order, up to white space. A link shows the text it is made of. -/
theorem shown_text_eq_kept (o : Options) (f : Forest) (ho : o.simplifySelfLinks = false)
    (hb : ∀ t ∈ f.tokens, Html.isBareLink t.tagName = false) :
    ∃ ts, convert o f.tokens = .ok ts ∧
      List.Forall₂ BuiltFrom (linksOf (shown (Markdown.space ts))) (linkTexts o .ordinary f) ∧
      ink (readText (linkTexts o .ordinary f) (shown (Markdown.space ts))) =
        ink (keptText o .ordinary f) := by
  obtain ⟨s, hs, -⟩ := exists_passes_tokens o f [] {} (Nat.le_refl 0)
  obtain ⟨-, items, hitems, hconveys⟩ := hs.tells ho hb (Nat.le_refl 0) rfl
  have hstart : ({} : Context).region o = .ordinary := by simp [Context.region]
  rw [hstart] at hconveys
  refine ⟨s.finished, hs.convert_eq, ?_⟩
  rw [Markdown.shown_space, shown_finished, hitems]
  exact ⟨hconveys.links_built, hconveys.ink_readText⟩

/-- A link brings its text along, and a script that is left out brings nothing. -/
theorem shown_text_of_link_and_script :
    let o : Options := { simplifySelfLinks := false }
    let f : Forest := .element "p" ∅ (.text "one " (.element "a" (.ofList [(.plain "href", "u")])
      (.text "two" .nil) (.element "script" ∅ (.text "three" .nil) .nil))) .nil
    o.simplifySelfLinks = false ∧ (∀ t ∈ f.tokens, Html.isBareLink t.tagName = false) ∧
      ∃ ts, convert o f.tokens = .ok ts ∧
        List.Forall₂ BuiltFrom (linksOf (shown (Markdown.space ts))) ["two"] ∧
        ink (readText ["two"] (shown (Markdown.space ts))) = "onetwo".toList := by
  intro o f
  have hb : ∀ t ∈ f.tokens, Html.isBareLink t.tagName = false := by decide +kernel
  have hlinks : linkTexts o .ordinary f = ["two"] := by decide +kernel
  have hkept : ink (keptText o .ordinary f) = "onetwo".toList := by decide +kernel
  have hshown := shown_text_eq_kept o f rfl hb
  rw [hlinks, hkept] at hshown
  exact ⟨rfl, hb, hshown⟩

end HtmlMarkdown.Conversion
