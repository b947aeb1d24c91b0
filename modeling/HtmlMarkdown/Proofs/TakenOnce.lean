import HtmlMarkdown.Proofs.FirstSteps
import HtmlMarkdown.Proofs.Phrasing
import HtmlMarkdown.Proofs.TextKept

/-!
# Every text is taken by one link at most

In any stream, well nested or not, a text is known as taken only behind the start tag of the anchor
that has become a link with it, and it is then the next token. The step on it writes nothing and
forgets it. Every other text is written as the place where it stands says.
-/

namespace HtmlMarkdown.Conversion

open Markdown (Token)

def writtenText (o : Options) (ctx : Context) (t : Html.Token) : List Token :=
  if ctx.region o = .stripped then []
  else if ctx.region o = .sensitive ∧ Html.isSensitive t.tagName = false then [.html t]
  else textTokens (Text.flowChars (0 < ctx.paragraph) t.content.toList)

/-- The stream has an anchor that becomes a link: `s₀` is the state in front of its start tag, `s`
the one behind it, in front of its text. -/
def BehindLink (o : Options) (ts : List Html.Token) (s₀ s : State) (tag text : Html.Token)
    (href : String) : Prop :=
  ∃ past rest, ts = past ++ tag :: text :: rest ∧
    Passes o (tag :: text :: rest) {} past s₀ ∧ Passes o (text :: rest) s₀ [tag] s ∧
    (s₀.window tag (text :: rest)).Links o s₀.context href text.content

/-- No text is taken, or it is the next token and stands where texts are ordinary. -/
def State.Waits (o : Options) (ahead : List Html.Token) (s : State) : Prop :=
  s.context.consumedText = none ∨ s.context.consumedText = some s.index ∧
    s.context.region o = .ordinary ∧ ∃ t ∈ ahead.head?, t.kind = .characters

variable {o : Options} {w : Window} {last : Option Token} {ctx : Context} {r : Reaction}
  {past ahead rest ts : List Html.Token} {s s₀ s' : State} {t tag text : Html.Token}
  {href content : String}

namespace Window.Links

theorem react_eq (h : w.Links o ctx href content) :
    react o w last ctx = .ok (w.link o ctx href content) := by
  obtain ⟨hk, hn⟩ := isNamed_iff.mp h.tag
  rw [react_of_ordinary h.region, ordinary, hk]
  change Conversion.tag o w ctx = _
  rw [tag_of_content hn (isEmptyPair_of_flatText? hk h.text)]
  have hname : w.token.tagName = "a" := by
    rw [Html.Token.tagName, hn]
    rfl
  simp [pairedTag, hname, roleOf_a, hk, anchor, openAnchor, h.asLink, h.text, h.address, link]

/-- Behind the tag comes a text, which becomes the text of the link. -/
theorem exists_text (h : w.Links o ctx href content) :
    ∃ t rest, w.after = t :: rest ∧ t.kind = .characters ∧ t.content = content := by
  have hflat := h.text
  unfold flatText? at hflat
  split at hflat
  · next t u rest hafter =>
    split_ifs at hflat with hshape
    exact ⟨t, u :: rest, hafter, hshape.1, Option.some.inj hflat⟩
  · cases hflat

theorem region_link (h : w.Links o ctx href content) :
    (w.link o ctx href content).context.region o = .ordinary := by
  rw [← h.region]
  unfold link linkToken
  split_ifs <;> rfl

end Window.Links

/-- The link stands in the quotes that its start tag stands in. -/
theorem State.emitted_link (o : Options) (s : State) (t : Html.Token) (ahead : List Html.Token)
    (href content : String) :
    (s.accept t ((s.window t ahead).link o s.context href content)).emitted =
      (linkToken o href (Text.flow true content) (t.filledAttribute? "title")
        (s.context.enter .anchor)).2.within (some s.context.blockquote) :: s.emitted := by
  have hquotes : ((s.window t ahead).link o s.context href content).context.blockquote =
      s.context.blockquote := by
    unfold Window.link linkToken
    split_ifs <;> rfl
  simp only [accept, hquotes]
  rfl

/-- A text that no link has taken is written. -/
theorem react_text (hk : w.token.kind = .characters) (h : ctx.consumedText ≠ some w.index) :
    react o w last ctx = .ok (.emit ctx (writtenText o ctx w.token)) := by
  have hordinary : ordinary o w last ctx = .ok (.emit ctx
      (textTokens (Text.flowChars (0 < ctx.paragraph) w.token.content.toList))) := by
    simp only [ordinary, hk, characters, if_neg h]
  unfold writtenText
  cases hregion : ctx.region o with
  | stripped =>
    rw [react_of_stripped hregion, insideStripped]
    simp [hk, Reaction.quiet, Reaction.emit]
  | sensitive =>
    cases hn : Html.isSensitive w.token.tagName with
    | false =>
      rw [react_of_insideSensitive hregion (by simp only [insideSensitive, hn]; rfl)]
      simp
    | true =>
      rw [react_eq_ordinary (by simp [hregion]) fun _ => by simp [insideSensitive, hn, hk],
        hordinary]
      simp
  | ordinary =>
    rw [react_of_ordinary hregion, hordinary]
    simp

theorem State.Waits.accept (h : s.Waits o (t :: rest))
    (hr : react o (s.window t rest) last s.context = .ok r) : (s.accept t r).Waits o rest := by
  rcases h with hnone | ⟨htaken, hregion, u, hu, hk⟩
  · cases Window.Takes.of_react hr with
    | keeps hkeeps => exact .inl (hkeeps.trans hnone)
    | skips => exact .inl rfl
    | links hlink =>
      obtain ⟨u, us, hafter, hk, -⟩ := hlink.exists_text
      obtain rfl : rest = u :: us := hafter
      exact .inr ⟨rfl, hlink.region_link, u, rfl, hk⟩
  · -- the step on the text that is taken
    obtain rfl := Option.some.inj hu
    rw [react_takenText hk hregion htaken] at hr
    cases hr
    exact .inl rfl

/-- The step on a text passes over it if it is taken, and writes it otherwise. -/
theorem State.Waits.exists_step (h : s.Waits o ahead) (hk : t.kind = .characters)
    (after : List Html.Token) : ∃ s', s.step o t after = .ok s' ∧
      s'.context.consumedText = none ∧
      s' = s.accept t (if s.context.consumedText = some s.index
        then .quiet { s.context with consumedText := none }
        else .emit s.context (writtenText o s.context t)) := by
  rcases h with hnone | ⟨htaken, hregion, -⟩
  · have hfree : s.context.consumedText ≠ some s.index := by simp [hnone]
    have hreact : react o (s.window t after) s.emitted.head? s.context =
        .ok (.emit s.context (writtenText o s.context t)) := react_text hk hfree
    refine ⟨_, ?_, ?_, rfl⟩
    · rw [if_neg hfree, step, hreact]
      rfl
    · rw [if_neg hfree]
      exact hnone
  · have hreact : react o (s.window t after) s.emitted.head? s.context =
        .ok (.quiet { s.context with consumedText := none }) := react_takenText hk hregion htaken
    refine ⟨_, ?_, ?_, rfl⟩
    · rw [if_pos htaken, step, hreact]
      rfl
    · rw [if_pos htaken]
      rfl

theorem Passes.waits (h : Passes o ahead s past s') (hs : s.Waits o (past ++ ahead)) :
    s'.Waits o ahead := by
  induction h with
  | nil => exact hs
  | cons hr _ ih => exact ih (hs.accept hr)

/-- A text is taken by the link just in front of it. -/
theorem Passes.exists_behindLink (h : Passes o ahead {} past s)
    (htaken : s.context.consumedText = some s.index) :
    ∃ s₀ tag text href, BehindLink o (past ++ ahead) s₀ s tag text href := by
  induction past using List.reverseRecOn with
  | nil =>
    cases h
    cases htaken
  | append_singleton past tag _ =>
    obtain ⟨s₀, hpast, htag⟩ := h.of_append
    have hwaits : s₀.Waits o (tag :: ahead) := hpast.waits (.inl rfl)
    cases htag with
    | @cons _ _ _ _ r hr hnil =>
      cases hnil
      have hnext : r.context.consumedText = some (s₀.index + 1) := htaken
      cases Window.Takes.of_react hr with
      | keeps hkeeps =>
        rcases hwaits with hnone | ⟨hindex, -⟩
        · simp [hkeeps, hnone] at hnext
        · simp [hkeeps, hindex] at hnext
      | skips => cases hnext
      | @links href content hlink =>
        obtain ⟨text, rest, hafter, -, rfl⟩ := hlink.exists_text
        obtain rfl : ahead = text :: rest := hafter
        exact ⟨s₀, tag, text, href, past, rest, by simp, hpast, .cons hr (.nil _), hlink⟩

namespace BehindLink

/-- What the start tag of a link leads to. -/
theorem eq_accept (h : BehindLink o ts s₀ s tag text href) : ∃ rest,
    (s₀.window tag (text :: rest)).Links o s₀.context href text.content ∧
    s = s₀.accept tag ((s₀.window tag (text :: rest)).link o s₀.context href text.content) := by
  obtain ⟨past, rest, -, -, htag, hlink⟩ := h
  cases htag with
  | cons hr hnil =>
    cases hnil
    rw [List.nil_append, hlink.react_eq] at hr
    cases hr
    exact ⟨rest, hlink, rfl⟩

theorem consumedText (h : BehindLink o ts s₀ s tag text href) :
    s.context.consumedText = some s.index := by
  obtain ⟨rest, -, rfl⟩ := h.eq_accept
  rfl

theorem kind (h : BehindLink o ts s₀ s tag text href) : text.kind = .characters := by
  obtain ⟨rest, hlink, -⟩ := h.eq_accept
  obtain ⟨t, us, hafter, hk, -⟩ := hlink.exists_text
  obtain rfl := (List.cons.inj hafter).1
  exact hk

theorem getElem? (h : BehindLink o ts s₀ s tag text href) : ts[s.index]? = some text := by
  obtain ⟨past, rest, rfl, hpast, htag, -⟩ := h
  rw [htag.index_eq, hpast.index_eq, List.getElem?_append_right (by simp)]
  simp

end BehindLink

namespace State

theorem exists_passes_runFor (o : Options) (n : Nat) (s : State) (ts : List Html.Token) :
    ∃ past ahead, ts = past ++ ahead ∧ Passes o ahead s past (s.runFor o n ts).1 := by
  induction n generalizing s ts with
  | zero => exact ⟨[], ts, rfl, .nil s⟩
  | succ n ih =>
    cases ts with
    | nil => exact ⟨[], [], rfl, .nil s⟩
    | cons t ts =>
      unfold runFor step
      cases hr : react o (s.window t ts) s.emitted.head? s.context with
      | error f => exact ⟨[], t :: ts, rfl, .nil s⟩
      | ok r =>
        obtain ⟨past, ahead, rfl, hpast⟩ := ih (s.accept t r) ts
        exact ⟨t :: past, ahead, rfl, .cons hr hpast⟩

/-- In every state that a conversion reaches, for any stream and any options, a text is taken
exactly behind the link made of it, and the text is the next token. The link was written by the step
just before. The step on a text passes over it if it is taken, and writes it otherwise; no text is
taken behind that step. -/
theorem text_taken_iff_behindLink (o : Options) (n : Nat) (ts : List Html.Token) :
    let s := (({} : State).runFor o n ts).1
    (s.context.consumedText = none ∨ s.context.consumedText = some s.index) ∧
      (s.context.consumedText = some s.index ↔
        ∃ s₀ tag text href, BehindLink o ts s₀ s tag text href) ∧
      (∀ s₀ tag text href, BehindLink o ts s₀ s tag text href →
        ts[s.index]? = some text ∧ text.kind = .characters ∧
          s.emitted = (linkToken o href (Text.flow true text.content)
            (tag.filledAttribute? "title") (s₀.context.enter .anchor)).2.within
              (some s₀.context.blockquote) :: s₀.emitted) ∧
      ∀ t, ts[s.index]? = some t → t.kind = .characters → ∃ s',
        s.step o t (ts.drop (s.index + 1)) = .ok s' ∧ s'.context.consumedText = none ∧
          s' = s.accept t (if s.context.consumedText = some s.index
            then .quiet { s.context with consumedText := none }
            else .emit s.context (writtenText o s.context t)) := by
  obtain ⟨past, ahead, hts, hpast⟩ := exists_passes_runFor o n {} ts
  intro s
  change Passes o ahead {} past s at hpast
  have hwaits : s.Waits o ahead := hpast.waits (.inl rfl)
  refine ⟨hwaits.imp_right And.left, ⟨?_, ?_⟩, ?_, ?_⟩
  · intro htaken
    rw [hts]
    exact hpast.exists_behindLink htaken
  · rintro ⟨s₀, tag, text, href, hlink⟩
    exact hlink.consumedText
  · intro s₀ tag text href hlink
    refine ⟨hlink.getElem?, hlink.kind, ?_⟩
    obtain ⟨rest, -, heq⟩ := hlink.eq_accept
    rw [heq]
    exact emitted_link ..
  · intro t _ hk
    exact hwaits.exists_step hk _

/-- The text of a link in a quote that is never closed is taken, and the step on it writes
nothing. -/
theorem text_taken_in_open_quote :
    let ts : List Html.Token := [.startTag "blockquote" ∅,
      .startTag "a" (.ofList [(.plain "href", "x")]), .characters "y", .endTag "a"]
    let s := (({} : State).runFor {} 2 ts).1
    s.context.consumedText = some s.index ∧
      (∃ s₀ tag text href, BehindLink {} ts s₀ s tag text href) ∧
      ∃ s', s.step {} (.characters "y") [.endTag "a"] = .ok s' ∧ s'.emitted = s.emitted := by
  intro ts s
  obtain ⟨-, hlink, -, hstep⟩ := text_taken_iff_behindLink {} 2 ts
  have htaken : s.context.consumedText = some s.index := by decide
  obtain ⟨s', hs', -, heq⟩ := hstep (.characters "y") (by decide) rfl
  refine ⟨htaken, hlink.mp htaken, s', hs', ?_⟩
  rw [heq, if_pos htaken]
  rfl

end State

end HtmlMarkdown.Conversion
