import HtmlMarkdown.Proofs.Ahead
import HtmlMarkdown.Proofs.Passage

/-!
# The text that a link takes

An anchor with an address and one text becomes a link, and takes the text behind its start tag with
it. The text is known until it comes, and is then passed over. No other token has to do with it, so
the position that is known is never one further on than the next token.
-/

namespace HtmlMarkdown.Conversion

/-- The token opens an anchor that becomes a link: the anchor has an address, and one text alone
stands between the tag and its end tag. -/
structure Window.Links (o : Options) (w : Window) (ctx : Context) (href text : String) :
    Prop where
  region : ctx.region o = .ordinary
  tag : w.token.isNamed .startTag "a" = true
  asLink : o.anchorsAsTags = false
  address : w.token.filledAttribute? "href" = some href
  text : w.flatText? = some text

def Window.link (o : Options) (w : Window) (ctx : Context) (href text : String) : Reaction :=
  let (linked, token) := linkToken o href (Text.flow true text)
    (w.token.filledAttribute? "title") (ctx.enter .anchor)
  .emit { linked with consumedText := some (w.index + 1) } [token]

/-- What a reaction does about the text that is taken: it leaves it alone, passes over it, or takes
the next token. -/
inductive Window.Takes (o : Options) (w : Window) (ctx : Context) : Reaction → Prop
  | keeps {r : Reaction} (h : r.context.consumedText = ctx.consumedText) : Takes o w ctx r
  | skips (hk : w.token.kind = .characters) (h : ctx.consumedText = some w.index) :
    Takes o w ctx (.quiet { ctx with consumedText := none })
  | links {href text : String} (h : w.Links o ctx href text) :
    Takes o w ctx (w.link o ctx href text)

variable {o : Options} {w : Window} {last : Option Markdown.Token} {ctx : Context} {r : Reaction}
  {rest ts : List Html.Token} {s s' : State}

namespace Window.Takes

theorem of_framed {rule : Context → Except Failure Reaction} (h : Framed rule)
    (hr : rule ctx = .ok r) : w.Takes o ctx r :=
  .keeps (congrArg Ahead.consumedText (h.ahead_eq hr))

theorem emphasis (strong opening : Bool) : w.Takes o ctx (emphasis o w strong opening ctx) := by
  obtain ⟨_, _, ⟨_, rfl⟩, -, heq⟩ := emphasis_eq o w strong opening ctx
  rw [heq]
  exact .keeps rfl

theorem openAnchor (hregion : ctx.region o = .ordinary)
    (htag : w.token.isNamed .startTag "a" = true) : w.Takes o ctx (openAnchor o w ctx) := by
  unfold Conversion.openAnchor
  dsimp only
  split
  · exact .keeps rfl
  · next text htext =>
    have hlink : o.anchorsAsTags = false ∧ w.flatText? = some text := by
      cases ho : o.anchorsAsTags <;> simp [ho] at htext ⊢
      exact htext
    split
    · exact .keeps rfl
    · next href hhref => exact .links ⟨hregion, htag, hlink.1, hhref, hlink.2⟩

theorem characters (hk : w.token.kind = .characters) : w.Takes o ctx (characters w ctx) := by
  unfold Conversion.characters
  split_ifs with h
  · exact .skips hk h
  · exact .keeps rfl

theorem pairedTag (hregion : Html.isSensitive w.token.tagName = false → ctx.region o = .ordinary)
    (h : pairedTag o w ctx = .ok r) : w.Takes o ctx r := by
  unfold Conversion.pairedTag at h
  dsimp only at h
  split at h
  · exact .of_framed (framed_heading _ _ _) h
  · exact .of_framed (framed_paragraph _ _) h
  · split at h
    · exact .of_framed (framed_paragraph _ _) h
    · exact .of_framed .quiet h
  · split at h
    · exact .of_framed (framed_openList _) h
    · exact .of_framed (framed_closeList _) h
  · exact .of_framed (framed_item _) h
  · cases h
    exact emphasis _ _
  · next hrole =>
    unfold anchor at h
    split at h
    · next hk =>
      cases h
      have hname : w.token.tagName = "a" := Html.name_of_ownName? (by rw [hrole]; rfl)
      have htag : w.token.isNamed .startTag "a" = true := by
        unfold Html.Token.tagName at hname
        cases hn : w.token.name <;> simp_all [Html.Token.isNamed]
      exact openAnchor (hregion (by rw [hname]; decide)) htag
    · exact .of_framed framed_closeAnchor h
  · exact .of_framed (framed_quote _) h
  · exact .of_framed (framed_code _) h
  · exact .of_framed (framed_preformatted _) h
  · exact .of_framed (framed_script _) h
  · exact .of_framed (framed_autolink _) h
  · exact .of_framed (framed_otherTag _) h

theorem ordinary (hregion : Html.isSensitive w.token.tagName = false → ctx.region o = .ordinary)
    (h : ordinary o w last ctx = .ok r) : w.Takes o ctx r := by
  have htag (h : tag o w ctx = .ok r) : w.Takes o ctx r := by
    unfold tag at h
    split at h
    · exact .of_framed (framed_emptyPair _ _) h
    · exact pairedTag hregion h
  unfold Conversion.ordinary at h
  split at h
  · exact htag h
  · exact htag h
  · exact .of_framed (framed_emptyTag _) h
  · next hk =>
    cases h
    exact characters hk
  · exact .of_framed (framed_spaceCharacters _) h
  · split_ifs at h
    · exact .of_framed .quiet h
    · exact .of_framed (.emit _) h
  · exact .of_framed (.remark _) h
  · exact .of_framed (.remark _) h

theorem of_react (h : react o w last ctx = .ok r) : w.Takes o ctx r := by
  cases hregion : ctx.region o with
  | stripped =>
    rw [react_of_stripped hregion] at h
    exact .of_framed (framed_insideStripped _) h
  | sensitive =>
    cases hin : insideSensitive w.token ctx with
    | some r' =>
      rw [react_of_insideSensitive hregion hin] at h
      cases h
      exact .keeps (congrArg Ahead.consumedText (ahead_of_insideSensitive hin))
    | none =>
      rw [react_eq_ordinary (by simp [hregion]) fun _ => hin] at h
      exact ordinary (fun hn => by simp [insideSensitive, hn] at hin) h
  | ordinary =>
    rw [react_of_ordinary hregion] at h
    exact ordinary (fun _ => hregion) h

/-- What is known of a text to come is what was known, or the next token is taken. -/
theorem known (h : w.Takes o ctx r) :
    ∀ i ∈ r.context.consumedText, ctx.consumedText = some i ∨ i = w.index + 1 := by
  intro i hi
  cases h with
  | keeps h => exact .inl (h ▸ hi)
  | skips hk h => cases hi
  | links h => exact .inr (Option.some.inj hi).symm

end Window.Takes

def State.InReach (s : State) : Prop := ∀ i ∈ s.context.consumedText, i ≤ s.index

theorem Passes.inReach (h : Passes o rest s ts s') (hs : s.InReach) : s'.InReach := by
  induction h with
  | nil => exact hs
  | @cons s s' t ts r hr _ ih =>
    apply ih
    intro i hi
    change i ≤ s.index + 1
    rcases (Window.Takes.of_react hr).known i hi with hknown | hnext
    · exact Nat.le_succ_of_le (hs i hknown)
    · exact Nat.le_of_eq hnext

end HtmlMarkdown.Conversion
