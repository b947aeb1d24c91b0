import HtmlMarkdown.Proofs.RawText
import HtmlMarkdown.Proofs.Scripts
import HtmlMarkdown.Proofs.TextRuns

/-!
# The text of scripts and styles

The start tag of a `<script>` or `<style>` is written exactly if its end tag is: both stay as HTML,
or both are left out. So the raw-text state follows the elements of a document whose tags are
written, and escaping is on again at the end. What is inside of such an element is written raw,
except for the lines of a text that was cut at its newlines, which are escaped like all other text.
-/

namespace HtmlMarkdown.Html

open Markdown (rawTextElements)

namespace Forest

def holdsText : Forest → Bool
  | nil => true
  | text _ rest => rest.holdsText
  | _ => false

def scriptsHoldText : Forest → Bool
  | nil => true
  | text _ rest | comment _ rest => rest.scriptsHoldText
  | element name _ children rest =>
    (!rawTextElements.contains name || children.holdsText) && children.scriptsHoldText &&
      rest.scriptsHoldText

theorem isLeaf_of_holdsText {f : Forest} (h : f.holdsText = true) : ∀ t ∈ f.tokens, t.IsLeaf := by
  induction f with
  | nil => exact List.forall_mem_nil _
  | text content rest ih =>
    exact List.forall_mem_append.mpr ⟨fun _ => isLeaf_of_mem_textTokens, ih h⟩
  | _ => cases h

end Forest

def Token.Trim (t : Token) : Prop := t.kind = .characters →
  t.content.toList.head? ≠ some '\n' ∧ t.content.toList.getLast? ≠ some '\n'

theorem trim_of_mem_textTokens {content : String} {t : Token} (h : t ∈ textTokens content) :
    t.Trim := by
  intro hk
  have hspace {cs : List Char} : t ∉ spaceTokens cs := fun h => by
    cases (kind_of_mem_spaceTokens h).symm.trans hk
  unfold textTokens at h
  dsimp only at h
  split at h
  · exact absurd h hspace
  · simp only [List.mem_append, List.mem_cons, hspace, false_or, or_false] at h
    subst h
    have hfirst : ∀ c ∈ (content.toList.dropWhile Text.isHtmlSpace).head?,
        Text.isHtmlSpace c = false := by
      intro c hc
      have hnot := List.head?_dropWhile_not Text.isHtmlSpace content.toList
      rw [hc] at hnot
      exact hnot
    simp only [Token.characters, Token.content, Option.getD_some, String.toList_ofList]
    constructor
    · intro hnewline
      cases Text.head?_dropTail hfirst _ hnewline
    · intro hnewline
      cases Text.getLast?_dropTail _ _ _ hnewline

theorem Forest.trim_of_mem_tokens {f : Forest} {t : Token} (h : t ∈ f.tokens) : t.Trim := by
  induction f with
  | nil => cases h
  | text content f ih => exact (List.mem_append.mp h).elim trim_of_mem_textTokens ih
  | comment content f ih =>
    rcases List.mem_cons.mp h with rfl | h
    · exact fun hk => by cases hk
    · exact ih h
  | element name attributes children f ihc ih =>
    unfold tokens at h
    split_ifs at h
    · rcases List.mem_cons.mp h with rfl | h
      · exact fun hk => by cases hk
      · exact ih h
    · simp only [List.cons_append, List.mem_cons, List.mem_append] at h
      rcases h with rfl | h | rfl | h
      · exact fun hk => by cases hk
      · exact ihc h
      · exact fun hk => by cases hk
      · exact ih h

end HtmlMarkdown.Html

namespace HtmlMarkdown.Conversion

open Html (Forest)
open Markdown (Token TextEvent rawTextTag? rawTextElements eventTexts rawTextBehind Edged)

def Reaction.events (r : Reaction) : List TextEvent := r.produced.filterMap Token.event?

/-- The source is inside of an element whose text is raw and whose start tag is written. -/
def insideBehind (inside : Bool) (t : Html.Token) (r : Reaction) : Bool :=
  match rawTextTag? t with
  | some (.opens element) => r.events.contains (.opens element)
  | some (.closes _) => false
  | _ => inside

/-- The texts that some steps produce, each with whether it is to be written raw: it comes from
inside of such an element and is not a line that was cut. -/
def sourceTexts (inside : Bool) : List (Html.Token × Reaction) → List (String × Bool)
  | [] => []
  | (t, r) :: steps =>
    (r.events.filterMap TextEvent.text?).map (fun found => (found.1, inside && !found.2)) ++
      sourceTexts (insideBehind inside t r) steps

def insideBehindAll (inside : Bool) (steps : List (Html.Token × Reaction)) : Bool :=
  steps.foldl (fun inside step => insideBehind inside step.1 step.2) inside

def stepEvents (steps : List (Html.Token × Reaction)) : List TextEvent :=
  (steps.flatMap (·.2.written)).filterMap Token.event?

variable {o : Options} {w : Window} {last : Option Token} {ctx ctx' : Context} {r r' : Reaction}
  {t : Html.Token} {steps steps' : List (Html.Token × Reaction)} {s s' : State}
  {rest ts : List Html.Token} {rawText rawText' rawText'' : Option String} {f : Forest}
  {name element : String} {attributes : Html.Attributes}

theorem events_written (r : Reaction) : r.written.filterMap Token.event? = r.events := by
  rw [Reaction.written, List.filterMap_map]
  exact List.filterMap_congr fun u _ => Token.event?_of_node (Token.node_within u _)

theorem stepEvents_cons (t : Html.Token) (r : Reaction) (steps : List (Html.Token × Reaction)) :
    stepEvents ((t, r) :: steps) = r.events ++ stepEvents steps := by
  rw [stepEvents, List.flatMap_cons, List.filterMap_append, events_written]
  rfl

theorem stepEvents_append (steps steps' : List (Html.Token × Reaction)) :
    stepEvents (steps ++ steps') = stepEvents steps ++ stepEvents steps' := by
  rw [stepEvents, List.flatMap_append, List.filterMap_append]
  rfl

theorem sourceTexts_append (inside : Bool) (steps steps' : List (Html.Token × Reaction)) :
    sourceTexts inside (steps ++ steps') =
      sourceTexts inside steps ++ sourceTexts (insideBehindAll inside steps) steps' := by
  induction steps generalizing inside with
  | nil => rfl
  | cons step steps ih =>
    rw [List.cons_append, sourceTexts, ih, sourceTexts, List.append_assoc]
    rfl

structure Follows (rawText : Option String) (steps : List (Html.Token × Reaction))
    (rawText' : Option String) : Prop where
  texts : eventTexts rawText (stepEvents steps) = sourceTexts rawText.isSome steps
  state : rawTextBehind rawText (stepEvents steps) = rawText'
  inside : insideBehindAll rawText.isSome steps = rawText'.isSome

namespace Follows

theorem nil (rawText : Option String) : Follows rawText [] rawText := ⟨rfl, rfl, rfl⟩

theorem append (h : Follows rawText steps rawText') (h' : Follows rawText' steps' rawText'') :
    Follows rawText (steps ++ steps') rawText'' where
  texts := by
    rw [stepEvents_append, Markdown.eventTexts_append, sourceTexts_append, h.texts, h.state,
      h.inside, h'.texts]
  state := by rw [stepEvents_append, Markdown.rawTextBehind_append, h.state, h'.state]
  inside := by
    rw [insideBehindAll, List.foldl_append]
    exact (congrArg (insideBehindAll · steps') h.inside).trans h'.inside

theorem single (ht : rawTextBehind rawText r.events = rawText')
    (hi : insideBehind rawText.isSome t r = rawText'.isSome)
    (htexts : eventTexts rawText r.events = (r.events.filterMap TextEvent.text?).map
      fun found => (found.1, rawText.isSome && !found.2)) :
    Follows rawText [(t, r)] rawText' where
  texts := by
    rw [stepEvents_cons, stepEvents, List.flatMap_nil, List.filterMap_nil, List.append_nil, htexts,
      sourceTexts, sourceTexts, List.append_nil]
  state := by
    rw [stepEvents_cons, stepEvents, List.flatMap_nil, List.filterMap_nil, List.append_nil, ht]
  inside := hi

/-- A step over a token that is no tag of such an element. -/
theorem plain (ht : rawTextTag? t = none) (hr : ∀ e ∈ r.events, e.isSwitch = false) :
    Follows rawText [(t, r)] rawText := by
  obtain ⟨htexts, hstate⟩ := Markdown.eventTexts_of_not_isSwitch rawText hr
  exact single hstate (by rw [insideBehind, ht]) htexts

theorem opened (ht : rawTextTag? t = some (.opens element)) (hr : r.events = [.opens element]) :
    Follows rawText [(t, r)] (some element) := by
  refine single ?_ ?_ ?_
  · rw [hr]
    rfl
  · rw [insideBehind, ht, hr]
    simp
  · rw [hr]
    rfl

theorem closed (ht : rawTextTag? t = some (.closes element)) (hr : r.events = [.closes element]) :
    Follows (some element) [(t, r)] none := by
  refine single ?_ ?_ ?_
  · rw [hr]
    exact if_pos rfl
  · rw [insideBehind, ht]
    rfl
  · rw [hr]
    rfl

/-- A step that writes no tag of such an element, outside of one. -/
theorem silent (hr : r.events = []) : Follows none [(t, r)] none := by
  refine single ?_ ?_ ?_
  · rw [hr]
    rfl
  · unfold insideBehind
    rw [hr]
    split <;> rfl
  · rw [hr]
    rfl

end Follows

inductive EventsOf (t : Html.Token) : List TextEvent → Prop
  | lines {es : List TextEvent} (h : ∀ e ∈ es, ∃ s cut, e = .text s cut ∧ '\n' ∉ s.toList) :
    EventsOf t es
  | html : EventsOf t (Token.html t).event?.toList
  | native : EventsOf t (rawTextTag? t).toList
  /-- A linked address stands between tags. -/
  | link (s : String) : EventsOf t [.tag, .text s false, .tag]

theorem EventsOf.empty (t : Html.Token) : EventsOf t [] := .lines (List.forall_mem_nil _)

theorem eventsOf_textTokens (t : Html.Token) (cs : List Char) :
    EventsOf t ((textTokens cs).filterMap Token.event?) := by
  refine .lines fun e he => ?_
  obtain ⟨u, hu, hevent⟩ := List.mem_filterMap.mp he
  have hne : cs ≠ [] := by
    rintro rfl
    cases hu
  have hline : u.IsLine ∨ .newline = u :=
    (Markdown.textRun_textTokens hne).forall_mem (fun _ h => Or.inl h) (Or.inr rfl) u hu
  rcases hline with ⟨s, hs, rfl | rfl⟩ | rfl <;> cases hevent
  · exact ⟨s, false, rfl, hs⟩
  · exact ⟨s, true, rfl, hs⟩

theorem eventsOf_linkTo (t : Html.Token) (href text : String) :
    EventsOf t ((linkTo o href text).filterMap Token.event?) := by
  unfold linkTo
  split_ifs
  · exact .empty _
  · exact .link text
  · exact .empty _

theorem filterMap_event?_cons (u : Token) {behind : List Token}
    (h : behind.filterMap Token.event? = []) :
    (u :: behind).filterMap Token.event? = u.event?.toList := by
  rw [Markdown.filterMap_cons_eq, h, List.append_nil]

theorem Handles.eventsOf (h : Handles o w last ctx r) : EventsOf w.token r.events := by
  have hhtml (behind : List Token) (hbehind : behind.filterMap Token.event? = []) :
      EventsOf w.token ((Token.html (o.clean w.token) :: behind).filterMap Token.event?) := by
    rw [filterMap_event?_cons _ hbehind]
    exact .html
  have hnative (edge : Markdown.Edge) (behind : List Token)
      (hbehind : behind.filterMap Token.event? = []) : EventsOf w.token
        ((Token.native edge (o.clean w.token) :: behind).filterMap Token.event?) := by
    rw [filterMap_event?_cons _ hbehind]
    exact .native
  cases h with
  | text hk hc => exact eventsOf_textTokens _ _
  | mailLink hc | schemeLink hc => exact eventsOf_linkTo _ _ _
  | opensList kind hk hp =>
    obtain ⟨c, -, h | h⟩ := openList_eq kind ctx <;> rw [h] <;> exact .empty _
  | closesList kind hk hp h =>
    obtain ⟨c, -, rfl | rfl⟩ := closeList_eq h <;> exact .empty _
  | emphasis strong hc => cases strong <;> exact .empty _
  | gap gap hk hc => cases gap <;> exact .empty _
  | verbatim hc h =>
    rw [Reaction.events, Reaction.emit, filterMap_event?_cons _ rfl]
    exact .html
  | cleaned hc h => exact hhtml [] rfl
  | opensWrapped hk hc => exact hhtml [] rfl
  | closesWrapped hk hc => exact hhtml [.endBlock] rfl
  | opensNative hk hn hc => exact hnative .opening [] rfl
  | closesNative hk hn hc => exact hnative .closing [.endBlock] rfl
  | opensInjected hk hn hc => exact hnative .opening [.startCode] rfl
  | closesInjected hk hn hc => exact hnative .closing [.endBlock] rfl
  | _ => exact .empty _

/-- Only a tag of an element whose text is raw leads to one. -/
theorem EventsOf.not_isSwitch {es : List TextEvent} (h : EventsOf t es)
    (ht : rawTextTag? t = none) : ∀ e ∈ es, e.isSwitch = false := by
  cases h with
  | lines h =>
    intro e he
    obtain ⟨s, cut, rfl, -⟩ := h e he
    rfl
  | html =>
    intro e he
    refine Token.not_isSwitch_of_event? (Option.mem_toList.mp he) fun raw hraw => ?_
    cases hraw
    exact ht
  | native => simp [ht]
  | link s =>
    simp only [List.forall_mem_cons]
    exact ⟨rfl, rfl, rfl, List.forall_mem_nil _⟩

/-- The texts of a reaction neither begin nor end with a newline, unless they are linked addresses,
which stand between tags. -/
theorem EventsOf.edged {es : List TextEvent} (h : EventsOf t es) (ht : t.Trim) : Edged es := by
  have hswitch (e : TextEvent) (he : ∀ s cut, e ≠ .text s cut) :
      ¬e.BeginsAtNewline ∧ ¬e.EndsAtNewline :=
    ⟨fun ⟨s, cut, hs, _⟩ => he s cut hs, fun ⟨s, cut, hs, _⟩ => he s cut hs⟩
  cases h with
  | lines h =>
    refine .of_forall fun e he => ?_
    obtain ⟨s, cut, rfl, hs⟩ := h e he
    constructor
    · rintro ⟨s', cut', heq, hnewline⟩
      cases heq
      exact hs (List.mem_of_head? hnewline)
    · rintro ⟨s', cut', heq, hnewline⟩
      cases heq
      exact hs (List.mem_of_getLast? hnewline)
  | html =>
    refine .of_forall fun e he => ?_
    have hevent := Option.mem_toList.mp he
    cases e with
    | text s cut =>
      rcases Token.node_of_text hevent with ⟨-, hnode⟩ | ⟨-, raw, hnode, hk, hcontent⟩
      · cases hnode
      · cases hnode
        subst hcontent
        obtain ⟨hfirst, hlast⟩ := ht hk
        constructor
        · rintro ⟨s', cut', heq, hnewline⟩
          cases heq
          exact hfirst hnewline
        · rintro ⟨s', cut', heq, hnewline⟩
          cases heq
          exact hlast hnewline
    | _ => exact hswitch _ nofun
  | native =>
    refine .of_forall fun e he => hswitch e fun s cut heq => ?_
    rw [Option.mem_toList, heq] at he
    exact Markdown.rawTextTag?_ne_text he
  | link s =>
    constructor
    · intro e he
      cases he
      exact (hswitch _ fun _ _ heq => by cases heq).1
    · intro e he
      cases he
      exact (hswitch _ fun _ _ heq => by cases heq).2

theorem Passes.edged (h : Passes o rest s ts s') (hts : ∀ t ∈ ts, t.Trim) :
    Edged (stepEvents (s.trace o ts rest)) := by
  induction h with
  | nil => exact .nil
  | cons hr _ ih =>
    obtain ⟨ht, hts⟩ := List.forall_mem_cons.mp hts
    rw [Passes.trace_cons hr, stepEvents_cons]
    exact ((handles_of_react hr).eventsOf.edged ht).append (ih hts)

theorem rawTextTag?_of_isLeaf (h : t.IsLeaf) : rawTextTag? t = none := by
  unfold rawTextTag?
  split_ifs
  · split
    · next hk => exact absurd hk h.startTag
    · next hk => exact absurd hk h.endTag
    · rfl
  · rfl

/-- A step over a token that is no tag of an element whose text is raw. -/
theorem follows_react (hr : react o w last ctx = .ok r) (ht : rawTextTag? w.token = none)
    (rawText : Option String) : Follows rawText [(w.token, r)] rawText :=
  .plain ht ((handles_of_react hr).eventsOf.not_isSwitch ht)

theorem Passes.follows_leaves (h : Passes o rest s ts s') (hts : ∀ t ∈ ts, t.IsLeaf)
    (rawText : Option String) : Follows rawText (s.trace o ts rest) rawText := by
  induction h with
  | nil => exact .nil rawText
  | cons hr _ ih =>
    obtain ⟨ht, hts⟩ := List.forall_mem_cons.mp hts
    rw [Passes.trace_cons hr]
    exact (follows_react hr (rawTextTag?_of_isLeaf ht) rawText).append (ih hts)

/-- A forest behind leaves. -/
theorem Passes.follows_behind_leaves (ts : List Html.Token) (hts : ∀ t ∈ ts, t.IsLeaf)
    (h : Passes o rest s (ts ++ f.tokens) s') (htags : s.context.anchorAsTag ≤ s.context.anchor)
    (ih : ∀ {s₁ : State}, Passes o rest s₁ f.tokens s' →
      s₁.context.anchorAsTag ≤ s₁.context.anchor → Follows none (s₁.trace o f.tokens rest) none) :
    Follows none (s.trace o (ts ++ f.tokens) rest) none := by
  obtain ⟨s₁, h₁, hres, h₂⟩ := h.of_leaves_append hts htags
  rw [h₁.trace_append]
  exact (h₁.follows_leaves hts none).append (ih h₂ hres.tags)

def TagsWritten (name : String) (r r' : Reaction) : Prop :=
  (r.events = [] ∧ r'.events = []) ∨ (r.events = [.opens name] ∧ r'.events = [.closes name])

theorem eq_of_rawTextElement (h : rawTextElements.contains name = true) :
    name = "script" ∨ name = "style" := by
  simpa [rawTextElements] using h

section RawElement

variable {children : Forest} {after : List Html.Token}

theorem tagsWritten_sensitive {w' : Window} {last' : Option Token}
    (hname : rawTextElements.contains name = true) (hreg : ctx.region o = .sensitive)
    (hw : w.token = .startTag name attributes) (hw' : w'.token = .endTag name)
    (hr : react o w last ctx = .ok r) (hres : r.context.Resumes ctx')
    (hr' : react o w' last' ctx' = .ok r') : TagsWritten name r r' := by
  rcases eq_of_rawTextElement hname with rfl | rfl
  · obtain rfl := Except.ok.inj ((react_scriptStart hreg hw).symm.trans hr)
    obtain rfl := Except.ok.inj ((react_scriptEnd hreg hres hw').symm.trans hr')
    exact .inr ⟨rfl, rfl⟩
  · have hstart : insideSensitive w.token ctx = some (.emit ctx [.html w.token]) := by
      rw [hw]
      rfl
    obtain rfl := Except.ok.inj ((react_of_insideSensitive hreg hstart).symm.trans hr)
    have hreg' : ctx'.region o = .sensitive := hres.region_eq.trans hreg
    have hend : insideSensitive w'.token ctx' = some (.emit ctx' [.html w'.token]) := by
      rw [hw']
      rfl
    obtain rfl := Except.ok.inj ((react_of_insideSensitive hreg' hend).symm.trans hr')
    rw [TagsWritten, hw, hw']
    exact .inr ⟨rfl, rfl⟩

/-- In ordinary content an empty element is left out. -/
theorem react_emptyPair (hname : rawTextElements.contains name = true)
    (hreg : ctx.region o = .ordinary) (hk : w.token.kind = .startTag ∨ w.token.kind = .endTag)
    (hn : w.token.name = some name) (he : w.isEmptyPair name = true) :
    react o w last ctx = .ok (.remark ctx (.emptyElement name)) := by
  have htag : ordinary o w last ctx = tag o w ctx := by
    unfold ordinary
    rcases hk with hk | hk <;> rw [hk]
  have hbare : Html.isBareLink name = false := by
    rcases eq_of_rawTextElement hname with rfl | rfl <;> rfl
  rw [react_of_ordinary hreg, htag, tag_of_emptyPair hn he, emptyPair, hbare,
    if_neg Bool.false_ne_true]

/-- The tags of a style stay where the options keep them. -/
theorem events_otherTag (hn : t.tagName = "style") (hk : t.kind = .startTag ∨ t.kind = .endTag)
    (h : otherTag o t ctx = .ok r) :
    r.events = if o.isPassthrough "style" then (rawTextTag? t).toList else [] := by
  have hfragment : "style" ≠ Html.fragmentTag := by decide
  have hmarkdown : Html.hasMarkdown "style" = false := by decide
  have hraw : (Token.html (o.clean t)).event? = rawTextTag? t := by
    change (Token.html t).event? = rawTextTag? t
    have hname : t.tagName ∈ rawTextElements := by rw [hn]; decide
    rcases hk with hk | hk <;>
      simp [Token.event?, Token.html, Html.Token.isTag, rawTextTag?, hk, hname]
  rw [otherTag, hn, if_neg hfragment, hmarkdown, if_neg Bool.false_ne_true] at h
  cases ho : o.isPassthrough "style" with
  | false =>
    simp only [ho, Bool.not_false, if_true] at h
    cases h
    rfl
  | true =>
    simp only [ho, Bool.not_true, Bool.false_eq_true, if_false] at h
    rw [if_pos rfl, ← hraw]
    split_ifs at h <;> cases h
    · exact filterMap_event?_cons _ rfl
    · exact filterMap_event?_cons (Token.html (o.clean t)) rfl
    · exact filterMap_event?_cons _ rfl

theorem tagsWritten_ordinary {w' : Window} {last' : Option Token}
    (hname : rawTextElements.contains name = true) (hreg : ctx.region o = .ordinary)
    (hw : w.token = .startTag name attributes) (hw' : w'.token = .endTag name)
    (he : w.isEmptyPair name = false) (he' : w'.isEmptyPair name = false)
    (hr : react o w last ctx = .ok r) (hres : r.context.Resumes ctx')
    (hr' : react o w' last' ctx' = .ok r') : TagsWritten name r r' := by
  have hn : w.token.tagName = name := by rw [hw]; rfl
  have hn' : w'.token.tagName = name := by rw [hw']; rfl
  have hk : (w.token.kind == .startTag) = true := by rw [hw]; rfl
  have hk' : (w'.token.kind == .startTag) = false := by rw [hw']; rfl
  have hstart : react o w last ctx = pairedTag o w ctx := by
    rw [react_of_ordinary hreg, Conversion.ordinary, hw]
    exact tag_of_content (by rw [hw]; rfl) he
  rw [hstart] at hr
  rcases eq_of_rawTextElement hname with rfl | rfl
  · simp only [pairedTag, hn, roleOf_script, hk, script, if_true] at hr
    obtain rfl := Except.ok.inj hr
    by_cases ho : o.stripScripts = true
    · rw [if_pos ho] at hres
      rw [if_pos ho]
      obtain rfl := Except.ok.inj ((strip_reverts last' hw' ho ctx' hres).1.symm.trans hr')
      exact .inl ⟨rfl, rfl⟩
    · rw [if_neg ho] at hres
      rw [if_neg ho]
      have hopens : w.opensSensitive o = true := by
        rw [Window.opensSensitive, hn, roleOf_script]
      rw [react_endTag last' hw hw' he' hreg rfl (by rw [hopens]; rfl) hres] at hr'
      simp only [pairedTag, hn', roleOf_script, hk'] at hr'
      obtain ⟨_, rfl⟩ := closeScript_eq hr'
      refine .inr ⟨?_, ?_⟩
      · rw [hw]
        rfl
      · rw [hw']
        rfl
  · have hrole : Html.roleOf "style" = .other := by decide
    have hopens : w.opensSensitive o = false := by
      rw [Window.opensSensitive, hn, hrole]
    simp only [pairedTag, hn, hrole] at hr
    obtain ⟨r₀, hr₀, hctx⟩ := exists_otherTag o w.token ctx (by rw [hn]; decide)
    obtain rfl := Except.ok.inj (hr₀.symm.trans hr)
    rw [react_endTag last' hw hw' he' hreg (by rw [hctx]) (by rw [hctx, hopens]; rfl) hres] at hr'
    simp only [pairedTag, hn', hrole] at hr'
    rw [TagsWritten, events_otherTag hn (.inl (eq_of_beq hk)) hr,
      events_otherTag hn' (.inr (by rw [hw']; rfl)) hr', hw, hw']
    split_ifs
    · exact .inr ⟨rfl, rfl⟩
    · exact .inl ⟨rfl, rfl⟩

/-- The tags of a script or style are written both, or neither of them is. -/
theorem tagsWritten {s₁ : State} (hname : rawTextElements.contains name = true)
    (hr : react o (s.window (.startTag name attributes)
      (children.tokens ++ .endTag name :: after)) s.emitted.head? s.context = .ok r)
    (h₁ : Passes o (.endTag name :: after) (s.accept (.startTag name attributes) r)
      children.tokens s₁)
    (hr' : react o (s₁.window (.endTag name) after) s₁.emitted.head? s₁.context = .ok r')
    (hres : r.context.Resumes s₁.context)
    (hb : Brackets o name s.context s₁.context (s.context.region o) (r.context.region o) r r') :
    TagsWritten name r r' := by
  cases hreg : s.context.region o with
  | stripped =>
    rw [hreg] at hb
    generalize r.context.region o = inner at hb
    cases hb
    exact .inl ⟨rfl, rfl⟩
  | sensitive => exact tagsWritten_sensitive hname hreg rfl rfl hr hres hr'
  | ordinary =>
    have he := isEmptyPair_startTag children s name attributes after
    have he' := isEmptyPair_endTag children h₁.before_eq after
    cases hempty : children.tokens.isEmpty with
    | false =>
      rw [hempty] at he he'
      exact tagsWritten_ordinary hname hreg rfl rfl he he' hr hres hr'
    | true =>
      rw [hempty] at he he'
      obtain rfl := Except.ok.inj ((react_emptyPair hname hreg (.inl rfl) rfl he).symm.trans hr)
      have hreg' : s₁.context.region o = .ordinary := hres.region_eq.trans hreg
      obtain rfl := Except.ok.inj ((react_emptyPair hname hreg' (.inr rfl) rfl he').symm.trans hr')
      exact .inl ⟨rfl, rfl⟩

end RawElement

/-- The steps over an element of which both tags are written or neither is, around a text. -/
theorem Follows.rawElement (hname : rawTextElements.contains name = true)
    (h : TagsWritten name r r')
    (hsteps : ∀ rawText, Follows rawText steps rawText) (hsteps' : Follows none steps' none) :
    Follows none ((.startTag name attributes, r) :: steps ++ (.endTag name, r') :: steps')
      none := by
  have htag : rawTextTag? (.startTag name attributes) = some (.opens name) := if_pos hname
  have htag' : rawTextTag? (.endTag name) = some (.closes name) := if_pos hname
  rcases h with ⟨hr, hr'⟩ | ⟨hr, hr'⟩
  · exact ((Follows.silent hr).append (hsteps none)).append ((Follows.silent hr').append hsteps')
  · exact ((Follows.opened htag hr).append (hsteps _)).append
      ((Follows.closed htag' hr').append hsteps')

/-- Over the passage of a forest the raw-text state follows the elements whose tags are written, and
escaping is on again at its end. -/
theorem Passes.follows (h : Passes o rest s f.tokens s') (hf : f.scriptsHoldText = true)
    (htags : s.context.anchorAsTag ≤ s.context.anchor) :
    Follows none (s.trace o f.tokens rest) none := by
  induction f generalizing rest s s' with
  | nil =>
    cases h
    exact .nil none
  | text content f ih =>
    exact Passes.follows_behind_leaves (Html.textTokens content)
      (fun _ => Html.isLeaf_of_mem_textTokens) h htags fun h₂ => ih h₂ hf
  | comment content f ih =>
    exact Passes.follows_behind_leaves [.comment content]
      (List.forall_mem_singleton.mpr (Html.isLeaf_comment content)) h htags fun h₂ => ih h₂ hf
  | element name attributes children f ihc ih =>
    simp only [Forest.scriptsHoldText, Bool.and_eq_true] at hf
    obtain ⟨⟨hname, hchildren⟩, hrest⟩ := hf
    by_cases hv : Html.isVoid name = true
    · rw [Forest.tokens, if_pos hv] at h ⊢
      exact Passes.follows_behind_leaves [.emptyTag name attributes]
        (List.forall_mem_singleton.mpr (Html.isLeaf_emptyTag attributes hv)) h htags
        fun h₂ => ih h₂ hrest
    rw [Bool.not_eq_true] at hv
    obtain ⟨r, s₁, r', hr, htags', hc, hr', hres, hres', hb, -, hbehind⟩ := h.of_element hv htags
    rw [trace_element hv hr hc hr']
    by_cases hraw : rawTextElements.contains name = true
    · rw [hraw] at hname
      exact .rawElement hraw (tagsWritten hraw hr hc hr' hres hb)
        (hc.follows_leaves (Forest.isLeaf_of_holdsText (by simpa using hname)))
        (ih hbehind hrest hres'.tags)
    · have htag : rawTextTag? (.startTag name attributes) = none := if_neg hraw
      have htag' : rawTextTag? (.endTag name) = none := if_neg hraw
      exact ((follows_react hr htag none).append (ihc hc hchildren htags')).append
        ((follows_react hr' htag' none).append (ih hbehind hrest hres'.tags))

/-- The texts of a document are written escaped, with the heads of their lines, but for those from
inside of a script or style whose tags are written, which are raw unless they were cut into lines;
and escaping is on at the end. -/
theorem texts_written_raw_in_scripts (c : Converter) (f : Forest) (hf : f.scriptsHoldText = true) :
    ∃ out, c.adapt f.tokens = .ok out ∧ Markdown.rawTextAfterAll none out = none ∧
      List.Forall₂ Markdown.WrittenAs
        (sourceTexts false (({} : State).trace c.options f.tokens []))
        (Markdown.writtenTexts none out) := by
  obtain ⟨s, hs, -⟩ := exists_passes_tokens c.options f [] {} (Nat.le_refl 0)
  have hfollows := hs.follows hf (Nat.le_refl 0)
  have hread : s.finished.filterMap Token.event? =
      stepEvents (({} : State).trace c.options f.tokens []) :=
    hs.read_finished Markdown.passive_event? fun _ _ _ => rfl
  have hedged := hs.edged fun t ht => Forest.trim_of_mem_tokens ht
  rw [← hread] at hedged
  obtain ⟨htexts, hstate⟩ := Markdown.forall₂_writtenTexts_layout hedged
  rw [hread, hfollows.texts] at htexts
  rw [hread, hfollows.state] at hstate
  refine ⟨Markdown.layout s.finished, ?_, hstate, htexts⟩
  rw [Converter.adapt, hs.convert_eq]
  rfl

/-- A script and, in a paragraph, a style that are kept, with a text behind them. -/
theorem texts_written_raw_in_script_and_style :
    let c : Converter := .ofOptions { passthrough := ["style"], stripScripts := false }
    let f : Forest := .element "script" ∅ (.text "a<b" .nil)
      (.element "p" ∅ (.element "style" ∅ (.text "c>d\ne" .nil) (.text "f<g" .nil)) .nil)
    f.scriptsHoldText = true ∧ ∃ out, c.adapt f.tokens = .ok out ∧
      Markdown.rawTextAfterAll none out = none ∧
      List.Forall₂ Markdown.WrittenAs [("a<b", true), ("c>d e", true), ("f<g", false)]
        (Markdown.writtenTexts none out) := by
  intro c f
  have hsource : sourceTexts false (({} : State).trace c.options f.tokens []) =
      [("a<b", true), ("c>d e", true), ("f<g", false)] := by decide +kernel
  obtain ⟨out, hout, hstate, htexts⟩ := texts_written_raw_in_scripts c f rfl
  rw [hsource] at htexts
  exact ⟨rfl, out, hout, hstate, htexts⟩

/-- Outside of a paragraph the text of a style is cut at its newline, and both lines are escaped
although the tags around them are written. -/
theorem style_lines_escaped :
    let c : Converter := .ofOptions { passthrough := ["style"] }
    let f : Forest := .element "style" ∅ (.text "a>b\nc>d" .nil) .nil
    f.scriptsHoldText = true ∧ c.render f.tokens = .ok "<style>a&gt;b\nc&gt;d</style>" ∧
      ∃ out, c.adapt f.tokens = .ok out ∧
        out.filterMap Token.raw? = [.startTag "style" ∅, .endTag "style"] ∧
        Markdown.writtenTexts none out = ["a&gt;b".toList, "c&gt;d".toList] := by
  intro c f
  have hread : (c.adapt f.tokens).toOption.map
      (fun out => (out.filterMap Token.raw?, Markdown.writtenTexts none out)) =
      some ([.startTag "style" ∅, .endTag "style"], ["a&gt;b".toList, "c&gt;d".toList]) := by
    decide +kernel
  obtain ⟨out, hout, hraw⟩ := Option.map_eq_some_iff.mp hread
  obtain ⟨hraw, htexts⟩ := Prod.mk.inj hraw
  exact ⟨rfl, eq_ok_of_toOption (by decide +kernel), out, eq_ok_of_toOption hout, hraw, htexts⟩

end HtmlMarkdown.Conversion
