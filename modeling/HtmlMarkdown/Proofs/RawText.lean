import HtmlMarkdown.Proofs.Laid
import HtmlMarkdown.Proofs.LineHeads
import HtmlMarkdown.Proofs.Trimming

/-!
# Raw text

The tags of `<script>` and `<style>` in a stream switch escaping off and on again. What a token is
to that is its `TextEvent`: a text, a line of a text that was cut at its newlines, one of those
tags, or another tag. The layout changes the events of a stream by the heads of their lines only, so
the texts of a stream that is laid out are those it had before, each in the raw-text state that the
tags before it leave.
-/

namespace HtmlMarkdown.Markdown

/-- What a token is to the writing of text. -/
inductive TextEvent where
  /-- A text of the document, or a line of one that was cut at its newlines. -/
  | text (s : String) (cut : Bool)
  | opens (element : String)
  | closes (element : String)
  /-- A tag of another element. -/
  | tag
  deriving DecidableEq, Repr

def rawTextTag? (raw : Html.Token) : Option TextEvent :=
  if rawTextElements.contains raw.tagName then
    match raw.kind with
    | .startTag => some (.opens raw.tagName)
    | .endTag => some (.closes raw.tagName)
    | _ => none
  else none

def Token.event? (t : Token) : Option TextEvent :=
  match t.node with
  | .markdown .charactersSplit data => some (.text data true)
  | .markdown _ _ => none
  | .native _ raw => rawTextTag? raw
  | .html raw =>
    if raw.kind = .characters then some (.text raw.content false)
    else if raw.isTag then some ((rawTextTag? raw).getD .tag)
    else none

namespace TextEvent

/-- The text of an event, and whether it is a line that was cut. -/
def text? : TextEvent → Option (String × Bool)
  | text s cut => some (s, cut)
  | _ => none

def after (rawText : Option String) : TextEvent → Option String
  | opens element => some element
  | closes element => if rawText = some element then none else rawText
  | _ => rawText

def isSwitch : TextEvent → Bool
  | opens _ | closes _ => true
  | _ => false

def mapText (f : String → String) : TextEvent → TextEvent
  | text s cut => text (f s) cut
  | e => e

def BeginsAtNewline (p : TextEvent) : Prop := ∃ s cut, p = .text s cut ∧ s.toList.head? = some '\n'

def EndsAtNewline (p : TextEvent) : Prop := ∃ s cut, p = .text s cut ∧ s.toList.getLast? = some '\n'

end TextEvent

/-- The texts of some events, each with whether it is written raw: where the text of an element is
raw, the lines of a text that was cut are not. -/
def eventTexts (rawText : Option String) : List TextEvent → List (String × Bool)
  | [] => []
  | p :: ps =>
    (p.text?.map fun found => (found.1, rawText.isSome && !found.2)).toList ++
      eventTexts (p.after rawText) ps

def rawTextBehind (rawText : Option String) (ps : List TextEvent) : Option String :=
  ps.foldl TextEvent.after rawText

theorem eventTexts_append (rawText : Option String) (ps qs : List TextEvent) :
    eventTexts rawText (ps ++ qs) =
      eventTexts rawText ps ++ eventTexts (rawTextBehind rawText ps) qs := by
  induction ps generalizing rawText with
  | nil => rfl
  | cons p ps ih =>
    rw [List.cons_append, eventTexts, ih, eventTexts, List.append_assoc]
    rfl

theorem rawTextBehind_append (rawText : Option String) (ps qs : List TextEvent) :
    rawTextBehind rawText (ps ++ qs) = rawTextBehind (rawTextBehind rawText ps) qs :=
  List.foldl_append

/-- Without a tag that switches it the raw-text state is the same for all texts. -/
theorem eventTexts_of_not_isSwitch (rawText : Option String) {es : List TextEvent}
    (h : ∀ e ∈ es, e.isSwitch = false) : eventTexts rawText es =
        (es.filterMap TextEvent.text?).map (fun found => (found.1, rawText.isSome && !found.2)) ∧
      rawTextBehind rawText es = rawText := by
  induction es with
  | nil => exact ⟨rfl, rfl⟩
  | cons e es ih =>
    obtain ⟨he, hes⟩ := List.forall_mem_cons.mp h
    obtain ⟨htexts, hstate⟩ := ih hes
    have hafter : e.after rawText = rawText := by
      cases e with
      | opens | closes => cases he
      | _ => rfl
    rw [eventTexts, rawTextBehind, List.foldl_cons, hafter, htexts]
    refine ⟨?_, hstate⟩
    cases e <;> rfl

structure Edged (ps : List TextEvent) : Prop where
  first : ∀ p ∈ ps.head?, ¬p.BeginsAtNewline
  last : ∀ p ∈ ps.getLast?, ¬p.EndsAtNewline

theorem Edged.nil : Edged [] := ⟨nofun, nofun⟩

theorem Edged.of_forall {es : List TextEvent}
    (h : ∀ e ∈ es, ¬e.BeginsAtNewline ∧ ¬e.EndsAtNewline) : Edged es :=
  ⟨fun e he => (h e (List.mem_of_head? he)).1, fun e he => (h e (List.mem_of_getLast? he)).2⟩

theorem Edged.append {ps qs : List TextEvent} (h : Edged ps) (h' : Edged qs) :
    Edged (ps ++ qs) where
  first p hp := by
    rw [List.head?_append, Option.mem_def, Option.or_eq_some_iff] at hp
    exact hp.elim (h.first p) fun hp => h'.first p hp.2
  last p hp := by
    rw [List.getLast?_append, Option.mem_def, Option.or_eq_some_iff] at hp
    exact hp.elim (h'.last p) fun hp => h.last p hp.2

def writtenTexts (rawText : Option String) : List Token → List (List Char)
  | [] => []
  | t :: ts =>
    (if (t.event?.bind TextEvent.text?).isSome then [t.chars rawText] else []) ++
      writtenTexts (t.rawTextAfter rawText) ts

def rawTextAfterAll (rawText : Option String) (ts : List Token) : Option String :=
  ts.foldl (fun state t => t.rawTextAfter state) rawText

def RawTextState (rawText : Option String) : Prop :=
  ∀ element ∈ rawText, rawTextElements.contains element = true

section Events

variable {t u : Token} {ts us : List Token} {raw : Html.Token} {rawText : Option String}
  {e : TextEvent}

theorem Token.event?_of_node (h : u.node = t.node) : u.event? = t.event? := by
  unfold Token.event?
  rw [h]

theorem Token.event?_of_tag {tag : Tag} {data : String} (h : t.node = .markdown tag data)
    (hsplit : tag ≠ .charactersSplit) : t.event? = none := by
  unfold Token.event?
  rw [h]
  cases tag <;> first | rfl | exact absurd rfl hsplit

theorem rawTextTag?_of_pre (h : raw.name = some "pre") : rawTextTag? raw = none := by
  have hname : raw.tagName = "pre" := by rw [Html.Token.tagName, h, Option.getD_some]
  rw [rawTextTag?, hname]
  rfl

theorem rawTextTag?_of_not_isTag (h : raw.isTag = false) : rawTextTag? raw = none := by
  unfold rawTextTag?
  split
  · split
    · next hk => simp [Html.Token.isTag, hk] at h
    · next hk => simp [Html.Token.isTag, hk] at h
    · rfl
  · rfl

theorem rawTextTag?_map_mapText (raw : Html.Token) (f : String → String) :
    (rawTextTag? raw).map (.mapText f) = rawTextTag? raw := by
  unfold rawTextTag?
  split_ifs
  · split <;> rfl
  · rfl

theorem rawTextTag?_isSwitch (h : rawTextTag? raw = some e) : e.isSwitch = true := by
  unfold rawTextTag? at h
  split_ifs at h
  split at h <;> cases h <;> rfl

/-- An event switches only at a tag that does. -/
theorem Token.not_isSwitch_of_event? (h : t.event? = some e)
    (hraw : ∀ raw ∈ t.raw?, rawTextTag? raw = none) : e.isSwitch = false := by
  obtain ⟨node, _, _⟩ := t
  cases node with
  | markdown tag data =>
    cases tag with
    | charactersSplit =>
      cases h
      rfl
    | _ => cases h
  | native edge raw => cases h.symm.trans (hraw raw rfl)
  | html raw =>
    unfold Token.event? at h
    dsimp only at h
    rw [hraw raw rfl] at h
    split_ifs at h <;> cases h <;> rfl

theorem passive_event? : Passive Token.event? where
  node t u h := Token.event?_of_node h
  whitespace t tag ht hw := by
    obtain ⟨node, _, _⟩ := t
    cases node with
    | markdown tag' data =>
      cases ht
      exact Token.event?_of_tag rfl (by rintro rfl; cases hw)
    | native edge raw => cases edge <;> cases ht <;> cases hw
    | html raw => cases ht
  mark t tag ht hm hraw := by
    obtain ⟨node, _, _⟩ := t
    cases node with
    | markdown tag' data =>
      cases ht
      exact Token.event?_of_tag rfl (by rintro rfl; cases hm)
    | native edge raw =>
      rcases hraw raw rfl with hname | hkind
      · exact rawTextTag?_of_pre hname
      · exact rawTextTag?_of_not_isTag (by simp [Html.Token.isTag, hkind])
    | html raw => cases ht
  delimiter := rfl
  rawSpace t raw hnode hk := by simp [Token.event?, hnode, hk, Html.Token.isTag]

theorem RawTextState.after_tag (h : RawTextState rawText) (raw : Html.Token) :
    RawTextState (rawTextAfter rawText raw) ∧
      rawTextAfter rawText raw = (rawTextTag? raw).elim rawText (TextEvent.after rawText) := by
  unfold rawTextAfter rawTextTag?
  by_cases hname : rawTextElements.contains raw.tagName = true
  · simp only [hname, if_true]
    cases raw.kind with
    | startTag => exact ⟨fun element he => by cases he; exact hname, rfl⟩
    | endTag =>
      refine ⟨?_, rfl⟩
      dsimp only
      split_ifs
      · exact fun element he => by cases he
      · exact h
    | _ => exact ⟨h, rfl⟩
  · have hne : rawText ≠ some raw.tagName := by
      rintro rfl
      exact hname (h _ rfl)
    simp only [hname, if_false, hne, Bool.false_eq_true]
    cases raw.kind <;> exact ⟨h, rfl⟩

/-- A token changes the raw-text state as its event does. -/
theorem RawTextState.after (h : RawTextState rawText) (t : Token) :
    RawTextState (t.rawTextAfter rawText) ∧
      t.rawTextAfter rawText = t.event?.elim rawText (TextEvent.after rawText) := by
  obtain ⟨node, _, _⟩ := t
  cases node with
  | markdown tag data => cases tag <;> exact ⟨h, rfl⟩
  | native edge raw => exact h.after_tag raw
  | html raw =>
    obtain ⟨hstate, hafter⟩ := h.after_tag raw
    refine ⟨hstate, hafter.trans ?_⟩
    unfold Token.event?
    dsimp only
    split_ifs with hk htag
    · rw [rawTextTag?_of_not_isTag (by simp [Html.Token.isTag, hk])]
      rfl
    · cases rawTextTag? raw <;> rfl
    · rw [rawTextTag?_of_not_isTag (by simpa using htag)]

def eventTokens (ts : List Token) : List Token := ts.filter (·.event?.isSome)

theorem eventTokens_cons_none (h : t.event? = none) (ts : List Token) :
    eventTokens (t :: ts) = eventTokens ts := List.filter_cons_of_neg (by simp [h])

theorem eventTokens_cons_some (h : t.event? = some e) (ts : List Token) :
    eventTokens (t :: ts) = t :: eventTokens ts := List.filter_cons_of_pos (by simp [h])

theorem head?_eventTokens (h : t ∈ (eventTokens ts).head?) :
    ∃ p, t.event? = some p ∧ p ∈ (ts.filterMap Token.event?).head? := by
  induction ts with
  | nil => cases h
  | cons u ts ih =>
    cases hu : u.event? with
    | none =>
      rw [eventTokens_cons_none hu] at h
      rw [List.filterMap_cons_none hu]
      exact ih h
    | some p =>
      rw [eventTokens_cons_some hu] at h
      obtain rfl : u = t := Option.some.inj h
      exact ⟨p, hu, by rw [List.filterMap_cons_some hu]; rfl⟩

theorem getLast?_eventTokens (h : t ∈ (eventTokens ts).getLast?) :
    ∃ p, t.event? = some p ∧ p ∈ (ts.filterMap Token.event?).getLast? := by
  rw [eventTokens, List.getLast?_eq_head?_reverse, ← List.filter_reverse] at h
  obtain ⟨p, hp, hhead⟩ := head?_eventTokens h
  refine ⟨p, hp, ?_⟩
  rwa [List.getLast?_eq_head?_reverse, ← List.filterMap_reverse]

/-- Only the events of a stream count for its texts. -/
theorem writtenTexts_eventTokens (h : RawTextState rawText) (ts : List Token) :
    writtenTexts rawText (eventTokens ts) = writtenTexts rawText ts ∧
      rawTextAfterAll rawText (eventTokens ts) = rawTextAfterAll rawText ts := by
  induction ts generalizing rawText with
  | nil => exact ⟨rfl, rfl⟩
  | cons t ts ih =>
    obtain ⟨hstate, hafter⟩ := h.after t
    obtain ⟨htexts, hbehind⟩ := ih hstate
    cases hp : t.event? with
    | none =>
      rw [hp] at hafter
      rw [eventTokens_cons_none hp, writtenTexts, hp, ← htexts, hafter]
      refine ⟨rfl, (congrArg (rawTextAfterAll · _) hafter).symm.trans hbehind⟩
    | some p =>
      rw [eventTokens_cons_some hp, writtenTexts, writtenTexts, htexts]
      exact ⟨rfl, hbehind⟩

theorem event?_mapText {f : String → String} (hf : f "" = "") (t : Token) :
    (t.mapText f).event? = t.event?.map (.mapText f) := by
  obtain ⟨node, _, _⟩ := t
  cases node with
  | markdown tag data => cases tag <;> rfl
  | native edge raw => exact (rawTextTag?_map_mapText raw f).symm
  | html raw =>
    unfold Token.mapText
    dsimp only
    split_ifs with htag
    · have hk : raw.kind ≠ .characters := by
        rintro hk
        simp [Html.Token.isTag, hk] at htag
      simp only [Token.event?, hk, if_false, htag, if_true, Option.map_some]
      have hnone := rawTextTag?_map_mapText raw f
      cases he : rawTextTag? raw with
      | none => rfl
      | some e =>
        rw [he] at hnone
        exact hnone.symm
    · have htag' : ({ raw with text := raw.text.map f } : Html.Token).isTag = false := by
        simpa [Html.Token.isTag] using htag
      simp only [Token.event?, htag, htag', Token.content_mapText hf, Bool.false_eq_true, if_false]
      split_ifs <;> rfl

theorem eventTokens_dropWhile {dropped : Token → Bool}
    (h : ∀ t ∈ (eventTokens ts).head?, dropped t = false) :
    eventTokens (ts.dropWhile dropped) = eventTokens ts := by
  induction ts with
  | nil => rfl
  | cons t ts ih =>
    cases he : t.event? with
    | some e =>
      rw [eventTokens_cons_some he] at h
      rw [List.dropWhile_cons, h t rfl, if_neg Bool.false_ne_true]
    | none =>
      rw [eventTokens_cons_none he] at h
      rw [List.dropWhile_cons]
      split_ifs
      · rw [ih h, eventTokens_cons_none he]
      · rfl

theorem eventTokens_mapText_cons {f : String → String} (hf : f "" = "")
    (h : ∀ u ∈ (eventTokens (t :: ts)).head?, u.mapText f = u) :
    eventTokens (t.mapText f :: ts) = eventTokens (t :: ts) := by
  cases he : t.event? with
  | some e => rw [h t (by rw [eventTokens_cons_some he]; rfl)]
  | none =>
    rw [eventTokens_cons_none he, eventTokens_cons_none (by rw [event?_mapText hf, he]; rfl)]

/-- Where the first event does not begin at a newline, trimming at the start keeps all events. -/
theorem eventTokens_trimStart (h : ∀ t ∈ (eventTokens ts).head?, Stays t) :
    eventTokens (trimStart ts) = eventTokens ts := by
  have hdrop := eventTokens_dropWhile fun t ht => (h t ht).1
  rw [← hdrop] at h ⊢
  unfold trimStart
  generalize ts.dropWhile isLeadingSpace = kept at h ⊢
  cases kept with
  | nil => rfl
  | cons t rest => exact eventTokens_mapText_cons rfl fun u hu => (h u hu).2

/-- Where the last event does not end at a newline, trimming at the end keeps all events. -/
theorem eventTokens_trimEnd (h : ∀ t ∈ (eventTokens ts).getLast?,
    t.isPureSpace = false ∧ t.mapText trimNewlinesEnd = t) :
    eventTokens (trimEnd ts) = eventTokens ts := by
  have hreverse (us : List Token) : eventTokens us.reverse = (eventTokens us).reverse :=
    List.filter_reverse
  rw [List.getLast?_eq_head?_reverse, ← hreverse] at h
  have hdrop := eventTokens_dropWhile fun t ht => (h t ht).1
  rw [← List.reverse_reverse (eventTokens ts), ← hreverse, ← hdrop]
  rw [← hdrop] at h
  unfold trimEnd
  generalize ts.reverse.dropWhile (·.isPureSpace) = kept at h ⊢
  cases kept with
  | nil => rfl
  | cons t rest =>
    dsimp only
    rw [hreverse]
    split_ifs
    · rfl
    · rw [eventTokens_mapText_cons rfl fun u hu => (h u hu).2]

/-- A token with an event is a text, or it has no text at all. -/
theorem Token.text_of_event? (h : t.event? = some e) {s : String} (hs : t.text? = some s) :
    ∃ cut, e = .text s cut := by
  obtain ⟨node, _, _⟩ := t
  cases node with
  | markdown tag data =>
    cases hs
    cases tag with
    | charactersSplit => exact ⟨true, (Option.some.inj h).symm⟩
    | _ => cases h
  | native edge raw => cases hs
  | html raw =>
    unfold Token.event? at h
    unfold Token.text? at hs
    dsimp only at h hs
    split_ifs at h hs with hk htag
    cases h
    exact ⟨false, by rw [Html.Token.content, hs, Option.getD_some]⟩

theorem rawTextTag?_ne_text {s : String} {cut : Bool} : rawTextTag? raw ≠ some (.text s cut) :=
  fun h => by cases rawTextTag?_isSwitch h

/-- A text is the data of a line that was cut, or the character data of a token. -/
theorem Token.node_of_text {s : String} {cut : Bool} (h : t.event? = some (.text s cut)) :
    (cut = true ∧ t.node = .markdown .charactersSplit s) ∨
      (cut = false ∧ ∃ raw, t.node = .html raw ∧ raw.kind = .characters ∧ raw.content = s) := by
  obtain ⟨node, _, _⟩ := t
  cases node with
  | markdown tag data =>
    cases tag with
    | charactersSplit =>
      obtain ⟨rfl, rfl⟩ : data = s ∧ true = cut := by simpa [event?] using h
      exact .inl ⟨rfl, rfl⟩
    | _ => cases h
  | native edge raw => exact absurd h rawTextTag?_ne_text
  | html raw =>
    unfold event? at h
    dsimp only at h
    split_ifs at h with hk
    · obtain ⟨rfl, rfl⟩ : raw.content = s ∧ false = cut := by simpa using h
      exact .inr ⟨rfl, raw, rfl, hk, rfl⟩
    · cases htag : rawTextTag? raw with
      | none => simp [htag] at h
      | some e =>
        rw [htag, Option.getD_some] at h
        exact absurd (htag.trans h) rawTextTag?_ne_text

theorem Token.isPureSpace_of_event? (h : t.event? = some e) : t.isPureSpace = false := by
  obtain ⟨node, _, _⟩ := t
  cases node with
  | markdown tag data =>
    cases tag with
    | space | tab => cases h
    | _ => rfl
  | native edge raw => rfl
  | html raw =>
    have hk : raw.kind ≠ .spaceCharacters := by
      intro hk
      simp [Token.event?, hk, Html.Token.isTag] at h
    simp [Token.isPureSpace, hk]

theorem stays_of_event (h : t.event? = some e) (he : ¬e.BeginsAtNewline) : Stays t :=
  stays_of_head? (Token.isPureSpace_of_event? h) fun s hs hnewline => by
    obtain ⟨cut, rfl⟩ := Token.text_of_event? h hs
    exact he ⟨s, cut, rfl, hnewline⟩

theorem trimmed_of_event (h : t.event? = some e) (he : ¬e.EndsAtNewline) :
    t.isPureSpace = false ∧ t.mapText trimNewlinesEnd = t := by
  refine ⟨Token.isPureSpace_of_event? h, trimmed_of_getLast? fun s hs hnewline => ?_⟩
  obtain ⟨cut, rfl⟩ := Token.text_of_event? h hs
  exact he ⟨s, cut, rfl, hnewline⟩

theorem eventTokens_indentAll (ts : List Token) :
    eventTokens (indentAll ts) = indentAll (eventTokens ts) := by
  rw [eventTokens, indentAll, List.filter_map]
  refine congrArg _ (List.filter_congr fun t _ => ?_)
  rw [Function.comp_apply, indentToken, event?_mapText rfl, Option.isSome_map]

theorem not_beginsAtNewline_indentLines (h : ¬e.BeginsAtNewline) (head : List Char) :
    ¬(e.mapText (indentLines head)).BeginsAtNewline := by
  rintro ⟨s', cut, hs', hnewline⟩
  cases e with
  | text s _ =>
    cases hs'
    refine h ⟨s, cut, rfl, ?_⟩
    rw [toList_indentLines] at hnewline
    cases hs : s.toList with
    | nil => simp [hs, indentChars] at hnewline
    | cons c cs =>
      rw [hs, indentChars, List.flatMap_cons] at hnewline
      split_ifs at hnewline with hc
      · simp [hc]
      · simpa using hnewline
  | _ => cases hs'

theorem not_endsAtNewline_indentLines (h : ¬e.EndsAtNewline) (head : List Char) :
    ¬(e.mapText (indentLines head)).EndsAtNewline := by
  rintro ⟨s', cut, hs', hnewline⟩
  cases e with
  | text s _ =>
    cases hs'
    refine h ⟨s, cut, rfl, ?_⟩
    rw [toList_indentLines] at hnewline
    rcases List.eq_nil_or_concat' s.toList with hs | ⟨cs, c, hs⟩
    · simp [hs, indentChars] at hnewline
    · rw [hs, indentChars, List.flatMap_append, List.flatMap_singleton] at hnewline
      split_ifs at hnewline with hc
      · rw [hs, List.getLast?_concat, hc]
      · rw [List.getLast?_concat] at hnewline
        rw [hs, List.getLast?_concat, hnewline]
  | _ => cases hs'

/-- The text is written raw, or with its characters escaped, with the head of its lines behind its
newlines. -/
def WrittenAs (found : String × Bool) (cs : List Char) : Prop :=
  ∃ depth inCode, cs = indentChars (lineHead depth inCode)
    (if found.2 then found.1.toList else found.1.toList.flatMap Text.escapeChar)

/-- A text is written raw in an element whose text is raw, unless it is a line that was cut. -/
theorem writtenAs_chars {s : String} {cut : Bool} (h : t.event? = some (.text s cut)) :
    WrittenAs (s, rawText.isSome && !cut) ((indentToken t).chars rawText) := by
  obtain ⟨node, depth, inCode⟩ := t
  refine ⟨depth.getD 0, inCode, ?_⟩
  rcases Token.node_of_text h with ⟨rfl, hnode⟩ | ⟨rfl, raw, hnode, hk, rfl⟩
  · obtain rfl : node = .markdown .charactersSplit s := hnode
    rw [Bool.not_true, Bool.and_false, if_neg Bool.false_ne_true, ← Text.escapeQuoted_zero rfl]
    exact Token.escapeQuoted_indentLines _ _ s
  · obtain rfl : node = .html raw := hnode
    have hedge : Token.TagAtEdge ⟨.html raw, depth, inCode⟩ := fun _ _ hnode => by cases hnode
    have hmarkup : Token.isMarkup ⟨.html raw, depth, inCode⟩ = false := by
      simp [Token.isMarkup, Token.raw?, Html.Token.isTag, hk]
    rw [Token.chars_indentToken rawText hedge, Token.headedChars, hmarkup,
      if_neg Bool.false_ne_true]
    refine congrArg _ ?_
    cases rawText with
    | none => simp [Token.ownChars, Token.chars, htmlChars, hk, Token.markers,
        Text.escapeQuoted_zero]
    | some element => simp [Token.ownChars, Token.chars, htmlChars, hk]

/-- The texts behind a token are read in the state that the token leaves. -/
theorem eventTexts_cons (h : RawTextState rawText) (t : Token) (ts : List Token) :
    eventTexts rawText ((t :: ts).filterMap Token.event?) =
        ((t.event?.bind TextEvent.text?).map fun found =>
            (found.1, rawText.isSome && !found.2)).toList ++
          eventTexts (t.rawTextAfter rawText) (ts.filterMap Token.event?) ∧
      rawTextBehind rawText ((t :: ts).filterMap Token.event?) =
        rawTextBehind (t.rawTextAfter rawText) (ts.filterMap Token.event?) := by
  rw [(h.after t).2]
  cases he : t.event? with
  | none =>
    rw [List.filterMap_cons_none he]
    exact ⟨rfl, rfl⟩
  | some e =>
    rw [List.filterMap_cons_some he]
    exact ⟨rfl, rfl⟩

/-- The texts of an indented stream are those of its events. -/
theorem forall₂_writtenTexts (h : RawTextState rawText) (ts : List Token) :
    List.Forall₂ WrittenAs (eventTexts rawText (ts.filterMap Token.event?))
        (writtenTexts rawText (indentAll ts)) ∧
      rawTextAfterAll rawText (indentAll ts) =
        rawTextBehind rawText (ts.filterMap Token.event?) := by
  induction ts generalizing rawText with
  | nil => exact ⟨.nil, rfl⟩
  | cons t ts ih =>
    obtain ⟨htexts, hbehind⟩ := ih (h.after t).1
    obtain ⟨hcons, hcons'⟩ := eventTexts_cons h t ts
    have hkind : ((indentToken t).event?.bind TextEvent.text?).isSome =
        (t.event?.bind TextEvent.text?).isSome := by
      rw [indentToken, event?_mapText rfl]
      cases t.event? with
      | none => rfl
      | some e => cases e <;> rfl
    have hafter : rawTextAfterAll rawText (indentAll (t :: ts)) =
        rawTextAfterAll (t.rawTextAfter rawText) (indentAll ts) := by
      rw [← Token.rawTextAfter_indentToken rawText t]
      rfl
    refine ⟨?_, by rw [hcons', hafter, hbehind]⟩
    rw [hcons, indentAll, List.map_cons, ← indentAll, writtenTexts, hkind,
      Token.rawTextAfter_indentToken]
    cases hfound : t.event?.bind TextEvent.text? with
    | none => exact htexts
    | some found =>
      obtain ⟨e, he, hfound⟩ := Option.bind_eq_some_iff.mp hfound
      obtain ⟨s, cut⟩ := found
      obtain rfl : e = .text s cut := by
        cases e <;> cases hfound
        rfl
      exact .cons (writtenAs_chars he) htexts

/-- The first and the last event are those of an edge of the indented stream, too. -/
theorem edges_indentAll (h : Edged (ts.filterMap Token.event?)) :
    (∀ t ∈ (eventTokens (indentAll ts)).head?, Stays t) ∧
      ∀ t ∈ (eventTokens (indentAll ts)).getLast?,
        t.isPureSpace = false ∧ t.mapText trimNewlinesEnd = t := by
  have hevent (t : Token) (e : TextEvent) (he : t.event? = some e) : (indentToken t).event? =
      some (e.mapText (indentLines (lineHead t.markers t.inCode))) := by
    rw [indentToken, event?_mapText rfl, he]
    rfl
  rw [eventTokens_indentAll, indentAll, List.head?_map, List.getLast?_map]
  constructor
  · rintro u hu
    obtain ⟨t, ht, rfl⟩ := Option.map_eq_some_iff.mp hu
    obtain ⟨e, he, hfirst⟩ := head?_eventTokens ht
    exact stays_of_event (hevent t e he) (not_beginsAtNewline_indentLines (h.first e hfirst) _)
  · rintro u hu
    obtain ⟨t, ht, rfl⟩ := Option.map_eq_some_iff.mp hu
    obtain ⟨e, he, hlast⟩ := getLast?_eventTokens ht
    exact trimmed_of_event (hevent t e he)
      (not_endsAtNewline_indentLines (h.last e hlast) _)

/-- The texts of a stream that is laid out are those of its events before. -/
theorem forall₂_writtenTexts_layout (h : Edged (ts.filterMap Token.event?)) :
    List.Forall₂ WrittenAs (eventTexts none (ts.filterMap Token.event?))
        (writtenTexts none (layout ts)) ∧
      rawTextAfterAll none (layout ts) = rawTextBehind none (ts.filterMap Token.event?) := by
  have hstart : RawTextState none := nofun
  have hevents : (layRules (space ts)).filterMap Token.event? = ts.filterMap Token.event? := by
    rw [passive_event?.layRules, passive_event?.space]
  have hkept : eventTokens (layout ts) = eventTokens (indentAll (layRules (space ts))) := by
    obtain ⟨hfirst, hlast⟩ := edges_indentAll (hevents ▸ h)
    have htrimmed := eventTokens_trimStart hfirst
    rw [layout, trim, eventTokens_trimEnd (htrimmed ▸ hlast), htrimmed]
  obtain ⟨hlaid, hlaid'⟩ := writtenTexts_eventTokens hstart (layout ts)
  obtain ⟨hall, hall'⟩ := writtenTexts_eventTokens hstart (indentAll (layRules (space ts)))
  rw [← hlaid, ← hlaid', hkept, hall, hall', ← hevents]
  exact forall₂_writtenTexts hstart _

end Events

end HtmlMarkdown.Markdown
