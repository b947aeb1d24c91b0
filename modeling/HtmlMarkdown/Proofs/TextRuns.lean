import HtmlMarkdown.Proofs.LineHeads
import HtmlMarkdown.Proofs.Parting
import HtmlMarkdown.Proofs.Shown
import HtmlMarkdown.Proofs.Trimming

/-!
# Texts in a laid out stream

The tokens of a text stay together: the spacing pass and the rest of the layout take none of them
and put nothing between them, and they are rendered as the text, escaped. So two texts with a mark
for white space between them are laid out with white space between them.
-/

namespace HtmlMarkdown

theorem Text.newline_not_mem_of_mem_splitNewlines {cs line : List Char}
    (h : line ∈ splitNewlines cs) : '\n' ∉ line := by
  induction cs generalizing line with
  | nil =>
    rw [List.mem_singleton.mp h]
    exact List.not_mem_nil
  | cons c cs ih =>
    rw [splitNewlines] at h
    split_ifs at h with hc
    · rcases List.mem_cons.mp h with rfl | h
      · exact List.not_mem_nil
      · exact ih h
    · split at h
      · rw [List.mem_singleton.mp h, List.mem_singleton]
        exact Ne.symm hc
      · next first rest hsplit =>
        rcases List.mem_cons.mp h with rfl | h
        · rw [List.mem_cons, not_or]
          exact ⟨Ne.symm hc, ih (hsplit ▸ List.mem_cons_self)⟩
        · exact ih (hsplit ▸ List.mem_cons_of_mem first h)

namespace Markdown

open Conversion (textTokens)

def Token.IsLine (t : Token) : Prop :=
  ∃ s : String, '\n' ∉ s.toList ∧ (t = .html (.characters s) ∨ t = .charactersSplit s)

def Shown.IsLine (x : Shown) : Prop := ∃ cs, '\n' ∉ cs ∧ x = .text cs

def Token.Untagged (t : Token) : Prop := ∀ rawText, t.rawTextAfter rawText = rawText

variable {as bs ms out ts us : List Token} {t x : Token} {cs ds : List Char}

namespace Token.IsLine

theorem flows (h : t.IsLine) : t.Flows ∧ ¬t.Parts := by
  obtain ⟨s, -, rfl | rfl⟩ := h
  · refine ⟨⟨by simp [Token.html, Token.tag?], by simp [Token.html, Token.tag?]⟩, ?_⟩
    rintro (h | h | ⟨tag, data, hnode, -⟩)
    · cases h
    · cases h
    · cases hnode
  · refine ⟨⟨fun tag htag => ?_, fun tag htag hw => ?_⟩, ?_⟩
    · exact Option.some.inj htag ▸ rfl
    · obtain rfl : Tag.charactersSplit = tag := Option.some.inj htag
      rcases hw with hw | hw <;> cases hw
    · rintro (h | h | ⟨tag, data, hnode, hkind, -⟩)
      · cases h
      · cases h
      · cases hnode
        exact hkind rfl

theorem worded (h : t.IsLine) (out : List Token) : Worded (t :: out) := by
  obtain ⟨s, -, rfl | rfl⟩ := h <;> exact ⟨fun u hu => Option.some.inj hu ▸ rfl, rfl⟩

theorem not_mem_text (h : t.IsLine) : ∀ s ∈ t.text?, '\n' ∉ s.toList := by
  obtain ⟨s, hs, rfl | rfl⟩ := h <;> exact fun u hu => Option.some.inj hu ▸ hs

theorem not_leading (h : t.IsLine) : isLeadingSpace t = false := by
  refine not_leading_of_not_mem ?_ h.not_mem_text
  obtain ⟨s, -, rfl | rfl⟩ := h <;> rfl

theorem untagged (h : t.IsLine) : t.Untagged := by
  obtain ⟨s, -, rfl | rfl⟩ := h <;> exact fun _ => rfl

end Token.IsLine

inductive TextRun : List Token → Prop
  | last {t : Token} (h : t.IsLine) : TextRun [t]
  | line {t : Token} {ts : List Token} (h : t.IsLine) (hts : TextRun ts) :
    TextRun (t :: .newline :: ts)

theorem textRun_lines {line : List Char} {rest : List (List Char)}
    (h : ∀ l ∈ line :: rest, '\n' ∉ l) : TextRun (.charactersSplit (String.ofList line) ::
      rest.flatMap fun line => [.newline, .charactersSplit (String.ofList line)]) := by
  have hline : (Token.charactersSplit (String.ofList line)).IsLine :=
    ⟨_, by rw [String.toList_ofList]; exact h line List.mem_cons_self, .inr rfl⟩
  induction rest generalizing line with
  | nil => exact .last hline
  | cons next rest ih =>
    obtain ⟨-, hrest⟩ := List.forall_mem_cons.mp h
    have hnext : (Token.charactersSplit (String.ofList next)).IsLine :=
      ⟨_, by rw [String.toList_ofList]; exact hrest next List.mem_cons_self, .inr rfl⟩
    exact .line hline (ih hrest hnext)

theorem textRun_textTokens (h : cs ≠ []) : TextRun (textTokens cs) := by
  have hlines : ∀ line ∈ Text.splitNewlines cs, '\n' ∉ line := fun _ =>
    Text.newline_not_mem_of_mem_splitNewlines
  have hjoin := Text.joinNewlines_splitNewlines cs
  unfold textTokens
  rcases hsplit : Text.splitNewlines cs with _ | ⟨line, _ | ⟨next, rest⟩⟩
  · exact absurd hsplit (Text.splitNewlines_ne_nil cs)
  · rw [hsplit] at hjoin hlines
    have hne : line ≠ [] := fun hnil => h (by rw [← hjoin, hnil]; rfl)
    have hline := hlines line List.mem_cons_self
    dsimp only
    rw [if_neg hne]
    exact .last ⟨_, by rwa [String.toList_ofList], .inl rfl⟩
  · rw [hsplit] at hlines
    exact textRun_lines hlines

namespace TextRun

theorem exists_cons (h : TextRun ts) : ∃ x xs, ts = x :: xs ∧ x.IsLine := by
  cases h with
  | last h | line h hts => exact ⟨_, _, rfl, h⟩

theorem exists_concat (h : TextRun ts) : ∃ xs x, ts = xs ++ [x] ∧ x.IsLine := by
  induction h with
  | last h => exact ⟨[], _, rfl, h⟩
  | @line t ts h _ ih =>
    obtain ⟨xs, x, rfl, hx⟩ := ih
    exact ⟨t :: .newline :: xs, x, rfl, hx⟩

theorem forall_mem {P : Token → Prop} (h : TextRun ts) (hline : ∀ t : Token, t.IsLine → P t)
    (hnewline : P .newline) : ∀ t ∈ ts, P t := by
  induction h with
  | last h => exact List.forall_mem_singleton.mpr (hline _ h)
  | line h _ ih =>
    exact List.forall_mem_cons.mpr ⟨hline _ h, List.forall_mem_cons.mpr ⟨hnewline, ih⟩⟩

theorem exists_head (h : TextRun ts) (out : List Token) :
    ∃ x ∈ (ts.reverse ++ out).head?, x.IsLine := by
  obtain ⟨xs, x, rfl, hx⟩ := h.exists_concat
  exact ⟨x, by simp, hx⟩

/-- The spacing pass writes the lines and the newlines as they are. -/
theorem run_append (h : TextRun ts) (us out : List Token) (before : Option Token) :
    ∃ x : Token, x.IsLine ∧ (Spacer.behind out).run before (ts ++ us) =
      (Spacer.behind (ts.reverse ++ out)).run (some x) us := by
  induction h generalizing out before with
  | @last t h => exact ⟨t, h, by rw [List.singleton_append, Spacer.run,
      Spacer.step_of_not_parts h.flows.1 h.flows.2]; rfl⟩
  | @line t ts h hts ih =>
    obtain ⟨x, xs, rfl, hx⟩ := hts.exists_cons
    obtain ⟨hflows, hparts⟩ := hx.flows
    have hlast := h.worded out
    obtain ⟨last, hend, hrun⟩ := ih (.newline :: t :: out) (some .newline)
    refine ⟨last, hend, ?_⟩
    have hnext : (x :: xs ++ us).head?.any (·.tagIs Tag.isBlockEnd) = false := by
      change x.tagIs Tag.isBlockEnd = false
      by_contra hend
      exact hparts (.inr (.inl (by simpa using hend)))
    have hnewline : t.isNewline = false := by
      by_contra hn
      have hwhite := Token.isWhitespace_of_isNewline (Bool.not_eq_false _ ▸ hn)
      rw [hlast.solid t rfl] at hwhite
      cases hwhite
    rw [List.cons_append, Spacer.run, Spacer.step_of_not_parts h.flows.1 h.flows.2,
      List.cons_append, Spacer.run, Spacer.step_newline rfl hnewline hlast.rule hnext, hrun]
    simp

end TextRun

/-- A passive reading sees of a run what it sees of the tokens. -/
theorem Spacer.read_of_run {α : Type} {read : Token → Option α} (h : Passive read)
    {before before' : Option Token} {xs ys : List Token}
    (hrun : (Spacer.behind xs).run before (ts ++ us) = (Spacer.behind ys).run before' us) :
    ys.filterMap read = (ts.filterMap read).reverse ++ xs.filterMap read := by
  have hstart {zs vs : List Token} : (Spacer.behind zs).Foresees vs :=
    (Spacer.Foresees.start vs).of_flags rfl
  have houtput := congrArg (fun s => s.output.filterMap read) hrun
  rw [h.run hstart, h.run hstart, List.filterMap_append, List.reverse_append,
    List.append_assoc] at houtput
  exact (List.append_cancel_left houtput).symm

/-- Two texts stay as they are in the spacing pass. Between them there is white space if one of the
tokens there calls for it, and nothing changes if there is no such token. -/
theorem exists_space (has : ∀ t ∈ as, t.Flows) (hms : ∀ t ∈ ms, t.Flows) (hbs : ∀ t ∈ bs, t.Flows)
    (hts : TextRun ts) (hus : TextRun us) :
    ∃ pre mid post, space (as ++ ts ++ ms ++ us ++ bs) = pre ++ ts ++ mid ++ us ++ post ∧
      ((∃ t ∈ ms, t.Parts) → ∃ t ∈ mid, t.Blank) ∧ ((∀ t ∈ ms, ¬t.Parts) → mid = ms) ∧
      (∀ t ∈ pre ++ mid, t.hasTag .horizontalRule = false) ∧
      shown pre = shown as ∧ shown mid = shown ms := by
  have hnone : ∀ t ∈ ([] : List Token), t.hasTag .horizontalRule = false := List.forall_mem_nil _
  have first {vs : List Token} (hvs : TextRun vs) (rest : List Token) :
      ∀ v ∈ (vs ++ rest).head?, v.Flows ∧ ¬v.Parts := by
    obtain ⟨x, xs, rfl, hx⟩ := hvs.exists_cons
    exact fun v hv => Option.some.inj hv ▸ hx.flows
  have behind_run {vs : List Token} (hvs : TextRun vs) (out : List Token) :
      Worded (vs.reverse ++ out) ∧ vs.reverse ++ out ≠ [] := by
    obtain ⟨xs, x, rfl, hx⟩ := hvs.exists_concat
    rw [List.reverse_append, List.reverse_singleton, List.singleton_append, List.cons_append]
    exact ⟨hx.worded _, List.cons_ne_nil _ _⟩
  have hstart : Worded [] := ⟨fun t ht => (Option.not_mem_none t ht).elim, rfl⟩
  obtain ⟨xs, b₁, hrun₁, hrules, -⟩ := Spacer.follows_run _ hstart hnone has
    (fun v hv => (first hts _ v hv).1) (fun v hv => (first hts (ms ++ (us ++ bs)) v hv).2) none
  rw [List.append_nil xs] at hrun₁
  obtain ⟨b₂, -, hrun₂⟩ := hts.run_append (ms ++ (us ++ bs)) xs b₁
  obtain ⟨hworded, hne⟩ := behind_run hts xs
  obtain ⟨ys, b₃, hrun₃, hrules', hblank, hsame⟩ :=
    Spacer.exists_run (us ++ bs) hworded hne hms (first hus bs)
  obtain ⟨b₄, -, hrun₄⟩ := hus.run_append bs (ys ++ (ts.reverse ++ xs)) b₃
  obtain ⟨hworded', -⟩ := behind_run hus (ys ++ (ts.reverse ++ xs))
  obtain ⟨zs, b₅, hrun₅, -, -⟩ := Spacer.follows_run [] hworded' hnone hbs
    (fun v hv => (Option.not_mem_none v hv).elim) (fun v hv => (Option.not_mem_none v hv).elim) b₄
  rw [List.append_nil bs] at hrun₅
  have hrun : ({} : Spacer).run none (as ++ (ts ++ (ms ++ (us ++ bs)))) =
      Spacer.behind (zs ++ (us.reverse ++ (ys ++ (ts.reverse ++ xs)))) :=
    hrun₁.trans (hrun₂.trans (hrun₃.trans (hrun₄.trans hrun₅)))
  refine ⟨xs.reverse, ys.reverse, zs.reverse, ?_, fun hparts => ?_, fun hparts => ?_, ?_, ?_, ?_⟩
  · have hassoc : as ++ ts ++ ms ++ us ++ bs = as ++ (ts ++ (ms ++ (us ++ bs))) := by
      simp only [List.append_assoc]
    rw [space, hassoc, hrun]
    simp [Spacer.behind]
  · obtain ⟨y, hy, hy'⟩ := hblank hparts
    exact ⟨y, List.mem_reverse.mpr hy, hy'⟩
  · rw [hsame hparts, List.reverse_reverse]
  · simp only [List.mem_append, List.mem_reverse]
    exact fun t ht => ht.elim (hrules t) (hrules' t)
  · have hread := Spacer.read_of_run passive_shown? hrun₁
    simpa [shown] using congrArg List.reverse hread
  · have hread := Spacer.read_of_run passive_shown? hrun₃
    rw [List.filterMap_append] at hread
    simpa [shown] using congrArg List.reverse (List.append_cancel_right hread)

/-- White space at the front goes in front of a line only. -/
theorem trimStart_append (h : x.IsLine) (ts us : List Token) :
    trimStart (ts ++ x :: us) = trimStart ts ++ x :: us := by
  have hsame : x.mapText trimNewlinesStart = x :=
    mapText_eq_self fun s hs => trimNewlinesStart_of_not_mem (h.not_mem_text s hs)
  unfold trimStart
  rw [List.dropWhile_append, List.dropWhile_cons_of_neg (by simp [h.not_leading])]
  cases ts.dropWhile isLeadingSpace with
  | nil => simp [hsame]
  | cons first rest => simp

/-- What trimming at the end leaves as it is keeps what stands in front of it. -/
theorem trimEnd_append_cons (hpure : x.isPureSpace = false)
    (hsame : x.mapText trimNewlinesEnd = x) (ts us : List Token) :
    trimEnd (ts ++ x :: us) = ts ++ x :: trimEnd us := by
  have hreverse : (ts ++ x :: us).reverse = us.reverse ++ x :: ts.reverse := by simp
  unfold trimEnd
  rw [hreverse, List.dropWhile_append, List.dropWhile_cons_of_neg (by simp [hpure])]
  cases us.reverse.dropWhile (·.isPureSpace) with
  | nil => simp [hsame]
  | cons last earlier => simp

theorem trimEnd_append (h : x.IsLine) (ts us : List Token) :
    trimEnd (ts ++ x :: us) = ts ++ x :: trimEnd us := by
  have hleading := h.not_leading
  rw [isLeadingSpace, Bool.or_eq_false_iff] at hleading
  apply trimEnd_append_cons hleading.1
  exact mapText_eq_self fun s hs => trimNewlinesEnd_of_not_mem (h.not_mem_text s hs)

theorem TextRun.indented (h : TextRun ts) : indented ts = ts := by
  have hrules : ∀ t ∈ ts, t.hasTag .horizontalRule = false := by
    refine h.forall_mem (fun t ht => ?_) rfl
    obtain ⟨s, -, rfl | rfl⟩ := ht <;> rfl
  have hplain : ∀ t ∈ ts, indentToken t = t := by
    refine h.forall_mem (fun t ht => ?_) (indentToken_of_unquoted rfl rfl)
    obtain ⟨s, -, rfl | rfl⟩ := ht <;> exact indentToken_of_unquoted rfl rfl
  rw [Markdown.indented, layRules_eq_self hrules, indentAll, List.map_congr_left hplain,
    List.map_id']

theorem Token.Blank.indentToken (h : t.Blank) : (indentToken t).Blank := by
  obtain ⟨tag, data, hnode, hkind, c, hc, hwhite⟩ := h
  refine ⟨tag, _, node_mapText hnode _, hkind, c, ?_, hwhite⟩
  rw [toList_indentLines]
  refine List.mem_flatMap.mpr ⟨c, hc, ?_⟩
  split_ifs with hnewline
  · simp [hnewline]
  · exact List.mem_singleton.mpr rfl

theorem Token.text_of_shown? {x : Shown} (h : t.shown? = some x) (hx : x.IsLine) :
    t.isPureSpace = false ∧ ∀ s ∈ t.text?, '\n' ∉ s.toList := by
  obtain ⟨cs, hcs, rfl⟩ := hx
  obtain ⟨node, depth, flag⟩ := t
  cases node with
  | markdown tag data =>
    cases tag with
    | charactersSplit =>
      cases h
      exact ⟨rfl, fun s hs => Option.some.inj hs ▸ hcs⟩
    | _ => cases h
  | native edge raw => cases h
  | html raw =>
    by_cases hk : raw.kind = .characters
    · cases (if_pos hk).symm.trans h
      refine ⟨by simp [Token.isPureSpace, hk], fun s hs => ?_⟩
      have htext : raw.text = some s := by simpa [Token.text?, Html.Token.isTag, hk] using hs
      simpa [Html.Token.content, htext] using hcs
    · cases (if_neg hk).symm.trans h

theorem Token.shown?_mapText_of_none (h : t.shown? = none) (f : String → String) :
    (t.mapText f).shown? = none := by
  obtain ⟨node, depth, flag⟩ := t
  cases node with
  | markdown tag data => cases tag <;> first | rfl | cases h
  | native edge raw => rfl
  | html raw =>
    have hk : raw.kind ≠ .characters := fun hk => by cases (if_pos hk).symm.trans h
    unfold Token.mapText
    dsimp only
    split_ifs
    · exact if_neg hk
    · exact if_neg hk

/-- A change that leaves lines as they are leaves what is shown, if that is a line. -/
theorem Token.shown?_mapText {f : String → String} (hf : ∀ s : String, '\n' ∉ s.toList → f s = s)
    (h : ∀ x ∈ t.shown?, x.IsLine) : (t.mapText f).shown? = t.shown? := by
  cases hshown : t.shown? with
  | none => exact Token.shown?_mapText_of_none hshown f
  | some x =>
    obtain ⟨-, htext⟩ := Token.text_of_shown? hshown (h x hshown)
    rw [mapText_eq_self fun s hs => hf s (htext s hs), hshown]

theorem forall_shown (h : ∀ x ∈ shown ts, x.IsLine) (ht : t ∈ ts) : ∀ x ∈ t.shown?, x.IsLine :=
  fun x hx => h x (List.mem_filterMap.mpr ⟨t, ht, hx⟩)

theorem shown_indentAll (h : ∀ x ∈ shown ts, x.IsLine) : shown (indentAll ts) = shown ts := by
  rw [shown, indentAll, List.filterMap_map]
  exact List.filterMap_congr fun t ht =>
    Token.shown?_mapText (fun _ hs => indentLines_of_not_mem _ hs) (forall_shown h ht)

theorem shown_trimStart (h : ∀ x ∈ shown ts, x.IsLine) : shown (trimStart ts) = shown ts := by
  unfold trimStart
  induction ts with
  | nil => rfl
  | cons t ts ih =>
    by_cases hleading : isLeadingSpace t = true
    · have hnone : t.shown? = none := by
        rw [Option.eq_none_iff_forall_ne_some]
        intro x hx
        obtain ⟨hpure, htext⟩ := Token.text_of_shown? hx (forall_shown h List.mem_cons_self x hx)
        rw [not_leading_of_not_mem hpure htext] at hleading
        cases hleading
      rw [shown_cons_of_none hnone] at h ⊢
      rw [List.dropWhile_cons_of_pos hleading]
      exact ih h
    · rw [List.dropWhile_cons_of_neg hleading, shown_cons, shown_cons, Token.shown?_mapText
        (fun _ hs => trimNewlinesStart_of_not_mem hs) (forall_shown h List.mem_cons_self)]

/-- Two texts are laid out as they are, with white space between them if it is called for, and with
no change to what stands there if it is not. -/
theorem exists_layout (has : ∀ t ∈ as, t.Flows) (hms : ∀ t ∈ ms, t.Flows) (hbs : ∀ t ∈ bs, t.Flows)
    (hts : TextRun ts) (hus : TextRun us) (hlines : ∀ x ∈ shown as ++ shown ms, x.IsLine) :
    ∃ pre mid post, layout (as ++ ts ++ ms ++ us ++ bs) = pre ++ ts ++ mid ++ us ++ post ∧
      ((∃ t ∈ ms, t.Parts) → ∃ t ∈ mid, t.Blank) ∧
      ((∀ t ∈ ms, ¬t.Parts) → mid = indentAll ms) ∧
      shown pre = shown as ∧ shown mid = shown ms := by
  obtain ⟨pre, mid, post, hspace, hblank, hsame, hrules, hpre, hmid⟩ :=
    exists_space has hms hbs hts hus
  have hlaid : layout (as ++ ts ++ ms ++ us ++ bs) = trimStart (indented pre) ++ ts ++
      indented mid ++ us ++ trimEnd (indented post) := by
    change trimEnd (trimStart (indented (space (as ++ ts ++ ms ++ us ++ bs)))) = _
    rw [hspace, indented_append, indented_append, indented_append, indented_append, hts.indented,
      hus.indented]
    obtain ⟨x, xs, hx, hline⟩ := hts.exists_cons
    obtain ⟨ys, y, hy, hline'⟩ := hus.exists_concat
    have hstart : indented pre ++ ts ++ indented mid ++ us ++ indented post =
        indented pre ++ x :: (xs ++ indented mid ++ us ++ indented post) := by simp [hx]
    have hend : trimStart (indented pre) ++ x :: (xs ++ indented mid ++ us ++ indented post) =
        (trimStart (indented pre) ++ ts ++ indented mid ++ ys) ++ y :: indented post := by
      simp [hx, hy]
    rw [hstart, trimStart_append hline, hend, trimEnd_append hline']
    simp [hy]
  rw [List.forall_mem_append] at hrules hlines
  have hlaidPre : indented pre = indentAll pre := by rw [indented, layRules_eq_self hrules.1]
  have hlaidMid : indented mid = indentAll mid := by rw [indented, layRules_eq_self hrules.2]
  have hshown : shown (indentAll pre) = shown as := by rw [shown_indentAll (hpre ▸ hlines.1), hpre]
  refine ⟨_, _, _, hlaid, fun hparts => ?_, fun hparts => ?_, ?_, ?_⟩
  · obtain ⟨t, ht, hwhite⟩ := hblank hparts
    rw [hlaidMid]
    exact ⟨indentToken t, List.mem_map_of_mem ht, hwhite.indentToken⟩
  · rw [hlaidMid, hsame hparts]
  · rw [hlaidPre, shown_trimStart (hshown ▸ hlines.1), hshown]
  · rw [hlaidMid, shown_indentAll (hmid ▸ hlines.2), hmid]

theorem chars_charactersSplit (line : List Char) (rawText : Option String) :
    (Token.charactersSplit (String.ofList line)).chars rawText =
      line.flatMap Text.escapeChar := by
  have hescape := Text.escapeQuoted_zero rfl line
  change Text.escapeQuoted 0 0 (String.ofList line).toList = _
  rw [String.toList_ofList, hescape]

theorem renderChars_lines (line : List Char) (rest : List (List Char)) :
    renderChars none (.charactersSplit (String.ofList line) ::
        rest.flatMap fun line => [.newline, .charactersSplit (String.ofList line)]) =
      (Text.joinNewlines (line :: rest)).flatMap Text.escapeChar := by
  induction rest generalizing line with
  | nil => rw [List.flatMap_nil, renderChars_singleton, chars_charactersSplit]; rfl
  | cons next rest ih =>
    have hnewline : Text.escapeChar '\n' = ['\n'] := by decide
    have hjoin : (Text.joinNewlines (line :: next :: rest)).flatMap Text.escapeChar =
        line.flatMap Text.escapeChar ++
          '\n' :: (Text.joinNewlines (next :: rest)).flatMap Text.escapeChar := by
      change (line ++ '\n' :: Text.joinNewlines (next :: rest)).flatMap Text.escapeChar = _
      rw [List.flatMap_append, List.flatMap_cons, hnewline, List.singleton_append]
    rw [hjoin, ← ih next, renderChars, chars_charactersSplit]
    rfl

/-- A text is rendered as it is, escaped. -/
theorem renderChars_textTokens (cs : List Char) :
    renderChars none (textTokens cs) = cs.flatMap Text.escapeChar := by
  have hjoin := Text.joinNewlines_splitNewlines cs
  unfold textTokens
  split
  · next hsplit => exact absurd hsplit (Text.splitNewlines_ne_nil cs)
  · next line hsplit =>
    rw [hsplit] at hjoin
    obtain rfl : line = cs := hjoin
    split_ifs with hempty
    · rw [hempty]
      rfl
    · rw [renderChars_singleton, chars_text, String.toList_ofList]
      rfl
  · next line rest _ hsplit =>
    rw [hsplit] at hjoin
    rw [renderChars_lines, hjoin]

theorem renderChars_append_of_untagged (h : ∀ t ∈ ts, t.Untagged) (rawText : Option String)
    (us : List Token) :
    renderChars rawText (ts ++ us) = renderChars rawText ts ++ renderChars rawText us := by
  induction ts with
  | nil => rfl
  | cons t ts ih =>
    obtain ⟨ht, hts⟩ := List.forall_mem_cons.mp h
    rw [List.cons_append, renderChars, renderChars, ht, ih hts, List.append_assoc]

theorem TextRun.untagged (h : TextRun ts) : ∀ t ∈ ts, t.Untagged :=
  h.forall_mem (fun _ => Token.IsLine.untagged) fun _ => rfl

theorem renderChars_texts (h : ∀ t ∈ as ++ textTokens cs ++ ms ++ textTokens ds ++ bs, t.Untagged) :
    renderChars none (as ++ textTokens cs ++ ms ++ textTokens ds ++ bs) = renderChars none as ++
      cs.flatMap Text.escapeChar ++ renderChars none ms ++ ds.flatMap Text.escapeChar ++
        renderChars none bs := by
  obtain ⟨h₄, -⟩ := List.forall_mem_append.mp h
  obtain ⟨h₃, -⟩ := List.forall_mem_append.mp h₄
  obtain ⟨h₂, -⟩ := List.forall_mem_append.mp h₃
  obtain ⟨h₁, -⟩ := List.forall_mem_append.mp h₂
  rw [renderChars_append_of_untagged h₄, renderChars_append_of_untagged h₃,
    renderChars_append_of_untagged h₂, renderChars_append_of_untagged h₁, renderChars_textTokens,
    renderChars_textTokens]

theorem Token.Blank.exists_mem (h : t.Blank) (ht : t ∈ ts) (rawText : Option String) :
    ∃ c ∈ renderChars rawText ts, Text.isWhite c = true := by
  obtain ⟨tag, data, hnode, hkind, c, hc, hwhite⟩ := h
  refine ⟨c, ?_, hwhite⟩
  induction ts generalizing rawText with
  | nil => cases ht
  | cons u us ih =>
    rw [renderChars, List.mem_append]
    rcases List.mem_cons.mp ht with rfl | ht
    · left
      rwa [chars_of_node hnode hkind]
    · exact .inr (ih ht _)

/-- White space in the rendering of marks stands in one of them. -/
theorem exists_blank_of_mem {c : Char} {rawText : Option String} (hwhite : Text.isWhite c = true)
    (hts : ∀ t ∈ ts, ∃ tag data, t.node = .markdown tag data ∧ tag.renderKind ≠ .text)
    (hc : c ∈ renderChars rawText ts) : ∃ t ∈ ts, t.Blank := by
  induction ts generalizing rawText with
  | nil => cases hc
  | cons t ts ih =>
    obtain ⟨⟨tag, data, hnode, hkind⟩, hts⟩ := List.forall_mem_cons.mp hts
    rw [renderChars, List.mem_append, chars_of_node hnode hkind] at hc
    rcases hc with hc | hc
    · exact ⟨t, List.mem_cons_self, tag, data, hnode, hkind, c, hc, hwhite⟩
    · obtain ⟨u, hu, hblank⟩ := ih hts hc
      exact ⟨u, List.mem_cons_of_mem t hu, hblank⟩

theorem lasting_untagged : Lasting Token.Untagged where
  innate :=
    { node := fun t u h ht rawText => by
        have hsame : u.rawTextAfter rawText = t.rawTextAfter rawText := by
          unfold Token.rawTextAfter Token.raw?
          rw [h]
        rw [hsame, ht]
      newline := fun _ => rfl
      newlineBlank := fun _ => rfl
      delimiter := fun _ => rfl }
  indent t h rawText := (Token.rawTextAfter_mapText rawText t _).trans (h rawText)
  trimStart t h rawText := (Token.rawTextAfter_mapText rawText t _).trans (h rawText)
  trimEnd t h rawText := (Token.rawTextAfter_mapText rawText t _).trans (h rawText)

end Markdown

end HtmlMarkdown
