import HtmlMarkdown.Proofs.Kept

/-!
# What a token tells

A reaction is silent if it shows no text and takes none. The tags of an element are silent, unless
it may be a link; a token that is no such tag shows its own text, in as many pieces as it has
lines.
-/

namespace HtmlMarkdown.Conversion

open Html (Forest)
open Markdown (Token Shown shown)
open Text (ink)

variable {o : Options} {w : Window} {last : Option Token} {ctx ctx' : Context} {r r' : Reaction}
  {name : String} {s s' s'' : State}

theorem shown?_of_writes (ha : name ≠ "a") (hb : Html.isBareLink name = false) {t : Token}
    (h : Writes o name t) : t.shown? = none := by
  cases h with
  | link _ _ _ h =>
    rcases h with h | h
    · exact absurd h ha
    · simp [hb] at h
  | referenceLink _ _ h => exact absurd h ha
  | address _ h => simp [hb] at h
  | raw t h => simp [Token.shown?, Token.html, h]
  | emphasis strong => cases strong <;> rfl
  | _ => rfl

structure Reaction.Silent (r : Reaction) (ctx : Context) : Prop where
  shown : shown r.produced = []
  keepsLast : r.replacesLast = false
  consumed : r.context.consumedText = ctx.consumedText

theorem Reaction.Tame.silent (h : r.Tame o name ctx) (ha : name ≠ "a")
    (hb : Html.isBareLink name = false) : r.Silent ctx where
  shown := List.filterMap_eq_nil_iff.mpr fun t ht => shown?_of_writes ha hb (h.writes t ht)
  keepsLast := h.keepsLast
  consumed := h.consumed.resolve_right ha

theorem silent_quiet (h : ctx'.consumedText = ctx.consumedText) :
    (Reaction.quiet ctx').Silent ctx := ⟨rfl, rfl, h⟩

theorem silent_raw {t : Html.Token} (ht : t.kind ≠ .characters)
    (h : ctx'.consumedText = ctx.consumedText) : (Reaction.emit ctx' [.html t]).Silent ctx where
  shown := by simp [Reaction.emit, Markdown.shown, Token.shown?, Token.html, ht]
  keepsLast := rfl
  consumed := h

/-- The tags of an element show no text, unless it may be a link. -/
theorem Brackets.silent {outer inner : Region} (h : Brackets o name ctx ctx' outer inner r r')
    (ha : outer = .ordinary → name ≠ "a") (hb : Html.isBareLink name = false) :
    r.Silent ctx ∧ r'.Silent ctx' := by
  cases h with
  | stripped hc hc' | strippedScript hc hc' =>
    exact ⟨silent_quiet hc.consumed, silent_quiet hc'.consumed⟩
  | raw hc hc' ht ht' => exact ⟨silent_raw ht hc.consumed, silent_raw ht' hc'.consumed⟩
  | innerCode hc hc' | code hc hc' | native _ _ hc hc' | injectedCode _ _ hc hc' =>
    exact ⟨⟨rfl, rfl, hc.consumed⟩, ⟨rfl, rfl, hc'.consumed⟩⟩
  | tame hr hr' => exact ⟨hr.silent (ha rfl) hb, hr'.silent (ha rfl) hb⟩

theorem shown_stamped (ts : List Token) (depth : Option Nat) :
    shown (ts.map (·.within depth)) = shown ts := by
  simp [Markdown.shown, List.filterMap_map]

/-- A reaction adds what it shows, if what it takes away shows nothing. -/
theorem shown_accept (t : Html.Token)
    (h : r.replacesLast = true → ∀ u ∈ s.emitted.head?, u.shown? = none) :
    shown (s.accept t r).emitted.reverse = shown s.emitted.reverse ++ shown r.produced := by
  have hkept : shown (if r.replacesLast then s.emitted.tail else s.emitted) = shown s.emitted := by
    split_ifs with hr
    · cases he : s.emitted with
      | nil => rfl
      | cons u us =>
        have hu := h hr u (by simp [he])
        rw [Markdown.shown_cons_of_none hu]
        rfl
    · rfl
  rw [State.accept]
  dsimp only
  rw [List.reverse_append, List.reverse_reverse, Markdown.shown_append, shown_stamped,
    Markdown.shown_reverse, hkept, Markdown.shown_reverse]

/-- From one state to the other the links with these texts and this ink are shown, and in the end
no link waits for its text. -/
structure Tells (s s' : State) (texts : List String) (cs : List Char) : Prop where
  free : s'.context.consumedText = none
  items : ∃ items, shown s'.emitted.reverse = shown s.emitted.reverse ++ items ∧
    Conveys items texts cs

namespace Tells

variable {texts texts' : List String} {cs cs' : List Char}

theorem refl (h : s.context.consumedText = none) : Tells s s [] [] :=
  ⟨h, [], by simp, .nil⟩

theorem trans (h : Tells s s' texts cs) (h' : Tells s' s'' texts' cs') :
    Tells s s'' (texts ++ texts') (cs ++ cs') := by
  obtain ⟨items, hitems, hc⟩ := h.items
  obtain ⟨items', hitems', hc'⟩ := h'.items
  refine ⟨h'.free, items ++ items', ?_, hc.append hc'⟩
  rw [hitems', hitems, List.append_assoc]

theorem of_silent (t : Html.Token) (h : r.Silent s.context) (hs : s.context.consumedText = none) :
    Tells s (s.accept t r) [] [] := by
  refine ⟨h.consumed.trans hs, [], ?_, .nil⟩
  rw [shown_accept t (by simp [h.keepsLast]), h.shown]

end Tells

theorem conveys_texts (lines : List (List Char)) :
    Conveys (lines.map .text) [] (lines.flatMap ink) := by
  induction lines with
  | nil => exact .nil
  | cons line lines ih => exact .text line ih

theorem shown_flatMap_lines (lines : List (List Char)) :
    shown (lines.flatMap fun line => [.newline, .charactersSplit (String.ofList line)]) =
      lines.map .text := by
  induction lines with
  | nil => rfl
  | cons line lines ih =>
    rw [List.flatMap_cons, Markdown.shown_append, ih]
    change Shown.text (String.ofList line).toList :: lines.map .text = _
    rw [String.toList_ofList, List.map_cons]

/-- The tokens of a text show its ink, line by line. -/
theorem conveys_textTokens (cs : List Char) : Conveys (shown (textTokens cs)) [] (ink cs) := by
  unfold textTokens
  have hink := Text.ink_splitNewlines cs
  split
  · next h => exact absurd h (Text.splitNewlines_ne_nil cs)
  · next line h =>
    rw [h] at hink
    have hline : ink line = ink cs := by simpa using hink
    rw [← hline]
    split_ifs with hnil
    · subst hnil
      exact .nil
    · have hconv := Conveys.text line .nil
      simpa [Markdown.shown, Token.shown?, Token.html, Html.Token.characters,
        Html.Token.content] using hconv
  · next line rest _ h =>
    rw [← hink, h, List.flatMap_cons]
    have hshown : shown (.charactersSplit (String.ofList line) ::
        rest.flatMap fun line => [.newline, .charactersSplit (String.ofList line)]) =
          .text line :: rest.map .text := by
      rw [Markdown.shown_cons, shown_flatMap_lines]
      simp [Token.shown?, Token.charactersSplit, Token.markdown]
    rw [hshown]
    exact .text line (conveys_texts rest)

theorem tells_characters {after : List Html.Token} (t : Html.Token)
    (hs : s.context.consumedText = none) :
    Tells s (s.accept t (characters (s.window t after) s.context)) [] (ink t.content.toList) := by
  have hr : characters (s.window t after) s.context =
      .emit s.context (textTokens (Text.flowChars (0 < s.context.paragraph) t.content.toList)) := by
    simp [characters, hs, State.window]
  rw [hr, ← Text.ink_flowChars (0 < s.context.paragraph)]
  exact ⟨hs, _, shown_accept t (by simp [Reaction.emit]), conveys_textTokens _⟩

theorem tells_spaceCharacters {t : Html.Token} (hk : t.kind = .spaceCharacters)
    (hs : s.context.consumedText = none) :
    Tells s (s.accept t (spaceCharacters t s.emitted.head? s.context)) [] [] := by
  unfold spaceCharacters
  rcases settleSpace_cases t s.emitted.head? (0 < s.context.sensitive) s.context.inList with
    heq | heq | ⟨gap, heq⟩ | ⟨heq, u, hlast, hu⟩
  · rw [heq]
    exact .of_silent t (silent_quiet rfl) hs
  · rw [heq]
    exact .of_silent t (silent_raw (by simp [hk]) rfl) hs
  · rw [heq]
    refine .of_silent t ⟨?_, rfl, rfl⟩ hs
    cases gap <;> rfl
  · rw [heq]
    refine ⟨hs, [], shown_accept t fun _ v hv => ?_, .nil⟩
    obtain rfl : u = v := Option.mem_unique hlast hv
    exact Token.shown?_of_isNewline hu

/-- A token that is no tag of a paired element shows its own text, outside of stripped scripts. -/
theorem tells_leaf {t : Html.Token} {after : List Html.Token} (ht : t.IsLeaf)
    (hb : Html.isBareLink t.tagName = false) (hs : s.context.consumedText = none)
    (h : Answers o (s.window t after) s.emitted.head? s.context (s.context.region o) r) :
    Tells s (s.accept t r) [] (ink (keptCharacters (s.context.region o) [t])) := by
  generalize s.context.region o = region at h
  cases h with
  | stripped => exact .of_silent t (silent_quiet rfl) hs
  | raw =>
    by_cases hk : t.kind = .characters
    · have hshown : shown (Reaction.emit s.context [.html t]).produced =
          [.text t.content.toList] := by
        simp [Reaction.emit, Markdown.shown, Token.shown?, Token.html, hk]
      refine ⟨hs, _, shown_accept t (by simp [Reaction.emit]), ?_⟩
      change Conveys (shown (Reaction.emit s.context [.html t]).produced) [] _
      rw [hshown]
      simpa [keptCharacters, charactersOf, hk] using Conveys.text t.content.toList .nil
    · rw [keptCharacters_of_ne _ hk]
      exact .of_silent t (silent_raw hk rfl) hs
  | text hk =>
    change t.kind = .characters at hk
    have hkept : keptCharacters .ordinary [t] = t.content.toList := by
      simp [keptCharacters, charactersOf, hk]
    rw [hkept]
    exact tells_characters t hs
  | space hk =>
    change t.kind = .spaceCharacters at hk
    rw [keptCharacters_of_ne _ (by simp [hk])]
    exact tells_spaceCharacters hk hs
  | tame hk hr =>
    change t.kind ≠ .characters at hk
    rw [keptCharacters_of_ne _ hk]
    exact .of_silent t (hr.silent ht.anchor hb) hs

theorem tells_leaves {ts rest : List Html.Token} (hts : ∀ t ∈ ts, t.IsLeaf)
    (hb : ∀ t ∈ ts, Html.isBareLink t.tagName = false) (h : Passes o rest s ts s')
    (htags : s.context.anchorAsTag ≤ s.context.anchor) (hs : s.context.consumedText = none) :
    Tells s s' [] (ink (keptCharacters (s.context.region o) ts)) := by
  induction ts generalizing s with
  | nil =>
    cases h
    rw [keptCharacters_nil]
    exact .refl hs
  | cons t ts ih =>
    cases h with
    | @cons _ _ _ _ r hr hrest =>
      have ht := hts t List.mem_cons_self
      have hleaf := tells_leaf ht (hb t List.mem_cons_self) hs (answers_of_react ht hr)
      have hres := Context.Resumes.of_leaf hr ht htags
      have hregion : (s.accept t r).context.region o = s.context.region o := hres.region_eq
      have hbehind := ih (fun u hu => hts u (List.mem_cons_of_mem t hu))
        (fun u hu => hb u (List.mem_cons_of_mem t hu)) hrest hres.tags hleaf.free
      rw [hregion] at hbehind
      rw [← List.singleton_append, keptCharacters_append, Text.ink_append]
      exact hleaf.trans hbehind

/-- A run of leaves at the start of a passage shows its text. -/
theorem exists_tells_leaves (ts : List Html.Token) {us rest : List Html.Token}
    (hts : ∀ t ∈ ts, t.IsLeaf)
    (hb : ∀ t ∈ ts, Html.isBareLink t.tagName = false) (h : Passes o rest s (ts ++ us) s')
    (htags : s.context.anchorAsTag ≤ s.context.anchor) (hs : s.context.consumedText = none) :
    ∃ s₁, Passes o rest s₁ us s' ∧ s.context.Resumes s₁.context ∧
      Tells s s₁ [] (ink (keptCharacters (s.context.region o) ts)) := by
  obtain ⟨s₁, h₁, hres, h₂⟩ := h.of_leaves_append hts htags
  exact ⟨s₁, h₂, hres, tells_leaves hts hb h₁ htags hs⟩

end HtmlMarkdown.Conversion
