import HtmlMarkdown.Markdown.Spacing
import HtmlMarkdown.Proofs.Written

/-!
# The answers to the two tags of an element

`Brackets` says what the start tag and the end tag of one element lead to, by the region in which
the element stands and the region in which its content stands. Its cases are all that an element
can do to a stream; the content in between is answered on its own.
-/

namespace HtmlMarkdown.Conversion

open Markdown (Token)

structure Context.Keeps (ctx ctx' : Context) : Prop where
  quotes : ctx'.blockquote = ctx.blockquote
  consumed : ctx'.consumedText = ctx.consumedText

inductive Brackets (o : Options) (name : String) (ctx ctx' : Context) :
    Region → Region → Reaction → Reaction → Prop
  | stripped {c c' : Context} (hc : ctx.Keeps c) (hc' : ctx'.Keeps c') :
      Brackets o name ctx ctx' .stripped .stripped (.quiet c) (.quiet c')
  | raw {c c' : Context} {t t' : Html.Token} (hc : ctx.Keeps c) (hc' : ctx'.Keeps c')
      (ht : t.kind ≠ .characters) (ht' : t'.kind ≠ .characters) :
      Brackets o name ctx ctx' .sensitive .sensitive (.emit c [.html t]) (.emit c' [.html t'])
  | innerCode {c c' : Context} (hc : ctx.Keeps c) (hc' : ctx'.Keeps c') :
      Brackets o name ctx ctx' .sensitive .sensitive (.emit c [.startCode]) (.emit c' [.endCode])
  | strippedScript {c c' : Context} (hc : ctx.Keeps c) (hc' : ctx'.Keeps c') :
      Brackets o name ctx ctx' .ordinary .stripped (.quiet c) (.quiet c')
  | code {c c' : Context} (hc : ctx.Keeps c) (hc' : ctx'.Keeps c') :
      Brackets o name ctx ctx' .ordinary .sensitive (.emit c [.startCode]) (.emit c' [.endCode])
  | native {c c' : Context} (raw raw' : Html.Token) (hc : ctx.Keeps c) (hc' : ctx'.Keeps c') :
      Brackets o name ctx ctx' .ordinary .sensitive
        (.emit c [.startBlock, .native .opening raw]) (.emit c' [.native .closing raw', .endBlock])
  | injectedCode {c c' : Context} (raw raw' : Html.Token) (hc : ctx.Keeps c)
      (hc' : ctx'.Keeps c') :
      Brackets o name ctx ctx' .ordinary .sensitive
        (.emit c [.startBlock, .native .opening raw, .startCode])
        (.emit c' [.endCode, .native .closing raw', .endBlock])
  | tame {r r' : Reaction} (hr : r.Tame o name ctx) (hr' : r'.Tame o name ctx') :
      Brackets o name ctx ctx' .ordinary .ordinary r r'

/-- What a token leads to that is no tag of a paired element, by the region in which it stands. -/
inductive Answers (o : Options) (w : Window) (last : Option Token) (ctx : Context) :
    Region → Reaction → Prop
  | stripped : Answers o w last ctx .stripped (.quiet ctx)
  | raw : Answers o w last ctx .sensitive (.emit ctx [.html w.token])
  | text (hk : w.token.kind = .characters) : Answers o w last ctx .ordinary (characters w ctx)
  | space (hk : w.token.kind = .spaceCharacters) :
      Answers o w last ctx .ordinary (spaceCharacters w.token last ctx)
  | tame {r : Reaction} (hk : w.token.kind ≠ .characters) (hr : r.Tame o w.token.tagName ctx) :
      Answers o w last ctx .ordinary r

/-- A run of space is left out, kept as it is or written as a gap, or it makes a blank line of a
newline. -/
theorem settleSpace_cases (raw : Html.Token) (last : Option Token) (sensitive inList : Bool) :
    settleSpace raw last sensitive inList = .drop ∨
      settleSpace raw last sensitive inList = .push (.html raw) ∨
      (∃ gap : Gap, settleSpace raw last sensitive inList = .push gap.token) ∨
      (settleSpace raw last sensitive inList = .replace .newlineBlank ∧
        ∃ u ∈ last, u.isNewline = true) := by
  unfold settleSpace
  dsimp only
  split_ifs
  · exact .inr (.inl rfl)
  · exact .inl rfl
  · exact .inl rfl
  · exact .inr (.inr (.inl ⟨.blank, rfl⟩))
  · exact .inl rfl
  · exact .inl rfl
  · unfold Gap.behind
    split_ifs with hblank hnewline
    · exact .inl rfl
    · refine .inr (.inr (.inr ⟨rfl, ?_⟩))
      cases last with
      | none => simp at hnewline
      | some u =>
        refine ⟨u, rfl, ?_⟩
        unfold Token.isNewline Token.tagIs
        cases htag : u.tag? with
        | none => simp [htag] at hnewline
        | some tag =>
          have hsingle : tag.isSingleNewline = true := by simpa [htag] using hnewline.1
          exact Markdown.Tag.isNewline_of_isSingleNewline hsingle
    · exact .inr (.inr (.inl ⟨_, rfl⟩))

variable {o : Options} {w w' : Window} {ctx ctx' : Context} {r r' : Reaction} {name : String}

theorem answers_of_react {last : Option Token} (ht : w.token.IsLeaf)
    (h : react o w last ctx = .ok r) : Answers o w last ctx (ctx.region o) r := by
  cases hreg : ctx.region o with
  | stripped =>
    rw [react_of_stripped hreg] at h
    cases h
    unfold insideStripped
    split_ifs
    · exact .stripped
    · split
      · next hk => exact absurd hk ht.startTag
      · next hk => exact absurd hk ht.endTag
      · exact .stripped
  | sensitive =>
    have hin : insideSensitive w.token ctx = some (.emit ctx [.html w.token]) := by
      simp [insideSensitive, ht.sensitive]
    rw [react_of_insideSensitive hreg hin] at h
    cases h
    exact .raw
  | ordinary =>
    rw [react_of_ordinary hreg, ordinary] at h
    cases hk : w.token.kind with
    | startTag => exact absurd hk ht.startTag
    | endTag => exact absurd hk ht.endTag
    | characters =>
      rw [hk] at h
      cases h
      exact .text hk
    | spaceCharacters =>
      rw [hk] at h
      cases h
      exact .space hk
    | emptyTag =>
      rw [hk] at h
      cases h
      exact .tame (by simp [hk]) (tame_emptyTag (by simp [hk]))
    | comment =>
      rw [hk] at h
      cases h
      refine .tame (by simp [hk]) ?_
      split_ifs
      · exact .of_quiet rfl rfl
      · exact .of_emit_one (.raw _ (by simp [hk])) rfl rfl
    | doctype | parseError =>
      rw [hk] at h
      cases h
      exact .tame (by simp [hk]) (.of_remark _)

theorem region_enter_sensitive (h : ctx.region o = .ordinary) {c : Context}
    (hs : c.scriptStrip = ctx.scriptStrip) (hc : c.sensitive = ctx.sensitive + 1) :
    c.region o = .sensitive := by
  rw [Context.region_eq_ordinary_iff] at h
  rw [Context.region_eq_sensitive_iff]
  exact ⟨fun hx => h.1 ⟨hx.1, hs ▸ hx.2⟩, by omega⟩

theorem brackets_of_code (hreg : ctx.region o = .ordinary) (h : code true ctx = .ok r)
    (h' : code false ctx' = .ok r') :
    Brackets o name ctx ctx' .ordinary (r.context.region o) r r' := by
  cases h
  obtain ⟨_, rfl⟩ := code_eq h'
  have hin : (ctx.enter .sensitive).region o = .sensitive := region_enter_sensitive hreg rfl rfl
  simp only [Reaction.emit, hin]
  exact .code ⟨rfl, rfl⟩ ⟨rfl, rfl⟩

theorem brackets_of_script (hreg : ctx.region o = .ordinary) (ho : o.stripScripts = false)
    (h : script o w true ctx = .ok r) (h' : script o w' false ctx' = .ok r') :
    Brackets o name ctx ctx' .ordinary (r.context.region o) r r' := by
  simp only [script, ho, if_true, Bool.false_eq_true, if_false] at h
  cases h
  obtain ⟨_, rfl⟩ := closeScript_eq h'
  have hin : (ctx.enter .sensitive).region o = .sensitive := region_enter_sensitive hreg rfl rfl
  simp only [Reaction.emit, hin]
  exact .native _ _ ⟨rfl, rfl⟩ ⟨rfl, rfl⟩

theorem brackets_of_pre {mode : PreMode} {raw raw' : Html.Token} (hreg : ctx.region o = .ordinary)
    (hres : (openPre mode raw ctx).context.Resumes ctx') (h' : closePre raw' ctx' = .ok r') :
    Brackets o name ctx ctx' .ordinary ((openPre mode raw ctx).context.region o)
      (openPre mode raw ctx) r' := by
  have hm : ctx'.preModes = mode :: ctx.preModes := by
    cases mode <;> exact hres.preModes_eq
  obtain ⟨_, _, _, _, _, hmodes, rfl⟩ := closePre_eq h'
  obtain ⟨rfl, -⟩ := List.cons.inj (hm.symm.trans hmodes)
  cases mode with
  | paragraph =>
    have hin : (openPre .paragraph raw ctx).context.region o = .ordinary := by
      rw [← hreg]
      exact Context.region_eq_of_counters rfl rfl
    rw [hin]
    exact .tame (.of_emit_one .startBlock rfl rfl) (.of_emit_one .endBlock rfl rfl)
  | native =>
    have hin : (openPre .native raw ctx).context.region o = .sensitive :=
      region_enter_sensitive hreg rfl rfl
    rw [hin]
    exact .native _ _ ⟨rfl, rfl⟩ ⟨rfl, rfl⟩
  | injectedCode =>
    have hin : (openPre .injectedCode raw ctx).context.region o = .sensitive :=
      region_enter_sensitive hreg rfl rfl
    rw [hin]
    exact .injectedCode _ _ ⟨rfl, rfl⟩ ⟨rfl, rfl⟩

end HtmlMarkdown.Conversion
