import HtmlMarkdown.Proofs.Ahead
import HtmlMarkdown.Proofs.Muted

/-!
# Conversions at different positions

Two conversions of streams that differ in one piece are at different positions behind it, and so is
all that they have decided ahead. `Corresponds` says which positions belong together, `Aligned` that
the same is decided for them. Windows that look alike get reactions that match: both fail alike, or
they differ in what is decided ahead only, and that stays aligned.
-/

namespace HtmlMarkdown.Conversion

open Html (WellNested scriptTokens)
open Markdown (Token)

/-- Positions that belong together: those in front of a piece that begins at `start`, and those
behind it, where the piece has `m` tokens in one stream and `m'` in the other. -/
inductive Corresponds (start m m' : Nat) : Nat → Nat → Prop
  | before {p : Nat} (h : p < start) : Corresponds start m m' p p
  | behind (q : Nat) : Corresponds start m m' (start + m + q) (start + m' + q)

def Aligned (start m m' : Nat) (a a' : Ahead) : Prop :=
  ∀ p p', Corresponds start m m' p p' →
    a'.fusions.get? p' = a.fusions.get? p ∧ (a'.consumedText = some p' ↔ a.consumedText = some p)

/-- No pair of emphasis is fused at either position, or the same tags are at both. -/
def FusedAlike (start m m' i i' : Nat) (found found' : Option Nat) : Prop :=
  found = none ∧ found' = none ∨
    ∃ place place', found = some place ∧ found' = some place' ∧
      Corresponds start m m' (i + 1) (i' + 1) ∧
      Corresponds start m m' (i + 1 + place) (i' + 1 + place') ∧
      Corresponds start m m' (i + 2 + place) (i' + 2 + place')

structure Alike (start m m' : Nat) (w w' : Window) : Prop where
  before : w'.before = w.before
  token : w'.token = w.token
  index : Corresponds start m m' w.index w'.index
  isEmptyPair : w'.isEmptyPair = w.isEmptyPair
  listFollows : w'.listFollows = w.listFollows
  codeFollows : w'.codeFollows = w.codeFollows
  flatText? : w'.flatText? = w.flatText?
  next : w.flatText?.isSome = true → Corresponds start m m' (w.index + 1) (w'.index + 1)
  fusedEnd? : ∀ strong,
    FusedAlike start m m' w.index w'.index (w.fusedEnd? strong) (w'.fusedEnd? strong)

/-- Both reactions fail alike, or they differ in what is decided ahead only. -/
inductive Matches (start m m' : Nat) :
    Except Failure Reaction → Except Failure Reaction → Prop
  | error (f : Failure) : Matches start m m' (.error f) (.error f)
  | ok (r : Reaction) {a : Ahead} (h : Aligned start m m' r.context.ahead a) :
    Matches start m m' (.ok r) (.ok (r.withAhead a))

variable {start m m' : Nat} {o : Options} {w w' : Window} {last : Option Token} {ctx : Context}
  {a a' : Ahead} {p p' q q' : Nat}

theorem Corresponds.eq_iff (h : Corresponds start m m' p p') (h' : Corresponds start m m' q q') :
    p' = q' ↔ p = q := by
  cases h <;> cases h' <;> omega

namespace Aligned

theorem insert (h : Aligned start m m' a a') (hp : Corresponds start m m' p p') (f : Fusion) :
    Aligned start m m' { a with fusions := a.fusions.insert p f }
      { a' with fusions := a'.fusions.insert p' f } := by
  intro q q' hq
  refine ⟨?_, (h q q' hq).2⟩
  simp only [OrderedMap.get?_insert, hq.eq_iff hp, (h q q' hq).1]

theorem erase (h : Aligned start m m' a a') (hp : Corresponds start m m' p p') :
    Aligned start m m' { a with fusions := a.fusions.erase p }
      { a' with fusions := a'.fusions.erase p' } := by
  intro q q' hq
  refine ⟨?_, (h q q' hq).2⟩
  simp only [OrderedMap.get?_erase, hq.eq_iff hp, (h q q' hq).1]

theorem consume (h : Aligned start m m' a a') (hp : Corresponds start m m' p p') :
    Aligned start m m' { a with consumedText := some p } { a' with consumedText := some p' } := by
  intro q q' hq
  refine ⟨(h q q' hq).1, ?_⟩
  simp only [Option.some.injEq, hp.eq_iff hq]

theorem release (h : Aligned start m m' a a') :
    Aligned start m m' { a with consumedText := none } { a' with consumedText := none } := by
  intro q q' hq
  exact ⟨(h q q' hq).1, by simp⟩

end Aligned

theorem Matches.of_framed {rule : Context → Except Failure Reaction} (hf : Framed rule)
    (h : Aligned start m m' ctx.ahead a) :
    Matches start m m' (rule ctx) (rule (ctx.withAhead a)) := by
  rw [hf ctx a]
  cases hr : rule ctx with
  | error f => exact .error f
  | ok r =>
    rw [← hf.ahead_eq hr] at h
    exact .ok r h

theorem Matches.eq_or_eq {x x' : Except Failure Reaction} (h : Matches start m m' x x') :
    (∃ f, x = .error f ∧ x' = .error f) ∨
      ∃ r a, x = .ok r ∧ x' = .ok (r.withAhead a) ∧ Aligned start m m' r.context.ahead a := by
  cases h with
  | error f => exact .inl ⟨f, rfl, rfl⟩
  | ok r h => exact .inr ⟨r, _, rfl, rfl, h⟩

namespace Alike

variable (hw : Alike start m m' w w') (ha : Aligned start m m' ctx.ahead a)
include hw ha

theorem emphasis (strong opening : Bool) :
    Matches start m m' (.ok (emphasis o w strong opening ctx))
      (.ok (emphasis o w' strong opening (ctx.withAhead a))) := by
  have hget : (ctx.withAhead a).fusions.get? w'.index = ctx.fusions.get? w.index :=
    (ha _ _ hw.index).1
  unfold Conversion.emphasis
  rw [hget]
  cases ctx.fusions.get? w.index with
  | some fusion =>
    exact .ok (.emit { ctx with fusions := ctx.fusions.erase w.index } _) (ha.erase hw.index)
  | none =>
    cases opening with
    | false => exact .ok (.emit ctx _) ha
    | true =>
      rcases hw.fusedEnd? strong with ⟨hnone, hnone'⟩ | ⟨place, place', hsome, hsome', h₁, h₂, h₃⟩
      · simp only [if_true, hnone, hnone']
        exact .ok (.emit ctx _) ha
      · simp only [if_true, hsome, hsome']
        exact .ok (.emit (ctx.fuse w.index place) _) (((ha.insert h₁ _).insert h₂ _).insert h₃ _)

theorem openAnchor :
    Matches start m m' (.ok (openAnchor o w ctx)) (.ok (openAnchor o w' (ctx.withAhead a))) := by
  unfold Conversion.openAnchor
  rw [hw.token, hw.flatText?]
  cases htext : (if o.anchorsAsTags = true then none else w.flatText?) with
  | none => exact .ok (.emit ((ctx.enter .anchor).enter .anchorAsTag) _) ha
  | some text =>
    have hsome : w.flatText?.isSome = true := by
      split at htext
      · cases htext
      · rw [htext]
        rfl
    cases w.token.filledAttribute? "href" with
    | none => exact .ok (.quiet (ctx.enter .anchor)) ha
    | some href =>
      dsimp only
      unfold linkToken
      split_ifs
      · exact .ok (.emit { ctx.enter .anchor with consumedText := some (w.index + 1) } _)
          (ha.consume (hw.next hsome))
      · exact .ok (.emit { ctx.enter .anchor with
            references := ctx.references.register href (w.token.filledAttribute? "title")
            consumedText := some (w.index + 1) } _) (ha.consume (hw.next hsome))
      · exact .ok (.emit { ctx.enter .anchor with consumedText := some (w.index + 1) } _)
          (ha.consume (hw.next hsome))

theorem characters :
    Matches start m m' (.ok (characters w ctx)) (.ok (characters w' (ctx.withAhead a))) := by
  have hconsumed : (ctx.withAhead a).consumedText = some w'.index ↔
      ctx.consumedText = some w.index := (ha _ _ hw.index).2
  unfold Conversion.characters
  rw [hw.token]
  by_cases h : ctx.consumedText = some w.index
  · rw [if_pos h, if_pos (hconsumed.mpr h)]
    exact .ok (.quiet { ctx with consumedText := none }) ha.release
  · rw [if_neg h, if_neg (mt hconsumed.mp h)]
    exact .ok (.emit ctx _) ha

theorem pairedTag :
    Matches start m m' (pairedTag o w ctx) (pairedTag o w' (ctx.withAhead a)) := by
  unfold Conversion.pairedTag
  rw [hw.token]
  dsimp only
  cases Html.roleOf w.token.tagName with
  | heading level => exact .of_framed (framed_heading _ level _) ha
  | paragraph => exact .of_framed (framed_paragraph _ _) ha
  | division =>
    dsimp only
    split
    · exact .of_framed (framed_paragraph _ _) ha
    · exact .of_framed .quiet ha
  | list kind =>
    dsimp only
    rw [hw.listFollows]
    split
    · exact .of_framed (framed_openList kind) ha
    · exact .of_framed (framed_closeList _) ha
  | item => exact .of_framed (framed_item _) ha
  | emphasis strong => exact hw.emphasis ha strong _
  | anchor =>
    dsimp only [anchor]
    split
    · exact hw.openAnchor ha
    · have hclose : closeAnchor o w' = closeAnchor o w := by unfold closeAnchor; rw [hw.token]
      rw [hclose]
      exact .of_framed framed_closeAnchor ha
  | quote => exact .of_framed (framed_quote _) ha
  | code => exact .of_framed (framed_code _) ha
  | pre =>
    have hpre : preformatted o w' = preformatted o w := by
      unfold preformatted preMode
      rw [hw.token, hw.codeFollows]
    dsimp only
    rw [hpre]
    exact .of_framed (framed_preformatted _) ha
  | script =>
    have hscript : script o w' = script o w := by unfold script; rw [hw.token]
    dsimp only
    rw [hscript]
    exact .of_framed (framed_script _) ha
  | bareLink => exact .of_framed (framed_autolink _) ha
  | other => exact .of_framed (framed_otherTag _) ha

theorem ordinary :
    Matches start m m' (ordinary o w last ctx) (ordinary o w' last (ctx.withAhead a)) := by
  have htag : Matches start m m' (tag o w ctx) (tag o w' (ctx.withAhead a)) := by
    unfold tag
    rw [hw.token, hw.isEmptyPair]
    cases w.token.name.filter w.isEmptyPair with
    | some name => exact .of_framed (framed_emptyPair _ name) ha
    | none => exact hw.pairedTag ha
  unfold Conversion.ordinary
  rw [hw.token]
  cases w.token.kind with
  | startTag | endTag => exact htag
  | emptyTag => exact .of_framed (framed_emptyTag _) ha
  | characters => exact hw.characters ha
  | spaceCharacters => exact .of_framed (framed_spaceCharacters _) ha
  | comment =>
    dsimp only
    split
    · exact .of_framed .quiet ha
    · exact .of_framed (.emit _) ha
  | doctype | parseError => exact .of_framed (.remark _) ha

/-- Alike windows get reactions that match. -/
theorem react : Matches start m m' (react o w last ctx) (react o w' last (ctx.withAhead a)) := by
  unfold Conversion.react
  rw [hw.token, insideSensitive_withAhead]
  simp only [Context.scriptStrip_withAhead, Context.sensitive_withAhead]
  by_cases hstrip : o.stripScripts = true ∧ 0 < ctx.scriptStrip
  · simp only [hstrip, and_self, if_true]
    exact .of_framed (framed_insideStripped _) ha
  · simp only [hstrip, if_false]
    by_cases hs : 0 < ctx.sensitive
    · simp only [hs, if_true]
      cases hin : insideSensitive w.token ctx with
      | none => exact hw.ordinary ha
      | some r => exact .ok r (by rwa [ahead_of_insideSensitive hin])
    · simp only [hs, if_false]
      exact hw.ordinary ha

end Alike

end HtmlMarkdown.Conversion
