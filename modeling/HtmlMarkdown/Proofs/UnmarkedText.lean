import HtmlMarkdown.Proofs.ReadBack
import HtmlMarkdown.Proofs.UnmarkedStream

/-!
# The text of HTML without marks

The spacing pass makes a blank line of the marks at the ends of a table and of the gaps beside them.
The rest of the layout leaves the stream as it is, but for a newline and gaps at its ends. So HTML
without marks is converted to the text that `Html.written` spells, with newlines behind it.
-/

namespace HtmlMarkdown

open Conversion (Gap)

def Conversion.Gap.tokens (g : Gap) : List Markdown.Token := [g.token]

namespace Markdown

variable {us base out rest : List Token} {before : Option Token} {due : Option Gap} {s : Spacer}
  {c : Chunk (List Token)} {cs : List (Chunk (List Token))} {t z : Token}

theorem Compact.exists_head? (h : Compact us) (rest : List Token) :
    ∃ t, t.Inline ∧ (us ++ rest).head? = some t := by
  obtain ⟨t, ht, hinline⟩ := h.first
  exact ⟨t, hinline, by rw [List.head?_append, Option.mem_def.mp ht]; rfl⟩

theorem Compact.inline_behind (h : Compact us) (base : List Token) :
    ∃ t ∈ (us.reverse ++ base).head?, t.Inline := by
  obtain ⟨t, ht, hinline⟩ := h.last
  exact ⟨t, by rw [List.head?_append, List.head?_reverse, Option.mem_def.mp ht]; rfl, hinline⟩

/-- A draft does not begin with the mark that closes a block, and with a newline only where it
begins with a gap. -/
theorem head?_draft (hcompact : ∀ c ∈ cs, ∀ us ∈ c.content?, Compact us) (due : Option Gap) :
    (draft (.behind due) cs).head?.any (·.tagIs Tag.isBlockEnd) = false ∧
      (Chunk.gapsApart false cs = true →
        (draft (.behind due) cs).head?.any (·.isNewline) = false) := by
  cases cs with
  | nil => exact ⟨rfl, fun _ => rfl⟩
  | cons c cs =>
    have hcompact := hcompact c List.mem_cons_self
    have hinline {us : List Token} (hus : Compact us) (rest : List Token) :
        (us ++ rest).head?.any (·.tagIs Tag.isBlockEnd) = false ∧
          (us ++ rest).head?.any (·.isNewline) = false := by
      obtain ⟨t, ht, hhead⟩ := hus.exists_head? rest
      rw [hhead]
      exact ⟨ht.tagIs rfl rfl, ht.tagIs rfl rfl⟩
    cases c with
    | run us => exact ⟨(hinline (hcompact us rfl) _).1, fun _ => (hinline (hcompact us rfl) _).2⟩
    | gap g =>
      refine ⟨?_, fun h => by cases h⟩
      cases due with
      | none => cases g <;> rfl
      | some due => cases due <;> rfl
    | opens us => exact ⟨rfl, fun _ => rfl⟩
    | closes us =>
      have hus := hinline (hcompact us rfl)
      rw [draft, Chunk.drafted, List.append_assoc]
      exact ⟨(hus _).1, fun _ => (hus _).2⟩

/-- The output goes on with the tokens and at most one gap behind them. -/
def Spacer.Reaches (s : Spacer) (us base : List Token) : Prop :=
  ∃ gap : Option Gap, s = .behind ((us ++ gap.toList.map Gap.token).reverse ++ base)

namespace Spacer

theorem Reaches.append {vs : List Token} (h : s.Reaches us (vs.reverse ++ base)) :
    s.Reaches (vs ++ us) base := by
  obtain ⟨gap, rfl⟩ := h
  exact ⟨gap, by simp⟩

theorem spelled_reverse (due : Option Gap) :
    ((Front.behind due).spelled Gap.tokens).reverse = (Front.behind due).spelled Gap.tokens := by
  cases due <;> rfl

theorem step_gap (h : z.Inline) (hrest : rest.head?.any (·.tagIs Tag.isBlockEnd) = false)
    (before : Option Token) (g : Gap) :
    (behind (z :: out)).step before g.token rest = behind (g.token :: z :: out) := by
  have hnewline : z.isNewline = false := h.tagIs rfl rfl
  have hrule : z.hasTag .horizontalRule = false := (h.worded out).rule
  have htag : ∃ tag, g.token.tag? = some tag ∧
      (behind (z :: out)).ordinary before g.token rest tag =
        (behind (z :: out)).whitespace g.token rest.head? := by
    cases g <;> exact ⟨_, rfl, rfl⟩
  obtain ⟨tag, htag, hordinary⟩ := htag
  rw [step_of_tag htag, hordinary, whitespace, if_neg (by simp [hrest])]
  simp [behind, hnewline, hrule, push]

/-- A gap that is due makes way for a blank line. -/
theorem settle_spelled (hbase : ∃ t ∈ base.head?, t.Inline) (due : Option Gap) :
    Markdown.settle 2 none ((Front.behind due).spelled Gap.tokens ++ base) =
      .newlineBlank :: base := by
  obtain ⟨t, ht, hinline⟩ := hbase
  obtain ⟨ts, rfl⟩ := List.head?_eq_some_iff.mp ht
  have hfresh : isFresh (t :: ts) = false := (hinline.worded ts).rule
  have hsettle : Markdown.settle 2 none ((Front.behind due).spelled Gap.tokens ++ t :: ts) =
      Markdown.settle 2 none (t :: ts) := by
    cases due with
    | none => rfl
    | some g =>
      have hwhite : g.token.tagIs Tag.isWhitespace = true := by cases g <;> rfl
      have hdepth : g.token.quoteDepth = none := by cases g <;> rfl
      exact settle_cons hwhite hdepth 2
  rw [hsettle, settle_two (hinline.worded ts).solid, hfresh, if_neg Bool.false_ne_true,
    Token.within_none]

/-- At the end of a block, where neither the end of another one nor a newline follows, a blank line
is written. -/
theorem step_blockEnd (hbase : ∃ t ∈ base.head?, t.Inline) (hz : z.Inline)
    (hend : rest.head?.any (·.tagIs Tag.isBlockEnd) = false)
    (hline : rest.head?.any (·.isNewline) = false) :
    (behind base).step (some z) .endBlock rest = behind (.newlineBlank :: base) := by
  have htag : Token.endBlock.tag? = some .endBlock := rfl
  have hlast : (some z).any (·.tagIs Tag.closesItsLine) = false := hz.tagIs rfl rfl
  rw [step_of_tag htag]
  change (behind base).blockEnd .endBlock (some z) rest.head? = _
  rw [blockEnd, if_neg (by simp [hend, hline]), hlast, if_neg Bool.false_ne_true]
  exact congrArg behind (settle_spelled hbase none)

theorem step_startBlock_inline (h : ∃ t, t.Inline ∧ rest.head? = some t) (before : Option Token)
    (out : List Token) : (behind out).step before .startBlock rest =
      behind (Markdown.settle 2 none out) := by
  have htag : Token.startBlock.tag? = some .startBlock := rfl
  obtain ⟨t, ht, hhead⟩ := h
  have hstart : t.tagIs Tag.isBlockStart = false := ht.tagIs rfl rfl
  have hline : t.isNewline = false := ht.tagIs rfl rfl
  have hopens : t.tagIs Tag.opensOnNewLine = false := ht.tagIs rfl rfl
  rw [step_of_tag htag]
  change (behind out).blockStart .startBlock rest.head? = _
  rw [hhead]
  simp only [blockStart, hstart, hline, hopens, Bool.false_eq_true, or_self, if_false]
  rfl

/-- From a place behind something, and from the end of a block, a draft is written as it is laid
out. -/
theorem run_draft (hcompact : ∀ c ∈ cs, ∀ us ∈ c.content?, Compact us) :
    (∀ due base before, (∃ t ∈ base.head?, t.Inline) → Chunk.gapsApart due.isNone cs = true →
      ((behind ((Front.behind due).spelled Gap.tokens ++ base)).run before
        (draft (.behind due) cs)).Reaches (lay Gap.tokens (.behind due) cs) base) ∧
      ∀ base z, (∃ t ∈ base.head?, t.Inline) → z.Inline → Chunk.gapsApart true cs = true →
        ((behind base).run (some z) (.endBlock :: draft (.behind (some .blank)) cs)).Reaches
          (lay Gap.tokens (.behind (some .blank)) cs) base := by
  induction cs with
  | nil =>
    refine ⟨fun due base before _ _ => ⟨due, ?_⟩, fun base z hbase hz _ => ⟨some .blank, ?_⟩⟩
    · cases due <;> rfl
    · rw [draft, run_cons, step_blockEnd hbase hz rfl rfl]
      rfl
  | cons c cs ih =>
    obtain ⟨hc, hcs⟩ := List.forall_mem_cons.mp hcompact
    obtain ⟨ihdue, ihend⟩ := ih hcs
    have hdue (due : Option Gap) (base : List Token) (before : Option Token)
        (hbase : ∃ t ∈ base.head?, t.Inline)
        (hapart : Chunk.gapsApart due.isNone (c :: cs) = true) :
        ((behind ((Front.behind due).spelled Gap.tokens ++ base)).run before
          (draft (.behind due) (c :: cs))).Reaches
            (lay Gap.tokens (.behind due) (c :: cs)) base := by
      obtain ⟨hfree, hapart⟩ := (Bool.and_eq_true _ _).mp hapart
      have hspelled (us : List Token) :
          ((Front.behind due).spelled Gap.tokens ++ us).reverse ++ base =
            us.reverse ++ ((Front.behind due).spelled Gap.tokens ++ base) := by
        rw [List.reverse_append, spelled_reverse, List.append_assoc]
      cases c with
      | run us =>
        obtain ⟨t, -, hrun⟩ := (hc us rfl).passes (draft (.behind none) cs)
          ((Front.behind due).spelled Gap.tokens ++ base) before
        rw [draft, Chunk.drafted, Front.next, hrun, ← hspelled]
        exact (ihdue none _ _ (hspelled us ▸ (hc us rfl).inline_behind _) hapart).append
      | gap g =>
        obtain rfl : due = none := by cases due <;> first | rfl | cases hfree
        obtain ⟨t, ht, hinline⟩ := hbase
        obtain ⟨ts, rfl⟩ := List.head?_eq_some_iff.mp ht
        have hstep : (behind (t :: ts)).step before g.token (draft (.behind (some g)) cs) =
            behind (g.token :: t :: ts) :=
          step_gap hinline (head?_draft hcs (some g)).1 before g
        change (((behind (t :: ts)).step before g.token (draft (.behind (some g)) cs)).run
          (some g.token) (draft (.behind (some g)) cs)).Reaches _ _
        rw [hstep]
        exact ihdue (some g) _ _ ⟨t, ht, hinline⟩ hapart
      | opens us =>
        obtain ⟨t, -, hrun⟩ := (hc us rfl).passes (draft (.behind none) cs) (.newlineBlank :: base)
          (some .startBlock)
        have hstep := step_startBlock_inline ((hc us rfl).exists_head? (draft (.behind none) cs))
          before ((Front.behind due).spelled Gap.tokens ++ base)
        change (((behind _).step before .startBlock (us ++ draft (.behind none) cs)).run
          (some .startBlock) (us ++ draft (.behind none) cs)).Reaches _ _
        have hopened : (Gap.blank.tokens ++ us).reverse ++ base =
            us.reverse ++ .newlineBlank :: base := by
          simp [Gap.tokens, Gap.token]
        rw [hstep, settle_spelled hbase, hrun, ← hopened]
        exact (ihdue none _ _ (hopened ▸ (hc us rfl).inline_behind _) hapart).append
      | closes us =>
        obtain ⟨t, ht, hrun⟩ := (hc us rfl).passes (.endBlock :: draft (.behind (some .blank)) cs)
          ((Front.behind due).spelled Gap.tokens ++ base) before
        have hdraft : draft (.behind due) (.closes us :: cs) =
            us ++ .endBlock :: draft (.behind (some .blank)) cs :=
          List.append_assoc us [.endBlock] _
        rw [hdraft, hrun, ← hspelled]
        exact (ihend _ t (hspelled us ▸ (hc us rfl).inline_behind _) ht hapart).append
    refine ⟨hdue, fun base z hbase hz hapart => ?_⟩
    obtain ⟨-, hcs'⟩ := (Bool.and_eq_true _ _).mp hapart
    cases hgap : c.isGap with
    | true =>
      obtain ⟨g, rfl⟩ : ∃ g, c = .gap g := by cases c <;> first | exact ⟨_, rfl⟩ | cases hgap
      obtain ⟨t, ht, hinline⟩ := hbase
      obtain ⟨ts, rfl⟩ := List.head?_eq_some_iff.mp ht
      have hend : (behind (t :: ts)).step (some z) .endBlock
          (.newlineBlank :: draft (.behind (some .blank)) cs) = behind (t :: ts) :=
        step_end_of_closesOn (.inl rfl) (.inr rfl)
      have hstep : (behind (t :: ts)).step (some .endBlock) Gap.blank.token
          (draft (.behind (some .blank)) cs) = behind (Gap.blank.token :: t :: ts) :=
        step_gap hinline (head?_draft hcs (some .blank)).1 (some .endBlock) .blank
      change (((((behind (t :: ts)).step (some z) .endBlock
        (.newlineBlank :: draft (.behind (some .blank)) cs))).step (some .endBlock)
          Gap.blank.token (draft (.behind (some .blank)) cs)).run (some .newlineBlank)
            (draft (.behind (some .blank)) cs)).Reaches _ _
      rw [hend, hstep]
      exact ihdue (some .blank) _ _ ⟨t, ht, hinline⟩ hcs'
    | false =>
      have hapart' : Chunk.gapsApart false (c :: cs) = true := by
        rw [Chunk.gapsApart, hgap]
        rwa [hgap] at hcs'
      obtain ⟨hend, hline⟩ := head?_draft hcompact (some .blank)
      rw [run_cons, step_blockEnd hbase hz hend (hline hapart')]
      exact hdue (some .blank) base _ hbase hapart'

/-- From the start a draft is written as it is laid out, behind a newline at most. -/
theorem exists_lead (hcompact : ∀ c ∈ cs, ∀ us ∈ c.content?, Compact us)
    (hapart : Front.start.Apart true cs) (hcontent : cs.filterMap Chunk.content? ≠ []) :
    ∃ lead, (lead = [] ∨ lead = [.newline]) ∧
      ((behind []).run none (draft .start cs)).Reaches (lead ++ lay Gap.tokens .start cs) [] := by
  induction cs with
  | nil => exact absurd rfl hcontent
  | cons c cs ih =>
    obtain ⟨hc, hcs⟩ := List.forall_mem_cons.mp hcompact
    obtain ⟨hdue, hend⟩ := run_draft hcs
    cases c with
    | gap g => exact ih hcs hapart hcontent
    | run us =>
      obtain ⟨t, -, hrun⟩ := (hc us rfl).passes (draft (.behind none) cs) [] none
      refine ⟨[], .inl rfl, ?_⟩
      rw [draft, Chunk.drafted, Front.next, hrun]
      exact (hdue none _ _ ((hc us rfl).inline_behind []) hapart.next).append
    | opens us =>
      obtain ⟨t, -, hrun⟩ := (hc us rfl).passes (draft (.behind none) cs) [.newline]
        (some .startBlock)
      have hstart : (behind []).step none .startBlock (us ++ draft (.behind none) cs) =
          behind [.newline] :=
        step_startBlock_inline ((hc us rfl).exists_head? _) none []
      refine ⟨[.newline], .inr rfl, ?_⟩
      change (((behind []).step none .startBlock (us ++ draft (.behind none) cs)).run
        (some .startBlock) (us ++ draft (.behind none) cs)).Reaches _ _
      rw [hstart, hrun]
      have hopened : us.reverse ++ [.newline] = (.newline :: us).reverse ++ [] := by simp
      rw [hopened]
      exact (hdue none _ _ (hopened ▸ (hc us rfl).inline_behind _) hapart.next).append
    | closes us =>
      obtain ⟨t, ht, hrun⟩ := (hc us rfl).passes (.endBlock :: draft (.behind (some .blank)) cs) []
        none
      have hdraft : draft .start (.closes us :: cs) =
          us ++ .endBlock :: draft (.behind (some .blank)) cs :=
        List.append_assoc us [.endBlock] _
      refine ⟨[], .inl rfl, ?_⟩
      rw [hdraft, hrun]
      exact (hend _ t ((hc us rfl).inline_behind []) ht hapart.next).append

end Spacer

end Markdown

section Lay

variable {β : Type} {spell : Gap → List β} {c : Chunk (List β)} {cs : List (Chunk (List β))}
  {us : List β}

/-- Gaps alone are nothing. -/
theorem lay_of_gaps (h : cs.filterMap Chunk.content? = []) (front : Front) :
    lay spell front cs = [] := by
  induction cs generalizing front with
  | nil => rfl
  | cons c cs ih =>
    cases c with
    | gap g => exact ih h _
    | _ => cases h

theorem exists_lay_start (h : us ∈ (cs.filterMap Chunk.content?).head?) :
    ∃ rest, lay spell .start cs = us ++ rest := by
  induction cs with
  | nil => cases h
  | cons c cs ih =>
    cases c with
    | gap g => exact ih h
    | _ =>
      obtain rfl := Option.some.inj h
      exact ⟨_, rfl⟩

theorem exists_lay_end (h : us ∈ (cs.filterMap Chunk.content?).getLast?) (front : Front) :
    ∃ before, lay spell front cs = before ++ us := by
  induction cs generalizing front with
  | nil => cases h
  | cons c cs ih =>
    by_cases hcs : cs.filterMap Chunk.content? = []
    · cases hc : c.content? with
      | none =>
        rw [List.filterMap_cons_none hc, hcs] at h
        cases h
      | some vs =>
        rw [List.filterMap_cons_some hc, hcs] at h
        obtain rfl : vs = us := Option.some.inj h
        obtain ⟨before, hlaid⟩ : ∃ before, c.laid spell front = before ++ vs := by
          cases c with
          | gap g => cases hc
          | run us | closes us =>
            obtain rfl := Option.some.inj hc
            exact ⟨_, rfl⟩
          | opens us =>
            obtain rfl := Option.some.inj hc
            cases front with
            | start => exact ⟨[], rfl⟩
            | behind due => exact ⟨spell .blank, rfl⟩
        exact ⟨before, by rw [lay, hlaid, lay_of_gaps hcs, List.append_nil]⟩
    · have hlast : us ∈ (cs.filterMap Chunk.content?).getLast? := by
        cases hc : c.content? with
        | none => rwa [List.filterMap_cons_none hc] at h
        | some vs =>
          rw [List.filterMap_cons_some hc, List.getLast?_cons_of_ne_nil hcs] at h
          exact h
      obtain ⟨before, hlaid⟩ := ih hlast (front.next c)
      exact ⟨c.laid spell front ++ before, by rw [lay, hlaid, List.append_assoc]⟩

/-- What holds of gaps and contents and of what stands together holds of what is laid out. -/
theorem lay_induction {P : List β → Prop} (hnil : P [])
    (happend : ∀ us vs, P us → P vs → P (us ++ vs)) (hspell : ∀ g, P (spell g))
    (hcontent : ∀ c ∈ cs, ∀ us ∈ c.content?, P us) (front : Front) :
    P (lay spell front cs) := by
  induction cs generalizing front with
  | nil => exact hnil
  | cons c cs ih =>
    obtain ⟨hc, hcs⟩ := List.forall_mem_cons.mp hcontent
    have hspelled : P (front.spelled spell) := by
      cases front with
      | start => exact hnil
      | behind due => cases due <;> first | exact hnil | exact hspell _
    refine happend _ _ ?_ (ih hcs _)
    cases c with
    | gap g => exact hnil
    | run us | closes us => exact happend _ _ hspelled (hc us rfl)
    | opens us =>
      cases front with
      | start => exact hc us rfl
      | behind due => exact happend _ _ (hspell _) (hc us rfl)

end Lay

namespace Markdown

variable {us : List Token} {cs : List (Chunk (List Token))}

theorem rawTextAfterAll_append (h : rawTextAfterAll none us = none) (vs : List Token) :
    rawTextAfterAll none (us ++ vs) = rawTextAfterAll none vs := by
  rw [rawTextAfterAll, List.foldl_append]
  exact congrArg (List.foldl _ · vs) h

theorem renderChars_append_outside (h : rawTextAfterAll none us = none) (vs : List Token) :
    renderChars none (us ++ vs) = renderChars none us ++ renderChars none vs := by
  rw [renderChars_append]
  exact congrArg (renderChars none us ++ renderChars · vs) h

/-- Outside of raw text and of quotes the layout leaves the tokens as they are. -/
structure Unaffected (us : List Token) : Prop where
  rawText : rawTextAfterAll none us = none
  indented : indented us = us

theorem Unaffected.append {vs : List Token} (hus : Unaffected us) (hvs : Unaffected vs) :
    Unaffected (us ++ vs) :=
  ⟨(rawTextAfterAll_append hus.rawText vs).trans hvs.rawText,
    by rw [indented_append, hus.indented, hvs.indented]⟩

theorem unaffected_gap (g : Gap) : Unaffected g.tokens := by
  cases g <;> exact ⟨rfl, by decide⟩

theorem unaffected_lay (hcompact : ∀ c ∈ cs, ∀ us ∈ c.content?, Compact us) (front : Front) :
    Unaffected (lay Gap.tokens front cs) :=
  lay_induction ⟨rfl, rfl⟩ (fun _ _ => Unaffected.append) unaffected_gap
    (fun c hc us hus => ⟨(hcompact c hc us hus).rawText, (hcompact c hc us hus).indented⟩) front

/-- The text of what is laid out is the text of the gaps and contents, laid out. -/
theorem renderChars_lay (hcompact : ∀ c ∈ cs, ∀ us ∈ c.content?, Compact us) (front : Front) :
    renderChars none (lay Gap.tokens front cs) =
      lay Gap.chars front (cs.map (Chunk.map (renderChars none))) := by
  have hspell (g : Gap) : renderChars none g.tokens = g.chars := by cases g <;> decide
  induction cs generalizing front with
  | nil => rfl
  | cons c cs ih =>
    obtain ⟨hc, hcs⟩ := List.forall_mem_cons.mp hcompact
    have hgap (g : Gap) (us : List Token) :
        renderChars none (g.tokens ++ us) = g.chars ++ renderChars none us := by
      rw [renderChars_append_outside (unaffected_gap g).rawText, hspell]
    have hspelled (us : List Token) : renderChars none (front.spelled Gap.tokens ++ us) =
        front.spelled Gap.chars ++ renderChars none us := by
      cases front with
      | start => rfl
      | behind due => cases due <;> first | rfl | exact hgap _ us
    have hlaid : renderChars none (c.laid Gap.tokens front) =
        (c.map (renderChars none)).laid Gap.chars front := by
      cases c with
      | gap g => rfl
      | run us | closes us => exact hspelled us
      | opens us =>
        cases front with
        | start => rfl
        | behind due => exact hgap .blank us
    have houtside : rawTextAfterAll none (c.laid Gap.tokens front) = none := by
      have hone := (unaffected_lay (List.forall_mem_singleton.mpr hc) front).rawText
      rwa [lay, lay, List.append_nil] at hone
    rw [lay, renderChars_append_outside houtside, hlaid, ih hcs, List.map_cons, lay, Front.next_map]

theorem draft_of_gaps (h : cs.filterMap Chunk.content? = []) : draft .start cs = [] := by
  induction cs with
  | nil => rfl
  | cons c cs ih =>
    cases c with
    | gap g => exact ih h
    | _ => cases h

/-- A draft is spaced and indented as it is laid out, between a newline and a gap at most. -/
theorem exists_indented_draft (hcompact : ∀ c ∈ cs, ∀ us ∈ c.content?, Compact us)
    (hapart : Front.start.Apart true cs) (hcontent : cs.filterMap Chunk.content? ≠ []) :
    ∃ lead, ∃ gap : Option Gap, (lead = [] ∨ lead = [.newline]) ∧
      indented (space (draft .start cs)) =
        lead ++ (lay Gap.tokens .start cs ++ gap.toList.map Gap.token) := by
  obtain ⟨lead, hlead, gap, hrun⟩ := Spacer.exists_lead hcompact hapart hcontent
  have hspace : space (draft .start cs) =
      lead ++ (lay Gap.tokens .start cs ++ gap.toList.map Gap.token) := by
    rw [space]
    change (Spacer.run (Spacer.behind []) none (draft .start cs)).output.reverse = _
    rw [hrun]
    simp [Spacer.behind]
  have hgap : indented (gap.toList.map Gap.token) = gap.toList.map Gap.token := by
    cases gap with
    | none => rfl
    | some g => exact (unaffected_gap g).indented
  refine ⟨lead, gap, hlead, ?_⟩
  rw [hspace, indented_append, indented_append, (unaffected_lay hcompact .start).indented, hgap]
  rcases hlead with rfl | rfl <;> rfl

/-- Of a gap at the end its newlines are left. -/
theorem exists_newlines_of_gap (gap : Option Gap) :
    ∃ n, renderChars none (trimEnd (gap.toList.map Gap.token)) = List.replicate n '\n' := by
  cases gap with
  | none => exact ⟨0, rfl⟩
  | some g =>
    cases g with
    | space => exact ⟨0, rfl⟩
    | newline => exact ⟨1, by decide⟩
    | blank => exact ⟨2, by decide⟩

/-- Where trimming leaves the first and the last content as they are, a draft is rendered as it is
laid out, with newlines behind it. -/
theorem exists_layout_draft (hcompact : ∀ c ∈ cs, ∀ us ∈ c.content?, Compact us)
    (hapart : Front.start.Apart true cs)
    (hfirst : ∀ us ∈ (cs.filterMap Chunk.content?).head?, ∀ ts, trimStart (us ++ ts) = us ++ ts)
    (hlast : ∀ us ∈ (cs.filterMap Chunk.content?).getLast?, ∀ ts vs,
      trimEnd (ts ++ us ++ vs) = ts ++ us ++ trimEnd vs) :
    ∃ n, renderChars none (layout (draft .start cs)) =
      lay Gap.chars .start (cs.map (Chunk.map (renderChars none))) ++ List.replicate n '\n' := by
  rw [← renderChars_lay hcompact]
  by_cases hcontent : cs.filterMap Chunk.content? = []
  · rw [draft_of_gaps hcontent, lay_of_gaps hcontent]
    exact ⟨0, by decide⟩
  obtain ⟨us, hus⟩ := Option.isSome_iff_exists.mp (List.isSome_head?.mpr hcontent)
  obtain ⟨vs, hvs⟩ := Option.isSome_iff_exists.mp (List.getLast?_isSome.mpr hcontent)
  obtain ⟨after, hafter⟩ : ∃ after, lay Gap.tokens .start cs = us ++ after :=
    exists_lay_start hus
  obtain ⟨before, hbefore⟩ : ∃ before, lay Gap.tokens .start cs = before ++ vs :=
    exists_lay_end hvs .start
  obtain ⟨lead, gap, hlead, hindented⟩ := exists_indented_draft hcompact hapart hcontent
  have hstart : trimStart (lead ++ (lay Gap.tokens .start cs ++ gap.toList.map Gap.token)) =
      lay Gap.tokens .start cs ++ gap.toList.map Gap.token := by
    have hkept : trimStart (lay Gap.tokens .start cs ++ gap.toList.map Gap.token) =
        lay Gap.tokens .start cs ++ gap.toList.map Gap.token := by
      rw [hafter, List.append_assoc]
      exact hfirst us hus _
    rcases hlead with rfl | rfl <;> exact hkept
  have hend : trimEnd (lay Gap.tokens .start cs ++ gap.toList.map Gap.token) =
      lay Gap.tokens .start cs ++ trimEnd (gap.toList.map Gap.token) := by
    rw [hbefore]
    exact hlast vs hvs before _
  obtain ⟨n, hn⟩ := exists_newlines_of_gap gap
  refine ⟨n, ?_⟩
  change renderChars none (trimEnd (trimStart (indented (space (draft .start cs))))) = _
  rw [hindented, hstart, hend,
    renderChars_append_outside (unaffected_lay hcompact .start).rawText, hn]

theorem trimStart_of_stays {x : Token} (h : Stays x) (ts : List Token) :
    trimStart ([x] ++ ts) = [x] ++ ts := by
  rw [List.singleton_append, trimStart_cons h.1, h.2]

end Markdown

namespace Html.Token.Content

open Markdown (trimStart trimEnd renderChars)

variable {t : Token} {us : List Markdown.Token}

theorem textRun_or_single (h : t.Content us) : Markdown.TextRun us ∨
    ∃ x : Markdown.Token, us = [x] ∧ x.isPureSpace = false ∧ ∀ s ∈ x.text?,
      t.kind = .comment ∧ s = t.content ∨ s = "<" ++ t.address ++ ">" := by
  cases h with
  | text hflow => exact .inl (Markdown.textRun_textTokens hflow)
  | comment hk =>
    refine .inr ⟨_, rfl, by simp [Markdown.Token.isPureSpace, Markdown.Token.html, hk],
      fun s hs => .inl ⟨hk, ?_⟩⟩
    have htext : t.text = some s := by
      simpa [Markdown.Token.text?, Markdown.Token.html, isTag, hk] using hs
    simp [content, htext]
  | tag hk hname =>
    refine .inr ⟨_, rfl, ?_, fun s hs => ?_⟩
    · rcases hk with hk | hk <;>
        simp [Markdown.Token.isPureSpace, Markdown.Token.html, Options.clean, keepAttributes, hk]
    · rcases hk with hk | hk <;>
        simp [Markdown.Token.text?, Markdown.Token.html, Options.clean, keepAttributes, isTag, hk]
          at hs
  | link => exact .inr ⟨_, rfl, rfl, fun s hs => .inr (Option.some.inj hs).symm⟩

/-- What a token comes to is left as it is at the start, but for the newlines of a comment. -/
theorem trimStart_append (h : t.Content us)
    (hcomment : t.kind = .comment → t.content.toList.head? ≠ some '\n')
    (ts : List Markdown.Token) : trimStart (us ++ ts) = us ++ ts := by
  obtain hrun | ⟨x, rfl, hpure, htext⟩ := h.textRun_or_single
  · obtain ⟨x, xs, rfl, hx⟩ := hrun.exists_cons
    exact Markdown.trimStart_append hx [] _
  · refine Markdown.trimStart_of_stays (Markdown.stays_of_head? hpure fun s hs => ?_) ts
    obtain ⟨hk, rfl⟩ | rfl := htext s hs
    · exact hcomment hk
    · simp

theorem trimEnd_append (h : t.Content us)
    (hcomment : t.kind = .comment → t.content.toList.getLast? ≠ some '\n')
    (ts vs : List Markdown.Token) : trimEnd (ts ++ us ++ vs) = ts ++ us ++ trimEnd vs := by
  obtain hrun | ⟨x, rfl, hpure, htext⟩ := h.textRun_or_single
  · obtain ⟨xs, x, rfl, hx⟩ := hrun.exists_concat
    have hlast := Markdown.trimEnd_append hx (ts ++ xs) vs
    simpa only [List.append_assoc, List.singleton_append] using hlast
  · have hsame : x.mapText Markdown.trimNewlinesEnd = x :=
      Markdown.trimmed_of_getLast? fun s hs => by
        obtain ⟨hk, rfl⟩ | rfl := htext s hs
        · exact hcomment hk
        · simp [List.getLast?_cons, List.getLast?_append]
    have hlast := Markdown.trimEnd_append_cons hpure hsame ts vs
    simpa only [List.append_assoc, List.singleton_append] using hlast

/-- The text that a token comes to ends in no newline. -/
theorem getLast?_chars (h : t.Content us) : ∃ c ∈ (renderChars none us).getLast?, c ≠ '\n' := by
  have hgt : '>' ≠ '\n' := by decide
  cases h with
  | text hflow =>
    obtain ⟨cs, c, hcs⟩ := List.eq_nil_or_concat' _ |>.resolve_left hflow
    have hwhite : Text.isWhite c = false :=
      Text.getLast?_flowChars false _ c (by rw [hcs, List.getLast?_concat]; rfl)
    obtain ⟨ds, d, hd, hescape⟩ := Text.exists_escapeChar_of_not_isWhite hwhite
    refine ⟨d, ?_, ?_⟩
    · rw [Markdown.renderChars_textTokens, hcs, List.flatMap_append, List.flatMap_singleton,
        hescape, ← List.append_assoc, List.getLast?_concat]
      rfl
    · rintro rfl
      exact absurd hd (by decide)
  | comment hk =>
    refine ⟨'>', ?_, hgt⟩
    simp [renderChars, Markdown.Token.chars, Markdown.Token.html, Markdown.htmlChars, hk,
      List.getLast?_cons, List.getLast?_append]
  | tag hk hname =>
    refine ⟨'>', ?_, hgt⟩
    rcases List.mem_cons.mp hname with hanchor | htable
    · obtain ⟨hstart, hend⟩ := renderChars_anchor hanchor
      rcases hk with hk | hk
      · rw [hstart hk]
        exact List.getLast?_concat
      · rw [hend hk]
        rfl
    · obtain ⟨hstart, hend⟩ := renderChars_table htable
      rcases hk with hk | hk
      · rw [hstart hk]
        exact List.getLast?_concat
      · rw [hend hk]
        exact List.getLast?_concat
  | link =>
    refine ⟨'>', ?_, hgt⟩
    simp [renderChars, Markdown.Token.chars, Markdown.Token.anchorSimple, Markdown.Token.markdown,
      Markdown.Tag.renderKind, List.getLast?_cons, List.getLast?_append]

end Html.Token.Content

namespace Conversion

variable {ts : List Html.Token} {us : List Markdown.Token}

theorem exists_head?_filter {α β : Type} {f : α → Option β} {as : List α} {b : β}
    (h : b ∈ (as.filterMap f).head?) : ∃ a ∈ (as.filter (f · |>.isSome)).head?, f a = some b := by
  induction as with
  | nil => cases h
  | cons a as ih =>
    cases ha : f a with
    | none =>
      rw [List.filterMap_cons_none ha] at h
      rw [List.filter_cons_of_neg (by simp [ha])]
      exact ih h
    | some b' =>
      rw [List.filterMap_cons_some ha] at h
      obtain rfl : b' = b := Option.some.inj h
      exact ⟨a, by rw [List.filter_cons_of_pos (by simp [ha])]; rfl, ha⟩

theorem exists_getLast?_filter {α β : Type} {f : α → Option β} {as : List α} {b : β}
    (h : b ∈ (as.filterMap f).getLast?) :
    ∃ a ∈ (as.filter (f · |>.isSome)).getLast?, f a = some b := by
  rw [List.getLast?_eq_head?_reverse, ← List.filterMap_reverse] at h
  rw [List.getLast?_eq_head?_reverse, ← List.filter_reverse]
  exact exists_head?_filter h

/-- The contents of a stream are those of the tokens that are written. -/
theorem visible_eq (ts : List Html.Token) : Html.visible ts =
    (Html.withoutEmpty ts).filter (fun t => (t.drafted?.bind Chunk.content?).isSome) := by
  refine List.filter_congr fun t _ => ?_
  rw [t.chunk?_eq]
  cases t.drafted? with
  | none => rfl
  | some c => cases c <;> rfl

theorem contents_eq (ts : List Html.Token) : (drafts ts).filterMap Chunk.content? =
    (Html.withoutEmpty ts).filterMap fun t => t.drafted?.bind Chunk.content? :=
  List.filterMap_filterMap

theorem content_of_bind {t : Html.Token} (h : t.drafted?.bind Chunk.content? = some us) :
    t.Content us := by
  obtain ⟨c, hc, hus⟩ := Option.bind_eq_some_iff.mp h
  exact Html.Token.content_of_drafted? hc us hus

/-- The text of HTML without marks ends in no newline. -/
theorem getLast?_written (ts : List Html.Token) :
    ∀ c ∈ (Html.written ts).getLast?, c ≠ '\n' := by
  have hends : ∀ c ∈ Html.chunks ts, ∀ cs ∈ c.content?, ∃ e ∈ cs.getLast?, e ≠ '\n' := by
    rw [chunks_eq]
    intro c hc cs hcs
    obtain ⟨d, hd, rfl⟩ := List.mem_map.mp hc
    obtain ⟨t, -, ht⟩ := List.mem_filterMap.mp hd
    have hcontent : ∃ us ∈ d.content?, Markdown.renderChars none us = cs := by
      cases d with
      | gap g => cases hcs
      | run us | opens us | closes us => exact ⟨us, rfl, Option.some.inj hcs⟩
    obtain ⟨us, hus, rfl⟩ := hcontent
    exact (Html.Token.content_of_drafted? ht us hus).getLast?_chars
  by_cases hnone : (Html.chunks ts).filterMap Chunk.content? = []
  · rw [Html.written, lay_of_gaps hnone]
    exact fun c hc => by cases hc
  · obtain ⟨cs, hcs⟩ := Option.isSome_iff_exists.mp (List.getLast?_isSome.mpr hnone)
    obtain ⟨before, hlaid⟩ : ∃ before, lay Gap.chars .start (Html.chunks ts) = before ++ cs :=
      exists_lay_end hcs .start
    obtain ⟨d, hd, hcontent⟩ := List.mem_filterMap.mp (List.mem_of_getLast? hcs)
    obtain ⟨e, he, hne⟩ := hends d hd cs hcontent
    rw [Html.written, hlaid, List.getLast?_append, Option.mem_def.mp he]
    rintro c hc
    exact Option.some.inj hc ▸ hne

end Conversion

namespace Converter

variable {ts : List Html.Token}

/-- HTML without marks is converted to its text, up to newlines at the end. -/
theorem exists_render_unmarked (h : Html.Unmarked ts) : ∃ m, (ofOptions {}).render ts = .ok m ∧
    Markdown.trimNewlinesEnd m = String.ofList (Html.written ts) := by
  have hcompact : ∀ c ∈ Conversion.drafts ts, ∀ us ∈ c.content?, Markdown.Compact us := by
    intro c hc us hus
    obtain ⟨t, -, ht⟩ := List.mem_filterMap.mp hc
    exact (Html.Token.content_of_drafted? ht us hus).compact
  have hconvert : Conversion.convert ({} : Options).sanitized ts = _ :=
    Conversion.convert_unmarked h
  obtain ⟨n, hn⟩ := Markdown.exists_layout_draft hcompact (Conversion.apart_drafts h)
    (fun us hus ts' => by
      rw [Conversion.contents_eq] at hus
      obtain ⟨t, ht, hcontent⟩ := Conversion.exists_head?_filter hus
      rw [← Conversion.visible_eq] at ht
      exact (Conversion.content_of_bind hcontent).trimStart_append (h.first t ht) ts')
    (fun us hus ts' vs => by
      rw [Conversion.contents_eq] at hus
      obtain ⟨t, ht, hcontent⟩ := Conversion.exists_getLast?_filter hus
      rw [← Conversion.visible_eq] at ht
      exact (Conversion.content_of_bind hcontent).trimEnd_append (h.last t ht) ts' vs)
  rw [← Conversion.chunks_eq] at hn
  refine ⟨_, render_of_adapt (adapt_of_convert hconvert), ?_⟩
  rw [Markdown.render, hn]
  exact Text.trimNewlinesEnd_newlines (Conversion.getLast?_written ts) n

end Converter

end HtmlMarkdown
