import HtmlMarkdown.Proofs.BasicTags
import HtmlMarkdown.Proofs.Emitted

/-!
# Words stay apart

In a forest of paragraphs, lists and emphasis each text is written as it is, in its order. White
space stands between two texts where a token between them parts them: space on one line anywhere,
other space or a line break out of lists, a paragraph, an item, or the start or end of a list
context. Among lists newlines and line breaks go, so two texts with nothing else between them are
joined there. A list waits for the one behind it to continue it; where that one has nothing in it,
the list waits on, and until it is continued the places are neither among lists nor out of them.
-/

namespace HtmlMarkdown

structure Html.Token.IsWord (t : Html.Token) : Prop where
  kind : t.kind = .characters
  ink : ∃ c ∈ t.content.toList, Text.isWhite c = false

namespace Conversion

open Html (Forest)
open Markdown (Token TextRun shown)

/-- A list with something in it has closed and another one opens, with one run of space at most
between the two. -/
inductive ListsMeet : List Html.Token → List Html.Token → Prop
  | intro {before behind ahead after : List Html.Token} {last closes opens first : Html.Token}
      (hcloses : closes.kind = .endTag ∧ closes.tagName ∈ ["ul", "ol"])
      (hlast : last.isNamed .startTag closes.tagName = false) (hopens : opensList opens = true)
      (hfirst : first.isNamed .endTag opens.tagName = false)
      (hspace : ∀ u ∈ behind ++ ahead, u.kind = .spaceCharacters)
      (hlength : (behind ++ ahead).length ≤ 1) :
      ListsMeet (before ++ [last, closes] ++ behind) (ahead ++ [opens, first] ++ after)

def State.AmongLists (s : State) (before after : List Html.Token) : Prop :=
  s.context.lists ≠ [] ∨ s.context.listContinuation = true ∧ ListsMeet before after

def State.OutOfLists (s : State) (_ _ : List Html.Token) : Prop := s.context.inList = false

/-- Where a list waits and the lists do not meet, the place is neither among lists nor out of
them. -/
def State.NotAmongLists (s : State) (before after : List Html.Token) : Prop :=
  ¬s.AmongLists before after

/-- The token parts the texts around it. Space on one line does so everywhere, a line break and
space with a newline in it where the place is outside of lists. -/
inductive State.Parts (o : Options) (outside : State → List Html.Token → List Html.Token → Prop)
    (before : List Html.Token) (s : State) (u : Html.Token) (rest : List Html.Token) : Prop
  | line (hk : u.kind = .spaceCharacters) (h : '\n' ∉ u.content.toList)
  | space (hk : u.kind = .spaceCharacters) (h : outside s before (u :: rest))
  | lineBreak (hbr : u.isNamed .emptyTag "br" = true) (h : outside s before (u :: rest))
  | paragraph (hn : u.isNamed .startTag "p" = true ∨ u.isNamed .endTag "p" = true)
      (h : (s.window u rest).isEmptyPair "p" = false)
  | item (hn : u.isNamed .startTag "li" = true) (h : (s.window u rest).isEmptyPair "li" = false)
  /-- A list context begins or ends. -/
  | lists {s' : State} (h : s.step o u rest = .ok s')
      (hlists : ¬(outside s before (u :: rest) ↔ outside s' (before ++ [u]) rest))

inductive Parted (o : Options) (outside : State → List Html.Token → List Html.Token → Prop)
    (rest : List Html.Token) : List Html.Token → State → List Html.Token → Prop
  | here {before : List Html.Token} {s : State} {u : Html.Token} {ts : List Html.Token}
      (h : s.Parts o outside before u (ts ++ rest)) : Parted o outside rest before s (u :: ts)
  | behind {before : List Html.Token} {s : State} {u : Html.Token} {ts : List Html.Token}
      {r : Reaction} (hr : react o (s.window u (ts ++ rest)) s.emitted.head? s.context = .ok r)
      (h : Parted o outside rest (before ++ [u]) (s.accept u r) ts) :
      Parted o outside rest before s (u :: ts)

/-- In a basic context the conversion has put such tokens on the base, given with the latest first
as the base is. -/
structure State.Over (s : State) (P : Token → Prop) (base zs : List Token) : Prop where
  context : s.context.Basic
  emitted : s.emitted = zs ++ base
  forall_mem : ∀ z ∈ zs, P z

variable {o : Options} {r : Reaction} {s s' : State} {t u : Html.Token} {z : Token}
  {before ts rest : List Html.Token} {base xs zs : List Token} {P : Token → Prop}
  {outside : State → List Html.Token → List Html.Token → Prop}

theorem State.Over.start (h : s.context.Basic) : s.Over P s.emitted [] :=
  ⟨h, rfl, List.forall_mem_nil _⟩

theorem Reaction.Basic.stamped (h : r.Basic o t s.context) :
    r.produced.map (·.within (some r.context.blockquote)) = r.produced := by
  rw [h.context.quotes]
  refine (List.map_congr_left fun m hm => ?_).trans (List.map_id' _)
  rcases h.produced m hm with hmark | ⟨-, l, -, rfl | rfl⟩
  · exact within_zero hmark.unquoted.1
  · exact within_zero rfl
  · exact within_zero rfl

theorem isNewline_of_line (hbase : ∃ x ∈ base.head?, x.IsLine) :
    ∀ x ∈ base.head?, x.isNewline = false := by
  obtain ⟨x, hx, l, -, hline⟩ := hbase
  intro y hy
  obtain rfl := Option.mem_unique hx hy
  rcases hline with rfl | rfl <;> rfl

/-- A step writes on the base. Only a newline is replaced, by a blank line that parts as it did. -/
theorem State.Over.accept (h : s.Over P base zs) (hbase : ∀ x ∈ base.head?, x.isNewline = false)
    (hr : react o (s.window t rest) s.emitted.head? s.context = .ok r)
    (hb : r.Basic o t s.context) (hP : ∀ m ∈ r.produced, P m) :
    ∃ zs', (s.accept t r).Over P base zs' ∧
      ((∃ z ∈ zs', z.Parts) ↔ (∃ z ∈ zs, z.Parts) ∨ ∃ m ∈ r.produced, m.Parts) := by
  have written {zs' : List Token} (hkept : ∀ z ∈ zs', P z) :
      ∀ z ∈ r.produced.reverse ++ zs', P z :=
    List.forall_mem_append.mpr ⟨fun z hz => hP z (List.mem_reverse.mp hz), hkept⟩
  cases hreplaces : r.replacesLast with
  | false =>
    refine ⟨r.produced.reverse ++ zs, ⟨hb.context, ?_, written h.forall_mem⟩, ?_⟩
    · simp only [State.accept, hb.stamped, hreplaces, h.emitted, List.append_assoc,
        Bool.false_eq_true, if_false]
    · simp only [List.mem_append, List.mem_reverse, or_and_right, exists_or, or_comm]
  | true =>
    obtain ⟨x, hx, hnewline⟩ := (handles_of_react hr).isNewline_of_replacesLast hreplaces
    rw [h.emitted] at hx
    cases zs with
    | nil =>
      rw [hbase x hx] at hnewline
      cases hnewline
    | cons z zs =>
      have hblank : ∃ m ∈ r.produced, m.Parts :=
        ⟨_, hb.replaced hreplaces, .inr (.inr (blank_gap .blank))⟩
      refine ⟨r.produced.reverse ++ zs, ⟨hb.context, ?_,
        written (List.forall_mem_cons.mp h.forall_mem).2⟩, fun _ => .inr hblank, fun _ => ?_⟩
      · simp only [State.accept, hb.stamped, hreplaces, h.emitted, List.append_assoc, if_true,
          List.cons_append, List.tail_cons]
      · obtain ⟨m, hm, hcalls⟩ := hblank
        exact ⟨m, List.mem_append_left _ (List.mem_reverse.mpr hm), hcalls⟩

theorem Passes.over (ho : o.Valid) (hp : Passes o rest s ts s') (h : s.Over P base zs)
    (hbase : ∀ x ∈ base.head?, x.isNewline = false) (hts : ∀ t ∈ ts, t.IsBasic)
    (hP : ∀ t ∈ ts, ∀ m, Mark o m ∨ t.kind = .characters ∧ m.IsLine → P m) :
    ∃ zs', s'.Over P base zs' := by
  induction hp generalizing zs with
  | nil => exact ⟨zs, h⟩
  | @cons s s' t ts r hr _ ih =>
    obtain ⟨ht, hts⟩ := List.forall_mem_cons.mp hts
    obtain ⟨hPt, hP⟩ := List.forall_mem_cons.mp hP
    have hb := basic_of_react ho ht h.context hr
    obtain ⟨zs', h', -⟩ := h.accept hbase hr hb fun m hm => hPt m (hb.produced m hm)
    exact ih h' hts hP

theorem ofText_eq_space_iff (text : String) : Gap.ofText text = .space ↔ '\n' ∉ text.toList := by
  rw [← List.count_eq_zero]
  unfold Gap.ofText
  split <;> simp_all

/-- Behind what calls for no white space, space is written, unless it has a newline and stands in a
list. -/
theorem settleSpace_of_flows (hflows : z.Flows) (hz : ¬z.Parts) (raw : Html.Token) (inList : Bool) :
    settleSpace raw (some z) false inList =
      if inList = true ∧ '\n' ∈ raw.content.toList then .drop
      else .push (Gap.ofText raw.content).token := by
  have hgap : Gap.ofText raw.content ≠ .space ↔ '\n' ∈ raw.content.toList := by
    rw [Ne, ofText_eq_space_iff, not_not]
  unfold settleSpace Gap.behind
  dsimp only [Option.bind_some]
  rw [if_neg Bool.false_ne_true, if_neg (Option.some_ne_none z)]
  simp only [hgap]
  cases htag : z.tag? with
  | none => simp
  | some tag =>
    obtain ⟨hstart, hend, hblank⟩ := hflows.inline hz tag htag
    have hrule := hflows.tag tag htag
    cases tag <;> simp_all [Markdown.Tag.isBlockStart, Markdown.Tag.isBlockEnd,
      Markdown.Tag.isWhitespace, Markdown.Tag.isSingleNewline, Markdown.Tag.flows]

theorem spaceCharacters_of_flows (hc : s.context.Basic) (hflows : z.Flows) (hz : ¬z.Parts) :
    spaceCharacters u (some z) s.context =
      if s.context.inList = true ∧ '\n' ∈ u.content.toList then .quiet s.context
      else .emit s.context [(Gap.ofText u.content).token] := by
  have hsensitive : decide (0 < s.context.sensitive) = false := by simp [hc.sensitive]
  rw [spaceCharacters, hsensitive, settleSpace_of_flows hflows hz]
  split_ifs <;> rfl

theorem lineBreak_of_flows (hflows : z.Flows) (hz : ¬z.Parts) :
    lineBreak (some z) s.context =
      if s.context.inList = true then .quiet s.context else .emit s.context [.newlineHard] := by
  have hnewline : z.tagIs Markdown.Tag.isNewline = false := by
    by_contra hn
    have hwhite := Token.isWhitespace_of_isNewline (t := z) (eq_true_of_ne_false hn)
    exact hz (.inr (.inr (hflows.blank_of_isWhitespace hwhite)))
  simp [lineBreak, hnewline]

theorem pairedTag_of_named {kind : Html.Kind} {name : String} (hc : s.context.Basic)
    (hk : kind = .startTag ∨ kind = .endTag) (hn : u.isNamed kind name = true)
    (hempty : (s.window u rest).isEmptyPair name = false)
    (hr : react o (s.window u rest) s.emitted.head? s.context = .ok r) :
    u.kind = kind ∧ u.tagName = name ∧ pairedTag o (s.window u rest) s.context = .ok r := by
  obtain ⟨hkind, hname⟩ : u.kind = kind ∧ u.name = some name := by
    simpa [Html.Token.isNamed] using hn
  refine ⟨hkind, by simp [Html.Token.tagName, hname], ?_⟩
  have hwindow : (s.window u rest).token = u := rfl
  rw [react_of_ordinary hc.region, ordinary, hwindow, hkind] at hr
  rcases hk with rfl | rfl <;> exact (tag_of_content hname hempty).symm.trans hr

/-- Behind what calls for no white space, a token that parts is written as a mark that does. -/
theorem State.Parts.produced (hu : s.Parts o OutOfLists before u rest) (hc : s.context.Basic)
    (hlast : s.emitted.head? = some z) (hflows : z.Flows) (hz : ¬z.Parts)
    (hr : react o (s.window u rest) s.emitted.head? s.context = .ok r)
    (hb : r.Basic o u s.context) : ∃ m ∈ r.produced, m.Parts := by
  have hwindow : (s.window u rest).token = u := rfl
  have gap (hk : u.kind = .spaceCharacters)
      (hgap : ¬(s.context.inList = true ∧ '\n' ∈ u.content.toList)) :
      ∃ m ∈ r.produced, m.Parts := by
    rw [react_of_ordinary hc.region, ordinary, hwindow, hk, hlast] at hr
    cases hr
    rw [spaceCharacters_of_flows hc hflows hz, if_neg hgap]
    exact ⟨_, List.mem_singleton_self _, .inr (.inr (blank_gap _))⟩
  have roleOf_p : Html.roleOf "p" = .paragraph := by decide
  have roleOf_li : Html.roleOf "li" = .item := by decide
  cases hu with
  | line hk hline => exact gap hk fun h => hline h.2
  | space hk hout =>
    have hlist : s.context.inList = false := hout
    exact gap hk fun h => by simp [hlist] at h
  | lineBreak hbr hout =>
    have hlist : s.context.inList = false := hout
    obtain ⟨hk, hbreak⟩ := emptyTag_br o (some z) s.context (w := s.window u rest) hbr
    rw [react_of_ordinary hc.region, ordinary, hk, hlast, hbreak, lineBreak_of_flows hflows hz,
      if_neg (by simp [hlist])] at hr
    cases hr
    exact ⟨_, List.mem_singleton_self _, .inr (.inr blank_newlineHard)⟩
  | paragraph hn hempty =>
    obtain ⟨kind, hkind, hn⟩ : ∃ kind, (kind = .startTag ∨ kind = .endTag) ∧
        u.isNamed kind "p" = true := hn.elim (⟨_, .inl rfl, ·⟩) (⟨_, .inr rfl, ·⟩)
    obtain ⟨-, hname, hpaired⟩ := pairedTag_of_named hc hkind hn hempty hr
    rw [pairedTag, hwindow, hname, roleOf_p] at hpaired
    exact (basic_paragraph (o := o) (t := u) hc hpaired).2
  | item hn hempty =>
    obtain ⟨hk, hname, hpaired⟩ := pairedTag_of_named hc (.inl rfl) hn hempty hr
    rw [pairedTag, hwindow, hname, roleOf_li, hk] at hpaired
    exact (basic_item (t := u) hc hpaired).2.mpr rfl
  | lists hs hlists =>
    rw [State.step, hr] at hs
    cases hs
    refine hb.lists.resolve_left fun hsame => hlists ?_
    change s.context.inList = false ↔ r.context.inList = false
    rw [hsame]

theorem State.not_amongLists_of_inList (h : s.context.inList = false)
    (before after : List Html.Token) : s.NotAmongLists before after := by
  obtain ⟨hlists, hfree⟩ := Context.inList_eq_false_iff.mp h
  rintro (hopen | ⟨hflag, -⟩)
  · exact hopen hlists
  · rw [hfree] at hflag
    cases hflag

/-- Where a list context begins or ends, the place before or the place behind is among lists, and
the other one is not. -/
theorem State.not_iff_of_turns (h : s.context.Turns s'.context)
    (before after rest : List Html.Token) (u : Html.Token) :
    ¬(s.NotAmongLists before after ↔ s'.NotAmongLists (before ++ [u]) rest) := by
  rcases h with ⟨hout, hopen⟩ | ⟨hopen, hout⟩
  · exact fun hiff => hiff.mp (not_amongLists_of_inList hout _ _) (.inl hopen)
  · exact fun hiff => hiff.mpr (not_amongLists_of_inList hout _ _) (.inl hopen)

/-- Behind what calls for no white space, only a token that parts is written as a mark that does. -/
theorem State.Parts.of_produced (ho : o.Valid) (hu : u.IsBasic) (hk : u.kind ≠ .characters)
    (hc : s.context.Basic) (hlast : s.emitted.head? = some z) (hflows : z.Flows) (hz : ¬z.Parts)
    (hr : react o (s.window u rest) s.emitted.head? s.context = .ok r)
    (hparts : ∃ m ∈ r.produced, m.Parts) : s.Parts o NotAmongLists before u rest := by
  have hwindow : (s.window u rest).token = u := rfl
  have hstep : s.step o u rest = .ok (s.accept u r) := by rw [State.step, hr]; rfl
  rw [react_of_ordinary hc.region, ordinary, hwindow] at hr
  rcases hu with hchars | hspace | hbr | ⟨htag, hn⟩
  · exact absurd hchars hk
  · rw [hspace, hlast] at hr
    cases hr
    rw [spaceCharacters_of_flows hc hflows hz] at hparts
    split_ifs at hparts with hdropped
    · exact absurd hparts no_parts_nil
    · by_cases hline : '\n' ∈ u.content.toList
      · refine .space hspace (not_amongLists_of_inList ?_ _ _)
        exact eq_false_of_ne_true fun hlist => hdropped ⟨hlist, hline⟩
      · exact .line hspace hline
  · obtain ⟨hkind, hbreak⟩ := emptyTag_br o (some z) s.context (w := s.window u rest) hbr
    rw [hwindow] at hkind hbreak
    rw [hkind, hlast, hbreak, lineBreak_of_flows hflows hz] at hr
    cases hr
    split_ifs at hparts with hlist
    · exact absurd hparts no_parts_nil
    · exact .lineBreak hbr (not_amongLists_of_inList (eq_false_of_ne_true hlist) _ _)
  · have hr : tag o (s.window u rest) s.context = .ok r := by
      rcases htag with htag | htag
      · rwa [htag] at hr
      · rwa [htag] at hr
    obtain ⟨-, hof⟩ := basic_tag (t := u) ho hc hn hr
    obtain ⟨hcontent, hof⟩ := hof hparts
    have named {name : String} (hname : u.tagName = name) (hne : name ≠ "") :
        u.name = some name ∧ (s.window u rest).isEmptyPair name = false := by
      have hsome : u.name = some name := by
        cases hu : u.name with
        | none => exact absurd (by simpa [Html.Token.tagName, hu] using hname.symm) hne
        | some other => simpa [Html.Token.tagName, hu] using hname
      rw [hwindow, hsome, Option.filter_some] at hcontent
      exact ⟨hsome, by simpa using hcontent⟩
    rcases hof with hp | ⟨hli, hstart⟩ | hturns
    · obtain ⟨hname, hempty⟩ := named hp (by decide)
      refine .paragraph ?_ hempty
      simpa [Html.Token.isNamed, hname] using htag
    · obtain ⟨hname, hempty⟩ := named hli (by decide)
      refine .item ?_ hempty
      rw [hwindow] at hstart
      simp [Html.Token.isNamed, hname, hstart]
    · exact .lists hstep (not_iff_of_turns hturns _ _ _ _)

theorem parted_cons_iff
    (hr : react o (s.window u (ts ++ rest)) s.emitted.head? s.context = .ok r) :
    Parted o outside rest before s (u :: ts) ↔ s.Parts o outside before u (ts ++ rest) ∨
      Parted o outside rest (before ++ [u]) (s.accept u r) ts := by
  constructor
  · rintro (h | ⟨hr', h⟩)
    · exact .inl h
    · rw [hr] at hr'
      cases hr'
      exact .inr h
  · rintro (h | h)
    · exact .here h
    · exact .behind hr h

theorem State.Over.exists_last (h : s.Over (Mark o) base zs) (hbase : ∃ x ∈ base.head?, x.IsLine)
    (hzs : ¬∃ z ∈ zs, z.Parts) : ∃ z, s.emitted.head? = some z ∧ z.Flows ∧ ¬z.Parts := by
  rw [h.emitted]
  cases zs with
  | nil =>
    obtain ⟨x, hx, hline⟩ := hbase
    exact ⟨x, hx, hline.flows⟩
  | cons z zs =>
    exact ⟨z, rfl, (h.forall_mem z List.mem_cons_self).flows,
      fun hparts => hzs ⟨z, List.mem_cons_self, hparts⟩⟩

/-- Behind a text marks are written up to the next one. White space is called for if one of the
tokens there parts the texts, and then only. -/
theorem Passes.over_marks (ho : o.Valid) (hp : Passes o rest s ts s')
    (h : s.Over (Mark o) base xs) (hbase : ∃ x ∈ base.head?, x.IsLine)
    (hts : ∀ t ∈ ts, t.IsBasic ∧ t.kind ≠ .characters) (before : List Html.Token) :
    ∃ zs, s'.Over (Mark o) base zs ∧
      ((∃ x ∈ xs, x.Parts) ∨ Parted o State.OutOfLists rest before s ts → ∃ z ∈ zs, z.Parts) ∧
      ((∃ z ∈ zs, z.Parts) →
        (∃ x ∈ xs, x.Parts) ∨ Parted o State.NotAmongLists rest before s ts) := by
  induction hp generalizing xs before with
  | nil =>
    refine ⟨xs, h, ?_, .inl⟩
    rintro (hxs | hparted)
    · exact hxs
    · cases hparted
  | @cons s s' t ts r hr _ ih =>
    obtain ⟨⟨ht, hk⟩, hts⟩ := List.forall_mem_cons.mp hts
    have hb := basic_of_react ho ht h.context hr
    obtain ⟨ys, hys, hstep⟩ := h.accept (isNewline_of_line hbase) hr hb fun m hm =>
      (hb.produced m hm).resolve_right fun h => hk h.1
    obtain ⟨zs, hzs, hcalled, honly⟩ := ih hys hts (before ++ [t])
    refine ⟨zs, hzs, fun hparts => hcalled ?_, fun hparts => ?_⟩
    · rw [hstep]
      rcases hparts with hxs | hparted
      · exact .inl (.inl hxs)
      · rcases (parted_cons_iff hr).mp hparted with hhere | hbehind
        · by_cases hxs : ∃ x ∈ xs, x.Parts
          · exact .inl (.inl hxs)
          · obtain ⟨z, hlast, hflows, hz⟩ := h.exists_last hbase hxs
            exact .inl (.inr (hhere.produced h.context hlast hflows hz hr hb))
        · exact .inr hbehind
    · rcases honly hparts with hys | hbehind
      · by_cases hxs : ∃ x ∈ xs, x.Parts
        · exact .inl hxs
        · obtain ⟨z, hlast, hflows, hz⟩ := h.exists_last hbase hxs
          have hproduced := (hstep.mp hys).resolve_left hxs
          exact .inr (.here
            (State.Parts.of_produced ho ht hk h.context hlast hflows hz hr hproduced))
      · exact .inr ((parted_cons_iff hr).mpr (.inr hbehind))

theorem textRun_of_isWord (ht : t.IsWord) (p : Bool) :
    TextRun (textTokens (Text.flowChars p t.content.toList)) := by
  refine Markdown.textRun_textTokens fun hempty => ?_
  obtain ⟨c, hc, hink⟩ := ht.ink
  have hmem : c ∈ Text.ink t.content.toList := List.mem_filter.mpr ⟨hc, by simp [hink]⟩
  rw [← Text.ink_flowChars p, hempty] at hmem
  cases hmem

/-- A word writes its lines, behind what is there. -/
theorem exists_accept_word (ho : o.Valid) (hc : s.context.Basic) (ht : t.IsWord)
    (hr : react o (s.window t rest) s.emitted.head? s.context = .ok r) :
    (s.accept t r).context.Basic ∧ (∃ x ∈ (s.accept t r).emitted.head?, x.IsLine) ∧
      ∃ p, (s.accept t r).emitted =
        (textTokens (Text.flowChars p t.content.toList)).reverse ++ s.emitted := by
  have hwindow : (s.window t rest).token = t := rfl
  have hbasic := basic_of_react ho (Or.inl ht.kind) hc hr
  rw [react_of_ordinary hc.region, ordinary, hwindow, ht.kind] at hr
  cases hr
  change (characters (s.window t rest) s.context).Basic o t s.context at hbasic
  obtain ⟨p, hwritten⟩ : ∃ p, (s.accept t (characters (s.window t rest) s.context)).emitted =
      (textTokens (Text.flowChars p t.content.toList)).reverse ++ s.emitted := by
    refine ⟨decide (0 < s.context.paragraph), ?_⟩
    simp only [State.accept, hbasic.stamped]
    rw [characters_of_basic hc]
    rfl
  exact ⟨hbasic.context, hwritten ▸ (textRun_of_isWord ht p).exists_head _, p, hwritten⟩

/-- The tokens tell their text. -/
theorem Passes.tells_basic (ho : o.Valid) (hp : Passes o rest s ts s') (hts : ∀ t ∈ ts, t.IsBasic)
    (hc : s.context.Basic) : Tells s s' [] (Text.ink (charactersOf ts)) := by
  induction hp with
  | nil => exact .refl hc.consumed
  | @cons s s' t ts r hr _ ih =>
    obtain ⟨ht, hts⟩ := List.forall_mem_cons.mp hts
    have hb := basic_of_react ho ht hc hr
    have hbehind := ih hts hb.context
    by_cases hk : t.kind = .characters
    · have hfirst : charactersOf (t :: ts) = t.content.toList ++ charactersOf ts := by
        simp [charactersOf, hk]
      have hwindow : (s.window t (ts ++ rest)).token = t := rfl
      rw [react_of_ordinary hc.region, ordinary, hwindow, hk] at hr
      cases hr
      rw [hfirst, Text.ink_append]
      exact (tells_characters t hc.consumed).trans hbehind
    · rw [charactersOf_cons_of_ne hk]
      have hshown : shown r.produced = [] := List.filterMap_eq_nil_iff.mpr fun m hm =>
        ((hb.produced m hm).resolve_right fun h => hk h.1).shown?
      have hreplaced : r.replacesLast = true → ∀ x ∈ s.emitted.head?, x.shown? = none := by
        intro hreplaces x hx
        obtain ⟨x', hx', hn⟩ := (handles_of_react hr).isNewline_of_replacesLast hreplaces
        obtain rfl := Option.mem_unique hx' hx
        exact Token.shown?_of_isNewline hn
      have hfirst : Tells s (s.accept t r) [] [] :=
        ⟨hb.context.consumed, [], by rw [shown_accept t hreplaced, hshown], .nil⟩
      exact hfirst.trans hbehind

/-- Two texts and what stands around them, before they are laid out. -/
theorem exists_convert_words (ho : o.Valid) {before between after : List Html.Token}
    {t' : Html.Token} (hp : Passes o [] {} (before ++ t :: (between ++ t' :: after)) s)
    (hts : ∀ v ∈ before ++ t :: (between ++ t' :: after), v.IsBasic) (ht : t.IsWord)
    (ht' : t'.IsWord) (hbetween : ∀ v ∈ between, v.kind ≠ .characters) :
    ∃ s₁ as ms bs p p', Passes o (between ++ t' :: after) {} (before ++ [t]) s₁ ∧
      s.finished = as ++ textTokens (Text.flowChars p t.content.toList) ++ ms ++
        textTokens (Text.flowChars p' t'.content.toList) ++ bs ∧
      (∀ m ∈ as ++ bs, Mark o m ∨ m.IsLine) ∧ (∀ m ∈ ms, Mark o m) ∧
      Conveys (shown as) [] (Text.ink (charactersOf before)) ∧
      (Parted o State.OutOfLists (t' :: after) (before ++ [t]) s₁ between → ∃ m ∈ ms, m.Parts) ∧
      ((∃ m ∈ ms, m.Parts) →
        Parted o State.NotAmongLists (t' :: after) (before ++ [t]) s₁ between) := by
  have pieces {ts : List Html.Token} : ∀ v ∈ ts, ∀ m : Token,
      Mark o m ∨ v.kind = .characters ∧ m.IsLine → Mark o m ∨ m.IsLine :=
    fun v _ m hm => hm.imp_right And.right
  have hstart : ({} : State).context.Basic := ⟨rfl, rfl, rfl, rfl, rfl, fun _ => rfl⟩
  obtain ⟨hbefore, hbehind⟩ := List.forall_mem_append.mp hts
  obtain ⟨-, hbehind⟩ := List.forall_mem_cons.mp hbehind
  obtain ⟨hmiddle, hbehind⟩ := List.forall_mem_append.mp hbehind
  obtain ⟨-, hafter⟩ := List.forall_mem_cons.mp hbehind
  obtain ⟨s₁, h₁, hp⟩ := hp.of_append
  obtain ⟨zs, hzs⟩ := h₁.over ho (.start hstart)
    (fun x hx => (Option.not_mem_none x hx).elim) hbefore pieces
  have hzs' : ∀ m ∈ s₁.emitted, Mark o m ∨ m.IsLine := by
    rw [hzs.emitted, State.emitted, List.append_nil]
    exact hzs.forall_mem
  obtain ⟨-, items, hitems, hconveys⟩ := h₁.tells_basic ho hbefore hstart
  cases hp with
  | @cons _ _ _ _ r hr hp =>
    obtain ⟨hcontext, hline, p, hwritten⟩ := exists_accept_word ho hzs.context ht hr
    have hreached : Passes o (between ++ t' :: after) {} (before ++ [t]) (s₁.accept t r) := by
      rw [List.append_nil] at h₁ hr
      exact h₁.append (.cons hr (.nil _))
    obtain ⟨s₂, hpassed, hp⟩ := hp.of_append
    rw [List.append_nil] at hpassed
    obtain ⟨ws, hws, hcalled, honly⟩ := hpassed.over_marks ho (.start hcontext) hline
      (fun v hv => ⟨hmiddle v hv, hbetween v hv⟩) (before ++ [t])
    cases hp with
    | @cons _ _ _ _ r' hr' hp =>
      obtain ⟨hcontext', hline', p', hwritten'⟩ := exists_accept_word ho hws.context ht' hr'
      obtain ⟨ys, hys⟩ :=
        hp.over ho (.start hcontext') (isNewline_of_line hline') hafter pieces
      refine ⟨_, s₁.emitted.reverse, ws.reverse, ys.reverse, p, p', hreached, ?_, ?_, ?_, ?_,
        fun hparted => ?_, fun hparts => ?_⟩
      · rw [State.finished, if_pos hys.context.references, hys.emitted, hwritten', hws.emitted,
          hwritten]
        simp
      · simp only [List.mem_append, List.mem_reverse]
        exact fun m hm => hm.elim (hzs' m) (hys.forall_mem m)
      · exact fun m hm => hws.forall_mem m (List.mem_reverse.mp hm)
      · rw [hitems]
        exact hconveys
      · simpa using hcalled (.inr hparted)
      · exact (honly (by simpa using hparts)).resolve_left no_parts_nil

theorem flows_of_piece (h : Mark o z ∨ z.IsLine) : z.Flows :=
  h.elim Mark.flows fun h => h.flows.1

theorem untagged_of_piece (h : Mark o z ∨ z.IsLine) : z.Untagged :=
  h.elim Mark.untagged Token.IsLine.untagged

theorem indentAll_marks (h : ∀ z ∈ zs, Mark o z) : Markdown.indentAll zs = zs := by
  rw [Markdown.indentAll, List.map_congr_left, List.map_id']
  intro z hz
  obtain ⟨hdepth, hcode⟩ := (h z hz).unquoted
  exact Markdown.indentToken_of_unquoted hdepth hcode

/-- Laid out, marks have white space in them exactly if one of them calls for it. -/
theorem white_iff_parts {laid : List Token} (hzs : ∀ z ∈ zs, Mark o z)
    (hblank : (∃ z ∈ zs, z.Parts) → ∃ z ∈ laid, z.Blank)
    (hsame : (∀ z ∈ zs, ¬z.Parts) → laid = Markdown.indentAll zs) :
    (∃ c ∈ Markdown.renderChars none laid, Text.isWhite c = true) ↔ ∃ z ∈ zs, z.Parts := by
  constructor
  · rintro ⟨c, hc, hwhite⟩
    by_contra hnone
    have hnot : ∀ z ∈ zs, ¬z.Parts := fun z hz hparts => hnone ⟨z, hz, hparts⟩
    rw [hsame hnot, indentAll_marks hzs] at hc
    obtain ⟨z, hz, hz'⟩ :=
      Markdown.exists_blank_of_mem hwhite (fun z hz => (hzs z hz).exists_node) hc
    exact hnot z hz (.inr (.inr hz'))
  · intro hparts
    obtain ⟨z, hz, hwhite⟩ := hblank hparts
    exact hwhite.exists_mem hz none

theorem isLine_of_mem_shown (h : ∀ z ∈ zs, Mark o z ∨ z.IsLine) : ∀ x ∈ shown zs, x.IsLine := by
  intro x hx
  obtain ⟨z, hz, hshown⟩ := List.mem_filterMap.mp hx
  rcases h z hz with hmark | ⟨l, hl, rfl | rfl⟩
  · rw [hmark.shown?] at hshown
    cases hshown
  · cases hshown
    exact ⟨_, hl, rfl⟩
  · cases hshown
    exact ⟨_, hl, rfl⟩

end Conversion

namespace Converter

open Conversion (Conveys Parted Passes State charactersOf textTokens)
open Markdown (renderChars shown)

/-- A converter writes two texts, one behind the other, as they are. Nothing that was text comes
between them. White space does if a token between them parts them, and only then: what is out of
lists parts, and what parts is not among them. -/
theorem words_apart_iff_parted (o : Options) {f : Html.Forest} (hf : ∀ v ∈ f.tokens, v.IsBasic)
    {before between after : List Html.Token} {t t' : Html.Token}
    (htokens : f.tokens = before ++ t :: (between ++ t' :: after)) (ht : t.IsWord) (ht' : t'.IsWord)
    (hbetween : ∀ v ∈ between, v.kind ≠ .characters) :
    ∃ s pre mid post p p',
      Passes o.sanitized (between ++ t' :: after) {} (before ++ [t]) s ∧
      (ofOptions o).adapt f.tokens = .ok (pre ++ textTokens (Text.flowChars p t.content.toList) ++
        mid ++ textTokens (Text.flowChars p' t'.content.toList) ++ post) ∧
      Conveys (shown pre) [] (Text.ink (charactersOf before)) ∧ shown mid = [] ∧
      (ofOptions o).render f.tokens = .ok (String.ofList (renderChars none pre ++
        (Text.flowChars p t.content.toList).flatMap Text.escapeChar ++ renderChars none mid ++
        (Text.flowChars p' t'.content.toList).flatMap Text.escapeChar ++ renderChars none post)) ∧
      (Parted o.sanitized State.OutOfLists (t' :: after) (before ++ [t]) s between →
        ∃ c ∈ renderChars none mid, Text.isWhite c = true) ∧
      ((∃ c ∈ renderChars none mid, Text.isWhite c = true) →
        Parted o.sanitized State.NotAmongLists (t' :: after) (before ++ [t]) s between) := by
  obtain ⟨s, hs, -⟩ := Conversion.exists_passes_tokens o.sanitized f [] {} (Nat.le_refl 0)
  rw [htokens] at hs hf
  obtain ⟨s₁, as, ms, bs, p, p', hreached, hfinished, hpieces, hmarks, hconveys, hcalled, honly⟩ :=
    Conversion.exists_convert_words o.valid_sanitized hs hf ht ht' hbetween
  obtain ⟨has, hbs⟩ := List.forall_mem_append.mp hpieces
  have hms : ∀ m ∈ ms, Conversion.Mark o.sanitized m ∨ m.IsLine := fun m hm => .inl (hmarks m hm)
  have hts := Conversion.textRun_of_isWord ht p
  have hus := Conversion.textRun_of_isWord ht' p'
  obtain ⟨pre, mid, post, hlayout, hblank, hsame, hpre, hmid⟩ := Markdown.exists_layout
    (fun m hm => Conversion.flows_of_piece (has m hm))
    (fun m hm => Conversion.flows_of_piece (hms m hm))
    (fun m hm => Conversion.flows_of_piece (hbs m hm)) hts hus
    (List.forall_mem_append.mpr ⟨Conversion.isLine_of_mem_shown has,
      Conversion.isLine_of_mem_shown hms⟩)
  have hadapt : (ofOptions o).adapt f.tokens = .ok (Markdown.layout s.finished) :=
    adapt_of_convert (htokens ▸ hs.convert_eq)
  have hstream : ∀ m ∈ s.finished, m.Untagged := by
    rw [hfinished]
    simp only [List.forall_mem_append]
    exact ⟨⟨⟨⟨fun m hm => Conversion.untagged_of_piece (has m hm), hts.untagged⟩,
      fun m hm => Conversion.untagged_of_piece (hms m hm)⟩, hus.untagged⟩,
      fun m hm => Conversion.untagged_of_piece (hbs m hm)⟩
  have huntagged := Markdown.lasting_untagged.layout hstream
  rw [hfinished, hlayout] at hadapt huntagged
  have hwhite := Conversion.white_iff_parts hmarks hblank hsame
  refine ⟨s₁, pre, mid, post, p, p', hreached, hadapt, hpre ▸ hconveys, ?_, ?_,
    fun hparted => hwhite.mpr (hcalled hparted), fun hany => honly (hwhite.mp hany)⟩
  · rw [hmid]
    exact List.filterMap_eq_nil_iff.mpr fun m hm => (hmarks m hm).shown?
  · rw [render_of_adapt hadapt, Markdown.render, Markdown.renderChars_texts huntagged]

/-- Two items of a list with a newline between them. -/
theorem words_apart_items :
    let f : Html.Forest := .element "ul" ∅ (.element "li" ∅ (.text "a" .nil) <| .text "\n" <|
      .element "li" ∅ (.text "b" .nil) .nil) .nil
    let before : List Html.Token := [.startTag "ul" ∅, .startTag "li" ∅]
    let t : Html.Token := .characters "a"
    let between : List Html.Token := [.endTag "li", .spaceCharacters "\n", .startTag "li" ∅]
    let t' : Html.Token := .characters "b"
    let after : List Html.Token := [.endTag "li", .endTag "ul"]
    (∀ v ∈ f.tokens, v.IsBasic) ∧ f.tokens = before ++ t :: (between ++ t' :: after) ∧
      t.IsWord ∧ t'.IsWord ∧ (∀ v ∈ between, v.kind ≠ .characters) ∧
      ∃ s pre mid post p p',
        Passes ({} : Options).sanitized (between ++ t' :: after) {} (before ++ [t]) s ∧
        (ofOptions {}).adapt f.tokens = .ok (pre ++
          textTokens (Text.flowChars p t.content.toList) ++ mid ++
          textTokens (Text.flowChars p' t'.content.toList) ++ post) ∧
        Conveys (shown pre) [] (Text.ink (charactersOf before)) ∧ shown mid = [] ∧
        (ofOptions {}).render f.tokens = .ok (String.ofList (renderChars none pre ++
          (Text.flowChars p t.content.toList).flatMap Text.escapeChar ++ renderChars none mid ++
          (Text.flowChars p' t'.content.toList).flatMap Text.escapeChar ++ renderChars none post)) ∧
        (Parted ({} : Options).sanitized State.OutOfLists (t' :: after) (before ++ [t]) s between →
          ∃ c ∈ renderChars none mid, Text.isWhite c = true) ∧
        ((∃ c ∈ renderChars none mid, Text.isWhite c = true) →
          Parted ({} : Options).sanitized State.NotAmongLists (t' :: after) (before ++ [t]) s
            between) := by
  intro f before t between t' after
  have hf : ∀ v ∈ f.tokens, v.IsBasic := by decide +kernel
  have htokens : f.tokens = before ++ t :: (between ++ t' :: after) := by decide +kernel
  have ht : t.IsWord := ⟨rfl, 'a', by decide, by decide⟩
  have ht' : t'.IsWord := ⟨rfl, 'b', by decide, by decide⟩
  have hbetween : ∀ v ∈ between, v.kind ≠ .characters := by decide
  exact ⟨hf, htokens, ht, ht', hbetween, words_apart_iff_parted {} hf htokens ht ht' hbetween⟩

/-- A line break in an item is nothing, and the texts around it are joined. -/
theorem words_joined_by_br :
    let f : Html.Forest := .element "ul" ∅ (.element "li" ∅ (.text "a" <| .element "br" ∅ .nil <|
      .text "b" .nil) .nil) .nil
    (∀ v ∈ f.tokens, v.IsBasic) ∧
      f.tokens = [.startTag "ul" ∅, .startTag "li" ∅] ++ .characters "a" ::
        ([.emptyTag "br" ∅] ++ .characters "b" :: [.endTag "li", .endTag "ul"]) ∧
      (ofOptions {}).render f.tokens = .ok "* ab\n\n" := by
  decide +kernel

end Converter

end HtmlMarkdown
