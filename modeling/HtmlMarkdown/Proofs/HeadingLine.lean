import HtmlMarkdown.Proofs.Phrasing
import HtmlMarkdown.Proofs.TextKept

/-!
# Headings on one line

The content of a heading stands on one line of the text, up to the end of its last text, unless a
token of the content brings a newline: text that is not in a paragraph, white space that is not in
a list, or an anchor with newlines in what is written of it.
-/

namespace HtmlMarkdown

open Markdown (Token Tag)

namespace Conversion

variable {o : Options} {r : Reaction} {s s' : State} {t v : Html.Token}
  {rest ts : List Html.Token} {mark z : Token} {base zs zs' : List Token}
  {P Q : State → Html.Token → List Html.Token → Prop}

/-- Outside of sensitive elements the conversion has written such pieces on the base, given with the
latest first as the base is. If a link has taken the next token, nothing stands behind the link. -/
structure State.OnLine (o : Options) (s : State) (base zs : List Token) : Prop where
  region : s.context.region o = .ordinary
  emitted : s.emitted = zs ++ base
  pieces : ∀ z ∈ zs, z.IsPiece
  taken : ∀ i ∈ s.context.consumedText, i < s.index ∨ i = s.index ∧ ∃ z ∈ zs.head?, z.Closes

inductive State.Meets (P : State → Html.Token → List Html.Token → Prop) (o : Options)
    (rest : List Html.Token) : State → List Html.Token → Prop
  | here {s : State} {v : Html.Token} {ts : List Html.Token} (h : P s v (ts ++ rest)) :
      Meets P o rest s (v :: ts)
  | behind {s : State} {v : Html.Token} {ts : List Html.Token} {r : Reaction}
      (hr : react o (s.window v (ts ++ rest)) s.emitted.head? s.context = .ok r)
      (h : Meets P o rest (s.accept v r) ts) : Meets P o rest s (v :: ts)

theorem State.meets_cons_iff
    (hr : react o (s.window v (ts ++ rest)) s.emitted.head? s.context = .ok r) :
    s.Meets P o rest (v :: ts) ↔ P s v (ts ++ rest) ∨ (s.accept v r).Meets P o rest ts := by
  constructor
  · intro h
    cases h with
    | here h => exact .inl h
    | behind hr' h =>
      rw [hr] at hr'
      cases hr'
      exact .inr h
  · rintro (h | h)
    · exact .here h
    · exact .behind hr h

theorem State.Meets.imp (h : s.Meets P o rest ts) (hPQ : ∀ s v ts, P s v ts → Q s v ts) :
    s.Meets Q o rest ts := by
  induction h with
  | here h => exact .here (hPQ _ _ _ h)
  | behind hr _ ih => exact .behind hr ih

/-- Behind a piece of a line or the mark of a heading, white space on several lines is dropped in a
list, and other white space is a gap. -/
theorem settleSpace_onLine (hz : z.tag? = some .headingStart ∨ z.IsPiece) (raw : Html.Token)
    (inList : Bool) : settleSpace raw (some z) false inList =
      if inList = true ∧ '\n' ∈ raw.content.toList then .drop
      else (Gap.ofText raw.content).behind z.tag? := by
  have hgap : Gap.ofText raw.content ≠ .space ↔ '\n' ∈ raw.content.toList := by
    rw [Ne, ofText_eq_space_iff, not_not]
  have hother : ∀ tag ∈ z.tag?, tag ≠ .listItemStart ∧ tag ≠ .horizontalRule ∧
      tag.isBlockStart = false ∧ tag.isBlockEnd = false := by
    intro tag htag
    rcases hz with hmark | hpiece
    · rw [Option.mem_def, hmark] at htag
      cases htag
      decide
    · have hlist := hpiece.tag tag htag
      cases tag <;> first | decide | cases hlist
  unfold settleSpace
  dsimp only [Option.bind_some]
  rw [if_neg Bool.false_ne_true, if_neg (Option.some_ne_none z)]
  simp only [hgap]
  cases htag : z.tag? with
  | none => simp
  | some tag =>
    obtain ⟨hitem, hrule, hstart, hend⟩ := hother tag htag
    simp [hitem, hrule, hstart, hend]

namespace State.OnLine

theorem last (h : s.OnLine o (mark :: base) zs) (hmark : mark.tag? = some .headingStart) :
    ∃ z, s.emitted.head? = some z ∧ (z.tag? = some .headingStart ∨ z.IsPiece) := by
  rw [h.emitted]
  cases zs with
  | nil => exact ⟨mark, rfl, .inl hmark⟩
  | cons z zs => exact ⟨z, rfl, .inr (h.pieces z List.mem_cons_self)⟩

/-- What is written behind the pieces stands on the line if it is made of pieces. -/
theorem write (h : s.OnLine o base zs) (hkeeps : r.replacesLast = false)
    (hregion : r.context.region o = s.context.region o) (hpieces : ∀ u ∈ r.produced, u.IsPiece)
    (htaken : ∀ i ∈ r.context.consumedText, s.context.consumedText = some i ∨
      i = s.index + 1 ∧ ∃ u ∈ r.produced.getLast?, u.Closes) (v : Html.Token) :
    (s.accept v r).OnLine o base (r.written.reverse ++ zs) := by
  refine ⟨hregion.trans h.region, ?_, ?_, ?_⟩
  · simp [State.accept, hkeeps, h.emitted, Reaction.written]
  · refine List.forall_mem_append.mpr ⟨?_, h.pieces⟩
    intro z hz
    obtain ⟨u, hu, rfl⟩ := List.mem_map.mp (List.mem_reverse.mp hz)
    exact (u.isPiece_within _).mpr (hpieces u hu)
  · intro i hi
    change i < s.index + 1 ∨ i = s.index + 1 ∧ _
    rcases htaken i hi with hknown | ⟨hnext, u, hu, hcloses⟩
    · left
      rcases h.taken i hknown with hless | ⟨heq, -⟩
      · omega
      · omega
    · right
      refine ⟨hnext, u.within (some r.context.blockquote), ?_, hcloses.within _⟩
      rw [List.head?_append, List.head?_reverse, Reaction.written, List.getLast?_map,
        Option.mem_def.mp hu]
      rfl

theorem exists_breaks_write (r : Reaction) (zs : List Token) :
    (∃ z ∈ r.written.reverse ++ zs, z.Breaks) ↔
      (∃ z ∈ zs, z.Breaks) ∨ ∃ u ∈ r.produced, u.Breaks := by
  simp [Reaction.written, or_and_right, exists_or, or_comm, Token.breaks_within]

/-- A newline that was written last stands on the line. -/
theorem exists_newline (h : s.OnLine o (mark :: base) zs) (hmark : mark.tag? = some .headingStart)
    (hlast : s.emitted.head? = some z) (hn : z.isNewline = true) :
    ∃ earlier, zs = z :: earlier ∧ z.Breaks := by
  rw [h.emitted] at hlast
  cases zs with
  | nil =>
    obtain rfl := Option.some.inj hlast
    rw [Token.isNewline, Token.tagIs, hmark] at hn
    cases hn
  | cons first earlier =>
    obtain rfl := Option.some.inj hlast
    exact ⟨earlier, rfl, (h.pieces first List.mem_cons_self).breaks_of_isNewline hn⟩

theorem quiet (h : s.OnLine o base zs) (v : Html.Token) :
    (s.accept v (.quiet s.context)).OnLine o base zs :=
  h.write (r := .quiet s.context) rfl rfl (List.forall_mem_nil _) (fun _ hi => .inl hi) v

/-- An empty line may stand in the place of what is written last. -/
theorem replace (h : s.OnLine o base (z :: zs)) (v : Html.Token) :
    (s.accept v ⟨s.context, [.newlineBlank], true, []⟩).OnLine o base
      (Token.newlineBlank.within (some s.context.blockquote) :: zs) := by
  obtain ⟨-, hpieces⟩ := List.forall_mem_cons.mp h.pieces
  have hblank := (Token.isPiece_within .newlineBlank (some s.context.blockquote)).mpr
    (Token.isPiece_gap .blank).1
  refine ⟨h.region, ?_, List.forall_mem_cons.mpr ⟨hblank, hpieces⟩, ?_⟩
  · simp [State.accept, h.emitted]
  · intro i hi
    change i < s.index + 1 ∨ _
    rcases h.taken i hi with hless | ⟨heq, -⟩
    · omega
    · omega

/-- White space on several lines puts a newline on the line, unless it stands in a list. -/
theorem accept_space (h : s.OnLine o (mark :: base) zs) (hmark : mark.tag? = some .headingStart)
    (hk : v.kind = .spaceCharacters)
    (hr : react o (s.window v rest) s.emitted.head? s.context = .ok r) :
    ∃ zs', (s.accept v r).OnLine o (mark :: base) zs' ∧ ((∃ z ∈ zs', z.Breaks) ↔
      (∃ z ∈ zs, z.Breaks) ∨ s.context.inList = false ∧ '\n' ∈ v.content.toList) := by
  have hsensitive : decide (0 < s.context.sensitive) = false := by
    simp [(Context.region_eq_ordinary_iff.mp h.region).2]
  obtain ⟨z, hlast, hz⟩ := h.last hmark
  have htoken : (s.window v rest).token = v := rfl
  rw [react_of_ordinary h.region, ordinary, htoken, hk, hlast] at hr
  simp only [spaceCharacters, hsensitive, settleSpace_onLine hz] at hr
  by_cases hdrop : s.context.inList = true ∧ '\n' ∈ v.content.toList
  · rw [if_pos hdrop] at hr
    cases hr
    exact ⟨zs, h.quiet v, by simp [hdrop.1]⟩
  rw [if_neg hdrop] at hr
  have hgap : Gap.ofText v.content ≠ .space ↔ '\n' ∈ v.content.toList := by
    rw [Ne, ofText_eq_space_iff, not_not]
  unfold Gap.behind at hr
  split_ifs at hr with hblank hsingle
  · cases hr
    have hn : z.isNewline = true := by simp [Token.isNewline, Token.tagIs, hblank, Tag.isNewline]
    obtain ⟨earlier, rfl, hbreaks⟩ := h.exists_newline hmark hlast hn
    exact ⟨_, h.quiet v, by simp [hbreaks]⟩
  · cases hr
    have hn : z.isNewline = true := (Markdown.Token.isNewline_of_isSingleNewline hsingle.1).1
    obtain ⟨earlier, rfl, hbreaks⟩ := h.exists_newline hmark hlast hn
    have hblank : (Token.newlineBlank.within (some s.context.blockquote)).Breaks :=
      (Token.breaks_within _ _).mpr ((Token.isPiece_gap .blank).2.mpr (by decide))
    exact ⟨_, h.replace v, iff_of_true ⟨_, List.mem_cons_self, hblank⟩
      (.inl ⟨_, List.mem_cons_self, hbreaks⟩)⟩
  · cases hr
    obtain ⟨hpiece, hbreaks⟩ := Token.isPiece_gap (Gap.ofText v.content)
    refine ⟨_, h.write (r := .emit s.context [(Gap.ofText v.content).token]) rfl rfl
      (List.forall_mem_singleton.mpr hpiece) (fun _ hi => .inl hi) v, ?_⟩
    have hone : (∃ u ∈ [(Gap.ofText v.content).token], u.Breaks) ↔ '\n' ∈ v.content.toList := by
      simp only [List.mem_singleton, exists_eq_left]
      exact hbreaks.trans hgap
    refine (exists_breaks_write _ zs).trans (or_congr_right (hone.trans ⟨?_, And.right⟩))
    intro hline
    exact ⟨eq_false_of_ne_true fun hlist => hdrop ⟨hlist, hline⟩, hline⟩

/-- A step over a token of the line keeps to the line, and puts a newline there exactly if the token
brings one or leads the line with one. -/
theorem accept (ho : o.Valid) (h : s.OnLine o (mark :: base) zs)
    (hmark : mark.tag? = some .headingStart) (hv : o.isPhrase v = true)
    (hr : react o (s.window v rest) s.emitted.head? s.context = .ok r) :
    ∃ zs', (s.accept v r).OnLine o (mark :: base) zs' ∧ ((∃ z ∈ zs', z.Breaks) ↔
      (∃ z ∈ zs, z.Breaks) ∨ s.BreaksLine o v rest ∨ s.LeadsLine v) := by
  by_cases hk : v.kind = .spaceCharacters
  · obtain ⟨zs', h', hbreaks⟩ := h.accept_space hmark hk hr
    refine ⟨zs', h', hbreaks.trans (or_congr_right ⟨?_, ?_⟩)⟩
    · rintro ⟨hlist, hline⟩
      by_cases hheaded : s.headed = true
      · exact .inr ⟨hk, hlist, hheaded, hline⟩
      · exact .inl (.space hk hlist (eq_false_of_ne_true hheaded) hline)
    · rintro (hbrings | hleads)
      · cases hbrings with
        | text hkind => simp [hk] at hkind
        | space hkind hlist hbehind hline => exact ⟨hlist, hline⟩
        | link hn | tag hn => simp [isNamed_iff, hk] at hn
      · exact ⟨hleads.list, hleads.newline⟩
  · have hphrased := phrased_of_react ho hv hk h.region hr
    refine ⟨_, h.write hphrased.keepsLast hphrased.region hphrased.pieces hphrased.taken v, ?_⟩
    have hleads : ¬s.LeadsLine v := fun hleads => hk hleads.kind
    rw [exists_breaks_write, hphrased.breaks, or_iff_left hleads]

end State.OnLine

theorem Passes.onLine (ho : o.Valid) (hp : Passes o rest s ts s')
    (h : s.OnLine o (mark :: base) zs) (hmark : mark.tag? = some .headingStart)
    (hts : ∀ v ∈ ts, o.isPhrase v = true) :
    ∃ zs', s'.OnLine o (mark :: base) zs' ∧ ((∃ z ∈ zs', z.Breaks) ↔ (∃ z ∈ zs, z.Breaks) ∨
      s.Meets (fun s v rest => s.BreaksLine o v rest ∨ s.LeadsLine v) o rest ts) := by
  induction hp generalizing zs with
  | nil => exact ⟨zs, h, (or_iff_left fun h => by cases h).symm⟩
  | @cons s s' v ts r hr _ ih =>
    obtain ⟨hv, hts⟩ := List.forall_mem_cons.mp hts
    obtain ⟨ys, hys, hstep⟩ := h.accept ho hmark hv hr
    obtain ⟨zs', hzs, hrun⟩ := ih hys hts
    exact ⟨zs', hzs, by rw [hrun, hstep, State.meets_cons_iff hr, or_assoc]⟩

/-- Behind a text with something to be seen in it, the line ends with that text or with the link
that has taken it. -/
theorem State.OnLine.closes_of_isWord (h : s.OnLine o (mark :: base) zs) (ht : t.IsWord)
    (hr : react o (s.window t rest) s.emitted.head? s.context = .ok r)
    (h' : (s.accept t r).OnLine o (mark :: base) zs') : ∃ z ∈ zs'.head?, z.Closes := by
  have htoken : (s.window t rest).token = t := rfl
  have hemitted := h'.emitted
  by_cases htaken : s.context.consumedText = some s.index
  · rw [react_takenText ht.kind h.region htaken] at hr
    cases hr
    have hsame : zs' ++ mark :: base = zs ++ mark :: base := by
      rw [← hemitted, ← h.emitted]
      rfl
    obtain rfl := List.append_cancel_right hsame
    rcases h.taken _ htaken with hless | ⟨-, hcloses⟩
    · omega
    · exact hcloses
  · obtain ⟨xs, x, htext, hline⟩ :=
      (textRun_of_isWord ht (0 < s.context.paragraph)).exists_concat
    rw [react_of_ordinary h.region, ordinary, htoken, ht.kind] at hr
    cases hr
    have hwritten : characters (s.window t rest) s.context = .emit s.context (xs ++ [x]) := by
      rw [← htext]
      exact if_neg htaken
    refine ⟨x.within (some s.context.blockquote), ?_, hline.closes.within _⟩
    have hsame : zs' ++ mark :: base = (((xs ++ [x]).map
        (·.within (some s.context.blockquote))).reverse ++ zs) ++ mark :: base := by
      rw [← hemitted, hwritten, List.append_assoc, ← h.emitted]
      rfl
    rw [List.append_cancel_right hsame]
    simp

/-- The line up to a text ends with a piece that closes it. -/
theorem Passes.exists_line (ho : o.Valid) {us : List Html.Token}
    (hp : Passes o rest s (us ++ [t]) s') (h : s.OnLine o (mark :: base) [])
    (hmark : mark.tag? = some .headingStart) (hts : ∀ v ∈ us ++ [t], o.isPhrase v = true)
    (ht : t.IsWord) : ∃ earlier z, s'.emitted = z :: earlier ++ mark :: base ∧
      (∀ u ∈ z :: earlier, u.IsPiece) ∧ z.Closes ∧ ((∃ u ∈ z :: earlier, u.Breaks) ↔
        s.Meets (fun s v rest => s.BreaksLine o v rest ∨ s.LeadsLine v) o rest (us ++ [t])) := by
  obtain ⟨zs', h', hbreaks⟩ := hp.onLine ho h hmark hts
  have hnone : ¬∃ z ∈ ([] : List Token), z.Breaks := by simp
  rw [or_iff_right hnone] at hbreaks
  obtain ⟨s₁, h₁, hlast⟩ := hp.of_append
  obtain ⟨zs₁, hline, -⟩ := h₁.onLine ho h hmark (List.forall_mem_append.mp hts).1
  cases hlast with
  | cons hr hs =>
    cases hs
    obtain ⟨z, hz, hcloses⟩ := hline.closes_of_isWord ht hr h'
    obtain ⟨earlier, rfl⟩ := List.head?_eq_some_iff.mp hz
    exact ⟨earlier, z, h'.emitted, h'.pieces, hcloses, hbreaks⟩

def State.openHeading (s : State) (name : String) (attributes : Html.Attributes) (level : Nat) :
    State :=
  s.accept (.startTag name attributes)
    (.emit (s.context.openBlock name) [.startBlock, .headingStart level])

theorem Passes.openHeading {name : String} {level : Nat} {content : Html.Forest}
    (hname : Html.headingLevel? name = some level) (hregion : s.context.region o = .ordinary)
    (hcontent : content.tokens ≠ []) (attributes : Html.Attributes) :
    Passes o (content.tokens ++ .endTag name :: rest) s [.startTag name attributes]
      (s.openHeading name attributes level) := by
  have hpair := isEmptyPair_startTag content s name attributes rest
  have hplays : (s.window (.startTag name attributes)
      (content.tokens ++ .endTag name :: rest)).Plays o s.context (.heading level) := by
    refine ⟨roleOf_of_headingLevel? hname, hregion, ?_⟩
    change (some name).filter _ = none
    simp [Option.filter_some, hpair, hcontent]
  refine .cons ?_ (.nil _)
  change react o (s.window (.startTag name attributes) (content.tokens ++ .endTag name :: rest))
    _ _ = _
  rw [react_of_plays hplays (.inl rfl), pairedTag, hplays.role]
  rfl

/-- Directly behind the mark of a heading the line is empty. -/
theorem State.onLine_openHeading (hregion : s.context.region o = .ordinary) (hs : s.InReach)
    (name : String) (attributes : Html.Attributes) (level : Nat) :
    (s.openHeading name attributes level).OnLine o
      ((stamped s.context.blockquote [.startBlock, .headingStart level]).reverse ++ s.emitted)
      [] := by
  refine ⟨?_, rfl, List.forall_mem_nil _, ?_⟩
  · exact (Context.region_eq_of_counters rfl rfl).trans hregion
  · intro i hi
    exact .inl (Nat.lt_succ_of_le (hs i hi))

open Markdown (renderChars indentAll marks)

/-- Where a conversion has written a line behind the mark of a heading, up to a piece that closes
it, the line is in the text that the conversion ends with. -/
theorem Passes.exists_render_line {f : Html.Forest} {earlier : List Token} {level depth : Nat}
    (hp : Passes o.sanitized rest {} ts s) (hf : f.tokens = ts ++ rest)
    (hs : s.emitted = z :: earlier ++ (stamped depth [.startBlock, .headingStart level]).reverse ++
      base)
    (hpieces : ∀ u ∈ z :: earlier, u.IsPiece) (hcloses : z.Closes) :
    ∃ front back rawText, (front = [] ∨ front.getLast? = some '\n') ∧
      (Converter.ofOptions o).render f.tokens = .ok (String.ofList (front ++
        (marks depth ++ List.replicate level '#' ++
          ' ' :: renderChars rawText (indentAll (z :: earlier).reverse)) ++ back)) := by
  obtain ⟨sEnd, hall, -⟩ := exists_passes_tokens o.sanitized f [] {} (Nat.le_refl 0)
  obtain ⟨out, hconvert, hcoherent⟩ := exists_convert_coherent o.sanitized f
  obtain rfl := Except.ok.inj (hconvert.symm.trans hall.convert_eq)
  rw [hf] at hall
  obtain ⟨s₁, h₁, hrest⟩ := hall.of_append
  rw [List.append_nil] at h₁
  obtain rfl := hp.unique h₁
  have hkept : ∀ t ∈ s.emitted.head?, t.tagIs Tag.isWhitespace = false := by
    rw [hs]
    intro t ht
    obtain rfl := Option.some.inj ht
    exact hcloses.solid
  have hnewline : ∀ t ∈ s.emitted.head?, t.isNewline = false := by
    intro t ht
    by_contra hn
    have hwhite := Token.isWhitespace_of_isNewline (eq_true_of_ne_false hn)
    exact absurd ((hkept t ht).symm.trans hwhite) Bool.false_ne_true
  obtain ⟨later, hlater⟩ :=
    State.prefix_finished hkept (hrest.suffix_emitted hnewline List.suffix_rfl)
  have hstream : sEnd.finished = base.reverse ++
      (stamped depth [.startBlock, .headingStart level] ++ (earlier.reverse ++ [z])) ++ later := by
    rw [← hlater, hs]
    simp
  have hchain : ((Token.headingStart level).within (some depth) ::
      (earlier.reverse ++ [z])).IsChain MayMeet := by
    have hnormal := (hp.normalSpace ⟨List.isChain_nil, fun u hu => nomatch hu⟩).chain
    refine hnormal.suffix ⟨base.reverse ++ [Token.startBlock.within (some depth)], ?_⟩
    rw [hs]
    simp [stamped]
  obtain ⟨hz, hpieces⟩ := List.forall_mem_cons.mp hpieces
  rw [hstream] at hcoherent
  obtain ⟨front, back, rawText, hfresh, hchars⟩ := Markdown.exists_render_heading hcoherent
    (fun t ht => hpieces t (List.mem_reverse.mp ht)) hz hcloses hchain
  refine ⟨front, back, rawText, hfresh, ?_⟩
  rw [Converter.render_of_adapt (Converter.adapt_of_convert hconvert), Markdown.render, hstream,
    hchars, List.reverse_cons]

/-- A heading that stands outside of sensitive elements and of scripts left out, and holds text,
white space, emphasis, anchors and tags that are left out, begins a line: at the head of the line
the quotes around it are marked, and behind the mark of the heading follows what is written of its
content. Up to the end of a text with something to be seen in it that has a newline where a token
brings one, and only where a token brings one or white space on several lines leads the line. -/
theorem exists_heading_line (o : Options) {f content : Html.Forest} {name : String} {level : Nat}
    {attributes : Html.Attributes} {before after us vs : List Html.Token}
    (hname : Html.headingLevel? name = some level)
    (hf : f.tokens =
      before ++ .startTag name attributes :: (content.tokens ++ .endTag name :: after))
    (hregion : ∀ s, Passes o.sanitized
      (.startTag name attributes :: (content.tokens ++ .endTag name :: after)) {} before s →
        s.context.region o.sanitized = .ordinary)
    (hphrase : ∀ v ∈ content.tokens, o.isPhrase v = true)
    (hcontent : content.tokens = us ++ t :: vs) (ht : t.IsWord) :
    ∃ s s' front back rawText written,
      Passes o.sanitized (content.tokens ++ .endTag name :: after) {}
        (before ++ [.startTag name attributes]) s ∧
      Passes o.sanitized (vs ++ .endTag name :: after) s (us ++ [t]) s' ∧
      s'.emitted = written.reverse ++ s.emitted ∧
      (front = [] ∨ front.getLast? = some '\n') ∧
      (Converter.ofOptions o).render f.tokens = .ok (String.ofList (front ++
        (marks s.context.blockquote ++ List.replicate level '#' ++
          ' ' :: renderChars rawText (indentAll written)) ++ back)) ∧
      (s.Meets (·.BreaksLine o.sanitized · ·) o.sanitized (vs ++ .endTag name :: after)
        (us ++ [t]) → '\n' ∈ renderChars rawText (indentAll written)) ∧
      ('\n' ∈ renderChars rawText (indentAll written) →
        s.Meets (fun s v rest => s.BreaksLine o.sanitized v rest ∨ s.LeadsLine v) o.sanitized
          (vs ++ .endTag name :: after) (us ++ [t])) := by
  have ho := o.valid_sanitized
  have hne : content.tokens ≠ [] := by simp [hcontent]
  let tail := vs ++ .endTag name :: after
  have htail : content.tokens ++ .endTag name :: after = (us ++ [t]) ++ tail := by
    simp [hcontent, tail]
  have hsplit : f.tokens = before ++ ([.startTag name attributes] ++ ((us ++ [t]) ++ tail)) := by
    rw [hf, htail]
    rfl
  obtain ⟨sEnd, hp, -⟩ := exists_passes_tokens o.sanitized f [] {} (Nat.le_refl 0)
  rw [hsplit] at hp
  obtain ⟨s₀, h₀, hp⟩ := hp.of_append
  obtain ⟨s, hs, hp⟩ := hp.of_append
  obtain ⟨s', hline, -⟩ := hp.of_append
  rw [List.append_nil] at h₀ hs hline
  have hregion₀ : s₀.context.region o.sanitized = .ordinary := by
    apply hregion
    rw [htail]
    exact h₀
  have hopen : Passes o.sanitized ((us ++ [t]) ++ tail) s₀ [.startTag name attributes]
      (s₀.openHeading name attributes level) := htail ▸ .openHeading hname hregion₀ hne attributes
  obtain rfl := hopen.unique hs
  have hphrases : ∀ v ∈ us ++ [t], o.sanitized.isPhrase v = true := by
    intro v hv
    refine hphrase v ?_
    rw [hcontent, ← List.singleton_append, ← List.append_assoc]
    exact List.mem_append_left vs hv
  have hreach : s₀.InReach := h₀.inReach fun i hi => (Option.not_mem_none i hi).elim
  obtain ⟨earlier, z, hs', hpieces, hcloses, hbreaks⟩ := hline.exists_line ho
    (State.onLine_openHeading hregion₀ hreach name attributes level) (Token.tag?_within _ _)
    hphrases ht
  have hbefore := h₀.append hs
  have htokens : f.tokens = (before ++ [.startTag name attributes] ++ (us ++ [t])) ++ tail := by
    simp [hsplit]
  have hemitted : s'.emitted = z :: earlier ++
      (stamped s₀.context.blockquote [.startBlock, .headingStart level]).reverse ++
        s₀.emitted := by
    rw [hs', List.append_assoc]
    rfl
  obtain ⟨front, back, rawText, hfresh, hrender⟩ :=
    (hbefore.append hline).exists_render_line htokens hemitted hpieces hcloses
  have hnewline : '\n' ∈ renderChars rawText (indentAll (z :: earlier).reverse) ↔
      (s₀.openHeading name attributes level).Meets
        (fun s v rest => s.BreaksLine o.sanitized v rest ∨ s.LeadsLine v) o.sanitized tail
          (us ++ [t]) := by
    rw [Markdown.newline_mem_line_iff (fun u hu => hpieces u (List.mem_reverse.mp hu)), ← hbreaks]
    simp only [List.mem_reverse]
  refine ⟨_, s', front, back, rawText, (z :: earlier).reverse, htail ▸ hbefore, hline, ?_, hfresh,
    hrender, fun hbrings => hnewline.mpr (hbrings.imp fun _ _ _ h => .inl h), hnewline.mp⟩
  rw [List.reverse_reverse, hs']
  rfl

/-- In a heading in a quote, a text on two lines brings a newline. -/
theorem heading_line_in_quote :
    let content : Html.Forest := .text "a\nb" (.element "em" ∅ (.text "c" .nil) .nil)
    let f : Html.Forest := .element "blockquote" ∅ (.element "h2" ∅ content .nil) .nil
    ∃ s s' front back rawText written,
      Passes {} [.endTag "em", .endTag "h2", .endTag "blockquote"] s
        [.characters "a\nb", .startTag "em" ∅, .characters "c"] s' ∧
      s'.emitted = written.reverse ++ s.emitted ∧
      (Converter.ofOptions {}).render f.tokens = .ok (String.ofList (front ++
        (marks s.context.blockquote ++ List.replicate 2 '#' ++
          ' ' :: renderChars rawText (indentAll written)) ++ back)) ∧
      '\n' ∈ renderChars rawText (indentAll written) := by
  intro content f
  let before : List Html.Token := [.startTag "blockquote" ∅]
  let after : List Html.Token := [.endTag "blockquote"]
  let us : List Html.Token := [.characters "a\nb", .startTag "em" ∅]
  have hname : Html.headingLevel? "h2" = some 2 := by decide
  have hcontent : content.tokens = us ++ .characters "c" :: [.endTag "em"] := by decide +kernel
  have hf : f.tokens = before ++ .startTag "h2" ∅ :: (content.tokens ++ .endTag "h2" :: after) := by
    decide +kernel
  have hregion : ∀ s, Passes ({} : Options).sanitized
      (.startTag "h2" ∅ :: (content.tokens ++ .endTag "h2" :: after)) {} before s →
        s.context.region ({} : Options).sanitized = .ordinary := by
    intro s hs
    rw [hs.context_eq]
    decide +kernel
  have hphrase : ∀ v ∈ content.tokens, ({} : Options).isPhrase v = true := by decide +kernel
  have hword : (Html.Token.characters "c").IsWord := ⟨rfl, 'c', by decide, by decide⟩
  obtain ⟨s, s', front, back, rawText, written, hs, hline, hwritten, -, hrender, hbrings, -⟩ :=
    exists_heading_line {} hname hf hregion hphrase hcontent hword
  have hcontext : s.context.paragraph = 0 ∧ s.context.consumedText = none := by
    rw [hs.context_eq]
    decide +kernel
  have hown : s.context.consumedText ≠ some s.index := by simp [hcontext.2]
  exact ⟨s, s', front, back, rawText, written, hline, hwritten, hrender,
    hbrings (.here (.text rfl hown hcontext.1 (by decide)))⟩

/-- A text that is not in a paragraph keeps its lines in a heading. -/
theorem newline_in_heading :
    let content : Html.Forest := .text "a\nb" .nil
    let f : Html.Forest := .element "h1" ∅ content .nil
    (∀ v ∈ content.tokens, ({} : Options).isPhrase v = true) ∧
      ({} : Context).region {} = .ordinary ∧
      (Converter.ofOptions {}).render f.tokens = .ok "# a\nb\n\n" := by
  refine ⟨by decide +kernel, rfl, ?_⟩
  exact eq_ok_of_toOption (by decide +kernel)

end Conversion

end HtmlMarkdown
