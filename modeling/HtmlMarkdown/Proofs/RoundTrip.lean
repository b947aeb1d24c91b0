import HtmlMarkdown.Proofs.PlainFragment
import HtmlMarkdown.Proofs.UnmarkedText
import HtmlMarkdown.Proofs.Wrapper

/-!
# Markdown converted again

Nothing reads Markdown: what a conversion writes is HTML to the next one. Its quote markers, its
indents and its hard breaks are text like any other, and the text is escaped and laid out once
more; its tables, links and comments are read and written once more. So Markdown without tags comes
back, up to the newlines at its end, exactly when it is an escaped smooth text, and Markdown whose
HTML has no marks exactly when it is spelled as that HTML is written.
-/

namespace HtmlMarkdown

open Text (escapeChar escapeText flowChars middle trimLines unixNewlines Smooth)
open Conversion (Gap wrapped)
open Markdown (trimNewlinesEnd)

namespace Html

/-- What is known of a reader: text without tags is one text inside the wrapper, and of escaped text
it is the text itself, its line ends made newlines. -/
structure ReadsText (read : String → Forest) : Prop where
  text : ∀ s : String, '<' ∉ s.toList →
    ∃ t, (read s).tokens = wrapped fragmentAttributes (textTokens t)
  escaped : ∀ s : String, '\x00' ∉ s.toList → (read (escapeText s)).tokens =
    wrapped fragmentAttributes (textTokens (String.ofList (unixNewlines s.toList)))

theorem tokens_readFragment {s : String} (h : '<' ∉ s.toList) : (readFragment s).tokens =
    wrapped fragmentAttributes
      (textTokens (String.ofList (decodeReferences (unixNewlines s.toList)))) := by
  rw [← fragmentTokens, fragmentTokens_of_not_mem h, wrapped]

theorem readsText_readFragment : ReadsText readFragment where
  text _ h := ⟨_, tokens_readFragment h⟩
  escaped s _ := by
    have hread : (readFragment (escapeText s)).tokens = _ := tokens_readFragment (by
      rw [escapeText, String.toList_ofList]
      exact Text.lt_not_mem_escaped _)
    rwa [escapeText, String.toList_ofList, Text.unixNewlines_escaped,
      Text.decodeReferences_escaped] at hread

section Wrapper

variable {ts : List Token} {attributes : Attributes}

theorem withoutEmpty_of_not_embraces (h : ∀ t ∈ ts, t.kind ≠ .startTag) : withoutEmpty ts = ts := by
  have hnot {t : Token} (ht : t.kind ≠ .startTag) (u : Token) : t.embraces u ≠ true := fun hpair =>
    ht (Token.embraces_iff.mp hpair).1
  fun_induction withoutEmpty ts with
  | case1 | case2 => rfl
  | case3 t u ts hpair => exact absurd hpair (hnot (h t List.mem_cons_self) u)
  | case4 t u ts _ ih => rw [ih fun v hv => h v (List.mem_cons_of_mem t hv)]

/-- The tags of the wrapper are left out. -/
theorem chunks_wrapped (h : ∀ t ∈ ts, t.kind ≠ .startTag ∧ t.kind ≠ .endTag) :
    chunks (wrapped attributes ts) = ts.filterMap Token.chunk? := by
  have hstart : (Token.startTag fragmentTag attributes).chunk? = none := by
    have hnamed : fragmentTag ≠ "table" ∧ fragmentTag ≠ "a" ∧
        ¬tableParts.contains fragmentTag = true ∧ roleOf fragmentTag ≠ .bareLink := by decide
    obtain ⟨htable, hanchor, hpart, hbare⟩ := hnamed
    have htag : (Token.startTag fragmentTag attributes).tagName = fragmentTag := rfl
    have hk : (Token.startTag fragmentTag attributes).kind = .startTag := rfl
    simp only [Token.chunk?, hk, htag, if_neg htable, if_neg hanchor, if_neg hpart, if_neg hbare]
  have hend : (Token.endTag fragmentTag).chunk? = none := by decide
  cases ts with
  | nil => rfl
  | cons t ts =>
    have hnot : ¬(Token.startTag fragmentTag attributes).embraces t = true := fun hpair =>
      (h t List.mem_cons_self).2 (Token.embraces_iff.mp hpair).2.1
    have hrest : withoutEmpty (t :: ts ++ [Token.endTag fragmentTag]) =
        t :: ts ++ [Token.endTag fragmentTag] := withoutEmpty_of_not_embraces fun u hu => by
      rcases List.mem_append.mp hu with hu | hu
      · exact (h u hu).1
      · rw [List.mem_singleton.mp hu]
        decide
    rw [chunks, wrapped, List.cons_append, withoutEmpty, if_neg hnot, ← List.cons_append, hrest,
      List.filterMap_cons_none hstart, List.filterMap_append, List.filterMap_cons_none hend,
      List.filterMap_nil, List.append_nil]

theorem mem_withoutEmpty {t : Token} (h : t ∈ withoutEmpty ts) : t ∈ ts := by
  fun_induction withoutEmpty ts with
  | case1 | case2 => exact h
  | case3 t u ts _ ih => exact List.mem_cons_of_mem _ (List.mem_cons_of_mem _ (ih h))
  | case4 t u ts _ ih =>
    rcases List.mem_cons.mp h with rfl | h
    · exact List.mem_cons_self
    · exact List.mem_cons_of_mem _ (ih h)

end Wrapper

section TextTokens

variable {t : Token}

def gapsOf (cs : List Char) : List Gap :=
  if cs = [] then [] else [Gap.ofText (String.ofList cs)]

theorem chunks_spaceTokens (cs : List Char) :
    (spaceTokens cs).filterMap Token.chunk? = (gapsOf cs).map .gap := by
  unfold spaceTokens gapsOf
  split_ifs <;> rfl

/-- A text is written between gaps, if it is written at all. -/
theorem exists_chunks_textTokens (s : String) : ∃ lead trail : List Char,
    (textTokens s).filterMap Token.chunk? = (gapsOf lead).map .gap ++
      ((if flowChars false (middle s.toList) = [] then []
        else [.run ((flowChars false (middle s.toList)).flatMap escapeChar)]) ++
          (gapsOf trail).map .gap) := by
  unfold textTokens
  dsimp only
  split_ifs with hinner hflow hflow
  · exact ⟨s.toList, [], by rw [chunks_spaceTokens]; exact (List.append_nil _).symm⟩
  · exact absurd (by rw [middle, hinner]; rfl) hflow
  all_goals
    refine ⟨s.toList.takeWhile Text.isHtmlSpace,
      Text.takeTail Text.isHtmlSpace (s.toList.dropWhile Text.isHtmlSpace), ?_⟩
    have hchunk : (Token.characters (String.ofList (middle s.toList))).chunk? =
        if flowChars false (middle s.toList) = [] then none
        else some (.run ((flowChars false (middle s.toList)).flatMap escapeChar)) := by
      simp [Token.chunk?, Token.characters, Token.content]
    change ((spaceTokens _) ++ Token.characters (String.ofList (middle s.toList)) ::
      spaceTokens _).filterMap Token.chunk? = _
    rw [List.filterMap_append, chunks_spaceTokens]
  · rw [if_pos hflow] at hchunk
    rw [List.filterMap_cons_none hchunk, chunks_spaceTokens]
    rfl
  · rw [if_neg hflow] at hchunk
    rw [List.filterMap_cons_some hchunk, chunks_spaceTokens]
    rfl

theorem chunks_text (s : String) :
    chunks (wrapped fragmentAttributes (textTokens s)) = (textTokens s).filterMap Token.chunk? :=
  chunks_wrapped fun t ht => by
    rcases kind_of_mem_textTokens ht with hk | hk <;> simp [hk]

theorem written_text (s : String) : written (wrapped fragmentAttributes (textTokens s)) =
    (flowChars false (middle s.toList)).flatMap escapeChar := by
  obtain ⟨lead, trail, hchunks⟩ := exists_chunks_textTokens s
  have hlead (cs : List (Chunk (List Char))) :
      lay Gap.chars .start ((gapsOf lead).map .gap ++ cs) = lay Gap.chars .start cs := by
    unfold gapsOf
    split_ifs <;> rfl
  have htrail (front : Front) : lay Gap.chars front ((gapsOf trail).map .gap) = [] :=
    lay_of_gaps (by unfold gapsOf; split_ifs <;> rfl) front
  rw [written, chunks_text, hchunks, hlead]
  split_ifs with hflow
  · rw [List.nil_append, htrail, hflow]
    rfl
  · rw [List.singleton_append, lay, htrail, List.append_nil]
    exact List.nil_append _

theorem anchorsStay_of_not_isNamed {ts : List Token}
    (h : ∀ t ∈ ts, t.isNamed .startTag "a" = false ∧ t.isNamed .endTag "a" = false) (depth : Nat) :
    anchorsStay depth ts = true := by
  induction ts with
  | nil => rfl
  | cons t ts ih =>
    obtain ⟨⟨hstart, hend⟩, hts⟩ := List.forall_mem_cons.mp h
    have hbehind : t.anchorsBehind depth = depth := by simp [Token.anchorsBehind, hstart, hend]
    rw [anchorsStay, hbehind, ih hts, Bool.and_true]
    simp [Token.anchorStays, hstart, hend]

/-- Text without tags has no marks. -/
theorem unmarked_text (s : String) : Unmarked (wrapped fragmentAttributes (textTokens s)) := by
  have hcases : ∀ t ∈ wrapped fragmentAttributes (textTokens s),
      t = .startTag fragmentTag fragmentAttributes ∨ t ∈ textTokens s ∨
        t = .endTag fragmentTag := by
    simp [wrapped]
  have hcomment (t : Token) (ht : t ∈ visible (wrapped fragmentAttributes (textTokens s))) :
      t.kind ≠ .comment := by
    rcases hcases t (mem_withoutEmpty (List.mem_of_mem_filter ht)) with rfl | ht | rfl
    · decide
    · rcases kind_of_mem_textTokens ht with hk | hk <;> simp [hk]
    · decide
  refine ⟨fun t ht => ?_, anchorsStay_of_not_isNamed (fun t ht => ?_) 0, ?_,
    fun t ht hk => absurd hk (hcomment t (List.mem_of_mem_head? ht)),
    fun t ht hk => absurd hk (hcomment t (List.mem_of_getLast? ht))⟩
  · rcases hcases t ht with rfl | ht | rfl
    · decide
    · rcases kind_of_mem_textTokens ht with hk | hk <;> simp [Token.isUnmarked, hk]
    · decide
  · rcases hcases t ht with rfl | ht | rfl
    · decide
    · rcases kind_of_mem_textTokens ht with hk | hk <;> simp [Token.isNamed, hk]
    · decide
  · obtain ⟨lead, trail, hchunks⟩ := exists_chunks_textTokens s
    rw [chunks_text, hchunks]
    unfold gapsOf
    split_ifs <;> rfl

end TextTokens

end Html

namespace Converter

variable {read : String → Html.Forest} {m : String}

theorem exists_transformWith (o : Options) (read : String → Html.Forest) (html : String) :
    ∃ m, (ofOptions o).transformWith read html = .ok m := by
  cases hblank : Text.isBlank html with
  | true => exact ⟨"", transformWith_of_isBlank hblank _ read⟩
  | false =>
    obtain ⟨s, hs, -⟩ := Conversion.exists_passes_tokens o.sanitized
      (read (trimLines html)) [] {} (Nat.le_refl 0)
    refine ⟨Markdown.render (Markdown.layout s.finished), ?_⟩
    rw [transformWith_of_not_isBlank hblank]
    exact render_of_adapt (adapt_of_convert hs.convert_eq)

/-- Text whose HTML has no marks is converted to the text that its HTML is written as. -/
theorem exists_transformWith_unmarked (hblank : Text.isBlank m = false)
    (h : Html.Unmarked (read (trimLines m)).tokens) :
    ∃ m', (ofOptions {}).transformWith read m = .ok m' ∧
      trimNewlinesEnd m' = String.ofList (Html.written (read (trimLines m)).tokens) := by
  rw [transformWith_of_not_isBlank hblank]
  exact exists_render_unmarked h

/-- Text without tags is converted to an escaped text. Where the text is an escaped one, the lines
of that one are laid out. -/
theorem exists_transformWith_text (hread : Html.ReadsText read) (hplain : '<' ∉ m.toList)
    (hnull : '\x00' ∉ m.toList) :
    ∃ m' cs, (ofOptions {}).transformWith read m = .ok m' ∧ trimNewlinesEnd m' = String.ofList cs ∧
      (∃ v : List Char, cs = v.flatMap escapeChar) ∧ ∀ u, m = escapeText u →
        cs = (flowChars false (middle (unixNewlines (trimLines u).toList))).flatMap escapeChar := by
  cases hblank : Text.isBlank m with
  | true =>
    refine ⟨"", [], transformWith_of_isBlank hblank _ read, by decide, ⟨[], rfl⟩, fun u hu => ?_⟩
    rw [hu] at hblank
    rw [Text.middle_trimLines_of_isBlank (Text.isBlank_of_escapeText hblank)]
    rfl
  | false =>
    have hlines : '<' ∉ (trimLines m).toList := fun hmem =>
      (Text.mem_trimLines hmem).elim (by decide) hplain
    obtain ⟨t, ht⟩ := hread.text _ hlines
    obtain ⟨m', hm', hwritten⟩ := exists_transformWith_unmarked hblank
      (by rw [ht]; exact Html.unmarked_text t)
    refine ⟨m', _, hm', hwritten, ⟨_, by rw [ht, Html.written_text]⟩, fun u hu => ?_⟩
    have hnull' : '\x00' ∉ (trimLines u).toList := fun hmem => by
      refine (Text.mem_trimLines hmem).elim (by decide) fun hmem => hnull ?_
      rw [hu, escapeText, String.toList_ofList]
      exact List.mem_flatMap.mpr ⟨_, hmem, by decide⟩
    rw [hu, Text.trimLines_escapeText, hread.escaped _ hnull', Html.written_text,
      String.toList_ofList]

/-- A conversion never fails, and neither does one of its Markdown. Markdown without tags comes
back, up to the newlines at its end, exactly when it is an escaped smooth text. Markdown whose HTML
has no marks becomes the text that its HTML is written as. -/
theorem transform_again (read : String → Html.Forest) (hread : Html.ReadsText read)
    (html : String) : ∃ m m', (ofOptions {}).transformWith read html = .ok m ∧
      (ofOptions {}).transformWith read m = .ok m' ∧
      ('<' ∉ m.toList → '\x00' ∉ m.toList →
        (trimNewlinesEnd m' = trimNewlinesEnd m ↔
          ∃ u, trimNewlinesEnd m = escapeText u ∧ Smooth u.toList)) ∧
      (Text.isBlank m = false → Html.Unmarked (read (trimLines m)).tokens →
        trimNewlinesEnd m' = String.ofList (Html.written (read (trimLines m)).tokens)) := by
  obtain ⟨m, hm⟩ := exists_transformWith {} read html
  obtain ⟨m', hm'⟩ := exists_transformWith {} read m
  refine ⟨m, m', hm, hm', fun hplain hnull => ?_, fun hblank hunmarked => ?_⟩
  · obtain ⟨m₁, cs, hm₁, htext, hescaped, hlaid⟩ := exists_transformWith_text hread hplain hnull
    obtain rfl : m' = m₁ := Except.ok.inj (hm'.symm.trans hm₁)
    rw [htext]
    exact Text.kept_iff_smooth m hescaped hlaid
  · obtain ⟨m₁, hm₁, hwritten⟩ := exists_transformWith_unmarked hblank hunmarked
    obtain rfl : m' = m₁ := Except.ok.inj (hm'.symm.trans hm₁)
    exact hwritten

/-- A list whose text has a reference comes back, and so do a bare link, a comment, a table and an
anchor that stays. -/
theorem transform_again_list :
    let convert := (ofOptions {}).transformWith Html.readFragment
    let page := "<a href=https://e>https://e</a><!--c--><table><tr><td>x</td></tr></table>" ++
      "<a href=u> y</a>"
    let written := "<https://e><!--c-->\n\n" ++
      "<table><tbody><tr><td>x</td></tr></tbody></table>\n\n<a href='u'> y</a>"
    (∃ m m', convert "<ul><li>a</li><li>b &lt; c</li></ul>" = .ok m ∧ convert m = .ok m' ∧
      trimNewlinesEnd m = "* a\n* b &lt; c" ∧ trimNewlinesEnd m' = "* a\n* b &lt; c") ∧
      ∃ m m', convert page = .ok m ∧ convert m = .ok m' ∧
        trimNewlinesEnd m = written ∧ trimNewlinesEnd m' = written := by
  intro convert page written
  have hlist : convert "<ul><li>a</li><li>b &lt; c</li></ul>" = .ok "* a\n* b &lt; c\n\n" := by
    decide +kernel
  have hpage : convert page = .ok written := by decide +kernel
  constructor
  · obtain ⟨m, m', hm, hm', htext, -⟩ := transform_again Html.readFragment
      Html.readsText_readFragment "<ul><li>a</li><li>b &lt; c</li></ul>"
    obtain rfl : "* a\n* b &lt; c\n\n" = m := Except.ok.inj (hlist.symm.trans hm)
    have hsmooth : Smooth "* a\n* b < c".toList := by
      have hlaid := Text.smooth_trimLines (s := "* a\n* b < c") (by decide)
      have hsame : flowChars false (middle (unixNewlines (trimLines "* a\n* b < c").toList)) =
          "* a\n* b < c".toList := by decide +kernel
      rwa [hsame] at hlaid
    have hback := (htext (by decide +kernel) (by decide +kernel)).mpr
      ⟨"* a\n* b < c", by decide +kernel, hsmooth⟩
    exact ⟨_, m', hm, hm', by decide +kernel, hback.trans (by decide +kernel)⟩
  · obtain ⟨m, m', hm, hm', -, hhtml⟩ := transform_again Html.readFragment
      Html.readsText_readFragment page
    obtain rfl : written = m := Except.ok.inj (hpage.symm.trans hm)
    have hback := hhtml (by decide +kernel) (by decide +kernel)
    exact ⟨_, m', hm, hm', by decide +kernel, hback.trans (by decide +kernel)⟩

/-- A quoted paragraph does not come back: its marker is text to the second conversion. -/
theorem quote_read_as_text :
    (ofOptions {}).transform "<blockquote><p>a</p></blockquote>" = .ok "> a\n\n" ∧
      (ofOptions {}).transform "> a\n\n" = .ok "&gt; a\n" ∧
      trimNewlinesEnd "&gt; a\n" ≠ trimNewlinesEnd "> a\n\n" := by
  decide +kernel

end Converter

end HtmlMarkdown
