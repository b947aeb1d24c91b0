import HtmlMarkdown.Proofs.FirstToken

/-!
# What leads the text

Nothing blank is to lead a text. Leading spaces and newlines are dropped as whole tokens, and so are
the newlines that the first text begins with. A hard newline is neither: where it comes first, the
text begins with two spaces and a newline. The same goes for a rule with a blank line before the
line that shows. Nothing else leads a text with a blank line: the newlines of a quote show its
marker, and everything else is written behind something that shows.
-/

namespace HtmlMarkdown

namespace Text

open Markdown (isNewlineChar)

variable {cs ds : List Char} {c : Char}

theorem opensBlank_append_newline (cs ds : List Char) :
    opensBlank (cs ++ '\n' :: ds) = opensBlank cs := by
  induction cs with
  | nil => rfl
  | cons c cs ih => rw [List.cons_append, opensBlank_cons, opensBlank_cons, ih]

/-- What stands on the first line stays there. -/
theorem opensBlank_append (h : opensBlank cs = false) (ds : List Char) :
    opensBlank (cs ++ ds) = false := by
  induction cs with
  | nil => cases h
  | cons c cs ih =>
    rw [opensBlank_cons, Bool.or_eq_false_iff, Bool.and_eq_false_iff] at h
    rw [List.cons_append, opensBlank_cons, h.1, Bool.false_or, Bool.and_eq_false_iff]
    exact h.2.imp_right ih

/-- A first line that has an end is not changed by what follows. -/
theorem opensBlank_append_of_mem (h : '\n' ∈ cs) (ds : List Char) :
    opensBlank (cs ++ ds) = opensBlank cs := by
  obtain ⟨xs, ys, rfl⟩ := List.append_of_mem h
  rw [List.append_assoc, List.cons_append, opensBlank_append_newline, opensBlank_append_newline]

theorem newline_mem_of_opensBlank (h : opensBlank cs = true) (hc : c ∈ cs)
    (hwhite : isWhite c = false) : '\n' ∈ cs := by
  by_contra hmem
  have hline : cs.takeWhile (· != '\n') = cs :=
    List.takeWhile_eq_self_iff.mpr fun d hd => bne_iff_ne.mpr fun heq => hmem (heq ▸ hd)
  rw [opensBlank, hline, List.all_eq_true] at h
  exact Bool.false_ne_true (hwhite.symm.trans (h c hc))

theorem opensBlank_dropTail (cs : List Char) :
    opensBlank (dropTail isNewlineChar cs) = opensBlank cs := by
  have hsplit := dropTail_append_takeTail isNewlineChar cs
  rcases htail : takeTail isNewlineChar cs with _ | ⟨c, tail⟩
  · rw [htail, List.append_nil] at hsplit
    rw [hsplit]
  · have hc : isNewlineChar c = true :=
      List.mem_takeWhile_imp (List.mem_reverse.mp (htail ▸ List.mem_cons_self))
    obtain rfl : c = '\n' := by simpa [isNewlineChar] using hc
    rw [htail] at hsplit
    rw [← opensBlank_append_newline _ tail, hsplit]

/-- Escaping changes no white space and makes none. -/
theorem opensBlank_escapeQuoted (depth markers : Nat) (cs : List Char) :
    opensBlank (escapeQuoted depth markers cs) = opensBlank cs := by
  have hgt (cs : List Char) : opensBlank ('>' :: cs) = false := opensBlank_cons_ink rfl cs
  have hamp (cs : List Char) : opensBlank ('&' :: cs) = false := opensBlank_cons_ink rfl cs
  fun_induction escapeQuoted depth markers cs with
  | case1 => rfl
  | case2 cs ih => exact (hamp _).trans (hgt _).symm
  | case3 cs n ih => exact (hgt _).trans (hgt _).symm
  | case4 markers c cs hc ih =>
    generalize escapeQuoted depth (if c = '\n' then depth else 0) cs = escaped at ih
    unfold escapeChar
    split_ifs with hand hless hgreater
    · exact (hamp _).trans (hand ▸ (hamp _).symm)
    · have hlt : opensBlank ('<' :: cs) = false := opensBlank_cons_ink rfl cs
      exact (hamp _).trans (hless ▸ hlt.symm)
    · exact (hamp _).trans (hgreater ▸ (hgt _).symm)
    · rw [List.singleton_append, opensBlank_cons, opensBlank_cons, ih]

end Text

namespace Markdown

open Text (opensBlank)

variable {ts : List Token} {t : Token} {tag : Tag} {data : String}

/-- A hard newline, or a rule of which the first line is blank. -/
def Token.BeginsBlank (t : Token) : Prop :=
  t.hasTag .newlineHard = true ∨
    t.hasTag .horizontalRule = true ∧ opensBlank (t.chars none) = true

/-- Behind leading space, a stream begins with a hard newline or a rule of which the first line is
blank. -/
def LeadsBlank (ts : List Token) : Prop := ∃ first ∈ (trimStart ts).head?, first.BeginsBlank

instance (t : Token) : Decidable t.BeginsBlank := inferInstanceAs (Decidable (_ ∨ _))

instance (ts : List Token) : Decidable (LeadsBlank ts) :=
  inferInstanceAs (Decidable (∃ first ∈ (trimStart ts).head?, first.BeginsBlank))

/-- A first token that trimming leaves: it opens blank exactly where it is one of those that may,
and then its first line has an end. -/
structure Token.Begins (t : Token) : Prop where
  pure : t.isPureSpace = false
  blank : opensBlank (t.chars none) = true ↔ t.BeginsBlank
  line : t.BeginsBlank → '\n' ∈ t.chars none ∧ ∃ c ∈ t.chars none, c ≠ '\n'

/-- Escaped or not, Markdown opens as its data does. -/
theorem opensBlank_markdown (h : t.node = .markdown tag data) (rawText : Option String) :
    opensBlank (t.chars rawText) = opensBlank data.toList := by
  simp only [Token.chars, h]
  cases tag.renderKind with
  | text => exact Text.opensBlank_escapeQuoted _ _ _
  | literal | space => rfl

theorem opensBlank_tag {raw : Html.Token} (h : t.node = .html raw) (hraw : raw.isTag = true) :
    opensBlank (t.chars none) = false := by
  simp only [Token.chars, h]
  rcases Html.Token.isTag_iff.mp hraw with hk | hk | hk <;>
  · simp only [htmlChars, hk]
    exact Text.opensBlank_cons_ink (c := '<') rfl _

/-- The newlines at the end of a text are not on its first line. -/
theorem opensBlank_trimNewlinesEnd (t : Token) :
    opensBlank ((t.mapText trimNewlinesEnd).chars none) = opensBlank (t.chars none) := by
  have hdata (s : String) : opensBlank (trimNewlinesEnd s).toList = opensBlank s.toList := by
    rw [trimNewlinesEnd, String.toList_ofList, Text.opensBlank_dropTail]
  obtain ⟨node, depth, inCode⟩ := t
  cases node with
  | markdown tag data =>
    rw [opensBlank_markdown (node_mapText rfl trimNewlinesEnd), opensBlank_markdown rfl, hdata]
  | native edge raw => rfl
  | html raw =>
    unfold Token.mapText
    dsimp only
    split_ifs with htag
    · rfl
    · have hcontent : ({ raw with text := raw.text.map trimNewlinesEnd } : Html.Token).content =
          trimNewlinesEnd raw.content := Token.content_mapText rfl
      simp only [Token.chars, htmlChars, hcontent]
      cases hk : raw.kind with
      | startTag | endTag | emptyTag => simp [Html.Token.isTag, hk] at htag
      | characters =>
        exact (Text.opensBlank_escapeQuoted _ _ _).trans
          ((hdata _).trans (Text.opensBlank_escapeQuoted _ _ _).symm)
      | spaceCharacters => exact hdata _
      | comment =>
        have hless (cs : List Char) : opensBlank ('<' :: cs) = false :=
          Text.opensBlank_cons_ink rfl cs
        exact (hless _).trans (hless _).symm
      | doctype | parseError => rfl

theorem begins_of_ink (hpure : t.isPureSpace = false) (hchars : opensBlank (t.chars none) = false)
    (hhard : t.hasTag .newlineHard = false) : t.Begins := by
  have hnot : ¬t.BeginsBlank := by
    rintro (h | ⟨-, h⟩)
    · exact Bool.false_ne_true (hhard.symm.trans h)
    · exact Bool.false_ne_true (hchars.symm.trans h)
  exact ⟨hpure, iff_of_false (by simp [hchars]) hnot, fun h => absurd h hnot⟩

theorem toList_trimNewlinesStart (s : String) :
    (trimNewlinesStart s).toList = s.toList.dropWhile isNewlineChar := String.toList_ofList

theorem opensBlank_indentChars (head cs : List Char) :
    opensBlank (indentChars head cs) = opensBlank cs := by
  induction cs with
  | nil => rfl
  | cons c cs ih =>
    by_cases hc : c = '\n'
    · subst hc
      rfl
    · have hkeep : indentChars head (c :: cs) = c :: indentChars head cs := by
        simp [indentChars, hc]
      rw [hkeep, Text.opensBlank_cons, Text.opensBlank_cons, ih]

/-- In a quote, a marker stands behind the newlines that trimming takes from the start. -/
theorem opensBlank_quoted {s : String} {cs : List Char} (hs : s.toList = '\n' :: cs)
    (hquote : t.markers ≠ 0) :
    opensBlank
      (trimNewlinesStart (indentLines (lineHead t.markers t.inCode) s)).toList = false := by
  obtain ⟨n, hn⟩ := Nat.exists_eq_succ_of_ne_zero hquote
  have hmarker : lineHead t.markers t.inCode = '>' :: ' ' :: lineHead n t.inCode := by
    rw [hn]
    simp [lineHead, List.replicate_succ]
  rw [toList_trimNewlinesStart, toList_indentLines, hs, indentChars_newline, hmarker,
    List.cons_append, List.dropWhile_cons_of_pos (by rfl), List.cons_append,
    List.dropWhile_cons_of_neg (by decide)]
  exact Text.opensBlank_cons_ink rfl _

theorem opensBlank_trimNewlinesStart {s : String}
    (h : opensBlank (s.toList.dropWhile isNewlineChar) = false) (hcode : t.inCode = false) :
    opensBlank
      (trimNewlinesStart (indentLines (lineHead t.markers t.inCode) s)).toList = false := by
  by_cases hquote : t.markers = 0
  · rwa [hquote, hcode, show lineHead 0 false = [] from rfl, indentLines_nil,
      toList_trimNewlinesStart]
  · rcases hcs : s.toList with _ | ⟨c, cs⟩
    · rw [hcs] at h
      cases h
    · by_cases hc : c = '\n'
      · exact opensBlank_quoted (hc ▸ hcs) hquote
      · rw [hcs, List.dropWhile_cons_of_neg (by simpa [isNewlineChar] using hc), ← hcs] at h
        have hindent := (opensBlank_indentChars (lineHead t.markers t.inCode) s.toList).trans h
        rwa [toList_trimNewlinesStart, toList_indentLines, Text.dropWhile_of_ink hindent]

theorem isNewlinesOnly_of_dropWhile {s : String} (h : t.text? = some s)
    (hs : s.toList.dropWhile isNewlineChar ≠ []) : isNewlinesOnly t = false := by
  rw [Ne, List.dropWhile_eq_nil_iff] at hs
  by_contra hnewlines
  simp only [isNewlinesOnly, h, Option.any_some, Bool.not_eq_false, Bool.and_eq_true,
    List.all_eq_true] at hnewlines
  exact hs hnewlines.2

theorem ne_nil_of_ink {cs : List Char} (h : opensBlank cs = false) : cs ≠ [] := by
  rintro rfl
  cases h

theorem mem_dropWhile {cs : List Char} {c : Char} (hc : c ∈ cs) (hne : c ≠ '\n') :
    c ∈ cs.dropWhile isNewlineChar := by
  rw [← List.takeWhile_append_dropWhile (p := isNewlineChar) (l := cs), List.mem_append] at hc
  refine hc.resolve_left fun hmem => hne ?_
  simpa [isNewlineChar] using List.mem_takeWhile_imp hmem

theorem Token.tag?_mapText (t : Token) (f : String → String) : (t.mapText f).tag? = t.tag? := by
  obtain ⟨node, depth, inCode⟩ := t
  cases node with
  | markdown tag data | native edge raw => rfl
  | html raw =>
    unfold Token.mapText
    dsimp only
    split_ifs <;> rfl

structure Token.Lettered (t : Token) (s : String) : Prop where
  text : t.text? = some s
  raw : ∀ raw ∈ t.raw?, raw.kind = .characters
  plain : t.tagIs Tag.isWhitespace = false

namespace Token.Lettered

variable {s : String}

theorem of_markdown (h : t.node = .markdown tag data) (htag : tag.isWhitespace = false) :
    t.Lettered data where
  text := by simp [Token.text?, h]
  raw raw hraw := by simp [Token.raw?, h] at hraw
  plain := by simp [Token.tagIs, Token.tag?, h, htag]

theorem of_characters (h : t.node = .html (.characters s)) : t.Lettered s where
  text := by simp [Token.text?, h, Html.Token.characters, Html.Token.isTag]
  raw raw hraw := by
    simp only [Token.raw?, h, Option.mem_some_iff] at hraw
    exact hraw ▸ rfl
  plain := by simp [Token.tagIs, Token.tag?, h]

theorem mapText (h : t.Lettered s) (f : String → String) : (t.mapText f).Lettered (f s) where
  text := by rw [Token.text?_mapText, h.text, Option.map_some]
  raw raw hraw := by
    obtain ⟨node, depth, inCode⟩ := t
    have hkind := h.raw
    cases node with
    | markdown tag data => cases hraw
    | native edge raw' => exact hkind raw hraw
    | html raw' =>
      have hsame : raw.kind = raw'.kind := by
        simp only [Token.mapText] at hraw
        split_ifs at hraw <;> obtain rfl := Option.some.inj hraw <;> rfl
      exact hsame.trans (hkind raw' rfl)
  plain := by
    rw [Token.tagIs, Token.tag?_mapText]
    exact h.plain

theorem opensBlank_eq (h : t.Lettered s) : opensBlank (t.chars none) = opensBlank s.toList := by
  obtain ⟨node, depth, inCode⟩ := t
  have htext := h.text
  cases node with
  | markdown tag data =>
    obtain rfl : data = s := Option.some.inj htext
    exact opensBlank_markdown rfl none
  | native edge raw => cases htext
  | html raw =>
    have hkind : raw.kind = .characters := h.raw raw rfl
    have hcontent : raw.content = s := by
      simp only [Token.text?] at htext
      split_ifs at htext
      simp [Html.Token.content, htext]
    simp only [Token.chars, htmlChars, hkind, hcontent]
    exact Text.opensBlank_escapeQuoted _ _ _

theorem isPureSpace (h : t.Lettered s) : t.isPureSpace = false := by
  obtain ⟨node, depth, inCode⟩ := t
  cases node with
  | markdown tag data =>
    have hplain : tag.isWhitespace = false := h.plain
    cases tag <;> first | rfl | cases hplain
  | native edge raw => rfl
  | html raw =>
    have hkind : raw.kind = .characters := h.raw raw rfl
    simp [Token.isPureSpace, hkind]

theorem not_hard (h : t.Lettered s) : t.hasTag .newlineHard = false := by
  by_contra hhard
  have hplain := h.plain
  rw [Token.tagIs, Token.tag?_eq_of_hasTag ((Bool.not_eq_false _).mp hhard)] at hplain
  cases hplain

theorem not_leading (h : t.Lettered s) (hs : s.toList.dropWhile isNewlineChar ≠ []) :
    isLeadingSpace t = false := by
  rw [isLeadingSpace, h.isPureSpace, isNewlinesOnly_of_dropWhile h.text hs, Bool.or_self]

/-- Behind newlines, with which it may begin, something stands on a line of the text. -/
theorem begins (h : t.Lettered s) (hs : opensBlank (s.toList.dropWhile isNewlineChar) = false)
    (hcode : t.inCode = false) : isLeadingSpace (indentToken t) = false ∧
      ((indentToken t).mapText trimNewlinesStart).Begins := by
  have hindented := h.mapText (indentLines (lineHead t.markers t.inCode))
  have htrimmed := hindented.mapText trimNewlinesStart
  have hink := opensBlank_trimNewlinesStart hs hcode
  have hne := ne_nil_of_ink hink
  rw [toList_trimNewlinesStart] at hne
  exact ⟨hindented.not_leading hne,
    begins_of_ink htrimmed.isPureSpace (htrimmed.opensBlank_eq.trans hink) htrimmed.not_hard⟩

end Token.Lettered

/-- A rule may open blank. Then the line that shows comes later. -/
theorem begins_rule (h : t.node = .markdown .horizontalRule data)
    (hdata : Text.isBlank data = false) : isLeadingSpace (indentToken t) = false ∧
      ((indentToken t).mapText trimNewlinesStart).Begins := by
  have hindented : (indentToken t).node =
      .markdown .horizontalRule (indentLines (lineHead t.markers t.inCode) data) :=
    node_mapText h _
  have htrimmed := node_mapText hindented trimNewlinesStart
  obtain ⟨c, hc, hwhite⟩ : ∃ c ∈ data.toList, Text.isWhite c = false := by
    simpa [Text.isBlank] using hdata
  have hne : c ≠ '\n' := by
    rintro rfl
    cases hwhite
  have hmem : c ∈ (indentLines (lineHead t.markers t.inCode) data).toList := by
    rw [toList_indentLines, indentChars, List.mem_flatMap]
    exact ⟨c, hc, by simp [hne]⟩
  have hkept := mem_dropWhile hmem hne
  have hlettered : (indentToken t).Lettered _ := .of_markdown hindented rfl
  refine ⟨hlettered.not_leading (List.ne_nil_of_mem hkept),
    (hlettered.mapText trimNewlinesStart).isPureSpace, ?_, ?_⟩
  · simp [Token.BeginsBlank, Token.hasTag, Token.tag?, htrimmed]
  · intro hbegins
    have hopens : opensBlank (((indentToken t).mapText trimNewlinesStart).chars none) = true := by
      simpa [Token.BeginsBlank, Token.hasTag, Token.tag?, htrimmed] using hbegins
    rw [chars_of_node htrimmed (by decide), toList_trimNewlinesStart] at hopens ⊢
    exact ⟨Text.newline_mem_of_opensBlank hopens hkept hwhite, c, hkept, hne⟩

theorem begins_tag {raw : Html.Token} (h : t.node = .html raw) (hraw : raw.isTag = true) :
    isLeadingSpace (indentToken t) = false ∧
      ((indentToken t).mapText trimNewlinesStart).Begins := by
  have htext : t.text? = none := by simp [Token.text?, h, hraw]
  have hsame (f : String → String) : t.mapText f = t :=
    mapText_eq_self fun s hs => by simp [htext] at hs
  have hpure : t.isPureSpace = false := by
    rcases Html.Token.isTag_iff.mp hraw with hk | hk | hk <;> simp [Token.isPureSpace, h, hk]
  rw [indentToken, hsame, hsame]
  exact ⟨by simp [isLeadingSpace, hpure, isNewlinesOnly, htext],
    begins_of_ink hpure (opensBlank_tag h hraw) (by simp [Token.hasTag, Token.tag?, h])⟩

/-- A firm token is no leading space, and where it stands first, only a rule may open blank. -/
theorem Token.Firm.begins (h : t.Firm) : isLeadingSpace (indentToken t) = false ∧
    ((indentToken t).mapText trimNewlinesStart).Begins := by
  cases h with
  | @markdown tag data htag hdata hl =>
    have hplain : tag.isWhitespace = false := by
      rcases htag with htag | rfl | rfl | rfl
      · cases tag <;> first | rfl | cases htag
      all_goals rfl
    exact (Token.Lettered.of_markdown hl.1 hplain).begins hdata hl.2
  | rule hdata hl => exact begins_rule hl.1 hdata
  | tag hraw hl => exact begins_tag hl.1 hraw
  | text hs hl => exact (Token.Lettered.of_characters hl.1).begins hs hl.2

/-- Newlines that are not dropped stand in a quote. -/
theorem begins_newline {cs : List Char} (h : t.node = .markdown tag data)
    (hdata : data.toList = '\n' :: cs) (hcs : ∀ c ∈ cs, c = '\n')
    (htag : tag ≠ .space ∧ tag ≠ .tab ∧ tag ≠ .newlineHard) (hcode : t.inCode = false)
    (hleading : isLeadingSpace (indentToken t) = false) :
    ((indentToken t).mapText trimNewlinesStart).Begins := by
  have htrimmed := node_mapText (node_mapText h (indentLines (lineHead t.markers t.inCode)))
    trimNewlinesStart
  have hquote : t.markers ≠ 0 := by
    -- without a marker the token is newlines only, which are dropped
    intro hzero
    have hplain : indentToken t = t := indentToken_of_lineHead (by rw [hzero, hcode]; rfl)
    have hnewlines : isNewlinesOnly t = true := by
      have hne : data ≠ "" := by
        rintro rfl
        cases hdata
      simpa [isNewlinesOnly, Token.text?, h, hdata, hne, isNewlineChar] using hcs
    rw [hplain, isLeadingSpace, hnewlines, Bool.or_true] at hleading
    cases hleading
  refine begins_of_ink (by simp [Token.isPureSpace, indentToken, htrimmed, htag]) ?_
    (by simp [Token.hasTag, Token.tag?, indentToken, htrimmed, htag])
  exact (opensBlank_markdown htrimmed none).trans (opensBlank_quoted hdata hquote)

/-- White space that is not dropped opens blank only as a hard newline. -/
theorem Token.White.begins (h : t.White) (hleading : isLeadingSpace (indentToken t) = false) :
    ((indentToken t).mapText trimNewlinesStart).Begins := by
  obtain ⟨u, hu, hl⟩ := id h
  simp only [List.mem_cons, List.not_mem_nil, or_false] at hu
  rcases hu with rfl | rfl | rfl | rfl
  · have hindented := node_mapText hl.1 (indentLines (lineHead t.markers t.inCode))
    simp [isLeadingSpace, Token.isPureSpace, indentToken, hindented] at hleading
  · exact begins_newline hl.1 rfl (by simp) (by decide) h.inCode hleading
  · have htrimmed := node_mapText
      (node_mapText hl.1 (indentLines (lineHead t.markers t.inCode))) trimNewlinesStart
    have hchars : ((indentToken t).mapText trimNewlinesStart).chars none =
        ' ' :: ' ' :: '\n' :: lineHead t.markers t.inCode := by
      rw [indentToken, chars_of_node htrimmed (by decide), toList_trimNewlinesStart,
        toList_indentLines]
      simp [indentChars, isNewlineChar]
    have hhard : ((indentToken t).mapText trimNewlinesStart).BeginsBlank :=
      .inl (by simp [Token.hasTag, Token.tag?, indentToken, htrimmed])
    refine ⟨by simp [Token.isPureSpace, indentToken, htrimmed], ?_, fun _ => ?_⟩
    · refine iff_of_true ?_ hhard
      rw [hchars]
      rfl
    · rw [hchars]
      exact ⟨by simp, ' ', by simp, by decide⟩
  · have hdata : ("\n\n" : String).toList = '\n' :: ['\n'] := rfl
    exact begins_newline hl.1 hdata (by simp) (by decide) h.inCode hleading

/-- Behind the white space that is dropped, a stream ends or begins with what trimming leaves. -/
theorem Leads.trimStart (h : Leads Token.White ts) : trimStart (indentAll ts) = [] ∨
    ∃ first rest, trimStart (indentAll ts) = first :: rest ∧ first.Begins := by
  induction h with
  | nil => exact .inl rfl
  | @skip t ts ht _ ih =>
    rw [indentAll, List.map_cons]
    cases hleading : isLeadingSpace (indentToken t) with
    | true =>
      rwa [Markdown.trimStart, List.dropWhile_cons_of_pos hleading]
    | false => exact .inr ⟨_, _, trimStart_cons hleading _, ht.begins hleading⟩
  | firm ht ts =>
    obtain ⟨hleading, hbegins⟩ := ht.begins
    exact .inr ⟨_, _, trimStart_cons hleading _, hbegins⟩

/-- A first token that is no space stays, without the newlines at its end where it is the last. -/
theorem trimEnd_cons (h : t.isPureSpace = false) (ts : List Token) :
    ∃ first rest, trimEnd (t :: ts) = first :: rest ∧
      (first = t ∨ rest = [] ∧ first = t.mapText trimNewlinesEnd) := by
  unfold trimEnd
  rw [List.reverse_cons, List.dropWhile_append, List.dropWhile_cons_of_neg (by simp [h])]
  cases ts.reverse.dropWhile (·.isPureSpace) with
  | nil =>
    by_cases hspacing : t.isSpacing = true
    · exact ⟨t, [], by simp [hspacing], .inl rfl⟩
    · exact ⟨_, [], by simp [hspacing], .inr ⟨rfl, rfl⟩⟩
  | cons last earlier =>
    have heq (last : Token) :
        (last :: (earlier ++ [t])).reverse = t :: (last :: earlier).reverse := by simp
    exact ⟨t, _, heq _, .inl rfl⟩

theorem Token.BeginsBlank.exists_node (h : t.BeginsBlank) :
    ∃ tag data, t.node = .markdown tag data ∧ tag.renderKind ≠ .text := by
  obtain ⟨node, depth, inCode⟩ := t
  cases node with
  | markdown tag data =>
    refine ⟨tag, data, rfl, ?_⟩
    intro hkind
    cases tag <;> cases hkind
    rcases h with h | ⟨h, -⟩ <;> cases h
  | native edge raw => cases edge <;> rcases h with h | ⟨h, -⟩ <;> cases h
  | html raw => rcases h with h | ⟨h, -⟩ <;> cases h

/-- The text of a trimmed stream opens as its first token does. -/
theorem Token.Begins.opensBlank_trimEnd (h : t.Begins) (ts : List Token) :
    (renderChars none (trimEnd (t :: ts)) = [] ∨
      opensBlank (renderChars none (trimEnd (t :: ts))) = false) ↔ ¬t.BeginsBlank := by
  obtain ⟨first, rest, heq, hfirst⟩ := trimEnd_cons h.pure ts
  have hopens : opensBlank (first.chars none) = opensBlank (t.chars none) := by
    rcases hfirst with rfl | ⟨-, rfl⟩
    · rfl
    · exact opensBlank_trimNewlinesEnd t
  rw [heq, renderChars]
  cases hblank : opensBlank (t.chars none) with
  | false =>
    refine iff_of_true (.inr (Text.opensBlank_append (hopens.trans hblank) _)) fun hbegins => ?_
    exact Bool.false_ne_true (hblank.symm.trans (h.blank.mpr hbegins))
  | true =>
    have hbegins := h.blank.mp hblank
    obtain ⟨hline, c, hc, hne⟩ := h.line hbegins
    refine iff_of_false ?_ (not_not_intro hbegins)
    rcases hfirst with rfl | ⟨rfl, rfl⟩
    · -- the first line has an end, so what follows is not on it
      rw [Text.opensBlank_append_of_mem hline, hblank]
      simp [List.ne_nil_of_mem hc]
    · obtain ⟨tag, data, hnode, hkind⟩ := hbegins.exists_node
      rw [chars_of_node hnode hkind] at hc
      have hkept : ((t.mapText trimNewlinesEnd).chars none) ≠ [] := by
        rw [chars_of_node (node_mapText hnode _) hkind, trimNewlinesEnd, String.toList_ofList,
          Text.dropTail, Ne, List.reverse_eq_nil_iff, List.dropWhile_eq_nil_iff]
        intro hall
        exact hne (by simpa [isNewlineChar] using hall c (List.mem_reverse.mpr hc))
      rw [renderChars, List.append_nil, hopens, hblank]
      simp [hkept]

/-- Nothing blank leads the text of a layout unless the stream leads with it. -/
theorem opensBlank_layout (h : Leads Token.Idle ts) :
    (renderChars none (layout ts) = [] ∨ opensBlank (renderChars none (layout ts)) = false) ↔
      ¬LeadsBlank (indented (space ts)) := by
  have hlayout : layout ts = trimEnd (trimStart (indented (space ts))) := rfl
  rw [hlayout, LeadsBlank]
  rcases (leads_space h).layRules.trimStart with hempty | ⟨first, rest, heq, hbegins⟩
  · rw [show trimStart (indented (space ts)) = [] from hempty]
    exact iff_of_true (.inl rfl) (by simp)
  · rw [show trimStart (indented (space ts)) = first :: rest from heq,
      hbegins.opensBlank_trimEnd rest]
    simp

end Markdown

namespace Converter

/-- Without code, scripts and comments, a converter always makes a text of a forest. The text is
empty or something stands on its first line, unless the laid out stream, behind leading space,
begins with a hard newline or with a rule of which the first line is blank. -/
theorem opensBlank_iff_leadsBlank (o : Options) (f : Html.Forest)
    (hf : ∀ t ∈ f.tokens, Html.isSensitive t.tagName = false ∧ t.kind ≠ .comment) :
    ∃ ts text, Conversion.convert o.sanitized f.tokens = .ok ts ∧
      (ofOptions o).render f.tokens = .ok text ∧
      ((text = "" ∨ Text.opensBlank text.toList = false) ↔
        ¬Markdown.LeadsBlank (Markdown.indented (Markdown.space ts))) := by
  obtain ⟨ts, hts, hleads⟩ := Conversion.exists_convert_leads o.valid_sanitized hf
  refine ⟨ts, _, hts, render_of_adapt (adapt_of_convert hts), ?_⟩
  rw [← String.toList_eq_nil_iff, Markdown.render, String.toList_ofList]
  exact Markdown.opensBlank_layout hleads

/-- The newline of the quote leads and shows its marker, and the newline in front of the heading is
gone. -/
theorem not_leadsBlank_quoted_heading :
    let f : Html.Forest := .text "\n" <| .element "blockquote" ∅
      (.text " " <| .element "h2" ∅ (.text "x" .nil) .nil) .nil
    (∀ t ∈ f.tokens, Html.isSensitive t.tagName = false ∧ t.kind ≠ .comment) ∧
      ∃ ts text, Conversion.convert ({} : Options).sanitized f.tokens = .ok ts ∧
        (ofOptions {}).render f.tokens = .ok text ∧ text = "> ## x\n\n" ∧
        ¬Markdown.LeadsBlank (Markdown.indented (Markdown.space ts)) := by
  intro f
  have hf : ∀ t ∈ f.tokens, Html.isSensitive t.tagName = false ∧ t.kind ≠ .comment := by
    decide +kernel
  have hvalue : (ofOptions {}).render f.tokens = .ok "> ## x\n\n" := by decide +kernel
  obtain ⟨ts, text, hts, htext, hiff⟩ := opensBlank_iff_leadsBlank {} f hf
  obtain rfl : text = "> ## x\n\n" := Except.ok.inj (htext.symm.trans hvalue)
  exact ⟨hf, ts, _, hts, htext, rfl, hiff.mp (.inr (by decide +kernel))⟩

/-- A line break in front of a text, and a rule of two lines of which the second one shows. -/
theorem opensBlank_behind_break :
    let f : Html.Forest := .element "br" ∅ .nil (.text "x" .nil)
    let g : Html.Forest := .element "hr" ∅ .nil (.text "x" .nil)
    let o : Options := { rule := " \n---" }
    (∀ t ∈ f.tokens ++ g.tokens, Html.isSensitive t.tagName = false ∧ t.kind ≠ .comment) ∧
      (ofOptions {}).render f.tokens = .ok "  \nx" ∧
      Text.opensBlank "  \nx".toList = true ∧ o.sanitized.rule = o.rule ∧
      (ofOptions o).render g.tokens = .ok " \n---\nx" ∧
      Text.opensBlank " \n---\nx".toList = true := by
  decide +kernel

end Converter

end HtmlMarkdown
