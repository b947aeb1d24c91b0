import HtmlMarkdown.Proofs.LineHeads
import HtmlMarkdown.Proofs.Preformatted
import Mathlib.Data.List.TakeWhile

/-!
# Blocks of code

A text in a code element in a `<pre>` is written as it stands, on lines of its own. The head of the
lines stands at the begin and behind every newline, so the text is read back line by line with its
indentation and its blank lines. Only the space at its ends is not all kept: one newline or two at
the begin are the line end behind the tags, and space at the end is dropped.
-/

namespace HtmlMarkdown

open Markdown (Token Tag indented indentChars indentToken lineHead renderChars)

def Html.Forest.inQuotes (quotes : List Html.Attributes) (f : Html.Forest) : Html.Forest :=
  quotes.foldr (fun attributes f => .element "blockquote" attributes f .nil) f

theorem Html.Forest.tokens_inQuotes (quotes : List Html.Attributes) (f : Html.Forest) :
    (f.inQuotes quotes).tokens = quotes.map (.startTag "blockquote") ++ f.tokens ++
      List.replicate quotes.length (.endTag "blockquote") := by
  have hv : Html.isVoid "blockquote" = false := by decide
  induction quotes with
  | nil => simp [inQuotes]
  | cons attributes quotes ih =>
    have hstep : (f.inQuotes (attributes :: quotes)).tokens =
        .startTag "blockquote" attributes ::
          ((f.inQuotes quotes).tokens ++ [.endTag "blockquote"]) := by
      simp [inQuotes, tokens, hv]
    rw [hstep, ih, List.length_cons, List.replicate_succ']
    simp

namespace Text

/-- What is kept of the space that a text of code begins with: all of it, or nothing where it is
one newline or two. -/
def codeLead (s : String) : List Char :=
  let lead := s.toList.takeWhile isHtmlSpace
  if lead = ['\n'] ∨ lead = ['\n', '\n'] then [] else lead

def codeBlock (depth : Nat) (s : String) : String :=
  String.ofList (lineHead depth true ++ indentChars (lineHead depth true)
    (codeLead s ++ (middle s.toList).flatMap escapeChar) ++ ['\n', '\n'])

end Text

open Text (codeLead middle isHtmlSpace)

variable {s : String} {depth : Nat} {o : Options}

def keptCode (s : String) : List Html.Token :=
  Html.spaceTokens (codeLead s) ++ [.characters (String.ofList (middle s.toList))]

theorem Html.textTokens_eq (hs : ∃ c ∈ s.toList, isHtmlSpace c = false) :
    Html.textTokens s = Html.spaceTokens (s.toList.takeWhile isHtmlSpace) ++
      .characters (String.ofList (middle s.toList)) ::
        Html.spaceTokens (Text.takeTail isHtmlSpace (s.toList.dropWhile isHtmlSpace)) := by
  have hne : s.toList.dropWhile isHtmlSpace ≠ [] := by
    simpa [List.dropWhile_eq_nil_iff] using hs
  rw [Html.textTokens, if_neg hne, middle]

namespace Markdown

def rawText (s : String) : List Token := (Html.textTokens s).map .html

theorem tag?_of_mem_rawText : ∀ t ∈ rawText s, t.tag? = none := by
  intro t ht
  obtain ⟨raw, -, rfl⟩ := List.mem_map.mp ht
  rfl

theorem isRawNewlines_spaceCharacters (cs : List Char) :
    (Token.html (.spaceCharacters (String.ofList cs))).isRawNewlines =
      decide (cs = ['\n'] ∨ cs = ['\n', '\n']) := by
  have htwo (ds : List Char) : (String.ofList cs == String.ofList ds) = decide (cs = ds) := by
    rw [Bool.eq_iff_iff, beq_iff_eq, decide_eq_true_iff, String.ofList_inj]
  exact (congrArg₂ or (htwo ['\n']) (htwo ['\n', '\n'])).trans (Bool.decide_or _ _).symm

/-- The text of a block of code loses its first space where that is one newline or two. -/
theorem unskipped_textTokens (hs : ∃ c ∈ s.toList, isHtmlSpace c = false) :
    unskipped (rawText s) = (keptCode s ++
      Html.spaceTokens (Text.takeTail isHtmlSpace (s.toList.dropWhile isHtmlSpace))).map .html := by
  rw [rawText, Html.textTokens_eq hs, keptCode, codeLead]
  by_cases hlead : s.toList.takeWhile isHtmlSpace = []
  · rw [hlead]
    rfl
  · have htokens : Html.spaceTokens (s.toList.takeWhile isHtmlSpace) =
        [.spaceCharacters (String.ofList (s.toList.takeWhile isHtmlSpace))] := if_neg hlead
    rw [htokens, unskipped]
    simp only [List.singleton_append, List.map_cons, List.head?_cons, Option.any_some,
      isRawNewlines_spaceCharacters, decide_eq_true_eq, List.tail_cons]
    split_ifs
    · rfl
    · rw [htokens]
      rfl

theorem isCodeSpace_inCodeBlock (raw : Html.Token) :
    Spacer.isCodeSpace ((Token.html raw).within (some depth)).inCodeBlock =
      (raw.kind == .spaceCharacters) := by
  have hnode : ((Token.html raw).within (some depth)).inCodeBlock.node = .html raw :=
    Token.node_within _ _
  unfold Spacer.isCodeSpace Token.raw?
  rw [hnode]
  rfl

def codeTokens (depth : Nat) (ts : List Html.Token) : List Token :=
  (stamped depth (ts.map Token.html)).map Token.inCodeBlock

theorem codeTokens_nil (depth : Nat) : codeTokens depth [] = [] := rfl

theorem codeTokens_cons (depth : Nat) (raw : Html.Token) (raws : List Html.Token) :
    codeTokens depth (raw :: raws) =
      ((Token.html raw).within (some depth)).inCodeBlock :: codeTokens depth raws := rfl

theorem codeTokens_append (depth : Nat) (ts us : List Html.Token) :
    codeTokens depth (ts ++ us) = codeTokens depth ts ++ codeTokens depth us := by
  simp [codeTokens, stamped]

/-- The kept code ends with the middle of the text. -/
theorem reverse_keptCode (depth : Nat) (s : String) :
    (codeTokens depth (keptCode s)).reverse =
      ((Token.html (.characters (String.ofList (middle s.toList)))).within
        (some depth)).inCodeBlock ::
          (codeTokens depth (Html.spaceTokens (codeLead s))).reverse := by
  rw [keptCode, codeTokens_append, List.reverse_append]
  rfl

/-- A text of code as a block: its kept tokens on a line of their own. -/
theorem spacedCode_text (hs : ∃ c ∈ s.toList, isHtmlSpace c = false) (depth : Nat)
    (opening closing : Html.Token) (out : List Token) :
    spacedCode depth opening closing [] (rawText s) [] out =
      (codeTokens depth (keptCode s)).reverse ++ Spacer.codeLine (quoteLevel depth) out := by
  have htrail (cs : List Char) :
      ∀ t ∈ (codeTokens depth (Html.spaceTokens cs)).reverse, Spacer.isCodeSpace t = true := by
    intro t ht
    unfold Html.spaceTokens at ht
    split_ifs at ht with hcs
    · exact absurd ht List.not_mem_nil
    · obtain rfl := List.mem_singleton.mp ht
      exact isCodeSpace_inCodeBlock _
  have hkept : (codeTokens depth (keptCode s)).reverse.dropWhile Spacer.isCodeSpace =
      (codeTokens depth (keptCode s)).reverse := by
    have hlast (text : String) : Spacer.isCodeSpace
        ((Token.html (.characters text)).within (some depth)).inCodeBlock ≠ true := by
      rw [isCodeSpace_inCodeBlock]
      exact Bool.false_ne_true
    rw [reverse_keptCode]
    exact List.dropWhile_cons_of_neg (hlast _)
  rw [spacedCode, if_pos ⟨rfl, rfl⟩, blockCode, unskipped_textTokens hs]
  change (codeTokens depth (_ ++ _)).reverse.dropWhile _ ++ _ = _
  rw [codeTokens_append, List.reverse_append, List.dropWhile_append_of_pos (htrail _), hkept]

def codeStream (depth : Nat) (s : String) : List Token :=
  Token.newline.inCodeBlock.within (some depth) ::
    (codeTokens depth (keptCode s) ++ [.newlineBlank])

variable {opening closing : Html.Token}

theorem getLast?_nativeCode (opening closing : Html.Token) (lead ts trail : List Token) :
    (nativeCode opening closing lead ts trail).getLast? = some (.native .closing closing) := by
  have hends : nativeCode opening closing lead ts trail = .startBlock :: .native .opening opening ::
      (lead ++ .startCode :: (ts ++ .endCode :: trail)) ++ [.native .closing closing] := by
    simp [nativeCode]
  rw [hends, List.getLast?_concat]

/-- The kept code ends in no white space and in no rule. -/
theorem keptCode_behind (depth : Nat) (s : String) (out : List Token) :
    Solid ((codeTokens depth (keptCode s)).reverse ++ out) ∧
      (codeTokens depth (keptCode s)).reverse ++ out ≠ [] ∧
      isFresh ((codeTokens depth (keptCode s)).reverse ++ out) = false := by
  have htag (text : String) :
      ((Token.html (.characters text)).within (some depth)).inCodeBlock.tag? = none :=
    Token.tag?_within (.html (.characters text)) (some depth)
  rw [reverse_keptCode, List.cons_append]
  refine ⟨?_, List.cons_ne_nil _ _, ?_⟩
  · intro t ht
    obtain rfl := Option.some.inj ht
    simp [Token.tagIs, htag]
  · simp [isFresh, endsInRule, Token.hasTag, htag]

theorem space_quotedCode (hs : ∃ c ∈ s.toList, isHtmlSpace c = false)
    (hopening : opening.name = some "pre") (hclosing : closing.name = some "pre") (depth : Nat) :
    space (quoteOpenings 0 depth ++
        (stamped depth (nativeCode opening closing [] (rawText s) []) ++
          (stamped depth [.endBlock] ++ quoteClosings depth))) = codeStream depth s := by
  have hopens : (stamped depth (nativeCode opening closing [] (rawText s) []) ++
      (stamped depth [.endBlock] ++ quoteClosings depth)).head?.any (·.tagIs Tag.isBlockStart) =
        true := Spacer.any_head?_within .startBlock (some depth) _ Tag.isBlockStart
  obtain ⟨before, hrun⟩ := @Spacer.run_openings [] _ depth 0 none hopens
  have hlast : (stamped depth (nativeCode opening closing [] (rawText s) [])).getLast? =
        some ((Token.native .closing closing).within (some depth)) := by
    rw [stamped, List.getLast?_map, getLast?_nativeCode]
    rfl
  have hempty : Solid [] := by simp [Solid]
  have hcode : spacedCode depth opening closing [] (rawText s) []
      (settle 2 (quoteLevel depth) (settle 2 (quoteLevel depth) [])) =
        (codeTokens depth (keptCode s)).reverse ++
          [Token.newline.inCodeBlock.within (some depth)] := by
    rw [settle_settle hempty, spacedCode_text hs, Spacer.codeLine_settle_two hempty]
    rfl
  obtain ⟨hsolid, hne, hfresh⟩ :=
    keptCode_behind depth s [Token.newline.inCodeBlock.within (some depth)]
  have hlastRule : ((Token.native .closing closing).within (some depth)).tagIs Tag.closesItsLine =
      isFresh ((codeTokens depth (keptCode s)).reverse ++
        [Token.newline.inCodeBlock.within (some depth)]) :=
    (Token.tagIs_within _ _ _).trans hfresh.symm
  have hend : (Spacer.behind _).run _ (stamped depth (.endBlock :: gapStream none) ++
      quoteClosings depth) = _ := Spacer.run_end none hsolid hne hlastRule hfresh
  change ((Spacer.behind []).run none _).output.reverse = _
  rw [hrun, Spacer.run_append, Spacer.advance_nativeCode hopening hclosing (by simp)
    tag?_of_mem_rawText (by simp), hcode, hlast, Option.some_or]
  refine (congrArg (fun s : Spacer => s.output.reverse) hend).trans ?_
  simp [Spacer.behind, codeStream]

/-- A token of code text on its lines. -/
theorem renderChars_codeToken {raw : Html.Token} {own : List Char}
    (hkind : raw.kind = .characters ∨ raw.kind = .spaceCharacters)
    (hown : htmlChars 0 none raw = own) (depth : Nat) (us : List Token) :
    renderChars none (indented (((Token.html raw).within (some depth)).inCodeBlock :: us)) =
      indentChars (lineHead depth true) own ++ renderChars none (indented us) := by
  let t := ((Token.html raw).within (some depth)).inCodeBlock
  have hnode : t.node = .html raw := Token.node_within _ _
  have htag : t.hasTag .horizontalRule = false := by simp [Token.hasTag, Token.tag?, hnode]
  have hedge : t.TagAtEdge := by
    intro edge raw' h
    rw [hnode] at h
    cases h
  have hmarkup : t.isMarkup = false := by
    unfold Token.isMarkup Token.raw?
    rw [hnode]
    rcases hkind with hk | hk <;> simp [Html.Token.isTag, hk]
  have hmarkers : t.markers = depth := markers_within (t := Token.html raw) rfl depth
  have hchars : t.ownChars none = own := by
    unfold Token.ownChars Token.chars
    rw [hnode]
    exact hown
  have hafter : t.rawTextAfter none = none := by
    unfold Token.rawTextAfter Token.raw?
    rw [hnode]
    unfold rawTextAfter
    rcases hkind with hk | hk <;> simp [hk]
  change renderChars none (indented (t :: us)) = _
  rw [indented_cons htag, renderChars, Token.chars_indentToken none hedge,
    Token.rawTextAfter_indentToken, hafter, Token.headedChars, hmarkup, if_neg Bool.false_ne_true,
    hchars, hmarkers]
  rfl

theorem renderChars_keptCode (s : String) (depth : Nat) (us : List Token) :
    renderChars none (indented (codeTokens depth (keptCode s) ++ us)) =
      indentChars (lineHead depth true) (codeLead s ++ (middle s.toList).flatMap Text.escapeChar) ++
        renderChars none (indented us) := by
  have hmiddle : htmlChars 0 none (.characters (String.ofList (middle s.toList))) =
      (middle s.toList).flatMap Text.escapeChar := by
    change Text.escapeQuoted 0 0 (String.ofList (middle s.toList)).toList = _
    rw [Text.escapeQuoted_zero rfl, String.toList_ofList]
  have htext : renderChars none (indented (codeTokens depth
      [.characters (String.ofList (middle s.toList))] ++ us)) =
        indentChars (lineHead depth true) ((middle s.toList).flatMap Text.escapeChar) ++
          renderChars none (indented us) := by
    rw [codeTokens_cons, List.cons_append, renderChars_codeToken (.inl rfl) hmiddle, codeTokens_nil,
      List.nil_append]
  rw [keptCode, codeTokens_append, List.append_assoc, Token.indentChars_append, List.append_assoc,
    ← htext, Html.spaceTokens]
  split_ifs with hlead
  · have hempty : indentChars (lineHead depth true) [] = [] := rfl
    rw [hlead, codeTokens_nil, hempty, List.nil_append, List.nil_append]
  · have hspace : htmlChars 0 none (.spaceCharacters (String.ofList (codeLead s))) = codeLead s :=
      String.toList_ofList
    rw [codeTokens_cons, List.cons_append, renderChars_codeToken (.inr rfl) hspace, codeTokens_nil,
      List.nil_append]

/-- The line end that a block of code begins with is trimmed, and nothing else. -/
theorem renderChars_codeStream (depth : Nat) (s : String) :
    renderChars none (trim (indented (codeStream depth s))) = lineHead depth true ++
      indentChars (lineHead depth true) (codeLead s ++ (middle s.toList).flatMap Text.escapeChar) ++
        ['\n', '\n'] := by
  let first := Token.newline.inCodeBlock.within (some depth)
  have hhead : lineHead depth true ≠ [] := by simp [lineHead]
  obtain ⟨c, cs, hcs⟩ := List.exists_cons_of_ne_nil hhead
  have hnode : (indentToken first).node =
      .markdown .newline (indentLines (lineHead first.markers first.inCode) "\n") :=
    node_mapText (Token.node_within _ _) _
  have hdata : (indentLines (lineHead first.markers first.inCode) "\n").toList =
      '\n' :: c :: cs := by
    have hmarkers : first.markers = depth := markers_within rfl depth
    have hcode : first.inCode = true := Token.inCode_within _ _
    rw [hmarkers, hcode, toList_indentLines, toList_newline, indentChars_newline, hcs]
    simp [indentChars]
  have hnewline : '\n' ∉ c :: cs := hcs ▸ not_mem_lineHead (by decide) depth true
  obtain ⟨hstart, hchars⟩ := renderChars_trimStart_of_cons hnode (by decide)
    (by simp [Token.isPureSpace, hnode]) hdata hnewline
    (indented (codeTokens depth (keptCode s) ++ [.newlineBlank]))
  have hlast : indented [Token.newlineBlank] = [.newlineBlank] := by decide
  have hstream : indented (codeStream depth s) =
      indentToken first :: indented (codeTokens depth (keptCode s) ++ [.newlineBlank]) :=
    indented_cons (Token.hasTag_within _ _ _) _
  have htrim : trim (indented (codeStream depth s)) =
      trimStart (indented (codeStream depth s)) := by
    rw [trim, hstream, hstart, indented_append, hlast, ← List.cons_append, trimEnd_concat]
  rw [htrim, hstream, hstart, hchars, renderChars_keptCode, hlast, hcs, List.append_assoc]
  rfl

end Markdown

namespace Conversion

open Html (Forest)

theorem verbatim_textTokens (s : String) :
    (Html.textTokens s).map verbatim = Markdown.rawText s := by
  refine List.map_congr_left fun t ht => ?_
  unfold verbatim
  rcases Html.kind_of_mem_textTokens ht with hk | hk <;> rw [hk]

/-- Texts in a code element and beside it are converted token by token. -/
theorem preStream_texts (o : Options) (attributes inner : Html.Attributes)
    (lead code trail : String) :
    preStream o attributes true ((Html.textTokens lead ++ .startTag "code" inner ::
        (Html.textTokens code ++ .endTag "code" :: Html.textTokens trail)).map verbatim) =
      Markdown.nativeCode (o.clean (.startTag "pre" attributes)) (o.clean (.endTag "pre"))
        (Markdown.rawText lead) (Markdown.rawText code) (Markdown.rawText trail) ++
          [.endBlock] := by
  have hstart : verbatim (.startTag "code" inner) = .startCode := rfl
  have hend : verbatim (.endTag "code") = .endCode := rfl
  simp only [List.map_append, List.map_cons, verbatim_textTokens, hstart, hend]
  simp [preStream, Markdown.nativeCode]

theorem convert_quotedCode (o : Options) (quotes : List Html.Attributes)
    (attributes inner : Html.Attributes) (s : String) :
    convert o ((Forest.element "pre" attributes (.element "code" inner (.text s .nil) .nil)
        .nil).inQuotes quotes).tokens =
      .ok (quoteOpenings 0 quotes.length ++ (stamped quotes.length
        (Markdown.nativeCode (o.clean (.startTag "pre" attributes)) (o.clean (.endTag "pre")) []
          (Markdown.rawText s) []) ++
            (stamped quotes.length [.endBlock] ++ quoteClosings quotes.length))) := by
  let code := Forest.element "code" inner (.text s .nil) .nil
  let pre := Forest.element "pre" attributes code .nil
  have hpre (rest : List Html.Token) (s' : State) (h : s'.context = .quoted quotes.length) :
      Produces o rest s' pre.tokens (stamped quotes.length
        (preStream o attributes true (code.tokens.map verbatim))) (.quoted quotes.length) :=
    produces_pre h (region_quoted o _) (by simp [code, tokens_code]) (nextAcrossSpace_code inner _)
      (.inl rfl)
  have hopenings : Produces o
      (pre.tokens ++ (List.replicate quotes.length (.endTag "blockquote") ++ [])) {}
      (quotes.map (.startTag "blockquote")) (quoteOpenings 0 quotes.length)
      (.quoted (0 + quotes.length)) :=
    produces_openings quotes (by simp [pre, tokens_pre, Html.Token.startTag]) rfl
  rw [Nat.zero_add] at hopenings
  have hclosed : ∀ t ∈ (quotes.map (Html.Token.startTag "blockquote") ++ pre.tokens).getLast?,
      t.kind ≠ .startTag := by
    rw [tokens_pre, ← List.cons_append, ← List.append_assoc, List.getLast?_concat]
    rintro t ht
    obtain rfl := Option.some.inj ht
    simp [Html.Token.endTag]
  have hall : Produces o [] {} (pre.inQuotes quotes).tokens
      (quoteOpenings 0 quotes.length ++ stamped quotes.length
        (preStream o attributes true (code.tokens.map verbatim)) ++
          quoteClosings quotes.length) (.quoted 0) := by
    rw [Forest.tokens_inQuotes]
    refine (hopenings.append fun s' hs' _ _ => hpre _ s' hs').append fun s' hs' _ hbefore => ?_
    refine produces_closings hs' ?_
    rw [hbefore, Option.or_none]
    exact hclosed
  obtain ⟨s', hs', hcontext, hemitted⟩ := hall
  have hreferences : s'.context.references.isEmpty = true := by
    rw [hcontext]
    rfl
  have hcode : code.tokens = Html.textTokens "" ++ .startTag "code" inner ::
      (Html.textTokens s ++ .endTag "code" :: Html.textTokens "") := by
    have hempty : Html.textTokens "" = [] := rfl
    rw [tokens_code, Forest.tokens, Forest.tokens, hempty, List.append_nil, List.nil_append]
  have hempty : Markdown.rawText "" = [] := rfl
  rw [hs'.convert_eq, State.finished, if_pos hreferences, hemitted, hcode, preStream_texts, hempty,
    stamped_append]
  simp

end Conversion

namespace Converter

/-- A text of code in quotes is written on lines of its own, behind the markers of the quotes and
four spaces: as it stands, but for a line end at its begin and the space at its end. -/
theorem render_codeBlock (o : Options) (quotes : List Html.Attributes)
    (attributes inner : Html.Attributes) (hs : ∃ c ∈ s.toList, isHtmlSpace c = false) :
    (ofOptions o).render ((Html.Forest.element "pre" attributes
        (.element "code" inner (.text s .nil) .nil) .nil).inQuotes quotes).tokens =
      .ok (Text.codeBlock quotes.length s) := by
  have hconvert := Conversion.convert_quotedCode o.sanitized quotes attributes inner s
  have hrender := render_of_adapt (adapt_of_convert hconvert)
  rw [hrender, Markdown.layout, Markdown.space_quotedCode hs rfl rfl]
  exact congrArg (fun cs => Except.ok (String.ofList cs))
    (Markdown.renderChars_codeStream quotes.length s)

/-- Two quotes around indented code with a blank line and with text that looks like a marker. -/
theorem render_codeBlock_in_two_quotes :
    let s := "  a\n\n> b < c \n"
    (∃ c ∈ s.toList, isHtmlSpace c = false) ∧
      (ofOptions {}).render ((Html.Forest.element "pre" ∅
        (.element "code" ∅ (.text s .nil) .nil) .nil).inQuotes [∅, ∅]).tokens =
        .ok "> >       a\n> >     \n> >     &gt; b &lt; c\n\n" := by
  intro s
  have hs : ∃ c ∈ s.toList, isHtmlSpace c = false := ⟨'a', by decide, by decide⟩
  have htext : Text.codeBlock 2 s = "> >       a\n> >     \n> >     &gt; b &lt; c\n\n" := by
    decide +kernel
  exact ⟨hs, htext ▸ render_codeBlock {} [∅, ∅] ∅ ∅ hs⟩

end Converter

end HtmlMarkdown
