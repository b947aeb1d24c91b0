import HtmlMarkdown.Proofs.PageText

/-!
# Line heads and escaped text

Indenting puts the heads of the lines into a text before it is written, and writing escapes the
text with the heads in it. The quote markers are restored afterwards, on every line behind the
first and no more of them than the quotes are deep. So the text of an indented stream is what its
tokens are written as outside of any quote, with a head behind every newline: the markers that the
indentation put there stand unescaped, and whatever the text itself has of them stays escaped.
-/

namespace HtmlMarkdown

open Markdown (indentChars lineHead)

namespace Text

/-- Restores up to so many escaped quote markers at the front of a line. -/
def unescapeHead : Nat → List Char → List Char
  | 0, line => line
  | n + 1, line =>
    match line with
    | '&' :: 'g' :: 't' :: ';' :: ' ' :: rest => '>' :: ' ' :: unescapeHead n rest
    | _ => line

def restoreLines (depth markers : Nat) (cs : List Char) : List Char :=
  match splitNewlines cs with
  | [] => []
  | line :: rest => joinNewlines (unescapeHead markers line :: rest.map (unescapeHead depth))

/-- The quote markers of escaped text are restored on every line behind the first. -/
def restoreMarkers (depth : Nat) (cs : List Char) : List Char := restoreLines depth 0 cs

variable {depth markers : Nat} {c : Char} {cs line : List Char} {rest : List (List Char)}

theorem restoreLines_of_split (h : splitNewlines cs = line :: rest) :
    restoreLines depth markers cs =
      joinNewlines (unescapeHead markers line :: rest.map (unescapeHead depth)) := by
  rw [restoreLines, h]

theorem joinNewlines_append (xs : List Char) :
    joinNewlines ((xs ++ line) :: rest) = xs ++ joinNewlines (line :: rest) := by
  cases rest <;> simp [joinNewlines]

theorem splitNewlines_append {xs : List Char} (hxs : '\n' ∉ xs)
    (h : splitNewlines cs = line :: rest) : splitNewlines (xs ++ cs) = (xs ++ line) :: rest := by
  induction xs with
  | nil => exact h
  | cons x xs ih =>
    rw [List.mem_cons, not_or] at hxs
    rw [List.cons_append, splitNewlines, if_neg (Ne.symm hxs.1), ih hxs.2]
    rfl

theorem restoreLines_newline (cs : List Char) :
    restoreLines depth markers ('\n' :: cs) = '\n' :: restoreLines depth depth cs := by
  obtain ⟨line, rest, hsplit⟩ := List.exists_cons_of_ne_nil (splitNewlines_ne_nil cs)
  have hnewline : splitNewlines ('\n' :: cs) = [] :: line :: rest := by simp [splitNewlines, hsplit]
  have hempty : unescapeHead markers [] = [] := by cases markers <;> rfl
  rw [restoreLines_of_split hnewline, restoreLines_of_split hsplit, hempty]
  rfl

/-- Behind the markers of a line nothing more is restored on it. -/
theorem restoreLines_append {xs : List Char} (hxs : '\n' ∉ xs)
    (hkept : ∀ line rest, splitNewlines cs = line :: rest →
      unescapeHead markers (xs ++ line) = xs ++ line) :
    restoreLines depth markers (xs ++ cs) = xs ++ restoreLines depth 0 cs := by
  obtain ⟨line, rest, hsplit⟩ := List.exists_cons_of_ne_nil (splitNewlines_ne_nil cs)
  rw [restoreLines_of_split (splitNewlines_append hxs hsplit), restoreLines_of_split hsplit,
    hkept line rest hsplit, joinNewlines_append]
  rfl

theorem restoreLines_marker (n : Nat) (cs : List Char) :
    restoreLines depth (n + 1) ("&gt; ".toList ++ cs) = '>' :: ' ' :: restoreLines depth n cs := by
  obtain ⟨line, rest, hsplit⟩ := List.exists_cons_of_ne_nil (splitNewlines_ne_nil cs)
  rw [restoreLines_of_split (splitNewlines_append (by decide) hsplit),
    restoreLines_of_split hsplit]
  exact joinNewlines_append ['>', ' ']

/-- Only what stands for other characters brings a character that was not there. -/
theorem not_mem_escapeChar_of_ne {d : Char}
    (hd : ∀ s ∈ ["&amp;", "&lt;", "&gt;"], d ∉ s.toList) (hc : c ≠ d) : d ∉ escapeChar c := by
  unfold escapeChar
  split_ifs
  · exact hd "&amp;" (by simp)
  · exact hd "&lt;" (by simp)
  · exact hd "&gt;" (by simp)
  · simpa using Ne.symm hc

theorem newline_not_mem_escapeChar (hc : c ≠ '\n') : '\n' ∉ escapeChar c :=
  not_mem_escapeChar_of_ne (by decide) hc

/-- What a character is escaped as ends in a semicolon or in the character. -/
theorem exists_escapeChar {p : Char → Prop} (hp : p ';') (hc : p c) :
    ∃ ds d, p d ∧ escapeChar c = ds ++ [d] := by
  unfold escapeChar
  split_ifs
  · exact ⟨"&amp".toList, ';', hp, by decide⟩
  · exact ⟨"&lt".toList, ';', hp, by decide⟩
  · exact ⟨"&gt".toList, ';', hp, by decide⟩
  · exact ⟨[], c, hc, rfl⟩

/-- No text without a marker at its front looks like an escaped marker. -/
theorem unescapeHead_of_not_marker (hline : ∀ cs, ¬(c = '>' ∧ line = ' ' :: cs)) (markers : Nat) :
    unescapeHead markers (escapeChar c ++ line) = escapeChar c ++ line := by
  cases markers with
  | zero => rfl
  | succ n =>
    have hnone : ∀ cs, escapeChar c ++ line ≠ '&' :: 'g' :: 't' :: ';' :: ' ' :: cs := by
      intro cs heq
      unfold escapeChar at heq
      split_ifs at heq with _ _ hgt
      · simp at heq
      · simp at heq
      · exact hline cs ⟨hgt, by simpa using heq⟩
      · simp_all
    rw [unescapeHead]
    exact hnone

/-- The first line of escaped text begins with a space where the text does. -/
theorem exists_cons_of_escaped_space (h : splitNewlines (cs.flatMap escapeChar) = line :: rest)
    {xs : List Char} (hline : line = ' ' :: xs) : ∃ ys, cs = ' ' :: ys := by
  have hjoin : cs.flatMap escapeChar = joinNewlines (line :: rest) := by
    rw [← h, joinNewlines_splitNewlines]
  have hspace : ∃ ys, cs.flatMap escapeChar = ' ' :: ys := by
    rw [hjoin, hline]
    exact ⟨_, joinNewlines_append [' ']⟩
  obtain ⟨ys, hys⟩ := hspace
  cases cs with
  | nil => simp at hys
  | cons c cs =>
    rw [List.flatMap_cons, escapeChar] at hys
    split_ifs at hys
    · simp at hys
    · simp at hys
    · simp at hys
    · exact ⟨cs, by simp_all⟩

/-- Escaping all of the text and restoring the markers is what quoted text is written as. -/
theorem escapeQuoted_eq_restoreLines (depth markers : Nat) (cs : List Char) :
    escapeQuoted depth markers cs = restoreLines depth markers (cs.flatMap escapeChar) := by
  fun_induction escapeQuoted depth markers cs with
  | case1 markers => cases markers <;> rfl
  | case2 cs ih =>
    have hmarker : ('>' :: ' ' :: cs).flatMap escapeChar =
        (escapeChar '>' ++ [' ']) ++ cs.flatMap escapeChar := by simp [escapeChar]
    rw [hmarker, restoreLines_append (by decide) fun _ _ _ => rfl, ih]
    simp
  | case3 cs n ih =>
    have hmarker : ('>' :: ' ' :: cs).flatMap escapeChar =
        "&gt; ".toList ++ cs.flatMap escapeChar := by simp [escapeChar]
    rw [hmarker, restoreLines_marker, ih]
  | case4 markers c cs hc ih =>
    by_cases hnewline : c = '\n'
    · subst hnewline
      have hescape : escapeChar '\n' = ['\n'] := by decide
      rw [if_pos rfl] at ih ⊢
      rw [List.flatMap_cons, hescape, List.singleton_append, List.singleton_append,
        restoreLines_newline, ih]
    · rw [if_neg hnewline] at ih ⊢
      rw [List.flatMap_cons, restoreLines_append (newline_not_mem_escapeChar hnewline), ih]
      intro line rest hsplit
      apply unescapeHead_of_not_marker
      rintro xs ⟨hgt, hline⟩
      obtain ⟨ys, hys⟩ := exists_cons_of_escaped_space hsplit hline
      exact hc ys hgt hys

theorem escapeQuoted_cons (depth : Nat) (c : Char) (cs : List Char) :
    escapeQuoted depth 0 (c :: cs) =
      escapeChar c ++ escapeQuoted depth (if c = '\n' then depth else 0) cs := by
  by_cases h : ∃ rest, c = '>' ∧ cs = ' ' :: rest
  · obtain ⟨rest, rfl, rfl⟩ := h
    simp [escapeQuoted, escapeChar]
  · rw [escapeQuoted]
    rintro rest rfl hrest
    exact h ⟨rest, rfl, hrest⟩

theorem escapeQuoted_markers (depth n : Nat) (cs : List Char) :
    escapeQuoted depth n ((List.replicate n ['>', ' ']).flatten ++ cs) =
      (List.replicate n ['>', ' ']).flatten ++ escapeQuoted depth 0 cs := by
  induction n with
  | zero => rfl
  | succ n ih => simp [List.replicate_succ, escapeQuoted, ih]

theorem escapeQuoted_blanks (depth n : Nat) (cs : List Char) :
    escapeQuoted depth 0 (List.replicate n ' ' ++ cs) =
      List.replicate n ' ' ++ escapeQuoted depth 0 cs := by
  induction n with
  | zero => rfl
  | succ n ih =>
    rw [List.replicate_succ, List.cons_append, escapeQuoted_cons, if_neg (by decide), ih]
    rfl

/-- The head of a line is written as it is. -/
theorem escapeQuoted_lineHead (depth : Nat) (inCode : Bool) (cs : List Char) :
    escapeQuoted depth depth (lineHead depth inCode ++ cs) =
      lineHead depth inCode ++ escapeQuoted depth 0 cs := by
  rw [lineHead, List.append_assoc, escapeQuoted_markers, List.append_assoc]
  cases inCode with
  | false => rfl
  | true => exact congrArg _ (escapeQuoted_blanks depth 4 cs)

/-- Of indented text all is escaped but the heads of its lines. -/
theorem escapeQuoted_indentChars (depth : Nat) (inCode : Bool) (cs : List Char) :
    escapeQuoted depth 0 (indentChars (lineHead depth inCode) cs) =
      indentChars (lineHead depth inCode) (cs.flatMap escapeChar) := by
  induction cs with
  | nil => rfl
  | cons c cs ih =>
    by_cases hc : c = '\n'
    · subst hc
      have hescape : escapeChar '\n' = ['\n'] := by decide
      rw [Markdown.indentChars_newline, List.cons_append, escapeQuoted_cons, if_pos rfl,
        escapeQuoted_lineHead, ih, List.flatMap_cons, hescape]
      rfl
    · have hkept : indentChars (lineHead depth inCode) (c :: cs) =
          c :: indentChars (lineHead depth inCode) cs := by simp [indentChars, hc]
      have hown : indentChars (lineHead depth inCode) (escapeChar c) = escapeChar c :=
        Markdown.indentChars_of_not_mem _ (newline_not_mem_escapeChar hc)
      rw [hkept, escapeQuoted_cons, if_neg hc, ih, List.flatMap_cons, indentChars, indentChars,
        List.flatMap_append]
      exact congrArg (· ++ _) hown.symm

end Text

namespace Markdown

namespace Token

def isMarkup (t : Token) : Bool := t.raw?.any fun raw => raw.isTag || raw.kind == .doctype

def ownChars (rawText : Option String) (t : Token) : List Char :=
  { t with quoteDepth := none }.chars rawText

/-- What the token is written as outside of any quote, with the head of its lines behind every
newline unless it is a tag or a doctype. -/
def headedChars (rawText : Option String) (t : Token) : List Char :=
  if t.isMarkup then t.ownChars rawText
  else indentChars (lineHead t.markers t.inCode) (t.ownChars rawText)

def TagAtEdge (t : Token) : Prop := ∀ edge raw, t.node = .native edge raw → raw.isTag = true

variable {t : Token}

theorem content_mapText {raw : Html.Token} {f : String → String} (hf : f "" = "") :
    ({ raw with text := raw.text.map f } : Html.Token).content = f raw.content := by
  unfold Html.Token.content
  cases raw.text with
  | none => exact hf.symm
  | some s => rfl

theorem rawTextAfter_mapText (rawText : Option String) (t : Token) (f : String → String) :
    (t.mapText f).rawTextAfter rawText = t.rawTextAfter rawText := by
  obtain ⟨node, depth, inCode⟩ := t
  cases node with
  | markdown | native => rfl
  | html raw =>
    unfold mapText
    dsimp only
    split <;> rfl

theorem rawTextAfter_indentToken (rawText : Option String) (t : Token) :
    (indentToken t).rawTextAfter rawText = t.rawTextAfter rawText :=
  rawTextAfter_mapText rawText t _

theorem chars_tag {raw : Html.Token} (h : raw.isTag = true) (depth depth' : Nat)
    (rawText : Option String) : htmlChars depth rawText raw = htmlChars depth' rawText raw := by
  rcases Html.Token.isTag_iff.mp h with hk | hk | hk <;> simp [htmlChars, hk]

theorem indentChars_append (head cs ds : List Char) :
    indentChars head (cs ++ ds) = indentChars head cs ++ indentChars head ds :=
  List.flatMap_append

theorem escapeQuoted_indentLines (depth : Nat) (inCode : Bool) (s : String) :
    Text.escapeQuoted depth 0 (indentLines (lineHead depth inCode) s).toList =
      indentChars (lineHead depth inCode) (Text.escapeQuoted 0 0 s.toList) := by
  rw [toList_indentLines, Text.escapeQuoted_indentChars, Text.escapeQuoted_zero rfl]

/-- HTML that is no tag is written with the head of its lines behind every newline. -/
theorem htmlChars_indented {raw indented : Html.Token} {depth : Nat} {inCode : Bool}
    (htag : raw.isTag = false) (hdoctype : raw.kind ≠ .doctype) (hkind : indented.kind = raw.kind)
    (hcontent : indented.content = indentLines (lineHead depth inCode) raw.content)
    (rawText : Option String) : htmlChars depth rawText indented =
      indentChars (lineHead depth inCode) (htmlChars 0 rawText raw) := by
  unfold htmlChars
  rw [hkind, hcontent]
  cases hk : raw.kind with
  | startTag | endTag | emptyTag => simp [Html.Token.isTag, hk] at htag
  | doctype => exact absurd hk hdoctype
  | parseError => rfl
  | spaceCharacters => exact toList_indentLines _ _
  | comment =>
    have hopen : indentChars (lineHead depth inCode) "<!--".toList = "<!--".toList :=
      indentChars_of_not_mem _ (by decide)
    have hclose : indentChars (lineHead depth inCode) "-->".toList = "-->".toList :=
      indentChars_of_not_mem _ (by decide)
    simp only [toList_indentLines, indentChars_append, hopen, hclose]
  | characters =>
    cases rawText with
    | some name => exact toList_indentLines _ _
    | none => exact escapeQuoted_indentLines _ _ _

/-- The text of an indented token is its own text, indented. -/
theorem chars_indentToken (rawText : Option String) (h : t.TagAtEdge) :
    (indentToken t).chars rawText = t.headedChars rawText := by
  obtain ⟨node, depth, inCode⟩ := t
  cases node with
  | markdown tag data =>
    change (Token.mk (.markdown tag (indentLines _ data)) depth inCode).chars rawText =
      indentChars _ ((Token.mk (.markdown tag data) none inCode).chars rawText)
    unfold chars
    dsimp only
    split
    · exact escapeQuoted_indentLines _ _ data
    · exact toList_indentLines _ data
    · exact toList_indentLines _ data
  | native edge raw =>
    have htag : raw.isTag = true := h edge raw rfl
    have hmarkup : (Token.mk (.native edge raw) depth inCode).isMarkup = true := by
      simp [isMarkup, raw?, htag]
    rw [headedChars, if_pos hmarkup]
    exact chars_tag htag _ _ rawText
  | html raw =>
    by_cases htag : raw.isTag = true
    · have hmarkup : (Token.mk (.html raw) depth inCode).isMarkup = true := by
        simp [isMarkup, raw?, htag]
      have hsame : indentToken (Token.mk (.html raw) depth inCode) =
          Token.mk (.html raw) depth inCode := by
        simp [indentToken, mapText, htag]
      rw [headedChars, if_pos hmarkup, hsame]
      exact chars_tag htag _ _ rawText
    · let indented : Html.Token :=
        { raw with text := raw.text.map (indentLines (lineHead (depth.getD 0) inCode)) }
      have hindented : indentToken (Token.mk (.html raw) depth inCode) =
          Token.mk (.html indented) depth inCode := by
        simp [indentToken, mapText, htag, markers, indented]
      have hsame : indented.kind = raw.kind := rfl
      have hcontent : indented.content =
          indentLines (lineHead (depth.getD 0) inCode) raw.content := content_mapText rfl
      rw [Bool.not_eq_true] at htag
      rw [hindented]
      by_cases hkind : raw.kind = .doctype
      · have hmarkup : (Token.mk (.html raw) depth inCode).isMarkup = true := by
          simp [isMarkup, raw?, hkind]
        rw [headedChars, if_pos hmarkup]
        simp [ownChars, chars, htmlChars, hkind, Html.Token.tagName, indented]
      · have hmarkup : (Token.mk (.html raw) depth inCode).isMarkup = false := by
          simp [isMarkup, raw?, htag, hkind]
        rw [headedChars, if_neg (by simp [hmarkup])]
        exact htmlChars_indented htag hkind hsame hcontent rawText

end Token

/-- The texts of the tokens one after the other, each as outside of any quote and with the head of
its lines behind its newlines, in the raw-text state that the tokens before it leave. -/
def headedChars (rawText : Option String) : List Token → List Char
  | [] => []
  | t :: ts => t.headedChars rawText ++ headedChars (t.rawTextAfter rawText) ts

theorem renderChars_indentAll (rawText : Option String) {ts : List Token}
    (h : ∀ t ∈ ts, t.TagAtEdge) : renderChars rawText (indentAll ts) = headedChars rawText ts := by
  induction ts generalizing rawText with
  | nil => rfl
  | cons t ts ih =>
    rw [List.forall_mem_cons] at h
    change (indentToken t).chars rawText ++ _ = t.headedChars rawText ++ _
    rw [Token.chars_indentToken rawText h.1, Token.rawTextAfter_indentToken]
    exact congrArg _ (ih _ h.2)

/-- An indented stream is written token by token as outside of any quote, the head of its lines
behind every newline that is not in a tag. Restoring the markers undoes the escaping of the heads
and of nothing else. -/
theorem render_indentAll (ts : List Token) (h : ∀ t ∈ ts, t.TagAtEdge) :
    (render (indentAll ts)).toList = headedChars none ts ∧
      ∀ (depth : Nat) (inCode : Bool) (cs : List Char),
        Text.escapeQuoted depth 0 cs = Text.restoreMarkers depth (cs.flatMap Text.escapeChar) ∧
        Text.restoreMarkers depth
            ((indentChars (lineHead depth inCode) cs).flatMap Text.escapeChar) =
          indentChars (lineHead depth inCode) (cs.flatMap Text.escapeChar) := by
  refine ⟨?_, fun depth inCode cs => ⟨Text.escapeQuoted_eq_restoreLines depth 0 cs, ?_⟩⟩
  · rw [render, String.toList_ofList, renderChars_indentAll none h]
  · rw [Text.restoreMarkers, ← Text.escapeQuoted_eq_restoreLines, Text.escapeQuoted_indentChars]

/-- Typed markers in two quotes and in code, the text of a script, and a tag with a newline. -/
theorem render_indentAll_typed :
    let characters (s : String) (depth : Option Nat) (inCode : Bool) : Token :=
      ⟨.html (.characters s), depth, inCode⟩
    let tag (raw : Html.Token) : Token := ⟨.html raw, some 1, false⟩
    let script : Html.Token := .startTag "script" (.ofList [(.plain "title", "a\nb")])
    let ts := [characters "> a\n> b\n&gt; c" (some 2) true, tag script,
      characters "x\n> y" (some 1) false, tag (.endTag "script")]
    (∀ t ∈ ts, t.TagAtEdge) ∧ (render (indentAll ts)).toList =
      ("&gt; a\n> >     &gt; b\n> >     &amp;gt; c<script title='a\nb'>" ++
        "x\n> > y</script>").toList := by
  intro characters tag script ts
  have hedges : ∀ t ∈ ts, t.TagAtEdge := by
    intro t ht edge raw hnode
    simp only [ts, characters, tag, List.mem_cons, List.not_mem_nil, or_false] at ht
    rcases ht with rfl | rfl | rfl | rfl <;> cases hnode
  refine ⟨hedges, (render_indentAll ts hedges).1.trans ?_⟩
  decide +kernel

end Markdown

end HtmlMarkdown
