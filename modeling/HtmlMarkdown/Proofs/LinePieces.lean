import HtmlMarkdown.Proofs.NativeCode
import HtmlMarkdown.Proofs.NormalSpace
import HtmlMarkdown.Proofs.TextRuns

/-!
# The pieces of a line

Text, links, marks of emphasis and white space between them are the pieces that stand behind the
mark of a heading. Where white space is in its normal form the spacing pass writes the pieces as
they are, and nothing that comes later takes back what is written up to a piece that is no white
space. So the line behind the mark is rendered piece by piece, and a newline is in it exactly if
one of the pieces has a newline.
-/

namespace HtmlMarkdown

open Markdown (Token Tag)
open Conversion (MayMeet)

theorem Text.newline_mem_escaped_iff (cs : List Char) :
    '\n' ∈ cs.flatMap escapeChar ↔ '\n' ∈ cs := by
  rw [List.mem_flatMap]
  constructor
  · rintro ⟨c, hc, hmem⟩
    by_cases hn : c = '\n'
    · exact hn ▸ hc
    · exact absurd hmem (newline_not_mem_escapeChar hn)
  · intro h
    exact ⟨'\n', h, by decide⟩

namespace Markdown

def Tag.isPiece : Tag → Bool
  | anchorInline | anchorSimple | boldItalic | charactersSplit | emphasis | strong => true
  | newline | newlineBlank | space => true
  | _ => false

/-- HTML, or Markdown that is no more than a part of a line or the end of one. -/
def Token.IsPiece (t : Token) : Prop :=
  match t.node with
  | .markdown tag data => tag.isPiece = true ∧ (tag.isNewline = true → '\n' ∈ data.toList)
  | .native _ _ => False
  | .html _ => True

def Token.Breaks (t : Token) : Prop := '\n' ∈ t.ownChars none

structure Token.Closes (t : Token) : Prop where
  fixed : t.isFixed = true
  kind : ∀ raw ∈ t.raw?, raw.kind ≠ .spaceCharacters
  ends : ∀ s ∈ t.text?, s.toList.getLast? ≠ some '\n'

variable {t x : Token} {ts us : List Token}

namespace Token

theorem isPiece_within (t : Token) (d : Option Nat) : (t.within d).IsPiece ↔ t.IsPiece := by
  unfold IsPiece
  rw [node_within]

theorem breaks_within (t : Token) (d : Option Nat) : (t.within d).Breaks ↔ t.Breaks := by
  have hsame : ({ t.within d with quoteDepth := none } : Token) =
      { t with quoteDepth := none } := by
    unfold within
    split <;> rfl
  unfold Breaks ownChars
  rw [hsame]

namespace Closes

theorem within (h : t.Closes) (d : Option Nat) : (t.within d).Closes where
  fixed := by
    have hfixed := h.fixed
    unfold isFixed Spacer.isCodeSpace raw? at hfixed ⊢
    rwa [tagIs_within, hasTag_within, inCode_within, node_within]
  kind := by
    have hkind := h.kind
    unfold raw? at hkind ⊢
    rwa [node_within]
  ends := by
    have hends := h.ends
    unfold text? at hends ⊢
    rwa [node_within]

theorem solid (h : t.Closes) : t.tagIs Tag.isWhitespace = false := by
  by_contra hwhite
  have hfixed := isFixed_of_tagIs (eq_true_of_ne_false hwhite)
  exact absurd (hfixed.symm.trans h.fixed) Bool.false_ne_true

theorem isPureSpace (h : t.Closes) : t.isPureSpace = false := by
  have hsolid := h.solid
  have hkind := h.kind
  obtain ⟨node, depth, inCode⟩ := t
  cases node with
  | markdown tag data =>
    change tag.isWhitespace = false at hsolid
    cases tag <;> first | rfl | cases hsolid
  | native edge raw => rfl
  | html raw => simp [Token.isPureSpace, hkind raw rfl]

end Closes

theorem IsPiece.tagAtEdge (h : t.IsPiece) : t.TagAtEdge := by
  intro edge raw hnode
  rw [IsPiece, hnode] at h
  exact h.elim

theorem IsPiece.tag (h : t.IsPiece) : ∀ tag ∈ t.tag?, tag.isPiece = true := by
  intro tag htag
  unfold IsPiece at h
  unfold tag? at htag
  split at h
  · next hnode =>
    rw [hnode] at htag
    cases htag
    exact h.1
  · exact h.elim
  · next hnode =>
    rw [hnode] at htag
    cases htag

theorem IsPiece.tagIs_eq_false (h : t.IsPiece) {p : Tag → Bool}
    (hp : ∀ tag : Tag, tag.isPiece = true → p tag = false) : t.tagIs p = false := by
  unfold tagIs
  cases htag : t.tag? with
  | none => rfl
  | some tag => exact hp tag (h.tag tag htag)

theorem IsPiece.not_rule (h : t.IsPiece) : t.hasTag .horizontalRule = false := by
  by_contra hrule
  have hpiece := h.tag _ (tag?_eq_of_hasTag (eq_true_of_ne_false hrule))
  cases hpiece

/-- The raw-text state changes the escaping and no newline. -/
theorem newline_mem_ownChars_iff (rawText : Option String) (t : Token) :
    '\n' ∈ t.ownChars rawText ↔ t.Breaks := by
  obtain ⟨node, depth, inCode⟩ := t
  unfold Breaks ownChars chars
  cases node with
  | markdown tag data => rfl
  | native edge raw | html raw =>
    dsimp only
    unfold htmlChars
    cases raw.kind with
    | characters =>
      cases rawText with
      | none => rfl
      | some name =>
        change _ ↔ '\n' ∈ Text.escapeQuoted 0 0 raw.content.toList
        rw [Text.escapeQuoted_zero rfl, Text.newline_mem_escaped_iff]
    | _ => rfl

theorem newline_mem_indentChars_iff (head cs : List Char) :
    '\n' ∈ indentChars head cs ↔ '\n' ∈ cs := by
  by_cases h : '\n' ∈ cs
  · refine iff_of_true (List.mem_flatMap.mpr ⟨'\n', h, ?_⟩) h
    rw [if_pos rfl]
    exact List.mem_cons_self
  · rw [indentChars_of_not_mem head h]

theorem newline_mem_chars_iff (h : t.IsPiece) (rawText : Option String) :
    '\n' ∈ (indentToken t).chars rawText ↔ t.Breaks := by
  rw [chars_indentToken rawText h.tagAtEdge, headedChars]
  split_ifs
  · exact newline_mem_ownChars_iff rawText t
  · rw [newline_mem_indentChars_iff]
    exact newline_mem_ownChars_iff rawText t

end Token

/-- A line of pieces has a newline if a piece has. -/
theorem newline_mem_line_iff (h : ∀ t ∈ ts, t.IsPiece) (rawText : Option String) :
    '\n' ∈ renderChars rawText (indentAll ts) ↔ ∃ t ∈ ts, t.Breaks := by
  induction ts generalizing rawText with
  | nil => simp [indentAll, renderChars]
  | cons t ts ih =>
    obtain ⟨ht, hts⟩ := List.forall_mem_cons.mp h
    change '\n' ∈ (indentToken t).chars rawText ++ renderChars _ (indentAll ts) ↔ _
    rw [List.mem_append, Token.newline_mem_chars_iff ht, ih hts, List.exists_mem_cons_iff]

section Spacing

variable {out rest : List Token} {last z : Token} {before : Option Token}

/-- A piece is written as it is where it may stand. -/
theorem Spacer.step_piece (ht : t.IsPiece) (hmeet : MayMeet last t)
    (hrule : last.hasTag .horizontalRule = false)
    (hnext : t.tagIs Tag.isWhitespace = true → rest.head?.any (·.tagIs Tag.isBlockEnd) = false) :
    (behind (last :: out)).step before t rest = behind (t :: last :: out) := by
  cases htag : t.tag? with
  | none => exact step_of_none htag
  | some tag =>
    rw [step_of_tag htag]
    have hwhite (hw : tag.isWhitespace = true) :
        (behind (last :: out)).whitespace t rest.head? = behind (t :: last :: out) := by
      have hend := hnext (by rw [Token.tagIs, htag]; exact hw)
      have hapart : ¬(t.isNewline = true ∧ last.isNewline = true) :=
        fun h => hmeet.newline ⟨h.2, h.1⟩
      have hbehind : ¬(t.isNewline = true ∧ last.hasTag .horizontalRule = true) := by
        simp [hrule]
      unfold whitespace
      rw [hend, if_neg Bool.false_ne_true]
      simp only [behind, if_neg hapart, if_neg hbehind]
      rfl
    have hpiece := ht.tag tag htag
    cases tag with
    | newline | newlineBlank | space => exact hwhite rfl
    | anchorInline | anchorSimple | boldItalic | charactersSplit | emphasis | strong => rfl
    | _ => cases hpiece

theorem Spacer.advance_pieces (hts : ∀ t ∈ ts, t.IsPiece) (hz : z.IsPiece)
    (hsolid : z.tagIs Tag.isWhitespace = false) (hchain : (last :: (ts ++ [z])).IsChain MayMeet)
    (hrule : last.hasTag .horizontalRule = false) :
    (behind (last :: out)).advance before (ts ++ [z]) rest =
      behind (z :: (ts.reverse ++ last :: out)) := by
  induction ts generalizing out before last with
  | nil =>
    have hmeet := (List.isChain_cons_cons.mp hchain).1
    exact step_piece hz hmeet hrule (fun hw => absurd hw (by simp [hsolid]))
  | cons t ts ih =>
    obtain ⟨ht, hts⟩ := List.forall_mem_cons.mp hts
    obtain ⟨hmeet, hchain⟩ := List.isChain_cons_cons.mp hchain
    have hend (u : Token) (hu : u.IsPiece) : u.tagIs Tag.isBlockEnd = false :=
      hu.tagIs_eq_false (by intro tag; cases tag <;> decide)
    have hnext : (ts ++ [z] ++ rest).head?.any (·.tagIs Tag.isBlockEnd) = false := by
      cases ts with
      | nil => exact hend z hz
      | cons u us => exact hend u (hts u List.mem_cons_self)
    rw [List.cons_append, advance, step_piece ht hmeet hrule fun _ => hnext,
      ih hts hchain ht.not_rule]
    simp

end Spacing

section Layout

variable {front pieces back : List Token} {z : Token} {level depth : Nat}

theorem trimNewlinesEnd_of_ends {s : String} (h : s.toList.getLast? ≠ some '\n') :
    trimNewlinesEnd s = s := by
  cases hlast : s.toList.getLast? with
  | none =>
    apply trimNewlinesEnd_of_not_mem
    rw [List.getLast?_eq_none_iff.mp hlast]
    exact List.not_mem_nil
  | some c =>
    apply trimNewlinesEnd_of_getLast? hlast
    rintro rfl
    exact h hlast

theorem getLast?_indentChars {cs : List Char} (head : List Char) (h : cs.getLast? ≠ some '\n') :
    (indentChars head cs).getLast? ≠ some '\n' := by
  rcases List.eq_nil_or_concat' cs with rfl | ⟨ds, c, rfl⟩
  · simp [indentChars]
  · have hc : c ≠ '\n' := by simpa using h
    have hlast : indentChars head [c] = [c] :=
      indentChars_of_not_mem head (by simpa using hc.symm)
    rw [Token.indentChars_append, hlast]
    simpa using hc

theorem Token.Closes.indentToken (h : t.Closes) : (indentToken t).Closes := by
  have hends : ∀ s ∈ (Markdown.indentToken t).text?, s.toList.getLast? ≠ some '\n' := by
    intro s hs
    rw [Markdown.indentToken, Token.text?_mapText, Option.mem_def, Option.map_eq_some_iff] at hs
    obtain ⟨text, htext, rfl⟩ := hs
    rw [toList_indentLines]
    exact getLast?_indentChars _ (h.ends text htext)
  obtain ⟨node, quoteDepth, inCode⟩ := t
  cases node with
  | markdown tag data => exact ⟨h.fixed, fun raw hraw => (Option.not_mem_none raw hraw).elim, hends⟩
  | native edge raw => exact h
  | html raw =>
    unfold Markdown.indentToken Token.mapText at hends ⊢
    dsimp only at hends ⊢
    split_ifs with htag
    · exact h
    · rw [if_neg htag] at hends
      refine ⟨h.fixed, ?_, hends⟩
      intro raw' hraw
      cases hraw
      exact h.kind raw rfl

/-- Trimming drops what stands in front of a token that is no white space, or leaves the token. -/
theorem exists_trimStart (h : isLeadingSpace x = false) (ts us : List Token) :
    ∃ front x', trimStart (ts ++ x :: us) = front ++ x' :: us ∧
      (x' = x ∨ front = [] ∧ x' = x.mapText trimNewlinesStart) := by
  unfold trimStart
  rw [List.dropWhile_append, List.dropWhile_cons_of_neg (by simp [h])]
  cases ts.dropWhile isLeadingSpace with
  | nil => exact ⟨[], _, rfl, .inr ⟨rfl, rfl⟩⟩
  | cons first rest => exact ⟨first.mapText trimNewlinesStart :: rest, x, rfl, .inl rfl⟩

/-- The spacing pass writes the mark of a heading on a line of its own, and the pieces behind it as
they are. -/
theorem exists_space_heading
    (hc : Coherent (front ++ (stamped depth [.startBlock, .headingStart level] ++
      (pieces ++ [z])) ++ back).reverse)
    (hpieces : ∀ t ∈ pieces, t.IsPiece) (hz : z.IsPiece) (hcloses : z.Closes)
    (hchain : ((Token.headingStart level).within (some depth) ::
      (pieces ++ [z])).IsChain MayMeet) :
    ∃ earlier later, space (front ++ (stamped depth [.startBlock, .headingStart level] ++
        (pieces ++ [z])) ++ back) =
      earlier ++ (Token.headingStart level).within (some depth) :: (pieces ++ z :: later) := by
  have hstart : (Token.startBlock.within (some depth)).tag? = some .startBlock :=
    Token.tag?_within _ _
  have hmark : ((Token.headingStart level).within (some depth)).tag? = some .headingStart :=
    Token.tag?_within _ _
  obtain ⟨out, hout⟩ := exists_behind (by rwa [List.append_assoc] at hc) hstart
  have hadvance (before : Option Token) : (Spacer.behind out).advance before
      (stamped depth [.startBlock, .headingStart level] ++ (pieces ++ [z])) back =
        .behind (z :: (pieces.reverse ++ (Token.headingStart level).within (some depth) ::
          settle 1 (quoteLevel depth) out)) := by
    have hopens : (Token.headingStart level).tagIs Tag.opensOnNewLine = true := rfl
    change Spacer.advance (Spacer.step _ _ (Token.startBlock.within (some depth))
      ((Token.headingStart level).within (some depth) :: _)) _ (_ :: _) _ = _
    rw [Spacer.step_startBlock rfl rfl rfl, hopens, if_pos rfl, Spacer.advance,
      Spacer.step_of_tag hmark]
    exact Spacer.advance_pieces hpieces hz hcloses.solid hchain (by simp [Token.hasTag, hmark])
  obtain ⟨-, -, hstays⟩ := spacedTo_of_advance hout hadvance
  rw [fixedPart, List.dropWhile_cons_of_neg (by simp [hcloses.fixed])] at hstays
  obtain ⟨later, hlater⟩ := hstays
  refine ⟨(settle 1 (quoteLevel depth) out).reverse, later, ?_⟩
  rw [← hlater]
  simp

theorem indented_pieces (h : ∀ t ∈ ts, t.IsPiece) : indented ts = indentAll ts := by
  rw [indented, layRules_eq_self fun t ht => (h t ht).not_rule]

/-- The mark of a heading is written behind a newline and the marks of the quotes around it, and
trimming takes the newline away at most. -/
theorem chars_headingMark (level depth : Nat) (rawText : Option String) :
    let mark := indentToken ((Token.headingStart level).within (some depth))
    let text := marks depth ++ (List.replicate level '#' ++ [' '])
    isLeadingSpace mark = false ∧ mark.chars rawText = '\n' :: text ∧
      (mark.mapText trimNewlinesStart).chars rawText = text := by
  intro mark text
  let data := indentLines (marks depth) ("\n" ++ repeated level "#" ++ " ")
  have hnode : mark.node = .markdown .headingStart data := by
    have hown : ((Token.headingStart level).within (some depth)).node =
        .markdown .headingStart ("\n" ++ repeated level "#" ++ " ") := Token.node_within _ _
    have hdepth : ((Token.headingStart level).within (some depth)).markers = depth :=
      markers_within rfl depth
    have hcode : ((Token.headingStart level).within (some depth)).inCode = false :=
      Token.inCode_within _ _
    unfold mark indentToken
    rw [hdepth, hcode]
    exact node_mapText hown _
  have hsingle : '\n' ∉ text := by
    rw [List.mem_append, not_or]
    exact ⟨not_mem_lineHead (by decide) _ _, not_mem_headingMark level⟩
  have hdata : data.toList = '\n' :: text := by
    rw [toList_indentLines, toList_headingMark, indentChars_newline,
      indentChars_of_not_mem _ (not_mem_headingMark level)]
    rfl
  refine ⟨?_, ?_, ?_⟩
  · have hspace : ' ' ∈ data.toList := by simp [hdata, text]
    have htext : mark.text? = some data := by simp [Token.text?, hnode]
    have hall : data.toList.all isNewlineChar = false := by
      by_contra hall
      rw [Bool.not_eq_false, List.all_eq_true] at hall
      exact absurd (hall ' ' hspace) (by decide)
    simp [isLeadingSpace, Token.isPureSpace, isNewlinesOnly, hnode, htext, hall]
  · rw [chars_of_node hnode (by decide), hdata]
  · have hnewline : isNewlineChar '\n' = true := rfl
    rw [chars_of_node (node_mapText hnode _) (by decide), trimNewlinesStart, String.toList_ofList,
      hdata, List.dropWhile_cons, if_pos hnewline, dropWhile_isNewlineChar hsingle]

/-- The mark of a heading begins a line of the text, at the head of which the quotes around it are
marked, and the pieces behind it follow directly. -/
theorem exists_render_heading
    (hc : Coherent (front ++ (stamped depth [.startBlock, .headingStart level] ++
      (pieces ++ [z])) ++ back).reverse)
    (hpieces : ∀ t ∈ pieces, t.IsPiece) (hz : z.IsPiece) (hcloses : z.Closes)
    (hchain : ((Token.headingStart level).within (some depth) ::
      (pieces ++ [z])).IsChain MayMeet) :
    ∃ before after rawText, (before = [] ∨ before.getLast? = some '\n') ∧
      renderChars none (layout (front ++ (stamped depth [.startBlock, .headingStart level] ++
        (pieces ++ [z])) ++ back)) = before ++ (marks depth ++ List.replicate level '#' ++
          ' ' :: renderChars rawText (indentAll (pieces ++ [z]))) ++ after := by
  obtain ⟨earlier, later, hspace⟩ := exists_space_heading hc hpieces hz hcloses hchain
  let mark := (Token.headingStart level).within (some depth)
  have hindented : indented (earlier ++ mark :: (pieces ++ z :: later)) = indented earlier ++
      indentToken mark :: (indentAll pieces ++ indentToken z :: indented later) := by
    rw [indented_append, indented_cons (Token.hasTag_within _ _ _), indented_append,
      indented_pieces hpieces, indented_cons hz.not_rule]
  obtain ⟨kept, mark', htrim, hmark'⟩ := exists_trimStart
    (chars_headingMark level depth none).1 (indented earlier)
    (indentAll pieces ++ indentToken z :: indented later)
  have hends : (indentToken z).mapText trimNewlinesEnd = indentToken z :=
    mapText_eq_self fun s hs => trimNewlinesEnd_of_ends (hcloses.indentToken.ends s hs)
  have hlayout : layout (front ++ (stamped depth [.startBlock, .headingStart level] ++
      (pieces ++ [z])) ++ back) = kept ++ mark' :: (indentAll (pieces ++ [z]) ++
        trimEnd (indented later)) := by
    change trimEnd (trimStart (indented (space _))) = _
    rw [hspace, hindented, htrim]
    have hassoc : kept ++ mark' :: (indentAll pieces ++ indentToken z :: indented later) =
        (kept ++ mark' :: indentAll pieces) ++ indentToken z :: indented later := by simp
    rw [hassoc, trimEnd_append_cons hcloses.indentToken.isPureSpace hends]
    simp [indentAll]
  rw [hlayout, renderChars_append, renderChars]
  generalize kept.foldl (fun state t => t.rawTextAfter state) none = rawText
  have hraw : mark'.rawTextAfter rawText = rawText := by
    have hown : mark.rawTextAfter rawText = rawText := by
      rw [Token.rawTextAfter, Token.raw?, Token.node_within]
      rfl
    rcases hmark' with rfl | ⟨-, rfl⟩
    · rw [Token.rawTextAfter_indentToken, hown]
    · rw [Token.rawTextAfter_mapText, Token.rawTextAfter_indentToken, hown]
  obtain ⟨-, hwhole, htrimmed⟩ := chars_headingMark level depth rawText
  rw [hraw, renderChars_append]
  let state := (indentAll (pieces ++ [z])).foldl (fun state t => t.rawTextAfter state) rawText
  rcases hmark' with rfl | ⟨rfl, rfl⟩
  · refine ⟨renderChars none kept ++ ['\n'], renderChars state (trimEnd (indented later)), rawText,
      .inr List.getLast?_concat, ?_⟩
    rw [hwhole]
    simp [state]
  · refine ⟨[], renderChars state (trimEnd (indented later)), rawText, .inl rfl, ?_⟩
    rw [htrimmed]
    simp [renderChars, state]

end Layout

end Markdown

end HtmlMarkdown
