import HtmlMarkdown.Proofs.Coherence
import HtmlMarkdown.Proofs.PageStream

/-!
# The spacing of code in a `<pre>`

Code in a native `<pre>` is a block where nothing stands between the edges of the `<pre>` and those
of the code: both pairs of edges are gone then, and the code stands on a line of its own. Space on
either side of the code is a raw token like any other, and makes the code inline: all four edges
stay.
-/

namespace HtmlMarkdown.Markdown

namespace Spacer

variable {s : Spacer} {out ts us rest after : List Token} {t : Token} {before : Option Token}
  {tag : Tag}

def advance (s : Spacer) (before : Option Token) (ts rest : List Token) : Spacer :=
  match ts with
  | [] => s
  | t :: ts => (s.step before t (ts ++ rest)).advance (some t) ts rest

theorem advance_append (s : Spacer) (before : Option Token) (ts us rest : List Token) :
    s.advance before (ts ++ us) rest =
      (s.advance before ts (us ++ rest)).advance (ts.getLast?.or before) us rest := by
  induction ts generalizing s before with
  | nil => rfl
  | cons t ts ih =>
    rw [List.cons_append, advance, ih, List.append_assoc, List.getLast?_cons]
    cases ts.getLast? <;> rfl

theorem run_append (s : Spacer) (before : Option Token) (ts rest : List Token) :
    s.run before (ts ++ rest) =
      (s.advance before ts rest).run (ts.getLast?.or before) rest := by
  induction ts generalizing s before with
  | nil => rfl
  | cons t ts ih =>
    rw [List.cons_append, run, ih, List.getLast?_cons]
    cases ts.getLast? <;> rfl

def behind (out : List Token) : Spacer := { output := out }

theorem step_of_tag (h : t.tag? = some tag) :
    (behind out).step before t after = (behind out).ordinary before t after tag := by
  simp [step, behind, h]

theorem step_of_none (h : t.tag? = none) :
    (behind out).step before t after = behind (t :: out) := by
  simp [step, behind, h, push]

theorem step_native (h : t.tag? = some .startNativeBlock) :
    (behind out).step before t rest = behind (t :: Markdown.settle 2 t.quoteDepth out) := by
  rw [step_of_tag h]
  rfl

def inRegion (kind : CodeKind) (out : List Token) : Spacer :=
  { output := out, code := some { kind }, dropNativeEnd := kind == .block }

end Spacer

def CodeKind.laid : CodeKind → Token → Token
  | block, t => t.inCodeBlock
  | inline, t => t

@[simp] theorem CodeKind.laid_block : CodeKind.block.laid = Token.inCodeBlock := rfl

@[simp] theorem CodeKind.laid_inline : CodeKind.inline.laid = id := rfl

/-- The tokens of code but for a first one of one newline or two, which is skipped. -/
def unskipped (ts : List Token) : List Token :=
  if ts.head?.any Token.isRawNewlines then ts.tail else ts

namespace Spacer

variable {out ts us rest : List Token} {t : Token} {before : Option Token} {kind : CodeKind}

theorem step_raw (ht : t.tag? = none) (after : List Token) :
    (inRegion kind out).step before t after = inRegion kind (kind.laid t :: out) := by
  cases kind <;> simp [step, inRegion, insideCode, ht, push, CodeKind.laid]

theorem advance_raw_inRegion (hts : ∀ t ∈ ts, t.tag? = none) :
    (inRegion kind out).advance before ts rest =
      inRegion kind ((ts.map kind.laid).reverse ++ out) := by
  induction ts generalizing out before with
  | nil => rfl
  | cons t ts ih =>
    obtain ⟨ht, hts⟩ := List.forall_mem_cons.mp hts
    rw [advance, step_raw ht, ih hts]
    simp

/-- Outside of code raw tokens are kept. -/
theorem advance_raw (hts : ∀ t ∈ ts, t.tag? = none) :
    (behind out).advance before ts rest = behind (ts.reverse ++ out) := by
  induction ts generalizing out before with
  | nil => rfl
  | cons t ts ih =>
    obtain ⟨ht, hts⟩ := List.forall_mem_cons.mp hts
    rw [advance, step_of_none ht, ih hts]
    simp

/-- The text of code behind its start, which may have the first token skipped. -/
theorem advance_codeText (hts : ∀ t ∈ ts, t.tag? = none) :
    ({ inRegion kind out with skipNext := ts.head?.any Token.isRawNewlines } : Spacer).advance
        before ts rest =
      inRegion kind (((unskipped ts).map kind.laid).reverse ++ out) := by
  unfold unskipped
  cases ts with
  | nil => rfl
  | cons t ts =>
    rw [List.head?_cons, Option.any_some, List.tail_cons]
    cases hskip : t.isRawNewlines with
    | false =>
      rw [if_neg Bool.false_ne_true]
      exact advance_raw_inRegion hts
    | true =>
      rw [if_pos rfl, ← advance_raw_inRegion (List.forall_mem_cons.mp hts).2]
      rfl

end Spacer

section Classification

variable {front start fin close : Token} {out lead ts trail rest us : List Token} {t : Token}

theorem isNewline_of_tag?_none (h : t.tag? = none) : t.isNewline = false := by
  simp [Token.isNewline, Token.tagIs, h]

theorem isNativePre_of_tag?_none (h : t.tag? = none) (edge : Tag) :
    t.isNativePre edge = false := by
  simp [Token.isNativePre, Token.hasTag, h]

theorem tag?_of_isNativePre {edge : Tag} (h : t.isNativePre edge = true) :
    t.tag? = some edge := by
  rw [Token.isNativePre, Bool.and_eq_true] at h
  exact eq_of_beq h.1

theorem pastNewlines_of_not_newline (h : t.isNewline = false) (ts : List Token) :
    pastNewlines (t :: ts) = some (t, ts) := by
  simp [pastNewlines, h]

theorem pastNewlines_of_isNativePre {edge : Tag} (hedge : edge.isNewline = false)
    (h : t.isNativePre edge = true) (ts : List Token) : pastNewlines (t :: ts) = some (t, ts) := by
  refine pastNewlines_of_not_newline ?_ ts
  simp [Token.isNewline, Token.tagIs, tag?_of_isNativePre h, hedge]

theorem matchingCodeEnd_raw (hts : ∀ t ∈ ts, t.tag? = none) (n : Nat) (us : List Token) :
    matchingCodeEnd n (ts ++ us) = (matchingCodeEnd n us).map (· + ts.length) := by
  induction ts with
  | nil => simp
  | cons t ts ih =>
    obtain ⟨ht, hts⟩ := List.forall_mem_cons.mp hts
    rw [List.cons_append, matchingCodeEnd, ht, ih hts, Option.map_map, List.length_cons]
    rfl

/-- The first code end behind raw tokens matches the start in front of them. -/
theorem matchingCodeEnd_region (hstart : start.tag? = some .startCode)
    (hts : ∀ t ∈ ts, t.tag? = none) (hfin : fin.tag? = some .endCode) (us : List Token) :
    matchingCodeEnd 0 (start :: (ts ++ fin :: us)) = some (ts.length + 1) := by
  have hend : matchingCodeEnd 1 (fin :: us) = some 0 := by simp [matchingCodeEnd, hfin]
  rw [matchingCodeEnd, hstart]
  dsimp only
  rw [matchingCodeEnd_raw hts, hend]
  simp

theorem behind_native (hnative : front.isNativePre .startNativeBlock = true)
    (hlead : ∀ t ∈ lead, t.tag? = none) :
    CodeRegion.behind (lead.reverse ++ front :: out) =
      if lead = [] then some (some out.length) else none := by
  rcases List.eq_nil_or_concat lead with rfl | ⟨init, t, rfl⟩
  · simp [CodeRegion.behind, pastNewlines_of_isNativePre rfl hnative, hnative]
  · have ht : t.tag? = none := hlead t (by simp)
    simp [CodeRegion.behind, pastNewlines_of_not_newline (isNewline_of_tag?_none ht),
      isNativePre_of_tag?_none ht]

theorem ahead_native (hclose : close.isNativePre .endNativeBlock = true)
    (htrail : ∀ t ∈ trail, t.tag? = none) :
    CodeRegion.ahead (trail ++ close :: rest) =
      if trail = [] then some (some 0) else none := by
  cases trail with
  | nil => simp [CodeRegion.ahead, pastNewlines_of_isNativePre rfl hclose, hclose]
  | cons t trail =>
    have ht : t.tag? = none := htrail t List.mem_cons_self
    have hend : t.tagIs Tag.isBlockEnd = false := by simp [Token.tagIs, ht]
    simp [CodeRegion.ahead, pastNewlines_of_not_newline (isNewline_of_tag?_none ht),
      isNativePre_of_tag?_none ht, hend]

/-- Code in a native `<pre>` is a block if there is nothing else in the `<pre>`. -/
theorem classify_native (hnative : front.isNativePre .startNativeBlock = true)
    (hstart : start.tag? = some .startCode) (hfin : fin.tag? = some .endCode)
    (hclose : close.isNativePre .endNativeBlock = true) (hlead : ∀ t ∈ lead, t.tag? = none)
    (hts : ∀ t ∈ ts, t.tag? = none) (htrail : ∀ t ∈ trail, t.tag? = none) :
    CodeRegion.classify (lead.reverse ++ front :: out)
        (start :: (ts ++ fin :: (trail ++ close :: rest))) =
      if lead = [] ∧ trail = [] then
        { kind := .block, nativeOpen := some out.length, nativeClose := some (ts.length + 2) }
      else .inline := by
  have hdrop : (start :: (ts ++ fin :: (trail ++ close :: rest))).drop (ts.length + 1 + 1) =
      trail ++ close :: rest := by
    rw [List.drop_succ_cons, List.drop_length_add_append]
    rfl
  unfold CodeRegion.classify
  rw [matchingCodeEnd_region hstart hts hfin]
  dsimp only
  rw [hdrop, behind_native hnative hlead, ahead_native hclose htrail]
  by_cases hl : lead = [] <;> by_cases ht : trail = [] <;> simp [hl, ht]

end Classification

theorem within_quoteLevel (t : Token) (depth : Nat) :
    t.within (quoteLevel depth) = t.within (some depth) := by
  cases depth with
  | zero => simp only [quoteLevel, Token.within]; rfl
  | succ n => simp [quoteLevel, Token.within]

theorem isNativePre_within (t : Token) (depth : Option Nat) (edge : Tag) :
    (t.within depth).isNativePre edge = t.isNativePre edge := by
  unfold Token.isNativePre Token.nativeName?
  rw [Token.hasTag_within, Token.node_within]

theorem isRawNewlines_within (t : Token) (depth : Option Nat) :
    (t.within depth).isRawNewlines = t.isRawNewlines := by
  unfold Token.isRawNewlines
  rw [Token.node_within]

theorem stamped_unskipped (depth : Nat) (ts : List Token) :
    stamped depth (unskipped ts) = unskipped (stamped depth ts) := by
  unfold unskipped
  cases ts with
  | nil => rfl
  | cons t ts =>
    have hskip : (stamped depth (t :: ts)).head?.any Token.isRawNewlines = t.isRawNewlines :=
      isRawNewlines_within t _
    rw [hskip, List.head?_cons, Option.any_some]
    split <;> rfl

def nativeCode (opening closing : Html.Token) (lead ts trail : List Token) : List Token :=
  .startBlock :: .native .opening opening ::
    (lead ++ .startCode :: (ts ++ .endCode :: (trail ++ [.native .closing closing])))

/-- Code as a block behind a spaced output, the latest token first: on a line of its own, without
the space that it ends with. -/
def blockCode (depth : Nat) (ts out : List Token) : List Token :=
  ((stamped depth (unskipped ts)).map Token.inCodeBlock).reverse.dropWhile Spacer.isCodeSpace ++
    Spacer.codeLine (quoteLevel depth) out

/-- Code inline behind a spaced output, the latest token first: between delimiters, with the edges
of the `<pre>` and what stands beside the code. -/
def inlineCode (depth : Nat) (opening closing : Html.Token) (lead ts trail out : List Token) :
    List Token :=
  (stamped depth (.native .opening opening :: (lead ++ .charactersAdded "`" ::
    (unskipped ts ++ .charactersAdded "`" :: (trail ++ [.native .closing closing]))))).reverse ++
      out

/-- Code in a `<pre>` behind a spaced output: a block if it stands alone. -/
def spacedCode (depth : Nat) (opening closing : Html.Token) (lead ts trail out : List Token) :
    List Token :=
  if lead = [] ∧ trail = [] then blockCode depth ts out
  else inlineCode depth opening closing lead ts trail out

namespace Spacer

variable {out lead ts trail rest : List Token} {t n : Token} {before : Option Token} {depth : Nat}
  {opening closing : Html.Token} {kind : CodeKind}

/-- The mark that opens a block begins its line. -/
theorem step_startBlock (hn : n.quoteDepth = none) (hstart : n.tagIs Tag.isBlockStart = false)
    (hline : n.isNewline = false) :
    (behind out).step before (Token.startBlock.within (some depth))
        (n.within (some depth) :: rest) =
      behind (Markdown.settle (if n.tagIs Tag.opensOnNewLine then 1 else 2) (quoteLevel depth)
        out) := by
  have htag : (Token.startBlock.within (some depth)).tag? = some .startBlock :=
    Token.tag?_within _ _
  have hdepth : (Token.startBlock.within (some depth)).quoteDepth = quoteLevel depth :=
    Token.quoteDepth_within rfl depth
  have hline' : (n.within (some depth)).isNewline = false := by
    unfold Token.isNewline at hline ⊢
    rw [Token.tagIs_within, hline]
  rw [step_of_tag htag]
  simp only [ordinary, blockStart, List.head?_cons, Token.tagIs_within, hstart, hline',
    Bool.false_eq_true, or_false, if_false, Token.quoteDepth_within hn, hdepth]
  split_ifs <;> rfl

theorem tag?_stamped (hts : ∀ t ∈ ts, t.tag? = none) : ∀ t ∈ stamped depth ts, t.tag? = none := by
  intro t ht
  obtain ⟨u, hu, rfl⟩ := List.mem_map.mp ht
  rw [Token.tag?_within, hts u hu]

theorem isRawNewlines_of_tag {tag : Tag} (h : t.tag? = some tag) : t.isRawNewlines = false := by
  obtain ⟨node, quoteDepth, inCode⟩ := t
  cases node with
  | html raw => cases h
  | markdown _ _ | native _ _ => rfl

/-- The start of code: on its own line as a block, behind a delimiter where it is inline. -/
theorem step_codeStart {front start fin close : Token}
    (hnative : front.isNativePre .startNativeBlock = true)
    (hstart : start.tag? = some .startCode) (hfin : fin.tag? = some .endCode)
    (hclose : close.isNativePre .endNativeBlock = true) (hlead : ∀ t ∈ lead, t.tag? = none)
    (hts : ∀ t ∈ ts, t.tag? = none) (htrail : ∀ t ∈ trail, t.tag? = none) :
    (behind (lead.reverse ++ front :: out)).step before start
        (ts ++ fin :: (trail ++ close :: rest)) =
      { if lead = [] ∧ trail = [] then inRegion .block (codeLine start.quoteDepth out)
        else inRegion .inline (codeDelimiter start :: (lead.reverse ++ front :: out)) with
        skipNext := ts.head?.any Token.isRawNewlines } := by
  have hskip : (ts ++ fin :: (trail ++ close :: rest)).head?.any Token.isRawNewlines =
      ts.head?.any Token.isRawNewlines := by
    cases ts with
    | nil => simp [isRawNewlines_of_tag hfin]
    | cons t ts => rfl
  have htag : front.hasTag .startNativeBlock = true := by
    simp [Token.hasTag, tag?_of_isNativePre hnative]
  rw [step_of_tag hstart]
  simp only [ordinary, openCode, behind,
    classify_native hnative hstart hfin hclose hlead hts htrail, hskip]
  by_cases h : lead = [] ∧ trail = []
  · obtain ⟨rfl, rfl⟩ := h
    simp [htag, inRegion]
  · simp [h, CodeRegion.inline, inRegion, push]

theorem step_codeEnd {fin : Token} (hfin : fin.tag? = some .endCode) (after : List Token) :
    (inRegion kind out).step before fin after = match kind with
      | .block => { output := out.dropWhile isCodeSpace, dropNativeEnd := true }
      | .inline => behind (codeDelimiter fin :: out) := by
  cases kind <;> simp [step, inRegion, insideCode, hfin, closeCode, push, behind]

theorem isCodeSpace_of_isSingleNewline (h : t.tagIs Tag.isSingleNewline = true) :
    isCodeSpace t = false := by
  obtain ⟨node, quoteDepth, inCode⟩ := t
  cases node with
  | markdown tag data => exact Bool.and_false _
  | native edge raw => cases edge <;> cases h
  | html raw => cases h

/-- The line that a block of code begins with is not taken back at its end. -/
theorem dropWhile_codeLine (us : List Token) (d : Option Nat) (out : List Token) :
    (us ++ codeLine d out).dropWhile isCodeSpace = us.dropWhile isCodeSpace ++ codeLine d out := by
  have hline : (codeLine d out).dropWhile isCodeSpace = codeLine d out := by
    have hnewline (d : Option Nat) :
        isCodeSpace (Token.newline.within d).inCodeBlock = false :=
      isCodeSpace_of_isSingleNewline (Token.tagIs_within Token.newline d Tag.isSingleNewline)
    unfold codeLine
    dsimp only
    split
    · exact List.dropWhile_cons_of_neg (by simp [hnewline])
    · next last earlier =>
      split_ifs with hone
      · have hlast : isCodeSpace last.inCodeBlock = false := isCodeSpace_of_isSingleNewline hone
        exact List.dropWhile_cons_of_neg (by simp [hlast])
      · exact List.dropWhile_cons_of_neg (by simp [hnewline])
      · exact List.dropWhile_cons_of_neg (by simp [hnewline])
  rw [List.dropWhile_append, hline]
  split_ifs with hempty
  · rw [List.isEmpty_iff.mp hempty, List.nil_append]
  · rfl

/-- From the start of the code to the end of the `<pre>`. -/
theorem advance_code {front start fin close : Token}
    (hnative : front.isNativePre .startNativeBlock = true)
    (hstart : start.tag? = some .startCode) (hfin : fin.tag? = some .endCode)
    (hclose : close.isNativePre .endNativeBlock = true) (hlead : ∀ t ∈ lead, t.tag? = none)
    (hts : ∀ t ∈ ts, t.tag? = none) (htrail : ∀ t ∈ trail, t.tag? = none) :
    (behind (lead.reverse ++ front :: out)).advance before
        (start :: (ts ++ fin :: (trail ++ [close]))) rest =
      behind (if lead = [] ∧ trail = [] then
          ((unskipped ts).map Token.inCodeBlock).reverse.dropWhile isCodeSpace ++
            codeLine start.quoteDepth out
        else close :: (trail.reverse ++ codeDelimiter fin :: ((unskipped ts).reverse ++
          codeDelimiter start :: (lead.reverse ++ front :: out)))) := by
  have hend := tag?_of_isNativePre hclose
  rw [advance]
  simp only [List.append_assoc, List.cons_append, List.nil_append]
  rw [step_codeStart hnative hstart hfin hclose hlead hts htrail, advance_append]
  by_cases h : lead = [] ∧ trail = []
  · obtain ⟨rfl, rfl⟩ := h
    simp only [and_self, if_true]
    rw [advance_codeText hts, advance, step_codeEnd hfin, dropWhile_codeLine]
    simp [advance, step, hend, ordinary, behind]
  · simp only [if_neg h]
    rw [advance_codeText hts, advance, step_codeEnd hfin, advance_append, advance_raw htrail,
      advance, step_of_tag hend]
    simp [advance, ordinary, behind, push]

theorem isNativePre_opening (h : opening.name = some "pre") (depth : Nat) :
    ((Token.native .opening opening).within (some depth)).isNativePre .startNativeBlock = true := by
  rw [isNativePre_within]
  simp [Token.isNativePre, Token.native, Token.nativeName?, Token.hasTag, Token.tag?, h]

theorem isNativePre_closing (h : closing.name = some "pre") (depth : Nat) :
    ((Token.native .closing closing).within (some depth)).isNativePre .endNativeBlock = true := by
  rw [isNativePre_within]
  simp [Token.isNativePre, Token.native, Token.nativeName?, Token.hasTag, Token.tag?, h]

theorem codeDelimiter_within (tag : Tag) (depth : Nat) :
    codeDelimiter ((Token.markdown tag "").within (some depth)) =
      (Token.charactersAdded "`").within (some depth) := by
  rw [codeDelimiter, Token.quoteDepth_within rfl, within_quoteLevel]

theorem stamped_nativeCode (depth : Nat) (opening closing : Html.Token)
    (lead ts trail : List Token) : stamped depth (nativeCode opening closing lead ts trail) =
      Token.startBlock.within (some depth) ::
        (Token.native .opening opening).within (some depth) ::
          (stamped depth lead ++ Token.startCode.within (some depth) ::
            (stamped depth ts ++ Token.endCode.within (some depth) ::
              (stamped depth trail ++ [(Token.native .closing closing).within (some depth)]))) := by
  simp [nativeCode, stamped]

/-- Code in a `<pre>`, with its edges: behind it the output holds the code as it is spaced. -/
theorem advance_nativeCode (hopening : opening.name = some "pre")
    (hclosing : closing.name = some "pre") (hlead : ∀ t ∈ lead, t.tag? = none)
    (hts : ∀ t ∈ ts, t.tag? = none) (htrail : ∀ t ∈ trail, t.tag? = none)
    (out rest : List Token) (before : Option Token) :
    (behind out).advance before (stamped depth (nativeCode opening closing lead ts trail)) rest =
      behind (spacedCode depth opening closing lead ts trail
        (Markdown.settle 2 (quoteLevel depth) (Markdown.settle 2 (quoteLevel depth) out))) := by
  have hopens : (Token.native .opening opening).tagIs Tag.opensOnNewLine = false := rfl
  have hempty (us : List Token) : stamped depth us = [] ↔ us = [] := by simp [stamped]
  rw [stamped_nativeCode, advance, List.cons_append, step_startBlock rfl rfl rfl, hopens,
    if_neg Bool.false_ne_true, advance, step_native (Token.tag?_within _ _),
    Token.quoteDepth_within rfl, advance_append, advance_raw (tag?_stamped hlead),
    advance_code (isNativePre_opening hopening depth) (Token.tag?_within _ _)
      (Token.tag?_within _ _) (isNativePre_closing hclosing depth) (tag?_stamped hlead)
      (tag?_stamped hts) (tag?_stamped htrail),
    Token.quoteDepth_within rfl, spacedCode, blockCode, inlineCode, stamped_unskipped]
  simp only [hempty]
  split_ifs
  · rfl
  · have hstart : codeDelimiter (Token.startCode.within (some depth)) = _ :=
      codeDelimiter_within .startCode depth
    have hend : codeDelimiter (Token.endCode.within (some depth)) = _ :=
      codeDelimiter_within .endCode depth
    rw [hstart, hend, ← stamped_unskipped]
    simp [stamped]

end Spacer

end HtmlMarkdown.Markdown
