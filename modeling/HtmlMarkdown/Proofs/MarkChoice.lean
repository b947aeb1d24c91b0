import HtmlMarkdown.Proofs.Bystanders
import HtmlMarkdown.Proofs.Prose

/-!
# The choice of marks

The marks of emphasis and of bullets are a choice that the layout does not depend on. Two converters
that differ in it fail alike, or write streams that differ in the marks themselves and in nothing
else. A conversion with other marks is `remarked` from step to step; the spacing pass never reads a
mark, line heads hold none, and no mark is a newline, so the layout is remarked as well.
-/

namespace HtmlMarkdown

structure Marks where
  emphasis : Char
  strong : Char
  boldItalic : Char
  bullet : Char
  deriving DecidableEq, Repr

def Marks.of? (m : Marks) : Markdown.Tag → Option Char
  | .emphasis => some m.emphasis
  | .strong => some m.strong
  | .boldItalic => some m.boldItalic
  | .listItemStart => some m.bullet
  | _ => none

def Marks.Known (m : Marks) : Prop :=
  ∀ tag mark, m.of? tag = some mark → mark ∈ Options.emphasisMarks ++ Options.bullets

theorem Marks.of?_eq_none {tag : Markdown.Tag} (h : tag.isMarked = false) (m : Marks) :
    m.of? tag = none := by
  cases tag <;> first | rfl | cases h

theorem Marks.exists_of? {tag : Markdown.Tag} (h : tag.isMarked = true) (m : Marks) :
    ∃ mark, m.of? tag = some mark := by
  cases tag <;> first | exact ⟨_, rfl⟩ | cases h

theorem Marks.Known.ne {m : Marks} (h : m.Known) {tag : Markdown.Tag} {mark : Char}
    (hmark : m.of? tag = some mark) {c : Char}
    (hc : c ∉ Options.emphasisMarks ++ Options.bullets) : mark ≠ c := by
  rintro rfl
  exact hc (h tag mark hmark)

namespace Options

def marks (o : Options) : Marks where
  emphasis := o.emphasisMark
  strong := o.strongMark
  boldItalic := o.boldItalicMark
  bullet := o.bullet

def withMarks (o : Options) (m : Marks) : Options :=
  { o with
    emphasisMark := m.emphasis
    strongMark := m.strong
    boldItalicMark := m.boldItalic
    bullet := m.bullet }

theorem Valid.known_marks {o : Options} (h : o.Valid) : o.marks.Known := by
  intro tag mark hmark
  cases tag <;> cases hmark
  · exact List.mem_append_left _ h.boldItalicMark
  · exact List.mem_append_left _ h.emphasisMark
  · exact List.mem_append_right _ h.bullet
  · exact List.mem_append_left _ h.strongMark

/-- Sanitizing replaces marks one by one, and nothing that they do not concern. -/
theorem sanitized_withMarks (o : Options) (m : Marks) :
    (o.withMarks m).sanitized = o.sanitized.withMarks (o.withMarks m).sanitized.marks := rfl

end Options

namespace Markdown

def replaced (mark mark' : Char) (s : String) : String :=
  String.ofList (s.toList.map fun c => if c = mark then mark' else c)

def Token.remarked (m m' : Marks) (t : Token) : Token :=
  match t.node with
  | .markdown tag data =>
    match m.of? tag, m'.of? tag with
    | some mark, some mark' => { t with node := .markdown tag (replaced mark mark' data) }
    | _, _ => t
  | _ => t

section Replaced

variable {mark mark' : Char} {s : String}

@[simp] theorem toList_replaced (mark mark' : Char) (s : String) :
    (replaced mark mark' s).toList = s.toList.map fun c => if c = mark then mark' else c := by
  rw [replaced, String.toList_ofList]

theorem replaced_append (mark mark' : Char) (s t : String) :
    replaced mark mark' (s ++ t) = replaced mark mark' s ++ replaced mark mark' t := by
  rw [← String.toList_inj]
  simp

theorem map_replace_of_not_mem {cs : List Char} (h : mark ∉ cs) :
    (cs.map fun c => if c = mark then mark' else c) = cs := by
  refine (List.map_congr_left fun c hc => ?_).trans (List.map_id cs)
  rw [if_neg (by rintro rfl; exact h hc), id]

theorem replaced_of_not_mem (h : mark ∉ s.toList) : replaced mark mark' s = s := by
  rw [← String.toList_inj, toList_replaced, map_replace_of_not_mem h]

theorem replaced_toString (mark mark' : Char) :
    replaced mark mark' mark.toString = mark'.toString := by
  rw [← String.toList_inj, toList_replaced]
  simp [Char.toString]

theorem replaced_repeated (mark mark' : Char) (n : Nat) :
    replaced mark mark' (repeated n mark.toString) = repeated n mark'.toString := by
  rw [← String.toList_inj, toList_replaced]
  simp [repeated, Char.toString]

/-- Where no mark is a newline, newlines stay newlines and nothing becomes one. -/
theorem isNewlineChar_replace (h : mark ≠ '\n') (h' : mark' ≠ '\n') :
    (isNewlineChar ∘ fun c => if c = mark then mark' else c) = isNewlineChar := by
  funext c
  by_cases hc : c = mark
  · simp [isNewlineChar, hc, h, h']
  · simp [hc]

theorem replaced_indentLines (h : mark ≠ '\n') (h' : mark' ≠ '\n') {head : List Char}
    (hhead : mark ∉ head) (s : String) :
    indentLines head (replaced mark mark' s) = replaced mark mark' (indentLines head s) := by
  rw [← String.toList_inj]
  simp only [indentLines, toList_replaced, String.toList_ofList, List.flatMap_map, List.map_flatMap]
  congr 1
  funext c
  by_cases hc : c = '\n'
  · subst hc
    simp [h.symm, map_replace_of_not_mem hhead]
  · by_cases hmark : c = mark
    · simp [hmark, h, h']
    · simp [hc, hmark]

theorem replaced_trimNewlinesStart (h : mark ≠ '\n') (h' : mark' ≠ '\n') (s : String) :
    trimNewlinesStart (replaced mark mark' s) = replaced mark mark' (trimNewlinesStart s) := by
  rw [← String.toList_inj]
  simp only [trimNewlinesStart, toList_replaced, String.toList_ofList, List.dropWhile_map,
    isNewlineChar_replace h h']

theorem replaced_trimNewlinesEnd (h : mark ≠ '\n') (h' : mark' ≠ '\n') (s : String) :
    trimNewlinesEnd (replaced mark mark' s) = replaced mark mark' (trimNewlinesEnd s) := by
  rw [← String.toList_inj]
  simp only [trimNewlinesEnd, toList_replaced, String.toList_ofList, Text.dropTail,
    ← List.map_reverse, List.dropWhile_map, isNewlineChar_replace h h']

end Replaced

section Layout

variable {m m' : Marks} {t : Token}

theorem Token.remarked_of_unmarked (h : t.tagIs Tag.isMarked = false) :
    t.remarked m m' = t := by
  obtain ⟨node, _, _⟩ := t
  cases node with
  | markdown tag data =>
    have hnone := Marks.of?_eq_none (show tag.isMarked = false from h) m
    simp only [Token.remarked, hnone]
  | native | html => rfl

/-- A token that is Markdown with a mark in its data, and what becomes of it. -/
theorem Token.exists_remarked (h : t.tagIs Tag.isMarked = true) (m m' : Marks) :
    ∃ tag data mark mark', t.node = .markdown tag data ∧ tag.isMarked = true ∧
      m.of? tag = some mark ∧ m'.of? tag = some mark' ∧
      t.remarked m m' = { t with node := .markdown tag (replaced mark mark' data) } := by
  obtain ⟨node, _, _⟩ := t
  cases node with
  | markdown tag data =>
    have htag : tag.isMarked = true := h
    obtain ⟨mark, hmark⟩ := m.exists_of? htag
    obtain ⟨mark', hmark'⟩ := m'.exists_of? htag
    refine ⟨tag, data, mark, mark', rfl, htag, hmark, hmark', ?_⟩
    simp only [remarked, hmark, hmark']
  | native edge raw => cases edge <;> cases h
  | html raw => cases h

theorem relabelling_remarked (m m' : Marks) : Relabelling (Token.remarked m m') := by
  have cases_on {motive : Token → Token → Prop} (same : ∀ t, motive t t)
      (marked : ∀ t tag data data', t.node = .markdown tag data →
        motive t { t with node := .markdown tag data' }) (t : Token) :
      motive t (t.remarked m m') := by
    cases hm : t.tagIs Tag.isMarked with
    | false => rw [Token.remarked_of_unmarked hm]; exact same t
    | true =>
      obtain ⟨tag, data, mark, mark', hnode, -, -, -, heq⟩ := Token.exists_remarked hm m m'
      rw [heq]
      exact marked t tag data _ hnode
  refine
    { tag? := cases_on (motive := fun t u => u.tag? = t.tag?) (fun _ => rfl) ?_
      quoteDepth := cases_on (motive := fun t u => u.quoteDepth = t.quoteDepth) (fun _ => rfl)
        fun _ _ _ _ _ => rfl
      inCode := cases_on (motive := fun t u => u.inCode = t.inCode) (fun _ => rfl)
        fun _ _ _ _ _ => rfl
      node := ?_
      unmarked := fun _ => Token.remarked_of_unmarked }
  · intro t tag data data' hnode
    rw [Token.tag?, Token.tag?, hnode]
  · intro t u hnode
    simp only [Token.remarked, hnode]
    split
    · split <;> simp [hnode]
    · exact hnode

/-- A change of texts that commutes with the replacing of known marks. -/
def Texts (m m' : Marks) (f : String → String) : Prop :=
  ∀ tag mark mark', m.of? tag = some mark → m'.of? tag = some mark' →
    ∀ s, f (replaced mark mark' s) = replaced mark mark' (f s)

theorem mapText_remarked {f : String → String} (hf : Texts m m' f) (t : Token) :
    (t.remarked m m').mapText f = (t.mapText f).remarked m m' := by
  obtain ⟨node, depth, flag⟩ := t
  cases node with
  | markdown tag data =>
    simp only [Token.remarked, Token.mapText]
    cases hmark : m.of? tag with
    | none => rfl
    | some mark =>
      cases hmark' : m'.of? tag with
      | none => rfl
      | some mark' => simp only [hf tag mark mark' hmark hmark']
  | native edge raw => rfl
  | html raw =>
    simp only [Token.remarked, Token.mapText]
    split <;> rfl

theorem isSpacing_remarked (t : Token) : (t.remarked m m').isSpacing = t.isSpacing ∧
    (t.remarked m m').isPureSpace = t.isPureSpace := by
  cases hmarked : t.tagIs Tag.isMarked with
  | false => rw [Token.remarked_of_unmarked hmarked]; exact ⟨rfl, rfl⟩
  | true =>
    obtain ⟨tag, data, mark, mark', hnode, htag, -, -, heq⟩ := Token.exists_remarked hmarked m m'
    rw [heq]
    have hkind : tag.renderKind = .literal := by cases tag <;> first | rfl | cases htag
    simp only [Token.isSpacing, Token.isPureSpace, hnode, hkind]
    exact ⟨rfl, trivial⟩

variable (hm : m.Known) (hm' : m'.Known)
include hm hm'

theorem indentToken_remarked (t : Token) :
    indentToken (t.remarked m m') = (indentToken t).remarked m m' := by
  have hphi := relabelling_remarked m m'
  rw [indentToken, Token.markers, hphi.quoteDepth, hphi.inCode]
  refine mapText_remarked (fun tag mark mark' hmark hmark' s => ?_) t
  refine replaced_indentLines (hm.ne hmark (by decide)) (hm'.ne hmark' (by decide)) ?_ s
  refine not_mem_lineHead ?_ _ _
  simp [hm.ne hmark (c := '>') (by decide), hm.ne hmark (c := ' ') (by decide)]

theorem isLeadingSpace_remarked (t : Token) :
    isLeadingSpace (t.remarked m m') = isLeadingSpace t := by
  have hnewlines : isNewlinesOnly (t.remarked m m') = isNewlinesOnly t := by
    cases hmarked : t.tagIs Tag.isMarked with
    | false => rw [Token.remarked_of_unmarked hmarked]
    | true =>
      obtain ⟨tag, data, mark, mark', hnode, -, hmark, hmark', heq⟩ :=
        Token.exists_remarked hmarked m m'
      have hblind := isNewlineChar_replace (hm.ne hmark (c := '\n') (by decide))
        (hm'.ne hmark' (by decide))
      have hempty : (replaced mark mark' data == "") = (data == "") := by
        rw [Bool.eq_iff_iff, beq_iff_eq, beq_iff_eq, ← String.toList_inj, ← String.toList_inj]
        simp
      rw [heq]
      simp only [isNewlinesOnly, Token.text?, hnode, Option.any_some, bne, hempty,
        toList_replaced, List.all_map, hblind]
  rw [isLeadingSpace, hnewlines, (isSpacing_remarked t).2, isLeadingSpace]

theorem trimStart_remarked (ts : List Token) :
    trimStart (ts.map (Token.remarked m m')) = (trimStart ts).map (Token.remarked m m') := by
  have hleading : isLeadingSpace ∘ Token.remarked m m' = isLeadingSpace :=
    funext (isLeadingSpace_remarked hm hm')
  have htrim : Texts m m' trimNewlinesStart := fun tag mark mark' hmark hmark' =>
    replaced_trimNewlinesStart (hm.ne hmark (by decide)) (hm'.ne hmark' (by decide))
  unfold trimStart
  rw [List.dropWhile_map, hleading]
  cases ts.dropWhile isLeadingSpace with
  | nil => rfl
  | cons first rest => simp only [List.map_cons, mapText_remarked htrim]

theorem trimEnd_remarked (ts : List Token) :
    trimEnd (ts.map (Token.remarked m m')) = (trimEnd ts).map (Token.remarked m m') := by
  have hpure : (fun t => Token.isPureSpace t) ∘ Token.remarked m m' = (·.isPureSpace) :=
    funext fun t => (isSpacing_remarked t).2
  have htrim : Texts m m' trimNewlinesEnd := fun tag mark mark' hmark hmark' =>
    replaced_trimNewlinesEnd (hm.ne hmark (by decide)) (hm'.ne hmark' (by decide))
  unfold trimEnd
  rw [← List.map_reverse, List.dropWhile_map, hpure]
  cases ts.reverse.dropWhile (·.isPureSpace) with
  | nil => rfl
  | cons last earlier =>
    simp only [List.map_cons, (isSpacing_remarked last).1, mapText_remarked htrim,
      List.map_reverse]
    split <;> rfl

/-- The layout of a stream with other marks is the layout of the stream, with other marks. -/
theorem layout_remarked (ts : List Token) :
    layout (ts.map (Token.remarked m m')) = (layout ts).map (Token.remarked m m') := by
  have hphi := relabelling_remarked m m'
  have hindent (us : List Token) : indentAll (us.map (Token.remarked m m')) =
      (indentAll us).map (Token.remarked m m') := by
    simp only [indentAll, List.map_map]
    exact List.map_congr_left fun t _ => indentToken_remarked hm hm' t
  rw [layout, hphi.space, hphi.layRules, hindent, trim, trimStart_remarked hm hm',
    trimEnd_remarked hm hm']
  rfl

end Layout

end Markdown

namespace Conversion

open Markdown (Token Tag repeated replaced replaced_append replaced_of_not_mem replaced_repeated
  replaced_toString)

def Reaction.remarked (m m' : Marks) (r : Reaction) : Reaction :=
  { r with produced := r.produced.map (Token.remarked m m') }

variable {o : Options} {w : Window} {last : Option Token} {ctx : Context} {r : Reaction}
  {m m' : Marks}

theorem Reaction.remarked_of_isPlain (h : r.isPlain = true) : r.remarked m m' = r := by
  have hid : r.produced.map (Token.remarked m m') = r.produced := by
    refine (List.map_congr_left fun t ht => ?_).trans (List.map_id _)
    exact Token.remarked_of_unmarked (by simpa using List.all_eq_true.mp h t ht)
  rw [Reaction.remarked, hid]

theorem Reaction.Bystands.remarked_eq (h : r.Bystands ctx) : r.remarked m m' = r :=
  Reaction.remarked_of_isPlain h.isPlain

theorem map_remarked_of_isPlain {x : Except Failure Reaction}
    (h : ∀ r, x = .ok r → r.isPlain = true) : x.map (Reaction.remarked m m') = x := by
  cases x with
  | error f => rfl
  | ok r => exact congrArg Except.ok (Reaction.remarked_of_isPlain (h r rfl))

theorem map_remarked_of_bystands {x : Except Failure Reaction}
    (h : ∀ {r}, x = .ok r → r.Bystands ctx) : x.map (Reaction.remarked m m') = x :=
  map_remarked_of_isPlain fun _ hr => (h hr).isPlain

theorem remarked_emphasisMarker (o : Options) (m : Marks) (strong : Bool) :
    emphasisMarker (o.withMarks m) strong = (emphasisMarker o strong).remarked o.marks m := by
  cases strong with
  | false => exact congrArg (Token.markdown .emphasis) (replaced_toString _ _).symm
  | true => exact congrArg (Token.markdown .strong) (replaced_repeated _ _ 2).symm

theorem remarked_boldItalic (o : Options) (m : Marks) :
    Token.boldItalic m.boldItalic = (Token.boldItalic o.boldItalicMark).remarked o.marks m :=
  congrArg (Token.markdown .boldItalic) (replaced_repeated _ _ 3).symm

theorem emphasis_withMarks (m : Marks) (strong opening : Bool) :
    emphasis (o.withMarks m) w strong opening ctx =
      (emphasis o w strong opening ctx).remarked o.marks m := by
  have hfused : (Options.withMarks o m).boldItalicMark = m.boldItalic := rfl
  simp only [emphasis, remarked_emphasisMarker, hfused, remarked_boldItalic o]
  split
  · next fusion _ => cases fusion <;> simp [Fusion.tokens, Reaction.emit, Reaction.remarked,
      hfused, remarked_boldItalic o]
  · split <;> rfl

/-- No mark of a list stands in the head of an item but the bullet itself. -/
theorem remarked_listItemStart (ho : o.bullet ∈ Options.bullets) (m : Marks) (depth : Nat)
    (n : Nat) :
    (Token.listItemStart depth (.mark o.bullet)).remarked o.marks m =
        .listItemStart depth (.mark m.bullet) ∧
      (Token.listItemStart depth (.ordinal n)).remarked o.marks m =
        .listItemStart depth (.ordinal n) := by
  have hne {c : Char} (hc : c ∉ Options.bullets) : o.bullet ≠ c := by rintro rfl; exact hc ho
  have hdigit : o.bullet.isDigit = false := by
    simp only [Options.bullets, List.mem_cons, List.not_mem_nil, or_false] at ho
    rcases ho with h | h | h <;> rw [h] <;> rfl
  have hindent : replaced o.bullet m.bullet (repeated (depth - 1) "  ") =
      repeated (depth - 1) "  " := by
    refine replaced_of_not_mem ?_
    simp [repeated, hne (c := ' ') (by decide)]
  have hbefore : replaced o.bullet m.bullet "\n" = "\n" :=
    replaced_of_not_mem (by simp [hne (c := '\n') (by decide)])
  have hbehind : replaced o.bullet m.bullet " " = " " :=
    replaced_of_not_mem (by simp [hne (c := ' ') (by decide)])
  have hordinal : replaced o.bullet m.bullet (toString n ++ ".") = toString n ++ "." := by
    refine replaced_of_not_mem ?_
    rw [String.toList_append, List.mem_append, not_or]
    exact ⟨Markdown.not_mem_toString hdigit n, by simp [hne (c := '.') (by decide)]⟩
  constructor
  · change Token.markdown .listItemStart (replaced o.bullet m.bullet _) = _
    simp only [replaced_append, hbefore, hindent, hbehind, Markdown.Bullet.text, replaced_toString]
    rfl
  · change Token.markdown .listItemStart (replaced o.bullet m.bullet _) = _
    rw [replaced_append, replaced_append, replaced_append, hbefore, hindent, hbehind,
      Markdown.Bullet.text, hordinal]
    rfl

theorem item_withMarks (ho : o.bullet ∈ Options.bullets) (m : Marks) (opening : Bool) :
    item (o.withMarks m) opening ctx = (item o opening ctx).map (Reaction.remarked o.marks m) := by
  cases opening with
  | false => exact (map_remarked_of_bystands (x := item o false ctx) bystands_closeItem).symm
  | true =>
    have hbullet : (o.withMarks m).bullet = m.bullet := rfl
    simp only [item, if_true, nextBullet, Except.map, Reaction.remarked, Reaction.emit,
      List.map_cons, List.map_nil, hbullet]
    split
    · rw [(remarked_listItemStart ho m _ _).2]
    · rw [(remarked_listItemStart ho m _ 0).1]

theorem pairedTag_withMarks (ho : o.bullet ∈ Options.bullets) (m : Marks) :
    pairedTag (o.withMarks m) w ctx =
      (pairedTag o w ctx).map (Reaction.remarked o.marks m) := by
  unfold pairedTag
  dsimp only
  cases Html.roleOf w.token.tagName with
  | item => exact item_withMarks ho m _
  | emphasis strong => exact congrArg Except.ok (emphasis_withMarks m strong _)
  | heading level => exact (map_remarked_of_bystands bystands_heading).symm
  | paragraph => exact (map_remarked_of_bystands bystands_paragraph).symm
  | division =>
    dsimp only
    change (if o.divAsBlock = true then _ else _) = _
    split
    · exact (map_remarked_of_bystands bystands_paragraph).symm
    · rfl
  | list kind =>
    dsimp only
    split
    · exact congrArg Except.ok (Reaction.remarked_of_isPlain (isPlain_openList kind)).symm
    · exact (map_remarked_of_isPlain fun r => isPlain_closeList).symm
  | anchor => exact (map_remarked_of_bystands bystands_anchor).symm
  | quote => exact (map_remarked_of_bystands bystands_quote).symm
  | code => exact (map_remarked_of_bystands bystands_code).symm
  | pre => exact (map_remarked_of_bystands bystands_preformatted).symm
  | script => exact (map_remarked_of_bystands bystands_script).symm
  | bareLink => exact congrArg Except.ok (bystands_autolink _).remarked_eq.symm
  | other => exact (map_remarked_of_bystands bystands_otherTag).symm

theorem tag_withMarks (ho : o.bullet ∈ Options.bullets) (m : Marks) :
    tag (o.withMarks m) w ctx = (tag o w ctx).map (Reaction.remarked o.marks m) := by
  unfold tag
  split
  · exact congrArg Except.ok (bystands_emptyPair _ _).remarked_eq.symm
  · exact pairedTag_withMarks ho m

/-- What a step sees of the token emitted last is its tag. -/
theorem ordinary_withMarks (ho : o.bullet ∈ Options.bullets) (m : Marks) :
    ordinary (o.withMarks m) w (last.map (Token.remarked o.marks m)) ctx =
      (ordinary o w last ctx).map (Reaction.remarked o.marks m) := by
  have hphi := Markdown.relabelling_remarked o.marks m
  have hempty : emptyTag (o.withMarks m) w.token (last.map (Token.remarked o.marks m)) ctx =
      emptyTag o w.token last ctx := by
    have hbreak : lineBreak (last.map (Token.remarked o.marks m)) ctx = lineBreak last ctx := by
      unfold lineBreak
      rw [hphi.any_map]
    unfold emptyTag
    rw [hbreak]
    rfl
  have hspace : spaceCharacters w.token (last.map (Token.remarked o.marks m)) ctx =
      spaceCharacters w.token last ctx := by
    cases last with
    | none => rfl
    | some t =>
      unfold spaceCharacters settleSpace
      simp only [Option.map_some, Option.bind_some, hphi.tag?, reduceCtorEq]
  unfold ordinary
  rw [hempty, hspace]
  cases w.token.kind with
  | startTag | endTag => exact tag_withMarks ho m
  | emptyTag => exact congrArg Except.ok (bystands_emptyTag _).remarked_eq.symm
  | characters => exact congrArg Except.ok bystands_characters.remarked_eq.symm
  | spaceCharacters => exact congrArg Except.ok (bystands_spaceCharacters _).remarked_eq.symm
  | comment =>
    refine congrArg Except.ok (Reaction.remarked_of_isPlain ?_).symm
    change (if o.stripComments = true then _ else _ : Reaction).isPlain = true
    split <;> rfl
  | doctype | parseError => rfl

theorem react_withMarks (ho : o.bullet ∈ Options.bullets) (m : Marks) (w : Window)
    (last : Option Token) (ctx : Context) :
    react (o.withMarks m) w (last.map (Token.remarked o.marks m)) ctx =
      (react o w last ctx).map (Reaction.remarked o.marks m) := by
  have hstrip : (o.withMarks m).stripScripts = o.stripScripts := rfl
  unfold react
  rw [hstrip]
  split
  · exact congrArg Except.ok (bystands_insideStripped _).remarked_eq.symm
  · split
    · next r hr =>
      split at hr
      · exact congrArg Except.ok (bystands_insideSensitive hr).remarked_eq.symm
      · cases hr
    · exact ordinary_withMarks ho m

def State.remarked (m m' : Marks) (s : State) : State :=
  { s with emitted := s.emitted.map (Token.remarked m m') }

theorem accept_remarked (m m' : Marks) (s : State) (t : Html.Token) (r : Reaction) :
    (s.remarked m m').accept t (r.remarked m m') = (s.accept t r).remarked m m' := by
  have hwithin (d : Option Nat) (u : Token) :
      (u.remarked m m').within d = (u.within d).remarked m m' :=
    ((Markdown.relabelling_remarked m m').within u d).symm
  obtain ⟨c, produced, replacesLast, notices⟩ := r
  cases replacesLast <;>
    simp [State.accept, State.remarked, Reaction.remarked, Function.comp_def, hwithin,
      List.map_tail]

theorem step_withMarks (ho : o.bullet ∈ Options.bullets) (m : Marks) (s : State) (t : Html.Token)
    (after : List Html.Token) : (s.remarked o.marks m).step (o.withMarks m) t after =
      (s.step o t after).map (State.remarked o.marks m) := by
  have hreact := react_withMarks ho m (s.window t after) s.emitted.head? s.context
  rw [← List.head?_map] at hreact
  unfold State.step
  refine (congrArg (Except.map _) hreact).trans ?_
  cases react o (s.window t after) s.emitted.head? s.context with
  | error f => rfl
  | ok r => exact congrArg Except.ok (accept_remarked o.marks m s t r)

theorem run_withMarks (ho : o.bullet ∈ Options.bullets) (m : Marks) (s : State)
    (ts : List Html.Token) : (s.remarked o.marks m).run (o.withMarks m) ts =
      ((s.run o ts).1.remarked o.marks m, (s.run o ts).2) := by
  induction ts generalizing s with
  | nil => rfl
  | cons t ts ih =>
    simp only [State.run, step_withMarks ho m]
    cases s.step o t ts with
    | error f => rfl
    | ok s' => exact ih s'

theorem body_remarked (m m' : Marks) (s : State) :
    (s.remarked m m').body = s.body.map (Token.remarked m m') := by
  have hrefs : (s.remarked m m').context.references = s.context.references := rfl
  have hout : (s.remarked m m').emitted = s.emitted.map (Token.remarked m m') := rfl
  unfold State.body
  rw [hrefs, hout]
  split_ifs
  · rw [List.map_reverse]
  · cases s.emitted with
    | nil => rfl
    | cons last rest =>
      simp only [List.map_cons, (Markdown.relabelling_remarked m m').tagIs]
      split_ifs <;> simp only [List.map_reverse, List.map_cons]

/-- There are no marks in the definitions of references. -/
theorem referenceBlock_remarked (m m' : Marks) (references : References) :
    (State.referenceBlock references).map (Token.remarked m m') =
      State.referenceBlock references := by
  refine (List.map_congr_left fun u hu => ?_).trans (List.map_id _)
  rw [State.referenceBlock_eq] at hu
  simp only [List.mem_append, List.mem_flatMap, List.mem_cons, List.not_mem_nil, or_false] at hu
  rcases hu with ((rfl | rfl) | ⟨entry, -, rfl | rfl⟩) | rfl <;> rfl

theorem finished_remarked (m m' : Marks) (s : State) :
    (s.remarked m m').finished = s.finished.map (Token.remarked m m') := by
  have hrefs : (s.remarked m m').context.references = s.context.references := rfl
  rw [State.finished_eq, State.finished_eq, List.map_append, body_remarked, hrefs]
  congr 1
  split
  · rfl
  · exact (referenceBlock_remarked m m' _).symm

/-- With other marks a conversion fails alike, or leads to the same tokens with these marks. -/
theorem convert_withMarks (ho : o.bullet ∈ Options.bullets) (m : Marks) (ts : List Html.Token) :
    convert (o.withMarks m) ts = (convert o ts).map (List.map (Token.remarked o.marks m)) := by
  have hrun : ({} : State).run (o.withMarks m) ts = _ := run_withMarks ho m {} ts
  unfold convert outcome
  rw [hrun]
  cases ({} : State).run o ts with
  | mk s failure =>
    cases failure with
    | some f => rfl
    | none => exact congrArg Except.ok (finished_remarked o.marks m s)

end Conversion

/-- The layout does not depend on the choice of marks: two converters with options that differ in
their marks only fail alike, or lay out streams that are equal token by token up to the marks in
the data of emphasis and list items. -/
theorem Converter.adapt_withMarks (o : Options) (m : Marks) (ts : List Html.Token) :
    (ofOptions (o.withMarks m)).adapt ts = ((ofOptions o).adapt ts).map
      (List.map (Markdown.Token.remarked o.sanitized.marks (o.withMarks m).sanitized.marks)) := by
  have hvalid : o.sanitized.Valid := o.valid_sanitized
  have hvalid' : (o.withMarks m).sanitized.Valid := Options.valid_sanitized _
  have hconvert := Conversion.convert_withMarks hvalid.bullet (o.withMarks m).sanitized.marks ts
  rw [← Options.sanitized_withMarks] at hconvert
  simp only [adapt, ofOptions, hconvert]
  cases Conversion.convert o.sanitized ts with
  | error f => rfl
  | ok stream =>
    exact congrArg Except.ok
      (Markdown.layout_remarked hvalid.known_marks hvalid'.known_marks stream)

end HtmlMarkdown
