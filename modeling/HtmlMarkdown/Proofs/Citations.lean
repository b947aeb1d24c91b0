import HtmlMarkdown.Proofs.Handling
import HtmlMarkdown.Proofs.Trace

/-!
# Citations

A link or an image in reference form is read back from its text, which ends in the number of the
reference: it cites the address of its element. The definitions at the end of a conversion are the
addresses that were cited, each where it came up first, and every number leads to the address of
the element that it was written for.
-/

namespace HtmlMarkdown.Markdown

/-- The number at the end of a text that ends in `][`, digits and `]`. -/
def numberAtEnd? (cs : List Char) : Option Nat :=
  match cs.reverse with
  | ']' :: rest =>
    match rest.dropWhile Char.isDigit with
    | '[' :: ']' :: _ => Html.decimal? (rest.takeWhile Char.isDigit).reverse
    | _ => none
  | _ => none

theorem decimal?_toDigits (n : Nat) : Html.decimal? (Nat.toDigits 10 n) = some n := by
  have hdigits : (Nat.toDigits 10 n).all Char.isDigit = true :=
    List.all_eq_true.mpr fun c hc => Nat.isDigit_of_mem_toDigits (by omega) (by omega) hc
  have hne : (Nat.toDigits 10 n).isEmpty = false := by simp
  have hvalue := Nat.ofDigitChars_toDigits (n := n) (b := 10) (by omega) (by omega)
  simp only [Html.decimal?, hdigits, hne]
  exact congrArg some hvalue

theorem numberAtEnd?_append (cs : List Char) (n : Nat) :
    numberAtEnd? (cs ++ "][".toList ++ (toString n).toList ++ "]".toList) = some n := by
  have hdigits : ∀ c ∈ (Nat.toDigits 10 n).reverse, c.isDigit = true := fun c hc =>
    Nat.isDigit_of_mem_toDigits (by omega) (by omega) (List.mem_reverse.mp hc)
  have hreverse : (cs ++ "][".toList ++ (toString n).toList ++ "]".toList).reverse =
      ']' :: ((Nat.toDigits 10 n).reverse ++ '[' :: ']' :: cs.reverse) := by
    simp
  unfold numberAtEnd?
  rw [hreverse]
  simp only
  rw [List.dropWhile_append_of_pos hdigits, List.takeWhile_append_of_pos hdigits]
  simp [decimal?_toDigits]

namespace Token

def reference? (t : Token) : Option Nat :=
  match t.node with
  | .markdown .anchorInline data | .markdown .image data => numberAtEnd? data.toList
  | _ => none

@[simp] theorem reference?_within (t : Token) (d : Option Nat) :
    (t.within d).reference? = t.reference? := by
  unfold reference?
  rw [node_within]

theorem reference?_anchorReferenceLink (text : String) (n : Nat) :
    (anchorReferenceLink text n).reference? = some n := by
  have h := numberAtEnd?_append ("[".toList ++ text.toList) n
  simpa [anchorReferenceLink, reference?, markdown] using h

theorem reference?_image_some (src : String) (alt title : Option String) (n : Nat) :
    (image src alt title (some n)).reference? = some n := by
  have h := numberAtEnd?_append ("![".toList ++ (imageText alt).toList) n
  simpa [image, reference?, markdown] using h

theorem reference?_anchorInline (href text : String) (title : Option String) :
    (anchorInline href text title).reference? = none := by
  simp [anchorInline, reference?, markdown, numberAtEnd?]

theorem reference?_image_none (src : String) (alt title : Option String) :
    (image src alt title none).reference? = none := by
  simp [image, reference?, markdown, numberAtEnd?]

end Token

end HtmlMarkdown.Markdown

namespace HtmlMarkdown.Conversion

open Markdown (Token)

variable {o : Options} {w : Window} {last : Option Token} {ctx : Context} {r : Reaction}
  {rest ts : List Html.Token} {s s' : State}

def address? (t : Html.Token) : Option String :=
  t.filledAttribute? (if t.kind = .startTag then "href" else "src")

def citation? (step : Html.Token × Reaction) : Option (String × Option String) :=
  if step.2.produced.any (·.reference?.isSome) then
    (address? step.1).map (·, step.1.filledAttribute? "title")
  else none

/-- The first of the entries with each key, in their order. -/
def firstUses : List (String × Option String) → List (String × Option String)
  | [] => []
  | use :: uses => use :: (firstUses uses).filter (·.1 ≠ use.1)

/-- A definition with its number, its address, and its title in double quotes if it has one. Each
quote in the title has a backslash before it. -/
def definitionLine (n : Nat) (href : String) (title : Option String) : String :=
  "[" ++ toString n ++ "]: " ++ href ++
    match title.filter (· ≠ "") with
    | none => ""
    | some title => " \"" ++
        String.ofList (title.toList.flatMap fun c => if c = '"' then ['\\', '"'] else [c]) ++ "\""

/-- A blank line and the definitions, numbered from one, between block marks; nothing if there are
none. -/
def definitionBlock (defs : List (String × Option String)) : List Token :=
  if defs = [] then []
  else [.markdown .newlineBlank "\n\n", .markdown .startBlock ""] ++
    (defs.zipIdx 1).flatMap (fun ((href, title), n) =>
      [.markdown .newline "\n", .markdown .anchorReference (definitionLine n href title)]) ++
    [.markdown .endBlock ""]

structure Cites (defs : List (String × Option String)) (n : Nat) (t : Html.Token) : Prop where
  pos : 1 ≤ n
  le : n ≤ defs.length
  address : defs[n - 1]?.map Prod.fst = address? t

theorem mem_keys_filter {key k : String} (h : key ≠ k) (uses : List (String × Option String)) :
    key ∈ (uses.filter (·.1 ≠ k)).map Prod.fst ↔ key ∈ uses.map Prod.fst := by
  simp only [List.mem_map, List.mem_filter, decide_eq_true_eq]
  constructor
  · rintro ⟨entry, ⟨hm, -⟩, he⟩
    exact ⟨entry, hm, he⟩
  · rintro ⟨entry, hm, he⟩
    exact ⟨entry, ⟨hm, he ▸ h⟩, he⟩

theorem nodup_firstUses (uses : List (String × Option String)) :
    ((firstUses uses).map Prod.fst).Nodup := by
  induction uses with
  | nil => exact List.nodup_nil
  | cons use uses ih =>
    rw [firstUses, List.map_cons, List.nodup_cons]
    refine ⟨?_, ih.sublist (List.filter_sublist.map _)⟩
    simp

/-- A key that comes again adds nothing. -/
theorem firstUses_append_singleton (uses : List (String × Option String))
    (use : String × Option String) : firstUses (uses ++ [use]) =
      if use.1 ∈ (firstUses uses).map Prod.fst then firstUses uses
      else firstUses uses ++ [use] := by
  induction uses with
  | nil => simp [firstUses]
  | cons v uses ih =>
    rw [List.cons_append, firstUses, firstUses, ih]
    by_cases hkey : use.1 = v.1
    · simp only [hkey, List.map_cons, List.mem_cons, true_or, if_true]
      split_ifs
      · rfl
      · simp [hkey]
    · simp only [List.map_cons, List.mem_cons, hkey, false_or, mem_keys_filter hkey]
      split_ifs
      · rfl
      · simp [hkey]

theorem firstUses_grows (uses more : List (String × Option String)) :
    firstUses uses <+: firstUses (uses ++ more) := by
  induction more generalizing uses with
  | nil => simp
  | cons use more ih =>
    have hone : firstUses uses <+: firstUses (uses ++ [use]) := by
      rw [firstUses_append_singleton]
      split_ifs
      · exact List.prefix_rfl
      · exact List.prefix_append _ _
    rw [List.append_cons]
    exact hone.trans (ih _)

theorem firstUses_eq_nil {uses : List (String × Option String)} :
    firstUses uses = [] ↔ uses = [] := by
  cases uses <;> simp [firstUses]

theorem Cites.extend {defs defs' : List (String × Option String)} {n : Nat} {t : Html.Token}
    (h : Cites defs n t) (hp : defs <+: defs') : Cites defs' n t := by
  obtain ⟨more, rfl⟩ := hp
  have hpos := h.pos
  have hle := h.le
  refine ⟨hpos, by rw [List.length_append]; omega, ?_⟩
  rw [List.getElem?_append_left (by omega), h.address]

theorem insertEntry_of_not_mem {κ ν : Type} [DecidableEq κ] {key : κ} {value : ν}
    {entries : List (κ × ν)} (h : key ∉ entries.map Prod.fst) :
    OrderedMap.insertEntry key value entries = entries ++ [(key, value)] := by
  induction entries with
  | nil => rfl
  | cons entry entries ih =>
    simp only [List.map_cons, List.mem_cons, not_or] at h
    rw [OrderedMap.insertEntry, if_neg (Ne.symm h.1), ih h.2, List.cons_append]

theorem References.number_eq (references : References) (href : String) :
    references.number href = references.targets.keys.idxOf href + 1 := by
  have hsize : references.targets.size = references.targets.keys.length := by
    simp [OrderedMap.size, OrderedMap.keys]
  rw [List.idxOf_eq_getD_idxOf?]
  unfold number OrderedMap.indexOf?
  cases references.targets.keys.idxOf? href with
  | none => simp [hsize]
  | some index => rfl

theorem References.entries_register {references : References}
    {uses : List (String × Option String)} (h : references.targets.entries = firstUses uses)
    (href : String) (title : Option String) :
    (references.register href title).targets.entries = firstUses (uses ++ [(href, title)]) := by
  rw [firstUses_append_singleton, ← h]
  unfold register OrderedMap.insertNew OrderedMap.contains OrderedMap.keys
  by_cases hmem : href ∈ references.targets.entries.map Prod.fst
  · simp [hmem]
  · simp [hmem, insertEntry_of_not_mem]

/-- A number that is written leads to the address that is registered for it. -/
theorem References.cites_register (references : References) {t : Html.Token} {href : String}
    (ht : address? t = some href) (title : Option String) :
    Cites (references.register href title).targets.entries (references.number href) t := by
  rw [number_eq]
  unfold register OrderedMap.insertNew OrderedMap.contains OrderedMap.keys
  by_cases hmem : href ∈ references.targets.entries.map Prod.fst
  · have hlt := List.idxOf_lt_length_of_mem hmem
    have hget := List.getElem?_idxOf hmem
    rw [List.getElem?_map] at hget
    simp only [List.contains_eq_mem, hmem, decide_true, if_true]
    exact ⟨by omega, by simpa [Nat.succ_le_iff] using hlt, by rw [ht, ← hget]; rfl⟩
  · have hlength := List.idxOf_eq_length hmem
    simp only [List.contains_eq_mem, hmem, decide_false, Bool.false_eq_true, if_false,
      OrderedMap.entries_insert, insertEntry_of_not_mem hmem, hlength, List.length_map]
    exact ⟨by omega, by simp, by simp [ht]⟩

theorem entriesFrom_eq (first : Nat) (entries : List (String × Option String)) :
    References.entriesFrom first entries =
      (entries.zipIdx first).map fun entry => (entry.2, entry.1.1, entry.1.2) := by
  induction entries generalizing first with
  | nil => rfl
  | cons entry entries ih => simp [References.entriesFrom, ih]

theorem anchorReference_eq (n : Nat) (href : String) (title : Option String) :
    Token.anchorReference n href title =
      .markdown .anchorReference (definitionLine n href title) := by
  unfold Token.anchorReference definitionLine Markdown.titleSuffix
  cases title with
  | none => rfl
  | some title =>
    by_cases hempty : title = ""
    · rw [hempty]
      rfl
    · have hfilter : (some title).filter (· ≠ "") = some title := by simp [hempty]
      rw [hfilter]
      simp only [hempty, if_false]
      rfl

theorem ending_eq (references : References) :
    (if references.isEmpty then [] else State.referenceBlock references) =
      definitionBlock references.targets.entries := by
  have hempty : references.isEmpty = true ↔ references.targets.entries = [] := List.isEmpty_iff
  unfold definitionBlock State.referenceBlock References.entries
  simp only [hempty, entriesFrom_eq, List.flatMap_map, anchorReference_eq]
  rfl

theorem reference?_linkTo {href text : String} {t : Token} (h : t ∈ linkTo o href text) :
    t.reference? = none := by
  unfold linkTo at h
  split_ifs at h
  · rw [List.mem_singleton.mp h]
    rfl
  · simp only [List.mem_cons, List.not_mem_nil, or_false] at h
    rcases h with rfl | rfl | rfl <;> rfl
  · rw [List.mem_singleton.mp h]
    exact Token.reference?_anchorInline href text none

/-- A reaction cites nothing and leaves the references alone, or it writes one token in reference
form and registers the address of its element. -/
theorem Handles.references (h : Handles o w last ctx r) :
    (r.context.references = ctx.references ∧ ∀ u ∈ r.produced, u.reference? = none) ∨
      ∃ href u, address? w.token = some href ∧
        r.context.references = ctx.references.register href (w.token.filledAttribute? "title") ∧
        r.produced = [u] ∧ u.reference? = some (ctx.references.number href) := by
  cases h with
  | referenceLink hk hhref htext hc =>
    exact .inr ⟨_, _, by simp [address?, hk, hhref], rfl, rfl,
      Token.reference?_anchorReferenceLink _ _⟩
  | referenceImage hk hsrc hc =>
    exact .inr ⟨_, _, by simp [address?, hk, hsrc], rfl, rfl,
      Token.reference?_image_some _ _ _ _⟩
  | opensList kind hk hp =>
    refine .inl ?_
    obtain ⟨_, ⟨_, rfl⟩, h | h⟩ := openList_eq kind ctx <;> rw [h]
    · exact ⟨rfl, List.forall_mem_nil _⟩
    · exact ⟨rfl, List.forall_mem_singleton.mpr rfl⟩
  | closesList kind hk hp h =>
    refine .inl ?_
    obtain ⟨_, ⟨_, rfl⟩, rfl | rfl⟩ := closeList_eq h
    · exact ⟨rfl, List.forall_mem_nil _⟩
    · exact ⟨rfl, List.forall_mem_singleton.mpr rfl⟩
  | text hk hc =>
    refine .inl ⟨hc.references, fun u hu => ?_⟩
    rcases mem_textTokens hu with ⟨s, rfl⟩ | ⟨s, rfl⟩ | rfl <;> rfl
  | mailLink hc | schemeLink hc => exact .inl ⟨hc.references, fun u hu => reference?_linkTo hu⟩
  | inlineLink hk hhref htext hc =>
    exact .inl ⟨hc.references, List.forall_mem_singleton.mpr (Token.reference?_anchorInline _ _ _)⟩
  | inlineImage hk hsrc hc =>
    exact .inl ⟨hc.references, List.forall_mem_singleton.mpr (Token.reference?_image_none _ _ _)⟩
  | emphasis strong hc =>
    exact .inl ⟨hc.references, List.forall_mem_singleton.mpr (by cases strong <;> rfl)⟩
  | gap gap hk hc =>
    exact .inl ⟨hc.references, List.forall_mem_singleton.mpr (by cases gap <;> rfl)⟩
  | opensQuote hk hp hc | closesQuote n hk hp hc =>
    refine .inl ⟨hc.references, ?_⟩
    simp only [Reaction.emit, List.forall_mem_cons]
    exact ⟨rfl, rfl, List.forall_mem_nil _⟩
  | _ =>
    refine .inl ⟨Context.Retains.references ‹_›, ?_⟩
    simp only [Reaction.emit, List.forall_mem_cons]
    and_intros <;> first | rfl | exact List.forall_mem_nil _

/-- Along a passage the definitions are the first uses of the addresses that are cited, and every
number that is written leads to its address. -/
theorem Passes.citations (h : Passes o rest s ts s') {uses : List (String × Option String)}
    (hs : s.context.references.targets.entries = firstUses uses) :
    s'.context.references.targets.entries =
        firstUses (uses ++ (s.trace o ts rest).filterMap citation?) ∧
      ∀ step ∈ s.trace o ts rest, ∀ u ∈ step.2.produced, ∀ n ∈ u.reference?,
        Cites s'.context.references.targets.entries n step.1 := by
  induction h generalizing uses with
  | nil s => exact ⟨by simpa [State.trace] using hs, List.forall_mem_nil _⟩
  | @cons s s' t ts r hr _ ih =>
    rw [trace_cons hr, List.forall_mem_cons]
    rcases (handles_of_react hr).references with ⟨hkept, hnone⟩ | ⟨href, u, ht, hnew, hu, hn⟩
    · have hcite : citation? (t, r) = none := if_neg (by
        rw [Bool.not_eq_true, List.any_eq_false]
        exact fun u hu => by simp [hnone u hu])
      obtain ⟨hentries, hcites⟩ := ih (hkept ▸ hs)
      rw [List.filterMap_cons_none hcite]
      refine ⟨hentries, fun u hu n hn => ?_, hcites⟩
      rw [hnone u hu] at hn
      cases hn
    · have hcite : citation? (t, r) = some (href, t.filledAttribute? "title") := by
        have ha : address? t = some href := ht
        simp [citation?, hu, hn, ha]
      have hregistered := References.entries_register hs href (t.filledAttribute? "title")
      obtain ⟨hentries, hcites⟩ := ih ((congrArg (·.targets.entries) hnew).trans hregistered)
      have hgrows :
          (s.context.references.register href (t.filledAttribute? "title")).targets.entries
            <+: s'.context.references.targets.entries := by
        rw [hregistered, hentries]
        exact firstUses_grows _ _
      rw [List.append_assoc, List.singleton_append] at hentries
      rw [List.filterMap_cons_some hcite]
      refine ⟨hentries, fun v hv n hm => ?_, hcites⟩
      rw [hu, List.mem_singleton] at hv
      rw [hv, hn, Option.mem_some_iff] at hm
      subst hm
      exact (s.context.references.cites_register ht _).extend hgrows

theorem Passes.no_definition (h : Passes o rest s ts s') :
    ∀ step ∈ s.trace o ts rest, ∀ u ∈ step.2.produced, u.hasTag .anchorReference = false := by
  induction h with
  | nil => exact List.forall_mem_nil _
  | cons hr _ ih =>
    rw [trace_cons hr, List.forall_mem_cons]
    exact ⟨fun u hu => ((handles_of_react hr).forall_produced u hu).2, ih⟩

/-- A conversion that succeeds ends in the definitions of the addresses that were cited, and in
nothing if there are none. The definitions have distinct addresses, numbered from one in the order
in which they were first cited, with the title of that time. Every link and image in reference form
carries the number of the definition with the address of its element. -/
theorem definitions_are_first_uses {out : List Token} (h : convert o ts = .ok out) :
    ∃ s, ({} : State).run o ts = (s, none) ∧
      let steps := ({} : State).trace o ts []
      let defs := firstUses (steps.filterMap citation?)
      steps.map Prod.fst = ts ∧
      out = s.body ++ definitionBlock defs ∧
      s.context.references.targets.entries = defs ∧
      s.body.Sublist (steps.flatMap (·.2.written)) ∧
      (∀ u ∈ s.body, u.hasTag .anchorReference = false) ∧
      (defs.map Prod.fst).Nodup ∧
      (∀ step ∈ steps, ∀ u ∈ step.2.written, ∀ n ∈ u.reference?, Cites defs n step.1) ∧
      (definitionBlock defs = [] ↔ ∀ step ∈ steps, citation? step = none) := by
  obtain ⟨s, hs, rfl⟩ := Passes.of_convert h
  obtain ⟨hentries, hcites⟩ := hs.citations (show _ = firstUses [] from rfl)
  rw [List.nil_append] at hentries
  refine ⟨s, hs.run_nil, hs.map_fst_trace, ?_, hentries, hs.body_sublist, fun u hu => ?_,
    nodup_firstUses _, fun step hstep u hu => ?_, ?_⟩
  · rw [s.finished_eq, ending_eq, hentries]
  · obtain ⟨step, hstep, hu⟩ := List.mem_flatMap.mp (hs.body_sublist.subset hu)
    obtain ⟨v, hv, rfl⟩ := List.mem_map.mp hu
    rw [Token.hasTag_within]
    exact hs.no_definition step hstep v hv
  · obtain ⟨v, hv, rfl⟩ := List.mem_map.mp hu
    rw [Token.reference?_within, ← hentries]
    exact hcites step hstep v hv
  · have hblock (defs : List (String × Option String)) : definitionBlock defs = [] ↔ defs = [] := by
      unfold definitionBlock
      split_ifs <;> simp [*]
    rw [hblock, firstUses_eq_nil, List.filterMap_eq_nil_iff]

/-- Two links to one address and an image between them have two definitions. -/
theorem definitions_of_links_and_image :
    let o : Options := { referenceLinks := true, referenceImages := true }
    let link (title text : String) : List Html.Token :=
      [.startTag "a" (.ofList [(.plain "href", "u"), (.plain "title", title)]),
        .characters text, .endTag "a"]
    let ts := link "a \"b\"" "x" ++ [.emptyTag "img" (.ofList [(.plain "src", "v")])] ++
      link "two" "y"
    convert o ts = .ok [.markdown .anchorInline "[x][1]", .markdown .image "![Image][2]",
        .markdown .anchorInline "[y][1]", .newlineBlank, .startBlock, .newline,
        .markdown .anchorReference "[1]: u \"a \\\"b\\\"\"", .newline,
        .markdown .anchorReference "[2]: v", .endBlock] ∧
      ∃ s, ({} : State).run o ts = (s, none) ∧
        s.context.references.targets.entries = [("u", some "a \"b\""), ("v", none)] ∧
        ∀ step ∈ ({} : State).trace o ts [], ∀ u ∈ step.2.written, ∀ n ∈ u.reference?,
          Cites [("u", some "a \"b\""), ("v", none)] n step.1 := by
  intro o link ts
  have hout : convert o ts = .ok [.markdown .anchorInline "[x][1]", .markdown .image "![Image][2]",
      .markdown .anchorInline "[y][1]", .newlineBlank, .startBlock, .newline,
      .markdown .anchorReference "[1]: u \"a \\\"b\\\"\"", .newline,
      .markdown .anchorReference "[2]: v", .endBlock] :=
    eq_ok_of_toOption (by decide +kernel)
  have hdefs : firstUses ((({} : State).trace o ts []).filterMap citation?) =
      [("u", some "a \"b\""), ("v", none)] := by decide +kernel
  obtain ⟨s, hrun, -, -, hentries, -, -, -, hcites, -⟩ := definitions_are_first_uses hout
  rw [hdefs] at hentries hcites
  exact ⟨hout, s, hrun, hentries, hcites⟩

end HtmlMarkdown.Conversion
