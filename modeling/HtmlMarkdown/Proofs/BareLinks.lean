import HtmlMarkdown.Proofs.Prose
import HtmlMarkdown.Proofs.RoundTrip
import HtmlMarkdown.Proofs.Slack
import Mathlib.Data.List.Nodup

/-!
# Bare links

A tag such as `<https://example.com/a/b=1>` is read as an element whose attributes are the segments
of an address, and its link is spelled from them. Attributes are a map: a segment that comes again
adds nothing to it, and an empty value is no value. So the link is to the address that was written
exactly if no segment comes twice and the value, where there is one, is not empty.
-/

namespace HtmlMarkdown

namespace Html

open Conversion (bareLinkUrl wrapped)

def isValueChar (c : Char) : Bool :=
  c.isLower || c.isDigit || c == '.' || c == '-' || c == '_'

def isSegmentChar (c : Char) : Bool := isValueChar c || c == '?'

theorem mem_linkSchemes {scheme : String} :
    scheme ∈ linkSchemes ↔ scheme = "http:" ∨ scheme = "https:" := by simp [linkSchemes]

/-- An address that may stand in a tag of its own: a scheme, segments behind two slashes, and a
value behind an equals sign if there is one. -/
@[ext]
structure BareAddress where
  scheme : String
  segments : List String
  value : Option String
  scheme_mem : scheme ∈ linkSchemes
  segments_ne_nil : segments ≠ []
  segment_ne_empty : ∀ s ∈ segments, s ≠ ""
  segment_chars : ∀ s ∈ segments, s.toList.all isSegmentChar = true
  value_chars : ∀ v ∈ value, v.toList.all isValueChar = true

namespace BareAddress

variable (a : BareAddress)

def text : String :=
  a.scheme ++ "//" ++ "/".intercalate a.segments ++ a.value.elim "" ("=" ++ ·)

def path : List String := a.segments.dropLast

def last : String := a.segments.getLast a.segments_ne_nil

theorem isSegmentChar_of_mem {s : String} (h : s ∈ a.segments) :
    ∀ c ∈ s.toList, isSegmentChar c = true := List.all_eq_true.mp (a.segment_chars s h)

theorem isValueChar_of_mem {v : String} (h : a.value = some v) :
    ∀ c ∈ v.toList, isValueChar c = true := List.all_eq_true.mp (a.value_chars v h)

theorem path_append_last : a.path ++ [a.last] = a.segments :=
  List.dropLast_append_getLast a.segments_ne_nil

def pathTag : PartialTag := a.path.foldl (fun (tag : PartialTag) s => tag.withAttribute s [])
  { name := a.scheme }

def fullTag : PartialTag := a.pathTag.withAttribute a.last (a.value.elim [] String.toList)

def attributes : Attributes := a.fullTag.attributes

/-- The value that a map of attributes keeps: none if it is empty, or if the last segment came
before. -/
def keptValue : Option String := if a.last ∈ a.path then none else a.value.filter (· != "")

def kept : BareAddress where
  scheme := a.scheme
  segments := a.segments.eraseDups
  value := a.keptValue
  scheme_mem := a.scheme_mem
  segments_ne_nil := fun h => a.segments_ne_nil (List.eq_nil_iff_forall_not_mem.mpr fun s hs => by
    rw [← List.mem_eraseDups, h] at hs
    cases hs)
  segment_ne_empty := fun s hs => a.segment_ne_empty s (List.mem_eraseDups.mp hs)
  segment_chars := fun s hs => a.segment_chars s (List.mem_eraseDups.mp hs)
  value_chars := fun v hv => by
    unfold keptValue at hv
    split_ifs at hv
    · cases hv
    · exact a.value_chars v (Option.filter_eq_some_iff.mp hv).1

end BareAddress

section Characters

variable {c : Char}

theorem isSegmentChar_of_isValueChar (h : isValueChar c = true) : isSegmentChar c = true := by
  rw [isSegmentChar, h, Bool.true_or]

theorem isLower_range (h : c.isLower = true) : 97 ≤ c.toNat ∧ c.toNat ≤ 122 :=
  (Bool.and_eq_true_iff.mp h).imp of_decide_eq_true of_decide_eq_true

theorem isDigit_range (h : c.isDigit = true) : 48 ≤ c.toNat ∧ c.toNat ≤ 57 :=
  (Bool.and_eq_true_iff.mp h).imp of_decide_eq_true of_decide_eq_true

/-- The characters of a segment are lowercase letters, digits and four marks. -/
theorem isSegmentChar_range (h : isSegmentChar c = true) :
    (97 ≤ c.toNat ∧ c.toNat ≤ 122) ∨ (48 ≤ c.toNat ∧ c.toNat ≤ 57) ∨
      c = '.' ∨ c = '-' ∨ c = '_' ∨ c = '?' := by
  simp only [isSegmentChar, isValueChar, Bool.or_eq_true, beq_iff_eq] at h
  rcases h with ((((h | h) | h) | h) | h) | h
  · exact .inl (isLower_range h)
  · exact .inr (.inl (isDigit_range h))
  all_goals simp [h]

theorem toLower_of_isSegmentChar (h : isSegmentChar c = true) : c.toLower = c := by
  have hupper : ¬(65 ≤ c.toNat ∧ c.toNat ≤ 90) := by
    rcases isSegmentChar_range h with h | h | rfl | rfl | rfl | rfl
    · omega
    · omega
    all_goals decide
  exact dif_neg hupper

theorem not_isWhite_of_isSegmentChar (h : isSegmentChar c = true) : Text.isWhite c = false := by
  rcases isSegmentChar_range h with h | h | rfl | rfl | rfl | rfl
  · simp [Text.isWhite]
    omega
  · simp [Text.isWhite]
    omega
  all_goals decide

theorem not_isHtmlSpace_of_isSegmentChar (h : isSegmentChar c = true) :
    Text.isHtmlSpace c = false :=
  Text.not_isHtmlSpace_of_not_isWhite (not_isWhite_of_isSegmentChar h)

theorem not_endsName_of_isSegmentChar (h : isSegmentChar c = true) : endsName c = false := by
  simp only [endsName, not_isHtmlSpace_of_isSegmentChar h, Bool.false_or, Bool.or_eq_false_iff,
    beq_eq_false_iff_ne]
  constructor <;>
  · rintro rfl
    exact absurd h (by decide)

theorem ne_of_isSegmentChar {d : Char} (hd : isSegmentChar d = false) (h : isSegmentChar c = true) :
    c ≠ d := by
  rintro rfl
  rw [h] at hd
  cases hd

end Characters

section FirstOccurrences

variable {α : Type} [DecidableEq α] {l : List α} {a : α}

theorem eraseDups_concat :
    (l ++ [a]).eraseDups = if a ∈ l then l.eraseDups else l.eraseDups ++ [a] := by
  rw [List.eraseDups_append]
  split_ifs with h <;> simp [List.removeAll, List.eraseDups_cons, h]

theorem nodup_eraseDups (l : List α) : l.eraseDups.Nodup := by
  induction l using List.reverseRecOn with
  | nil => exact List.nodup_nil
  | append_singleton l a ih =>
    rw [eraseDups_concat]
    split_ifs with h
    · exact ih
    · rw [← List.concat_eq_append]
      exact ih.concat (mt List.mem_eraseDups.mp h)

theorem eraseDups_eq_self_iff : l.eraseDups = l ↔ l.Nodup := by
  refine ⟨fun h => h ▸ nodup_eraseDups l, fun h => ?_⟩
  induction l using List.reverseRecOn with
  | nil => rfl
  | append_singleton l a ih =>
    rw [← List.concat_eq_append, List.nodup_concat] at h
    rw [eraseDups_concat, if_neg h.1, ih h.2]

end FirstOccurrences

namespace BareAddress

variable {a b : BareAddress}

/-- All of an address is kept exactly if no segment comes twice and its value is not empty. -/
theorem kept_eq_self_iff : a.kept = a ↔ a.segments.Nodup ∧ a.value ≠ some "" := by
  rw [BareAddress.ext_iff]
  constructor
  · rintro ⟨-, hsegments, hvalue⟩
    refine ⟨eraseDups_eq_self_iff.mp hsegments, fun hempty => ?_⟩
    rw [hempty] at hvalue
    simp [kept, keptValue, hempty] at hvalue
  · rintro ⟨hnodup, hvalue⟩
    have hlast : a.last ∉ a.path := by
      rw [← a.path_append_last, ← List.concat_eq_append, List.nodup_concat] at hnodup
      exact hnodup.1
    refine ⟨rfl, eraseDups_eq_self_iff.mpr hnodup, (if_neg hlast).trans ?_⟩
    cases hv : a.value with
    | none => rfl
    | some v => exact Option.filter_some_pos (by simpa [hv] using hvalue)

theorem not_mem_segment {c : Char} (hc : isSegmentChar c = false) :
    ∀ cs ∈ a.segments.map String.toList, c ∉ cs := by
  intro cs hcs hmem
  obtain ⟨s, hs, rfl⟩ := List.mem_map.mp hcs
  exact ne_of_isSegmentChar hc (a.isSegmentChar_of_mem hs c hmem) rfl

theorem not_mem_path {c : Char} (hc : isSegmentChar c = false) (hslash : c ≠ '/') :
    c ∉ ("/".intercalate a.segments).toList := by
  rw [String.toList_intercalate]
  exact Conversion.not_mem_intercalate (by simpa using hslash) (not_mem_segment hc)

theorem toList_value : (a.value.elim "" ("=" ++ ·)).toList =
    a.value.elim [] fun v => '=' :: v.toList := by
  cases a.value with
  | none => rfl
  | some v => exact String.toList_append

theorem toList_text : a.text.toList = a.scheme.toList ++ ("//".toList ++
    (("/".intercalate a.segments).toList ++ a.value.elim [] fun v => '=' :: v.toList)) := by
  rw [text, String.toList_append, String.toList_append, String.toList_append, toList_value,
    List.append_assoc, List.append_assoc]

/-- Cut at its equals sign, an address falls into its path and its value. -/
theorem splitOn_text (a : BareAddress) :
    (("/".intercalate a.segments).toList ++ a.value.elim [] fun v => '=' :: v.toList).splitOn '=' =
      ("/".intercalate a.segments).toList :: a.value.toList.map String.toList := by
  have hpath : '=' ∉ ("/".intercalate a.segments).toList := not_mem_path (by decide) (by decide)
  cases hv : a.value with
  | none => exact (congrArg _ (List.append_nil _)).trans (List.splitOn_eq_singleton hpath)
  | some v =>
    have hvalue : '=' ∉ v.toList := fun h => absurd (a.isValueChar_of_mem hv _ h) (by decide)
    exact (List.splitOn_append_cons_self_of_not_mem hpath v.toList).trans
      (congrArg _ (List.splitOn_eq_singleton hvalue))

/-- An address says all of itself. -/
theorem text_inj (hscheme : a.scheme = b.scheme) : a.text = b.text ↔ a = b := by
  refine ⟨fun h => ?_, fun h => h ▸ rfl⟩
  have htext := congrArg String.toList h
  rw [toList_text, toList_text, hscheme, List.append_cancel_left_eq,
    List.append_cancel_left_eq] at htext
  have hparts := congrArg (List.splitOn '=') htext
  rw [splitOn_text, splitOn_text, List.cons.injEq] at hparts
  obtain ⟨hpath, hvalue⟩ := hparts
  have hsegments := congrArg (List.splitOn '/') hpath
  rw [String.toList_intercalate, String.toList_intercalate] at hsegments
  have hsplit (x : BareAddress) :
      ("/".toList.intercalate (x.segments.map String.toList)).splitOn '/' =
        x.segments.map String.toList :=
    List.splitOn_intercalate '/' (not_mem_segment (by decide))
      (by simpa using x.segments_ne_nil)
  rw [hsplit, hsplit] at hsegments
  have hinjective : Function.Injective (List.map String.toList) :=
    List.map_injective_iff.mpr fun _ _ => String.toList_inj.mp
  have hvalues := congrArg List.head? (hinjective hvalue)
  rw [Option.head?_toList, Option.head?_toList] at hvalues
  exact BareAddress.ext hscheme (hinjective hsegments) hvalues

end BareAddress

section Attributes

theorem entries_withAttribute (tag : PartialTag) (name : String) (value : List Char) :
    (tag.withAttribute name value).attributes.entries =
      if .plain name ∈ tag.attributes.entries.map Prod.fst then tag.attributes.entries
      else tag.attributes.entries ++
        [(.plain name, String.ofList (decodeReferences value))] := by
  unfold PartialTag.withAttribute OrderedMap.insertNew OrderedMap.contains OrderedMap.keys
  by_cases hmem : .plain name ∈ tag.attributes.entries.map Prod.fst
  · simp only [List.contains_eq_mem, hmem, decide_true, if_true]
  · simp only [List.contains_eq_mem, hmem, decide_false, Bool.false_eq_true, if_false,
      OrderedMap.entries_insert, Conversion.insertEntry_of_not_mem hmem]

theorem mem_keys_iff {s : String} {names : List String} :
    .plain s ∈ (names.map fun name => (AttributeName.plain name, "")).map Prod.fst ↔ s ∈ names := by
  simp [AttributeName.plain]

/-- Every segment of a path is an attribute without a value, and one that comes again is none. -/
theorem entries_path (name : String) (path : List String) :
    (path.foldl (fun (tag : PartialTag) s => tag.withAttribute s []) { name }).attributes.entries =
      path.eraseDups.map fun s => (.plain s, "") := by
  induction path using List.reverseRecOn with
  | nil => rfl
  | append_singleton path s ih =>
    rw [List.foldl_concat, entries_withAttribute, ih, eraseDups_concat]
    simp only [mem_keys_iff, List.mem_eraseDups]
    split_ifs
    · rfl
    · rw [List.map_append]
      rfl

end Attributes

namespace BareAddress

theorem entries_attributes (a : BareAddress) : a.attributes.entries =
    if a.last ∈ a.path then a.path.eraseDups.map fun s => (.plain s, "")
    else (a.path.eraseDups.map fun s => (.plain s, "")) ++
      [(.plain a.last, a.value.getD "")] := by
  have hvalue : String.ofList (decodeReferences (a.value.elim [] String.toList)) =
      a.value.getD "" := by
    cases hv : a.value with
    | none => rfl
    | some v =>
      have hplain : '&' ∉ v.toList := fun h => absurd (a.isValueChar_of_mem hv _ h) (by decide)
      exact (congrArg _ (Text.decodeReferences_of_not_mem hplain)).trans String.ofList_toList
  rw [attributes, fullTag, entries_withAttribute, pathTag, entries_path, hvalue]
  simp only [mem_keys_iff, List.mem_eraseDups]

/-- The link is spelled with what is kept of the address. -/
theorem bareLinkUrl_attributes (a : BareAddress) :
    bareLinkUrl a.scheme (.startTag a.scheme a.attributes) = a.kept.text := by
  have hsegments : a.attributes.keys.map (·.localName) = a.segments.eraseDups := by
    rw [OrderedMap.keys, entries_attributes, ← a.path_append_last, eraseDups_concat]
    split_ifs <;> simp [AttributeName.plain, Function.comp_def]
  have hvalue : a.attributes.values.getLast?.filter (· != "") = a.keptValue := by
    rw [OrderedMap.values, entries_attributes, keptValue]
    split_ifs
    · refine Option.filter_eq_none_iff.mpr fun v hv => ?_
      obtain ⟨entry, hentry, rfl⟩ := List.mem_map.mp (List.mem_of_getLast? hv)
      obtain ⟨s, -, rfl⟩ := List.mem_map.mp hentry
      exact Bool.false_ne_true
    · rw [List.map_append, List.map_singleton, List.getLast?_concat]
      cases a.value <;> rfl
  change a.scheme ++ "//" ++ "/".intercalate (a.attributes.keys.map (·.localName)) ++
    (a.attributes.values.getLast?.filter (· != "")).elim "" ("=" ++ ·) = _
  rw [hsegments, hvalue]
  rfl

end BareAddress

section Scan

variable {tag : PartialTag} {s : String} {xs : List Char}

theorem scanFrom_attributeName (h : ∀ x ∈ xs, isSegmentChar x = true) (seen cs : List Char) :
    scanFrom 0 (.attributeName tag seen) (xs ++ cs) =
      scanFrom 0 (.attributeName tag (xs.reverse ++ seen)) cs := by
  have hcollect := scanFrom_collected (.attributeName tag) id
    (fun x hx seen rest => by
      have hx := h x hx
      change readAttributeName tag seen x = _
      rw [readAttributeName, if_neg (ne_of_isSegmentChar (by decide) hx),
        if_neg (ne_of_isSegmentChar (by decide) hx), if_neg (ne_of_isSegmentChar (by decide) hx),
        if_neg (by simp [not_isHtmlSpace_of_isSegmentChar hx]), toLower_of_isSegmentChar hx]
      rfl) seen cs
  rwa [List.map_id] at hcollect

theorem scanFrom_plainValue {name : String} (h : ∀ x ∈ xs, isSegmentChar x = true)
    (seen cs : List Char) : scanFrom 0 (.plainValue tag name seen) (xs ++ cs) =
      scanFrom 0 (.plainValue tag name (xs.reverse ++ seen)) cs := by
  have hcollect := scanFrom_collected (.plainValue tag name) id
    (fun x hx seen rest => by
      have hx := h x hx
      change readPlainValue tag name seen x = _
      rw [readPlainValue, if_neg (ne_of_isSegmentChar (by decide) hx),
        if_neg (by simp [not_isHtmlSpace_of_isSegmentChar hx])]
      rfl) seen cs
  rwa [List.map_id] at hcollect

/-- A segment is read as the name of an attribute. -/
theorem scanFrom_segment (hne : s ≠ "") (h : ∀ c ∈ s.toList, isSegmentChar c = true)
    (cs : List Char) : scanFrom 0 (.betweenAttributes tag) (s.toList ++ cs) =
      scanFrom 0 (.attributeName tag s.toList.reverse) cs := by
  obtain ⟨c, xs, hs⟩ := List.exists_cons_of_ne_nil fun hnil =>
    hne (String.toList_eq_nil_iff.mp hnil)
  rw [hs] at h ⊢
  obtain ⟨hc, hxs⟩ := List.forall_mem_cons.mp h
  have hfirst : scanFrom 0 (.betweenAttributes tag) (c :: (xs ++ cs)) =
      scanFrom 0 (.attributeName tag [c]) (xs ++ cs) := by
    have hread : readBetween tag c = { mode := .attributeName tag [c] } := by
      rw [readBetween, if_neg (ne_of_isSegmentChar (by decide) hc),
        if_neg (by simp [not_endsName_of_isSegmentChar hc]), toLower_of_isSegmentChar hc]
    rw [scanFrom, Mode.read, hread]
    rfl
  rw [List.cons_append, hfirst, scanFrom_attributeName hxs, List.reverse_cons]

theorem scanFrom_path {path : List String} (hne : ∀ s ∈ path, s ≠ "")
    (h : ∀ s ∈ path, ∀ c ∈ s.toList, isSegmentChar c = true) (cs : List Char) :
    scanFrom 0 (.betweenAttributes tag) (path.flatMap (·.toList ++ ['/']) ++ cs) =
      scanFrom 0 (.betweenAttributes (path.foldl (·.withAttribute · []) tag)) cs := by
  induction path generalizing tag with
  | nil => rfl
  | cons s path ih =>
    obtain ⟨hs, hpath⟩ := List.forall_mem_cons.mp hne
    obtain ⟨hchars, hrest⟩ := List.forall_mem_cons.mp h
    have hslash (seen rest : List Char) : scanFrom 0 (.attributeName tag seen) ('/' :: rest) =
        scanFrom 0 (.betweenAttributes (tag.withAttribute (String.ofList seen.reverse) [])) rest :=
      rfl
    rw [List.flatMap_cons, List.append_assoc, List.append_assoc, scanFrom_segment hs hchars,
      List.singleton_append, hslash, List.reverse_reverse, String.ofList_toList, ih hpath hrest,
      List.foldl_cons]

def closedTag (tag : PartialTag) (cs : List Char) : List Lexeme :=
  tag.finish.lexemes ++ scanFrom 0 tag.finish.mode cs

theorem scanFrom_value {v : String} (h : ∀ c ∈ v.toList, isValueChar c = true) (cs : List Char) :
    scanFrom 0 (.beforeValue tag s) (v.toList ++ '>' :: cs) =
      closedTag (tag.withAttribute s v.toList) cs := by
  cases hv : v.toList with
  | nil => rfl
  | cons c xs =>
    rw [hv] at h
    obtain ⟨hc, hxs⟩ := List.forall_mem_cons.mp fun x hx => isSegmentChar_of_isValueChar (h x hx)
    have hread : readBeforeValue tag s c = { mode := .plainValue tag s [c] } := by
      rw [readBeforeValue, if_neg (by simp [not_isHtmlSpace_of_isSegmentChar hc]), if_neg,
        if_neg (ne_of_isSegmentChar (by decide) hc)]
      rintro (rfl | rfl) <;> exact absurd hc (by decide)
    have hfirst (rest : List Char) : scanFrom 0 (.beforeValue tag s) (c :: rest) =
        scanFrom 0 (.plainValue tag s [c]) rest := by
      rw [scanFrom, Mode.read, hread]
      rfl
    have hend (seen : List Char) : scanFrom 0 (.plainValue tag s seen) ('>' :: cs) =
        closedTag (tag.withAttribute s seen.reverse) cs := rfl
    rw [List.cons_append, hfirst, scanFrom_plainValue hxs, hend, List.reverse_append,
      List.reverse_reverse]
    rfl

/-- The last segment is read with its value, up to the end of the tag. -/
theorem scanFrom_last {value : Option String} (hne : s ≠ "")
    (hs : ∀ c ∈ s.toList, isSegmentChar c = true)
    (hvalue : ∀ v ∈ value, ∀ c ∈ v.toList, isValueChar c = true) (cs : List Char) :
    scanFrom 0 (.betweenAttributes tag)
        (s.toList ++ ((value.elim [] fun v => '=' :: v.toList) ++ '>' :: cs)) =
      closedTag (tag.withAttribute s (value.elim [] String.toList)) cs := by
  have hend (seen : List Char) : scanFrom 0 (.attributeName tag seen) ('>' :: cs) =
      closedTag (tag.withAttribute (String.ofList seen.reverse) []) cs := rfl
  have hequals (seen rest : List Char) : scanFrom 0 (.attributeName tag seen) ('=' :: rest) =
      scanFrom 0 (.beforeValue tag (String.ofList seen.reverse)) rest := rfl
  rw [scanFrom_segment hne hs]
  cases value with
  | none =>
    rw [Option.elim_none, List.nil_append, hend, List.reverse_reverse, String.ofList_toList]
    rfl
  | some v =>
    rw [Option.elim_some, List.cons_append, hequals, List.reverse_reverse, String.ofList_toList,
      scanFrom_value (hvalue v rfl)]
    rfl

/-- A scheme and its slashes are read as the name of a tag. -/
theorem scanFrom_scheme {scheme : String} (h : scheme ∈ linkSchemes) (cs : List Char) :
    scanFrom 0 (.text []) ('<' :: (scheme.toList ++ ("//".toList ++ cs))) =
      scanFrom 0 (.betweenAttributes { name := scheme }) cs := by
  rcases mem_linkSchemes.mp h with rfl | rfl <;> rfl

end Scan

namespace BareAddress

variable {a : BareAddress}

theorem toList_path (a : BareAddress) : ("/".intercalate a.segments).toList =
    a.path.flatMap (·.toList ++ ['/']) ++ a.last.toList := by
  rw [← a.path_append_last]
  induction a.path with
  | nil => simp
  | cons s path ih =>
    rw [List.cons_append, String.intercalate_cons_of_ne_nil (by simp), String.toList_append,
      String.toList_append, ih, List.flatMap_cons]
    simp

theorem name_fullTag (a : BareAddress) : a.fullTag.name = a.scheme := by
  have hpath (tag : PartialTag) (path : List String) :
      (path.foldl (·.withAttribute · []) tag).name = tag.name := by
    induction path generalizing tag with
    | nil => rfl
    | cons s path ih => exact ih _
  exact hpath _ _

theorem scanFrom_bracketed (a : BareAddress) (cs : List Char) :
    scanFrom 0 (.text []) (("<" ++ a.text ++ ">").toList ++ cs) =
      .opening a.scheme a.attributes :: scanFrom 0 (.text []) cs := by
  have hsegments := a.segment_ne_empty
  have hchars : ∀ s ∈ a.segments, ∀ c ∈ s.toList, isSegmentChar c = true := fun _ hs =>
    a.isSegmentChar_of_mem hs
  rw [← a.path_append_last, List.forall_mem_append, List.forall_mem_singleton] at hsegments hchars
  have htext : ("<" ++ a.text ++ ">").toList ++ cs = '<' :: (a.scheme.toList ++ ("//".toList ++
      (a.path.flatMap (·.toList ++ ['/']) ++ (a.last.toList ++
        ((a.value.elim [] fun v => '=' :: v.toList) ++ '>' :: cs))))) := by
    rw [String.toList_append, String.toList_append, toList_text, toList_path]
    simp
  have hraw : rawTextNames.contains a.fullTag.name = false := by
    rw [name_fullTag]
    rcases mem_linkSchemes.mp a.scheme_mem with h | h <;> rw [h] <;> decide
  rw [htext, scanFrom_scheme a.scheme_mem, scanFrom_path hsegments.1 hchars.1,
    scanFrom_last hsegments.2 hchars.2 fun _ hv => a.isValueChar_of_mem hv]
  change closedTag a.fullTag cs = _
  rw [closedTag, PartialTag.finish, hraw, name_fullTag]
  rfl

theorem mem_text {c : Char} (h : c ∈ a.text.toList) :
    isSegmentChar c = true ∨ c ∈ [':', '/', '='] := by
  rw [toList_text, List.mem_append, List.mem_append, List.mem_append] at h
  rcases h with h | h | h | h
  · have hscheme : a.scheme.toList.all (fun x => isSegmentChar x || x == ':') = true := by
      rcases mem_linkSchemes.mp a.scheme_mem with h | h <;> rw [h] <;> decide
    have hmark := List.all_eq_true.mp hscheme c h
    rw [Bool.or_eq_true, beq_iff_eq] at hmark
    exact hmark.imp_right fun hc => by simp [hc]
  · have hslash : c = '/' := by simpa using h
    exact .inr (by simp [hslash])
  · by_contra hnot
    rw [not_or, Bool.not_eq_true, List.mem_cons, List.mem_cons, not_or, not_or] at hnot
    exact not_mem_path hnot.1 hnot.2.2.1 h
  · cases hv : a.value with
    | none =>
      rw [hv] at h
      cases h
    | some v =>
      rw [hv] at h
      rcases List.mem_cons.mp h with rfl | h
      · exact .inr (by decide)
      · exact .inl (isSegmentChar_of_isValueChar (a.isValueChar_of_mem hv c h))

theorem not_mem_bracketed {c : Char} (hc : isSegmentChar c = false)
    (hmarks : c ∉ [':', '/', '=', '<', '>']) : c ∉ ("<" ++ a.text ++ ">").toList := by
  simp only [List.mem_cons, List.not_mem_nil, or_false, not_or] at hmarks
  rw [String.toList_append, String.toList_append, List.mem_append, List.mem_append, not_or, not_or]
  refine ⟨⟨by simpa using hmarks.2.2.2.1, fun h => ?_⟩, by simpa using hmarks.2.2.2.2⟩
  rcases mem_text h with h | h
  · rw [hc] at h
    cases h
  · simp only [List.mem_cons, List.not_mem_nil, or_false] at h
    tauto

theorem readFragment_bracketed (a : BareAddress) : readFragment ("<" ++ a.text ++ ">") =
    .element fragmentTag fragmentAttributes (.element a.scheme a.attributes .nil .nil) .nil := by
  have hforest (attributes : Attributes) : ((.opening fragmentTag fragmentAttributes ::
      .opening a.scheme attributes :: (textLexemes [] ++ [.closing fragmentTag])).foldl
        Builder.add {}).forest = .element fragmentTag fragmentAttributes
          (.element a.scheme attributes .nil .nil) .nil := by
    rcases mem_linkSchemes.mp a.scheme_mem with h | h <;> rw [h] <;> rfl
  have hreturn : '\r' ∉ ("<" ++ a.text ++ ">").toList := not_mem_bracketed (by decide) (by decide)
  rw [readFragment_eq, Text.unixNewlines_of_not_mem hreturn, scanFrom_bracketed,
    scanFrom_fragmentEnd, hforest]

theorem tokens_element (a : BareAddress) : (Forest.element a.scheme a.attributes .nil .nil).tokens =
    [.startTag a.scheme a.attributes, .endTag a.scheme] := by
  rcases mem_linkSchemes.mp a.scheme_mem with h | h <;> rw [h] <;> rfl

theorem fragmentTokens_bracketed (a : BareAddress) : fragmentTokens ("<" ++ a.text ++ ">") =
    wrapped fragmentAttributes (Forest.element a.scheme a.attributes .nil .nil).tokens := by
  rw [fragmentTokens, readFragment_bracketed]
  rfl

end BareAddress

end Html

namespace Conversion

variable {o : Options} {scheme : String}

/-- A bare link with nothing in it is the link that its attributes spell. -/
theorem convert_bareLink (hscheme : scheme ∈ Html.linkSchemes)
    (hbare : o.bareAutolinks = true) (hself : o.simplifySelfLinks = true)
    (attributes : Html.Attributes) :
    convert o [.startTag scheme attributes, .endTag scheme] =
      .ok [.anchorSimple (bareLinkUrl scheme (.startTag scheme attributes))] := by
  have hlink : Html.isBareLink scheme = true := by
    rcases Html.mem_linkSchemes.mp hscheme with rfl | rfl <;> decide
  have hmail : Html.isMailAddress scheme = false := by
    rcases Html.mem_linkSchemes.mp hscheme with rfl | rfl <;> decide
  have hpair (s : State) (t : Html.Token) (ts : List Html.Token) (last : Option Markdown.Token)
      (htag : t.kind = .startTag ∨ t.kind = .endTag) (hname : t.name = some scheme)
      (hempty : (s.window t ts).isEmptyPair scheme = true) :
      ordinary o (s.window t ts) last (inAnchors 0) = .ok (autolink o t (inAnchors 0)) := by
    have hautolink : tag o (s.window t ts) (inAnchors 0) = .ok (autolink o t (inAnchors 0)) := by
      rw [tag_of_emptyPair hname hempty, emptyPair, if_pos hlink]
      rfl
    unfold ordinary
    rcases htag with hk | hk <;> simpa only [State.window, hk] using hautolink
  have hopen : Produces o [.endTag scheme] {} [.startTag scheme attributes]
      [.anchorSimple (bareLinkUrl scheme (.startTag scheme attributes))] (inAnchors 0) := by
    refine produces_ordinary rfl ⟨[], (hpair {} _ _ _ (.inl rfl) rfl ?_).trans ?_⟩
    · simp [Window.isEmptyPair, State.window, Html.Token.startTag, Html.Token.endTag,
        Html.Token.isNamed]
    · simp [autolink, hbare, Html.Token.startTag, Html.Token.tagName, hmail, linkTo, hself]
      rfl
  have hclose (s : State) (hs : s.context = inAnchors 0)
      (hbefore : s.before = some (.startTag scheme attributes)) :
      Produces o [] s [.endTag scheme] [] (inAnchors 0) := by
    refine produces_ordinary hs ⟨[], (hpair s _ _ _ (.inr rfl) rfl ?_).trans ?_⟩
    · simp [Window.isEmptyPair, State.window, hbefore, Html.Token.startTag, Html.Token.endTag,
        Html.Token.isNamed]
    · simp [autolink, hbare, Html.Token.endTag]
      rfl
  have hboth : Produces o [] {} ([.startTag scheme attributes] ++ [.endTag scheme])
      ([.anchorSimple (bareLinkUrl scheme (.startTag scheme attributes))] ++ []) (inAnchors 0) :=
    hopen.append fun s hs _ hbefore => hclose s hs hbefore
  exact hboth.convert_eq

end Conversion

namespace Markdown

/-- A link on one line is laid out and written as it is. -/
theorem render_anchorSimple {href : String} (h : '\n' ∉ href.toList) :
    render (layout [.anchorSimple href]) = "<" ++ href ++ ">" := by
  have hline : ∀ s ∈ (Token.anchorSimple href).text?, '\n' ∉ s.toList :=
    not_mem_text_of_node rfl (by simpa using h)
  have hleading : isLeadingSpace (.anchorSimple href) = false := not_leading_of_not_mem rfl hline
  have hstart : (Token.anchorSimple href).mapText trimNewlinesStart = .anchorSimple href :=
    mapText_eq_self fun s hs => trimNewlinesStart_of_not_mem (hline s hs)
  have hend : (Token.anchorSimple href).mapText trimNewlinesEnd = .anchorSimple href :=
    mapText_eq_self fun s hs => trimNewlinesEnd_of_not_mem (hline s hs)
  have hlaid : layout [.anchorSimple href] = [.anchorSimple href] := by
    change trimEnd (trimStart [indentToken (.anchorSimple href)]) = _
    rw [indentToken_of_not_mem hline, trimStart_cons hleading, hstart]
    exact trimEnd_append_cons rfl hend [] []
  rw [hlaid, render, renderChars_singleton]
  exact String.ofList_toList

end Markdown

open Html (BareAddress fragmentAttributes)
open Conversion (bareLinkUrl wrapped)

theorem transform_bracketed (a : BareAddress) :
    transform ("<" ++ a.text ++ ">") = .ok ("<" ++ a.kept.text ++ ">") := by
  have hline : '\n' ∉ ("<" ++ a.text ++ ">").toList :=
    BareAddress.not_mem_bracketed (by decide) (by decide)
  have hkept : '\n' ∉ a.kept.text.toList := fun h =>
    (BareAddress.mem_text h).elim (absurd · (by decide)) (absurd · (by decide))
  have hblank : Text.isBlank ("<" ++ a.text ++ ">") = false := by
    simp [Text.isBlank, Text.isWhite]
  have hlast : ("<" ++ a.text ++ ">").toList.getLast? = some '>' := by
    rw [String.toList_append]
    exact List.getLast?_concat
  have htrim : Text.trimLines ("<" ++ a.text ++ ">") = "<" ++ a.text ++ ">" :=
    Text.trimLines_of_line hline hlast (by decide)
  have hconvert := Conversion.convert_bareLink (o := ({} : Options).sanitized) a.scheme_mem rfl rfl
    a.attributes
  rw [transform, Converter.transform, Converter.transformWith_of_not_isBlank hblank, htrim,
    ← Html.fragmentTokens, BareAddress.fragmentTokens_bracketed, Conversion.render_in_wrapper,
    BareAddress.tokens_element, Converter.render_of_adapt (Converter.adapt_of_convert hconvert),
    BareAddress.bareLinkUrl_attributes, Markdown.render_anchorSimple hkept]

/-- A bare link is read as an element with its segments as attributes, and the address that a map
of attributes keeps is spelled from them and written as a link. It is the address that was written
exactly if no segment comes twice and its value, if there is one, is not empty. -/
theorem transform_bareAddress (a : BareAddress) :
    Html.fragmentTokens ("<" ++ a.text ++ ">") =
        wrapped fragmentAttributes [.startTag a.scheme a.attributes, .endTag a.scheme] ∧
      bareLinkUrl a.scheme (.startTag a.scheme a.attributes) = a.kept.text ∧
      transform ("<" ++ a.text ++ ">") = .ok ("<" ++ a.kept.text ++ ">") ∧
      (a.kept.text = a.text ↔ a.segments.Nodup ∧ a.value ≠ some "") := by
  have hscheme : a.kept.scheme = a.scheme := rfl
  refine ⟨?_, a.bareLinkUrl_attributes, transform_bracketed a,
    (BareAddress.text_inj hscheme).trans BareAddress.kept_eq_self_iff⟩
  rw [BareAddress.fragmentTokens_bracketed, BareAddress.tokens_element]

/-- An address with a query and a value comes back as a link. -/
theorem transform_bareAddress_value : ∃ a : BareAddress,
    a.text = "https://e.com/search?q=lean" ∧
      transform "<https://e.com/search?q=lean>" = .ok "<https://e.com/search?q=lean>" := by
  let a : BareAddress :=
    { scheme := "https:"
      segments := ["e.com", "search?q"]
      value := some "lean"
      scheme_mem := by decide
      segments_ne_nil := by decide
      segment_ne_empty := by decide
      segment_chars := by decide
      value_chars := by decide }
  obtain ⟨-, -, htransform, hkept⟩ := transform_bareAddress a
  rw [hkept.mpr (by decide)] at htransform
  exact ⟨a, by decide, htransform⟩

/-- A segment that comes twice is lost, and so is the sign of an empty value. -/
theorem transform_bareAddress_lost :
    (∃ a : BareAddress, a.segments = ["e.com", "a", "a"] ∧ a.value = none ∧
      a.text = "https://e.com/a/a" ∧
      transform "<https://e.com/a/a>" = .ok "<https://e.com/a>") ∧
    ∃ a : BareAddress, a.segments = ["e.com", "a"] ∧ a.value = some "" ∧
      a.text = "https://e.com/a=" ∧
      transform "<https://e.com/a=>" = .ok "<https://e.com/a>" := by
  let a : BareAddress :=
    { scheme := "https:"
      segments := ["e.com", "a", "a"]
      value := none
      scheme_mem := by decide
      segments_ne_nil := by decide
      segment_ne_empty := by decide
      segment_chars := by decide
      value_chars := by decide }
  let b : BareAddress := { a with
    segments := ["e.com", "a"]
    value := some ""
    segments_ne_nil := by decide
    segment_ne_empty := by decide
    segment_chars := by decide
    value_chars := by decide }
  exact ⟨⟨a, rfl, rfl, by decide, by decide +kernel⟩, ⟨b, rfl, rfl, by decide, by decide +kernel⟩⟩

end HtmlMarkdown
