import HtmlMarkdown.Proofs.ReadBack

/-!
# HTML text without tags

A text without a `<` is one text to the scanner, up to the end tag of the wrapper that a fragment
is read in. So such a fragment holds that text and nothing else, its references decoded.
-/

namespace HtmlMarkdown.Html

open Text (unixNewlines)

variable {cs xs : List Char}

/-- Characters that a mode collects are scanned into it. -/
theorem scanFrom_collected (mode : List Char → Mode) (g : Char → Char)
    (h : ∀ x ∈ xs, ∀ seen rest, (mode seen).read x rest = { mode := mode (g x :: seen) })
    (seen cs : List Char) :
    scanFrom 0 (mode seen) (xs ++ cs) = scanFrom 0 (mode ((xs.map g).reverse ++ seen)) cs := by
  induction xs generalizing seen with
  | nil => rfl
  | cons x xs ih =>
    obtain ⟨hx, hxs⟩ := List.forall_mem_cons.mp h
    rw [List.cons_append, scanFrom, hx, ih hxs]
    simp

theorem scanFrom_text (h : '<' ∉ xs) (cs : List Char) :
    scanFrom 0 (.text []) (xs ++ cs) = scanFrom 0 (.text xs.reverse) cs := by
  have hcollect := scanFrom_collected .text id
    (fun x hx seen rest => if_pos fun hlt : x = '<' => h (hlt ▸ hx)) [] cs
  simpa using hcollect

theorem scanFrom_tagName (h : ∀ x ∈ xs, endsName x = false) (cs : List Char) :
    scanFrom 0 (.tagName []) (xs ++ cs) = scanFrom 0 (.tagName (lowercase xs).reverse) cs := by
  have hcollect := scanFrom_collected .tagName Char.toLower
    (fun x hx seen rest => by
      have hgt : x ≠ '>' := by
        rintro rfl
        exact absurd (h '>' hx) (by decide)
      change readTagName seen x = _
      rw [readTagName, if_neg hgt, if_neg (by simp [h x hx])]) [] cs
  rwa [List.append_nil] at hcollect

theorem scanFrom_endName (h : ∀ x ∈ xs, endsName x = false) (cs : List Char) :
    scanFrom 0 (.endName []) (xs ++ cs) = scanFrom 0 (.endName (lowercase xs).reverse) cs := by
  have hcollect := scanFrom_collected .endName Char.toLower
    (fun x hx seen rest => by
      have hgt : x ≠ '>' := by
        rintro rfl
        exact absurd (h '>' hx) (by decide)
      change readEndName seen x = _
      rw [readEndName, if_neg hgt, if_neg (by simp [h x hx])]) [] cs
  rwa [List.append_nil] at hcollect

theorem scanFrom_quotedValue {tag : PartialTag} {name : String} {quote : Char} (h : quote ∉ xs)
    (cs : List Char) : scanFrom 0 (.quotedValue tag name quote []) (xs ++ cs) =
      scanFrom 0 (.quotedValue tag name quote xs.reverse) cs := by
  have hcollect := scanFrom_collected (.quotedValue tag name quote) id
    (fun x hx seen rest => if_neg fun hquote : x = quote => h (hquote ▸ hx)) [] cs
  simpa using hcollect

def fragmentAttributes : Attributes := .ofList [(.plain "id", fragmentId)]

theorem not_endsName_fragmentTag : ∀ x ∈ fragmentTag.toList, endsName x = false := by
  have hall : fragmentTag.toList.all (!endsName ·) = true := by decide
  exact fun x hx => by simpa using List.all_eq_true.mp hall x hx

theorem ofList_lowercase_fragmentTag :
    String.ofList (lowercase fragmentTag.toList).reverse.reverse = fragmentTag := by decide

theorem exists_fragmentTag_cons : ∃ name, fragmentTag.toList = 't' :: name :=
  ⟨fragmentTag.toList.tail, by decide⟩

/-- The wrapper's start tag is read as such, in front of any text. -/
theorem scan_fragmentStart (cs : List Char) :
    scan ("<".toList ++ fragmentTag.toList ++ " id=\"".toList ++ fragmentId.toList ++
      "\">".toList ++ cs) =
        .opening fragmentTag fragmentAttributes :: scanFrom 0 (.text []) cs := by
  have hvalue : '"' ∉ fragmentId.toList := by decide
  have hopen (cs : List Char) : scanFrom 0 (.text []) ("<".toList ++ (fragmentTag.toList ++ cs)) =
      scanFrom 0 (.tagName []) (fragmentTag.toList ++ cs) := by
    obtain ⟨name, hletter⟩ := exists_fragmentTag_cons
    rw [hletter]
    rfl
  have hid (seen cs : List Char) : scanFrom 0 (.tagName seen) (" id=\"".toList ++ cs) =
      scanFrom 0 (.quotedValue { name := String.ofList seen.reverse } "id" '"' []) cs := rfl
  have hend (seen cs : List Char) : scanFrom 0
      (.quotedValue { name := fragmentTag } "id" '"' seen) ("\">".toList ++ cs) =
        .opening fragmentTag
          (.ofList [(.plain "id", String.ofList (decodeReferences seen.reverse))]) ::
            scanFrom 0 (.text []) cs := rfl
  have hid' : String.ofList (decodeReferences fragmentId.toList.reverse.reverse) = fragmentId := by
    decide
  simp only [scan, List.append_assoc]
  rw [hopen, scanFrom_tagName not_endsName_fragmentTag, hid, ofList_lowercase_fragmentTag,
    scanFrom_quotedValue hvalue, hend, hid']
  rfl

theorem scanFrom_fragmentEnd (seen : List Char) :
    scanFrom 0 (.text seen) ("</".toList ++ fragmentTag.toList ++ ">".toList) =
      textLexemes seen ++ [.closing fragmentTag] := by
  have hopen (cs : List Char) :
      scanFrom 0 (.text seen) ("</".toList ++ (fragmentTag.toList ++ cs)) =
        textLexemes seen ++ scanFrom 0 (.endName []) (fragmentTag.toList ++ cs) := by
    obtain ⟨name, hletter⟩ := exists_fragmentTag_cons
    rw [hletter]
    rfl
  have hend (seen : List Char) : scanFrom 0 (.endName seen) ">".toList =
      [.closing (String.ofList seen.reverse)] := rfl
  rw [List.append_assoc, hopen, scanFrom_endName not_endsName_fragmentTag, hend,
    ofList_lowercase_fragmentTag]

theorem mem_unixNewlines {c : Char} (h : c ∈ unixNewlines cs) : c = '\n' ∨ c ∈ cs := by
  fun_induction unixNewlines cs with
  | case1 => cases h
  | case2 cs ih =>
    rcases List.mem_cons.mp h with rfl | h
    · exact .inl rfl
    · exact (ih h).imp_right fun h => List.mem_cons_of_mem _ (List.mem_cons_of_mem _ h)
  | case3 d cs _ ih =>
    rcases List.mem_cons.mp h with rfl | h
    · split_ifs
      · exact .inl rfl
      · exact .inr List.mem_cons_self
    · exact (ih h).imp_right (List.mem_cons_of_mem d)

/-- In front of text that begins with no newline, line ends become newlines as at the end. -/
theorem unixNewlines_append_left {ds : List Char} (hreturn : '\r' ∉ ds)
    (hhead : ds.head? ≠ some '\n') (cs : List Char) :
    unixNewlines (cs ++ ds) = unixNewlines cs ++ ds := by
  fun_induction unixNewlines cs with
  | case1 => exact Text.unixNewlines_of_not_mem hreturn
  | case2 cs ih => exact congrArg _ ih
  | case3 c cs hcs ih =>
    rw [List.cons_append, Text.unixNewlines_cons, ih, List.cons_append]
    rintro es hc hes
    cases cs with
    | nil => exact hhead (by rw [← List.nil_append ds, hes]; rfl)
    | cons d cs =>
      rw [(List.cons.inj hes).1] at hcs
      exact hcs cs hc rfl

/-- What is built from the wrapper's tags and a text between them. -/
theorem tokens_builder (s : String) :
    ([.opening fragmentTag fragmentAttributes, .text s, .closing fragmentTag].foldl Builder.add
      {}).forest.tokens = .startTag fragmentTag fragmentAttributes ::
        (textTokens s ++ [.endTag fragmentTag]) := by
  let inside (content : Forest) : Builder :=
    { content
      opened := [{ name := fragmentTag, attributes := fragmentAttributes, earlier := .nil }] }
  have hopen : ({} : Builder).add (.opening fragmentTag fragmentAttributes) = inside .nil := by
    decide
  have hclose (content : Forest) : ((inside content).add (.closing fragmentTag)).forest =
      .element fragmentTag fragmentAttributes content.reverse .nil := rfl
  have htext : (inside .nil).add (.text s) = inside (if s = "" then .nil else .text s .nil) := by
    simp [Builder.add, Builder.addText, inside]
  have hvoid : isVoid fragmentTag = false := by decide
  rw [List.foldl_cons, List.foldl_cons, List.foldl_cons, List.foldl_nil, hopen, htext, hclose,
    Forest.tokens, hvoid, if_neg Bool.false_ne_true, List.cons_append]
  split_ifs with hs
  · rw [hs]
    rfl
  · have htokens : (Forest.text s .nil).reverse.tokens = textTokens s ++ [] := rfl
    rw [htokens, List.append_nil]
    rfl

theorem tokens_builder_textLexemes (seen : List Char) :
    ((.opening fragmentTag fragmentAttributes ::
      (textLexemes seen ++ [.closing fragmentTag])).foldl Builder.add {}).forest.tokens =
        .startTag fragmentTag fragmentAttributes ::
          (textTokens (String.ofList (decodeReferences seen.reverse)) ++
            [.endTag fragmentTag]) := by
  unfold textLexemes
  split_ifs with hseen
  · rw [hseen]
    decide
  · exact tokens_builder _

/-- A fragment is read as its text up to the end tag of the wrapper. -/
theorem readFragment_eq (html : String) : readFragment html =
    ((.opening fragmentTag fragmentAttributes :: scanFrom 0 (.text []) (unixNewlines html.toList ++
      ("</".toList ++ fragmentTag.toList ++ ">".toList))).foldl Builder.add {}).forest := by
  have hstart : '\r' ∉ "<".toList ++ fragmentTag.toList ++ " id=\"".toList ++ fragmentId.toList ++
      "\">".toList := by decide
  have hend : '\r' ∉ "</".toList ++ fragmentTag.toList ++ ">".toList := by decide
  have hhead : ("</".toList ++ fragmentTag.toList ++ ">".toList).head? ≠ some '\n' := by decide
  have htext : ("<" ++ fragmentTag ++ " id=\"" ++ fragmentId ++ "\">" ++ html ++ "</" ++
      fragmentTag ++ ">").toList = "<".toList ++ fragmentTag.toList ++ " id=\"".toList ++
        fragmentId.toList ++ "\">".toList ++
          (html.toList ++ ("</".toList ++ fragmentTag.toList ++ ">".toList)) := by
    simp only [String.toList_append, List.append_assoc]
  rw [readFragment, htext, Text.unixNewlines_append hstart, unixNewlines_append_left hend hhead,
    scan_fragmentStart]

/-- A fragment without tags holds its text alone. -/
theorem fragmentTokens_of_not_mem {html : String} (h : '<' ∉ html.toList) :
    fragmentTokens html = .startTag fragmentTag fragmentAttributes ::
      (textTokens (String.ofList (decodeReferences (unixNewlines html.toList))) ++
        [.endTag fragmentTag]) := by
  have hunix : '<' ∉ unixNewlines html.toList := fun hmem =>
    (mem_unixNewlines hmem).elim (by decide) h
  rw [fragmentTokens, readFragment_eq, scanFrom_text hunix, scanFrom_fragmentEnd,
    tokens_builder_textLexemes, List.reverse_reverse]

end HtmlMarkdown.Html
