import HtmlMarkdown.Html.Builder
import HtmlMarkdown.Proofs.Passage
import Mathlib.Data.List.TakeWhile

/-!
# Rebuilding a forest

A reader takes the tokens of a forest one after another and puts its trees together again: a start
tag opens an element, the end tag of its name closes it, and text runs together with text before
it. It gives every forest back that is canonical, as the forest of a document is, and no other. So
the tokens of a canonical forest say all there is to know about it.
-/

namespace HtmlMarkdown.Html

namespace Forest

def beginsWithText : Forest → Bool
  | text .. => true
  | _ => false

/-- No text is empty or directly behind another one, and void elements have no content. -/
def canonical : Forest → Bool
  | nil => true
  | text content rest => content != "" && !rest.beginsWithText && rest.canonical
  | comment _ rest => rest.canonical
  | element name _ children rest =>
    (!isVoid name || children == .nil) && children.canonical && rest.canonical

end Forest

/-- The content of the innermost open element, its latest tree first, and the open elements, the
innermost first. -/
structure Reader where
  content : Forest := .nil
  opened : List OpenElement := []
  deriving DecidableEq, Repr

/-- Text in front of content that is kept with its latest tree first: it runs together with text. -/
def Forest.joinText (s : String) : Forest → Forest
  | .text earlier rest => .text (earlier ++ s) rest
  | f => .text s f

namespace Reader

/-- Takes a token; none where an end tag closes another element than the innermost one, and for a
token that stands for no part of a forest. -/
def read (r : Reader) (t : Token) : Option Reader :=
  match t.kind with
  | .startTag =>
    some { content := .nil, opened := ⟨t.tagName, t.attributes, r.content⟩ :: r.opened }
  | .endTag =>
    match r.opened with
    | [] => none
    | e :: outer =>
      if t.name = some e.name then
        some { content := Builder.OpenElement.close e r.content, opened := outer }
      else none
  | .emptyTag => some { r with content := .element t.tagName t.attributes .nil r.content }
  | .characters | .spaceCharacters => some { r with content := r.content.joinText t.content }
  | .comment => some { r with content := .comment t.content r.content }
  | .doctype | .parseError => none

def readAll (r : Reader) (ts : List Token) : Option Reader := ts.foldlM read r

def forest? (r : Reader) : Option Forest :=
  if r.opened = [] then some r.content.reverse else none

end Reader

def readForest (ts : List Token) : Option Forest := (({} : Reader).readAll ts).bind Reader.forest?

/-- The tokens are a text cut into space, a middle that neither begins nor ends with space, and
space, each of them as far as it is there. -/
def CutAtSpace (s : String) (ts : List Token) : Prop :=
  ∃ leading middle trailing : List Char,
    s.toList = leading ++ middle ++ trailing ∧
    (∀ c ∈ leading ++ trailing, Text.isHtmlSpace c = true) ∧
    (∀ c ∈ middle.head?, Text.isHtmlSpace c = false) ∧
    (∀ c ∈ middle.getLast?, Text.isHtmlSpace c = false) ∧
    ts = spaceTokens leading ++
      (if middle = [] then [] else [.characters (String.ofList middle)]) ++ spaceTokens trailing

variable {r r' : Reader} {t : Token} {ts us : List Token} {s name : String} {c f g : Forest}
  {opened : List OpenElement} {attributes : Attributes}

theorem cutAtSpace_textTokens (s : String) : CutAtSpace s (textTokens s) := by
  have hleading : ∀ c ∈ s.toList.takeWhile Text.isHtmlSpace, Text.isHtmlSpace c = true :=
    fun c hc => List.mem_takeWhile_imp hc
  have hfirst : ∀ c ∈ (s.toList.dropWhile Text.isHtmlSpace).head?, Text.isHtmlSpace c = false := by
    intro c hc
    have hnot := List.head?_dropWhile_not Text.isHtmlSpace s.toList
    rw [hc] at hnot
    exact hnot
  unfold textTokens
  dsimp only
  split
  · next hspace =>
    have hall : s.toList.takeWhile Text.isHtmlSpace = s.toList := by
      have hparts := List.takeWhile_append_dropWhile (p := Text.isHtmlSpace) (l := s.toList)
      rwa [hspace, List.append_nil] at hparts
    refine ⟨s.toList, [], [], by simp, ?_, by simp, by simp, by simp [spaceTokens]⟩
    rw [List.append_nil, ← hall]
    exact hleading
  · next hinner =>
    generalize hrest : s.toList.dropWhile Text.isHtmlSpace = rest at hinner hfirst
    have htrailing : ∀ c ∈ Text.takeTail Text.isHtmlSpace rest, Text.isHtmlSpace c = true :=
      fun c hc => List.mem_takeWhile_imp (List.mem_reverse.mp hc)
    have hmiddle : Text.dropTail Text.isHtmlSpace rest ≠ [] := by
      intro hnil
      obtain ⟨c, cs, rfl⟩ := List.exists_cons_of_ne_nil hinner
      have hc : c ∈ Text.takeTail Text.isHtmlSpace (c :: cs) := by
        rw [← List.nil_append (Text.takeTail _ _), ← hnil, Text.dropTail_append_takeTail]
        exact List.mem_cons_self
      exact Bool.false_ne_true ((hfirst c rfl).symm.trans (htrailing c hc))
    refine ⟨s.toList.takeWhile Text.isHtmlSpace, Text.dropTail Text.isHtmlSpace rest,
      Text.takeTail Text.isHtmlSpace rest, ?_, ?_, Text.head?_dropTail hfirst,
      Text.getLast?_dropTail _ _, ?_⟩
    · rw [List.append_assoc, Text.dropTail_append_takeTail, ← hrest,
        List.takeWhile_append_dropWhile]
    · exact List.forall_mem_append.mpr ⟨hleading, htrailing⟩
    · rw [if_neg hmiddle, List.append_assoc, List.singleton_append]

namespace Forest

theorem reverseOnto_reverseOnto (f g h : Forest) :
    (f.reverseOnto g).reverseOnto h = g.reverseOnto (f.append h) := by
  induction f generalizing g with
  | nil => rfl
  | text content rest ih => exact ih _
  | comment content rest ih => exact ih _
  | element name attributes children rest _ ih => exact ih _

theorem append_nil (f : Forest) : f.append .nil = f := by
  induction f with
  | nil => rfl
  | text content rest ih => rw [append, ih]
  | comment content rest ih => rw [append, ih]
  | element name attributes children rest _ ih => rw [append, ih]

theorem reverse_reverse (f : Forest) : f.reverse.reverse = f :=
  (reverseOnto_reverseOnto f .nil .nil).trans f.append_nil

/-- Reversing a forest onto another one keeps both canonical, unless two texts meet. -/
theorem canonical_reverseOnto (f g : Forest) : (f.reverseOnto g).canonical = true ↔
    f.canonical = true ∧ g.canonical = true ∧
      ¬(f.beginsWithText = true ∧ g.beginsWithText = true) := by
  induction f generalizing g with
  | nil => simp [reverseOnto, canonical, beginsWithText]
  | text content rest ih =>
    rw [reverseOnto, ih]
    have htext (s : String) (h : Forest) : (text s h).beginsWithText = true := rfl
    simp only [canonical, htext, Bool.and_eq_true, Bool.not_eq_true']
    grind
  | comment content rest ih =>
    rw [reverseOnto, ih]
    simp [canonical, beginsWithText]
  | element name attributes children rest _ ih =>
    rw [reverseOnto, ih]
    have helement (h : Forest) : (element name attributes children h).beginsWithText = false := rfl
    simp only [canonical, helement, Bool.and_eq_true, Bool.false_eq_true, and_false, false_and,
      not_false_eq_true, and_true]
    grind

theorem canonical_reverse (f : Forest) : f.reverse.canonical = true ↔ f.canonical = true := by
  rw [reverse, canonical_reverseOnto]
  simp [canonical, beginsWithText]

end Forest

namespace Reader

theorem readAll_cons (h : r.read t = some r') (ts : List Token) :
    r.readAll (t :: ts) = r'.readAll ts := by
  rw [readAll, List.foldlM_cons, h]
  rfl

/-- Text tokens run together, also with text in front of them. -/
theorem readAll_texts (hts : ∀ t ∈ ts, t.kind = .characters ∨ t.kind = .spaceCharacters)
    (earlier : String) (us : List Token) :
    ({ content := .text earlier f, opened } : Reader).readAll (ts ++ us) =
      ({ content := .text (earlier ++ String.ofList (ts.flatMap (·.content.toList))) f,
         opened } : Reader).readAll us := by
  induction ts generalizing earlier with
  | nil => simp
  | cons t ts ih =>
    obtain ⟨ht, hts⟩ := List.forall_mem_cons.mp hts
    have hread : ({ content := .text earlier f, opened } : Reader).read t =
        some { content := .text (earlier ++ t.content) f, opened } := by
      unfold read
      rcases ht with hk | hk <;> rw [hk] <;> rfl
    rw [List.cons_append, readAll_cons hread, ih hts]
    simp [String.append_assoc]

/-- A text of a forest is read back as one tree. -/
theorem readAll_textTokens (hs : s ≠ "") (hf : f.beginsWithText = false) (us : List Token) :
    ({ content := f, opened } : Reader).readAll (textTokens s ++ us) =
      ({ content := .text s f, opened } : Reader).readAll us := by
  cases htext : textTokens s with
  | nil =>
    have hcontent := content_textTokens s
    rw [htext, List.flatMap_nil] at hcontent
    exact absurd (String.toList_eq_nil_iff.mp hcontent.symm) hs
  | cons t ts =>
    have hkinds : ∀ u ∈ t :: ts, u.kind = .characters ∨ u.kind = .spaceCharacters :=
      fun u hu => kind_of_mem_textTokens (htext ▸ hu)
    obtain ⟨ht, hts⟩ := List.forall_mem_cons.mp hkinds
    have hread : ({ content := f, opened } : Reader).read t =
        some { content := .text t.content f, opened } := by
      have hjoin : f.joinText t.content = .text t.content f := by
        cases f <;> first | rfl | cases hf
      unfold read
      rcases ht with hk | hk <;> rw [hk] <;> simp only [hjoin]
    rw [List.cons_append, readAll_cons hread, readAll_texts hts, ← String.ofList_toList (s := s),
      ← content_textTokens s, htext]
    simp

/-- A canonical forest is read onto the content before it, with its latest tree first. -/
theorem readAll_tokens (hf : f.canonical = true)
    (hmeet : f.beginsWithText = true → c.beginsWithText = false) (us : List Token) :
    ({ content := c, opened } : Reader).readAll (f.tokens ++ us) =
      ({ content := f.reverseOnto c, opened } : Reader).readAll us := by
  induction f generalizing c opened us with
  | nil => rfl
  | text content rest ih =>
    simp only [Forest.canonical, Bool.and_eq_true, bne_iff_ne, Bool.not_eq_true'] at hf
    obtain ⟨⟨hne, hnext⟩, hrest⟩ := hf
    rw [Forest.tokens, List.append_assoc, readAll_textTokens hne (hmeet rfl),
      ih hrest fun h => absurd (hnext.symm.trans h) Bool.false_ne_true]
    rfl
  | comment content rest ih =>
    have hread : ({ content := c, opened } : Reader).read (.comment content) =
        some { content := .comment content c, opened } := rfl
    rw [Forest.tokens, List.cons_append, readAll_cons hread, ih hf fun _ => rfl]
    rfl
  | element name attributes children rest ihc ih =>
    simp only [Forest.canonical, Bool.and_eq_true, Bool.or_eq_true, Bool.not_eq_true',
      beq_iff_eq] at hf
    obtain ⟨⟨hvoid, hchildren⟩, hrest⟩ := hf
    rw [Forest.tokens]
    split
    · next hv =>
      obtain rfl : children = .nil := by simpa [hv] using hvoid
      have hread : ({ content := c, opened } : Reader).read (.emptyTag name attributes) =
          some { content := .element name attributes .nil c, opened } := rfl
      rw [List.cons_append, readAll_cons hread, ih hrest fun _ => rfl]
      rfl
    · have hopen : ({ content := c, opened } : Reader).read (.startTag name attributes) =
          some { content := .nil, opened := ⟨name, attributes, c⟩ :: opened } := rfl
      have hclose : ({ content := children.reverseOnto .nil
                       opened := ⟨name, attributes, c⟩ :: opened } : Reader).read (.endTag name) =
          some { content := .element name attributes children c, opened } := by
        have hback : (children.reverseOnto .nil).reverse = children := children.reverse_reverse
        simp [read, Token.endTag, Builder.OpenElement.close, hback]
      rw [List.cons_append, List.cons_append, readAll_cons hopen, List.append_assoc,
        ihc hchildren fun _ => rfl, List.cons_append, readAll_cons hclose, ih hrest fun _ => rfl]
      rfl

theorem forest?_eq_some_iff : r.forest? = some f ↔ r.opened = [] ∧ r.content.reverse = f := by
  unfold forest?
  split_ifs with h <;> simp [h]

end Reader

structure Token.Walked (t : Token) : Prop where
  text : t.kind = .characters ∨ t.kind = .spaceCharacters → t.content ≠ ""
  paired : t.kind = .startTag → isVoid t.tagName = false

theorem walked_of_mem_spaceTokens {cs : List Char} (h : t ∈ spaceTokens cs) : t.Walked := by
  unfold spaceTokens at h
  split at h
  · cases h
  · next hne =>
    rw [List.mem_singleton.mp h]
    exact ⟨fun _ => by simpa [Token.spaceCharacters, Token.content] using hne, fun h => by cases h⟩

theorem walked_of_mem_textTokens (h : t ∈ textTokens s) : t.Walked := by
  obtain ⟨leading, middle, trailing, -, -, -, -, htext⟩ := cutAtSpace_textTokens s
  rw [htext, List.mem_append, List.mem_append] at h
  rcases h with (h | h) | h
  · exact walked_of_mem_spaceTokens h
  · split at h
    · cases h
    · next hne =>
      rw [List.mem_singleton.mp h]
      exact ⟨fun _ => by simpa [Token.characters, Token.content] using hne, fun h => by cases h⟩
  · exact walked_of_mem_spaceTokens h

theorem Token.Walked.of_kind (h : t.kind = .comment ∨ t.kind = .emptyTag ∨ t.kind = .endTag) :
    t.Walked where
  text hk := by rcases h with h | h | h <;> simp [h] at hk
  paired hk := by rcases h with h | h | h <;> simp [h] at hk

theorem Forest.walked_of_mem_tokens (h : t ∈ f.tokens) : t.Walked := by
  induction f with
  | nil => cases h
  | text content rest ih =>
    rcases List.mem_append.mp h with h | h
    · exact walked_of_mem_textTokens h
    · exact ih h
  | comment content rest ih =>
    rcases List.mem_cons.mp h with rfl | h
    · exact .of_kind (.inl rfl)
    · exact ih h
  | element name attributes children rest ihc ih =>
    rw [tokens] at h
    split at h
    · rcases List.mem_cons.mp h with rfl | h
      · exact .of_kind (.inr (.inl rfl))
      · exact ih h
    · next hv =>
      rw [List.cons_append, List.mem_cons, List.mem_append, List.mem_cons] at h
      rcases h with rfl | h | rfl | h
      · exact ⟨by simp [Token.startTag], fun _ => by simpa [Token.startTag, Token.tagName] using hv⟩
      · exact ihc h
      · exact .of_kind (.inr (.inr rfl))
      · exact ih h

namespace Reader

structure Sound (r : Reader) : Prop where
  content : r.content.canonical = true
  earlier : ∀ e ∈ r.opened, e.earlier.canonical = true ∧ isVoid e.name = false

theorem canonical_joinText (hs : s ≠ "") (hf : f.canonical = true) :
    (f.joinText s).canonical = true := by
  cases f with
  | text earlier rest =>
    simp only [Forest.canonical, Forest.joinText, Bool.and_eq_true, bne_iff_ne, ne_eq] at hf ⊢
    refine ⟨⟨?_, hf.1.2⟩, hf.2⟩
    rw [String.append_eq_empty_iff]
    exact fun h => hs h.2
  | nil => simp [Forest.canonical, Forest.joinText, Forest.beginsWithText, hs]
  | comment | element =>
    simpa [Forest.canonical, Forest.joinText, Forest.beginsWithText, hs] using hf

theorem Sound.read (h : r.Sound) (ht : t.Walked) (hr : r.read t = some r') : r'.Sound := by
  unfold Reader.read at hr
  split at hr
  · next hk =>
    cases hr
    exact ⟨rfl, List.forall_mem_cons.mpr ⟨⟨h.content, ht.paired hk⟩, h.earlier⟩⟩
  · split at hr
    · cases hr
    · next e outer hopened =>
      split_ifs at hr
      cases hr
      have hopen := h.earlier
      rw [hopened] at hopen
      obtain ⟨⟨hearlier, hvoid⟩, houter⟩ := List.forall_mem_cons.mp hopen
      refine ⟨?_, houter⟩
      have hcontent := (Forest.canonical_reverse r.content).mpr h.content
      simp [Builder.OpenElement.close, Forest.canonical, hvoid, hcontent, hearlier]
  · cases hr
    refine ⟨?_, h.earlier⟩
    simp [Forest.canonical, h.content]
  · next hk =>
    cases hr
    exact ⟨canonical_joinText (ht.text (.inl hk)) h.content, h.earlier⟩
  · next hk =>
    cases hr
    exact ⟨canonical_joinText (ht.text (.inr hk)) h.content, h.earlier⟩
  · cases hr
    exact ⟨h.content, h.earlier⟩
  · cases hr
  · cases hr

theorem Sound.readAll (h : r.Sound) (hts : ∀ t ∈ ts, t.Walked) (hr : r.readAll ts = some r') :
    r'.Sound := by
  induction ts generalizing r with
  | nil =>
    cases hr
    exact h
  | cons t ts ih =>
    obtain ⟨ht, hts⟩ := List.forall_mem_cons.mp hts
    cases hread : r.read t with
    | none => simp [Reader.readAll, List.foldlM_cons, hread] at hr
    | some r₁ =>
      rw [readAll_cons hread] at hr
      exact ih (h.read ht hread) hts hr

end Reader

/-- Only canonical forests are read from the tokens of a forest. -/
theorem canonical_of_readForest (h : readForest g.tokens = some f) : f.canonical = true := by
  obtain ⟨r, hr, hforest⟩ := Option.bind_eq_some_iff.mp h
  obtain ⟨-, rfl⟩ := Reader.forest?_eq_some_iff.mp hforest
  have hstart : ({} : Reader).Sound := ⟨rfl, by simp⟩
  have hsound := hstart.readAll (fun t ht => Forest.walked_of_mem_tokens ht) hr
  exact (Forest.canonical_reverse r.content).mpr hsound.content

theorem readForest_of_canonical (h : f.canonical = true) : readForest f.tokens = some f := by
  have hread : Reader.readAll { content := .nil, opened := [] } (f.tokens ++ []) = _ :=
    Reader.readAll_tokens h (fun _ => rfl) []
  rw [List.append_nil] at hread
  refine Option.bind_eq_some_iff.mpr ⟨_, hread, Reader.forest?_eq_some_iff.mpr ⟨rfl, ?_⟩⟩
  exact f.reverse_reverse

/-- The walk over a forest loses nothing: the reader gives a forest back from its tokens exactly if
it is canonical, and every text is cut into space, a middle without space at its ends, and space. -/
theorem readForest_tokens :
    (∀ f : Forest, readForest f.tokens = some f ↔ f.canonical = true) ∧
      ∀ s, CutAtSpace s (textTokens s) :=
  ⟨fun _ => ⟨canonical_of_readForest, readForest_of_canonical⟩, cutAtSpace_textTokens⟩

end HtmlMarkdown.Html
