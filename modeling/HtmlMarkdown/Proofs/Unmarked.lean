import HtmlMarkdown.Proofs.RawText
import HtmlMarkdown.Proofs.TextRuns

/-!
# HTML without marks

Text, space, comments, tables, bare links, anchors that stay as they are, and elements without any
rule: for none of them does a conversion with the default options write a mark of Markdown. What
comes of them are chunks with gaps between them, and a table stands between blank lines.
`Html.written` is the text that they make. Two gaps side by side are left out here, as they may
make a hard break of their own, and so is a comment at one end with a newline there.
-/

namespace HtmlMarkdown

open Conversion (Gap)

/-- A part of what is written. The tags of a block stand at its ends. -/
inductive Chunk (α : Type) where
  | run (content : α)
  | gap (gap : Gap)
  | opens (tag : α)
  | closes (tag : α)

/-- What stands in front of a chunk: nothing, or other chunks and the gap that is due. -/
inductive Front where
  | start
  | behind (due : Option Gap)

namespace Chunk

variable {α β : Type}

def isGap : Chunk α → Bool
  | gap _ => true
  | _ => false

def content? : Chunk α → Option α
  | gap _ => none
  | run content | opens content | closes content => some content

def map (f : α → β) : Chunk α → Chunk β
  | run content => .run (f content)
  | gap g => .gap g
  | opens tag => .opens (f tag)
  | closes tag => .closes (f tag)

@[simp] theorem isGap_map (f : α → β) (c : Chunk α) : (c.map f).isGap = c.isGap := by
  cases c <;> rfl

/-- No gap stands directly behind another one; `free` when none stands in front. -/
def gapsApart (free : Bool) : List (Chunk α) → Bool
  | [] => true
  | c :: cs => (free || !c.isGap) && gapsApart (!c.isGap) cs

theorem gapsApart_map (f : α → β) (free : Bool) (cs : List (Chunk α)) :
    gapsApart free (cs.map (map f)) = gapsApart free cs := by
  induction cs generalizing free with
  | nil => rfl
  | cons c cs ih => rw [List.map_cons, gapsApart, gapsApart, isGap_map, ih]

end Chunk

namespace Front

variable {α β : Type}

def next : Front → Chunk α → Front
  | start, .gap _ => start
  | behind due, .gap g => behind (due.or (some g))
  | _, .run _ | _, .opens _ => behind none
  | _, .closes _ => behind (some .blank)

@[simp] theorem next_map (front : Front) (f : α → β) (c : Chunk α) :
    front.next (c.map f) = front.next c := by
  cases front <;> cases c <;> rfl

def spelled (spell : Gap → List β) : Front → List β
  | start | behind none => []
  | behind (some g) => spell g

end Front

/-- What a chunk adds behind what stands in front: the gap that is due and the content, and in front
of a block a blank line. -/
def Chunk.laid {β : Type} (spell : Gap → List β) (front : Front) : Chunk (List β) → List β
  | run us | closes us => front.spelled spell ++ us
  | gap _ => []
  | opens us =>
    match front with
    | .start => us
    | .behind _ => spell .blank ++ us

/-- Chunks one behind the other. Gaps at both ends are left out. -/
def lay {β : Type} (spell : Gap → List β) (front : Front) : List (Chunk (List β)) → List β
  | [] => []
  | c :: cs => c.laid spell front ++ lay spell (front.next c) cs

def Conversion.Gap.chars : Gap → List Char
  | .space => [' ']
  | .newline => ['\n']
  | .blank => ['\n', '\n']

namespace Html

def tableParts : List String := ["tr", "td", "th", "thead", "tbody"]

namespace Token

def anchorAttributes (t : Token) : List Char :=
  let kept := t.attributes.entries.filter fun entry => ["href", "title"].contains entry.1.localName
  (kept.mergeSort fun a b => a.1.le b.1).flatMap fun (key, value) =>
    ' ' :: (key.space.elim [] (·.toList ++ [':'])) ++ key.localName.toList ++ "='".toList ++
      Text.escapeAttribute value.toList ++ ['\'']

/-- The address of a bare link: its name, or behind it the names of its attributes as segments and
the last value. -/
def address (t : Token) : String :=
  if isMailAddress t.tagName then t.tagName
  else
    let value := t.attributes.values.getLast?.elim "" fun value =>
      if value = "" then "" else "=" ++ value
    t.tagName ++ "//" ++ "/".intercalate (t.attributes.keys.map (·.localName)) ++ value

/-- Neither a mark is written for the token nor an error given. -/
def isUnmarked (t : Token) : Bool :=
  match t.kind with
  | .startTag | .endTag => t.name.any fun name => name == "a" || roleOf name == .bareLink ||
    roleOf name == .other && !hasMarkdown name
  | .emptyTag => t.tagName == "img" && (t.filledAttribute? "src").isNone ||
    !("img" :: "br" :: "hr" :: "table" :: tableParts).contains t.tagName
  | _ => true

def anchorsBehind (depth : Nat) (t : Token) : Nat :=
  if t.isNamed .startTag "a" then depth + 1
  else if t.isNamed .endTag "a" then depth - 1
  else depth

def chunk? (t : Token) : Option (Chunk (List Char)) :=
  match t.kind with
  | .characters =>
    let text := Text.flowChars false t.content.toList
    if text = [] then none else some (.run (text.flatMap Text.escapeChar))
  | .spaceCharacters => some (.gap (Gap.ofText t.content))
  | .comment => some (.run ("<!--".toList ++ t.content.toList ++ "-->".toList))
  | .startTag =>
    if t.tagName = "table" then some (.opens "<table>".toList)
    else if t.tagName = "a" then some (.run ("<a".toList ++ t.anchorAttributes ++ ['>']))
    else if tableParts.contains t.tagName then some (.run ('<' :: t.tagName.toList ++ ['>']))
    else if roleOf t.tagName = .bareLink then some (.run ('<' :: t.address.toList ++ ['>']))
    else none
  | .endTag =>
    if t.tagName = "table" then some (.closes "</table>".toList)
    else if t.tagName = "a" then some (.run "</a>".toList)
    else if tableParts.contains t.tagName then
      some (.run ("</".toList ++ t.tagName.toList ++ ['>']))
    else none
  | _ => none

/-- A start tag and the end tag of its element, which has nothing in it and is no bare link. -/
def embraces (t u : Token) : Bool :=
  t.kind == .startTag && t.name.any fun name => u.isNamed .endTag name && roleOf name != .bareLink

end Token

def withoutEmpty : List Token → List Token
  | [] => []
  | [t] => [t]
  | t :: u :: ts => if t.embraces u then withoutEmpty ts else t :: withoutEmpty (u :: ts)

def chunks (ts : List Token) : List (Chunk (List Char)) := (withoutEmpty ts).filterMap Token.chunk?

/-- The text that tokens without marks are written as. -/
def written (ts : List Token) : List Char := lay Gap.chars .start (chunks ts)

def visible (ts : List Token) : List Token :=
  (withoutEmpty ts).filter fun t => t.chunk?.any (!·.isGap)

/-- An anchor that holds one text and nothing else is a link of Markdown. -/
def holdsText : List Token → Bool
  | text :: next :: _ => text.kind == .characters && next.isNamed .endTag "a"
  | _ => false

def Token.anchorStays (depth : Nat) (t : Token) (after : List Token) : Bool :=
  !(t.isNamed .startTag "a" && holdsText after) && !(t.isNamed .endTag "a" && depth == 0)

def anchorsStay (depth : Nat) : List Token → Bool
  | [] => true
  | t :: ts => t.anchorStays depth ts && anchorsStay (t.anchorsBehind depth) ts

structure Unmarked (ts : List Token) : Prop where
  unmarked : ∀ t ∈ ts, t.isUnmarked = true
  anchors : anchorsStay 0 ts = true
  gaps : Chunk.gapsApart true ((chunks ts).dropWhile Chunk.isGap) = true
  first : ∀ t ∈ (visible ts).head?, t.kind = .comment → t.content.toList.head? ≠ some '\n'
  last : ∀ t ∈ (visible ts).getLast?, t.kind = .comment → t.content.toList.getLast? ≠ some '\n'

instance (ts : List Token) : Decidable (Unmarked ts) :=
  decidable_of_iff (_ ∧ _ ∧ _ ∧ _ ∧ _)
    ⟨fun ⟨h₁, h₂, h₃, h₄, h₅⟩ => Unmarked.mk h₁ h₂ h₃ h₄ h₅,
      fun h => ⟨h.unmarked, h.anchors, h.gaps, h.first, h.last⟩⟩

end Html

namespace Markdown

def Token.Inline (t : Token) : Prop := ∀ tag ∈ t.tag?, tag = .charactersSplit ∨ tag = .anchorSimple

namespace Token.Inline

variable {t : Token}

theorem html (raw : Html.Token) : (Token.html raw).Inline := fun _ h => by cases h

theorem anchorSimple (href : String) : (Token.anchorSimple href).Inline :=
  fun _ h => .inr (Option.some.inj h).symm

theorem of_isLine (h : t.IsLine) : t.Inline := by
  obtain ⟨s, -, rfl | rfl⟩ := h
  · exact .html _
  · exact fun _ h => .inl (Option.some.inj h).symm

theorem tagIs {p : Tag → Bool} (h : t.Inline) (hsplit : p .charactersSplit = false)
    (hsimple : p .anchorSimple = false) : t.tagIs p = false := by
  unfold Token.tagIs
  cases htag : t.tag? with
  | none => rfl
  | some tag => rcases h tag htag with rfl | rfl <;> assumption

theorem worded (h : t.Inline) (out : List Token) : Worded (t :: out) where
  solid := fun _ hu => Option.some.inj hu ▸ h.tagIs rfl rfl
  rule := by
    change t.hasTag .horizontalRule = false
    unfold Token.hasTag
    cases htag : t.tag? with
    | none => rfl
    | some tag => rcases h tag htag with rfl | rfl <;> rfl

theorem step (h : t.Inline) (before : Option Token) (out after : List Token) :
    (Spacer.behind out).step before t after = Spacer.behind (t :: out) := by
  cases htag : t.tag? with
  | none => exact Spacer.step_of_none htag
  | some tag =>
    rw [Spacer.step_of_tag htag]
    rcases h tag htag with rfl | rfl <;> rfl

/-- Behind it a gap is written as it is. -/
theorem settleSpace_eq (h : t.Inline) (raw : Html.Token) :
    Conversion.settleSpace raw (some t) false false = .push (Gap.ofText raw.content).token := by
  unfold Conversion.settleSpace Gap.behind
  dsimp only [Option.bind_some]
  rw [if_neg Bool.false_ne_true, if_neg (Option.some_ne_none t)]
  cases htag : t.tag? with
  | none => simp
  | some tag =>
    rcases h tag htag with rfl | rfl <;>
      simp [Tag.isBlockStart, Tag.isBlockEnd, Tag.isSingleNewline]

end Token.Inline

theorem rawTextAfterAll_of_untagged {ts : List Token} (h : ∀ t ∈ ts, t.Untagged) :
    rawTextAfterAll none ts = none := by
  unfold rawTextAfterAll
  induction ts with
  | nil => rfl
  | cons t ts ih =>
    obtain ⟨ht, hts⟩ := List.forall_mem_cons.mp h
    rw [List.foldl_cons, ht, ih hts]

/-- Tokens that stay together: nothing comes between them, and they are laid out as they are. -/
structure Compact (us : List Token) : Prop where
  passes : ∀ rest out before, ∃ t : Token, t.Inline ∧ (Spacer.behind out).run before (us ++ rest) =
    (Spacer.behind (us.reverse ++ out)).run (some t) rest
  first : ∃ t ∈ us.head?, t.Inline
  last : ∃ t ∈ us.getLast?, t.Inline
  indented : indented us = us
  rawText : rawTextAfterAll none us = none

theorem TextRun.compact {us : List Token} (h : TextRun us) : Compact us where
  passes rest out before := by
    obtain ⟨x, hx, hrun⟩ := h.run_append rest out before
    exact ⟨x, .of_isLine hx, hrun⟩
  first := by
    obtain ⟨x, xs, rfl, hx⟩ := h.exists_cons
    exact ⟨x, rfl, .of_isLine hx⟩
  last := by
    obtain ⟨xs, x, rfl, hx⟩ := h.exists_concat
    exact ⟨x, List.getLast?_concat, .of_isLine hx⟩
  indented := h.indented
  rawText := rawTextAfterAll_of_untagged h.untagged

theorem compact_singleton {t : Token} (h : t.Inline) (hdepth : t.quoteDepth = none)
    (hcode : t.inCode = false) (hraw : t.rawTextAfter none = none) : Compact [t] where
  passes rest out before := by
    refine ⟨t, h, ?_⟩
    rw [List.singleton_append, Spacer.run, h.step]
    rfl
  first := ⟨t, rfl, h⟩
  last := ⟨t, rfl, h⟩
  indented := by
    rw [indented_cons (h.worded []).rule, indentToken_of_unquoted hdepth hcode]
    rfl
  rawText := hraw

end Markdown

namespace Html.Token

open Markdown (Compact renderChars)

def drafted? (t : Token) : Option (Chunk (List Markdown.Token)) :=
  let raw := Markdown.Token.html (({} : Options).clean t)
  match t.kind with
  | .characters =>
    let text := Text.flowChars false t.content.toList
    if text = [] then none else some (.run (Conversion.textTokens text))
  | .spaceCharacters => some (.gap (Gap.ofText t.content))
  | .comment => some (.run [.html t])
  | .startTag =>
    if t.tagName = "table" then some (.opens [raw])
    else if t.tagName = "a" then some (.run [raw])
    else if tableParts.contains t.tagName then some (.run [raw])
    else if roleOf t.tagName = .bareLink then some (.run [.anchorSimple t.address])
    else none
  | .endTag =>
    if t.tagName = "table" then some (.closes [raw])
    else if t.tagName = "a" then some (.run [raw])
    else if tableParts.contains t.tagName then some (.run [raw])
    else none
  | _ => none

variable {t : Token} {c : Chunk (List Markdown.Token)}

theorem embraces_iff {u : Token} : t.embraces u = true ↔ t.kind = .startTag ∧ u.kind = .endTag ∧
    ∃ name, t.name = some name ∧ u.name = some name ∧ roleOf name ≠ .bareLink := by
  cases hname : t.name with
  | none => simp [embraces, hname]
  | some name => simp [embraces, hname, isNamed, and_assoc]

theorem name_of_tagName {name : String} (h : t.tagName = name) (hne : name ≠ "") :
    t.name = some name := by
  unfold tagName at h
  cases hname : t.name with
  | none => rw [hname] at h; exact absurd h.symm hne
  | some n => rw [hname] at h; exact congrArg some h

/-- The tags of a table keep no attributes. -/
theorem clean_of_table (h : t.tagName ∈ "table" :: tableParts) :
    ({} : Options).clean t = { t with attributes := ∅ } := by
  have hne : t.tagName ≠ "" := by
    rintro hempty
    rw [hempty] at h
    exact absurd h (by decide)
  have hnone : ∀ name ∈ "table" :: tableParts, ({} : Options).attributesFor? name = none := by
    decide
  have hkept : (t.name.bind ({} : Options).attributesFor?).getD [] = [] := by
    rw [name_of_tagName rfl hne, Option.bind_some, hnone _ h]
    rfl
  rw [Options.clean, hkept, keepAttributes]
  congr 1
  exact OrderedMap.ext (by simp)

theorem rawTextAfter_of_tag (h : t.tagName ∈ "a" :: "table" :: tableParts) :
    Markdown.rawTextAfter none t = none := by
  have hplain : ∀ name ∈ "a" :: "table" :: tableParts,
      Markdown.rawTextElements.contains name = false := by decide
  unfold Markdown.rawTextAfter
  split
  · rw [hplain _ h, if_neg Bool.false_ne_true]
  · rw [if_neg (by simp)]
  · rfl

inductive Content (t : Token) : List Markdown.Token → Prop
  | text (h : Text.flowChars false t.content.toList ≠ []) :
    Content t (Conversion.textTokens (Text.flowChars false t.content.toList))
  | comment (hk : t.kind = .comment) : Content t [.html t]
  | tag (hk : t.kind = .startTag ∨ t.kind = .endTag)
    (hname : t.tagName ∈ "a" :: "table" :: tableParts) : Content t [.html (({} : Options).clean t)]
  | link : Content t [.anchorSimple t.address]

theorem content_of_drafted? (h : t.drafted? = some c) : ∀ us ∈ c.content?, t.Content us := by
  have htable (hn : t.tagName = "table") : t.tagName ∈ "a" :: "table" :: tableParts := by simp [hn]
  have hanchor (hn : t.tagName = "a") : t.tagName ∈ "a" :: "table" :: tableParts := by simp [hn]
  have hpart (hn : tableParts.contains t.tagName = true) :
      t.tagName ∈ "a" :: "table" :: tableParts :=
    List.mem_cons_of_mem _ (List.mem_cons_of_mem _ (by simpa using hn))
  unfold drafted? at h
  dsimp only at h
  intro us hus
  split at h
  · split_ifs at h with hflow
    cases h
    cases hus
    exact .text hflow
  · cases h
    cases hus
  · next hk =>
    cases h
    cases hus
    exact .comment hk
  · next hk =>
    split_ifs at h with hn hn hn <;>
    · cases h
      cases hus
      first | exact .tag (.inl hk) (htable hn) | exact .tag (.inl hk) (hanchor hn) |
        exact .tag (.inl hk) (hpart hn) | exact .link
  · next hk =>
    split_ifs at h with hn hn hn <;>
    · cases h
      cases hus
      first | exact .tag (.inr hk) (htable hn) | exact .tag (.inr hk) (hanchor hn) |
        exact .tag (.inr hk) (hpart hn)
  · cases h

theorem Content.compact {us : List Markdown.Token} (h : t.Content us) : Compact us := by
  cases h with
  | text hflow => exact (Markdown.textRun_textTokens hflow).compact
  | comment hk =>
    have hraw : Markdown.rawTextAfter none t = none := by simp [Markdown.rawTextAfter, hk]
    exact Markdown.compact_singleton (.html t) rfl rfl hraw
  | tag hk hname =>
    have hclean : (({} : Options).clean t).tagName ∈ "a" :: "table" :: tableParts := hname
    exact Markdown.compact_singleton (.html _) rfl rfl (rawTextAfter_of_tag hclean)
  | link => exact Markdown.compact_singleton (.anchorSimple _) rfl rfl rfl

theorem kind_of_drafted? {g : Gap} (h : t.drafted? = some (.gap g)) :
    t.kind = .spaceCharacters := by
  unfold drafted? at h
  dsimp only at h
  split at h
  · split_ifs at h
    cases h
  · next hk => exact hk
  · cases h
  · split_ifs at h <;> cases h
  · split_ifs at h <;> cases h
  · cases h

theorem renderChars_table (h : t.tagName ∈ "table" :: tableParts) :
    (t.kind = .startTag → renderChars none [.html (({} : Options).clean t)] =
        '<' :: t.tagName.toList ++ ['>']) ∧
      (t.kind = .endTag → renderChars none [.html (({} : Options).clean t)] =
        "</".toList ++ t.tagName.toList ++ ['>']) := by
  rw [clean_of_table h]
  constructor
  · intro hk
    simp [renderChars, Markdown.Token.chars, Markdown.Token.html, Markdown.htmlChars, hk,
      Markdown.openTagChars, tagName]
  · intro hk
    simp [renderChars, Markdown.Token.chars, Markdown.Token.html, Markdown.htmlChars, hk, tagName]

theorem attributeChars_eq (key : AttributeName) (value : String) :
    Markdown.attributeChars key value = ' ' :: key.space.elim [] (·.toList ++ [':']) ++
      key.localName.toList ++ "='".toList ++ Text.escapeAttribute value.toList ++ ['\''] := by
  unfold Markdown.attributeChars
  cases key.space <;> rfl

theorem renderChars_anchor (h : t.tagName = "a") :
    (t.kind = .startTag → renderChars none [.html (({} : Options).clean t)] =
        "<a".toList ++ t.anchorAttributes ++ ['>']) ∧
      (t.kind = .endTag → renderChars none [.html (({} : Options).clean t)] = "</a>".toList) := by
  have hkept : (t.name.bind ({} : Options).attributesFor?).getD [] = ["href", "title"] := by
    rw [name_of_tagName h (by decide)]
    decide
  have hname : (t.keepAttributes ["href", "title"]).tagName = "a" := h
  have hchars : renderChars none [.html (t.keepAttributes ["href", "title"])] =
      Markdown.htmlChars 0 none (t.keepAttributes ["href", "title"]) := List.append_nil _
  rw [Options.clean, hkept, hchars]
  constructor
  · intro hk
    have hkind : (t.keepAttributes ["href", "title"]).kind = .startTag := hk
    have hopen : Markdown.openTagChars (t.keepAttributes ["href", "title"]) =
        "<a".toList ++ t.anchorAttributes := by
      unfold Markdown.openTagChars anchorAttributes
      simp only [hname, attributeChars_eq]
      rfl
    simp only [Markdown.htmlChars, hkind, hopen]
  · intro hk
    have hkind : (t.keepAttributes ["href", "title"]).kind = .endTag := hk
    simp only [Markdown.htmlChars, hkind, hname]
    decide

/-- What is written for a token is what it comes to, rendered. -/
theorem chunk?_eq (t : Token) : t.chunk? = t.drafted?.map (Chunk.map (renderChars none)) := by
  have hpart (hn : tableParts.contains t.tagName = true) : t.tagName ∈ "table" :: tableParts :=
    List.mem_cons_of_mem _ (by simpa using hn)
  unfold chunk? drafted?
  dsimp only
  split
  · split_ifs
    · rfl
    · rw [Option.map_some, Chunk.map, Markdown.renderChars_textTokens]
  · rfl
  · next hk =>
    simp [Chunk.map, renderChars, Markdown.Token.chars, Markdown.Token.html, Markdown.htmlChars, hk]
  · next hk =>
    split_ifs with hn hn hn
    · have htable := (renderChars_table (t := t) (by simp [hn])).1 hk
      rw [Option.map_some, Chunk.map, htable, hn]
      rfl
    · rw [Option.map_some, Chunk.map, (renderChars_anchor hn).1 hk]
    · rw [Option.map_some, Chunk.map, (renderChars_table (hpart hn)).1 hk]
    · simp [Chunk.map, renderChars, Markdown.Token.chars, Markdown.Token.anchorSimple,
        Markdown.Token.markdown, Markdown.Tag.renderKind]
    · rfl
  · next hk =>
    split_ifs with hn hn hn
    · have htable := (renderChars_table (t := t) (by simp [hn])).2 hk
      rw [Option.map_some, Chunk.map, htable, hn]
      rfl
    · rw [Option.map_some, Chunk.map, (renderChars_anchor hn).2 hk]
    · rw [Option.map_some, Chunk.map, (renderChars_table (hpart hn)).2 hk]
    · rfl
  · rfl

end Html.Token

end HtmlMarkdown
