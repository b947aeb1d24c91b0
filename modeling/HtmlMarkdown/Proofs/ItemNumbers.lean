import HtmlMarkdown.Proofs.Around
import HtmlMarkdown.Proofs.Emitted
import Mathlib.Data.List.Forall2
import Mathlib.Data.List.ReduceOption

/-!
# The numbers of list items

The place of a list item is made of the lists around it. Its text is indented by two spaces for
each of them beyond the first, and in an ordered list it has the number that comes after those of
the items written before in that same list. The counts of the open lists follow the structure: a
list starts at zero where its start tag stands, and no other list changes what it has counted.
-/

namespace HtmlMarkdown.Conversion

open Html (Forest ListKind)
open Markdown (Token Tag repeated)

structure ListSite where
  start : Nat
  kind : ListKind
  deriving DecidableEq, Repr

abbrev Place := List ListSite

def Place.inside (name : String) (position : Nat) (lists : Place) : Place :=
  match Html.roleOf name with
  | .list kind => ⟨position, kind⟩ :: lists
  | _ => lists

/-- An item is written if it has content and is not kept or left out with what it stands in. -/
def itemPlace? (name : String) (region : Region) (content : List Html.Token) (lists : Place) :
    Option Place :=
  if Html.roleOf name = .item ∧ region = .ordinary ∧ content ≠ [] then some lists else none

/-- The places of the items of a forest, by tokens: the start tag of an item that is written has
one. The forest begins at a position and stands in some lists. -/
def itemPlaces (o : Options) (region : Region) (position : Nat) (lists : Place) :
    Forest → List (Option Place)
  | .nil => []
  | .text content rest =>
    List.replicate (Html.textTokens content).length none ++
      itemPlaces o region (position + (Html.textTokens content).length) lists rest
  | .comment _ rest => none :: itemPlaces o region (position + 1) lists rest
  | .element name _ children rest =>
    if Html.isVoid name then none :: itemPlaces o region (position + 1) lists rest
    else
      itemPlace? name region children.tokens lists ::
          itemPlaces o (Region.inside o name children.tokens region) (position + 1)
            (Place.inside name position lists) children ++
        none :: itemPlaces o region (position + 2 + children.tokens.length) lists rest

/-- The number of an item in an ordered list counts the items at the places before it that have
the same innermost list. -/
def itemBullet (o : Options) (earlier : List Place) : Place → String
  | ⟨start, .ordered⟩ :: _ =>
    toString (1 + earlier.countP (·.head? = some ⟨start, .ordered⟩)) ++ "."
  | _ => o.bullet.toString

def itemText (o : Options) (earlier : List Place) (place : Place) : String :=
  "\n" ++ repeated (place.length - 1) "  " ++ itemBullet o earlier place ++ " "

def itemTexts (o : Options) (earlier : List Place) : List (Option Place) → List (List String)
  | [] => []
  | none :: places => [] :: itemTexts o earlier places
  | some place :: places => [itemText o earlier place] :: itemTexts o (place :: earlier) places

def itemData? (t : Token) : Option String :=
  match t.node with
  | .markdown .listItemStart data => some data
  | _ => none

def behind (earlier : List Place) (places : List (Option Place)) : List Place :=
  places.reduceOption.reverse ++ earlier

section Texts

variable {o : Options} {earlier : List Place}

@[simp] theorem behind_none (places : List (Option Place)) :
    behind earlier (none :: places) = behind earlier places := rfl

@[simp] theorem behind_some (place : Place) (places : List (Option Place)) :
    behind earlier (some place :: places) = behind (place :: earlier) places := by
  simp [behind]

theorem behind_append (places places' : List (Option Place)) :
    behind earlier (places ++ places') = behind (behind earlier places) places' := by
  simp [behind, List.reduceOption_append]

theorem itemTexts_append (places places' : List (Option Place)) :
    itemTexts o earlier (places ++ places') =
      itemTexts o earlier places ++ itemTexts o (behind earlier places) places' := by
  induction places generalizing earlier with
  | nil => rfl
  | cons place places ih => cases place <;> simp [itemTexts, ih]

theorem itemTexts_replicate (n : Nat) :
    itemTexts o earlier (List.replicate n none) = List.replicate n [] := by
  induction n with
  | zero => rfl
  | succ n ih => rw [List.replicate_succ, itemTexts, ih, List.replicate_succ]

theorem behind_replicate (n : Nat) : behind earlier (List.replicate n none) = earlier := by
  induction n with
  | zero => rfl
  | succ n ih => rw [List.replicate_succ, behind_none, ih]

end Texts

theorem readsMarks_itemData? : ReadsMarks itemData? where
  node t u h := by rw [itemData?, itemData?, h]
  unmarked u h := by
    unfold itemData?
    split
    · next data hnode => simp [Token.tagIs, Token.tag?, hnode, Tag.isMarked] at h
    · rfl

variable {o : Options} {region : Region} {position : Nat} {lists : Place} {earlier : List Place}
  {places places' : List (Option Place)} {ctx c : Context} {r : Reaction} {w : Window}

theorem length_itemPlaces (f : Forest) :
    (itemPlaces o region position lists f).length = f.tokens.length := by
  induction f generalizing region position lists with
  | nil => rfl
  | text content f ih => simp [itemPlaces, Forest.tokens, ih]
  | comment content f ih => simp [itemPlaces, Forest.tokens, ih]
  | element name attributes children f ihc ih =>
    rw [itemPlaces, Forest.tokens]
    split_ifs <;> simp [ih, ihc]

/-- Where an element does not play its part, no item inside of it does. -/
theorem itemPlaces_inside (hreg : region ≠ .ordinary) (f : Forest) :
    itemPlaces o region position lists f = List.replicate f.tokens.length none := by
  induction f generalizing position lists with
  | nil => rfl
  | text content f ih => simp [itemPlaces, Forest.tokens, ih]
  | comment content f ih => simp [itemPlaces, Forest.tokens, ih, List.replicate_succ]
  | element name attributes children f ihc ih =>
    rw [itemPlaces, Forest.tokens]
    split_ifs
    · rw [ih, List.length_cons, List.replicate_succ]
    · rw [itemPlace?, if_neg fun h => hreg h.2.1, Region.inside_of_not_ordinary hreg, ihc, ih,
        List.cons_append, List.cons_append, List.length_cons, List.length_append,
        List.length_cons, List.replicate_succ, ← List.replicate_append_replicate,
        List.replicate_succ]

structure Counted (earlier : List Place) (frame : ListFrame) (l : ListSite) : Prop where
  kind : frame.kind = l.kind
  count : l.kind = .ordered → frame.count = earlier.countP (·.head? = some l)

/-- The frames of a context are those of the lists, which have begun at different positions. -/
structure Tracks (position : Nat) (lists : Place) (earlier : List Place) (ctx : Context) :
    Prop where
  frames : List.Forall₂ (Counted earlier) ctx.lists lists
  nodup : lists.Nodup
  opened : ∀ l ∈ lists, l.start < position
  past : ∀ place ∈ earlier, ∀ l ∈ place, l.start < position

theorem lists_openList (kind : ListKind) (ctx : Context) :
    (openList kind ctx).context.lists = { kind } :: ctx.lists := by
  obtain ⟨_, ⟨_, rfl⟩, h | h⟩ := openList_eq kind ctx <;> rw [h] <;> rfl

theorem lists_closeList {more : Bool} (h : closeList more ctx = .ok r) :
    r.context.lists = ctx.lists.tail := by
  obtain ⟨_, ⟨_, rfl⟩, rfl | rfl⟩ := closeList_eq h <;> rfl

namespace Tracks

variable (h : Tracks position lists earlier ctx)
include h

/-- Behind tokens that leave the lists alone. -/
theorem later {n : Nat} (hle : position ≤ n) (hc : c.lists = ctx.lists) :
    Tracks n lists earlier c where
  frames := hc ▸ h.frames
  nodup := h.nodup
  opened l hl := Nat.lt_of_lt_of_le (h.opened l hl) hle
  past place hp l hl := Nat.lt_of_lt_of_le (h.past place hp l hl) hle

theorem openList (kind : ListKind) :
    Tracks (position + 1) (⟨position, kind⟩ :: lists) earlier (openList kind ctx).context where
  frames := by
    rw [lists_openList]
    refine .cons ⟨rfl, fun _ => ?_⟩ h.frames
    -- no item before the list stands in it
    refine (List.countP_eq_zero.mpr fun place hplace hhead => ?_).symm
    have hmem := List.mem_of_head? (of_decide_eq_true hhead)
    exact Nat.lt_irrefl _ (h.past place hplace _ hmem)
  nodup := List.nodup_cons.mpr ⟨fun hl => Nat.lt_irrefl _ (h.opened _ hl), h.nodup⟩
  opened := List.forall_mem_cons.mpr
    ⟨Nat.lt_succ_self _, fun l hl => Nat.lt_succ_of_lt (h.opened l hl)⟩
  past place hp l hl := Nat.lt_succ_of_lt (h.past place hp l hl)

end Tracks

theorem Tracks.closeList {l : ListSite} {more : Bool}
    (h : Tracks position (l :: lists) earlier ctx) (hr : closeList more ctx = .ok r) :
    Tracks (position + 1) lists earlier r.context where
  frames := by
    obtain ⟨frame, frames, -, hframes, hctx⟩ := List.forall₂_cons_right_iff.mp h.frames
    rwa [lists_closeList hr, hctx]
  nodup := (List.nodup_cons.mp h.nodup).2
  opened l' hl := Nat.lt_succ_of_lt (h.opened l' (List.mem_cons_of_mem _ hl))
  past place hp l' hl := Nat.lt_succ_of_lt (h.past place hp l' hl)

/-- An item does not change the count of a list that is not the innermost one around it. -/
theorem counted_of_not_mem {frames : List ListFrame} {l : ListSite} {outer place : Place}
    (h : List.Forall₂ (Counted earlier) frames outer) (hl : l ∉ outer)
    (hplace : place.head? = some l) :
    List.Forall₂ (Counted (place :: earlier)) frames outer := by
  induction h with
  | nil => exact .nil
  | @cons frame l' _ _ hframe _ ih =>
    obtain ⟨hne, hl⟩ := not_or.mp (mt List.mem_cons.mpr hl)
    refine .cons ⟨hframe.kind, fun ho => ?_⟩ (ih hl)
    rw [List.countP_cons_of_neg (by simpa [hplace] using hne), hframe.count ho]

/-- An item is counted by the innermost list that it stands in, and has the next number there. -/
theorem Tracks.item (h : Tracks position lists earlier ctx) :
    Tracks (position + 1) lists (lists :: earlier) (nextBullet o ctx).1 ∧
      (nextBullet o ctx).2.text = itemBullet o earlier lists := by
  suffices hframes : List.Forall₂ (Counted (lists :: earlier)) (nextBullet o ctx).1.lists lists ∧
      (nextBullet o ctx).2.text = itemBullet o earlier lists from
    ⟨⟨hframes.1, h.nodup, fun l hl => Nat.lt_succ_of_lt (h.opened l hl),
      List.forall_mem_cons.mpr ⟨fun l hl => Nat.lt_succ_of_lt (h.opened l hl),
        fun place hp l hl => Nat.lt_succ_of_lt (h.past place hp l hl)⟩⟩, hframes.2⟩
  unfold nextBullet
  cases lists with
  | nil =>
    have hctx : ctx.lists = [] := List.forall₂_nil_right_iff.mp h.frames
    rw [hctx]
    refine ⟨?_, rfl⟩
    rw [hctx]
    exact .nil
  | cons l outer =>
    obtain ⟨⟨kind, count⟩, frames, hframe, hframes, hctx⟩ :=
      List.forall₂_cons_right_iff.mp h.frames
    have houter : List.Forall₂ (Counted ((l :: outer) :: earlier)) frames outer :=
      counted_of_not_mem hframes (List.nodup_cons.mp h.nodup).1 rfl
    obtain ⟨start, kind'⟩ := l
    obtain rfl : kind = kind' := hframe.kind
    rw [hctx]
    cases kind with
    | unordered =>
      refine ⟨?_, rfl⟩
      rw [hctx]
      exact .cons ⟨rfl, fun ho => by cases ho⟩ houter
    | ordered =>
      have hcount : count = earlier.countP (·.head? = some ⟨start, .ordered⟩) := hframe.count rfl
      refine ⟨.cons ⟨rfl, fun _ => ?_⟩ houter, ?_⟩
      · rw [List.countP_cons_of_pos (by simp), hcount]
      · rw [itemBullet, Nat.add_comm, ← hcount]
        rfl

/-- The item at a place is written with the text of that place. -/
theorem itemData?_nextBullet (h : Tracks position lists earlier ctx) :
    itemData? (.listItemStart (max ctx.lists.length 1) (nextBullet o ctx).2) =
      some (itemText o earlier lists) := by
  have hdepth : max ctx.lists.length 1 - 1 = lists.length - 1 := by
    rw [h.frames.length_eq]
    omega
  change some _ = some _
  rw [itemText, ← h.item.2, hdepth]

variable {s s₁ s' : State} {ts us rest : List Html.Token} {t : Html.Token} {lists' : Place}
  {r' : Reaction}

structure State.Numbers (o : Options) (s : State) (ts rest : List Html.Token) (s' : State)
    (lists : Place) (earlier : List Place) (places : List (Option Place)) : Prop where
  texts : (s.trace o ts rest).map (fun step => step.2.written.filterMap itemData?) =
    itemTexts o earlier places
  tracks : Tracks s'.index lists (behind earlier places) s'.context

namespace State.Numbers

theorem step {place : Option Place}
    (hr : react o (s.window t rest) s.emitted.head? s.context = .ok r)
    (htext : r.written.filterMap itemData? = (place.map (itemText o earlier)).toList)
    (h : Tracks (s.index + 1) lists (behind earlier [place]) r.context) :
    s.Numbers o [t] rest (s.accept t r) lists earlier [place] := by
  refine ⟨?_, h⟩
  rw [Passes.trace_cons hr, List.map_cons, htext]
  cases place <;> rfl

theorem append (hp : Passes o (us ++ rest) s ts s₁)
    (h : s.Numbers o ts (us ++ rest) s₁ lists earlier places)
    (h' : s₁.Numbers o us rest s' lists' (behind earlier places) places') :
    s.Numbers o (ts ++ us) rest s' lists' earlier (places ++ places') := by
  refine ⟨?_, ?_⟩
  · rw [hp.trace_append, List.map_append, h.texts, h'.texts, itemTexts_append]
  · rw [behind_append]
    exact h'.tracks

theorem of_bystands (hp : Passes o rest s ts s') (h : s.Bystands o ts rest s')
    (ht : Tracks s.index lists earlier s.context) :
    s.Numbers o ts rest s' lists earlier (List.replicate ts.length none) := by
  refine ⟨?_, ?_⟩
  · rw [readsMarks_itemData?.trace_of_bystands hp h, itemTexts_replicate]
  · rw [behind_replicate, hp.index_eq]
    exact ht.later (Nat.le_add_right _ _) h.spares.lists

end State.Numbers

/-- A tag that leaves the lists alone and writes no item. -/
theorem State.Numbers.of_none
    (hr : react o (s.window t rest) s.emitted.head? s.context = .ok r)
    (hlists : r.context.lists = s.context.lists) (hitems : r.written.filterMap itemData? = [])
    (ht : Tracks s.index lists earlier s.context) :
    s.Numbers o [t] rest (s.accept t r) lists earlier [none] :=
  .step hr hitems (ht.later (Nat.le_succ _) hlists)

theorem lists_emphasis (strong opening : Bool) :
    (emphasis o w strong opening ctx).context.lists = ctx.lists := by
  obtain ⟨_, _, ⟨_, rfl⟩, -, h⟩ := emphasis_eq o w strong opening ctx
  rw [h]
  rfl

theorem items_emphasis (strong opening : Bool) :
    (emphasis o w strong opening ctx).written.filterMap itemData? = [] := by
  rw [readsMarks_itemData?.written]
  obtain ⟨c, _, -, rfl | rfl | rfl, h⟩ := emphasis_eq o w strong opening ctx <;> rw [h]
  · rfl
  · rfl
  · cases strong <;> rfl

theorem numbers_bystander (hby : r.Bystands s.context)
    (hr : react o (s.window t rest) s.emitted.head? s.context = .ok r)
    (ht : Tracks s.index lists earlier s.context) :
    s.Numbers o [t] rest (s.accept t r) lists earlier [none] :=
  .of_none hr hby.spares.lists (readsMarks_itemData?.written_of_isPlain hby.isPlain) ht

theorem numbers_emphasis {strong : Bool}
    (hp : (s.window t rest).Plays o s.context (.emphasis strong))
    (hk : t.kind = .startTag ∨ t.kind = .endTag)
    (hr : react o (s.window t rest) s.emitted.head? s.context = .ok r)
    (ht : Tracks s.index lists earlier s.context) :
    s.Numbers o [t] rest (s.accept t r) lists earlier [none] := by
  have hemphasis := (react_of_plays hp hk).symm.trans hr
  rw [pairedTag, hp.role] at hemphasis
  cases hemphasis
  exact .of_none hr (lists_emphasis _ _) (items_emphasis _ _) ht

section Element

variable {name : String} {attributes : Html.Attributes} {children f : Forest}

namespace Around

variable (h : Around o s name attributes children rest r s₁ r') (hne : children.tokens ≠ [])
include h hne

/-- The start tag of a list begins its count, that of an item is written and counted. -/
theorem numbers_startTag (ht : Tracks s.index lists earlier s.context) :
    s.Numbers o [.startTag name attributes] (children.tokens ++ .endTag name :: rest)
      (s.accept (.startTag name attributes) r) (Place.inside name s.index lists) earlier
      [itemPlace? name .ordinary children.tokens lists] := by
  unfold Place.inside itemPlace?
  cases hrole : Html.roleOf name with
  | list kind =>
    have hopen := (react_openList (h.plays hrole rfl hne).1 rfl).symm.trans h.opens
    cases hopen
    rw [if_neg (by simp)]
    exact .step h.opens (readsMarks_itemData?.written_of_isPlain (isPlain_openList kind))
      (ht.openList kind)
  | item =>
    have hp := (h.plays hrole rfl hne).1
    have hitem := (react_of_plays hp (.inl rfl)).symm.trans h.opens
    rw [pairedTag, hp.role] at hitem
    cases hitem
    have hcounted : Tracks s.index lists earlier (s.context.openBlock "li") :=
      ht.later (Nat.le_refl _) rfl
    rw [if_pos ⟨rfl, rfl, hne⟩]
    refine .step h.opens ?_ hcounted.item.1
    rw [readsMarks_itemData?.written]
    exact (List.filterMap_cons_some (itemData?_nextBullet hcounted)).trans rfl
  | emphasis strong =>
    rw [if_neg (by simp)]
    exact numbers_emphasis (h.plays hrole rfl hne).1 (.inl rfl) h.opens ht
  | _ =>
    rw [if_neg (by simp)]
    exact numbers_bystander (h.bystands (by simp [hrole, Html.Role.isMarked])).1 h.opens ht

/-- The end tag of a list ends its count. -/
theorem numbers_endTag (ht : Tracks s₁.index (Place.inside name s.index lists) earlier s₁.context) :
    s₁.Numbers o [.endTag name] rest (s₁.accept (.endTag name) r') lists earlier [none] := by
  unfold Place.inside at ht
  cases hrole : Html.roleOf name with
  | list kind =>
    rw [hrole] at ht
    have hclose := (react_closeList (h.plays hrole rfl hne).2 rfl).symm.trans h.closes
    exact .step h.closes (readsMarks_itemData?.written_of_isPlain (isPlain_closeList hclose))
      (ht.closeList hclose)
  | item =>
    rw [hrole] at ht
    have hp := (h.plays hrole rfl hne).2
    have hitem := (react_of_plays hp (.inr rfl)).symm.trans h.closes
    rw [pairedTag, hp.role] at hitem
    exact numbers_bystander (bystands_closeItem hitem) h.closes ht
  | emphasis strong =>
    rw [hrole] at ht
    exact numbers_emphasis (h.plays hrole rfl hne).2 (.inr rfl) h.closes ht
  | _ =>
    rw [hrole] at ht
    exact numbers_bystander (h.bystands (by simp [hrole, Html.Role.isMarked])).2 h.closes ht

end Around

/-- An element and its content, by what is shown for the content. -/
theorem Around.numbers (h : Around o s name attributes children rest r s₁ r')
    (ht : Tracks s.index lists earlier s.context)
    (hcontent : ∀ lists earlier, Tracks (s.index + 1) lists earlier r.context →
      (s.accept (.startTag name attributes) r).Numbers o children.tokens (.endTag name :: rest) s₁
        lists earlier (itemPlaces o (r.context.region o) (s.index + 1) lists children)) :
    s.Numbers o (.startTag name attributes :: children.tokens ++ [.endTag name]) rest
      (s₁.accept (.endTag name) r') lists earlier
      (itemPlace? name .ordinary children.tokens lists ::
        itemPlaces o (Region.inside o name children.tokens .ordinary) (s.index + 1)
          (Place.inside name s.index lists) children ++ [none]) := by
  have hstart : Passes o (children.tokens ++ .endTag name :: rest) s [.startTag name attributes]
      (s.accept (.startTag name attributes) r) := .cons h.opens (.nil _)
  have hinside := h.inside
  by_cases hne : children.tokens = []
  -- an element without content opens no list and has no items in it
  · have hplaces (region : Region) (n : Nat) (lists : Place) :
        itemPlaces o region n lists children = [] :=
      List.eq_nil_of_length_eq_zero (by rw [length_itemPlaces, hne]; rfl)
    obtain ⟨hby, hby'⟩ := h.bystands fun _ => hne
    have hopens := numbers_bystander hby h.opens ht
    rw [hne] at hinside
    cases hinside
    have hcloses := numbers_bystander hby' h.closes hopens.tracks
    rw [hplaces, itemPlace?, if_neg fun h => h.2.2 hne]
    rw [hne] at hstart hopens ⊢
    exact .append hstart hopens hcloses
  · have hopens := h.numbers_startTag hne ht
    have hinner := hcontent _ _ hopens.tracks
    have hcloses := h.numbers_endTag hne hinner.tracks
    rw [← behind_append] at hcloses
    rw [h.content hne] at hinner hcloses
    exact .append (.cons h.opens hinside) (.append hstart hopens hinner) hcloses

end Element

/-- Leaves in front of a forest have no place, and the forest stands behind them. -/
theorem numbers_leaves_append {f : Forest} (hts : ∀ t ∈ ts, t.IsLeaf)
    (h : Passes o rest s (ts ++ f.tokens) s')
    (htags : s.context.anchorAsTag ≤ s.context.anchor)
    (ht : Tracks s.index lists earlier s.context)
    (hf : ∀ s₁, Passes o rest s₁ f.tokens s' → s₁.context.anchorAsTag ≤ s₁.context.anchor →
      Tracks s₁.index lists earlier s₁.context → s₁.Numbers o f.tokens rest s' lists earlier
        (itemPlaces o (s₁.context.region o) s₁.index lists f)) :
    s.Numbers o (ts ++ f.tokens) rest s' lists earlier (List.replicate ts.length none ++
      itemPlaces o (s.context.region o) (s.index + ts.length) lists f) := by
  obtain ⟨s₁, h₁, hres, h₂⟩ := h.of_leaves_append hts htags
  have hleaves := State.Numbers.of_bystands h₁ (h₁.bystands_leaves hts) ht
  have htracks := hleaves.tracks
  rw [behind_replicate] at htracks
  have hbehind := hf s₁ h₂ hres.tags htracks
  rw [hres.region_eq, h₁.index_eq] at hbehind
  refine .append h₁ hleaves ?_
  rwa [behind_replicate]

/-- The items of a forest are written at their places, and its lists are counted to the end. -/
theorem Passes.numbers {f : Forest} (h : Passes o rest s f.tokens s')
    (htags : s.context.anchorAsTag ≤ s.context.anchor)
    (ht : Tracks s.index lists earlier s.context) :
    s.Numbers o f.tokens rest s' lists earlier
      (itemPlaces o (s.context.region o) s.index lists f) := by
  induction f generalizing rest s s' lists earlier with
  | nil =>
    cases h
    exact ⟨rfl, ht⟩
  | text content f ih =>
    exact numbers_leaves_append (fun _ => Html.isLeaf_of_mem_textTokens) h htags ht
      fun _ h₁ htags₁ ht₁ => ih h₁ htags₁ ht₁
  | comment content f ih =>
    exact numbers_leaves_append (List.forall_mem_singleton.mpr (Html.isLeaf_comment content)) h
      htags ht fun _ h₁ htags₁ ht₁ => ih h₁ htags₁ ht₁
  | element name attributes children f ihc ih =>
    cases hv : Html.isVoid name with
    | true =>
      rw [Forest.tokens, hv, if_pos rfl] at h ⊢
      rw [itemPlaces, hv, if_pos rfl]
      exact numbers_leaves_append
        (List.forall_mem_singleton.mpr (Html.isLeaf_emptyTag attributes hv)) h htags ht
        fun _ h₁ htags₁ ht₁ => ih h₁ htags₁ ht₁
    | false =>
      by_cases hreg : s.context.region o = .ordinary
      swap
      · rw [itemPlaces_inside hreg]
        exact .of_bystands h (h.bystands_inside htags hreg) ht
      obtain ⟨r, s₁, r', haround, htags₁, hres', h₂⟩ := h.around hv htags hreg
      have helement := haround.numbers ht fun _ _ ht₁ => ihc haround.inside htags₁ ht₁
      have hrest := ih h₂ hres'.tags helement.tracks
      rw [State.context_accept, hres'.region_eq, haround.index_accept, hreg] at hrest
      have hwhole := State.Numbers.append haround.passes helement hrest
      rw [Forest.tokens, hv, if_neg Bool.false_ne_true, itemPlaces, hv, if_neg Bool.false_ne_true,
        hreg]
      simpa using hwhole

/-- Every item of a conversion is indented by the lists around it and numbered, in an ordered list,
among the items written before in that list; each is written by its start tag, and the result has
the items in this order and no others. -/
theorem items_numbered_by_structure (o : Options) (f : Forest) :
    ∃ s, ({} : State).run o f.tokens = (s, none) ∧ convert o f.tokens = .ok s.finished ∧
      (({} : State).trace o f.tokens []).map Prod.fst = f.tokens ∧
      (({} : State).trace o f.tokens []).map (fun step => step.2.written.filterMap itemData?) =
        itemTexts o [] (itemPlaces o .ordinary 0 [] f) ∧
      s.finished.filterMap itemData? =
        (itemTexts o [] (itemPlaces o .ordinary 0 [] f)).flatten := by
  obtain ⟨s, hs, -⟩ := exists_passes_tokens o f [] {} (Nat.le_refl 0)
  have hempty : Tracks 0 [] [] {} :=
    ⟨.nil, List.nodup_nil, List.forall_mem_nil _, List.forall_mem_nil _⟩
  have htexts := (hs.numbers (Nat.le_refl 0) hempty).texts
  have hregion : ({} : Context).region o = .ordinary :=
    Context.region_eq_ordinary_iff.mpr ⟨by simp, rfl⟩
  rw [hregion] at htexts
  refine ⟨s, hs.run_nil, hs.convert_eq, hs.map_fst_trace, htexts, ?_⟩
  rw [hs.read_finished readsMarks_itemData?.passive fun _ _ _ => rfl, State.written,
    ← htexts, List.filterMap_flatMap, List.flatMap_def]

/-- An ordered list goes on where it was behind a list that stands in one of its items. -/
example :
    let item (content rest : Forest) : Forest := .element "li" ∅ content rest
    let inner : Forest := .element "ul" ∅ (item (.text "b" .nil) .nil) .nil
    let f := .element "ol" ∅ (item (.text "a" inner) (item (.text "c" .nil) .nil)) .nil
    (itemTexts {} [] (itemPlaces {} .ordinary 0 [] f)).flatten =
      ["\n1. ", "\n  * ", "\n2. "] := by
  decide +kernel

end HtmlMarkdown.Conversion
