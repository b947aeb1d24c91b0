/-!
# Maps that keep their order

A map is a list of entries with distinct keys, in the order in which the keys first came in. A key
that comes again keeps its place: `insert` gives it the new value, `insertNew` leaves it alone.
-/

namespace HtmlMarkdown

structure OrderedMap (κ ν : Type) where
  entries : List (κ × ν)
  keys_nodup : (entries.map Prod.fst).Nodup
  deriving DecidableEq, Repr

namespace OrderedMap

variable {κ ν : Type}

@[ext] theorem ext {m m' : OrderedMap κ ν} (h : m.entries = m'.entries) : m = m' := by
  cases m; cases m'; simp_all

def empty : OrderedMap κ ν := ⟨[], by simp⟩

instance : EmptyCollection (OrderedMap κ ν) := ⟨empty⟩

instance : Inhabited (OrderedMap κ ν) := ⟨empty⟩

@[simp] theorem entries_empty : (∅ : OrderedMap κ ν).entries = [] := rfl

def keys (m : OrderedMap κ ν) : List κ := m.entries.map Prod.fst

def values (m : OrderedMap κ ν) : List ν := m.entries.map Prod.snd

def isEmpty (m : OrderedMap κ ν) : Bool := m.entries.isEmpty

def size (m : OrderedMap κ ν) : Nat := m.entries.length

def findKey? (m : OrderedMap κ ν) (p : κ → Bool) : Option ν :=
  (m.entries.find? fun entry => p entry.1).map Prod.snd

def filterKeys (m : OrderedMap κ ν) (p : κ → Bool) : OrderedMap κ ν :=
  ⟨m.entries.filter fun entry => p entry.1,
    m.keys_nodup.sublist (List.filter_sublist.map _)⟩

@[simp] theorem entries_filterKeys (m : OrderedMap κ ν) (p : κ → Bool) :
    (m.filterKeys p).entries = m.entries.filter fun entry => p entry.1 := rfl

variable [DecidableEq κ]

def get? (m : OrderedMap κ ν) (k : κ) : Option ν := m.findKey? (· == k)

def contains (m : OrderedMap κ ν) (k : κ) : Bool := m.keys.contains k

def indexOf? (m : OrderedMap κ ν) (k : κ) : Option Nat := m.keys.idxOf? k

def erase (m : OrderedMap κ ν) (k : κ) : OrderedMap κ ν := m.filterKeys (· != k)

def insertEntry (k : κ) (v : ν) : List (κ × ν) → List (κ × ν)
  | [] => [(k, v)]
  | (k', v') :: rest => if k' = k then (k', v) :: rest else (k', v') :: insertEntry k v rest

theorem mem_keys_insertEntry {k x : κ} {v : ν} {entries : List (κ × ν)} :
    x ∈ (insertEntry k v entries).map Prod.fst ↔ x = k ∨ x ∈ entries.map Prod.fst := by
  induction entries with
  | nil => simp [insertEntry]
  | cons entry rest ih =>
    obtain ⟨k', v'⟩ := entry
    simp only [insertEntry]
    split
    · next h => subst h; simp
    · simp only [List.map_cons, List.mem_cons, ih]
      exact or_left_comm

theorem nodup_insertEntry {k : κ} {v : ν} {entries : List (κ × ν)}
    (h : (entries.map Prod.fst).Nodup) : ((insertEntry k v entries).map Prod.fst).Nodup := by
  induction entries with
  | nil => simp [insertEntry]
  | cons entry rest ih =>
    obtain ⟨k', v'⟩ := entry
    simp only [List.map_cons, List.nodup_cons] at h
    simp only [insertEntry]
    split
    · simpa using h
    · next hk =>
      simp only [List.map_cons, List.nodup_cons, mem_keys_insertEntry]
      exact ⟨fun hx => hx.elim hk h.1, ih h.2⟩

def insert (m : OrderedMap κ ν) (k : κ) (v : ν) : OrderedMap κ ν :=
  ⟨insertEntry k v m.entries, nodup_insertEntry m.keys_nodup⟩

@[simp] theorem entries_insert (m : OrderedMap κ ν) (k : κ) (v : ν) :
    (m.insert k v).entries = insertEntry k v m.entries := rfl

theorem find?_insertEntry (k x : κ) (v : ν) (entries : List (κ × ν)) :
    ((insertEntry k v entries).find? fun entry => entry.1 == x).map Prod.snd =
      if x = k then some v else (entries.find? fun entry => entry.1 == x).map Prod.snd := by
  induction entries with
  | nil =>
    by_cases hx : x = k
    · simp [insertEntry, hx]
    · simp [insertEntry, hx, Ne.symm hx]
  | cons entry rest ih =>
    obtain ⟨k', v'⟩ := entry
    simp only [insertEntry]
    split
    · next h =>
      subst h
      by_cases hx : x = k'
      · simp [hx]
      · simp [hx, Ne.symm hx]
    · next h =>
      by_cases hx : k' = x
      · subst hx; simp [h]
      · simpa [hx] using ih

theorem get?_insert (m : OrderedMap κ ν) (k x : κ) (v : ν) :
    (m.insert k v).get? x = if x = k then some v else m.get? x :=
  find?_insertEntry k x v m.entries

theorem get?_erase (m : OrderedMap κ ν) (k x : κ) :
    (m.erase k).get? x = if x = k then none else m.get? x := by
  simp only [get?, findKey?, erase, entries_filterKeys, List.find?_filter]
  by_cases hx : x = k
  · subst hx
    simp
  · rw [if_neg hx]
    congr 2
    funext entry
    by_cases he : entry.1 = x
    · simp [he, hx]
    · simp [he]

theorem eq_empty_of_get? {m : OrderedMap κ ν} (h : ∀ k, m.get? k = none) : m = ∅ := by
  apply ext
  cases hm : m.entries with
  | nil => rfl
  | cons entry rest =>
    have hfirst := h entry.1
    simp [get?, findKey?, hm] at hfirst

def insertNew (m : OrderedMap κ ν) (k : κ) (v : ν) : OrderedMap κ ν :=
  if m.contains k then m else m.insert k v

def ofList (entries : List (κ × ν)) : OrderedMap κ ν :=
  entries.foldl (fun m entry => m.insert entry.1 entry.2) ∅

end OrderedMap

end HtmlMarkdown
