import HtmlMarkdown.Proofs.Splice

/-!
# Looking ahead over an element

In front of an element that is no emphasis a window sees its start tag, and at most the end of an
emphasis that goes on behind it: the search runs through the element and finds the same end whatever
the element holds, since what is well nested has no end tag too many. So windows in front of an
element look alike for any two contents, and behind it they differ in their positions only.
-/

namespace HtmlMarkdown.Conversion

open Html (WellNested)

section Search

variable {name : String} {t : Html.Token} {ts us : List Html.Token} {depth : Nat}

theorem isNamed_iff {kind : Html.Kind} :
    t.isNamed kind name = true ↔ t.kind = kind ∧ t.name = some name := by
  simp [Html.Token.isNamed]

theorem matchingEnd_of_start (h : t.isNamed .startTag name = true) (depth : Nat)
    (ts : List Html.Token) :
    matchingEnd name depth (t :: ts) = (matchingEnd name (depth + 1) ts).map (· + 1) := by
  rw [matchingEnd, if_pos h]

theorem not_start_of_end (h : t.isNamed .endTag name = true) :
    t.isNamed .startTag name = false := by
  simp [Html.Token.isNamed, (isNamed_iff.mp h).1]

theorem matchingEnd_of_inner_end (h : t.isNamed .endTag name = true) (hd : 1 ≤ depth)
    (ts : List Html.Token) :
    matchingEnd name (depth + 1) (t :: ts) = (matchingEnd name depth ts).map (· + 1) := by
  rw [matchingEnd, if_neg (by simp [not_start_of_end h]), if_pos h, if_neg (by omega),
    Nat.add_sub_cancel]

theorem matchingEnd_of_other (hs : t.isNamed .startTag name = false)
    (he : t.isNamed .endTag name = false) (depth : Nat) (ts : List Html.Token) :
    matchingEnd name depth (t :: ts) = (matchingEnd name depth ts).map (· + 1) := by
  rw [matchingEnd, if_neg (by simp [hs]), if_neg (by simp [he])]

theorem map_add_add (x : Option Nat) (m n : Nat) :
    (x.map (· + m)).map (· + n) = x.map (· + (m + n)) := by
  simp only [Option.map_map, Function.comp_def, Nat.add_assoc]

/-- A well-nested piece has no end for what is open in front of it. -/
theorem matchingEnd_append_of_wellNested (h : WellNested ts) (hd : 1 ≤ depth)
    (us : List Html.Token) :
    matchingEnd name depth (ts ++ us) = (matchingEnd name depth us).map (· + ts.length) := by
  induction h generalizing depth us with
  | nil => simp
  | @leaf t ts hs he _ ih =>
    have hplain {kind : Html.Kind} (hk : t.kind ≠ kind) : t.isNamed kind name = false := by
      simp [Html.Token.isNamed, hk]
    rw [List.cons_append, matchingEnd_of_other (hplain hs) (hplain he), ih hd, map_add_add,
      List.length_cons]
  | @element t u inner ts ht hu hn _ _ ihi ih =>
    rw [List.cons_append, List.append_assoc, List.cons_append]
    have hlength :
        ts.length + (1 + (inner.length + 1)) = (t :: (inner ++ u :: ts)).length := by
      simp only [List.length_cons, List.length_append]
      omega
    by_cases hname : t.name = some name
    · have hstart : t.isNamed .startTag name = true := by simp [Html.Token.isNamed, ht, hname]
      have hend : u.isNamed .endTag name = true := by simp [Html.Token.isNamed, hu, hn, hname]
      rw [matchingEnd_of_start hstart, ihi (Nat.le_add_left 1 depth),
        matchingEnd_of_inner_end hend hd, ih hd, map_add_add, map_add_add, map_add_add, hlength]
    · have hother {kind : Html.Kind} :
          t.isNamed kind name = false ∧ u.isNamed kind name = false := by
        simp [Html.Token.isNamed, hn, hname]
      rw [matchingEnd_of_other hother.1 hother.1, ihi hd, matchingEnd_of_other hother.2 hother.2,
        ih hd, map_add_add, map_add_add, map_add_add, hlength]

def EndsWithin (name : String) (depth : Nat) (us : List Html.Token) : Prop :=
  ∃ place < us.length, ∀ ts, matchingEnd name depth (us ++ ts) = some place

def RunsOn (name : String) (depth : Nat) (us : List Html.Token) : Prop :=
  ∃ depth', 1 ≤ depth' ∧
    ∀ ts, matchingEnd name depth (us ++ ts) = (matchingEnd name depth' ts).map (· + us.length)

theorem endsWithin_or_runsOn (name : String) (us : List Html.Token) (hd : 1 ≤ depth) :
    EndsWithin name depth us ∨ RunsOn name depth us := by
  induction us generalizing depth with
  | nil => exact .inr ⟨depth, hd, fun ts => by simp⟩
  | cons u us ih =>
    have behind {depth' : Nat} (hd' : 1 ≤ depth') (h : ∀ ts, matchingEnd name depth (u :: ts) =
        (matchingEnd name depth' ts).map (· + 1)) :
        EndsWithin name depth (u :: us) ∨ RunsOn name depth (u :: us) := by
      rcases ih hd' with ⟨place, hplace, hfound⟩ | ⟨depth'', hd'', hfound⟩
      · refine .inl ⟨place + 1, Nat.succ_lt_succ hplace, fun ts => ?_⟩
        rw [List.cons_append, h, hfound, Option.map_some]
      · refine .inr ⟨depth'', hd'', fun ts => ?_⟩
        rw [List.cons_append, h, hfound, map_add_add, List.length_cons]
    cases hs : u.isNamed .startTag name with
    | true => exact behind (Nat.le_add_left 1 depth) (matchingEnd_of_start hs depth)
    | false =>
      cases he : u.isNamed .endTag name with
      | false => exact behind hd (matchingEnd_of_other hs he depth)
      | true =>
        obtain ⟨d, rfl⟩ := Nat.exists_eq_add_of_le' hd
        cases d with
        | zero =>
          refine .inl ⟨0, Nat.succ_pos _, fun ts => ?_⟩
          rw [List.cons_append, matchingEnd, if_neg (by simp [hs]), if_pos he,
            if_pos (Nat.le_refl _)]
        | succ d =>
          exact behind (Nat.le_add_left 1 d) (matchingEnd_of_inner_end he (Nat.le_add_left 1 d))

end Search

section Windows

variable {start m m' : Nat} {t : Html.Token} {us post piece piece' ts ts' : List Html.Token}
  {before : Option Html.Token} {index : Nat}

/-- Two pieces that are well nested and begin with the same start tag, which is no emphasis. -/
structure Interchangeable (piece piece' : List Html.Token) : Prop where
  head : ∃ t ts ts', t.kind = .startTag ∧ (∀ strong, Html.roleOf t.tagName ≠ .emphasis strong) ∧
    piece = t :: ts ∧ piece' = t :: ts'
  left : WellNested piece
  right : WellNested piece'

theorem Interchangeable.symm (h : Interchangeable piece piece') :
    Interchangeable piece' piece := by
  obtain ⟨⟨t, ts, ts', hk, hrole, hp, hp'⟩, hl, hr⟩ := h
  exact ⟨⟨t, ts', ts, hk, hrole, hp', hp⟩, hr, hl⟩

/-- A well-nested piece that begins with a start tag has its end tag as well. -/
theorem Interchangeable.two_le (h : Interchangeable piece piece') : 2 ≤ piece.length := by
  obtain ⟨⟨t, ts, ts', hk, -, rfl, -⟩, hl, -⟩ := h
  cases hl with
  | leaf hs he h => exact absurd hk hs
  | element ht hu hn hi h =>
    simp only [List.length_cons, List.length_append]
    omega

theorem nextAcrossSpace_append (p : Html.Token → Bool) (us : List Html.Token)
    (ht : t.kind = .startTag) :
    nextAcrossSpace p (us ++ t :: ts) = nextAcrossSpace p (us ++ t :: ts') := by
  have hspace : (t.kind == .spaceCharacters) = false := by rw [ht]; rfl
  rcases us with _ | ⟨u, _ | ⟨v, vs⟩⟩ <;> simp [nextAcrossSpace, hspace]

theorem getElem?_append_cons {i : Nat} (hi : i ≤ us.length) :
    (us ++ t :: ts)[i]? = (us ++ t :: ts')[i]? := by
  rcases Nat.lt_or_eq_of_le hi with h | rfl
  · rw [List.getElem?_append_left h, List.getElem?_append_left h]
  · simp

theorem flatText?_append (before : Option Html.Token) (index : Nat) (u : Html.Token)
    (us : List Html.Token) (ht : t.kind = .startTag) (ts ts' : List Html.Token) :
    Window.flatText? { before, index, token := u, after := us ++ t :: ts' } =
      Window.flatText? { before, index, token := u, after := us ++ t :: ts } := by
  have hchars : t.kind ≠ .characters := by simp [ht]
  have hend : t.isNamed .endTag "a" = false := by simp [Html.Token.isNamed, ht]
  rcases us with _ | ⟨u, _ | ⟨v, vs⟩⟩
  · cases ts <;> cases ts' <;> simp [Window.flatText?, hchars]
  · simp [Window.flatText?, hend]
  · simp [Window.flatText?]

/-- An anchor with a flat text has the text and its end tag in front of the next start tag. -/
theorem two_le_of_flatText? {before : Option Html.Token} {index : Nat} {u : Html.Token}
    (ht : t.kind = .startTag)
    (h : (Window.flatText? { before, index, token := u, after := us ++ t :: ts }).isSome = true) :
    2 ≤ us.length := by
  rcases us with _ | ⟨u, _ | ⟨v, vs⟩⟩
  · cases ts <;> simp [Window.flatText?, ht] at h
  · simp [Window.flatText?, Html.Token.isNamed, ht] at h
  · simp

def Window.facing (before : Option Html.Token) (index : Nat) (t : Html.Token)
    (us piece post : List Html.Token) : Window :=
  { before, index, token := t, after := us ++ (piece ++ post) }

def closesBehind (us piece post : List Html.Token) (name : String) (place : Nat) : Bool :=
  (us ++ (piece ++ post))[place + 1]?.any (·.isNamed .endTag name)

theorem closesBehind_of_lt {name : String} {place : Nat} (h : place < us.length)
    (hp : Interchangeable piece piece') :
    closesBehind us piece post name place = closesBehind us piece' post name place := by
  obtain ⟨⟨t, ts, ts', -, -, rfl, rfl⟩, -, -⟩ := hp
  unfold closesBehind
  rw [List.cons_append, List.cons_append, getElem?_append_cons h]

/-- The start tag of the piece is no end tag. -/
theorem succ_lt_of_closesBehind {name : String} {place : Nat} (h : place < us.length)
    (hp : Interchangeable piece piece')
    (hc : closesBehind us piece post name place = true) : place + 1 < us.length := by
  obtain ⟨⟨t, ts, ts', hk, -, rfl, -⟩, -, -⟩ := hp
  rcases Nat.lt_or_eq_of_le h with hlt | heq
  · exact hlt
  · have heq' : place + 1 = us.length := heq
    simp [closesBehind, heq', Html.Token.isNamed, hk] at hc

theorem closesBehind_piece (us piece post : List Html.Token) (name : String) (q : Nat) :
    closesBehind us piece post name (us.length + piece.length + q) =
      post[q + 1]?.any (·.isNamed .endTag name) := by
  unfold closesBehind
  rw [← List.append_assoc, ← List.length_append, Nat.add_assoc,
    List.getElem?_append_right (Nat.le_add_right _ _), Nat.add_sub_cancel_left]

/-- The fused end of an emphasis tag that has the other kind of emphasis behind it. -/
theorem fusedEnd?_of_inner (before : Option Html.Token) (index : Nat) (t : Html.Token)
    {inner : Html.Token} {strong : Bool} (hk : inner.kind = .startTag)
    (hrole : Html.roleOf inner.tagName = .emphasis (!strong)) (us piece post : List Html.Token) :
    (Window.facing before index t (inner :: us) piece post).fusedEnd? strong =
      ((matchingEnd inner.tagName 1 (us ++ (piece ++ post))).map (· + 1)).filter fun place =>
        2 ≤ place && closesBehind (inner :: us) piece post t.tagName place := by
  have hstart : inner.isNamed .startTag inner.tagName = true := by
    cases hn : inner.name with
    | none =>
      rw [Html.Token.tagName, hn, Option.getD_none] at hrole
      cases strong <;> exact absurd hrole (by decide)
    | some name => simp [Html.Token.isNamed, Html.Token.tagName, hk, hn]
  simp only [Window.fusedEnd?, Window.facing, closesBehind, List.cons_append, hk, hrole, and_self,
    if_true, matchingEnd_of_start hstart]

theorem FusedAlike.of_if {i i' place place' : Nat} {found found' : Option Nat} (c : Bool)
    (h : found = if c then some place else none) (h' : found' = if c then some place' else none)
    (hnext : Corresponds start m m' (i + 1) (i' + 1))
    (hplace : c = true → Corresponds start m m' (i + 1 + place) (i' + 1 + place') ∧
      Corresponds start m m' (i + 2 + place) (i' + 2 + place')) :
    FusedAlike start m m' i i' found found' := by
  cases c with
  | false => exact .inl ⟨h, h'⟩
  | true => exact .inr ⟨place, place', h, h', hnext, hplace rfl⟩

/-- Emphasis that has no other emphasis directly inside is not fused. -/
theorem fusedEnd?_facing_nil (hp : Interchangeable piece piece') (strong : Bool) :
    (Window.facing before index t [] piece post).fusedEnd? strong = none := by
  obtain ⟨⟨u, ts, ts', -, hrole, rfl, -⟩, -, -⟩ := hp
  simp [Window.fusedEnd?, Window.facing, hrole]

/-- A pair of emphasis around a piece is fused alike, whichever of the two it is. -/
theorem fusedAlike_facing (hi : index + 1 + us.length = start) (hp : Interchangeable piece piece')
    (strong : Bool) :
    FusedAlike start piece.length piece'.length index index
      ((Window.facing before index t us piece post).fusedEnd? strong)
      ((Window.facing before index t us piece' post).fusedEnd? strong) := by
  cases us with
  | nil => exact .inl ⟨fusedEnd?_facing_nil hp strong, fusedEnd?_facing_nil hp.symm strong⟩
  | cons inner us =>
    by_cases hinner : inner.kind = .startTag ∧ Html.roleOf inner.tagName = .emphasis (!strong)
    swap
    · have hnone (piece : List Html.Token) :
          (Window.facing before index t (inner :: us) piece post).fusedEnd? strong = none := by
        simp only [Window.fusedEnd?, Window.facing, List.cons_append, if_neg hinner]
      exact .inl ⟨hnone piece, hnone piece'⟩
    have hfused (piece : List Html.Token) :=
      fusedEnd?_of_inner before index t hinner.1 hinner.2 us piece post
    have hnext : index + 1 < start := by rw [List.length_cons] at hi; omega
    rcases endsWithin_or_runsOn inner.tagName us (Nat.le_refl 1) with
      ⟨place, hplace, hfound⟩ | ⟨depth, hd, hfound⟩
    · -- the inner emphasis ends in front of the piece
      have hlt : place + 1 < (inner :: us).length := Nat.succ_lt_succ hplace
      simp only [hfound, Option.map_some, Option.filter_some] at hfused
      have hfused' := hfused piece'
      rw [closesBehind_of_lt hlt hp.symm] at hfused'
      refine .of_if _ (hfused piece) hfused' (.before hnext) fun hcond => ?_
      rw [Bool.and_eq_true] at hcond
      have hin := succ_lt_of_closesBehind hlt hp hcond.2
      exact ⟨.before (by omega), .before (by omega)⟩
    · -- the search runs over the piece
      have hrun {piece : List Html.Token} (hnested : WellNested piece) :
          (matchingEnd inner.tagName 1 (us ++ (piece ++ post))).map (· + 1) =
            (matchingEnd inner.tagName depth post).map
              ((inner :: us).length + piece.length + ·) := by
        rw [hfound, matchingEnd_append_of_wellNested hnested hd, map_add_add, map_add_add]
        congr 1
        funext k
        rw [List.length_cons]
        omega
      cases hq : matchingEnd inner.tagName depth post with
      | none =>
        have hnone {piece : List Html.Token} (hnested : WellNested piece) :
            (Window.facing before index t (inner :: us) piece post).fusedEnd? strong = none := by
          rw [hfused, hrun hnested, hq]
          rfl
        exact .inl ⟨hnone hp.left, hnone hp.right⟩
      | some q =>
        have hplace {piece piece' : List Html.Token} (hp : Interchangeable piece piece') :
            (Window.facing before index t (inner :: us) piece post).fusedEnd? strong =
              if post[q + 1]?.any (·.isNamed .endTag t.tagName) then
                some ((inner :: us).length + piece.length + q)
              else none := by
          have htwo : 2 ≤ (inner :: us).length + piece.length + q := by
            have := hp.two_le
            omega
          rw [hfused, hrun hp.left, hq, Option.map_some, Option.filter_some, closesBehind_piece,
            decide_eq_true htwo, Bool.true_and]
        refine .of_if _ (hplace hp) (hplace hp.symm) (.before hnext) fun _ => ?_
        have hfirst (m : Nat) :
            index + 1 + ((inner :: us).length + m + q) = start + m + q := by omega
        have hsecond (m : Nat) :
            index + 2 + ((inner :: us).length + m + q) = start + m + (q + 1) := by omega
        rw [hfirst, hfirst, hsecond, hsecond]
        exact ⟨.behind q, .behind (q + 1)⟩

theorem alike_facing (hi : index + 1 + us.length = start) (hp : Interchangeable piece piece') :
    Alike start piece.length piece'.length (.facing before index t us piece post)
      (.facing before index t us piece' post) := by
  have hfused (strong : Bool) : FusedAlike start piece.length piece'.length index index
      ((Window.facing before index t us piece post).fusedEnd? strong)
      ((Window.facing before index t us piece' post).fusedEnd? strong) :=
    fusedAlike_facing hi hp strong
  obtain ⟨⟨u, ts, ts', hk, -, rfl, rfl⟩, -, -⟩ := hp
  have hindex : index < start := by omega
  exact
    { before := rfl
      token := rfl
      index := .before hindex
      isEmptyPair := by
        funext name
        unfold Window.isEmptyPair Window.facing
        cases us <;> rfl
      listFollows := nextAcrossSpace_append opensList us hk
      codeFollows := nextAcrossSpace_append opensCode us hk
      flatText? := flatText?_append before index t us hk _ _
      next := fun hflat => by
        have htwo : 2 ≤ us.length := two_le_of_flatText? hk hflat
        exact .before (by simp only [Window.facing]; omega)
      fusedEnd? := hfused }

/-- Behind the piece a window differs in its position only. -/
theorem alike_behind (before : Option Html.Token) (t : Html.Token) (after : List Html.Token)
    (start m m' q : Nat) : Alike start m m' { before, index := start + m + q, token := t, after }
      { before, index := start + m' + q, token := t, after } where
  before := rfl
  token := rfl
  index := .behind q
  isEmptyPair := rfl
  listFollows := rfl
  codeFollows := rfl
  flatText? := rfl
  next := fun _ => .behind (q + 1)
  fusedEnd? := fun strong => by
    have hsame : ∀ index, Window.fusedEnd? { before, index, token := t, after } strong =
        Window.fusedEnd? { before, index := 0, token := t, after } strong := fun _ => rfl
    rw [hsame, hsame (start + m' + q)]
    cases Window.fusedEnd? { before, index := 0, token := t, after } strong with
    | none => exact .inl ⟨rfl, rfl⟩
    | some place =>
      have hfirst (m : Nat) : start + m + q + 1 + place = start + m + (q + 1 + place) := by omega
      have hsecond (m : Nat) : start + m + q + 2 + place = start + m + (q + 2 + place) := by omega
      refine .inr ⟨place, place, rfl, rfl, .behind (q + 1), ?_, ?_⟩
      · rw [hfirst, hfirst]
        exact .behind _
      · rw [hsecond, hsecond]
        exact .behind _

end Windows

end HtmlMarkdown.Conversion
