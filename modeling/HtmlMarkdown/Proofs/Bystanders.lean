import HtmlMarkdown.Proofs.Handling
import HtmlMarkdown.Proofs.Relabelling

/-!
# Rules that are not about lists or emphasis

The open lists, with the items that they have counted, and the fused pairs of emphasis are changed
by the tags of lists, items and emphasis only, where these play their part. No other token writes
the start of an item or a marker of emphasis.
-/

namespace HtmlMarkdown

/-- The element is written with marks, or the marks of others depend on it: it is a list, an item or
emphasis. -/
def Html.Role.isMarked : Html.Role → Bool
  | list _ | item | emphasis _ => true
  | _ => false

namespace Conversion

open Markdown (Token Tag)

structure Context.Spares (ctx c : Context) : Prop where
  lists : c.lists = ctx.lists
  fusions : c.fusions = ctx.fusions

def Reaction.isPlain (r : Reaction) : Bool := r.produced.all fun t => !t.tagIs Tag.isMarked

structure Reaction.Bystands (r : Reaction) (ctx : Context) : Prop where
  spares : ctx.Spares r.context
  isPlain : r.isPlain = true

variable {o : Options} {w : Window} {last : Option Token} {ctx c c' : Context} {r : Reaction}

namespace Context.Spares

theorem refl (ctx : Context) : ctx.Spares ctx := ⟨rfl, rfl⟩

theorem trans (h : ctx.Spares c) (h' : c.Spares c') : ctx.Spares c' :=
  ⟨h'.lists.trans h.lists, h'.fusions.trans h.fusions⟩

end Context.Spares

theorem bystands_paragraph {name : String} {opening : Bool}
    (h : paragraph name opening ctx = .ok r) : r.Bystands ctx := by
  obtain ⟨_, _, rfl⟩ := paragraph_eq h
  cases opening <;> exact ⟨⟨rfl, rfl⟩, rfl⟩

theorem bystands_heading {name : String} {level : Nat} {opening : Bool}
    (h : heading name level opening ctx = .ok r) : r.Bystands ctx := by
  obtain ⟨_, rfl⟩ := heading_eq h
  cases opening <;> exact ⟨⟨rfl, rfl⟩, rfl⟩

theorem bystands_quote {opening : Bool} (h : quote opening ctx = .ok r) : r.Bystands ctx := by
  obtain ⟨_, _, rfl⟩ := quote_eq h
  cases opening <;> exact ⟨⟨rfl, rfl⟩, rfl⟩

theorem bystands_openAnchor : (openAnchor o w ctx).Bystands ctx := by
  obtain h | h | ⟨_, _, _, _, -, -, ⟨rfl, -⟩ | ⟨_, rfl⟩ | rfl, h⟩ := openAnchor_eq o w ctx <;>
    rw [h] <;> exact ⟨⟨rfl, rfl⟩, rfl⟩

theorem bystands_closeAnchor (h : closeAnchor o w ctx = .ok r) : r.Bystands ctx := by
  obtain ⟨_, ⟨-, rfl⟩ | ⟨_, -, rfl⟩⟩ := closeAnchor_eq h <;> exact ⟨⟨rfl, rfl⟩, rfl⟩

theorem bystands_anchor {opening : Bool} (h : anchor o w opening ctx = .ok r) :
    r.Bystands ctx := by
  cases opening with
  | true =>
    cases h
    exact bystands_openAnchor
  | false => exact bystands_closeAnchor h

theorem bystands_autolink (t : Html.Token) : (autolink o t ctx).Bystands ctx := by
  have hlink (href text : String) :
      (linkTo o href text).all (fun t => !t.tagIs Tag.isMarked) = true := by
    unfold linkTo
    split_ifs <;> rfl
  unfold autolink
  dsimp only
  split_ifs
  · exact ⟨.refl ctx, rfl⟩
  · exact ⟨.refl ctx, rfl⟩
  · exact ⟨.refl ctx, hlink _ _⟩
  · exact ⟨.refl ctx, hlink _ _⟩

theorem bystands_code {opening : Bool} (h : code opening ctx = .ok r) : r.Bystands ctx := by
  obtain ⟨_, rfl⟩ := code_eq h
  cases opening <;> exact ⟨⟨rfl, rfl⟩, rfl⟩

theorem bystands_openPre (mode : PreMode) (raw : Html.Token) :
    (openPre mode raw ctx).Bystands ctx := by
  cases mode <;> exact ⟨⟨rfl, rfl⟩, rfl⟩

theorem bystands_closePre {raw : Html.Token} (h : closePre raw ctx = .ok r) :
    r.Bystands ctx := by
  obtain ⟨mode, _, _, _, _, -, rfl⟩ := closePre_eq h
  cases mode <;> exact ⟨⟨rfl, rfl⟩, rfl⟩

theorem bystands_preformatted {opening : Bool} (h : preformatted o w opening ctx = .ok r) :
    r.Bystands ctx := by
  cases opening with
  | true =>
    cases h
    exact bystands_openPre _ _
  | false => exact bystands_closePre h

theorem bystands_script {opening : Bool} (h : script o w opening ctx = .ok r) :
    r.Bystands ctx := by
  cases opening with
  | true =>
    cases h
    split_ifs <;> exact ⟨⟨rfl, rfl⟩, rfl⟩
  | false =>
    obtain ⟨_, rfl⟩ := closeScript_eq h
    exact ⟨⟨rfl, rfl⟩, rfl⟩

theorem bystands_otherTag {t : Html.Token} (h : otherTag o t ctx = .ok r) : r.Bystands ctx := by
  unfold otherTag at h
  dsimp only at h
  split_ifs at h <;> cases h <;> exact ⟨.refl ctx, rfl⟩

theorem bystands_emptyPair (t : Html.Token) (name : String) :
    (emptyPair o t name ctx).Bystands ctx := by
  unfold emptyPair
  split_ifs
  · exact bystands_autolink t
  · exact ⟨.refl ctx, rfl⟩

theorem bystands_closeItem (h : item o false ctx = .ok r) : r.Bystands ctx := by
  obtain ⟨_, rfl⟩ := closeItem_eq h
  exact ⟨⟨rfl, rfl⟩, rfl⟩

theorem isPlain_openList (kind : Html.ListKind) : (openList kind ctx).isPlain = true := by
  obtain ⟨c, -, h | h⟩ := openList_eq kind ctx <;> rw [h] <;> rfl

theorem isPlain_closeList {more : Bool} (h : closeList more ctx = .ok r) : r.isPlain = true := by
  obtain ⟨c, -, rfl | rfl⟩ := closeList_eq h <;> rfl

/-- The tags of an element that is not marked. -/
theorem bystands_pairedTag (hrole : (Html.roleOf w.token.tagName).isMarked = false)
    (h : pairedTag o w ctx = .ok r) : r.Bystands ctx := by
  unfold pairedTag at h
  dsimp only at h
  split at h
  · exact bystands_heading h
  · exact bystands_paragraph h
  · split_ifs at h
    · exact bystands_paragraph h
    · cases h
      exact ⟨.refl ctx, rfl⟩
  · next hlist =>
    rw [hlist] at hrole
    cases hrole
  · next hitem =>
    rw [hitem] at hrole
    cases hrole
  · next hemphasis =>
    rw [hemphasis] at hrole
    cases hrole
  · exact bystands_anchor h
  · exact bystands_quote h
  · exact bystands_code h
  · exact bystands_preformatted h
  · exact bystands_script h
  · cases h
    exact bystands_autolink _
  · exact bystands_otherTag h

theorem bystands_image (t : Html.Token) : (image o t ctx).Bystands ctx := by
  unfold image
  dsimp only
  split_ifs
  · exact ⟨.refl ctx, rfl⟩
  · split
    · exact ⟨.refl ctx, rfl⟩
    · exact ⟨⟨rfl, rfl⟩, rfl⟩
  · split <;> exact ⟨.refl ctx, rfl⟩

theorem bystands_emptyTag (t : Html.Token) : (emptyTag o t last ctx).Bystands ctx := by
  unfold emptyTag
  dsimp only
  split_ifs
  · exact bystands_image t
  · unfold lineBreak
    split_ifs <;> exact ⟨.refl ctx, rfl⟩
  all_goals exact ⟨.refl ctx, rfl⟩

theorem bystands_characters : (characters w ctx).Bystands ctx := by
  unfold characters
  split_ifs
  · exact ⟨⟨rfl, rfl⟩, rfl⟩
  · refine ⟨.refl ctx, List.all_eq_true.mpr fun u hu => ?_⟩
    rcases mem_textTokens hu with ⟨s, rfl⟩ | ⟨s, rfl⟩ | rfl <;> rfl

theorem bystands_spaceCharacters (t : Html.Token) : (spaceCharacters t last ctx).Bystands ctx := by
  unfold spaceCharacters
  rcases settleSpace_cases t last (0 < ctx.sensitive) ctx.inList with
    heq | heq | ⟨gap, heq⟩ | ⟨heq, -⟩ <;> rw [heq]
  · exact ⟨.refl ctx, rfl⟩
  · exact ⟨.refl ctx, rfl⟩
  · cases gap <;> exact ⟨.refl ctx, rfl⟩
  · exact ⟨.refl ctx, rfl⟩

theorem bystands_insideStripped (t : Html.Token) : (insideStripped t ctx).Bystands ctx := by
  unfold insideStripped
  split_ifs
  · exact ⟨.refl ctx, rfl⟩
  · split <;> exact ⟨⟨rfl, rfl⟩, rfl⟩

theorem bystands_insideSensitive {t : Html.Token} (h : insideSensitive t ctx = some r) :
    r.Bystands ctx := by
  unfold insideSensitive nestedSensitive at h
  split_ifs at h <;> cases h <;> exact ⟨⟨rfl, rfl⟩, rfl⟩

structure Window.PlaysMarked (o : Options) (w : Window) (ctx : Context) (role : Html.Role) :
    Prop where
  plays : w.Plays o ctx role
  marked : role.isMarked = true
  edge : w.token.kind = .startTag ∨ w.token.kind = .endTag

theorem bystands_or_playsMarked_ordinary (hregion : ctx.region o = .ordinary ∨
      Html.isSensitive w.token.tagName = true) (h : ordinary o w last ctx = .ok r) :
    r.Bystands ctx ∨ ∃ role, w.PlaysMarked o ctx role := by
  have htag (hk : w.token.kind = .startTag ∨ w.token.kind = .endTag) (h : tag o w ctx = .ok r) :
      r.Bystands ctx ∨ ∃ role, w.PlaysMarked o ctx role := by
    unfold tag at h
    split at h
    · cases h
      exact .inl (bystands_emptyPair _ _)
    · next hcontent =>
      cases hrole : (Html.roleOf w.token.tagName).isMarked with
      | false => exact .inl (bystands_pairedTag hrole h)
      | true =>
        refine .inr ⟨_, ⟨rfl, hregion.resolve_right fun hs => ?_, hcontent⟩, hrole, hk⟩
        rcases Html.roleOf_of_isSensitive hs with hr | hr | hr <;> rw [hr] at hrole <;> cases hrole
  unfold ordinary at h
  split at h
  · next hk => exact htag (.inl hk) h
  · next hk => exact htag (.inr hk) h
  · cases h
    exact .inl (bystands_emptyTag _)
  · cases h
    exact .inl bystands_characters
  · cases h
    exact .inl (bystands_spaceCharacters _)
  · cases h
    split_ifs <;> exact .inl ⟨.refl ctx, rfl⟩
  · cases h
    exact .inl ⟨.refl ctx, rfl⟩
  · cases h
    exact .inl ⟨.refl ctx, rfl⟩

/-- A token is answered without regard to lists and emphasis, unless it is a tag of a list, an item
or emphasis that plays its part. -/
theorem bystands_or_playsMarked (h : react o w last ctx = .ok r) :
    r.Bystands ctx ∨ ∃ role, w.PlaysMarked o ctx role := by
  cases hreg : ctx.region o with
  | stripped =>
    rw [react_of_stripped hreg] at h
    cases h
    exact .inl (bystands_insideStripped _)
  | sensitive =>
    cases hin : insideSensitive w.token ctx with
    | some r' =>
      rw [react_of_insideSensitive hreg hin] at h
      cases h
      exact .inl (bystands_insideSensitive hin)
    | none =>
      rw [react_eq_ordinary (by simp [hreg]) fun _ => hin] at h
      refine bystands_or_playsMarked_ordinary (.inr ?_) h
      by_contra hplain
      rw [Bool.not_eq_true] at hplain
      simp [insideSensitive, hplain] at hin
  | ordinary =>
    rw [react_of_ordinary hreg] at h
    exact bystands_or_playsMarked_ordinary (.inl hreg) h

theorem bystands_leaf (ht : w.token.IsLeaf) (h : react o w last ctx = .ok r) :
    r.Bystands ctx := by
  refine (bystands_or_playsMarked h).resolve_right ?_
  rintro ⟨role, hc⟩
  exact hc.edge.elim ht.startTag ht.endTag

theorem bystands_inside (hreg : ctx.region o ≠ .ordinary) (h : react o w last ctx = .ok r) :
    r.Bystands ctx :=
  (bystands_or_playsMarked h).resolve_right fun ⟨_, hc⟩ => hreg hc.plays.region

end Conversion

end HtmlMarkdown
