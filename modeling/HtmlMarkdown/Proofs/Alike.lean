import HtmlMarkdown.Proofs.NativeCode
import HtmlMarkdown.Proofs.Walls

/-!
# The attributes of a native edge

The spacing pass reads a native edge for its tag, its depth and the name of its element. What it
does with the other tokens is the same whatever the attributes of the edge are, so these tell
whether the edge itself is in the output.
-/

namespace HtmlMarkdown.Markdown

def Token.attributed (t : Token) (a : Html.Attributes) : Token :=
  match t.node with
  | .native edge raw => { t with node := .native edge { raw with attributes := a } }
  | _ => t

/-- The tokens differ in nothing but the attributes of a native edge. -/
def Token.Alike (t u : Token) : Prop := ∃ a, u = t.attributed a

namespace Token

variable (t : Token) (a : Html.Attributes)

@[simp] theorem tag?_attributed : (t.attributed a).tag? = t.tag? := by
  obtain ⟨node, depth, flag⟩ := t
  cases node with
  | native edge raw => cases edge <;> rfl
  | _ => rfl

@[simp] theorem quoteDepth_attributed : (t.attributed a).quoteDepth = t.quoteDepth := by
  obtain ⟨node, depth, flag⟩ := t
  cases node <;> rfl

@[simp] theorem inCode_attributed : (t.attributed a).inCode = t.inCode := by
  obtain ⟨node, depth, flag⟩ := t
  cases node <;> rfl

@[simp] theorem nativeName?_attributed : (t.attributed a).nativeName? = t.nativeName? := by
  obtain ⟨node, depth, flag⟩ := t
  cases node <;> rfl

@[simp] theorem isRawNewlines_attributed :
    (t.attributed a).isRawNewlines = t.isRawNewlines := by
  obtain ⟨node, depth, flag⟩ := t
  cases node <;> rfl

@[simp] theorem edge?_attributed : (t.attributed a).edge? = t.edge? := by
  obtain ⟨node, depth, flag⟩ := t
  cases node <;> rfl

@[simp] theorem tagIs_attributed (p : Tag → Bool) : (t.attributed a).tagIs p = t.tagIs p := by
  rw [tagIs, tag?_attributed, tagIs]

@[simp] theorem hasTag_attributed (tag : Tag) : (t.attributed a).hasTag tag = t.hasTag tag := by
  rw [hasTag, tag?_attributed, hasTag]

@[simp] theorem isNewline_attributed : (t.attributed a).isNewline = t.isNewline :=
  tagIs_attributed t a _

@[simp] theorem isNativePre_attributed (edge : Tag) :
    (t.attributed a).isNativePre edge = t.isNativePre edge := by
  rw [isNativePre, hasTag_attributed, nativeName?_attributed, isNativePre]

@[simp] theorem isBlockMark_attributed : (t.attributed a).isBlockMark = t.isBlockMark := by
  rw [isBlockMark, tagIs_attributed, tagIs_attributed, isBlockMark]

variable {t a}

theorem formed_attributed (h : t.Formed) : (t.attributed a).Formed := by
  obtain ⟨node, depth, flag⟩ := t
  cases node with
  | native edge raw => trivial
  | _ => exact h

theorem isProper_attributed (h : t.IsProper) : (t.attributed a).IsProper := by
  refine h.imp (fun hn => ⟨?_, ?_⟩) ?_
  · rw [tag?_attributed]
    exact hn.start
  · rw [tag?_attributed]
    exact hn.stop
  · rintro ⟨edge, raw, hnode, htag⟩
    exact ⟨edge, { raw with attributes := a }, by simp [attributed, hnode], htag⟩

/-- A native edge shows which attributes it has. -/
theorem attributed_injective {edge : Edge} {raw : Html.Token} (h : t.node = .native edge raw) :
    Function.Injective t.attributed := by
  intro a b hab
  simp only [attributed, h, Token.mk.injEq, Node.native.injEq, Html.Token.mk.injEq] at hab
  exact hab.1.2.2.2.1

theorem Alike.refl (t : Token) : t.Alike t := by
  obtain ⟨node, depth, flag⟩ := t
  cases node with
  | native edge raw => exact ⟨raw.attributes, rfl⟩
  | _ => exact ⟨∅, rfl⟩

end Token

variable {ts us ts' out out' front back after after' : List Token} {t u : Token} {s : Spacer}
  {before before' : Option Token} {a : Html.Attributes}

abbrev Alike : List Token → List Token → Prop := List.Forall₂ Token.Alike

theorem Alike.refl (ts : List Token) : Alike ts ts := List.forall₂_same.mpr fun t _ => .refl t

/-- One token of a stream with other attributes. -/
theorem alike_attributed (front : List Token) (t : Token) (a : Html.Attributes)
    (back : List Token) : Alike (front ++ t :: back) (front ++ t.attributed a :: back) :=
  List.rel_append (Alike.refl front) (.cons ⟨a, rfl⟩ (Alike.refl back))

theorem matchingCodeEnd_alike (h : Alike ts us) (n : Nat) :
    matchingCodeEnd n us = matchingCodeEnd n ts := by
  induction h generalizing n with
  | nil => rfl
  | cons ht _ ih =>
    obtain ⟨a, rfl⟩ := ht
    simp only [matchingCodeEnd, Token.tag?_attributed, ih]

theorem pastNewlines_alike (h : Alike ts us) :
    (pastNewlines ts = none ∧ pastNewlines us = none) ∨
      ∃ t a later later', pastNewlines ts = some (t, later) ∧
        pastNewlines us = some (t.attributed a, later') ∧ later'.length = later.length := by
  induction h with
  | nil => exact .inl ⟨rfl, rfl⟩
  | @cons t u ts us ht h ih =>
    obtain ⟨a, rfl⟩ := ht
    simp only [pastNewlines, Token.isNewline_attributed]
    split
    · exact ih
    · exact .inr ⟨t, a, ts, us, rfl, rfl, h.length_eq.symm⟩

theorem classify_alike (hout : Alike out out') (h : Alike ts us) :
    CodeRegion.classify out' us = CodeRegion.classify out ts := by
  have hbehind : CodeRegion.behind out' = CodeRegion.behind out := by
    unfold CodeRegion.behind
    rcases pastNewlines_alike hout with ⟨hnone, hnone'⟩ | ⟨t, a, later, later', ht, ht', hlength⟩
    · rw [hnone, hnone']
    · rw [ht, ht']
      simp only [Token.isNativePre_attributed, hlength]
  have hahead {ts us : List Token} (h : Alike ts us) :
      CodeRegion.ahead us = CodeRegion.ahead ts := by
    unfold CodeRegion.ahead
    rcases pastNewlines_alike h with ⟨hnone, hnone'⟩ | ⟨t, a, later, later', ht, ht', hlength⟩
    · rw [hnone, hnone']
    · rw [ht, ht']
      simp only [Token.isNativePre_attributed, Token.tagIs_attributed, hlength, h.length_eq]
  unfold CodeRegion.classify
  rw [matchingCodeEnd_alike h, hbehind]
  cases matchingCodeEnd 0 ts with
  | none => rfl
  | some place =>
    dsimp only
    rw [hahead (List.forall₂_drop (place + 1) h)]

theorem fits_alike (h : Alike ts us) (ht : Fits ts t) : Fits us (t.attributed a) := by
  have hregions : openRegions us = openRegions ts := by
    clear ht
    induction h with
    | nil => rfl
    | cons hu _ ih =>
      obtain ⟨b, rfl⟩ := hu
      simp only [openRegions, Token.tag?_attributed, ih]
  refine ⟨?_, ?_, Token.formed_attributed ht.formed, ?_, ?_, ?_⟩
  · rw [Token.quoteDepth_attributed]
    exact ht.depth
  · rw [Token.inCode_attributed]
    exact ht.unflagged
  · rw [Token.isBlockMark_attributed, Token.quoteDepth_attributed]
    refine ht.level.imp_right fun hlevel => hlevel.trans ?_
    cases h with
    | nil => rfl
    | cons hu _ =>
      obtain ⟨b, rfl⟩ := hu
      exact (Token.quoteDepth_attributed _ b).symm
  · rw [hregions, Token.tag?_attributed]
    exact ht.code
  · rw [Token.tagIs_attributed]
    refine fun hedge => ht.edge ?_
    cases h with
    | nil => cases hedge
    | cons hu _ =>
      obtain ⟨b, rfl⟩ := hu
      simpa using hedge

theorem coherent_alike (h : Alike ts us) (hts : Coherent ts) : Coherent us := by
  induction h with
  | nil => exact .nil
  | cons hu hus ih =>
    obtain ⟨a, rfl⟩ := hu
    cases hts with
    | cons hf hts => exact .cons (fits_alike hus hf) (ih hts)

theorem walled_alike (h : Alike ts us) (hts : Walled ts) :
    Walled us ∧ inNative us = inNative ts := by
  induction h with
  | nil => exact ⟨.nil, rfl⟩
  | @cons t u ts us hu hus ih =>
    obtain ⟨a, rfl⟩ := hu
    cases hts with
    | cons ht hts =>
      obtain ⟨hw, hn⟩ := ih hts
      refine ⟨.cons (fun hopen => ?_) hw, by simp only [inNative, Token.tag?_attributed, hn]⟩
      rw [Token.IsContent, Token.tag?_attributed]
      exact ht (hn.symm.trans hopen)

theorem edges_alike (p : Mark → Bool) (h : Alike ts us) : edges p us = edges p ts := by
  induction h with
  | nil => rfl
  | cons hu _ ih =>
    obtain ⟨a, rfl⟩ := hu
    rw [edges, edges, filterMap_cons_eq, filterMap_cons_eq, Token.edge?_attributed]
    exact congrArg (_ ++ ·) ih

theorem isProper_alike (h : Alike ts us) (hts : ∀ t ∈ ts, t.IsProper) : ∀ u ∈ us, u.IsProper := by
  induction h with
  | nil => exact hts
  | cons hu _ ih =>
    obtain ⟨a, rfl⟩ := hu
    obtain ⟨ht, hts⟩ := List.forall_mem_cons.mp hts
    exact List.forall_mem_cons.mpr ⟨Token.isProper_attributed ht, ih hts⟩

/-- Other attributes leave a stream one that a conversion may write. -/
theorem Fenced.alike (hts : Fenced ts) (h : Alike ts us) : Fenced us := by
  have hreverse := List.rel_reverse h
  exact ⟨coherent_alike hreverse hts.coherent, (walled_alike hreverse hts.walled).1,
    isProper_alike h hts.proper, (congrArg (scan []) (edges_alike _ h)).trans hts.brackets⟩

namespace Spacer

theorem blockStart_alike (s : Spacer) (t u : Token) (a : Html.Attributes) :
    s.blockStart t (some (u.attributed a)) = s.blockStart t (some u) := by
  simp only [blockStart, Token.tagIs_attributed, Token.isNewline_attributed,
    Token.quoteDepth_attributed]

theorem any_tagIs_of_tags {o o' : Option Token} (h : o'.map Token.tag? = o.map Token.tag?)
    (p : Tag → Bool) : o'.any (·.tagIs p) = o.any (·.tagIs p) := by
  cases o <;> cases o' <;> simp_all [Token.tagIs]

theorem blockEnd_alike (s : Spacer) (t : Token) {next next' : Option Token}
    (hb : before'.map Token.tag? = before.map Token.tag?)
    (hn : next'.map Token.tag? = next.map Token.tag?) :
    s.blockEnd t before' next' = s.blockEnd t before next := by
  have hnewline : next'.any (·.isNewline) = next.any (·.isNewline) := any_tagIs_of_tags hn _
  unfold blockEnd
  rw [any_tagIs_of_tags hb, any_tagIs_of_tags hn, hnewline]

theorem whitespace_alike (s : Spacer) (t : Token) {next next' : Option Token}
    (hn : next'.map Token.tag? = next.map Token.tag?) :
    s.whitespace t next' = s.whitespace t next := by
  have hrule : s.newlineAfterRule t next' = s.newlineAfterRule t next := by
    unfold newlineAfterRule
    rw [any_tagIs_of_tags hn]
  unfold whitespace
  rw [any_tagIs_of_tags hn, hrule]

theorem openCode_alike (s : Spacer) (t : Token) (h : Alike after after') :
    s.openCode t after' = s.openCode t after := by
  have hskip : after'.head?.any Token.isRawNewlines = after.head?.any Token.isRawNewlines := by
    cases h with
    | nil => rfl
    | cons hu _ =>
      obtain ⟨a, rfl⟩ := hu
      exact Token.isRawNewlines_attributed _ a
  unfold openCode
  rw [classify_alike (.refl s.output) (.cons (.refl t) h), hskip]

/-- A step sees no attributes of the tokens around. -/
theorem step_alike (s : Spacer) (t : Token) (hb : before'.map Token.tag? = before.map Token.tag?)
    (h : Alike after after') : s.step before' t after' = s.step before t after := by
  have hnext : after'.head?.map Token.tag? = after.head?.map Token.tag? := by
    cases h with
    | nil => rfl
    | cons hu _ =>
      obtain ⟨a, rfl⟩ := hu
      exact congrArg some (Token.tag?_attributed _ a)
  have hstart : s.blockStart t after'.head? = s.blockStart t after.head? := by
    cases h with
    | nil => rfl
    | cons hu _ =>
      obtain ⟨a, rfl⟩ := hu
      exact s.blockStart_alike t _ a
  unfold step
  split
  · rfl
  · split
    · rfl
    · split
      · rfl
      · next tag _ =>
        unfold ordinary
        cases tag with
        | startCode => exact s.openCode_alike t h
        | startBlock | startBlockquote => exact hstart
        | endBlock | endBlockquote => exact s.blockEnd_alike t hb hnext
        | space | tab | newline | newlineHard | newlineBlank => exact s.whitespace_alike t hnext
        | _ => rfl

theorem advance_alike (s : Spacer) (ts : List Token)
    (hb : before'.map Token.tag? = before.map Token.tag?) (h : Alike after after') :
    s.advance before' ts after' = s.advance before ts after := by
  induction ts generalizing s before before' with
  | nil => rfl
  | cons t ts ih =>
    rw [advance, advance, s.step_alike t hb (List.rel_append (Alike.refl ts) h)]
    exact ih _ rfl

/-- What comes behind a token sees no attributes of it. -/
theorem run_alike (s : Spacer) (ts : List Token)
    (hb : before'.map Token.tag? = before.map Token.tag?) : s.run before' ts = s.run before ts := by
  cases ts with
  | nil => rfl
  | cons t ts => rw [run, run, s.step_alike t hb (.refl ts)]

end Spacer

end HtmlMarkdown.Markdown
