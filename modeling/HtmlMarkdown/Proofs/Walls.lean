import HtmlMarkdown.Proofs.Nested

/-!
# What stands in a native element

Between the two edges of a native element a conversion writes raw HTML and the edges of code, and
nothing else: no element inside of it is native, and no mark or white space of Markdown stands
there. Outside of sensitive elements no native element is open. The edges stand for tags.
-/

namespace HtmlMarkdown

namespace Markdown

def Tag.isNative : Tag → Bool
  | startNativeBlock | endNativeBlock => true
  | _ => false

def inNative : List Token → Bool
  | [] => false
  | t :: earlier =>
    match t.tag? with
    | some .startNativeBlock => true
    | some .endNativeBlock => false
    | _ => inNative earlier

def Token.IsContent (t : Token) : Prop :=
  t.tag? = none ∨ t.tag? = some .startCode ∨ t.tag? = some .endCode

structure Token.NotNative (t : Token) : Prop where
  start : t.tag? ≠ some .startNativeBlock
  stop : t.tag? ≠ some .endNativeBlock

def Token.IsProper (t : Token) : Prop :=
  t.NotNative ∨ ∃ edge raw, t.node = .native edge raw ∧ raw.isTag = true

/-- In a native element stands nothing but its content, up to its end. -/
inductive Walled : List Token → Prop
  | nil : Walled []
  | cons {t : Token} {earlier : List Token}
      (ht : inNative earlier = true → t.IsContent ∨ t.tag? = some .endNativeBlock)
      (h : Walled earlier) : Walled (t :: earlier)

variable {t : Token} {ts us : List Token}

theorem Token.IsContent.notNative (h : t.IsContent) : t.NotNative := by
  rcases h with h | h | h <;> constructor <;> simp [h]

theorem inNative_of_notNative (h : t.NotNative) (ts : List Token) :
    inNative (t :: ts) = inNative ts := by
  rw [inNative]
  split
  · next ht => exact absurd ht h.start
  · next ht => exact absurd ht h.stop
  · rfl

theorem inNative_of_start (h : t.tag? = some .startNativeBlock) (ts : List Token) :
    inNative (t :: ts) = true := by
  rw [inNative, h]

theorem inNative_of_end (h : t.tag? = some .endNativeBlock) (ts : List Token) :
    inNative (t :: ts) = false := by
  rw [inNative, h]

theorem notNative_within (h : t.NotNative) (d : Option Nat) : (t.within d).NotNative :=
  ⟨by rw [Token.tag?_within]; exact h.start, by rw [Token.tag?_within]; exact h.stop⟩

theorem notNative_of_isWhitespace (h : t.tagIs Tag.isWhitespace = true) : t.NotNative := by
  constructor <;> intro ht <;> simp [Token.tagIs, ht, Tag.isWhitespace] at h

namespace Walled

theorem of_append (h : Walled (us ++ ts)) : Walled ts := by
  induction us with
  | nil => exact h
  | cons u us ih =>
    cases h with
    | cons _ h => exact ih h

/-- Content may stand anywhere. -/
theorem content (h : Walled ts) (ht : t.IsContent) :
    Walled (t :: ts) ∧ inNative (t :: ts) = inNative ts :=
  ⟨h.cons fun _ => .inl ht, inNative_of_notNative ht.notNative ts⟩

/-- Outside of native elements everything may stand that is no edge of one. -/
theorem outside (h : Walled ts) (hn : inNative ts = false) (hus : ∀ u ∈ us, u.NotNative) :
    Walled (us ++ ts) ∧ inNative (us ++ ts) = false := by
  induction us with
  | nil => exact ⟨h, hn⟩
  | cons u us ih =>
    obtain ⟨hu, hus⟩ := List.forall_mem_cons.mp hus
    obtain ⟨hw, hn'⟩ := ih hus
    refine ⟨hw.cons fun hopen => ?_, (inNative_of_notNative hu _).trans hn'⟩
    exact absurd (hn'.symm.trans hopen) Bool.false_ne_true

theorem whitespace (h : Walled (t :: ts)) (ht : t.tagIs Tag.isWhitespace = true) :
    Walled ts ∧ inNative ts = inNative (t :: ts) :=
  ⟨of_append (show Walled ([t] ++ ts) from h),
    (inNative_of_notNative (notNative_of_isWhitespace ht) ts).symm⟩

end Walled

theorem isContent_html (raw : Html.Token) (d : Option Nat) :
    ((Token.html raw).within d).IsContent := .inl (Token.tag?_within _ _)

theorem isContent_startCode (d : Option Nat) : (Token.startCode.within d).IsContent :=
  .inr (.inl (Token.tag?_within _ _))

theorem isContent_endCode (d : Option Nat) : (Token.endCode.within d).IsContent :=
  .inr (.inr (Token.tag?_within _ _))

theorem Token.notNative_markdown {tag : Tag} (data : String) (h : tag.isNative = false) :
    (Token.markdown tag data).NotNative := by
  constructor <;> intro ht <;> rw [Option.some.inj ht] at h <;> cases h

theorem Token.notNative_html (raw : Html.Token) : (Token.html raw).NotNative := by
  constructor <;> intro ht <;> cases ht

namespace Walled

theorem opening (h : Walled ts) (hn : inNative ts = false) (raw : Html.Token) (d : Option Nat) :
    Walled ((Token.native .opening raw).within d :: Token.startBlock.within d :: ts) ∧
      inNative ((Token.native .opening raw).within d :: Token.startBlock.within d :: ts) =
        true := by
  have hblock : Token.startBlock.NotNative := Token.notNative_markdown _ rfl
  obtain ⟨hw, hn'⟩ := h.outside hn (List.forall_mem_singleton.mpr (notNative_within hblock d))
  exact ⟨hw.cons fun hopen => absurd (hn'.symm.trans hopen) Bool.false_ne_true,
    inNative_of_start (Token.tag?_within _ _) _⟩

theorem closing (h : Walled ts) (raw : Html.Token) (d : Option Nat) :
    Walled (Token.endBlock.within d :: (Token.native .closing raw).within d :: ts) ∧
      inNative (Token.endBlock.within d :: (Token.native .closing raw).within d :: ts) = false := by
  have hblock : Token.endBlock.NotNative := Token.notNative_markdown _ rfl
  have hedge : ((Token.native .closing raw).within d).tag? = some .endNativeBlock :=
    Token.tag?_within _ _
  exact (h.cons fun _ => .inr hedge).outside (inNative_of_end hedge ts)
    (List.forall_mem_singleton.mpr (notNative_within hblock d))

end Walled

end Markdown

namespace Conversion

open Html (Forest)
open Markdown (Token Walled inNative)

variable {o : Options} {w : Window} {last : Option Token} {ctx : Context} {r : Reaction}
  {rest ts : List Html.Token} {s s' s₁ : State}

theorem Writes.notNative {name : String} {u : Token} (h : Writes o name u) : u.NotNative := by
  cases h with
  | emphasis strong => cases strong <;> exact Token.notNative_markdown _ rfl
  | image src alt title reference =>
    cases reference <;> exact Token.notNative_markdown _ rfl
  | address | raw => exact Token.notNative_html _
  | _ => exact Token.notNative_markdown _ rfl

theorem notNative_textTokens (cs : List Char) : ∀ u ∈ textTokens cs, u.NotNative := by
  intro u hu
  rcases mem_textTokens hu with ⟨s, rfl⟩ | ⟨s, rfl⟩ | rfl
  · exact Token.notNative_html _
  · exact Token.notNative_markdown _ rfl
  · exact Token.notNative_markdown _ rfl

/-- Outside of native elements a step keeps outside where what it writes is no edge of one. -/
theorem walled_accept {t : Html.Token} {after : List Html.Token} (hw : Walled s.emitted)
    (hn : inNative s.emitted = false)
    (hr : Handles o (s.window t after) s.emitted.head? s.context r)
    (hus : ∀ u ∈ r.produced, u.NotNative) :
    Walled (s.accept t r).emitted ∧ inNative (s.accept t r).emitted = false := by
  have hkept : Walled (if r.replacesLast then s.emitted.tail else s.emitted) ∧
      inNative (if r.replacesLast then s.emitted.tail else s.emitted) = false := by
    split
    · next hlast =>
      obtain ⟨u, hu, hnewline⟩ := hr.isNewline_of_replacesLast hlast
      obtain ⟨earlier, he⟩ := List.head?_eq_some_iff.mp hu
      rw [he] at hw hn ⊢
      obtain ⟨hw', hn'⟩ := hw.whitespace (Token.isWhitespace_of_isNewline hnewline)
      exact ⟨hw', hn'.trans hn⟩
    · exact ⟨hw, hn⟩
  refine hkept.1.outside hkept.2 fun u hu => ?_
  obtain ⟨v, hv, rfl⟩ := List.mem_map.mp (List.mem_reverse.mp hu)
  exact Markdown.notNative_within (hus v hv) _

theorem walled_leaf {t : Html.Token} {after : List Html.Token} (ht : t.IsLeaf)
    (hr : react o (s.window t after) s.emitted.head? s.context = .ok r) (hw : Walled s.emitted)
    (hz : s.context.region o = .ordinary → inNative s.emitted = false) :
    Walled (s.accept t r).emitted ∧ inNative (s.accept t r).emitted = inNative s.emitted := by
  have ha := answers_of_react ht hr
  have hh := handles_of_react hr
  generalize hreg : s.context.region o = region at ha hz
  cases ha with
  | stripped => exact ⟨hw, rfl⟩
  | raw => exact hw.content (Markdown.isContent_html _ _)
  | text hk =>
    rw [hz rfl]
    refine walled_accept hw (hz rfl) hh fun u hu => ?_
    unfold characters at hu
    split at hu
    · cases hu
    · exact notNative_textTokens _ u hu
  | space hk =>
    rw [hz rfl]
    refine walled_accept hw (hz rfl) hh fun u hu => ?_
    unfold spaceCharacters at hu
    rcases settleSpace_cases t s.emitted.head? (0 < s.context.sensitive) s.context.inList with
      heq | heq | ⟨gap, heq⟩ | ⟨heq, -⟩ <;> rw [State.window, heq] at hu
    · cases hu
    · obtain rfl := List.mem_singleton.mp hu
      exact Token.notNative_html _
    · obtain rfl := List.mem_singleton.mp hu
      cases gap <;> exact Token.notNative_markdown _ rfl
    · obtain rfl := List.mem_singleton.mp hu
      exact Token.notNative_markdown _ rfl
  | tame hk htame =>
    rw [hz rfl]
    exact walled_accept hw (hz rfl) hh fun u hu => (htame.writes u hu).notNative

theorem walled_of_leaves (hts : ∀ t ∈ ts, t.IsLeaf) (h : Passes o rest s ts s')
    (htags : s.context.anchorAsTag ≤ s.context.anchor) (hw : Walled s.emitted)
    (hz : s.context.region o = .ordinary → inNative s.emitted = false) :
    s.context.Resumes s'.context ∧ Walled s'.emitted ∧
      inNative s'.emitted = inNative s.emitted := by
  induction h with
  | nil => exact ⟨.refl htags, hw, rfl⟩
  | @cons s s' t ts r hr _ ih =>
    have ht : t.IsLeaf := hts t List.mem_cons_self
    have hres := Context.Resumes.of_leaf hr ht htags
    obtain ⟨hw₁, hopen₁⟩ := walled_leaf ht hr hw hz
    obtain ⟨hres₂, hw₂, hopen₂⟩ := ih (fun u hu => hts u (List.mem_cons_of_mem t hu)) hres.tags hw₁
      (fun hreg => hopen₁.trans (hz (hres.region_eq.symm.trans hreg)))
    exact ⟨hres.trans hres₂, hw₂, hopen₂.trans hopen₁⟩

theorem walled_tame {name : String} (hw : Walled s.emitted) (hn : inNative s.emitted = false)
    (hr : r.Tame o name s.context) (t : Html.Token) :
    Walled (s.accept t r).emitted ∧ inNative (s.accept t r).emitted = false := by
  simp only [State.accept, hr.keepsLast, Bool.false_eq_true, if_false]
  refine hw.outside hn fun u hu => ?_
  obtain ⟨v, hv, rfl⟩ := List.mem_map.mp (List.mem_reverse.mp hu)
  exact Markdown.notNative_within (hr.writes v hv).notNative _

/-- Both tags of an element keep a stream walled, and behind its end tag a native element is open
where one was open before. -/
theorem walled_brackets {name : String} {r' : Reaction} (hw : Walled s.emitted)
    (hz : s.context.region o = .ordinary → inNative s.emitted = false)
    (hb : Brackets o name s.context s₁.context (s.context.region o) (r.context.region o) r r')
    (t t' : Html.Token) :
    (Walled (s.accept t r).emitted ∧
        (r.context.region o = .ordinary → inNative (s.accept t r).emitted = false)) ∧
      (Walled s₁.emitted → inNative s₁.emitted = inNative (s.accept t r).emitted →
        Walled (s₁.accept t' r').emitted ∧
          inNative (s₁.accept t' r').emitted = inNative s.emitted) := by
  generalize s.context.region o = outer at hb hz
  generalize r.context.region o = inner at hb
  cases hb with
  | stripped | strippedScript => exact ⟨⟨hw, by simp⟩, fun hw₁ hopen => ⟨hw₁, hopen⟩⟩
  | raw =>
    obtain ⟨hopens, hin⟩ := hw.content (Markdown.isContent_html _ _)
    refine ⟨⟨hopens, by simp⟩, fun hw₁ hopen => ?_⟩
    obtain ⟨hcloses, hin'⟩ := hw₁.content (Markdown.isContent_html _ _)
    exact ⟨hcloses, hin'.trans (hopen.trans hin)⟩
  | innerCode | code =>
    obtain ⟨hopens, hin⟩ := hw.content (Markdown.isContent_startCode _)
    refine ⟨⟨hopens, by simp⟩, fun hw₁ hopen => ?_⟩
    obtain ⟨hcloses, hin'⟩ := hw₁.content (Markdown.isContent_endCode _)
    exact ⟨hcloses, hin'.trans (hopen.trans hin)⟩
  | native raw raw' hc hc' =>
    obtain ⟨hopens, -⟩ := hw.opening (hz rfl) raw (some _)
    refine ⟨⟨hopens, by simp⟩, fun hw₁ _ => ?_⟩
    rw [hz rfl]
    exact hw₁.closing raw' _
  | injectedCode raw raw' hc hc' =>
    obtain ⟨hopens, -⟩ := hw.opening (hz rfl) raw (some _)
    obtain ⟨hcode, -⟩ := hopens.content (Markdown.isContent_startCode _)
    refine ⟨⟨hcode, by simp⟩, fun hw₁ _ => ?_⟩
    obtain ⟨hcode', -⟩ := hw₁.content (Markdown.isContent_endCode _)
    rw [hz rfl]
    exact hcode'.closing raw' _
  | tame htame htame' =>
    have hopens := walled_tame hw (hz rfl) htame t
    refine ⟨⟨hopens.1, fun _ => hopens.2⟩, fun hw₁ hopen => ?_⟩
    rw [hz rfl]
    exact walled_tame hw₁ (hopen.trans hopens.2) htame' t'

/-- A forest keeps a stream walled, and leaves a native element open where it has found one. -/
theorem walled_of_passes {f : Forest} (h : Passes o rest s f.tokens s')
    (htags : s.context.anchorAsTag ≤ s.context.anchor) (hw : Walled s.emitted)
    (hz : s.context.region o = .ordinary → inNative s.emitted = false) :
    Walled s'.emitted ∧ inNative s'.emitted = inNative s.emitted := by
  induction f using Forest.leavesRec generalizing rest s s' with
  | nil =>
    cases h
    exact ⟨hw, rfl⟩
  | leaves ts f g hts htokens ih =>
    rw [htokens] at h
    obtain ⟨s₁, h₁, h₂⟩ := h.of_append
    obtain ⟨hres, hw₁, hopen₁⟩ := walled_of_leaves hts h₁ htags hw hz
    obtain ⟨hw₂, hopen₂⟩ := ih h₂ hres.tags hw₁
      (fun hreg => hopen₁.trans (hz (hres.region_eq.symm.trans hreg)))
    exact ⟨hw₂, hopen₂.trans hopen₁⟩
  | element name attributes children f hv ihc ih =>
    obtain ⟨r, s₁, r', -, htags₁, h₁, -, hres₁, hres, hb, -, h₂⟩ := h.of_element hv htags
    obtain ⟨⟨hopens, hzero⟩, hcloses⟩ := walled_brackets hw hz hb (.startTag name attributes)
      (.endTag name)
    obtain ⟨hw₁, hopen₁⟩ := ihc h₁ htags₁ hopens hzero
    obtain ⟨hw₂, hopen₂⟩ := hcloses hw₁ hopen₁
    obtain ⟨hw₃, hopen₃⟩ := ih h₂ hres.tags hw₂
      (fun hreg => hopen₂.trans (hz (hres.region_eq.symm.trans hreg)))
    exact ⟨hw₃, hopen₃.trans hopen₂⟩

theorem notNative_referenceBlock (references : References) :
    ∀ u ∈ State.referenceBlock references, u.NotNative := by
  intro u hu
  simp only [State.referenceBlock, List.mem_append, List.mem_cons, List.mem_flatMap,
    List.not_mem_nil, or_false] at hu
  rcases hu with ((rfl | rfl) | ⟨entry, -, rfl | rfl⟩) | rfl <;>
    exact Token.notNative_markdown _ rfl

theorem walled_finished (hw : Walled s.emitted) (hn : inNative s.emitted = false) :
    Walled s.finished.reverse := by
  have hbody : Walled s.body.reverse ∧ inNative s.body.reverse = false := by
    unfold State.body
    split
    · rw [List.reverse_reverse]
      exact ⟨hw, hn⟩
    · cases he : s.emitted with
      | nil => exact ⟨.nil, rfl⟩
      | cons last earlier =>
        rw [he] at hw hn
        dsimp only
        split
        · next hspace =>
          obtain ⟨hw', hn'⟩ := hw.whitespace hspace
          rw [List.reverse_reverse]
          exact ⟨hw', hn'.trans hn⟩
        · rw [List.reverse_reverse]
          exact ⟨hw, hn⟩
  rw [State.finished_eq, List.reverse_append]
  refine (hbody.1.outside hbody.2 fun u hu => ?_).1
  split at hu
  · cases hu
  · exact notNative_referenceBlock _ u (List.mem_reverse.mp hu)

/-- The native edges that a step writes stand for its tag. -/
theorem Handles.isProper (h : Handles o w last ctx r) : ∀ u ∈ r.produced, u.IsProper := by
  have inner {us : List Token} (hus : ∀ u ∈ us, u.NotNative) : ∀ u ∈ us, u.IsProper :=
    fun u hu => .inl (hus u hu)
  cases h with
  | opensNative hk hn hc | opensInjected hk hn hc | closesNative hk hn hc
  | closesInjected hk hn hc =>
    have hkept : w.token.isTag = true := by simp [Html.Token.isTag, hk]
    have htag : (o.clean w.token).isTag = true := hkept
    simp only [Reaction.emit, List.forall_mem_cons]
    and_intros <;> first | exact .inr ⟨_, _, rfl, htag⟩ | exact List.forall_mem_nil _ |
      exact .inl (Token.notNative_markdown _ rfl)
  | opensList kind hk hp =>
    obtain ⟨c, -, h | h⟩ := openList_eq kind ctx <;> rw [h]
    · exact List.forall_mem_nil _
    · exact inner (List.forall_mem_singleton.mpr (Token.notNative_markdown _ rfl))
  | closesList kind hk hp h =>
    obtain ⟨c, -, rfl | rfl⟩ := closeList_eq h
    · exact List.forall_mem_nil _
    · exact inner (List.forall_mem_singleton.mpr (Token.notNative_markdown _ rfl))
  | text hk hc => exact inner (notNative_textTokens _)
  | mailLink hc | schemeLink hc =>
    refine inner ?_
    simp only [Reaction.emit, linkTo]
    split_ifs <;> simp only [List.forall_mem_cons] <;> and_intros <;>
      first | exact Token.notNative_markdown _ rfl | exact Token.notNative_html _ |
        exact List.forall_mem_nil _
  | emphasis strong hc =>
    cases strong <;>
      exact inner (List.forall_mem_singleton.mpr (Token.notNative_markdown _ rfl))
  | gap gap hk hc =>
    cases gap <;>
      exact inner (List.forall_mem_singleton.mpr (Token.notNative_markdown _ rfl))
  | _ =>
    refine inner ?_
    simp only [Reaction.emit, List.forall_mem_cons]
    and_intros <;> first | exact Token.notNative_markdown _ rfl |
      exact Token.notNative_html _ | exact List.forall_mem_nil _

theorem Passes.isProper (h : Passes o rest s ts s') (hs : ∀ u ∈ s.emitted, u.IsProper) :
    ∀ u ∈ s'.emitted, u.IsProper := by
  induction h with
  | nil => exact hs
  | @cons s s' t ts r hr _ ih =>
    refine ih fun u hu => ?_
    rw [← List.mem_reverse, State.emitted_accept, List.mem_append, List.mem_reverse] at hu
    rcases hu with hu | hu
    · split at hu
      · exact hs u (List.mem_of_mem_tail hu)
      · exact hs u hu
    · obtain ⟨v, hv, rfl⟩ := List.mem_map.mp hu
      refine ((handles_of_react hr).isProper v hv).imp (Markdown.notNative_within · _) ?_
      rw [Token.node_within]
      exact id

theorem isProper_finished (hs : ∀ u ∈ s.emitted, u.IsProper) :
    ∀ u ∈ s.finished, u.IsProper := by
  intro u hu
  rw [State.finished_eq, List.mem_append] at hu
  rcases hu with hu | hu
  · exact hs u (List.mem_reverse.mp (s.body_isPrefix.subset hu))
  · split at hu
    · cases hu
    · exact .inl (notNative_referenceBlock _ u hu)

end Conversion

namespace Markdown

open Conversion (isInner)

/-- A stream as a conversion writes it, as far as native elements and code go. -/
structure Fenced (ts : List Token) : Prop where
  coherent : Coherent ts.reverse
  walled : Walled ts.reverse
  proper : ∀ u ∈ ts, u.IsProper
  brackets : scan [] (edges isInner ts) = some []

end Markdown

namespace Conversion

/-- A forest has a fenced conversion. -/
theorem exists_convert_fenced (o : Options) (f : Html.Forest) :
    ∃ ts, convert o f.tokens = .ok ts ∧ Markdown.Fenced ts := by
  obtain ⟨ts, hts, hcoherent⟩ := exists_convert_coherent o f
  obtain ⟨s, hs, -⟩ := exists_passes_tokens o f [] {} (Nat.le_refl 0)
  obtain rfl := Except.ok.inj (hs.convert_eq.symm.trans hts)
  obtain ⟨hw, hn⟩ := walled_of_passes hs (Nat.le_refl 0) .nil fun _ => rfl
  refine ⟨s.finished, hts, hcoherent, walled_finished hw hn,
    isProper_finished (hs.isProper (List.forall_mem_nil _)), ?_⟩
  rw [hs.scan_finished]
  exact hs.scan_inner (Nat.le_refl 0) []

end Conversion

end HtmlMarkdown
