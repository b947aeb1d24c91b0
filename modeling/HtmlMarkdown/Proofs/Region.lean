import HtmlMarkdown.Proofs.Nesting

/-!
# Regions

A token stands inside a script that is left out, inside a sensitive element, or in neither. The
region decides which rules answer to the token. A token that is no start tag and no end tag leaves
the open elements alone; the end tag of an element finds the region that its start tag has left
behind, and takes it back.
-/

namespace HtmlMarkdown.Html

def Role.ownName? : Role → Option String
  | .paragraph => some "p"
  | .division => some "div"
  | .item => some "li"
  | .anchor => some "a"
  | .quote => some "blockquote"
  | .code => some "code"
  | .pre => some "pre"
  | .script => some "script"
  | _ => none

/-- The names that a rule of `roleOf` gives, apart from headings and bare links. -/
def ruledNames : List String :=
  ["p", "div", "ul", "ol", "li", "i", "em", "b", "strong", "a", "blockquote", "code", "pre",
    "script"]

theorem roleOf_of_not_mem_ruledNames {name : String} (h : name ∉ ruledNames) : roleOf name =
    match headingLevel? name with
    | some level => .heading level
    | none => if isBareLink name then .bareLink else .other := by
  simp only [ruledNames, List.mem_cons, List.not_mem_nil, or_false, not_or] at h
  cases hl : headingLevel? name with
  | some level => simp [roleOf, hl]
  | none => simp [roleOf, hl, h]

theorem name_of_ownName? {name own : String} (h : (roleOf name).ownName? = some own) :
    name = own := by
  by_cases hm : name ∈ ruledNames
  · have hall : ∀ n ∈ ruledNames, ∀ s ∈ (roleOf n).ownName?, n = s := by decide
    exact hall name hm own h
  · rw [roleOf_of_not_mem_ruledNames hm] at h
    cases hl : headingLevel? name <;> cases hb : isBareLink name <;>
      simp [hl, hb, Role.ownName?] at h

/-- An element that Markdown has a form for and that is not void has a rule of its own. -/
theorem hasMarkdown_of_roleOf_other {name : String} (h : roleOf name = .other)
    (hv : isVoid name = false) : hasMarkdown name = false := by
  by_contra hm
  have hrule : ∀ n ∈ markdownElements, roleOf n ≠ .other ∨ isVoid n = true := by decide
  have hmem : name ∈ markdownElements := by simpa [hasMarkdown] using hm
  rcases hrule name hmem with hr | hr
  · exact hr h
  · simp [hv] at hr

theorem isSensitive_of_roleOf {name : String}
    (h : roleOf name = .code ∨ roleOf name = .pre ∨ roleOf name = .script) :
    isSensitive name = true := by
  rcases h with h | h | h
  · rw [name_of_ownName? (show (roleOf name).ownName? = some "code" by rw [h]; rfl)]
    decide
  · rw [name_of_ownName? (show (roleOf name).ownName? = some "pre" by rw [h]; rfl)]
    decide
  · rw [name_of_ownName? (show (roleOf name).ownName? = some "script" by rw [h]; rfl)]
    decide

theorem isBareLink_of_roleOf {name : String} (h : roleOf name = .bareLink) :
    isBareLink name = true := by
  by_cases hm : name ∈ ruledNames
  · have hall : ∀ n ∈ ruledNames, roleOf n ≠ .bareLink := by decide
    exact absurd h (hall name hm)
  · rw [roleOf_of_not_mem_ruledNames hm] at h
    cases hl : headingLevel? name <;> cases hb : isBareLink name <;> simp [hl, hb] at h ⊢

theorem isSensitive_of_isVoid {name : String} (h : isVoid name = true) :
    isSensitive name = false := by
  have hall : ∀ n ∈ voidElements, isSensitive n = false := by decide
  exact hall name (by simpa [isVoid] using h)

theorem ne_anchor_of_isVoid {name : String} (h : isVoid name = true) : name ≠ "a" := by
  rintro rfl
  exact absurd h (by decide)

structure Token.IsLeaf (t : Token) : Prop where
  startTag : t.kind ≠ .startTag
  endTag : t.kind ≠ .endTag
  sensitive : isSensitive t.tagName = false
  anchor : t.tagName ≠ "a"

theorem isLeaf_of_mem_spaceTokens {cs : List Char} {t : Token} (h : t ∈ spaceTokens cs) :
    t.IsLeaf := by
  unfold spaceTokens at h
  split at h
  · cases h
  · rw [List.mem_singleton.mp h]
    exact ⟨by simp [Token.spaceCharacters], by simp [Token.spaceCharacters], rfl,
      by simp [Token.spaceCharacters, Token.tagName]⟩

theorem isLeaf_of_mem_textTokens {content : String} {t : Token} (h : t ∈ textTokens content) :
    t.IsLeaf := by
  unfold textTokens at h
  dsimp only at h
  split at h
  · exact isLeaf_of_mem_spaceTokens h
  · simp only [List.mem_append, List.mem_cons] at h
    rcases h with h | rfl | h
    · exact isLeaf_of_mem_spaceTokens h
    · exact ⟨by simp [Token.characters], by simp [Token.characters], rfl,
        by simp [Token.characters, Token.tagName]⟩
    · exact isLeaf_of_mem_spaceTokens h

theorem isLeaf_comment (content : String) : (Token.comment content).IsLeaf :=
  ⟨by simp [Token.comment], by simp [Token.comment], rfl, by simp [Token.comment, Token.tagName]⟩

theorem isLeaf_emptyTag {name : String} (attributes : Attributes) (h : isVoid name = true) :
    (Token.emptyTag name attributes).IsLeaf :=
  ⟨by simp [Token.emptyTag], by simp [Token.emptyTag], isSensitive_of_isVoid h,
    ne_anchor_of_isVoid h⟩

/-- Induction over a forest where texts, comments and void elements count as runs of leaves. -/
@[elab_as_elim]
theorem Forest.leavesRec {motive : Forest → Prop} (nil : motive .nil)
    (leaves : ∀ (ts : List Token) (f g : Forest), (∀ t ∈ ts, t.IsLeaf) →
      g.tokens = ts ++ f.tokens → motive f → motive g)
    (element : ∀ (name : String) (attributes : Attributes) (children f : Forest),
      isVoid name = false → motive children → motive f →
      motive (.element name attributes children f)) (f : Forest) : motive f := by
  induction f with
  | nil => exact nil
  | text content f ih =>
    exact leaves (textTokens content) f _ (fun _ => isLeaf_of_mem_textTokens) rfl ih
  | comment content f ih =>
    exact leaves [.comment content] f _ (by simpa using isLeaf_comment content) rfl ih
  | element name attributes children f ihc ih =>
    cases hv : isVoid name with
    | true =>
      refine leaves [.emptyTag name attributes] f _ ?_ (by simp [tokens, hv]) ih
      simpa using isLeaf_emptyTag attributes hv
    | false => exact element name attributes children f hv ihc ih

end HtmlMarkdown.Html

namespace HtmlMarkdown.Conversion

inductive Region where
  /-- Inside a script that is left out. -/
  | stripped
  | sensitive
  | ordinary
  deriving DecidableEq, Repr

/-- The region of the content of an element, by the region of the element and the tokens that
follow its start tag. -/
def Region.inside (o : Options) (name : String) (after : List Html.Token) : Region → Region
  | .stripped => .stripped
  | .sensitive => .sensitive
  | .ordinary =>
    match Html.roleOf name with
    | .code => .sensitive
    | .script => if o.stripScripts then .stripped else .sensitive
    | .pre =>
      if o.preBehavior = .codeBlock ∨ nextAcrossSpace opensCode after then .sensitive else .ordinary
    | _ => .ordinary

namespace Context

def region (o : Options) (ctx : Context) : Region :=
  if o.stripScripts ∧ 0 < ctx.scriptStrip then .stripped
  else if 0 < ctx.sensitive then .sensitive
  else .ordinary

variable {o : Options} {ctx ctx' : Context}

theorem region_eq_of_counters (hs : ctx'.scriptStrip = ctx.scriptStrip)
    (hc : ctx'.sensitive = ctx.sensitive) : ctx'.region o = ctx.region o := by
  simp only [region, hs, hc]

theorem Resumes.region_eq (h : ctx.Resumes ctx') : ctx'.region o = ctx.region o :=
  region_eq_of_counters h.scriptStrip_eq h.sensitive_eq

theorem region_eq_stripped_iff :
    ctx.region o = .stripped ↔ o.stripScripts = true ∧ 0 < ctx.scriptStrip := by
  unfold region
  split_ifs <;> simp_all

theorem region_eq_sensitive_iff : ctx.region o = .sensitive ↔
    ¬(o.stripScripts = true ∧ 0 < ctx.scriptStrip) ∧ 0 < ctx.sensitive := by
  unfold region
  split_ifs <;> simp_all

theorem region_ne_sensitive (h : ctx.sensitive = 0) : ctx.region o ≠ .sensitive :=
  fun hreg => (Nat.ne_of_gt (region_eq_sensitive_iff.mp hreg).2) h

theorem region_eq_ordinary_iff : ctx.region o = .ordinary ↔
    ¬(o.stripScripts = true ∧ 0 < ctx.scriptStrip) ∧ ctx.sensitive = 0 := by
  unfold region
  split_ifs <;> simp_all; omega

end Context

variable {o : Options} {w : Window} {last : Option Markdown.Token} {ctx : Context}

theorem react_of_stripped (h : ctx.region o = .stripped) :
    react o w last ctx = .ok (insideStripped w.token ctx) := by
  rw [Context.region_eq_stripped_iff] at h
  simp only [react, if_pos h]

theorem react_of_insideSensitive {r : Reaction} (h : ctx.region o = .sensitive)
    (hr : insideSensitive w.token ctx = some r) : react o w last ctx = .ok r := by
  rw [Context.region_eq_sensitive_iff] at h
  simp only [react, if_neg h.1, if_pos h.2, hr]

/-- Outside of scripts left out, a token that no rule for sensitive content takes is ordinary. -/
theorem react_eq_ordinary (h : ctx.region o ≠ .stripped)
    (hn : 0 < ctx.sensitive → insideSensitive w.token ctx = none) :
    react o w last ctx = ordinary o w last ctx := by
  rw [ne_eq, Context.region_eq_stripped_iff] at h
  simp only [react, if_neg h]
  split_ifs with hs
  · rw [hn hs]
  · rfl

theorem react_of_ordinary (h : ctx.region o = .ordinary) :
    react o w last ctx = ordinary o w last ctx := by
  apply react_eq_ordinary
  · simp [h]
  · have := (Context.region_eq_ordinary_iff.mp h).2
    omega

end HtmlMarkdown.Conversion
