import HtmlMarkdown.Markdown.Layout
import HtmlMarkdown.Markdown.Render
import HtmlMarkdown.Proofs.Coherence

/-!
# The line of a token

A token that shows text should stand on a line of its own depth and code flag: the last newline
before it belongs to a token with the same ones. `InPlace` says so. The one exception are lines
directly behind a rule, where nothing but newlines stands between the rule and the line: there the
newline may be missing that shows a change of depth, and the token is `Stranded`.

Streams are given with their latest token first.
-/

namespace HtmlMarkdown.Markdown

namespace Token

def hasNewline (t : Token) : Bool := (t.chars none).contains '\n'

def isVisible (t : Token) : Bool := (t.chars none).any (!Text.isWhite ·)

def startsLine (t : Token) : Bool := (t.chars none).head? == some '\n'

end Token

/-- The token that the last newline of a stream belongs to. -/
def lineBreak? (earlier : List Token) : Option Token := earlier.find? Token.hasNewline

/-- Only newlines stand between a rule and the line at the end of the stream. -/
def behindRule (earlier : List Token) : Bool :=
  endsInRule ((earlier.dropWhile (!·.hasNewline)).dropWhile Token.isNewline)

def InPlace (earlier : List Token) (t : Token) : Prop :=
  t.startsLine = true ∨
    ((lineBreak? earlier).bind Token.quoteDepth = t.quoteDepth ∧
      (lineBreak? earlier).any Token.inCode = t.inCode)

instance (earlier : List Token) (t : Token) : Decidable (InPlace earlier t) :=
  inferInstanceAs (Decidable (_ ∨ _ ∧ _))

/-- The token follows a rule on a line of another depth. -/
def Stranded (earlier : List Token) (t : Token) : Prop :=
  t.startsLine = false ∧ behindRule earlier = true ∧
    (lineBreak? earlier).bind Token.quoteDepth ≠ t.quoteDepth

def EndsAt (depth : Option Nat) (inCode : Bool) (earlier : List Token) : Prop :=
  (lineBreak? earlier).any Token.inCode = inCode ∧
    ((lineBreak? earlier).bind Token.quoteDepth = depth ∨ behindRule earlier = true)

variable {earlier es : List Token} {t : Token} {depth : Option Nat} {inCode : Bool}

theorem inPlace_iff_of_endsAt (h : t.startsLine = true ∨ EndsAt t.quoteDepth t.inCode earlier) :
    InPlace earlier t ↔ ¬Stranded earlier t := by
  unfold InPlace Stranded
  rcases h with h | ⟨hcode, hdepth | hrule⟩
  · simp [h]
  · simp [hcode, hdepth]
  · simp only [hcode, hrule, and_true, true_and, not_and, not_not]
    cases t.startsLine <;> simp

theorem endsAt_nil : EndsAt none false [] := ⟨rfl, .inl rfl⟩

theorem endsAt_of_hasNewline (h : t.hasNewline = true) :
    EndsAt t.quoteDepth t.inCode (t :: es) := by
  unfold EndsAt lineBreak?
  simp [h]

/-- A token with the depth and the flag of its line leaves the line as it is, or begins another one
like it. -/
theorem EndsAt.cons (h : EndsAt depth inCode es) (hd : t.quoteDepth = depth)
    (hc : t.inCode = inCode) : EndsAt depth inCode (t :: es) := by
  subst hd hc
  by_cases hn : t.hasNewline = true
  · exact endsAt_of_hasNewline hn
  · unfold EndsAt lineBreak? behindRule at h ⊢
    simpa [hn] using h

theorem layRules_cons (t : Token) (ts : List Token) :
    layRules (t :: ts) = ruleLines t ++ layRules ts := List.flatMap_cons

theorem layRules_cons_of_not_rule (h : t.hasTag .horizontalRule = false) (ts : List Token) :
    layRules (t :: ts) = t :: layRules ts := by
  rw [layRules_cons]
  simp [ruleLines, h]

theorem layRules_eq_self {ts : List Token} (h : ∀ t ∈ ts, t.hasTag .horizontalRule = false) :
    layRules ts = ts := by
  induction ts with
  | nil => rfl
  | cons t ts ih =>
    obtain ⟨ht, hts⟩ := List.forall_mem_cons.mp h
    rw [layRules_cons_of_not_rule ht, ih hts]

/-- A rule is laid out the same from both sides. -/
theorem reverse_layRules (ts : List Token) : (layRules ts).reverse = layRules ts.reverse := by
  have hlines (t : Token) : (ruleLines t).reverse = ruleLines t := by
    unfold ruleLines
    split <;> rfl
  induction ts with
  | nil => rfl
  | cons t ts ih =>
    rw [layRules_cons, List.reverse_append, ih, hlines, List.reverse_cons]
    simp [layRules]

/-- The newlines on both sides of a rule. -/
theorem ruleLines_of_rule (h : t.hasTag .horizontalRule = true) :
    ∃ u, ruleLines t = [u, t, u] ∧ u.node = Token.newline.node ∧ u.inCode = t.inCode ∧
      u.quoteDepth = (Token.newline.within t.quoteDepth).quoteDepth :=
  ⟨{ Token.newline.within t.quoteDepth with inCode := t.inCode }, by rw [ruleLines, if_pos h],
    Token.node_within _ _, rfl, rfl⟩

theorem newline_of_node {u : Token} (hu : u.node = Token.newline.node) :
    u.hasNewline = true ∧ u.isNewline = true ∧ u.isVisible = false := by
  have hwhite : Text.isWhite '\n' = true := by decide
  simp [Token.hasNewline, Token.isVisible, Token.chars, Token.isNewline, Token.tagIs, Token.tag?,
    hu, Token.newline, Token.markdown, Tag.renderKind, Tag.isNewline, hwhite]

theorem not_isNewline_of_rule (h : t.hasTag .horizontalRule = true) : t.isNewline = false := by
  unfold Token.hasTag at h
  simp [Token.isNewline, Token.tagIs, eq_of_beq h, Tag.isNewline]

theorem endsInRule_dropWhile_layRules (h : endsInRule es = true) :
    endsInRule ((layRules es).dropWhile Token.isNewline) = true := by
  cases es with
  | nil => cases h
  | cons t es =>
    obtain ⟨u, hlines, hnode, -, -⟩ := ruleLines_of_rule h
    rw [layRules_cons, hlines]
    have hrule : t.hasTag .horizontalRule = true := h
    simp [(newline_of_node hnode).2.1, not_isNewline_of_rule hrule, endsInRule, hrule]

theorem endsAt_layRules_rule (h : t.hasTag .horizontalRule = true) (depth : Option Nat) :
    EndsAt depth t.inCode (layRules (t :: es)) := by
  have hbehind := @endsInRule_dropWhile_layRules (t :: es) h
  obtain ⟨u, hlines, hnode, hflag, -⟩ := ruleLines_of_rule h
  rw [layRules_cons, hlines] at hbehind ⊢
  refine ⟨?_, .inr ?_⟩
  · simp [lineBreak?, (newline_of_node hnode).1, hflag]
  · simpa [behindRule, (newline_of_node hnode).1] using hbehind

theorem EndsAt.layRules_cons (h : EndsAt depth inCode (layRules es)) (hd : t.quoteDepth = depth)
    (hc : t.inCode = inCode) : EndsAt depth inCode (layRules (t :: es)) := by
  by_cases hr : t.hasTag .horizontalRule = true
  · rw [← hc]
    exact endsAt_layRules_rule hr depth
  · rw [Bool.not_eq_true] at hr
    rw [layRules_cons_of_not_rule hr]
    exact h.cons hd hc

end HtmlMarkdown.Markdown
