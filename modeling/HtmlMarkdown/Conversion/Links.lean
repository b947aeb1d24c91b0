import HtmlMarkdown.Conversion.Reaction
import HtmlMarkdown.Conversion.Window
import HtmlMarkdown.Options
import HtmlMarkdown.Text.Flow

/-!
# Links and images

An anchor that holds one text token becomes a Markdown link and takes the text with it. Any other
anchor stays as HTML, and so does its end tag. A tag such as `<https://example.com>` is a link to
the address that its attributes spell.
-/

namespace HtmlMarkdown.Conversion

open Markdown (Token)

def linkToken (o : Options) (href text : String) (title : Option String) (ctx : Context) :
    Context × Token :=
  if o.simplifySelfLinks ∧ (text = "" ∨ text = href) ∧ title = none then (ctx, .anchorSimple href)
  else if o.referenceLinks then
    ({ ctx with references := ctx.references.register href title },
      .anchorReferenceLink text (ctx.references.number href))
  else (ctx, .anchorInline href text title)

/-- A link is written on its own, by a number or in full, and may make a reference known. -/
theorem linkToken_eq (o : Options) (href text : String) (title : Option String) (ctx : Context) :
    ∃ references t, linkToken o href text title ctx = ({ ctx with references }, t) ∧
      (t = .anchorSimple href ∧ o.simplifySelfLinks = true ∨
        (∃ n, t = .anchorReferenceLink text n) ∨ t = .anchorInline href text title) := by
  unfold linkToken
  split
  · next hself => exact ⟨ctx.references, _, rfl, .inl ⟨rfl, hself.1⟩⟩
  · split
    · exact ⟨_, _, rfl, .inr (.inl ⟨_, rfl⟩)⟩
    · exact ⟨ctx.references, _, rfl, .inr (.inr rfl)⟩

def openAnchor (o : Options) (w : Window) (ctx : Context) : Reaction :=
  let inside := ctx.enter .anchor
  match if o.anchorsAsTags then none else w.flatText? with
  | none => .emit (inside.enter .anchorAsTag) [.html (o.clean w.token)]
  | some text =>
    match w.token.filledAttribute? "href" with
    | none => .quiet inside
    | some href =>
      let (linked, token) :=
        linkToken o href (Text.flow true text) (w.token.filledAttribute? "title") inside
      .emit { linked with consumedText := some (w.index + 1) } [token]

/-- The start of an anchor is kept as a tag, dropped, or written as a link. Only a link makes a
reference known or takes a text. -/
theorem openAnchor_eq (o : Options) (w : Window) (ctx : Context) :
    openAnchor o w ctx =
        .emit ((ctx.enter .anchor).enter .anchorAsTag) [.html (o.clean w.token)] ∨
      openAnchor o w ctx = .quiet (ctx.enter .anchor) ∨
      ∃ href text references t, w.token.filledAttribute? "href" = some href ∧
        w.flatText? = some text ∧
        (t = .anchorSimple href ∧ o.simplifySelfLinks = true ∨
          (∃ n, t = .anchorReferenceLink (Text.flow true text) n) ∨
          t = .anchorInline href (Text.flow true text) (w.token.filledAttribute? "title")) ∧
        openAnchor o w ctx = .emit
          { ctx.enter .anchor with references, consumedText := some (w.index + 1) } [t] := by
  unfold openAnchor
  dsimp only
  split
  · exact .inl rfl
  · next text htext =>
    split
    · exact .inr (.inl rfl)
    · next href hhref =>
      have hflat : w.flatText? = some text := by
        split at htext
        · cases htext
        · exact htext
      obtain ⟨references, t, hlink, ht⟩ := linkToken_eq o href (Text.flow true text)
        (w.token.filledAttribute? "title") (ctx.enter .anchor)
      rw [hlink]
      exact .inr (.inr ⟨href, text, references, t, hhref, hflat, ht, rfl⟩)

def closeAnchor (o : Options) (w : Window) (ctx : Context) : Except Failure Reaction := do
  let ctx ← ctx.leave .anchor
  match ctx.leave .anchorAsTag with
  | .error _ => return .quiet ctx
  | .ok ctx => return .emit ctx [.html (o.clean w.token)]

/-- The end tag of an anchor is written where an anchor is kept as a tag, and leaves one there. -/
theorem closeAnchor_eq {o : Options} {w : Window} {ctx : Context} {r : Reaction}
    (h : closeAnchor o w ctx = .ok r) : ∃ depth,
      ctx.anchorAsTag = 0 ∧ r = .quiet { ctx with anchor := depth } ∨
      ∃ n, ctx.anchorAsTag = n + 1 ∧
        r = .emit { ctx with anchor := depth, anchorAsTag := n } [.html (o.clean w.token)] := by
  obtain ⟨c₁, h₁, h⟩ := bind_eq_ok h
  obtain ⟨depth, rfl⟩ := Context.eq_of_leave h₁
  by_cases hzero : ctx.anchorAsTag = 0
  · have hleave : (ctx.setDepth depth .anchor).leave .anchorAsTag =
        .error (.belowZero .anchorAsTag) := Context.leave_eq_error_iff.mpr ⟨hzero, rfl⟩
    simp only [hleave] at h
    cases h
    exact ⟨depth, .inl ⟨hzero, rfl⟩⟩
  · obtain ⟨n, hn⟩ := Nat.exists_eq_succ_of_ne_zero hzero
    have hleave : (ctx.setDepth depth .anchor).leave .anchorAsTag =
        .ok { ctx with anchor := depth, anchorAsTag := n } := by
      simp [Context.leave, Context.depth, Context.setDepth, hn]
    simp only [hleave] at h
    cases h
    exact ⟨depth, .inr ⟨n, hn, rfl⟩⟩

def anchor (o : Options) (w : Window) (opening : Bool) (ctx : Context) :
    Except Failure Reaction :=
  if opening then .ok (openAnchor o w ctx) else closeAnchor o w ctx

def image (o : Options) (t : Html.Token) (ctx : Context) : Reaction :=
  if o.imagesAsTags then .emit ctx [.html (o.clean t)]
  else match t.filledAttribute? "src" with
    | none => .remark ctx .imageWithoutSource
    | some src =>
      let title := t.filledAttribute? "title"
      if o.referenceImages then
        .emit { ctx with references := ctx.references.register src title }
          [.image src (t.attribute? "alt") title (some (ctx.references.number src))]
      else .emit ctx [.image src (t.attribute? "alt") title none]

/-- The address that the attributes of a bare link spell: their names, one path segment each, and
the value of the last one behind an equals sign. -/
def bareLinkUrl (scheme : String) (t : Html.Token) : String :=
  let path := "/".intercalate (t.attributes.keys.map (·.localName))
  let value := (t.attributes.values.getLast?.filter (· != "")).elim "" ("=" ++ ·)
  scheme ++ "//" ++ path ++ value

def linkTo (o : Options) (href text : String) : List Token :=
  if o.simplifySelfLinks then [.anchorSimple href]
  else if o.anchorsAsTags then
    [.html ((Html.Token.startTag "a" ∅).withAttribute "href" href),
      .html (.characters text), .html (.endTag "a")]
  else [.anchorInline href text none]

def autolink (o : Options) (t : Html.Token) (ctx : Context) : Reaction :=
  let name := t.tagName
  if !o.bareAutolinks then .remark ctx (.droppedBareLink name)
  else if t.kind ≠ .startTag then .quiet ctx
  else if Html.isMailAddress name then .emit ctx (linkTo o name (Html.mailAddress name))
  else .emit ctx (linkTo o (bareLinkUrl name t) (bareLinkUrl name t))

end HtmlMarkdown.Conversion
