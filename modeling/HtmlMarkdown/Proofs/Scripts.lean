import HtmlMarkdown.Converter
import HtmlMarkdown.Proofs.Emitted
import HtmlMarkdown.Proofs.Laid
import HtmlMarkdown.Proofs.Muted
import HtmlMarkdown.Proofs.Yield

/-!
# Scripts in the output

With scripts left out, a script is dropped with its content unless a sensitive element is open
around it: there its tags are kept as HTML like those of any other element. So the tags of scripts
in a result are those of the scripts in sensitive content, in order, and the steps over the tags
and the content of scripts write something exactly if there is such a script.
-/

namespace HtmlMarkdown.Markdown

def Token.scriptTag? (u : Token) : Option Html.Token :=
  match u.node with
  | .html raw => if raw.isTag = true ∧ raw.tagName = "script" then some raw else none
  | _ => none

variable {u v : Token}

theorem Token.scriptTag?_of_node (h : v.node = u.node) : v.scriptTag? = u.scriptTag? := by
  unfold Token.scriptTag?
  rw [h]

theorem Token.nativeName?_of_node (h : v.node = u.node) : v.nativeName? = u.nativeName? := by
  unfold Token.nativeName?
  rw [h]

theorem Token.scriptTag?_of_tag? {tag : Tag} (h : u.tag? = some tag) : u.scriptTag? = none := by
  obtain ⟨node, depth, flag⟩ := u
  cases node with
  | html raw => cases h
  | _ => rfl

theorem enduring_scriptTag? : Enduring Token.scriptTag? := by
  refine .of_textless
    { node := fun _ _ => Token.scriptTag?_of_node
      whitespace := fun _ _ ht _ => Token.scriptTag?_of_tag? ht
      mark := fun _ _ ht _ _ => Token.scriptTag?_of_tag? ht
      delimiter := rfl
      rawSpace := fun u raw hnode hk => by
        simp [Token.scriptTag?, hnode, Html.Token.isTag, hk] } fun u ht => ?_
  obtain ⟨node, depth, flag⟩ := u
  cases node with
  | html raw =>
    refine if_neg fun hscript => ?_
    simp [Token.text?, hscript.1] at ht
  | _ => rfl

/-- The layout makes no native blocks of its own. -/
theorem lasting_nativeName (name : String) : Lasting fun u => u.nativeName? ≠ some name := by
  have hmap (u : Token) (f : String → String) (h : u.nativeName? ≠ some name) :
      (u.mapText f).nativeName? ≠ some name := by
    obtain ⟨node, depth, flag⟩ := u
    cases node with
    | markdown tag data => exact h
    | native edge raw => exact h
    | html raw =>
      unfold Token.mapText
      dsimp only
      split_ifs <;> exact h
  exact
    { innate :=
        { node := fun _ _ hnode h => by rwa [Token.nativeName?_of_node hnode]
          newline := by simp [Token.nativeName?, Token.newline, Token.markdown]
          newlineBlank := by simp [Token.nativeName?, Token.newlineBlank, Token.markdown]
          delimiter := by simp [Token.nativeName?, Token.charactersAdded, Token.markdown] }
      indent := fun u h => hmap u _ h
      trimStart := fun u h => hmap u _ h
      trimEnd := fun u h => hmap u _ h }

end HtmlMarkdown.Markdown

namespace HtmlMarkdown.Conversion

open Html (Forest WellNested scriptTokens)
open Markdown (Token)

/-- What reactions to the tags of scripts and to the tokens between them write, where `depth`
scripts are open in front. -/
def fromScripts (depth : Nat) : List (Html.Token × Reaction) → List Token
  | [] => []
  | (t, r) :: steps =>
    (if depth = 0 ∧ scriptDepth t depth = 0 then [] else r.written) ++
      fromScripts (scriptDepth t depth) steps

def keptScriptTags (o : Options) : Region → Forest → List Html.Token
  | _, .nil => []
  | region, .text _ rest => keptScriptTags o region rest
  | region, .comment _ rest => keptScriptTags o region rest
  | region, .element name attributes children rest =>
    let content := keptScriptTags o (Region.inside o name children.tokens region) children
    (if Html.isVoid name then []
      else if region = .sensitive ∧ name = "script" then
        .startTag name attributes :: content ++ [.endTag name]
      else content) ++ keptScriptTags o region rest

structure Scriptless (u : Token) : Prop where
  tag : u.scriptTag? = none
  block : u.nativeName? ≠ some "script"

variable {o : Options} {w : Window} {last : Option Token} {ctx ctx' : Context} {r r' : Reaction}
  {u : Token} {t : Html.Token} {steps steps' : List (Html.Token × Reaction)}
  {kept kept' : List Html.Token} {s s' : State} {rest ts : List Html.Token}
  {attributes : Html.Attributes} {f : Forest} {name : String}

theorem Scriptless.within (h : Scriptless u) (depth : Option Nat) :
    Scriptless (u.within depth) where
  tag := (Token.scriptTag?_of_node (Token.node_within u depth)).trans h.tag
  block := by
    rw [Token.nativeName?_of_node (Token.node_within u depth)]
    exact h.block

theorem scriptless_html {raw : Html.Token} (h : raw.isTag = true → raw.tagName ≠ "script") :
    Scriptless (.html raw) where
  tag := if_neg fun ⟨htag, hn⟩ => h htag hn
  block := by simp [Token.nativeName?, Token.html]

theorem scriptless_markdown (tag : Markdown.Tag) (data : String) :
    Scriptless (.markdown tag data) where
  tag := rfl
  block := by simp [Token.nativeName?, Token.markdown]

/-- What a step can write at a token that is not of a script. -/
theorem Yields.scriptless (h : Yields o w u) (hn : w.token.tagName ≠ "script") :
    Scriptless u := by
  cases h with
  | text s => exact scriptless_html fun h => by cases h
  | bareStart hb => exact scriptless_html fun _ => (by decide : "a" ≠ "script")
  | bareEnd => exact scriptless_html fun _ => by decide
  | comment hk | space hk => exact scriptless_html fun _ => hn
  | cleaned ha => exact scriptless_html fun _ => hn
  | native edge hname =>
    refine ⟨rfl, fun hscript => hn ?_⟩
    have hraw : w.token.name = some "script" := hscript
    rw [Html.Token.tagName, hraw, Option.getD_some]
  | gap gap => cases gap <;> exact scriptless_markdown _ _
  | emphasis strong => cases strong <;> exact scriptless_markdown _ _
  | _ => exact scriptless_markdown _ _

theorem scriptless_insideSensitive (hn : t.tagName ≠ "script")
    (h : insideSensitive t ctx = some r) : ∀ u ∈ r.produced, Scriptless u := by
  have hraw : Scriptless (.html t) := scriptless_html fun _ => hn
  have hnested (tag : Markdown.Tag) : Scriptless (nestedSensitive t (.markdown tag "")) := by
    unfold nestedSensitive
    split_ifs
    · exact scriptless_markdown tag ""
    · exact hraw
  unfold insideSensitive at h
  split_ifs at h <;> cases h
  · exact List.forall_mem_singleton.mpr hraw
  · exact List.forall_mem_singleton.mpr (hnested .startCode)
  · exact List.forall_mem_singleton.mpr (hnested .endCode)

/-- A step over a token that is not of a script writes no tag of one. -/
theorem scriptless_of_react (h : react o w last ctx = .ok r) (hn : w.token.tagName ≠ "script") :
    ∀ u ∈ r.written, Scriptless u := by
  have hproduced : ∀ u ∈ r.produced, Scriptless u := by
    cases hreg : ctx.region o with
    | stripped =>
      rw [react_of_stripped hreg] at h
      cases h
      rw [produced_insideStripped]
      exact List.forall_mem_nil _
    | ordinary =>
      rw [react_of_ordinary hreg] at h
      exact fun u hu => (yielding_ordinary h u hu).scriptless hn
    | sensitive =>
      cases hin : insideSensitive w.token ctx with
      | none =>
        rw [react_eq_ordinary (by simp [hreg]) fun _ => hin] at h
        exact fun u hu => (yielding_ordinary h u hu).scriptless hn
      | some r' =>
        rw [react_of_insideSensitive hreg hin] at h
        cases h
        exact scriptless_insideSensitive hn hin
  intro u hu
  obtain ⟨v, hv, rfl⟩ := List.mem_map.mp hu
  exact (hproduced v hv).within _

theorem scriptDepth_of_ne (hn : t.tagName ≠ "script") (n : Nat) : scriptDepth t n = n := if_pos hn

/-- Behind well-nested tokens the same scripts are open as in front of them. -/
theorem foldl_scriptDepth (h : WellNested ts) (n : Nat) :
    ts.foldl (fun n t => scriptDepth t n) n = n := by
  induction h generalizing n with
  | nil => rfl
  | leaf hs he _ ih => rw [List.foldl_cons, scriptDepth_leaf hs he, ih]
  | element ht hu hn _ _ ihi ih =>
    rw [List.foldl_cons, List.foldl_append, List.foldl_cons, ihi, scriptDepth_element ht hu hn, ih]

theorem fromScripts_append_foldl (n : Nat) : fromScripts n (steps ++ steps') =
    fromScripts n steps ++
      fromScripts ((steps.map Prod.fst).foldl (fun n t => scriptDepth t n) n) steps' := by
  induction steps generalizing n with
  | nil => rfl
  | cons step steps ih =>
    rw [List.cons_append, fromScripts, ih, ← List.append_assoc]
    rfl

theorem fromScripts_append (h : WellNested (steps.map Prod.fst)) (n : Nat) :
    fromScripts n (steps ++ steps') = fromScripts n steps ++ fromScripts n steps' := by
  rw [fromScripts_append_foldl, foldl_scriptDepth h]

theorem fromScripts_of_silent (h : ∀ step ∈ steps, step.2.produced = []) (n : Nat) :
    fromScripts n steps = [] := by
  induction steps generalizing n with
  | nil => rfl
  | cons step steps ih =>
    obtain ⟨hstep, hsteps⟩ := List.forall_mem_cons.mp h
    rw [fromScripts, ih hsteps, Reaction.written, hstep]
    split_ifs <;> rfl

/-- Steps that write these tags of scripts, and write something over scripts if there are any. -/
structure Retains (steps : List (Html.Token × Reaction)) (kept : List Html.Token) : Prop where
  tags : (steps.flatMap (·.2.written)).filterMap Token.scriptTag? = kept
  blocks : ∀ u ∈ steps.flatMap (·.2.written), u.nativeName? ≠ some "script"
  scripts : fromScripts 0 steps = [] ↔ kept = []

namespace Retains

theorem append (hn : WellNested (steps.map Prod.fst)) (h : Retains steps kept)
    (h' : Retains steps' kept') : Retains (steps ++ steps') (kept ++ kept') where
  tags := by rw [List.flatMap_append, List.filterMap_append, h.tags, h'.tags]
  blocks := by
    rw [List.flatMap_append]
    exact List.forall_mem_append.mpr ⟨h.blocks, h'.blocks⟩
  scripts := by
    rw [fromScripts_append hn, List.append_eq_nil_iff, List.append_eq_nil_iff, h.scripts,
      h'.scripts]

/-- A step over a token that is not of a script. -/
theorem cons (hn : t.tagName ≠ "script") (hr : ∀ u ∈ r.written, Scriptless u)
    (h : Retains steps kept) : Retains ((t, r) :: steps) kept where
  tags := by
    rw [List.flatMap_cons, List.filterMap_append, h.tags,
      List.filterMap_eq_nil_iff.mpr fun u hu => (hr u hu).tag]
    rfl
  blocks := by
    rw [List.flatMap_cons]
    exact List.forall_mem_append.mpr ⟨fun u hu => (hr u hu).block, h.blocks⟩
  scripts := by
    rw [fromScripts, scriptDepth_of_ne hn, if_pos ⟨rfl, rfl⟩]
    exact h.scripts

theorem of_silent (h : ∀ step ∈ steps, step.2.produced = []) : Retains steps [] := by
  have hwritten : steps.flatMap (·.2.written) = [] :=
    List.flatMap_eq_nil_iff.mpr fun step hstep => by rw [Reaction.written, h step hstep]; rfl
  refine ⟨?_, ?_, ?_⟩
  · rw [hwritten]
    rfl
  · rw [hwritten]
    exact List.forall_mem_nil _
  · simp only [fromScripts_of_silent h]

theorem written_scriptTag (hr : r.produced = [.html t]) (ht : t.isTag = true)
    (hn : t.tagName = "script") : r.written.filterMap Token.scriptTag? = [t] ∧
      ∀ u ∈ r.written, u.nativeName? ≠ some "script" := by
  rw [Reaction.written, hr]
  refine ⟨List.filterMap_cons_some ?_, List.forall_mem_singleton.mpr ?_⟩
  · rw [Token.scriptTag?_of_node (Token.node_within _ _)]
    exact if_pos ⟨ht, hn⟩
  · rw [Token.nativeName?_of_node (Token.node_within _ _)]
    simp [Token.nativeName?, Token.html]

/-- A script in sensitive content, of which both tags are kept. -/
theorem script (hr : r.produced = [.html (.startTag "script" attributes)])
    (hr' : r'.produced = [.html (.endTag "script")]) (h : Retains steps kept)
    (h' : Retains steps' kept') :
    Retains ((.startTag "script" attributes, r) :: steps ++ (.endTag "script", r') :: steps')
      (.startTag "script" attributes :: kept ++ [.endTag "script"] ++ kept') := by
  obtain ⟨hstart, hstart'⟩ := written_scriptTag hr rfl rfl
  obtain ⟨hend, hend'⟩ := written_scriptTag hr' rfl rfl
  refine ⟨?_, ?_, iff_of_false ?_ (by simp)⟩
  · rw [List.cons_append, List.flatMap_cons, List.flatMap_append, List.flatMap_cons,
      List.filterMap_append, List.filterMap_append, List.filterMap_append, h.tags, h'.tags, hstart,
      hend, List.append_assoc]
    rfl
  · rw [List.cons_append, List.flatMap_cons, List.flatMap_append, List.flatMap_cons]
    simp only [List.forall_mem_append]
    exact ⟨hstart', h.blocks, hend', h'.blocks⟩
  · -- the start tag itself is written
    rw [List.cons_append, fromScripts, if_neg fun hout => Nat.succ_ne_zero 0 hout.2,
      Reaction.written, hr]
    exact List.cons_ne_nil _ _

end Retains

theorem react_scriptStart (hreg : ctx.region o = .sensitive)
    (hw : w.token = .startTag "script" attributes) : react o w last ctx =
      .ok (.emit (ctx.enter .sensitive) [.html (.startTag "script" attributes)]) := by
  refine react_of_insideSensitive hreg ?_
  rw [hw]
  rfl

theorem react_scriptEnd (hreg : ctx.region o = .sensitive)
    (hres : (ctx.enter .sensitive).Resumes ctx') (hw : w.token = .endTag "script") :
    react o w last ctx' =
      .ok (.emit { ctx' with sensitive := ctx'.sensitive - 1 } [.html (.endTag "script")]) := by
  obtain ⟨hstrip, hpos⟩ := Context.region_eq_sensitive_iff.mp hreg
  have hsensitive : ctx'.sensitive = ctx.sensitive + 1 := hres.sensitive_eq
  have hreg' : ctx'.region o = .sensitive := by
    rw [Context.region_eq_sensitive_iff, hres.scriptStrip_eq, hsensitive]
    exact ⟨hstrip, Nat.succ_pos _⟩
  refine react_of_insideSensitive hreg' ?_
  rw [hw, insideSensitive, if_neg (by decide), if_neg (by decide), if_pos ⟨rfl, by omega⟩]
  rfl

theorem keptScriptTags_stripped (o : Options) (f : Forest) : keptScriptTags o .stripped f = [] := by
  induction f with
  | nil => rfl
  | text content f ih => exact ih
  | comment content f ih => exact ih
  | element name attributes children f ihc ih =>
    rw [keptScriptTags, ih]
    simp [Region.inside, ihc]

theorem keptScriptTags_of_tokens_nil (o : Options) (region : Region) (h : f.tokens = []) :
    keptScriptTags o region f = [] := by
  induction f with
  | nil => rfl
  | text content f ih => exact ih (List.append_eq_nil_iff.mp h).2
  | comment content f ih => cases h
  | element name attributes children f _ _ =>
    rw [Forest.tokens] at h
    split_ifs at h
    cases h

/-- The tags of the scripts inside of an element, by the region that its start tag leaves behind. -/
theorem keptScriptTags_inside {region inner : Region} (h : f.tokens ≠ [] → region = inner) :
    keptScriptTags o region f = keptScriptTags o inner f := by
  by_cases hnil : f.tokens = []
  · rw [keptScriptTags_of_tokens_nil o region hnil, keptScriptTags_of_tokens_nil o inner hnil]
  · rw [h hnil]

/-- Leaves are no tags of scripts. -/
theorem Passes.retains_leaves {us : List Html.Token} (hts : ∀ t ∈ ts, t.IsLeaf)
    (h : Passes o (us ++ rest) s ts s') (hus : Retains (s'.trace o us rest) kept) :
    Retains (s.trace o (ts ++ us) rest) kept := by
  induction h with
  | nil s => exact hus
  | @cons s _ t ts r hr _ ih =>
    obtain ⟨ht, hts⟩ := List.forall_mem_cons.mp hts
    have hn : t.tagName ≠ "script" := by
      intro hn
      have hsensitive := ht.sensitive
      rw [hn] at hsensitive
      cases hsensitive
    rw [List.cons_append, trace_cons (by rwa [List.append_assoc])]
    exact (ih hts hus).cons hn (scriptless_of_react hr hn)

theorem Passes.retains_behind_leaves (ts : List Html.Token) (hts : ∀ t ∈ ts, t.IsLeaf)
    (h : Passes o rest s (ts ++ f.tokens) s') (htags : s.context.anchorAsTag ≤ s.context.anchor)
    (ih : ∀ {s₁ : State}, Passes o rest s₁ f.tokens s' →
      s₁.context.anchorAsTag ≤ s₁.context.anchor →
        Retains (s₁.trace o f.tokens rest) (keptScriptTags o (s₁.context.region o) f)) :
    Retains (s.trace o (ts ++ f.tokens) rest) (keptScriptTags o (s.context.region o) f) := by
  obtain ⟨s₁, h₁, hres, h₂⟩ := h.of_leaves_append hts htags
  rw [← hres.region_eq]
  exact h₁.retains_leaves hts (ih h₂ hres.tags)

theorem inside_script (ho : o.stripScripts = true) {region : Region} (h : region ≠ .sensitive)
    (ts : List Html.Token) : Region.inside o "script" ts region = .stripped := by
  cases region with
  | stripped => rfl
  | sensitive => exact absurd rfl h
  | ordinary => rw [Region.inside, roleOf_script]; exact if_pos ho

theorem tokens_script (attributes : Html.Attributes) (children f : Forest) :
    (Forest.element "script" attributes children f).tokens =
      scriptTokens attributes children.tokens ++ f.tokens := by
  have hv : Html.isVoid "script" = false := by decide
  rw [Forest.tokens, hv, if_neg Bool.false_ne_true, scriptTokens]
  simp

/-- A script that is left out writes nothing. -/
theorem Passes.retains_behind_script (ho : o.stripScripts = true)
    (hreg : s.context.region o ≠ .sensitive) (hts : WellNested ts)
    (h : Passes o rest s (scriptTokens attributes ts ++ f.tokens) s')
    (ih : ∀ {s₁ : State}, Passes o rest s₁ f.tokens s' → s₁.context = s.context →
      Retains (s₁.trace o f.tokens rest) kept) :
    Retains (s.trace o (scriptTokens attributes ts ++ f.tokens) rest) kept := by
  obtain ⟨s₁, h₁, h₂⟩ := h.of_append
  obtain ⟨s₂, hmutes, hcontext⟩ := exists_mutes_script ho attributes hts (f.tokens ++ rest) s hreg
  obtain rfl := h₁.unique hmutes.passes
  rw [h₁.trace_append]
  refine (Retains.of_silent hmutes.silent).append ?_ (ih h₂ hcontext)
  rw [h₁.map_fst_trace]
  exact .script attributes hts

/-- The passage of a forest writes the tags of the scripts in sensitive content. -/
theorem Passes.retains (ho : o.stripScripts = true) (h : Passes o rest s f.tokens s')
    (htags : s.context.anchorAsTag ≤ s.context.anchor) :
    Retains (s.trace o f.tokens rest) (keptScriptTags o (s.context.region o) f) := by
  induction f generalizing rest s s' with
  | nil =>
    cases h
    exact .of_silent (List.forall_mem_nil _)
  | text content f ih =>
    exact Passes.retains_behind_leaves (Html.textTokens content)
      (fun _ => Html.isLeaf_of_mem_textTokens) h htags ih
  | comment content f ih =>
    exact Passes.retains_behind_leaves [.comment content]
      (List.forall_mem_singleton.mpr (Html.isLeaf_comment content)) h htags ih
  | element name attributes children f ihc ih =>
    by_cases hv : Html.isVoid name = true
    · rw [Forest.tokens, if_pos hv] at h ⊢
      rw [keptScriptTags, if_pos hv]
      exact Passes.retains_behind_leaves [.emptyTag name attributes]
        (List.forall_mem_singleton.mpr (Html.isLeaf_emptyTag attributes hv)) h htags ih
    rw [Bool.not_eq_true] at hv
    rw [keptScriptTags, hv, if_neg Bool.false_ne_true]
    obtain ⟨r, s₁, r', hr, htags', hc, hr', hres, hres', -, hinside, hrest⟩ :=
      h.of_element hv htags
    have hcontent := ihc hc htags'
    rw [State.context_accept, keptScriptTags_inside hinside] at hcontent
    have hbehind := ih hrest hres'.tags
    rw [State.context_accept, hres'.region_eq] at hbehind
    by_cases hname : name = "script"
    · subst hname
      by_cases hreg : s.context.region o = .sensitive
      · rw [if_pos ⟨hreg, rfl⟩, trace_element hv hr hc hr']
        obtain rfl := Except.ok.inj ((react_scriptStart hreg rfl).symm.trans hr)
        obtain rfl := Except.ok.inj ((react_scriptEnd hreg hres rfl).symm.trans hr')
        exact .script rfl rfl hcontent hbehind
      · -- the script is left out as a whole, so its steps are not taken apart
        rw [if_neg fun h => hreg h.1, inside_script ho hreg, keptScriptTags_stripped]
        rw [tokens_script] at h ⊢
        refine h.retains_behind_script ho hreg children.wellNested_tokens fun h₂ hcontext => ?_
        rw [← hcontext]
        exact ih h₂ (hcontext ▸ htags)
    · have hkept : ¬(s.context.region o = .sensitive ∧ name = "script") := fun h => hname h.2
      rw [if_neg hkept, trace_element hv hr hc hr']
      refine Retains.cons hname (scriptless_of_react hr hname) (hcontent.append ?_
        (hbehind.cons hname (scriptless_of_react hr' hname)))
      rw [hc.map_fst_trace]
      exact children.wellNested_tokens

/-- Where scripts are left out, none becomes a native block, and the tags of scripts in the result
are those of the scripts in sensitive content; if there are no such scripts, nothing is written for
the tags and the content of scripts. -/
theorem script_tags_of_sensitive_content (c : Converter) (ho : c.options.stripScripts = true)
    (f : Forest) :
    ∃ out, c.adapt f.tokens = .ok out ∧
      (∀ u ∈ out, u.nativeName? ≠ some "script") ∧
      out.filterMap Token.scriptTag? = keptScriptTags c.options .ordinary f ∧
      (fromScripts 0 (({} : State).trace c.options f.tokens []) = [] ↔
        keptScriptTags c.options .ordinary f = []) := by
  obtain ⟨s, hs, -⟩ := exists_passes_tokens c.options f [] {} (Nat.le_refl 0)
  have hretains := hs.retains ho (Nat.le_refl 0)
  have hstart : ({} : Context).region c.options = .ordinary := by simp [Context.region]
  rw [hstart] at hretains
  refine ⟨Markdown.layout s.finished, ?_, ?_, ?_, hretains.scripts⟩
  · rw [Converter.adapt, hs.convert_eq]
    rfl
  · refine hs.forall_layout (Markdown.lasting_nativeName "script") hretains.blocks fun u hu => ?_
    obtain ⟨tag, data, rfl⟩ := State.exists_markdown_of_mem_referenceBlock hu
    exact (scriptless_markdown tag data).block
  · rw [hs.read_layout Markdown.enduring_scriptTag? fun _ _ _ => rfl]
    exact hretains.tags

/-- A script in front of a paragraph is left out, one in its code is kept. -/
theorem script_tags_of_script_and_code :
    let c : Converter := .ofOptions {}
    let script (s : String) (rest : Forest) : Forest := .element "script" ∅ (.text s .nil) rest
    let f : Forest := script "x" (.element "p" ∅ (.element "code" ∅ (script "y" .nil) .nil) .nil)
    c.options.stripScripts = true ∧ ∃ out, c.adapt f.tokens = .ok out ∧
      (∀ u ∈ out, u.nativeName? ≠ some "script") ∧
      out.filterMap Token.scriptTag? = [.startTag "script" ∅, .endTag "script"] ∧
      fromScripts 0 (({} : State).trace c.options f.tokens []) ≠ [] := by
  intro c script f
  have hkept : keptScriptTags c.options .ordinary f = [.startTag "script" ∅, .endTag "script"] := by
    decide +kernel
  obtain ⟨out, hout, hblocks, htags, hscripts⟩ := script_tags_of_sensitive_content c rfl f
  rw [hkept] at htags hscripts
  exact ⟨rfl, out, hout, hblocks, htags, fun h => by simpa using hscripts.mp h⟩

/-- A script inside of code is kept with its tags and its content, although scripts are to be left
out. -/
theorem script_kept_in_code :
    let c : Converter := .ofOptions {}
    let f : Forest := .element "code" ∅ (.text "b" (.element "script" ∅ (.text "c" .nil) .nil)) .nil
    c.options.stripScripts = true ∧ c.options.isPassthrough "script" = false ∧
      ∃ out, c.adapt f.tokens = .ok out ∧ out.filterMap Token.raw? =
        [.characters "b", .startTag "script" ∅, .characters "c", .endTag "script"] := by
  intro c f
  have hraw : (c.adapt f.tokens).toOption.map (·.filterMap Token.raw?) =
      some [.characters "b", .startTag "script" ∅, .characters "c", .endTag "script"] := by
    decide +kernel
  obtain ⟨out, hout, hkept⟩ := Option.map_eq_some_iff.mp hraw
  exact ⟨rfl, by decide, out, eq_ok_of_toOption hout, hkept⟩

end HtmlMarkdown.Conversion
