import HtmlMarkdown.Markdown.Build
import HtmlMarkdown.Text.Blank
import Mathlib.Algebra.Ring.Parity
import Mathlib.Data.List.Basic
import Mathlib.Data.List.Induction

/-!
# Titles in their quotes

A title stands in double quotes behind an address. What follows an odd number of backslashes is
escaped, and every quote of a title gets one backslash. So the quotes around a title hold it exactly
if it escapes nothing itself: no quote in it has an odd number of backslashes before it, which one
more makes even, and it does not end in an odd number of them, which escape the closing quote.
-/

namespace HtmlMarkdown

namespace Text

/-- What follows is escaped: the text ends in an odd number of backslashes. -/
def Escapes (cs : List Char) : Prop := Odd (takeTail (· == '\\') cs).length

instance (cs : List Char) : Decidable (Escapes cs) :=
  inferInstanceAs (Decidable (Odd (takeTail (· == '\\') cs).length))

/-- A space, a double quote, a text, and a double quote, such that neither of these quotes is
escaped and all quotes between them are. -/
def Enclosed (cs : List Char) : Prop :=
  ∃ body, cs = ' ' :: '"' :: (body ++ ['"']) ∧ ¬Escapes [' '] ∧ ¬Escapes (' ' :: '"' :: body) ∧
    ∀ before after, body = before ++ '"' :: after → Escapes (' ' :: '"' :: before)

variable {cs ds : List Char} {c : Char}

theorem not_escapes_nil : ¬Escapes [] := by decide

theorem escapes_backslash (cs : List Char) : Escapes (cs ++ ['\\']) ↔ ¬Escapes cs := by
  have hlength : (takeTail (· == '\\') (cs ++ ['\\'])).length =
      (takeTail (· == '\\') cs).length + 1 := by simp [takeTail]
  rw [Escapes, hlength, Nat.odd_add_one]
  rfl

theorem not_escapes_of_ne (h : c ≠ '\\') (cs : List Char) : ¬Escapes (cs ++ [c]) := by
  have hnone : takeTail (· == '\\') (cs ++ [c]) = [] := by simp [takeTail, h]
  rw [Escapes, hnone]
  decide

theorem not_escapes_of_not_mem (h : '\\' ∉ cs) : ¬Escapes cs := by
  rcases List.eq_nil_or_concat' cs with rfl | ⟨cs, c, rfl⟩
  · exact not_escapes_nil
  · refine not_escapes_of_ne ?_ cs
    rintro rfl
    exact h (by simp)

/-- Behind text that escapes nothing a text escapes what it escapes alone. -/
theorem escapes_append (h : ¬Escapes cs) (ds : List Char) : Escapes (cs ++ ds) ↔ Escapes ds := by
  induction ds using List.reverseRecOn with
  | nil => exact iff_of_false (by rwa [List.append_nil]) not_escapes_nil
  | append_singleton ds d ih =>
    rw [← List.append_assoc]
    by_cases hd : d = '\\'
    · rw [hd, escapes_backslash, escapes_backslash, ih]
    · exact iff_of_false (not_escapes_of_ne hd _) (not_escapes_of_ne hd _)

/-- The backslash of a quote changes nothing behind the quote. -/
theorem escapes_escapeTitleChar (cs : List Char) :
    Escapes (cs.flatMap escapeTitleChar) ↔ Escapes cs := by
  induction cs using List.reverseRecOn with
  | nil => rfl
  | append_singleton cs c ih =>
    rw [List.flatMap_append, List.flatMap_singleton, escapeTitleChar]
    split_ifs with hquote
    · have hescaped : cs.flatMap escapeTitleChar ++ ['\\', '"'] =
          cs.flatMap escapeTitleChar ++ ['\\'] ++ ['"'] := by simp
      rw [hescaped, hquote]
      exact iff_of_false (not_escapes_of_ne (by decide) _) (not_escapes_of_ne (by decide) _)
    · by_cases hc : c = '\\'
      · rw [hc, escapes_backslash, escapes_backslash, ih]
      · exact iff_of_false (not_escapes_of_ne hc _) (not_escapes_of_ne hc _)

/-- The quotes of an escaped title are the quotes of the title, with a backslash before each. -/
theorem escapeTitleChar_eq_append_iff (before after : List Char) :
    cs.flatMap escapeTitleChar = before ++ '"' :: after ↔ ∃ xs ys, cs = xs ++ '"' :: ys ∧
      before = xs.flatMap escapeTitleChar ++ ['\\'] ∧ after = ys.flatMap escapeTitleChar := by
  constructor
  · intro h
    induction cs generalizing before with
    | nil => simp at h
    | cons c cs ih =>
      rw [List.flatMap_cons, escapeTitleChar] at h
      split_ifs at h with hquote
      · rcases before with _ | ⟨d, _ | ⟨e, before⟩⟩
        · exact absurd (List.cons.inj h).1 (by decide)
        · obtain ⟨rfl, hrest⟩ := List.cons.inj h
          exact ⟨[], cs, by rw [hquote]; rfl, rfl, (List.cons.inj hrest).2.symm⟩
        · obtain ⟨rfl, htail⟩ := List.cons.inj h
          obtain ⟨rfl, hrest⟩ := List.cons.inj htail
          obtain ⟨xs, ys, rfl, rfl, hys⟩ := ih before hrest
          exact ⟨c :: xs, ys, rfl, by simp [escapeTitleChar, hquote], hys⟩
      · rcases before with _ | ⟨d, before⟩
        · exact absurd (List.cons.inj h).1 hquote
        · obtain ⟨rfl, hrest⟩ := List.cons.inj h
          obtain ⟨xs, ys, rfl, rfl, hys⟩ := ih before hrest
          exact ⟨c :: xs, ys, rfl, by simp [escapeTitleChar, hquote], hys⟩
  · rintro ⟨xs, ys, rfl, rfl, rfl⟩
    simp [escapeTitleChar]

theorem enclosed_escapeTitleChar_iff (cs : List Char) :
    Enclosed (' ' :: '"' :: (cs.flatMap escapeTitleChar ++ ['"'])) ↔
      ¬Escapes cs ∧ ∀ before after, cs = before ++ '"' :: after → ¬Escapes before := by
  have hopening : ¬Escapes [' ', '"'] := by decide
  have hinside (xs : List Char) : Escapes (' ' :: '"' :: xs) ↔ Escapes xs :=
    escapes_append hopening xs
  have hquote (xs : List Char) :
      Escapes (' ' :: '"' :: (xs.flatMap escapeTitleChar ++ ['\\'])) ↔ ¬Escapes xs := by
    rw [hinside, escapes_backslash, escapes_escapeTitleChar]
  constructor
  · rintro ⟨body, hbody, -, hclosing, hquotes⟩
    obtain rfl : cs.flatMap escapeTitleChar = body :=
      List.append_cancel_right (List.cons.inj (List.cons.inj hbody).2).2
    rw [hinside, escapes_escapeTitleChar] at hclosing
    refine ⟨hclosing, fun before after hcs => ?_⟩
    rw [← hquote]
    exact hquotes _ _ ((escapeTitleChar_eq_append_iff _ _).mpr ⟨before, after, hcs, rfl, rfl⟩)
  · rintro ⟨hclosing, hquotes⟩
    refine ⟨_, rfl, by decide, ?_, fun before after hbody => ?_⟩
    · rwa [hinside, escapes_escapeTitleChar]
    · obtain ⟨xs, ys, hcs, rfl, -⟩ := (escapeTitleChar_eq_append_iff before after).mp hbody
      exact (hquote xs).mpr (hquotes xs ys hcs)

end Text

namespace Markdown

open Text (Enclosed Escapes)

theorem toList_titleSuffix {title : String} (h : title ≠ "") :
    (titleSuffix (some title)).toList =
      ' ' :: '"' :: (title.toList.flatMap Text.escapeTitleChar ++ ['"']) := by
  have hopening : " \"".toList = [' ', '"'] := by decide
  have hclosing : "\"".toList = ['"'] := by decide
  simp only [titleSuffix, if_neg h, Text.escapeTitle, String.toList_append, String.toList_ofList,
    hopening, hclosing]
  rfl

/-- Links, references and images put one suffix behind an address for a title. The title stays in
its quotes there exactly if neither the title nor what stands before a quote in it ends in an odd
number of backslashes. -/
theorem title_enclosed_iff {title : String} (h : title ≠ "") : ∃ suffix : String,
    (∀ href text, (Token.anchorInline href text (some title)).text? =
      some ("[" ++ text ++ "](" ++ href ++ suffix ++ ")")) ∧
    (∀ n href, (Token.anchorReference n href (some title)).text? =
      some ("[" ++ toString n ++ "]: " ++ href ++ suffix)) ∧
    (∀ src alt, (Token.image src alt (some title) none).text? =
      some ("![" ++ Token.imageText alt ++ "](" ++ src ++ suffix ++ ")")) ∧
    (Enclosed suffix.toList ↔ ¬Escapes title.toList ∧
      ∀ before after, title.toList = before ++ '"' :: after → ¬Escapes before) := by
  refine ⟨titleSuffix (some title), fun _ _ => rfl, fun _ _ => rfl, fun _ _ => rfl, ?_⟩
  rw [toList_titleSuffix h]
  exact Text.enclosed_escapeTitleChar_iff title.toList

/-- The quotes in a title without backslashes are escaped, and it stays in its own. -/
theorem title_enclosed_without_backslash : "a \"b\"" ≠ "" ∧ ∃ suffix : String,
    (∀ href text, (Token.anchorInline href text (some "a \"b\"")).text? =
      some ("[" ++ text ++ "](" ++ href ++ suffix ++ ")")) ∧ Enclosed suffix.toList := by
  have hnone : '\\' ∉ "a \"b\"".toList := by decide
  have hne : "a \"b\"" ≠ "" := by decide
  obtain ⟨suffix, hlink, -, -, henclosed⟩ := title_enclosed_iff hne
  refine ⟨hne, suffix, hlink, henclosed.mpr ⟨Text.not_escapes_of_not_mem hnone, ?_⟩⟩
  intro before after htitle
  refine Text.not_escapes_of_not_mem fun hmem => hnone ?_
  rw [htitle]
  exact List.mem_append_left _ hmem

/-- A backslash at the end of a title escapes the closing quote, and one before a quote frees it. -/
theorem title_breaks_out :
    (Token.anchorInline "u" "x" (some "a\\")).text? = some "[x](u \"a\\\")" ∧
      ¬Enclosed " \"a\\\"".toList ∧
      (Token.anchorInline "u" "x" (some "\\\"")).text? = some "[x](u \"\\\\\"\")" ∧
      ¬Enclosed " \"\\\\\"\"".toList := by
  refine ⟨by decide, fun h => ?_, by decide, fun h => ?_⟩
  · exact ((Text.enclosed_escapeTitleChar_iff ['a', '\\']).mp h).1 (by decide)
  · exact ((Text.enclosed_escapeTitleChar_iff ['\\', '"']).mp h).2 ['\\'] [] rfl (by decide)

end Markdown

end HtmlMarkdown
