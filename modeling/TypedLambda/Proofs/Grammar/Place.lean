import TypedLambda.Parser.Basic
import TypedLambda.Proofs.Text.Letter

/-!
# Places in a text

A keyword that touches the word in front of it is not read as a keyword, so it matters what stands
in front of a place. At a clear place no word runs up to a word that starts there. Lexemes other
than numbers end at clear places, since a word is read as far as it goes. A number need not: a
word may start right behind its digits. But then nothing but digits stands between this place and
one that is clear.

## Main definitions

* `Cursor.Behind`: the place behind the given front of a text
* `Cursor.IsClear`: a place up to which no word runs
* `Cursor.IsSettled`: a place that is clear, or would be without the digits in front of it

## Main results

* `Cursor.IsClear.skipGap`, `Cursor.IsSettled.skipGap`: gaps
* `Cursor.IsSettled.advance_digits`: digits
-/

namespace TypedLambda

namespace Cursor

variable {c : Cursor} {text front s : List Char}

/-! ## The front of a place -/

/-- The text consists of the front and of what lies ahead of the place. -/
structure Behind (text front : List Char) (c : Cursor) : Prop where
  /-- The place is in the text. -/
  text_eq : text = front ++ c.rest
  /-- The place knows the last character of the front. -/
  prev_eq : c.prev = front.getLast?

theorem behind_start (text : List Char) : Behind text [] (start text) :=
  ⟨rfl, rfl⟩

/-- What is read comes to the front. -/
theorem Behind.advance (h : c.Behind text front) (hs : s <+: c.rest) :
    (c.advance s.length).Behind text (front ++ s) := by
  obtain ⟨pos, prev, rest⟩ := c
  obtain ⟨after, rfl⟩ := hs
  obtain ⟨rfl, rfl⟩ := h
  rw [advance_append]
  exact ⟨(List.append_assoc front s after).symm, List.getLast?_append.symm⟩

/-- A gap is empty, or it ends with a character that belongs to no word. -/
theorem Behind.skipGap (h : c.Behind text front) :
    (c.skipGap.Behind text front ∧ c.skipGap.rest = c.rest) ∨
      ∃ gapped, c.skipGap.Behind text gapped ∧ gapped.getLast?.any Text.isNameChar = false := by
  have hgaps : ∀ x ∈ c.rest.takeWhile Text.isGap, Text.isGap x = true :=
    List.all_eq_true.mp List.all_takeWhile
  have hbehind : c.skipGap.Behind text (front ++ c.rest.takeWhile Text.isGap) :=
    h.advance (List.takeWhile_prefix Text.isGap)
  rcases List.eq_nil_or_concat (c.rest.takeWhile Text.isGap) with hnil | ⟨gap, x, hgap⟩
  · rw [hnil, List.append_nil] at hbehind
    refine .inl ⟨hbehind, ?_⟩
    exact (List.append_cancel_left (h.text_eq.symm.trans hbehind.text_eq)).symm
  · rw [hgap] at hgaps hbehind
    refine .inr ⟨_, hbehind, ?_⟩
    rw [List.concat_eq_append, ← List.append_assoc, List.getLast?_concat, Option.any_some,
      ← Bool.not_eq_true]
    intro hname
    have hx := hgaps x (by simp)
    rw [Text.isGap_of_isNameChar hname] at hx
    cases hx

/-! ## Clear places -/

/-- No word ends in front of the place, or none starts behind it. -/
def IsClear (text : List Char) (c : Cursor) : Prop :=
  ∃ front, c.Behind text front ∧
    (front.getLast?.any Text.isNameChar = false ∨ c.rest.head?.any Text.isNameChar = false)

theorem isClear_start (text : List Char) : IsClear text (start text) :=
  ⟨[], behind_start text, .inl rfl⟩

/-- The gap in front of the next lexeme makes no place less clear. -/
theorem IsClear.skipGap (h : c.IsClear text) : c.skipGap.IsClear text := by
  obtain ⟨front, hbehind, hclear⟩ := h
  rcases hbehind.skipGap with ⟨hsame, hrest⟩ | ⟨gapped, hgapped, hlast⟩
  · exact ⟨front, hsame, hrest ▸ hclear⟩
  · exact ⟨gapped, hgapped, .inl hlast⟩

/-- Behind a character that belongs to no word, every place is clear. -/
theorem Behind.isClear_advance (h : c.Behind text front) (hs : s <+: c.rest)
    (hlast : s.getLast?.any (!Text.isNameChar ·) = true) :
    (c.advance s.length).IsClear text := by
  refine ⟨front ++ s, h.advance hs, .inl ?_⟩
  cases hx : s.getLast? with
  | none =>
    rw [hx] at hlast
    cases hlast
  | some x =>
    rw [hx] at hlast
    rw [List.getLast?_append, hx]
    simpa using hlast

/-! ## Settled places -/

/-- Nothing but digits stands between the place and one in front of it that is clear. -/
def IsSettled (text : List Char) (c : Cursor) : Prop :=
  ∃ front digits, c.Behind text (front ++ digits) ∧ (∀ d ∈ digits, d.isDigit = true) ∧
    (front.getLast?.any Text.isNameChar = false ∨ c.rest.head?.any Text.isNameChar = false)

theorem IsClear.isSettled (h : c.IsClear text) : c.IsSettled text := by
  obtain ⟨front, hbehind, hclear⟩ := h
  exact ⟨front, [], (List.append_nil front).symm ▸ hbehind, List.forall_mem_nil _, hclear⟩

theorem IsSettled.exists_behind (h : c.IsSettled text) : ∃ front, c.Behind text front := by
  obtain ⟨front, digits, hbehind, -⟩ := h
  exact ⟨front ++ digits, hbehind⟩

theorem IsSettled.skipGap (h : c.IsSettled text) : c.skipGap.IsSettled text := by
  obtain ⟨front, digits, hbehind, hdigits, hclear⟩ := h
  rcases hbehind.skipGap with ⟨hsame, hrest⟩ | ⟨gapped, hgapped, hlast⟩
  · exact ⟨front, digits, hsame, hdigits, hrest ▸ hclear⟩
  · exact IsClear.isSettled ⟨gapped, hgapped, .inl hlast⟩

/-- Digits that are read leave a place settled. -/
theorem IsSettled.advance_digits (h : c.IsSettled text) (hs : s <+: c.rest) (hne : s ≠ [])
    (hdigits : ∀ d ∈ s, d.isDigit = true) : (c.advance s.length).IsSettled text := by
  obtain ⟨front, digits, hbehind, hfront, hclear⟩ := h
  have hnext : c.rest.head?.any Text.isNameChar = true := by
    obtain ⟨d, ds, rfl⟩ := List.exists_cons_of_ne_nil hne
    obtain ⟨rest, hrest⟩ := hs
    rw [← hrest]
    exact Text.isNameChar_of_isDigit (hdigits d List.mem_cons_self)
  refine ⟨front, digits ++ s, ?_, List.forall_mem_append.mpr ⟨hfront, hdigits⟩, .inl ?_⟩
  · rw [← List.append_assoc]
    exact hbehind.advance hs
  · exact hclear.resolve_right fun hnot => by rw [hnext] at hnot; cases hnot

end Cursor

end TypedLambda
