/-!
# Cursors

A place in a text: the characters that are still to be read, how many have been read, and the last
of them.

## Main definitions

* `Cursor`: a place in a text
* `Cursor.advance`, `Cursor.skip`: a place further on

## Main results

* `Cursor.advance_append`: reading a piece of text that lies ahead
* `Cursor.pos_add_length_advance`: moving on keeps the end of the text where it is
-/

namespace TypedLambda

/-- A place in a text. -/
structure Cursor where
  /-- The number of characters in front of this place. -/
  pos : Nat := 0
  /-- The character right in front of this place. -/
  prev : Option Char := none
  /-- The characters behind this place. -/
  rest : List Char
deriving Repr, DecidableEq

namespace Cursor

/-- The beginning of a text. -/
def start (text : List Char) : Cursor :=
  { rest := text }

/-- The place `n` characters further on, or the end of the text if it comes first. -/
def advance : (n : Nat) → Cursor → Cursor
  | 0, c => c
  | n + 1, c =>
    match c.rest with
    | [] => c
    | x :: rest => advance n ⟨c.pos + 1, some x, rest⟩

/-- The place behind the run of characters that satisfy `p`. -/
def skip (p : Char → Bool) (c : Cursor) : Cursor :=
  c.advance (c.rest.takeWhile p).length

@[simp] theorem advance_zero (c : Cursor) : c.advance 0 = c := rfl

theorem advance_append (cs rest : List Char) (pos : Nat) (prev : Option Char) :
    advance cs.length ⟨pos, prev, cs ++ rest⟩ =
      ⟨pos + cs.length, cs.getLast?.or prev, rest⟩ := by
  induction cs generalizing pos prev with
  | nil => simp
  | cons x cs ih =>
    rw [List.length_cons, List.cons_append, advance]
    simp only [ih, List.getLast?_cons, Option.some_or]
    refine Cursor.mk.injEq .. ▸ ⟨by omega, ?_, rfl⟩
    cases cs.getLast? <;> rfl

@[simp] theorem rest_advance (n : Nat) (c : Cursor) : (c.advance n).rest = c.rest.drop n := by
  induction n generalizing c with
  | zero => simp
  | succ n ih =>
    rw [advance]
    split <;> simp_all

@[simp] theorem rest_skip (p : Char → Bool) (c : Cursor) :
    (c.skip p).rest = c.rest.dropWhile p := by
  rw [skip, rest_advance]
  induction c.rest with
  | nil => rfl
  | cons x xs ih => by_cases h : p x <;> simp_all

/-- Moving on keeps the end of the text where it is. -/
@[simp] theorem pos_add_length_advance (n : Nat) (c : Cursor) :
    (c.advance n).pos + (c.advance n).rest.length = c.pos + c.rest.length := by
  induction n generalizing c with
  | zero => simp
  | succ n ih =>
    rw [advance]
    split
    · rfl
    · rename_i x rest h
      rw [ih, h]
      simp only [List.length_cons]
      omega

end Cursor

end TypedLambda
