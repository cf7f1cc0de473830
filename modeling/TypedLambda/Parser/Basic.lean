import TypedLambda.Parser.Cursor
import TypedLambda.Text.Letter

/-!
# Parsers

A parser reads from a cursor and gives a result with the place behind what it has read, or a
failure with its place. Choice is ordered: the first alternative that succeeds counts, and no later
one is tried. When all fail, the failure that lies furthest ahead is reported.

Numbers have at most so many digits, zeros in front included; how many is a matter of the machine
that reads them, and there may be no limit. A number that is too long is no failure: no alternative
is tried where one stands, and reading ends altogether.

Repetition ends at the first failure, which is forgotten. Recursive rules are unrolled once for each
character that is left: a rule that reads something before it calls itself needs no more than that.

## Main definitions

* `DigitLimit`: how many digits a number may have
* `Failure`, `Overlong`, `Halt`: why a parser gives no result
* `Parser α`: parsers with results in `α`
* `Parser.recover`: what is done about a failure
* `Parser.choice`: ordered choice
* `Parser.afterGap`: a part in front of which a gap is skipped
* `Parser.optional`, `Parser.many`, `Parser.sepBy`: absent and repeated parts
* `Parser.fix`: recursive rules

## Main results

* `Parser.bind_eq_ok_iff`, `Parser.map_eq_ok_iff`: a sequence succeeds when its parts do, one after
  the other
* `Parser.choice_eq_ok_iff`, `Parser.ok_or_ok_of_firstOf`: a choice succeeds with an alternative
* `Parser.optional_cases`: a part that may be absent
-/

namespace TypedLambda

/-- The place where the next token starts: behind a run of spaces, tabs and line ends. -/
def Cursor.skipGap (c : Cursor) : Cursor :=
  c.skip Text.isGap

/-- A failure to read a text. -/
structure Failure where
  /-- The place of the failure. -/
  pos : Nat
  /-- What was expected there. -/
  reason : String
deriving Repr, DecidableEq

/-- The failure that lies further ahead, and the first of two at the same place. -/
def Failure.furthest (e f : Failure) : Failure :=
  if e.pos < f.pos then f else e

/-- How many digits a number may have. -/
class DigitLimit where
  /-- The greatest number of digits, if there is one. -/
  maxDigits : Option Nat

namespace DigitLimit

/-- The limit that holds unless another one is set. -/
instance (priority := low) usual : DigitLimit where
  maxDigits := some 4300

/-- No limit. -/
@[reducible] def unlimited : DigitLimit where
  maxDigits := none

/-- Whether a number may have so many digits. -/
def admits [DigitLimit] (digits : Nat) : Bool :=
  maxDigits.all (digits ≤ ·)

end DigitLimit

/-- A number that has more digits than it may. -/
structure Overlong where
  /-- How many it has. -/
  digits : Nat
deriving Repr, DecidableEq

/-- Why there is no result. -/
inductive Halt where
  /-- The text is not what was expected. Something else may be tried. -/
  | failure (e : Failure)
  /-- A number is too long. Nothing else is tried. -/
  | overlong (e : Overlong)
deriving Repr, DecidableEq

/-- Reads a result from a cursor. -/
def Parser (α : Type) : Type :=
  Cursor → Except Halt (α × Cursor)

namespace Parser

variable {α β : Type}

/-! ## Sequences -/

/-- Reads nothing. -/
protected def pure (a : α) : Parser α :=
  fun c => .ok (a, c)

/-- Reads one part, and then another one that may depend on it. -/
protected def bind (p : Parser α) (f : α → Parser β) : Parser β :=
  fun c =>
    match p c with
    | .ok (a, c') => f a c'
    | .error e => .error e

instance : Monad Parser where
  pure := Parser.pure
  bind := Parser.bind

@[simp] theorem pure_apply (a : α) (c : Cursor) : (pure a : Parser α) c = .ok (a, c) := rfl

theorem bind_apply (p : Parser α) (f : α → Parser β) (c : Cursor) :
    (p >>= f) c =
      match p c with
      | .ok (a, c') => f a c'
      | .error e => .error e := rfl

/-- A sequence succeeds when its parts do, one after the other. -/
theorem bind_eq_ok_iff {p : Parser α} {f : α → Parser β} {c : Cursor} {r : β × Cursor} :
    (p >>= f) c = .ok r ↔ ∃ a c', p c = .ok (a, c') ∧ f a c' = .ok r := by
  rw [bind_apply]
  split <;> simp_all [and_assoc]

theorem map_eq_ok_iff {p : Parser α} {f : α → β} {c : Cursor} {r : β × Cursor} :
    (f <$> p) c = .ok r ↔ ∃ a, p c = .ok (a, r.2) ∧ f a = r.1 := by
  constructor
  · intro h
    obtain ⟨a, c', ha, h⟩ := bind_eq_ok_iff.mp h
    obtain rfl := Except.ok.inj h
    exact ⟨a, ha, rfl⟩
  · rintro ⟨a, ha, hr⟩
    obtain ⟨_, c'⟩ := r
    obtain rfl := hr
    exact bind_eq_ok_iff.mpr ⟨a, c', ha, rfl⟩

/-! ## Failures -/

/-- The outcome as it is, or what comes of its failure. -/
def recover {ρ : Type} (o : Except Halt ρ) (f : Failure → Except Halt ρ) : Except Halt ρ :=
  match o with
  | .ok r => .ok r
  | .error (.failure e) => f e
  | .error (.overlong e) => .error (.overlong e)

section Recover

variable {ρ : Type} {f : Failure → Except Halt ρ}

@[simp] theorem recover_ok (r : ρ) : recover (.ok r) f = .ok r := rfl

@[simp] theorem recover_failure (e : Failure) : recover (.error (.failure e)) f = f e := rfl

@[simp] theorem recover_overlong (e : Overlong) :
    recover (.error (.overlong e)) f = .error (.overlong e) := rfl

/-- A result is there already, or it comes of a failure. -/
theorem recover_eq_ok_iff {o : Except Halt ρ} {r : ρ} :
    recover o f = .ok r ↔ o = .ok r ∨ ∃ e, o = .error (.failure e) ∧ f e = .ok r := by
  rcases o with (e | e) | r' <;> simp

end Recover

/-! ## Choice -/

/-- The result of the first parser that succeeds, or the furthest failure. -/
def firstOf : List (Parser α) → Parser α
  | [] => fun _ => .error (.failure ⟨0, ""⟩)
  | p :: ps => fun c =>
    recover (p c) fun e => recover (firstOf ps c) fun f => .error (.failure (e.furthest f))

/-- Ordered choice. When no alternative gets past the place where the choice starts, the failure
names the whole choice. -/
def choice (reason : String) (ps : List (Parser α)) : Parser α :=
  fun c =>
    recover (firstOf ps c) fun e =>
      .error (.failure (if e.pos = c.pos then ⟨e.pos, reason⟩ else e))

/-- What a choice reads is read by the first alternative or as a choice of the others. -/
theorem ok_or_ok_of_firstOf {p : Parser α} {ps : List (Parser α)} {c : Cursor} {r : α × Cursor}
    (h : firstOf (p :: ps) c = .ok r) : p c = .ok r ∨ firstOf ps c = .ok r := by
  rcases recover_eq_ok_iff.mp h with h | ⟨e, -, h⟩
  · exact .inl h
  · rcases recover_eq_ok_iff.mp h with h | ⟨f, -, h⟩
    · exact .inr h
    · cases h

/-- Only failures depend on the name of a choice. -/
theorem choice_eq_ok_iff {reason : String} {ps : List (Parser α)} {c : Cursor} {r : α × Cursor} :
    choice reason ps c = .ok r ↔ firstOf ps c = .ok r := by
  simp [choice, recover_eq_ok_iff]

/-- Reads from the place where the next token starts. -/
def afterGap (p : Parser α) : Parser α :=
  fun c => p c.skipGap

/-! ## Absent and repeated parts -/

/-- Reads a part that may be absent; then `default` is the result. -/
def optional (default : α) (p : Parser α) : Parser α :=
  fun c => recover (p c) fun _ => .ok (default, c)

/-- A part that may be absent is read, or it fails and the default is the result. -/
theorem optional_cases {default : α} {p : Parser α} {c : Cursor} {r : α × Cursor}
    (h : optional default p c = .ok r) :
    p c = .ok r ∨ (∃ e, p c = .error (.failure e)) ∧ r = (default, c) := by
  rcases recover_eq_ok_iff.mp h with h | ⟨e, he, h⟩
  · exact .inl h
  · exact .inr ⟨⟨e, he⟩, (Except.ok.inj h).symm⟩

/-- Reads a part as often as it comes, but at most `bound` times. -/
def manyWithin (p : Parser α) : (bound : Nat) → Parser (List α)
  | 0 => pure []
  | bound + 1 => optional [] do
    let a ← p
    let as ← manyWithin p bound
    pure (a :: as)

/-- Reads a part as often as it comes. A part that reads at least one character does not come more
often than there are characters. -/
def many (p : Parser α) : Parser (List α) :=
  fun c => manyWithin p (c.rest.length + 1) c

/-- Reads one or more parts with a separator between them. -/
def sepBy (p : Parser α) (sep : Parser Unit) : Parser (α × List α) := do
  let a ← p
  let as ← many do
    sep
    p
  pure (a, as)

/-! ## Recursion -/

/-- The rule with its own uses unrolled to the given depth. -/
def unroll (rule : Parser α → Parser α) : (depth : Nat) → Parser α
  | 0 => fun c => .error (.failure ⟨c.pos, ""⟩)
  | depth + 1 => rule (unroll rule depth)

/-- The parser that a recursive rule describes. A rule must read at least one character before it
uses itself. -/
def fix (rule : Parser α → Parser α) : Parser α :=
  fun c => unroll rule (c.rest.length + 1) c

end Parser

end TypedLambda
