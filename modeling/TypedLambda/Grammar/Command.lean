import TypedLambda.Command.Basic
import TypedLambda.Grammar.Term

/-!
# The grammar of commands

A command is a definition, a term or a type, and must fill the text to its end.

## Main definitions

* `Grammar.whole`: parts that fill a text
* `Grammar.command`: commands

## Main results

* `Grammar.whole_eq_ok_iff`: when a part fills a text
-/

namespace TypedLambda

namespace Grammar

/-- Reads a part that fills the text to its end. -/
def whole {α : Type} (p : Parser α) : Parser α := do
  let a ← p
  endOfText
  pure a

/-- A part fills the text when the end of the text stands behind it. -/
theorem whole_eq_ok_iff {α : Type} {p : Parser α} {c : Cursor} {r : α × Cursor} :
    whole p c = .ok r ↔ ∃ c', p c = .ok (r.1, c') ∧ endOfText c' = .ok ((), r.2) := by
  constructor
  · intro h
    obtain ⟨a, c', ha, h⟩ := Parser.bind_eq_ok_iff.mp h
    obtain ⟨_, c'', hend, h⟩ := Parser.bind_eq_ok_iff.mp h
    obtain rfl := Except.ok.inj h
    exact ⟨c', ha, hend⟩
  · rintro ⟨c', ha, hend⟩
    exact Parser.bind_eq_ok_iff.mpr ⟨r.1, c', ha, Parser.bind_eq_ok_iff.mpr ⟨(), r.2, hend, rfl⟩⟩

/-- Reads the definition of a type name. -/
def abbreviation : Parser Command := do
  let X ← typeName
  mark "="
  let T ← type
  pure (.abbreviate X T)

variable [DigitLimit]

/-- Reads the definition of a variable. -/
def definition : Parser Command := do
  let x ← name
  mark "="
  let t ← term
  pure (.define x t)

/-- Reads a command. -/
def command : Parser Command :=
  Parser.choice (expected Description.command)
    [whole abbreviation,
     whole definition,
     whole (Command.evaluate <$> term),
     whole (Command.showType <$> type)]

end Grammar

end TypedLambda
