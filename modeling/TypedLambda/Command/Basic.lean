import TypedLambda.Term.Basic

/-!
# Commands

What a statement asks for: to evaluate a term, to show a type, or to define a name for one of them.

## Main definitions

* `Command`: the commands
-/

namespace TypedLambda

/-- A command. -/
inductive Command where
  /-- Evaluate a term and show its type and its result. -/
  | evaluate (t : Term)
  /-- Show a type. -/
  | showType (T : Ty)
  /-- Evaluate a term and keep the result under a name. -/
  | define (x : String) (t : Term)
  /-- Keep a type under a name. -/
  | abbreviate (name : String) (T : Ty)
deriving Repr, DecidableEq

end TypedLambda
