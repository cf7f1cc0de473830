/-!
# Typing errors

The reasons for which a term has no type, or a type mentions an unknown name.

## Main definitions

* `TypeError`: the reasons
* `TypeError.message`: the reason in words
* `TypeError.require`: a condition whose failure is an error

## Main results

* `TypeError.require_eq_ok_iff`: a requirement is met exactly when its condition holds
-/

namespace TypedLambda

/-- Why a term has no type. -/
inductive TypeError where
  /-- The guard of a conditional is not a truth value. -/
  | guardNotBool
  /-- The two arms of a conditional have different types. -/
  | armsDiffer
  /-- The argument of a number operator is not a number. -/
  | notNumber (operator : String)
  /-- A variable has no binding. -/
  | unboundVariable (name : String)
  /-- A function is applied to an argument of another type than its domain. -/
  | argumentMismatch
  /-- A term that is applied, or of which the fixed point is taken, is not a function. -/
  | notFunction
  /-- The fixed point is taken of a function whose codomain differs from its domain. -/
  | fixMismatch
  /-- Only the first argument of a concatenation is not a string. -/
  | firstNotString
  /-- Only the second argument of a concatenation is not a string. -/
  | secondNotString
  /-- Neither argument of a concatenation is a string. -/
  | neitherString
  /-- A term of which a component is taken is not a pair. -/
  | notPair
  /-- A record has two fields of one label. -/
  | repeatedLabel (label : String)
  /-- A record has no field of that label. -/
  | missingLabel (label : String)
  /-- A term of which a field is taken is not a record. -/
  | notRecord
  /-- The head of a list has another type than its elements. -/
  | headMismatch
  /-- A list is expected. -/
  | notList
  /-- A type name stands for nothing. -/
  | unboundType (name : String)
deriving Repr, DecidableEq

namespace TypeError

/-- The reason in words. -/
def message : TypeError → String
  | guardNotBool => "guard of conditional not a boolean"
  | armsDiffer => "arms of conditional have different types"
  | notNumber operator => "argument of " ++ operator ++ " is not a number"
  | unboundVariable name => "no binding type for variable " ++ name
  | argumentMismatch => "parameter type mismatch"
  | notFunction => "arrow type expected"
  | fixMismatch => "result of body not compatible with domain"
  | firstNotString => "first argument is not a string"
  | secondNotString => "second argument is not a string"
  | neitherString => "none of the arguments are strings"
  | notPair => "pair type expected"
  | repeatedLabel label => "repeated label " ++ label
  | missingLabel label => "label " ++ label ++ " not found"
  | notRecord => "record type expected"
  | headMismatch => "head of cons does not match list element type"
  | notList => "list type expected"
  | unboundType name => "no binding for type " ++ name

/-- Succeeds when the condition holds, and fails with the given error otherwise. -/
def require (p : Prop) [Decidable p] (e : TypeError) : Except TypeError Unit :=
  if p then pure () else throw e

/-- A requirement is met exactly when its condition holds. -/
@[simp] theorem require_eq_ok_iff {p : Prop} [Decidable p] {e : TypeError} {u : Unit} :
    require p e = .ok u ↔ p := by
  by_cases h : p <;> simp [require, h, pure, Except.pure, throw, throwThe, MonadExceptOf.throw]

end TypeError

end TypedLambda
