import TypedLambda.Term.Basic

/-!
# Free variables and fresh names

The names that occur free in a term, and the choice of a name outside a given list: primes are put
behind a name until the result is new. Of `avoid.length + 1` primed variants at least one is not in
`avoid`, so looking at `avoid.length` of them is enough.

## Main definitions

* `Term.freeVars`: the free variables, one entry per occurrence
* `Term.IsClosed`: no variable occurs free
* `Name.fresh`: the name with the fewest primes behind it that is not to be avoided

## Main results

* `Term.freeVars_record`: the free variables of a record are those of its fields
-/

namespace TypedLambda

namespace Term

mutual

/-- The variables that occur free in a term, from left to right, with repetitions. -/
def freeVars : Term → List String
  | bool _ | zero | string _ | nil _ => []
  | var x => [x]
  | lam x _ t => t.freeVars.filter (· ≠ x)
  | letIn x t u => t.freeVars ++ u.freeVars.filter (· ≠ x)
  | ite t u v => t.freeVars ++ u.freeVars ++ v.freeVars
  | app t u | concat t u | pair t u | cons t u => t.freeVars ++ u.freeVars
  | record fields => freeVarsFields fields
  | succ t | pred t | isZero t | fix t | fst t | snd t | proj t _ | isNil t | head t | tail t =>
    t.freeVars

/-- The variables that occur free in the fields. -/
def freeVarsFields : List (String × Term) → List String
  | [] => []
  | (_, t) :: fields => t.freeVars ++ freeVarsFields fields

end

@[simp] theorem freeVarsFields_eq_flatMap (fields : List (String × Term)) :
    freeVarsFields fields = fields.flatMap fun f => f.2.freeVars := by
  induction fields with
  | nil => rfl
  | cons f fields ih => simp [freeVarsFields, ih]

/-- The free variables of a record are those of its fields. -/
theorem freeVars_record (fields : List (String × Term)) :
    (record fields).freeVars = fields.flatMap fun f => f.2.freeVars := by
  simp [freeVars]

/-- No variable occurs free in the term. -/
def IsClosed (t : Term) : Prop :=
  t.freeVars = []

instance (t : Term) : Decidable t.IsClosed :=
  inferInstanceAs (Decidable (t.freeVars = []))

end Term

namespace Name

/-- Puts primes behind `name` until it is not in `avoid`, but no more than `bound` of them. -/
def freshWithin : (bound : Nat) → (name : String) → (avoid : List String) → String
  | 0, name, _ => name
  | bound + 1, name, avoid =>
    if name ∈ avoid then freshWithin bound (name ++ "'") avoid else name

/-- The name itself, or with as few primes behind it as make it differ from all of `avoid`. -/
def fresh (name : String) (avoid : List String) : String :=
  freshWithin avoid.length name avoid

end Name

end TypedLambda
