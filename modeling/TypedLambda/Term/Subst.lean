import TypedLambda.Term.FreeVars

/-!
# Substitution

`t.subst x s` puts the term `s` for the free occurrences of the variable `x` in `t`. A binder whose
name occurs free in `s` is renamed first, to the fresh variant of its name. Renaming a binder does
not change the size of its body, so the height of the recursion is bounded by the size of `t`.

## Main definitions

* `t.subst x s`: the term `t` with `s` for `x`
-/

namespace TypedLambda

namespace Term

/-- Substitution of `s` for `x`, at most `bound` levels deep. -/
def substWithin : (bound : Nat) → (x : String) → (s t : Term) → Term
  | 0, _, _, t => t
  | bound + 1, x, s, t =>
    match t with
    | bool b => bool b
    | zero => zero
    | string r => string r
    | nil T => nil T
    | var y => if y = x then s else var y
    | lam y T b =>
      if y = x then lam y T b
      else if y ∈ s.freeVars then
        let z := Name.fresh y (b.freeVars ++ s.freeVars)
        lam z T (substWithin bound x s (substWithin bound y (var z) b))
      else lam y T (substWithin bound x s b)
    | letIn y v b =>
      if y = x then letIn y (substWithin bound x s v) b
      else if y ∈ s.freeVars then
        let z := Name.fresh y (b.freeVars ++ s.freeVars)
        letIn z (substWithin bound x s v) (substWithin bound x s (substWithin bound y (var z) b))
      else letIn y (substWithin bound x s v) (substWithin bound x s b)
    | ite t u v => ite (substWithin bound x s t) (substWithin bound x s u) (substWithin bound x s v)
    | succ t => succ (substWithin bound x s t)
    | pred t => pred (substWithin bound x s t)
    | isZero t => isZero (substWithin bound x s t)
    | app t u => app (substWithin bound x s t) (substWithin bound x s u)
    | fix t => fix (substWithin bound x s t)
    | concat t u => concat (substWithin bound x s t) (substWithin bound x s u)
    | pair t u => pair (substWithin bound x s t) (substWithin bound x s u)
    | fst t => fst (substWithin bound x s t)
    | snd t => snd (substWithin bound x s t)
    | record fields => record (fields.map fun f => (f.1, substWithin bound x s f.2))
    | proj t label => proj (substWithin bound x s t) label
    | cons t u => cons (substWithin bound x s t) (substWithin bound x s u)
    | isNil t => isNil (substWithin bound x s t)
    | head t => head (substWithin bound x s t)
    | tail t => tail (substWithin bound x s t)

/-- The term `t` with `s` put for every free occurrence of `x`. A binder that would capture a
variable of `s` is renamed. -/
def subst (t : Term) (x : String) (s : Term) : Term :=
  substWithin t.size x s t

end Term

end TypedLambda
