import TypedLambda.Context
import TypedLambda.Typing.Error

/-!
# Type names

Names of types are replaced by the types for which they stand, in types and in the annotations of
terms. One pass is enough: what a context stores mentions no names.

## Main definitions

* `Ty.resolve`: a type without names
* `Term.resolveTypes`: a term whose annotations have no names
-/

namespace TypedLambda

namespace Ty

mutual

/-- The type with every name replaced by what it stands for. -/
def resolve (ctx : Context) : Ty → Except TypeError Ty
  | bool => pure bool
  | nat => pure nat
  | string => pure string
  | arrow A B => return arrow (← A.resolve ctx) (← B.resolve ctx)
  | prod A B => return prod (← A.resolve ctx) (← B.resolve ctx)
  | record fields => return record (← resolveFields ctx fields)
  | list A => return list (← A.resolve ctx)
  | named name =>
    match ctx.abbreviated? name with
    | some T => pure T
    | none => throw (.unboundType name)

/-- The fields with every name replaced by what it stands for. -/
def resolveFields (ctx : Context) :
    List (String × Ty) → Except TypeError (List (String × Ty))
  | [] => pure []
  | (label, A) :: fields => return (label, ← A.resolve ctx) :: (← resolveFields ctx fields)

end

end Ty

namespace Term

mutual

/-- The term with the names in its annotations replaced by what they stand for. -/
def resolveTypes (ctx : Context) : Term → Except TypeError Term
  | bool b => pure (bool b)
  | zero => pure zero
  | string s => pure (string s)
  | var x => pure (var x)
  | nil T => return nil (← T.resolve ctx)
  | lam x T t => return lam x (← T.resolve ctx) (← t.resolveTypes ctx)
  | succ t => return succ (← t.resolveTypes ctx)
  | pred t => return pred (← t.resolveTypes ctx)
  | isZero t => return isZero (← t.resolveTypes ctx)
  | ite t u v =>
    return ite (← t.resolveTypes ctx) (← u.resolveTypes ctx) (← v.resolveTypes ctx)
  | app t u => return app (← t.resolveTypes ctx) (← u.resolveTypes ctx)
  | letIn x t u => return letIn x (← t.resolveTypes ctx) (← u.resolveTypes ctx)
  | fix t => return fix (← t.resolveTypes ctx)
  | concat t u => return concat (← t.resolveTypes ctx) (← u.resolveTypes ctx)
  | pair t u => return pair (← t.resolveTypes ctx) (← u.resolveTypes ctx)
  | fst t => return fst (← t.resolveTypes ctx)
  | snd t => return snd (← t.resolveTypes ctx)
  | record fields => return record (← resolveTypesFields ctx fields)
  | proj t label => return proj (← t.resolveTypes ctx) label
  | cons t u => return cons (← t.resolveTypes ctx) (← u.resolveTypes ctx)
  | isNil t => return isNil (← t.resolveTypes ctx)
  | head t => return head (← t.resolveTypes ctx)
  | tail t => return tail (← t.resolveTypes ctx)

/-- The fields with the names in their annotations replaced by what they stand for. -/
def resolveTypesFields (ctx : Context) :
    List (String × Term) → Except TypeError (List (String × Term))
  | [] => pure []
  | (label, t) :: fields =>
    return (label, ← t.resolveTypes ctx) :: (← resolveTypesFields ctx fields)

end

end Term

end TypedLambda
