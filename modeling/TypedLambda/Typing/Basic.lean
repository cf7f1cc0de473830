import TypedLambda.Typing.Resolve

/-!
# Type inference

The type of a term in a context, or the first reason why it has none. Annotations are resolved
where they are met, binders extend the context, and types are compared as trees: the fields of two
record types must agree in order, too.

## Main definitions

* `Term.typeOf ctx t`: the type of `t`, or a typing error
-/

namespace TypedLambda

namespace Ty

/-- A number type, as an operator on numbers expects it. -/
def expectNat (operator : String) (T : Ty) : Except TypeError Unit :=
  TypeError.require (T = nat) (.notNumber operator)

/-- The domain and codomain of a function type. -/
def expectArrow : Ty → Except TypeError (Ty × Ty)
  | arrow A B => pure (A, B)
  | _ => throw .notFunction

/-- The two component types of a product. -/
def expectProd : Ty → Except TypeError (Ty × Ty)
  | prod A B => pure (A, B)
  | _ => throw .notPair

/-- The fields of a record type. -/
def expectRecord : Ty → Except TypeError (List (String × Ty))
  | record fields => pure fields
  | _ => throw .notRecord

/-- The element type of a list type. -/
def expectList : Ty → Except TypeError Ty
  | list A => pure A
  | _ => throw .notList

/-- Two string types, as concatenation expects them. -/
def expectStrings (A B : Ty) : Except TypeError Unit :=
  if A = string then
    if B = string then pure () else throw .secondNotString
  else
    if B = string then throw .firstNotString else throw .neitherString

end Ty

namespace Term

mutual

/-- The type of a term in a context. -/
def typeOf (ctx : Context) : Term → Except TypeError Ty
  | bool _ => pure .bool
  | zero => pure .nat
  | string _ => pure .string
  | succ t => do
    (← t.typeOf ctx).expectNat "succ"
    return .nat
  | pred t => do
    (← t.typeOf ctx).expectNat "pred"
    return .nat
  | isZero t => do
    (← t.typeOf ctx).expectNat "iszero"
    return .bool
  | ite t u v => do
    TypeError.require ((← t.typeOf ctx) = .bool) .guardNotBool
    let A ← u.typeOf ctx
    TypeError.require ((← v.typeOf ctx) = A) .armsDiffer
    return A
  | var x =>
    match ctx.typeOf? x with
    | some T => pure T
    | none => throw (.unboundVariable x)
  | lam x T t => do
    let A ← T.resolve ctx
    return .arrow A (← t.typeOf (ctx.declare x A))
  | app t u => do
    let F ← t.typeOf ctx
    let C ← u.typeOf ctx
    let (A, B) ← F.expectArrow
    TypeError.require (C = A) .argumentMismatch
    return B
  | letIn x t u => do
    let A ← t.typeOf ctx
    u.typeOf (ctx.declare x A)
  | fix t => do
    let (A, B) ← (← t.typeOf ctx).expectArrow
    TypeError.require (A = B) .fixMismatch
    return B
  | concat t u => do
    let A ← t.typeOf ctx
    let B ← u.typeOf ctx
    Ty.expectStrings A B
    return .string
  | pair t u => return .prod (← t.typeOf ctx) (← u.typeOf ctx)
  | fst t => return (← (← t.typeOf ctx).expectProd).1
  | snd t => return (← (← t.typeOf ctx).expectProd).2
  | record fields => return .record (← typeOfFields ctx [] fields)
  | proj t label => do
    match (← (← t.typeOf ctx).expectRecord).lookup label with
    | some T => return T
    | none => throw (.missingLabel label)
  | nil T => return .list (← T.resolve ctx)
  | cons t u => do
    let A ← (← u.typeOf ctx).expectList
    TypeError.require ((← t.typeOf ctx) = A) .headMismatch
    return .list A
  | isNil t => do
    let _ ← (← t.typeOf ctx).expectList
    return .bool
  | head t => do (← t.typeOf ctx).expectList
  | tail t => return .list (← (← t.typeOf ctx).expectList)

/-- The types of fields whose labels differ from each other and from those in `seen`. -/
def typeOfFields (ctx : Context) (seen : List String) :
    List (String × Term) → Except TypeError (List (String × Ty))
  | [] => pure []
  | (label, t) :: fields => do
    TypeError.require (label ∉ seen) (.repeatedLabel label)
    let A ← t.typeOf ctx
    return (label, A) :: (← typeOfFields ctx (label :: seen) fields)

end

end Term

end TypedLambda
