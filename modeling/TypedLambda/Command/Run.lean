import TypedLambda.Command.Basic
import TypedLambda.Reduction.Run
import TypedLambda.Term.Printer
import TypedLambda.Typing.Basic

/-!
# Running commands

A command is checked against a context and carried out. A term is run as follows: its annotations
are resolved, its type is inferred, the values of its free variables are put in, and the result is
reduced. What is shown is the type of the term and its normal form; a definition also extends the
context.

Reduction need not end, so it is given bounds.

## Main definitions

* `Bounds`: what a run may use
* `Context.close`: a term with values for its free variables
* `Command.run`: the line to show and the new context, or a fault
* `Command.trace`: the terms met on the way
-/

namespace TypedLambda

/-- What the running of a command may use. -/
structure Bounds where
  /-- The number of reduction steps. -/
  steps : Nat
  /-- The height of the terms and types that are worked on, if it is bounded. -/
  depth : Option Nat := none
deriving Repr, DecidableEq

/-- Whether a height is beyond the bounds. -/
def Bounds.exceededBy (b : Bounds) (depth : Nat) : Bool :=
  b.depth.any (· < depth)

/-- Whether a term is beyond the bounds. -/
def Bounds.refuses (b : Bounds) (t : Term) : Bool :=
  b.exceededBy t.depth

/-- Why a command cannot be carried out. -/
inductive Fault where
  /-- A term or a type is in error. -/
  | typing (e : TypeError)
  /-- A term or a type is too high a tree. -/
  | tooDeep
  /-- The steps are used up. -/
  | stopped
deriving Repr, DecidableEq

/-- What a command gives. -/
structure Answer where
  /-- The line to show. -/
  line : String
  /-- The context for the commands that follow. -/
  ctx : Context
deriving Repr

namespace Context

/-- The term with the values of its free variables put in, as far as they have one. -/
def close (ctx : Context) (t : Term) : Term :=
  t.freeVars.eraseDups.foldl
    (fun t x =>
      match ctx.valueOf? x with
      | some v => t.subst x v
      | none => t) t

/-- The type of a term, and the closed term with which its reduction starts. -/
def prepare (b : Bounds) (ctx : Context) (t : Term) : Except Fault (Ty × Term) :=
  if b.refuses t then .error .tooDeep
  else
    match t.resolveTypes ctx with
    | .error e => .error (.typing e)
    | .ok u =>
      match u.typeOf ctx with
      | .error e => .error (.typing e)
      | .ok T => .ok (T, ctx.close u)

/-- The type of a term and its normal form. -/
def evaluate (b : Bounds) (ctx : Context) (t : Term) : Except Fault (Ty × Term) :=
  match ctx.prepare b t with
  | .error e => .error e
  | .ok (T, u) =>
    match u.outcome b.refuses b.steps with
    | .finished v => .ok (T, v)
    | .stopped => .error .stopped
    | .refused => .error .tooDeep

/-- A type without names. -/
def resolve (b : Bounds) (ctx : Context) (T : Ty) : Except Fault Ty :=
  if b.exceededBy T.depth then .error .tooDeep
  else
    match T.resolve ctx with
    | .error e => .error (.typing e)
    | .ok A => .ok A

end Context

namespace Command

/-- Carries out a command. -/
def run (b : Bounds) (ctx : Context) : Command → Except Fault Answer
  | define x t =>
    match ctx.evaluate b t with
    | .error e => .error e
    | .ok (T, v) =>
      .ok ⟨"val " ++ x ++ " : " ++ T.render ++ " = " ++ v.render, ctx.define x T v⟩
  | abbreviate name T =>
    match ctx.resolve b T with
    | .error e => .error e
    | .ok A => .ok ⟨"type " ++ name ++ " = " ++ A.render, ctx.abbreviate name A⟩
  | evaluate t =>
    match ctx.evaluate b t with
    | .error e => .error e
    | .ok (T, v) => .ok ⟨"- : " ++ T.render ++ " = " ++ v.render, ctx⟩
  | showType T =>
    match ctx.resolve b T with
    | .error e => .error e
    | .ok A => .ok ⟨"- : type = " ++ A.render, ctx⟩

/-- The terms met while a command is carried out, without the first. -/
def trace (b : Bounds) (ctx : Context) : Command → List Term
  | define _ t | evaluate t =>
    match ctx.prepare b t with
    | .error _ => []
    | .ok (_, u) => u.trace b.refuses b.steps
  | abbreviate _ _ | showType _ => []

end Command

end TypedLambda
