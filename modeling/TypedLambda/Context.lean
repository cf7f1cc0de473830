import TypedLambda.Scope
import TypedLambda.Term.Basic

/-!
# Contexts

A context is all that a command can see: the variables with their types and, once they have been
defined, their values; and the names that abbreviate types. Variables and type names live in two
scopes that do not touch each other.

## Main definitions

* `Binding`: the type of a variable, and its value if it has one
* `Context`: the scope of variables and the scope of type names
* `Context.define`, `Context.declare`, `Context.abbreviate`: one more entry
* `Context.typeOf?`, `Context.valueOf?`, `Context.abbreviated?`: what a name stands for
-/

namespace TypedLambda

/-- What is known of a variable. -/
structure Binding where
  /-- Its type. -/
  ty : Ty
  /-- Its value, unless the variable was only declared. -/
  value : Option Term := none
deriving Repr, DecidableEq

/-- The variables and type names that are in sight. -/
structure Context where
  /-- The variables. -/
  terms : Scope Binding := {}
  /-- The names that abbreviate types. -/
  types : Scope Ty := {}
deriving Repr, Inhabited

namespace Context

/-- The context with a variable of known type and value. -/
def define (ctx : Context) (x : String) (T : Ty) (value : Term) : Context :=
  { ctx with terms := ctx.terms.extend x ⟨T, some value⟩ }

/-- The context with a variable of which only the type is known. -/
def declare (ctx : Context) (x : String) (T : Ty) : Context :=
  { ctx with terms := ctx.terms.extend x ⟨T, none⟩ }

/-- The context with a name for a type. -/
def abbreviate (ctx : Context) (name : String) (T : Ty) : Context :=
  { ctx with types := ctx.types.extend name T }

/-- The type of a variable. -/
def typeOf? (ctx : Context) (x : String) : Option Ty :=
  (ctx.terms.get? x).map Binding.ty

/-- The value of a variable, if it is bound and has one. -/
def valueOf? (ctx : Context) (x : String) : Option Term :=
  (ctx.terms.get? x).bind Binding.value

/-- The type for which a name stands. -/
def abbreviated? (ctx : Context) (name : String) : Option Ty :=
  ctx.types.get? name

@[simp] theorem types_define (ctx : Context) (x : String) (T : Ty) (v : Term) :
    (ctx.define x T v).types = ctx.types := rfl

@[simp] theorem types_declare (ctx : Context) (x : String) (T : Ty) :
    (ctx.declare x T).types = ctx.types := rfl

@[simp] theorem terms_abbreviate (ctx : Context) (name : String) (T : Ty) :
    (ctx.abbreviate name T).terms = ctx.terms := rfl

@[simp] theorem typeOf?_declare_self (ctx : Context) (x : String) (T : Ty) :
    (ctx.declare x T).typeOf? x = some T := by
  simp [typeOf?, declare]

theorem typeOf?_declare_of_ne (ctx : Context) {x y : String} (h : y ≠ x) (T : Ty) :
    (ctx.declare x T).typeOf? y = ctx.typeOf? y := by
  simp [typeOf?, declare, Scope.get?_extend_of_ne _ h]

end Context

end TypedLambda
