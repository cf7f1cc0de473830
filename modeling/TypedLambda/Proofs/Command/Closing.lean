import TypedLambda.Command.Run
import TypedLambda.Proofs.Typing.Agreement

/-!
# Closing a term

Before a term is reduced, the values of its free variables are put in, one variable after the other.
Where all values are closed no binder is renamed, a value brings in no variables of its own, and the
variables that stay are those without a value. Where the values have the types of their variables,
the term keeps its type.

## Main definitions

* `Context.putValue`: one variable replaced by its value, if it has one

## Main results

* `Context.close_congr`: closing depends on the values of the free variables
* `Context.mem_freeVars_close`: the variables that stay
* `Context.typeOf_close`, `Context.isPlain_close`: what closing leaves as it was
-/

namespace TypedLambda

namespace Context

variable {ctx : Context} {t : Term} {x y : String}

/-- The term with the value of one variable put in, if it has a value. -/
def putValue (ctx : Context) (t : Term) (x : String) : Term :=
  match ctx.valueOf? x with
  | some v => t.subst x v
  | none => t

theorem close_eq_foldl (ctx : Context) (t : Term) :
    ctx.close t = t.freeVars.eraseDups.foldl ctx.putValue t := rfl

theorem putValue_of_valueOf? {v : Term} (h : ctx.valueOf? x = some v) :
    ctx.putValue t x = t.subst x v := by
  rw [putValue, h]

theorem putValue_of_valueOf?_eq_none (h : ctx.valueOf? x = none) : ctx.putValue t x = t := by
  rw [putValue, h]

theorem foldl_putValue_congr {ctx' : Context} {xs : List String}
    (h : ∀ x ∈ xs, ctx.valueOf? x = ctx'.valueOf? x) :
    xs.foldl ctx.putValue t = xs.foldl ctx'.putValue t := by
  induction xs generalizing t with
  | nil => rfl
  | cons x xs ih =>
    obtain ⟨hx, hxs⟩ := List.forall_mem_cons.mp h
    rw [List.foldl_cons, List.foldl_cons, putValue, hx, ← putValue, ih hxs]

/-- Closing depends on the values of the free variables only. -/
theorem close_congr {ctx' : Context}
    (h : ∀ x ∈ t.freeVars, ctx.valueOf? x = ctx'.valueOf? x) : ctx.close t = ctx'.close t :=
  foldl_putValue_congr fun x hx => h x (List.mem_eraseDups.mp hx)

/-! ## Variables -/

section Closed

variable (hclosed : ∀ x v, ctx.valueOf? x = some v → v.IsClosed)
include hclosed

theorem mem_freeVars_putValue :
    y ∈ (ctx.putValue t x).freeVars ↔ y ∈ t.freeVars ∧ (y = x → ctx.valueOf? y = none) := by
  cases hx : ctx.valueOf? x with
  | none =>
    rw [putValue_of_valueOf?_eq_none hx]
    exact ⟨fun hy => ⟨hy, fun hyx => hyx ▸ hx⟩, And.left⟩
  | some v =>
    rw [putValue_of_valueOf? hx, Term.freeVars_subst_of_isClosed (hclosed x v hx), List.mem_filter]
    refine and_congr_right fun _ => ?_
    by_cases hyx : y = x
    · simp [hyx, hx]
    · simp [hyx]

theorem mem_freeVars_foldl_putValue {xs : List String} :
    y ∈ (xs.foldl ctx.putValue t).freeVars ↔
      y ∈ t.freeVars ∧ (y ∈ xs → ctx.valueOf? y = none) := by
  induction xs generalizing t with
  | nil => simp
  | cons x xs ih =>
    rw [List.foldl_cons, ih, mem_freeVars_putValue hclosed, List.mem_cons, or_imp, and_assoc]

/-- The variables that stay free are those without a value. -/
theorem mem_freeVars_close :
    y ∈ (ctx.close t).freeVars ↔ y ∈ t.freeVars ∧ ctx.valueOf? y = none := by
  rw [close_eq_foldl, mem_freeVars_foldl_putValue hclosed, List.mem_eraseDups]
  exact and_congr_right fun hy => ⟨fun h => h hy, fun h _ => h⟩

end Closed

/-! ## Types -/

/-- What is kept when one variable is replaced by its value is kept by closing. -/
theorem close_induct {P : Term → Prop}
    (keeps : ∀ t x v, ctx.valueOf? x = some v → P t → P (t.subst x v)) (ht : P t) :
    P (ctx.close t) := by
  have one {t : Term} (x : String) (ht : P t) : P (ctx.putValue t x) := by
    cases hx : ctx.valueOf? x with
    | none => rwa [putValue_of_valueOf?_eq_none hx]
    | some v =>
      rw [putValue_of_valueOf? hx]
      exact keeps t x v hx ht
  rw [close_eq_foldl]
  generalize t.freeVars.eraseDups = xs
  induction xs generalizing t with
  | nil => exact ht
  | cons x xs ih => exact ih (one x ht)

/-- Closing keeps the type of a term, or the error if it has none. -/
theorem typeOf_close (hvalues : ∀ x v, ctx.valueOf? x = some v →
      v.IsClosed ∧ ∃ A, ctx.typeOf? x = some A ∧ v.typeOf ctx = .ok A) :
    (ctx.close t).typeOf ctx = t.typeOf ctx := by
  refine close_induct (P := fun u => u.typeOf ctx = t.typeOf ctx) (fun u x v hx hu => ?_) rfl
  obtain ⟨hv, A, hA, hvA⟩ := hvalues x v hx
  rw [Term.typeOf_subst hv hA hvA, hu]

/-- Closing by values without names of types brings in no such names. -/
theorem isPlain_close (ht : t.IsPlain) (hplain : ∀ x v, ctx.valueOf? x = some v → v.IsPlain) :
    (ctx.close t).IsPlain := by
  refine close_induct (fun u x v hx hu => ?_) ht
  rw [Term.IsPlain, List.eq_nil_iff_forall_not_mem]
  intro name hn
  rcases Term.mem_typeNames_of_mem_subst hn with hn | hn
  · exact List.not_mem_nil (hu ▸ hn)
  · exact List.not_mem_nil (hplain x v hx ▸ hn)

end Context

end TypedLambda
