import Mathlib.Logic.Function.Basic
import TypedLambda.Proofs.Substitution.Environment

/-!
# Values for several variables at once

The values of an environment are put in one after the other, each into the term that the ones before
it gave. As long as they are closed, the result is the one of going through the term a single time,
putting for each free variable the value that is found for it, with all binders left as they are: no
value is put into another one, and none has a variable that a binder could capture.

## Main definitions

* `Term.replaceAll`: all variables that have a value replaced at once

## Main results

* `Term.replaceAll_congr`: the values of the free variables matter
* `Term.substAll_eq_replaceAll`: closed values may be put in one after the other
-/

namespace TypedLambda

namespace Term

open Function (update)

mutual

/-- The term with the values put for the free variables that have one, all at once. A binder takes
the value of its variable away; no binder is renamed. -/
def replaceAll : (t : Term) → (values : String → Option Term) → Term
  | bool b, _ => bool b
  | zero, _ => zero
  | string r, _ => string r
  | nil T, _ => nil T
  | var x, values => (values x).getD (var x)
  | lam x T t, values => lam x T (t.replaceAll (update values x none))
  | letIn x t u, values => letIn x (t.replaceAll values) (u.replaceAll (update values x none))
  | ite t u v, values => ite (t.replaceAll values) (u.replaceAll values) (v.replaceAll values)
  | succ t, values => succ (t.replaceAll values)
  | pred t, values => pred (t.replaceAll values)
  | isZero t, values => isZero (t.replaceAll values)
  | app t u, values => app (t.replaceAll values) (u.replaceAll values)
  | fix t, values => fix (t.replaceAll values)
  | concat t u, values => concat (t.replaceAll values) (u.replaceAll values)
  | pair t u, values => pair (t.replaceAll values) (u.replaceAll values)
  | fst t, values => fst (t.replaceAll values)
  | snd t, values => snd (t.replaceAll values)
  | record fields, values => record (replaceAllFields fields values)
  | proj t label, values => proj (t.replaceAll values) label
  | cons t u, values => cons (t.replaceAll values) (u.replaceAll values)
  | isNil t, values => isNil (t.replaceAll values)
  | head t, values => head (t.replaceAll values)
  | tail t, values => tail (t.replaceAll values)

/-- The fields with the values put for the free variables that have one. -/
def replaceAllFields : (fields : List (String × Term)) → (values : String → Option Term) →
    List (String × Term)
  | [], _ => []
  | (label, t) :: fields, values =>
    (label, t.replaceAll values) :: replaceAllFields fields values

end

theorem replaceAllFields_eq_map (fields : List (String × Term)) (values : String → Option Term) :
    replaceAllFields fields values = fields.map fun f => (f.1, f.2.replaceAll values) := by
  induction fields with
  | nil => rfl
  | cons f fields ih => rw [replaceAllFields, ih, List.map_cons]

variable {env : Env} {values values' : String → Option Term} {t : Term}

/-- Under a binder, values agree on the body if they agree on what is free outside. -/
theorem update_congr {x : String}
    (h : ∀ y ∈ t.freeVars.filter (· ≠ x), values y = values' y) :
    ∀ y ∈ t.freeVars, update values x none y = update values' x none y := by
  intro y hy
  by_cases hyx : y = x
  · rw [hyx, Function.update_self, Function.update_self]
  · rw [Function.update_of_ne hyx, Function.update_of_ne hyx]
    exact h y (List.mem_filter.mpr ⟨hy, decide_eq_true hyx⟩)

/-- What is put in depends on the values of the free variables only. -/
theorem replaceAll_congr
    (h : ∀ x ∈ t.freeVars, values x = values' x) : t.replaceAll values = t.replaceAll values' := by
  induction t generalizing values values' with
  | bool | zero | string | nil => rfl
  | var x => rw [replaceAll, replaceAll, h x (List.mem_singleton_self x)]
  | lam x T t ih =>
    rw [freeVars] at h
    rw [replaceAll, replaceAll, ih (update_congr h)]
  | letIn x t u iht ihu =>
    rw [freeVars, List.forall_mem_append] at h
    rw [replaceAll, replaceAll, iht h.1, ihu (update_congr h.2)]
  | record fields ih =>
    rw [freeVars_record, List.forall_mem_flatMap] at h
    rw [replaceAll, replaceAll, replaceAllFields_eq_map, replaceAllFields_eq_map]
    exact congrArg record (List.map_congr_left fun f hf => by rw [ih f hf (h f hf)])
  | ite t u v iht ihu ihv =>
    simp only [freeVars, List.forall_mem_append] at h
    rw [replaceAll, replaceAll, iht h.1.1, ihu h.1.2, ihv h.2]
  | app t u iht ihu | concat t u iht ihu | pair t u iht ihu | cons t u iht ihu =>
    rw [freeVars, List.forall_mem_append] at h
    rw [replaceAll, replaceAll, iht h.1, ihu h.2]
  | succ t ih | pred t ih | isZero t ih | fix t ih | fst t ih | snd t ih | proj t label ih
  | isNil t ih | head t ih | tail t ih => rw [replaceAll, replaceAll, ih h]

/-- A binder takes the value of its variable out of the environment. -/
theorem lookup_hide (env : Env) (x : String) :
    (List.lookup · (env.hide x)) = update (List.lookup · env) x none := by
  funext y
  by_cases hyx : y = x
  · rw [hyx, Env.lookup_hide_self, Function.update_self]
  · rw [Env.lookup_hide_of_ne hyx, Function.update_of_ne hyx]

/-- **Closed values** put in one after the other are put in at once. -/
theorem substAll_eq_replaceAll (henv : env.IsClosed) (t : Term) :
    t.substAll env = t.replaceAll fun x => env.lookup x := by
  induction t generalizing env with
  | bool | zero | string | nil => simp [replaceAll]
  | var x => rw [substAll_var henv, replaceAll]
  | lam x T t ih => rw [substAll_lam henv, replaceAll, ih (henv.hide x), lookup_hide]
  | letIn x t u iht ihu =>
    rw [substAll_letIn henv, replaceAll, iht henv, ihu (henv.hide x), lookup_hide]
  | record fields ih =>
    rw [substAll_record, replaceAll, replaceAllFields_eq_map]
    exact congrArg record (List.map_congr_left fun f hf => by rw [ih f hf henv])
  | ite t u v iht ihu ihv => rw [substAll_ite, replaceAll, iht henv, ihu henv, ihv henv]
  | app t u iht ihu | concat t u iht ihu | pair t u iht ihu | cons t u iht ihu =>
    simp only [substAll_app, substAll_concat, substAll_pair, substAll_cons, replaceAll, iht henv,
      ihu henv]
  | succ t ih | pred t ih | isZero t ih | fix t ih | fst t ih | snd t ih | proj t label ih
  | isNil t ih | head t ih | tail t ih =>
    simp only [substAll_succ, substAll_pred, substAll_isZero, substAll_fix, substAll_fst,
      substAll_snd, substAll_proj, substAll_isNil, substAll_head, substAll_tail, replaceAll,
      ih henv]

end Term

end TypedLambda
