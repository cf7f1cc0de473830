import TypedLambda.Proofs.Substitution.FreeVars

/-!
# Naive substitution

Substitution that never renames a binder: it goes through the term, stops at binders of the replaced
variable, and lets the others capture what they will. A closed replacement has nothing to capture,
and for such replacements it is substitution.

## Main definitions

* `Term.replace`: naive substitution

## Main results

* `Term.subst_eq_replace`: for closed replacements substitution is naive
-/

namespace TypedLambda

namespace Term

mutual

/-- The term with `s` put for `x`, as far as no binder of `x` stands before it. No binder is
renamed. -/
def replace : (t : Term) → (x : String) → (s : Term) → Term
  | bool b, _, _ => bool b
  | zero, _, _ => zero
  | string r, _, _ => string r
  | nil T, _, _ => nil T
  | var y, x, s => if y = x then s else var y
  | lam y T t, x, s => if y = x then lam y T t else lam y T (t.replace x s)
  | letIn y t u, x, s => letIn y (t.replace x s) (if y = x then u else u.replace x s)
  | ite t u v, x, s => ite (t.replace x s) (u.replace x s) (v.replace x s)
  | succ t, x, s => succ (t.replace x s)
  | pred t, x, s => pred (t.replace x s)
  | isZero t, x, s => isZero (t.replace x s)
  | app t u, x, s => app (t.replace x s) (u.replace x s)
  | fix t, x, s => fix (t.replace x s)
  | concat t u, x, s => concat (t.replace x s) (u.replace x s)
  | pair t u, x, s => pair (t.replace x s) (u.replace x s)
  | fst t, x, s => fst (t.replace x s)
  | snd t, x, s => snd (t.replace x s)
  | record fields, x, s => record (replaceFields fields x s)
  | proj t label, x, s => proj (t.replace x s) label
  | cons t u, x, s => cons (t.replace x s) (u.replace x s)
  | isNil t, x, s => isNil (t.replace x s)
  | head t, x, s => head (t.replace x s)
  | tail t, x, s => tail (t.replace x s)

/-- The fields with `s` put for `x` in each of them. -/
def replaceFields : (fields : List (String × Term)) → (x : String) → (s : Term) →
    List (String × Term)
  | [], _, _ => []
  | (label, t) :: fields, x, s => (label, t.replace x s) :: replaceFields fields x s

end

theorem replaceFields_eq_map (fields : List (String × Term)) (x : String) (s : Term) :
    replaceFields fields x s = fields.map fun f => (f.1, f.2.replace x s) := by
  induction fields with
  | nil => rfl
  | cons f fields ih => rw [replaceFields, ih, List.map_cons]

/-- **Closed replacements**: substitution of a closed term is naive substitution. -/
theorem subst_eq_replace {s : Term} (hs : s.IsClosed) (t : Term) (x : String) :
    t.subst x s = t.replace x s := by
  induction t with
  | lam y T t ih => rw [subst_lam_of_isClosed hs, replace, ih]
  | letIn y t u iht ihu => rw [subst_letIn_of_isClosed hs, replace, iht, ihu]
  | record fields ih =>
    rw [subst_record, replace, replaceFields_eq_map]
    exact congrArg record (List.map_congr_left fun f hf => by rw [ih f hf])
  | ite t u v iht ihu ihv => rw [subst_ite, replace, iht, ihu, ihv]
  | app t u iht ihu | concat t u iht ihu | pair t u iht ihu | cons t u iht ihu =>
    simp only [subst_app, subst_concat, subst_pair, subst_cons, replace, iht, ihu]
  | succ t ih | pred t ih | isZero t ih | fix t ih | fst t ih | snd t ih | proj t label ih
  | isNil t ih | head t ih | tail t ih =>
    simp only [subst_succ, subst_pred, subst_isZero, subst_fix, subst_fst, subst_snd, subst_proj,
      subst_isNil, subst_head, subst_tail, replace, ih]
  | _ => rfl

/-- A replacement that is not closed may be captured, and then the two differ. -/
example : (lam "y" .nat (var "x")).replace "x" (var "y") = lam "y" .nat (var "y") ∧
    (lam "y" .nat (var "x")).subst "x" (var "y") = lam "y'" .nat (var "y") := by
  decide

end Term

end TypedLambda
