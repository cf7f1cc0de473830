import TypedLambda.Proofs.Substitution.FreeVars

/-!
# Values for several variables

An environment is a list of closed terms for variables; they are put into a term one after the
other. What is closed has no place for a later value, so only the first value for a variable counts.
Under a binder the variable that it binds is taken out of the environment, and a value for it that
is put in later may as well be a further entry.

## Main definitions

* `Term.substAll`: a term with the values of an environment
* `Env.IsClosed`: the values of an environment are closed
* `Env.hide`: an environment without the values for one variable

## Main results

* `Term.substAll_var`, `Term.substAll_lam`, `Term.substAll_letIn`: the variables and the binders
* `Term.substAll_append`: a further value is put in last
* `Term.mem_freeVars_substAll`: the variables for which there is no value stay
-/

namespace TypedLambda

/-- Values for variables. -/
abbrev Env := List (String × Term)

/-- All values of the environment are closed. -/
def Env.IsClosed (env : Env) : Prop :=
  ∀ entry ∈ env, entry.2.IsClosed

/-- The environment without the values for one variable. -/
def Env.hide (env : Env) (x : String) : Env :=
  env.filter fun entry => entry.1 ≠ x

namespace Env

variable {env : Env} {x y : String} {v : Term}

theorem isClosed_nil : Env.IsClosed [] := fun _ h => absurd h List.not_mem_nil

theorem IsClosed.of_cons {entry : String × Term} (h : IsClosed (entry :: env)) :
    entry.2.IsClosed ∧ IsClosed env :=
  List.forall_mem_cons.mp h

theorem IsClosed.hide (h : env.IsClosed) (x : String) : (env.hide x).IsClosed :=
  fun entry hentry => h entry (List.mem_of_mem_filter hentry)

theorem IsClosed.append (h : env.IsClosed) (hv : v.IsClosed) : IsClosed (env ++ [(x, v)]) := by
  intro entry hentry
  rcases List.mem_append.mp hentry with hentry | hentry
  · exact h entry hentry
  · obtain rfl := List.mem_singleton.mp hentry
    exact hv

theorem lookup_hide_self : (env.hide x).lookup x = none := by
  rw [List.lookup_eq_none_iff]
  intro entry hentry
  have hne : entry.1 ≠ x := by simpa using (List.mem_filter.mp hentry).2
  exact bne_iff_ne.mpr (Ne.symm hne)

theorem lookup_hide_of_ne (h : y ≠ x) : (env.hide x).lookup y = env.lookup y := by
  induction env with
  | nil => rfl
  | cons entry env ih =>
    rw [hide] at ih ⊢
    by_cases hx : entry.1 = x
    · have hy : (y == entry.1) = false := beq_eq_false_iff_ne.mpr (hx ▸ h)
      rw [List.filter_cons_of_neg (by simp [hx]), ih, List.lookup_cons, hy]
    · rw [List.filter_cons_of_pos (by simp [hx]), List.lookup_cons, List.lookup_cons, ih]

/-- After the values of an environment without `x`, a value for `x` is found in its place. -/
theorem lookup_hide_append_self : (env.hide x ++ [(x, v)]).lookup x = some v := by
  rw [List.lookup_append, lookup_hide_self, Option.none_or, List.lookup_cons, beq_self_eq_true]

theorem lookup_hide_append_of_ne (h : y ≠ x) :
    (env.hide x ++ [(x, v)]).lookup y = env.lookup y := by
  rw [List.lookup_append, lookup_hide_of_ne h, List.lookup_cons, beq_eq_false_iff_ne.mpr h,
    List.lookup_nil, Option.or_none]

end Env

namespace Term

/-- The term with the values of the environment put in, one after the other. -/
def substAll (t : Term) (env : Env) : Term :=
  env.foldl (fun t entry => t.subst entry.1 entry.2) t

variable {env : Env} {x y : String}

/-! ## One equation for each form of term -/

section Equations

variable (env : Env) (t u v : Term)

@[simp] theorem substAll_empty : t.substAll [] = t := rfl

theorem substAll_entry (entry : String × Term) :
    t.substAll (entry :: env) = (t.subst entry.1 entry.2).substAll env := rfl

theorem substAll_append (x : String) (w : Term) :
    t.substAll (env ++ [(x, w)]) = (t.substAll env).subst x w :=
  List.foldl_concat ..

/-- A form of term in which nothing can be replaced stays as it is. -/
theorem substAll_of_subst_eq (h : ∀ x s, t.subst x s = t) : t.substAll env = t := by
  induction env with
  | nil => rfl
  | cons entry env ih => rw [substAll_entry, h, ih]

/-- Where each value goes into the part, the environment does. -/
theorem substAll_unary {f : Term → Term} (h : ∀ t x s, (f t).subst x s = f (t.subst x s)) :
    (f t).substAll env = f (t.substAll env) :=
  List.foldl_hom f fun t entry => h t entry.1 entry.2

/-- Where each value goes into both parts, the environment does. -/
theorem substAll_binary {f : Term → Term → Term}
    (h : ∀ t u x s, (f t u).subst x s = f (t.subst x s) (u.subst x s)) :
    (f t u).substAll env = f (t.substAll env) (u.substAll env) :=
  (List.foldl_hom₂ env f _ _ _ t u fun t u entry => (h t u entry.1 entry.2).symm)

@[simp] theorem substAll_bool (b : Bool) : (bool b).substAll env = bool b :=
  substAll_of_subst_eq env _ fun _ _ => rfl

@[simp] theorem substAll_zero : zero.substAll env = zero :=
  substAll_of_subst_eq env _ fun _ _ => rfl

@[simp] theorem substAll_string (s : String) : (string s).substAll env = string s :=
  substAll_of_subst_eq env _ fun _ _ => rfl

@[simp] theorem substAll_nil (T : Ty) : (nil T).substAll env = nil T :=
  substAll_of_subst_eq env _ fun _ _ => rfl

@[simp] theorem substAll_succ : (succ t).substAll env = succ (t.substAll env) :=
  substAll_unary env t fun _ _ _ => rfl

@[simp] theorem substAll_pred : (pred t).substAll env = pred (t.substAll env) :=
  substAll_unary env t fun _ _ _ => rfl

@[simp] theorem substAll_isZero : (isZero t).substAll env = isZero (t.substAll env) :=
  substAll_unary env t fun _ _ _ => rfl

@[simp] theorem substAll_fix : (fix t).substAll env = fix (t.substAll env) :=
  substAll_unary env t fun _ _ _ => rfl

@[simp] theorem substAll_fst : (fst t).substAll env = fst (t.substAll env) :=
  substAll_unary env t fun _ _ _ => rfl

@[simp] theorem substAll_snd : (snd t).substAll env = snd (t.substAll env) :=
  substAll_unary env t fun _ _ _ => rfl

@[simp] theorem substAll_proj (label : String) :
    (proj t label).substAll env = proj (t.substAll env) label :=
  substAll_unary (f := (proj · label)) env t fun _ _ _ => rfl

@[simp] theorem substAll_isNil : (isNil t).substAll env = isNil (t.substAll env) :=
  substAll_unary env t fun _ _ _ => rfl

@[simp] theorem substAll_head : (head t).substAll env = head (t.substAll env) :=
  substAll_unary env t fun _ _ _ => rfl

@[simp] theorem substAll_tail : (tail t).substAll env = tail (t.substAll env) :=
  substAll_unary env t fun _ _ _ => rfl

@[simp] theorem substAll_app :
    (app t u).substAll env = app (t.substAll env) (u.substAll env) :=
  substAll_binary env t u fun t u x s => subst_app x s t u

@[simp] theorem substAll_concat :
    (concat t u).substAll env = concat (t.substAll env) (u.substAll env) :=
  substAll_binary env t u fun t u x s => subst_concat x s t u

@[simp] theorem substAll_pair :
    (pair t u).substAll env = pair (t.substAll env) (u.substAll env) :=
  substAll_binary env t u fun t u x s => subst_pair x s t u

@[simp] theorem substAll_cons :
    (cons t u).substAll env = cons (t.substAll env) (u.substAll env) :=
  substAll_binary env t u fun t u x s => subst_cons x s t u

@[simp] theorem substAll_ite :
    (ite t u v).substAll env = ite (t.substAll env) (u.substAll env) (v.substAll env) := by
  induction env generalizing t u v with
  | nil => rfl
  | cons entry env ih => rw [substAll_entry, subst_ite, ih]; rfl

@[simp] theorem substAll_record (fields : List (String × Term)) :
    (record fields).substAll env = record (fields.map fun f => (f.1, f.2.substAll env)) := by
  induction env generalizing fields with
  | nil => simp
  | cons entry env ih =>
    rw [substAll_entry, subst_record, ih, List.map_map]
    rfl

end Equations

/-! ## Variables and binders -/

/-- A closed term has no place for values. -/
theorem substAll_of_isClosed {t : Term} (ht : t.IsClosed) (henv : env.IsClosed) :
    t.substAll env = t := by
  induction env with
  | nil => rfl
  | cons entry env ih =>
    obtain ⟨hv, henv⟩ := henv.of_cons
    rw [substAll_entry, subst_of_not_mem_freeVars hv (not_mem_freeVars_of_isClosed ht), ih henv]

/-- A variable is replaced by the first value that there is for it. -/
theorem substAll_var (henv : env.IsClosed) :
    (var x).substAll env = (env.lookup x).getD (var x) := by
  induction env with
  | nil => rfl
  | cons entry env ih =>
    obtain ⟨hv, henv⟩ := henv.of_cons
    rw [substAll_entry, subst_var, List.lookup_cons]
    by_cases hx : x = entry.1
    · rw [if_pos hx, hx, beq_self_eq_true]
      exact substAll_of_isClosed hv henv
    · rw [if_neg hx, beq_eq_false_iff_ne.mpr hx]
      exact ih henv

/-- The values go under the binder of a function, but for the bound variable. -/
theorem substAll_lam (henv : env.IsClosed) (T : Ty) (t : Term) :
    (lam x T t).substAll env = lam x T (t.substAll (env.hide x)) := by
  induction env generalizing t with
  | nil => rfl
  | cons entry env ih =>
    obtain ⟨hv, henv⟩ := henv.of_cons
    rw [substAll_entry, subst_lam_of_isClosed hv]
    by_cases hx : x = entry.1
    · rw [if_pos hx, ih henv, Env.hide, Env.hide, List.filter_cons_of_neg (by simp [hx])]
    · rw [if_neg hx, ih henv, Env.hide, Env.hide, List.filter_cons_of_pos (by simp [Ne.symm hx]),
        substAll_entry]

/-- The values go into the value of a definition, and under its binder but for the bound
variable. -/
theorem substAll_letIn (henv : env.IsClosed) (t u : Term) :
    (letIn x t u).substAll env = letIn x (t.substAll env) (u.substAll (env.hide x)) := by
  induction env generalizing t u with
  | nil => rfl
  | cons entry env ih =>
    obtain ⟨hv, henv⟩ := henv.of_cons
    rw [substAll_entry, subst_letIn_of_isClosed hv]
    by_cases hx : x = entry.1
    · rw [if_pos hx, ih henv, Env.hide, Env.hide, List.filter_cons_of_neg (by simp [hx]),
        substAll_entry]
    · rw [if_neg hx, ih henv, Env.hide, Env.hide, List.filter_cons_of_pos (by simp [Ne.symm hx]),
        substAll_entry, substAll_entry]

/-- The free variables that stay are those for which there is no value. -/
theorem mem_freeVars_substAll (henv : env.IsClosed) {t : Term} :
    y ∈ (t.substAll env).freeVars ↔ y ∈ t.freeVars ∧ env.lookup y = none := by
  induction env generalizing t with
  | nil => simp
  | cons entry env ih =>
    obtain ⟨hv, henv⟩ := henv.of_cons
    rw [substAll_entry, ih henv, freeVars_subst_of_isClosed hv, List.mem_filter, List.lookup_cons,
      and_assoc]
    by_cases hy : y = entry.1
    · simp [hy]
    · simp [hy, beq_eq_false_iff_ne.mpr hy]

end Term

end TypedLambda
