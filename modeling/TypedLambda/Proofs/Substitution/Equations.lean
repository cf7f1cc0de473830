import TypedLambda.Term.Subst

/-!
# The equations of substitution

Substitution is computed with a bound on its recursion. Renaming a variable keeps the size of a
term, so the bound is never reached, and substitution satisfies one equation for each form of term
in which no bound occurs. The induction that goes with these equations lets the claim for a function
or a definition use the claim for every body of the same size, the renamed ones among them.

## Main definitions

* `Term.inductUpToSize`: induction over terms in which bodies under a binder vary within their size

## Main results

* `Term.size_subst_var`: renaming keeps the size
* `Term.subst_lam`, `Term.subst_letIn`, `Term.subst_record`: substitution under a binder and in the
  fields of a record
* `Term.exists_subst_binder`: functions and definitions are treated in the same way
-/

namespace TypedLambda

namespace Term

attribute [local simp] size substWithin

/-! ## The bound -/

theorem sizeFields_map {g : Term → Term} {fields : List (String × Term)}
    (h : ∀ f ∈ fields, (g f.2).size = f.2.size) :
    sizeFields (fields.map fun f => (f.1, g f.2)) = sizeFields fields := by
  induction fields with
  | nil => rfl
  | cons f fields ih =>
    rw [List.map_cons, sizeFields, sizeFields, h f (by simp), ih fun f' hf' => h f' (by simp [hf'])]

theorem size_substWithin_var (n : Nat) (x z : String) (t : Term) :
    (substWithin n x (var z) t).size = t.size := by
  induction n generalizing x z t with
  | zero => rfl
  | succ n ih =>
    cases t with
    | var y => by_cases h : y = x <;> simp [substWithin, size, h]
    | lam y T b =>
      rw [substWithin]
      split
      · rfl
      · split <;> simp [size, ih]
    | letIn y v b =>
      rw [substWithin]
      split
      · simp [size, ih]
      · split <;> simp [size, ih]
    | record fields => rw [substWithin, size, size, sizeFields_map fun f _ => ih x z f.2]
    | _ => simp [substWithin, size, ih]

/-- Levels of recursion beyond the size of the term make no difference. -/
theorem substWithin_eq_substWithin {n m : Nat} {t : Term} (x : String) (s : Term)
    (hn : t.size ≤ n) (hm : t.size ≤ m) : substWithin n x s t = substWithin m x s t := by
  -- on the first bound, for all terms within it: a renamed body is no part of the term
  induction n generalizing m x s t with
  | zero =>
    have := t.size_pos
    omega
  | succ n ih =>
    obtain _ | m := m
    · have := t.size_pos
      omega
    have hsub : ∀ (u : Term) (x : String) (s : Term), u.size + 1 ≤ t.size →
        substWithin n x s u = substWithin m x s u :=
      fun u x s hu => ih x s (by omega) (by omega)
    cases t with
    | lam y T b =>
      have hb : ∀ (x : String) (s : Term), substWithin n x s b = substWithin m x s b :=
        fun x s => hsub b x s (by simp [size])
      have hr (z : String) := hsub (substWithin m y (var z) b) x s
        (by simp [size, size_substWithin_var])
      simp only [substWithin, hb, hr]
    | letIn y v b =>
      have hv := hsub v x s (by simp only [size]; omega)
      have hb : ∀ (x : String) (s : Term), substWithin n x s b = substWithin m x s b :=
        fun x s => hsub b x s (by simp only [size]; omega)
      have hr (z : String) := hsub (substWithin m y (var z) b) x s
        (by simp only [size, size_substWithin_var]; omega)
      simp only [substWithin, hv, hb, hr]
    | record fields =>
      simp only [substWithin, record.injEq]
      refine List.map_congr_left fun f hf => ?_
      rw [hsub f.2 x s (size_lt_size_record hf)]
    | ite t u v =>
      simp only [substWithin]
      rw [hsub t x s (by simp only [size]; omega), hsub u x s (by simp only [size]; omega),
        hsub v x s (by simp only [size]; omega)]
    | app t u | concat t u | pair t u | cons t u =>
      simp only [substWithin]
      rw [hsub t x s (by simp only [size]; omega), hsub u x s (by simp only [size]; omega)]
    | succ t | pred t | isZero t | fix t | fst t | snd t | proj t _ | isNil t | head t | tail t =>
      simp only [substWithin]
      rw [hsub t x s (by simp [size])]
    | _ => rfl

theorem substWithin_eq_subst {n : Nat} {t : Term} (h : t.size ≤ n) (x : String) (s : Term) :
    substWithin n x s t = t.subst x s :=
  substWithin_eq_substWithin x s h (Nat.le_refl _)

/-- Renaming a variable keeps the size. -/
@[simp] theorem size_subst_var (x z : String) (t : Term) : (t.subst x (var z)).size = t.size :=
  size_substWithin_var t.size x z t

/-- Renaming first and substituting afterwards stays within the bound. -/
theorem substWithin_substWithin_var {n : Nat} {t : Term} (h : t.size ≤ n) (x y z : String)
    (s : Term) :
    substWithin n x s (substWithin n y (var z) t) = (t.subst y (var z)).subst x s := by
  rw [substWithin_eq_subst h, substWithin_eq_subst]
  rwa [size_subst_var]

/-! ## One equation for each form of term -/

section Equations

variable (x : String) (s t u v : Term)

@[simp] theorem subst_bool (b : Bool) : (bool b).subst x s = bool b := rfl

@[simp] theorem subst_zero : zero.subst x s = zero := rfl

@[simp] theorem subst_string (r : String) : (string r).subst x s = string r := rfl

@[simp] theorem subst_nil (T : Ty) : (nil T).subst x s = nil T := rfl

@[simp] theorem subst_var (y : String) : (var y).subst x s = if y = x then s else var y := rfl

@[simp] theorem subst_succ : (succ t).subst x s = succ (t.subst x s) := rfl

@[simp] theorem subst_pred : (pred t).subst x s = pred (t.subst x s) := rfl

@[simp] theorem subst_isZero : (isZero t).subst x s = isZero (t.subst x s) := rfl

@[simp] theorem subst_fix : (fix t).subst x s = fix (t.subst x s) := rfl

@[simp] theorem subst_fst : (fst t).subst x s = fst (t.subst x s) := rfl

@[simp] theorem subst_snd : (snd t).subst x s = snd (t.subst x s) := rfl

@[simp] theorem subst_proj (label : String) :
    (proj t label).subst x s = proj (t.subst x s) label := rfl

@[simp] theorem subst_isNil : (isNil t).subst x s = isNil (t.subst x s) := rfl

@[simp] theorem subst_head : (head t).subst x s = head (t.subst x s) := rfl

@[simp] theorem subst_tail : (tail t).subst x s = tail (t.subst x s) := rfl

@[simp] theorem subst_app : (app t u).subst x s = app (t.subst x s) (u.subst x s) := by
  rw [subst, size, substWithin, substWithin_eq_subst (by omega), substWithin_eq_subst (by omega)]

@[simp] theorem subst_concat :
    (concat t u).subst x s = concat (t.subst x s) (u.subst x s) := by
  rw [subst, size, substWithin, substWithin_eq_subst (by omega), substWithin_eq_subst (by omega)]

@[simp] theorem subst_pair : (pair t u).subst x s = pair (t.subst x s) (u.subst x s) := by
  rw [subst, size, substWithin, substWithin_eq_subst (by omega), substWithin_eq_subst (by omega)]

@[simp] theorem subst_cons : (cons t u).subst x s = cons (t.subst x s) (u.subst x s) := by
  rw [subst, size, substWithin, substWithin_eq_subst (by omega), substWithin_eq_subst (by omega)]

@[simp] theorem subst_ite :
    (ite t u v).subst x s = ite (t.subst x s) (u.subst x s) (v.subst x s) := by
  rw [subst, size, substWithin, substWithin_eq_subst (by omega), substWithin_eq_subst (by omega),
    substWithin_eq_subst (by omega)]

/-- Substitution in a record is substitution in its fields. -/
@[simp] theorem subst_record (fields : List (String × Term)) :
    (record fields).subst x s = record (fields.map fun f => (f.1, f.2.subst x s)) := by
  rw [subst, size, substWithin]
  refine congrArg record (List.map_congr_left fun f hf => ?_)
  rw [substWithin_eq_subst (size_le_sizeFields hf)]

/-- Substitution in a function: the binder hides the variable, or is renamed out of the way, or is
no concern. -/
theorem subst_lam (y : String) (T : Ty) :
    (lam y T t).subst x s =
      if y = x then lam y T t
      else if y ∈ s.freeVars then
        let z := Name.fresh y (t.freeVars ++ s.freeVars)
        lam z T ((t.subst y (var z)).subst x s)
      else lam y T (t.subst x s) := by
  have ht : t.size ≤ t.size := Nat.le_refl _
  rw [subst, size, substWithin, substWithin_eq_subst ht]
  simp only [substWithin_substWithin_var ht]

/-- Substitution in a definition: as in a function, and in the defined value. -/
theorem subst_letIn (y : String) :
    (letIn y t u).subst x s =
      if y = x then letIn y (t.subst x s) u
      else if y ∈ s.freeVars then
        let z := Name.fresh y (u.freeVars ++ s.freeVars)
        letIn z (t.subst x s) ((u.subst y (var z)).subst x s)
      else letIn y (t.subst x s) (u.subst x s) := by
  have ht : t.size ≤ t.size + u.size := Nat.le_add_right _ _
  have hu : u.size ≤ t.size + u.size := Nat.le_add_left _ _
  rw [subst, size, substWithin, substWithin_eq_subst ht, substWithin_eq_subst hu]
  simp only [substWithin_substWithin_var hu]

/-- The body of a definition is treated as that of a function. -/
theorem exists_subst_binder (y : String) (T : Ty) :
    ∃ z b, (lam y T u).subst x s = lam z T b ∧
      (letIn y t u).subst x s = letIn z (t.subst x s) b := by
  rw [subst_lam, subst_letIn]
  split
  · exact ⟨y, u, rfl, rfl⟩
  split
  · exact ⟨_, _, rfl, rfl⟩
  · exact ⟨y, u.subst x s, rfl, rfl⟩

end Equations

/-! ## Induction -/

/-- Induction over terms. A function or a definition may use the claim for every body that is as
large as its own, such as a renamed one. -/
@[elab_as_elim]
theorem inductUpToSize {motive : Term → Prop} (bool : ∀ b, motive (.bool b)) (zero : motive .zero)
    (succ : ∀ t, motive t → motive (.succ t))
    (pred : ∀ t, motive t → motive (.pred t))
    (isZero : ∀ t, motive t → motive (.isZero t))
    (ite : ∀ t u v, motive t → motive u → motive v → motive (.ite t u v))
    (var : ∀ x, motive (.var x))
    (lam : ∀ x T t, (∀ t' : Term, t'.size = t.size → motive t') → motive (.lam x T t))
    (app : ∀ t u, motive t → motive u → motive (.app t u))
    (letIn : ∀ x t u, motive t → (∀ u' : Term, u'.size = u.size → motive u') →
      motive (.letIn x t u))
    (fix : ∀ t, motive t → motive (.fix t))
    (string : ∀ s, motive (.string s))
    (concat : ∀ t u, motive t → motive u → motive (.concat t u))
    (pair : ∀ t u, motive t → motive u → motive (.pair t u))
    (fst : ∀ t, motive t → motive (.fst t))
    (snd : ∀ t, motive t → motive (.snd t))
    (record : ∀ fields, (∀ f ∈ fields, motive f.2) → motive (.record fields))
    (proj : ∀ t label, motive t → motive (.proj t label))
    (nil : ∀ T, motive (.nil T))
    (cons : ∀ t u, motive t → motive u → motive (.cons t u))
    (isNil : ∀ t, motive t → motive (.isNil t))
    (head : ∀ t, motive t → motive (.head t))
    (tail : ∀ t, motive t → motive (.tail t)) (t : Term) : motive t := by
  induction h : t.size using Nat.strongRecOn generalizing t with
  | ind n ih =>
    have smaller (u : Term) (hu : u.size < t.size) : motive u := ih u.size (by omega) u rfl
    cases t with
    | lam x T t => exact lam x T t fun t' ht => smaller t' (by simp only [size]; omega)
    | letIn x t u =>
      exact letIn x t u (smaller t (by simp only [size]; omega))
        fun u' hu => smaller u' (by simp only [size]; omega)
    | record fields => exact record fields fun f hf => smaller f.2 (size_lt_size_record hf)
    | ite t u v =>
      exact ite t u v (smaller t (by simp only [size]; omega))
        (smaller u (by simp only [size]; omega)) (smaller v (by simp only [size]; omega))
    | bool b => exact bool b
    | zero => exact zero
    | var x => exact var x
    | string s => exact string s
    | nil T => exact nil T
    | succ t => exact succ t (smaller t (by simp [size]))
    | pred t => exact pred t (smaller t (by simp [size]))
    | isZero t => exact isZero t (smaller t (by simp [size]))
    | fix t => exact fix t (smaller t (by simp [size]))
    | fst t => exact fst t (smaller t (by simp [size]))
    | snd t => exact snd t (smaller t (by simp [size]))
    | proj t label => exact proj t label (smaller t (by simp [size]))
    | isNil t => exact isNil t (smaller t (by simp [size]))
    | head t => exact head t (smaller t (by simp [size]))
    | tail t => exact tail t (smaller t (by simp [size]))
    | app t u =>
      exact app t u (smaller t (by simp only [size]; omega))
        (smaller u (by simp only [size]; omega))
    | concat t u =>
      exact concat t u (smaller t (by simp only [size]; omega))
        (smaller u (by simp only [size]; omega))
    | pair t u =>
      exact pair t u (smaller t (by simp only [size]; omega))
        (smaller u (by simp only [size]; omega))
    | cons t u =>
      exact cons t u (smaller t (by simp only [size]; omega))
        (smaller u (by simp only [size]; omega))

end Term

end TypedLambda
