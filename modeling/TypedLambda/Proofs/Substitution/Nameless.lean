import TypedLambda.Proofs.Substitution.Alpha

/-!
# Nameless form

In the nameless form of a term a bound variable is a number: how many binders stand between the
variable and its own. Binders need no names then, and terms that differ in the names of their
binders have the same nameless form. Free variables keep their names. A term without dangling
numbers can be put for a free variable without any change to it: no binder can capture its
variables. This is substitution as it is meant, free of choices of names.

## Main definitions

* `Nameless`: the nameless forms
* `Term.nameless`: the nameless form of a term
* `Nameless.put`: substitution in nameless forms

## Main results

* `Term.alphaEquiv_iff`: terms are alpha-equivalent exactly when their nameless forms are equal
* `Term.nameless_congr`: only the free variables depend on the binders around a term
* `Term.put_nameless_of_not_mem`: where a variable is not free, nothing is put for it
-/

namespace TypedLambda

/-- What a variable refers to. -/
inductive Referent where
  /-- The binder that stands behind `i` others, counted outwards from the variable. -/
  | bound (i : Nat)
  /-- The free variable of that name. -/
  | free (x : String)
deriving DecidableEq

/-- A term in which bound variables are numbers. -/
inductive Nameless where
  | bool (value : Bool)
  | zero
  | succ (t : Nameless)
  | pred (t : Nameless)
  | isZero (t : Nameless)
  | ite (guard onTrue onFalse : Nameless)
  | var (r : Referent)
  | lam (ty : Ty) (body : Nameless)
  | app (f a : Nameless)
  | letIn (value body : Nameless)
  | fix (t : Nameless)
  | string (value : String)
  | concat (first second : Nameless)
  | pair (first second : Nameless)
  | fst (t : Nameless)
  | snd (t : Nameless)
  | record (fields : List (String × Nameless))
  | proj (t : Nameless) (label : String)
  | nil (ty : Ty)
  | cons (head tail : Nameless)
  | isNil (t : Nameless)
  | head (t : Nameless)
  | tail (t : Nameless)

/-- What the variable `x` refers to behind binders of the names `xs`, the innermost first. -/
def Referent.of : (xs : List String) → (x : String) → Referent
  | [], x => free x
  | y :: xs, x =>
    if x = y then bound 0
    else
      match Referent.of xs x with
      | bound i => bound (i + 1)
      | free x => free x

namespace Nameless

mutual

/-- The form with `s` put for the free variable `x`. -/
def put : (t : Nameless) → (x : String) → (s : Nameless) → Nameless
  | var r, x, s => if r = .free x then s else var r
  | bool b, _, _ => bool b
  | zero, _, _ => zero
  | string r, _, _ => string r
  | nil T, _, _ => nil T
  | succ t, x, s => succ (t.put x s)
  | pred t, x, s => pred (t.put x s)
  | isZero t, x, s => isZero (t.put x s)
  | ite t u v, x, s => ite (t.put x s) (u.put x s) (v.put x s)
  | lam T t, x, s => lam T (t.put x s)
  | app t u, x, s => app (t.put x s) (u.put x s)
  | letIn t u, x, s => letIn (t.put x s) (u.put x s)
  | fix t, x, s => fix (t.put x s)
  | concat t u, x, s => concat (t.put x s) (u.put x s)
  | pair t u, x, s => pair (t.put x s) (u.put x s)
  | fst t, x, s => fst (t.put x s)
  | snd t, x, s => snd (t.put x s)
  | record fields, x, s => record (putFields fields x s)
  | proj t label, x, s => proj (t.put x s) label
  | cons t u, x, s => cons (t.put x s) (u.put x s)
  | isNil t, x, s => isNil (t.put x s)
  | head t, x, s => head (t.put x s)
  | tail t, x, s => tail (t.put x s)

/-- The fields with `s` put for the free variable `x`. -/
def putFields : (fields : List (String × Nameless)) → (x : String) → (s : Nameless) →
    List (String × Nameless)
  | [], _, _ => []
  | (label, t) :: fields, x, s => (label, t.put x s) :: putFields fields x s

end

theorem putFields_eq_map (fields : List (String × Nameless)) (x : String) (s : Nameless) :
    putFields fields x s = fields.map fun f => (f.1, f.2.put x s) := by
  induction fields with
  | nil => rfl
  | cons f fields ih => rw [putFields, ih, List.map_cons]

end Nameless

namespace Term

mutual

/-- The nameless form of a term behind binders of the names `xs`, the innermost first. -/
def nameless (xs : List String) : Term → Nameless
  | var x => .var (.of xs x)
  | lam x T t => .lam T (t.nameless (x :: xs))
  | letIn x t u => .letIn (t.nameless xs) (u.nameless (x :: xs))
  | bool b => .bool b
  | zero => .zero
  | string s => .string s
  | nil T => .nil T
  | succ t => .succ (t.nameless xs)
  | pred t => .pred (t.nameless xs)
  | isZero t => .isZero (t.nameless xs)
  | ite t u v => .ite (t.nameless xs) (u.nameless xs) (v.nameless xs)
  | app t u => .app (t.nameless xs) (u.nameless xs)
  | fix t => .fix (t.nameless xs)
  | concat t u => .concat (t.nameless xs) (u.nameless xs)
  | pair t u => .pair (t.nameless xs) (u.nameless xs)
  | fst t => .fst (t.nameless xs)
  | snd t => .snd (t.nameless xs)
  | record fields => .record (namelessFields xs fields)
  | proj t label => .proj (t.nameless xs) label
  | cons t u => .cons (t.nameless xs) (u.nameless xs)
  | isNil t => .isNil (t.nameless xs)
  | head t => .head (t.nameless xs)
  | tail t => .tail (t.nameless xs)

/-- The nameless forms of fields. -/
def namelessFields (xs : List String) : List (String × Term) → List (String × Nameless)
  | [] => []
  | (label, t) :: fields => (label, t.nameless xs) :: namelessFields xs fields

end

theorem namelessFields_eq_map (xs : List String) (fields : List (String × Term)) :
    namelessFields xs fields = fields.map fun f => (f.1, f.2.nameless xs) := by
  induction fields with
  | nil => rfl
  | cons f fields ih => rw [namelessFields, ih, List.map_cons]

end Term

/-! ## What variables refer to -/

namespace Referent

variable {x y : String} {xs ys : List String}

@[simp] theorem of_nil (x : String) : of [] x = free x := rfl

@[simp] theorem of_cons_self (x : String) (xs : List String) : of (x :: xs) x = bound 0 := by
  rw [of, if_pos rfl]

theorem of_cons_of_ne (h : x ≠ y) (xs : List String) :
    of (y :: xs) x = match of xs x with
      | bound i => bound (i + 1)
      | free x => free x := by
  rw [of, if_neg h]

/-- Behind one more binder on both sides, variables refer to the same exactly when both are bound by
it, or none is and they referred to the same. -/
theorem of_cons_eq_of_cons_iff {a b : String} :
    of (a :: xs) x = of (b :: ys) y ↔ x = a ∧ y = b ∨ x ≠ a ∧ y ≠ b ∧ of xs x = of ys y := by
  by_cases hx : x = a
  · subst hx
    by_cases hy : y = b
    · simp [hy]
    · rw [of_cons_self, of_cons_of_ne hy]
      cases of ys y <;> simp [hy]
  · by_cases hy : y = b
    · subst hy
      rw [of_cons_self, of_cons_of_ne hx]
      cases of xs x <;> simp [hx]
    · rw [of_cons_of_ne hx, of_cons_of_ne hy]
      cases of xs x <;> cases of ys y <;> simp [hx, hy]

/-- Variables correspond when they refer to the same behind their binders. -/
theorem matches_iff {bs : Binders} :
    bs.Matches x y ↔ of (bs.map Prod.fst) x = of (bs.map Prod.snd) y := by
  induction bs with
  | nil => simp [Binders.matches_nil_iff]
  | cons b bs ih =>
    rw [Binders.matches_cons_iff, List.map_cons, List.map_cons, of_cons_eq_of_cons_iff, ih]

/-- A variable is free where none of the binders has its name. -/
theorem of_eq_free_iff : of xs x = free y ↔ x = y ∧ x ∉ xs := by
  induction xs with
  | nil => simp
  | cons z xs ih =>
    by_cases hx : x = z
    · simp [hx]
    · rw [of_cons_of_ne hx]
      cases h : of xs x with
      | bound i => simp_all
      | free w => simp_all

end Referent

namespace Term

variable {t u : Term} {xs ys : List String}

/-! ## Alpha-equivalence -/

/-- Terms that differ in the names of their binders have the same nameless form. -/
theorem AlphaUnder.nameless_eq {bs : Binders} (h : AlphaUnder bs t u) :
    t.nameless (bs.map Prod.fst) = u.nameless (bs.map Prod.snd) := by
  induction h with
  | bool | zero | string | nil | emptyRecord => rfl
  | var h => rw [nameless, nameless, Referent.matches_iff.mp h]
  | lam T _ ih => exact congrArg (Nameless.lam T) ih
  | letIn _ _ ih ih' =>
    rw [nameless, ih]
    exact congrArg (Nameless.letIn _) ih'
  | record label _ _ ih ih' =>
    rw [nameless, namelessFields, ih, Nameless.record.inj ih']
    rfl
  | ite _ _ _ ih ih' ih'' => rw [nameless, nameless, ih, ih', ih'']
  | app _ _ ih ih' | concat _ _ ih ih' | pair _ _ ih ih' | cons _ _ ih ih' =>
    rw [nameless, nameless, ih, ih']
  | succ _ ih | pred _ ih | isZero _ ih | fix _ ih | fst _ ih | snd _ ih | isNil _ ih | head _ ih
  | tail _ ih => rw [nameless, nameless, ih]
  | proj _ _ ih => rw [nameless, nameless, ih]

theorem alphaFields_of_nameless_eq {bs : Binders} {fields fields' : List (String × Term)}
    (ih : ∀ f ∈ fields, ∀ u : Term,
      f.2.nameless (bs.map Prod.fst) = u.nameless (bs.map Prod.snd) → AlphaUnder bs f.2 u)
    (h : namelessFields (bs.map Prod.fst) fields = namelessFields (bs.map Prod.snd) fields') :
    AlphaFields bs fields fields' := by
  induction fields generalizing fields' with
  | nil =>
    cases fields' with
    | nil => exact .nil
    | cons => cases h
  | cons f fields ihf =>
    cases fields' with
    | nil => cases h
    | cons g fields' =>
      obtain ⟨hfg, hrest⟩ := List.cons.inj h
      obtain ⟨hlabel, hterm⟩ := Prod.mk.inj hfg
      exact .cons ⟨hlabel, ih f List.mem_cons_self g.2 hterm⟩
        (ihf (fun f hf => ih f (List.mem_cons_of_mem _ hf)) hrest)

/-- Terms with the same nameless form differ in the names of their binders only. -/
theorem alphaUnder_of_nameless_eq {bs : Binders}
    (h : t.nameless (bs.map Prod.fst) = u.nameless (bs.map Prod.snd)) : AlphaUnder bs t u := by
  induction t generalizing bs u with
  | bool b =>
    cases u with
    | bool c => exact Nameless.bool.inj h ▸ .bool bs b
    | _ => cases h
  | zero =>
    cases u with
    | zero => exact .zero bs
    | _ => cases h
  | succ t ih =>
    cases u with
    | succ u => exact .succ (ih (Nameless.succ.inj h))
    | _ => cases h
  | pred t ih =>
    cases u with
    | pred u => exact .pred (ih (Nameless.pred.inj h))
    | _ => cases h
  | isZero t ih =>
    cases u with
    | isZero u => exact .isZero (ih (Nameless.isZero.inj h))
    | _ => cases h
  | ite t t' t'' ih ih' ih'' =>
    cases u with
    | ite u u' u'' =>
      obtain ⟨h, h', h''⟩ := Nameless.ite.inj h
      exact .ite (ih h) (ih' h') (ih'' h'')
    | _ => cases h
  | var x =>
    cases u with
    | var y => exact .var (Referent.matches_iff.mpr (Nameless.var.inj h))
    | _ => cases h
  | lam x T t ih =>
    cases u with
    | lam y T' u =>
      obtain ⟨rfl, hbody⟩ := Nameless.lam.inj h
      exact .lam T (ih hbody)
    | _ => cases h
  | app t t' ih ih' =>
    cases u with
    | app u u' =>
      obtain ⟨h, h'⟩ := Nameless.app.inj h
      exact .app (ih h) (ih' h')
    | _ => cases h
  | letIn x t t' ih ih' =>
    cases u with
    | letIn y u u' =>
      obtain ⟨h, h'⟩ := Nameless.letIn.inj h
      exact .letIn (ih h) (ih' h')
    | _ => cases h
  | fix t ih =>
    cases u with
    | fix u => exact .fix (ih (Nameless.fix.inj h))
    | _ => cases h
  | string s =>
    cases u with
    | string r => exact Nameless.string.inj h ▸ .string bs s
    | _ => cases h
  | concat t t' ih ih' =>
    cases u with
    | concat u u' =>
      obtain ⟨h, h'⟩ := Nameless.concat.inj h
      exact .concat (ih h) (ih' h')
    | _ => cases h
  | pair t t' ih ih' =>
    cases u with
    | pair u u' =>
      obtain ⟨h, h'⟩ := Nameless.pair.inj h
      exact .pair (ih h) (ih' h')
    | _ => cases h
  | fst t ih =>
    cases u with
    | fst u => exact .fst (ih (Nameless.fst.inj h))
    | _ => cases h
  | snd t ih =>
    cases u with
    | snd u => exact .snd (ih (Nameless.snd.inj h))
    | _ => cases h
  | record fields ih =>
    cases u with
    | record fields' =>
      exact (alphaFields_of_nameless_eq (fun f hf u => ih f hf) (Nameless.record.inj h)).record
    | _ => cases h
  | proj t label ih =>
    cases u with
    | proj u label' =>
      obtain ⟨ht, rfl⟩ := Nameless.proj.inj h
      exact .proj (ih ht) label
    | _ => cases h
  | nil T =>
    cases u with
    | nil T' => exact Nameless.nil.inj h ▸ .nil bs T
    | _ => cases h
  | cons t t' ih ih' =>
    cases u with
    | cons u u' =>
      obtain ⟨h, h'⟩ := Nameless.cons.inj h
      exact .cons (ih h) (ih' h')
    | _ => cases h
  | isNil t ih =>
    cases u with
    | isNil u => exact .isNil (ih (Nameless.isNil.inj h))
    | _ => cases h
  | head t ih =>
    cases u with
    | head u => exact .head (ih (Nameless.head.inj h))
    | _ => cases h
  | tail t ih =>
    cases u with
    | tail u => exact .tail (ih (Nameless.tail.inj h))
    | _ => cases h

/-- Terms are alpha-equivalent exactly when they have the same nameless form. -/
theorem alphaEquiv_iff : t.AlphaEquiv u ↔ t.nameless [] = u.nameless [] :=
  ⟨AlphaUnder.nameless_eq, @alphaUnder_of_nameless_eq t u []⟩

/-! ## Free variables -/

/-- Behind one more binder, the variables that it does not bind refer to the same as before. -/
theorem of_cons_congr {a : String}
    (h : ∀ x ∈ t.freeVars.filter (· ≠ a), Referent.of xs x = Referent.of ys x) :
    ∀ x ∈ t.freeVars, Referent.of (a :: xs) x = Referent.of (a :: ys) x := by
  intro x hx
  rw [Referent.of_cons_eq_of_cons_iff]
  by_cases hxa : x = a
  · exact .inl ⟨hxa, hxa⟩
  · exact .inr ⟨hxa, hxa, h x (List.mem_filter.mpr ⟨hx, by simpa using hxa⟩)⟩

/-- The binders around a term matter for its free variables only. -/
theorem nameless_congr (h : ∀ x ∈ t.freeVars, Referent.of xs x = Referent.of ys x) :
    t.nameless xs = t.nameless ys := by
  induction t generalizing xs ys with
  | bool | zero | string | nil => rfl
  | var x => rw [nameless, nameless, h x (List.mem_singleton_self x)]
  | lam x T t ih => rw [nameless, nameless, ih (of_cons_congr h)]
  | letIn x t u iht ihu =>
    rw [nameless, nameless, iht fun y hy => h y (List.mem_append_left _ hy),
      ihu (of_cons_congr fun y hy => h y (List.mem_append_right _ hy))]
  | record fields ih =>
    rw [freeVars_record] at h
    rw [nameless, nameless, namelessFields_eq_map, namelessFields_eq_map]
    refine congrArg Nameless.record (List.map_congr_left fun f hf => ?_)
    rw [ih f hf fun x hx => h x (List.mem_flatMap.mpr ⟨f, hf, hx⟩)]
  | ite t u v iht ihu ihv =>
    simp only [freeVars, List.mem_append] at h
    rw [nameless, nameless, iht fun x hx => h x (.inl (.inl hx)),
      ihu fun x hx => h x (.inl (.inr hx)), ihv fun x hx => h x (.inr hx)]
  | app t u iht ihu | concat t u iht ihu | pair t u iht ihu | cons t u iht ihu =>
    rw [nameless, nameless, iht fun x hx => h x (List.mem_append_left _ hx),
      ihu fun x hx => h x (List.mem_append_right _ hx)]
  | succ t ih | pred t ih | isZero t ih | fix t ih | fst t ih | snd t ih | proj t _ ih | isNil t ih
  | head t ih | tail t ih => rw [nameless, nameless, ih h]

/-- Nothing is put for a variable that does not occur free, or that a binder around binds. -/
theorem put_nameless_of_not_mem {x : String} (s : Nameless) (h : x ∈ t.freeVars → x ∈ xs) :
    (t.nameless xs).put x s = t.nameless xs := by
  have behind {t : Term} {xs : List String} {y : String}
      (h : x ∈ t.freeVars.filter (· ≠ y) → x ∈ xs) : x ∈ t.freeVars → x ∈ y :: xs := by
    intro hx
    by_cases hxy : x = y
    · exact hxy ▸ List.mem_cons_self
    · exact List.mem_cons_of_mem y (h (List.mem_filter.mpr ⟨hx, by simpa using hxy⟩))
  induction t generalizing xs with
  | bool | zero | string | nil => rfl
  | var y =>
    have hy : Referent.of xs y ≠ .free x := by
      rw [Ne, Referent.of_eq_free_iff]
      rintro ⟨rfl, hy⟩
      exact hy (h (List.mem_singleton_self y))
    rw [nameless, Nameless.put, if_neg hy]
  | lam y T t ih => rw [nameless, Nameless.put, ih (behind h)]
  | letIn y t u iht ihu =>
    rw [nameless, Nameless.put, iht fun hx => h (List.mem_append_left _ hx),
      ihu (behind fun hx => h (List.mem_append_right _ hx))]
  | record fields ih =>
    rw [freeVars_record] at h
    rw [nameless, Nameless.put, namelessFields_eq_map, Nameless.putFields_eq_map, List.map_map]
    refine congrArg Nameless.record (List.map_congr_left fun f hf => ?_)
    exact congrArg (f.1, ·) (ih f hf fun hx => h (List.mem_flatMap.mpr ⟨f, hf, hx⟩))
  | ite t u v iht ihu ihv =>
    simp only [freeVars, List.mem_append] at h
    rw [nameless, Nameless.put, iht fun hx => h (.inl (.inl hx)),
      ihu fun hx => h (.inl (.inr hx)), ihv fun hx => h (.inr hx)]
  | app t u iht ihu | concat t u iht ihu | pair t u iht ihu | cons t u iht ihu =>
    rw [nameless, Nameless.put, iht fun hx => h (List.mem_append_left _ hx),
      ihu fun hx => h (List.mem_append_right _ hx)]
  | succ t ih | pred t ih | isZero t ih | fix t ih | fst t ih | snd t ih | proj t _ ih | isNil t ih
  | head t ih | tail t ih => rw [nameless, Nameless.put, ih h]

end Term

end TypedLambda
