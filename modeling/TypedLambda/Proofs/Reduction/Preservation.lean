import TypedLambda.Proofs.Reduction.Names
import TypedLambda.Proofs.Typing.Agreement

/-!
# Types along a run

A closed term keeps its type when it is reduced, whatever the context: the type is the same tree,
with the labels of records in the same order. For contractions this rests on the replacement of
variables by closed terms of their types; a frame has the type that its parts give it, so a part may
be exchanged for another one of the same type.

## Main results

* `Term.typeOf_fill_congr`: exchanging the term in a frame
* `Term.typeOf_step`: a step keeps the type
* `Term.preservation`: a run of any length keeps closedness and the type
-/

namespace TypedLambda

namespace Term

variable {ctx : Context}

/-! ## Terms in a frame -/

/-- The term in a frame may be exchanged for one of the same type. -/
theorem typeOf_fill_congr (F : Frame) {t u : Term} (h : t.typeOf ctx = u.typeOf ctx) :
    (F.fill t).typeOf ctx = (F.fill u).typeOf ctx := by
  cases F with
  | record before hv label after =>
    have same (fields : List (String × Term)) :
        List.Forall₂ (fun f g => f.1 = g.1 ∧ f.2.typeOf ctx = g.2.typeOf ctx) fields fields :=
      List.forall₂_same.mpr fun _ _ => ⟨rfl, rfl⟩
    have exchanged : List.Forall₂ (fun f g => f.1 = g.1 ∧ f.2.typeOf ctx = g.2.typeOf ctx)
        (before ++ (label, t) :: after) (before ++ (label, u) :: after) :=
      List.rel_append (same before) (.cons ⟨rfl, h⟩ (same after))
    simp only [Frame.fill, typeOf, typeOfFields_congr exchanged]
  | _ => simp only [Frame.fill, typeOf, h]

/-- The term in a frame has a type when the whole has one. -/
theorem exists_typeOf_of_fill {F : Frame} {t : Term} {T : Ty} (h : (F.fill t).typeOf ctx = .ok T) :
    ∃ A, t.typeOf ctx = .ok A := by
  cases F with
  | succ => exact ⟨_, (typeOf_succ_eq_ok_iff.mp h).1⟩
  | pred => exact ⟨_, (typeOf_pred_eq_ok_iff.mp h).1⟩
  | isZero => exact ⟨_, (typeOf_isZero_eq_ok_iff.mp h).1⟩
  | ite u v => exact ⟨_, (typeOf_ite_eq_ok_iff.mp h).1⟩
  | appFun a =>
    obtain ⟨A, ht, -⟩ := typeOf_app_eq_ok_iff.mp h
    exact ⟨_, ht⟩
  | appArg f hf =>
    obtain ⟨A, -, ht⟩ := typeOf_app_eq_ok_iff.mp h
    exact ⟨A, ht⟩
  | letIn x u =>
    obtain ⟨A, ht, -⟩ := typeOf_letIn_eq_ok_iff.mp h
    exact ⟨A, ht⟩
  | fix => exact ⟨_, typeOf_fix_eq_ok_iff.mp h⟩
  | concatFirst u => exact ⟨_, (typeOf_concat_eq_ok_iff.mp h).1⟩
  | concatSecond s => exact ⟨_, (typeOf_concat_eq_ok_iff.mp h).2.1⟩
  | pairFirst u =>
    obtain ⟨A, B, ht, -⟩ := typeOf_pair_eq_ok_iff.mp h
    exact ⟨A, ht⟩
  | pairSecond u hu =>
    obtain ⟨A, B, -, ht, -⟩ := typeOf_pair_eq_ok_iff.mp h
    exact ⟨B, ht⟩
  | fst =>
    obtain ⟨B, ht⟩ := typeOf_fst_eq_ok_iff.mp h
    exact ⟨_, ht⟩
  | snd =>
    obtain ⟨A, ht⟩ := typeOf_snd_eq_ok_iff.mp h
    exact ⟨_, ht⟩
  | record before hv label after =>
    obtain ⟨-, types, -, htypes⟩ := typeOf_record_eq_ok_iff.mp h
    obtain ⟨g, -, -, ht⟩ := exists_mem_of_forall₂ htypes.flip
      (b := (label, t)) (List.mem_append_right _ List.mem_cons_self)
    exact ⟨g.2, ht⟩
  | proj label =>
    obtain ⟨types, ht, -⟩ := typeOf_proj_eq_ok_iff.mp h
    exact ⟨_, ht⟩
  | consHead u =>
    obtain ⟨A, ht, -⟩ := typeOf_cons_eq_ok_iff.mp h
    exact ⟨A, ht⟩
  | consTail u hu =>
    obtain ⟨A, -, ht, -⟩ := typeOf_cons_eq_ok_iff.mp h
    exact ⟨_, ht⟩
  | isNil =>
    obtain ⟨⟨A, ht⟩, -⟩ := typeOf_isNil_eq_ok_iff.mp h
    exact ⟨_, ht⟩
  | head => exact ⟨_, typeOf_head_eq_ok_iff.mp h⟩
  | tail =>
    obtain ⟨A, ht, -⟩ := typeOf_tail_eq_ok_iff.mp h
    exact ⟨_, ht⟩

theorem isClosed_of_fill {F : Frame} {t : Term} (h : (F.fill t).IsClosed) : t.IsClosed :=
  List.subset_nil.mp (h ▸ fun _ hx => mem_freeVars_fill.mpr (.inl hx))

/-! ## Steps -/

/-- The field that is taken from a record has the type that is taken from its type. -/
theorem typeOf_of_lookup {fields : List (String × Term)} {types : List (String × Ty)}
    (h : List.Forall₂ (fun f g => f.1 = g.1 ∧ f.2.typeOf ctx = .ok g.2) fields types)
    {label : String} {v : Term} {T : Ty} (hv : fields.lookup label = some v)
    (hT : types.lookup label = some T) : v.typeOf ctx = .ok T := by
  obtain ⟨w, hw, hwT⟩ :=
    exists_lookup_of_forall₂ (R := fun (v : Term) A => v.typeOf ctx = .ok A) h hT
  obtain rfl := Option.some.inj (hv.symm.trans hw)
  exact hwT

/-- A closed redex contracts to a term of the same type. -/
theorem typeOf_contracts {t t' : Term} {T : Ty} (h : Contracts t t') (hc : t.IsClosed)
    (hT : t.typeOf ctx = .ok T) : t'.typeOf ctx = .ok T := by
  cases h with
  | iteTrue => exact (typeOf_ite_eq_ok_iff.mp hT).2.1
  | iteFalse => exact (typeOf_ite_eq_ok_iff.mp hT).2.2
  | predZero =>
    obtain ⟨-, rfl⟩ := typeOf_pred_eq_ok_iff.mp hT
    rfl
  | predSucc =>
    obtain ⟨hn, rfl⟩ := typeOf_pred_eq_ok_iff.mp hT
    exact (typeOf_succ_eq_ok_iff.mp hn).1
  | isZeroZero | isZeroSucc =>
    obtain ⟨-, rfl⟩ := typeOf_isZero_eq_ok_iff.mp hT
    rfl
  | app x A b hv =>
    obtain ⟨B, hf, hB⟩ := typeOf_app_eq_ok_iff.mp hT
    obtain ⟨_, _, -, hb, hBC⟩ := typeOf_lam_eq_ok_iff.mp hf
    obtain ⟨rfl, rfl⟩ := Ty.arrow.inj hBC
    rw [typeOf_subst_declare (isClosed_of_fill (F := .appArg (lam x A b) rfl) hc) hB]
    exact hb
  | letIn x hv b =>
    obtain ⟨A, hA, hb⟩ := typeOf_letIn_eq_ok_iff.mp hT
    rw [typeOf_subst_declare (isClosed_of_fill (F := .letIn x b) hc) hA]
    exact hb
  | fix x A b =>
    obtain ⟨_, _, -, hb, hBC⟩ := typeOf_lam_eq_ok_iff.mp (typeOf_fix_eq_ok_iff.mp hT)
    obtain ⟨rfl, rfl⟩ := Ty.arrow.inj hBC
    rw [typeOf_subst_declare hc hT]
    exact hb
  | concat =>
    obtain ⟨-, -, rfl⟩ := typeOf_concat_eq_ok_iff.mp hT
    rfl
  | fst =>
    obtain ⟨B, hp⟩ := typeOf_fst_eq_ok_iff.mp hT
    obtain ⟨_, _, hA, -, hAB⟩ := typeOf_pair_eq_ok_iff.mp hp
    exact (Ty.prod.inj hAB).1 ▸ hA
  | snd =>
    obtain ⟨A, hp⟩ := typeOf_snd_eq_ok_iff.mp hT
    obtain ⟨_, _, -, hB, hAB⟩ := typeOf_pair_eq_ok_iff.mp hp
    exact (Ty.prod.inj hAB).2 ▸ hB
  | proj hv hl =>
    obtain ⟨types, hr, hlT⟩ := typeOf_proj_eq_ok_iff.mp hT
    obtain ⟨-, _, htypes, hfields⟩ := typeOf_record_eq_ok_iff.mp hr
    obtain rfl := Ty.record.inj htypes
    exact typeOf_of_lookup hfields hl hlT
  | isNilNil | isNilCons =>
    obtain ⟨-, rfl⟩ := typeOf_isNil_eq_ok_iff.mp hT
    rfl
  | head =>
    obtain ⟨A, hA, -, hl⟩ := typeOf_cons_eq_ok_iff.mp (typeOf_head_eq_ok_iff.mp hT)
    exact Ty.list.inj hl ▸ hA
  | tail =>
    obtain ⟨A, hc, rfl⟩ := typeOf_tail_eq_ok_iff.mp hT
    obtain ⟨_, -, hl, hA⟩ := typeOf_cons_eq_ok_iff.mp hc
    exact Ty.list.inj hA ▸ hl

/-- A step of a closed term keeps its type. -/
theorem typeOf_step {t t' : Term} {T : Ty} (h : t.step = some t') (hc : t.IsClosed)
    (hT : t.typeOf ctx = .ok T) : t'.typeOf ctx = .ok T := by
  induction h using step_induct generalizing T with
  | contract t t' h => exact typeOf_contracts h hc hT
  | frame F t t' _ ih =>
    obtain ⟨A, hA⟩ := exists_typeOf_of_fill hT
    have hA' := ih (isClosed_of_fill hc) hA
    rw [← typeOf_fill_congr F (hA.trans hA'.symm), hT]

/-! ## Runs -/

/-- A closed term keeps its type on a run. -/
theorem typeOf_steps {t t' : Term} {T : Ty} {n : Nat} (h : steps n t = some t') (hc : t.IsClosed)
    (hT : t.typeOf ctx = .ok T) : t'.typeOf ctx = .ok T := by
  suffices t'.IsClosed ∧ t'.typeOf ctx = .ok T from this.2
  refine steps_induct (P := fun u => u.IsClosed ∧ u.typeOf ctx = .ok T) ?_ h ⟨hc, hT⟩
  rintro u u' hu ⟨huc, huT⟩
  exact ⟨isClosed_of_step hu huc, typeOf_step hu huc huT⟩

/-- **Preservation**: a closed term that has a type reduces to closed terms of this type, however
long the run and whatever the context. -/
theorem preservation {t : Term} {T : Ty} (hc : t.IsClosed) (hT : t.typeOf ctx = .ok T) {n : Nat}
    {t' : Term} (h : steps n t = some t') : t'.IsClosed ∧ t'.typeOf ctx = .ok T :=
  ⟨isClosed_of_steps h hc, typeOf_steps h hc hT⟩

/-- A defined function that is applied keeps the type of the application through its two steps. -/
theorem preservation_letIn_app :
    steps 2 (letIn "f" (lam "x" .nat (succ (var "x"))) (app (var "f") zero)) = some (succ zero) ∧
      (succ zero).IsClosed ∧ (succ zero).typeOf {} = .ok .nat := by
  have hc : (letIn "f" (lam "x" .nat (succ (var "x"))) (app (var "f") zero)).IsClosed := by decide
  have hT : (letIn "f" (lam "x" .nat (succ (var "x"))) (app (var "f") zero)).typeOf {} =
      .ok .nat := by decide
  have hsteps : steps 2 (letIn "f" (lam "x" .nat (succ (var "x"))) (app (var "f") zero)) =
      some (succ zero) := by decide
  exact ⟨hsteps, preservation hc hT hsteps⟩

end Term

end TypedLambda
