import TypedLambda.Proofs.Reduction.Frame
import TypedLambda.Proofs.Reduction.Run
import TypedLambda.Proofs.Substitution.FreeVars
import TypedLambda.Proofs.Typing.Names

/-!
# Names along a run

Reduction brings in no free variables and no names of types: all that occur after a step occurred
before it. In particular closed terms stay closed.

## Main results

* `Term.freeVars_subset_of_step`, `Term.typeNames_subset_of_step`: what a step leaves
* `Term.isClosed_of_steps`, `Term.isPlain_of_steps`: closed terms and terms without names of types
* `Term.freeVars_subset_of_evaluation`: open terms, from substitution up to whole runs
-/

namespace TypedLambda

namespace Term

theorem mem_freeVars_fill {F : Frame} {t : Term} {x : String} :
    x ∈ (F.fill t).freeVars ↔ x ∈ t.freeVars ∨ x ∈ (F.fill zero).freeVars := by
  cases F with
  | appArg | concatSecond | pairSecond | consTail =>
    simp only [Frame.fill, freeVars, List.mem_append, List.append_nil]
    exact or_comm
  | record before hv label after =>
    simp only [Frame.fill, freeVars_record, List.flatMap_append, List.flatMap_cons, List.mem_append,
      freeVars, List.nil_append]
    exact or_left_comm
  | _ => simp [Frame.fill, freeVars]

theorem mem_typeNames_fill {F : Frame} {t : Term} {name : String} :
    name ∈ (F.fill t).typeNames ↔ name ∈ t.typeNames ∨ name ∈ (F.fill zero).typeNames := by
  cases F with
  | appArg | concatSecond | pairSecond | consTail =>
    simp only [Frame.fill, typeNames, List.mem_append, List.append_nil]
    exact or_comm
  | record before hv label after =>
    simp only [Frame.fill, typeNames_record, List.flatMap_append, List.flatMap_cons,
      List.mem_append, typeNames, List.nil_append]
    exact or_left_comm
  | _ => simp [Frame.fill, typeNames]

/-! ## One step -/

theorem freeVars_subset_of_contracts {t t' : Term} (h : Contracts t t') :
    t'.freeVars ⊆ t.freeVars := by
  intro y hy
  cases h with
  | app x T b hv =>
    rcases mem_freeVars_of_mem_subst hy with ⟨hb, hyx⟩ | hv
    · simp [freeVars, hb, hyx]
    · simp [freeVars, hv]
  | letIn x hv b =>
    rcases mem_freeVars_of_mem_subst hy with ⟨hb, hyx⟩ | hv
    · simp [freeVars, hb, hyx]
    · simp [freeVars, hv]
  | fix x T b =>
    rcases mem_freeVars_of_mem_subst hy with ⟨hb, hyx⟩ | hf
    · simp [freeVars, hb, hyx]
    · exact hf
  | proj hv hl =>
    rw [freeVars, freeVars_record]
    exact List.mem_flatMap.mpr ⟨_, mem_of_lookup hl, hy⟩
  | _ => simp_all [freeVars]

/-- A step brings in no free variables. -/
theorem freeVars_subset_of_step {t t' : Term} (h : t.step = some t') :
    t'.freeVars ⊆ t.freeVars := by
  induction h using step_induct with
  | contract t t' hc => exact freeVars_subset_of_contracts hc
  | frame F t t' _ ih =>
    intro x hx
    rw [mem_freeVars_fill] at hx ⊢
    exact hx.imp_left (@ih x)

theorem typeNames_subset_of_contracts {t t' : Term} (h : Contracts t t') :
    t'.typeNames ⊆ t.typeNames := by
  intro name hn
  cases h with
  | app x T b hv =>
    rcases mem_typeNames_of_mem_subst hn with hb | hv
    · simp [typeNames, hb]
    · simp [typeNames, hv]
  | letIn x hv b =>
    rcases mem_typeNames_of_mem_subst hn with hb | hv
    · simp [typeNames, hb]
    · simp [typeNames, hv]
  | fix x T b =>
    rcases mem_typeNames_of_mem_subst hn with hb | hf
    · simp [typeNames, hb]
    · exact hf
  | proj hv hl =>
    rw [typeNames, typeNames_record]
    exact List.mem_flatMap.mpr ⟨_, mem_of_lookup hl, hn⟩
  | _ => simp_all [typeNames]

/-- A step brings in no names of types. -/
theorem typeNames_subset_of_step {t t' : Term} (h : t.step = some t') :
    t'.typeNames ⊆ t.typeNames := by
  induction h using step_induct with
  | contract t t' hc => exact typeNames_subset_of_contracts hc
  | frame F t t' _ ih =>
    intro name hn
    rw [mem_typeNames_fill] at hn ⊢
    exact hn.imp_left (@ih name)

/-! ## Runs -/

theorem isClosed_of_step {t t' : Term} (h : t.step = some t') (ht : t.IsClosed) : t'.IsClosed :=
  List.subset_nil.mp (ht ▸ freeVars_subset_of_step h)

theorem isPlain_of_step {t t' : Term} (h : t.step = some t') (ht : t.IsPlain) : t'.IsPlain :=
  List.subset_nil.mp (ht ▸ typeNames_subset_of_step h)

/-- A closed term reduces to closed terms. -/
theorem isClosed_of_steps {n : Nat} {t t' : Term} (h : steps n t = some t') (ht : t.IsClosed) :
    t'.IsClosed :=
  steps_induct (fun _ _ => isClosed_of_step) h ht

/-- A term without names of types reduces to such terms. -/
theorem isPlain_of_steps {n : Nat} {t t' : Term} (h : steps n t = some t') (ht : t.IsPlain) :
    t'.IsPlain :=
  steps_induct (fun _ _ => isPlain_of_step) h ht

/-! ## Open terms -/

/-- The variables that a substitution may leave: those of the term but for the replaced one, and
those of the replacement. -/
theorem freeVars_subst_subset (x : String) (s t : Term) :
    (t.subst x s).freeVars ⊆ t.freeVars.filter (· ≠ x) ++ s.freeVars := by
  intro y hy
  rcases mem_freeVars_of_mem_subst hy with ⟨ht, hyx⟩ | hs
  · apply List.mem_append_left
    exact List.mem_filter.mpr ⟨ht, decide_eq_true hyx⟩
  · exact List.mem_append_right _ hs

theorem freeVars_subset_trans_of_step {t u u' : Term} (h : u.step = some u')
    (hu : u.freeVars ⊆ t.freeVars) : u'.freeVars ⊆ t.freeVars :=
  List.Subset.trans (freeVars_subset_of_step h) hu

/-- **Evaluation creates no free variables**, in closed terms or in open ones: a substitution leaves
those of the term but for the replaced one and those of the replacement, though it may rename
binders; so a step brings in none, and neither does a run, on the way or at its end. -/
theorem freeVars_subset_of_evaluation :
    (∀ (x : String) (s t : Term),
        (t.subst x s).freeVars ⊆ t.freeVars.filter (· ≠ x) ++ s.freeVars) ∧
      (∀ t t' : Term, t.step = some t' → t'.freeVars ⊆ t.freeVars) ∧
      ∀ (refuses : Term → Bool) (n : Nat) (t : Term),
        (∀ t' ∈ trace refuses n t, t'.freeVars ⊆ t.freeVars) ∧
          ∀ v, outcome refuses n t = .finished v → v.freeVars ⊆ t.freeVars := by
  refine ⟨freeVars_subst_subset, fun _ _ => freeVars_subset_of_step, fun refuses n t => ⟨?_, ?_⟩⟩
  · exact forall_mem_trace (fun _ _ => freeVars_subset_trans_of_step) (List.Subset.refl _)
  · intro v hv
    obtain ⟨m, hm, -⟩ := exists_steps_of_outcome hv
    exact steps_induct (fun _ _ => freeVars_subset_trans_of_step) hm (List.Subset.refl _)

/-- A step of an open term that renames a binder: `z` stays free, and the new name does not become
so. -/
theorem freeVars_subset_of_evaluation_renaming :
    let t := letIn "y" (lam "x" .nat (var "z")) (lam "z" .nat (app (var "y") (var "z")))
    let t' := lam "z'" .nat (app (lam "x" .nat (var "z")) (var "z'"))
    t.step = some t' ∧ t'.freeVars ⊆ t.freeVars ∧ "z" ∈ t'.freeVars ∧ "z'" ∉ t'.freeVars := by
  intro t t'
  have h : t.step = some t' := by decide
  exact ⟨h, freeVars_subset_of_evaluation.2.1 t t' h, by decide, by decide⟩

end Term

end TypedLambda
