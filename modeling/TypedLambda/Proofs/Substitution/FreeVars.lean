import Mathlib.Data.List.Basic
import TypedLambda.Proofs.Substitution.Equations
import TypedLambda.Proofs.Substitution.Fresh

/-!
# Free variables of a substitution

Substitution brings in no variables but those of the replacement, whether binders are renamed on the
way or not; it leaves the other variables of the term, and brings in all those of the replacement
where the variable occurs. A replacement without free variables never causes a renaming, and then
the free variables that remain are exactly those of the term other than the replaced one.

## Main results

* `Term.mem_freeVars_of_mem_subst`: where the free variables of a substitution come from
* `Term.mem_freeVars_subst`: which free variables a substitution has in any case
* `Term.subst_lam_of_isClosed`, `Term.subst_letIn_of_isClosed`: closed replacements rename nothing
* `Term.freeVars_subst_of_isClosed`: the free variables that a closed replacement leaves
* `Term.subst_of_not_mem_freeVars`: a variable that does not occur is replaced by nothing
-/

namespace TypedLambda

namespace Term

variable {x y : String} {s t : Term}

/-- A free variable of a body in which the binder `z` has been renamed to `z'` first. -/
theorem mem_freeVars_of_renamed {b : Term} {z z' : String}
    (ih : ∀ b' : Term, b'.size = b.size → ∀ {x y : String} {s : Term},
      y ∈ (b'.subst x s).freeVars → y ∈ b'.freeVars ∧ y ≠ x ∨ y ∈ s.freeVars)
    (h : y ∈ ((b.subst z (var z')).subst x s).freeVars) (hy : y ≠ z') :
    y ∈ b.freeVars ∧ y ≠ z ∧ y ≠ x ∨ y ∈ s.freeVars := by
  rcases ih _ (size_subst_var ..) h with ⟨hb, hyx⟩ | hs
  · rcases ih b rfl hb with ⟨hb, hyz⟩ | hv
    · exact .inl ⟨hb, hyz, hyx⟩
    · exact absurd (by simpa [freeVars] using hv) hy
  · exact .inr hs

/-- A free variable of a substitution is one of the term other than the replaced one, or one of the
replacement. -/
theorem mem_freeVars_of_mem_subst (h : y ∈ (t.subst x s).freeVars) :
    y ∈ t.freeVars ∧ y ≠ x ∨ y ∈ s.freeVars := by
  -- the claim is needed for the renaming of a binder, too: another variable and replacement
  induction t using inductUpToSize generalizing x y s with
  | var z =>
    rw [subst_var] at h
    split at h
    · exact .inr h
    · rename_i hz
      obtain rfl : y = z := by simpa [freeVars] using h
      exact .inl ⟨by simp [freeVars], hz⟩
  | lam z T b ih =>
    rw [subst_lam] at h
    split at h
    · rename_i hz
      subst hz
      obtain ⟨hy, hyz⟩ : y ∈ b.freeVars ∧ y ≠ z := by simpa [freeVars] using h
      exact .inl ⟨by simp [freeVars, hy, hyz], hyz⟩
    split at h
    · obtain ⟨hy, hyz⟩ := by simpa [freeVars] using h
      rcases mem_freeVars_of_renamed ih hy hyz with ⟨hb, hyz, hyx⟩ | hs
      · exact .inl ⟨by simp [freeVars, hb, hyz], hyx⟩
      · exact .inr hs
    · obtain ⟨hy, hyz⟩ : y ∈ (b.subst x s).freeVars ∧ y ≠ z := by simpa [freeVars] using h
      rcases ih b rfl hy with ⟨hb, hyx⟩ | hs
      · exact .inl ⟨by simp [freeVars, hb, hyz], hyx⟩
      · exact .inr hs
  | letIn z v b ihv ih =>
    have value (h : y ∈ (v.subst x s).freeVars) :
        y ∈ (letIn z v b).freeVars ∧ y ≠ x ∨ y ∈ s.freeVars :=
      (ihv h).imp_left (And.imp_left fun hv => List.mem_append_left _ hv)
    rw [subst_letIn] at h
    split at h
    · rename_i hz
      subst hz
      rcases List.mem_append.mp h with hv | hb
      · exact value hv
      · obtain ⟨hb, hyz⟩ : y ∈ b.freeVars ∧ y ≠ z := by simpa using hb
        exact .inl ⟨by simp [freeVars, hb, hyz], hyz⟩
    split at h
    · rcases List.mem_append.mp h with hv | hb
      · exact value hv
      obtain ⟨hy, hyz⟩ := by simpa using hb
      rcases mem_freeVars_of_renamed ih hy hyz with ⟨hb, hyz, hyx⟩ | hs
      · exact .inl ⟨by simp [freeVars, hb, hyz], hyx⟩
      · exact .inr hs
    · rcases List.mem_append.mp h with hv | hb
      · exact value hv
      obtain ⟨hy, hyz⟩ : y ∈ (b.subst x s).freeVars ∧ y ≠ z := by simpa using hb
      rcases ih b rfl hy with ⟨hb, hyx⟩ | hs
      · exact .inl ⟨by simp [freeVars, hb, hyz], hyx⟩
      · exact .inr hs
  | record fields ih =>
    simp only [subst_record, freeVars_record, List.flatMap_map, List.mem_flatMap] at h
    obtain ⟨f, hf, hy⟩ := h
    refine (ih f hf hy).imp_left (And.imp_left fun hy => ?_)
    rw [freeVars_record]
    exact List.mem_flatMap.mpr ⟨f, hf, hy⟩
  | ite t u v iht ihu ihv =>
    simp only [subst_ite, freeVars, List.mem_append] at h ⊢
    rcases h with (h | h) | h
    · exact (iht h).imp_left (And.imp_left fun hy => .inl (.inl hy))
    · exact (ihu h).imp_left (And.imp_left fun hy => .inl (.inr hy))
    · exact (ihv h).imp_left (And.imp_left .inr)
  | app t u iht ihu | concat t u iht ihu | pair t u iht ihu | cons t u iht ihu =>
    simp only [subst_app, subst_concat, subst_pair, subst_cons, freeVars, List.mem_append] at h ⊢
    rcases h with h | h
    · exact (iht h).imp_left (And.imp_left .inl)
    · exact (ihu h).imp_left (And.imp_left .inr)
  | succ t ih | pred t ih | isZero t ih | fix t ih | fst t ih | snd t ih | proj t _ ih | isNil t ih
  | head t ih | tail t ih => exact ih h
  | _ => cases h

/-- What is free in a function and not replaced, or in a replacement that is made, is free in the
result, if this holds of all bodies of the same size. -/
theorem mem_freeVars_subst_lam {z : String} {b : Term} (T : Ty)
    (ih : ∀ b' : Term, b'.size = b.size → ∀ {x y : String} {s : Term},
      y ∈ b'.freeVars ∧ y ≠ x ∨ x ∈ b'.freeVars ∧ y ∈ s.freeVars → y ∈ (b'.subst x s).freeVars)
    (h : y ∈ (lam z T b).freeVars ∧ y ≠ x ∨ x ∈ (lam z T b).freeVars ∧ y ∈ s.freeVars) :
    y ∈ ((lam z T b).subst x s).freeVars := by
  simp only [freeVars, List.mem_filter, decide_eq_true_eq] at h
  rw [subst_lam]
  split
  · rename_i hz
    simp only [freeVars, List.mem_filter, decide_eq_true_eq]
    exact h.elim And.left fun h => absurd hz.symm h.1.2
  split
  · have hyz : y ≠ Name.fresh z (b.freeVars ++ s.freeVars) := by
      rintro rfl
      refine Name.fresh_not_mem z (b.freeVars ++ s.freeVars) (List.mem_append.mpr ?_)
      exact h.imp (·.1.1) And.right
    generalize Name.fresh z (b.freeVars ++ s.freeVars) = z' at hyz ⊢
    have hy : y ∈ ((b.subst z (var z')).subst x s).freeVars := by
      refine ih _ (size_subst_var ..) (h.imp ?_ ?_)
      · exact And.imp_left fun hy => ih b rfl (.inl hy)
      · exact And.imp_left fun hx => ih b rfl (.inl hx)
    simp only [freeVars, List.mem_filter, decide_eq_true_eq]
    exact ⟨hy, hyz⟩
  · rename_i hz
    have hyz : y ≠ z := h.elim (·.1.2) fun h hyz => hz (hyz ▸ h.2)
    simp only [freeVars, List.mem_filter, decide_eq_true_eq]
    exact ⟨ih b rfl (h.imp (.imp_left And.left) (.imp_left And.left)), hyz⟩

/-- The free variables of a term other than the replaced one stay free, and so do those of the
replacement where the replaced one is free. -/
theorem mem_freeVars_subst
    (h : y ∈ t.freeVars ∧ y ≠ x ∨ x ∈ t.freeVars ∧ y ∈ s.freeVars) :
    y ∈ (t.subst x s).freeVars := by
  induction t using inductUpToSize generalizing x y s with
  | var z =>
    simp only [freeVars, List.mem_singleton] at h
    rw [subst_var]
    rcases h with ⟨rfl, hyx⟩ | ⟨rfl, hs⟩
    · rw [if_neg hyx]
      exact List.mem_singleton_self y
    · rwa [if_pos rfl]
  | lam z T b ih => exact mem_freeVars_subst_lam T ih h
  | letIn z v b ihv ih =>
    obtain ⟨z', b', hlam, hletIn⟩ := exists_subst_binder x s v b z .bool
    have hb : y ∈ (lam z .bool b).freeVars ∧ y ≠ x ∨ x ∈ (lam z .bool b).freeVars ∧ y ∈ s.freeVars →
        y ∈ (lam z' .bool b').freeVars := hlam ▸ mem_freeVars_subst_lam .bool ih
    simp only [hletIn, freeVars, List.mem_append] at hb h ⊢
    rcases h with ⟨hv | hy, hyx⟩ | ⟨hv | hx, hs⟩
    · exact .inl (ihv (.inl ⟨hv, hyx⟩))
    · exact .inr (hb (.inl ⟨hy, hyx⟩))
    · exact .inl (ihv (.inr ⟨hv, hs⟩))
    · exact .inr (hb (.inr ⟨hx, hs⟩))
  | record fields ih =>
    simp only [subst_record, freeVars_record, List.flatMap_map, List.mem_flatMap] at h ⊢
    rcases h with ⟨⟨f, hf, hy⟩, hyx⟩ | ⟨⟨f, hf, hx⟩, hs⟩
    · exact ⟨f, hf, ih f hf (.inl ⟨hy, hyx⟩)⟩
    · exact ⟨f, hf, ih f hf (.inr ⟨hx, hs⟩)⟩
  | ite t u v iht ihu ihv =>
    simp only [subst_ite, freeVars, List.mem_append] at h ⊢
    rcases h with ⟨(ht | hu) | hv, hyx⟩ | ⟨(ht | hu) | hv, hs⟩
    · exact .inl (.inl (iht (.inl ⟨ht, hyx⟩)))
    · exact .inl (.inr (ihu (.inl ⟨hu, hyx⟩)))
    · exact .inr (ihv (.inl ⟨hv, hyx⟩))
    · exact .inl (.inl (iht (.inr ⟨ht, hs⟩)))
    · exact .inl (.inr (ihu (.inr ⟨hu, hs⟩)))
    · exact .inr (ihv (.inr ⟨hv, hs⟩))
  | app t u iht ihu | concat t u iht ihu | pair t u iht ihu | cons t u iht ihu =>
    simp only [subst_app, subst_concat, subst_pair, subst_cons, freeVars, List.mem_append] at h ⊢
    rcases h with ⟨ht | hu, hyx⟩ | ⟨ht | hu, hs⟩
    · exact .inl (iht (.inl ⟨ht, hyx⟩))
    · exact .inr (ihu (.inl ⟨hu, hyx⟩))
    · exact .inl (iht (.inr ⟨ht, hs⟩))
    · exact .inr (ihu (.inr ⟨hu, hs⟩))
  | succ t ih | pred t ih | isZero t ih | fix t ih | fst t ih | snd t ih | proj t _ ih | isNil t ih
  | head t ih | tail t ih => exact ih h
  | bool | zero | string | nil =>
    rcases h with ⟨hy, -⟩ | ⟨hx, -⟩
    · exact absurd hy List.not_mem_nil
    · exact absurd hx List.not_mem_nil

/-! ## Closed replacements -/

section Closed

variable (hs : s.IsClosed)

include hs

theorem not_mem_freeVars_of_isClosed : y ∉ s.freeVars := by
  rw [show s.freeVars = [] from hs]
  exact List.not_mem_nil

/-- A closed replacement renames no binder of a function. -/
theorem subst_lam_of_isClosed (T : Ty) :
    (lam y T t).subst x s = if y = x then lam y T t else lam y T (t.subst x s) := by
  rw [subst_lam, if_neg (not_mem_freeVars_of_isClosed hs)]

/-- A closed replacement renames no binder of a definition. -/
theorem subst_letIn_of_isClosed (v : Term) :
    (letIn y v t).subst x s =
      letIn y (v.subst x s) (if y = x then t else t.subst x s) := by
  rw [subst_letIn, if_neg (not_mem_freeVars_of_isClosed hs)]
  split <;> rfl

/-- A closed replacement takes away the occurrences of the variable and leaves the others. -/
theorem freeVars_subst_of_isClosed : (t.subst x s).freeVars = t.freeVars.filter (· ≠ x) := by
  induction t with
  | var z =>
    by_cases hz : z = x
    · rw [subst_var, if_pos hz, show s.freeVars = [] from hs]
      simp [freeVars, hz]
    · simp [freeVars, hz]
  | lam z T b ih =>
    rw [subst_lam_of_isClosed hs]
    split
    · rename_i hz
      simp [freeVars, hz]
    · simp only [freeVars, ih, List.filter_filter, Bool.and_comm]
  | letIn z v b ihv ih =>
    rw [subst_letIn_of_isClosed hs, freeVars, freeVars, List.filter_append, ihv]
    split
    · rename_i hz
      simp [hz]
    · simp only [ih, List.filter_filter, Bool.and_comm]
  | record fields ih =>
    rw [subst_record, freeVars_record, freeVars_record, List.flatMap_map, List.filter_flatMap]
    exact List.flatMap_congr fun f hf => ih f hf
  | _ => simp_all [freeVars]

/-- A variable that does not occur free is replaced by nothing. -/
theorem subst_of_not_mem_freeVars (hx : x ∉ t.freeVars) : t.subst x s = t := by
  induction t with
  | var z =>
    have hz : z ≠ x := fun hz => hx (by simp [freeVars, hz])
    simp [hz]
  | lam z T b ih =>
    rw [subst_lam_of_isClosed hs]
    split
    · rfl
    · rename_i hz
      rw [ih fun hb => hx (by simp [freeVars, hb, Ne.symm hz])]
  | letIn z v b ihv ih =>
    rw [subst_letIn_of_isClosed hs, ihv fun hv => hx (by simp [freeVars, hv])]
    split
    · rfl
    · rename_i hz
      rw [ih fun hb => hx (by simp [freeVars, hb, Ne.symm hz])]
  | record fields ih =>
    rw [subst_record]
    rw [freeVars_record, List.mem_flatMap] at hx
    have fixed : ∀ f ∈ fields, (f.1, f.2.subst x s) = f := fun f hf =>
      congrArg (f.1, ·) (ih f hf fun hfx => hx ⟨f, hf, hfx⟩)
    rw [List.map_congr_left fixed, List.map_id']
  | _ => simp_all [freeVars]

end Closed

end Term

end TypedLambda
