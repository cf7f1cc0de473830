import Mathlib.Data.List.Forall2
import TypedLambda.Proofs.Typing.Names
import TypedLambda.Typing.Basic

/-!
# When a term has a type

For each form of term, the condition under which inference succeeds with a given type, in terms of
the types of its parts. Inference never looks further, so these conditions are all that is needed to
take a typed term apart and to put one together.

## Main results

* `Term.typeOf_app_eq_ok_iff` and its companions: one condition for each form of term
* `Term.typeOf_record_eq_ok_iff`: a record has a type when its labels differ and its fields have
  types
-/

namespace TypedLambda

namespace Ty

variable {A B T : Ty}

@[simp] theorem expectNat_eq_ok_iff {operator : String} {u : Unit} :
    T.expectNat operator = .ok u ↔ T = nat :=
  TypeError.require_eq_ok_iff

@[simp] theorem expectArrow_eq_ok_iff {p : Ty × Ty} :
    T.expectArrow = .ok p ↔ T = arrow p.1 p.2 := by
  cases T <;> simp [expectArrow, Prod.ext_iff]

@[simp] theorem expectProd_eq_ok_iff {p : Ty × Ty} :
    T.expectProd = .ok p ↔ T = prod p.1 p.2 := by
  cases T <;> simp [expectProd, Prod.ext_iff]

@[simp] theorem expectRecord_eq_ok_iff {fields : List (String × Ty)} :
    T.expectRecord = .ok fields ↔ T = record fields := by
  cases T <;> simp [expectRecord]

@[simp] theorem expectList_eq_ok_iff : T.expectList = .ok A ↔ T = list A := by
  cases T <;> simp [expectList]

@[simp] theorem expectStrings_eq_ok_iff {u : Unit} :
    expectStrings A B = .ok u ↔ A = string ∧ B = string := by
  by_cases hA : A = string <;> by_cases hB : B = string <;> simp [expectStrings, hA, hB]

end Ty

namespace Term

open TypeError (bind_eq_ok_iff)

-- inference is opened in this module; the others use the conditions below
attribute [local simp] typeOf

variable {ctx : Context} {t u v : Term} {T : Ty} {x : String}

/-! ## Constants and variables -/

@[simp] theorem typeOf_bool (b : Bool) : (bool b).typeOf ctx = .ok .bool := rfl

@[simp] theorem typeOf_zero : zero.typeOf ctx = .ok .nat := rfl

@[simp] theorem typeOf_string (s : String) : (string s).typeOf ctx = .ok .string := rfl

theorem typeOf_var_eq_ok_iff : (var x).typeOf ctx = .ok T ↔ ctx.typeOf? x = some T := by
  rw [typeOf]
  split <;> simp_all

theorem typeOf_nil_eq_ok_iff {A : Ty} :
    (nil A).typeOf ctx = .ok T ↔ ∃ B, A.resolve ctx = .ok B ∧ T = .list B := by
  simp only [typeOf, bind_eq_ok_iff, TypeError.pure_eq_ok_iff]
  constructor
  · rintro ⟨B, hB, rfl⟩
    exact ⟨B, hB, rfl⟩
  · rintro ⟨B, hB, rfl⟩
    exact ⟨B, hB, rfl⟩

/-! ## Numbers and truth values -/

/-- An operator on numbers: its operand is a number, whatever the result. -/
theorem expectNat_bind_eq_ok_iff {operator : String} {A : Ty} :
    (do
      let B ← t.typeOf ctx
      B.expectNat operator
      pure A) = .ok T ↔ t.typeOf ctx = .ok .nat ∧ T = A := by
  simp only [bind_eq_ok_iff, Ty.expectNat_eq_ok_iff, TypeError.pure_eq_ok_iff]
  constructor
  · rintro ⟨_, ht, -, rfl, rfl⟩
    exact ⟨ht, rfl⟩
  · rintro ⟨ht, rfl⟩
    exact ⟨_, ht, (), rfl, rfl⟩

theorem typeOf_succ_eq_ok_iff :
    (succ t).typeOf ctx = .ok T ↔ t.typeOf ctx = .ok .nat ∧ T = .nat := by
  rw [typeOf]
  exact expectNat_bind_eq_ok_iff

theorem typeOf_pred_eq_ok_iff :
    (pred t).typeOf ctx = .ok T ↔ t.typeOf ctx = .ok .nat ∧ T = .nat := by
  rw [typeOf]
  exact expectNat_bind_eq_ok_iff

theorem typeOf_isZero_eq_ok_iff :
    (isZero t).typeOf ctx = .ok T ↔ t.typeOf ctx = .ok .nat ∧ T = .bool := by
  rw [typeOf]
  exact expectNat_bind_eq_ok_iff

theorem typeOf_ite_eq_ok_iff :
    (ite t u v).typeOf ctx = .ok T ↔
      t.typeOf ctx = .ok .bool ∧ u.typeOf ctx = .ok T ∧ v.typeOf ctx = .ok T := by
  simp only [typeOf, bind_eq_ok_iff, TypeError.require_eq_ok_iff, TypeError.pure_eq_ok_iff]
  constructor
  · rintro ⟨_, ht, -, rfl, _, hu, _, hv, -, rfl, rfl⟩
    exact ⟨ht, hu, hv⟩
  · rintro ⟨ht, hu, hv⟩
    exact ⟨_, ht, (), rfl, T, hu, T, hv, (), rfl, rfl⟩

/-! ## Functions and definitions -/

theorem typeOf_lam_eq_ok_iff {A : Ty} :
    (lam x A t).typeOf ctx = .ok T ↔
      ∃ B C, A.resolve ctx = .ok B ∧ t.typeOf (ctx.declare x B) = .ok C ∧ T = .arrow B C := by
  simp only [typeOf, bind_eq_ok_iff, TypeError.pure_eq_ok_iff]
  constructor
  · rintro ⟨B, hB, C, hC, rfl⟩
    exact ⟨B, C, hB, hC, rfl⟩
  · rintro ⟨B, C, hB, hC, rfl⟩
    exact ⟨B, hB, C, hC, rfl⟩

theorem typeOf_app_eq_ok_iff :
    (app t u).typeOf ctx = .ok T ↔
      ∃ A, t.typeOf ctx = .ok (.arrow A T) ∧ u.typeOf ctx = .ok A := by
  simp only [typeOf, bind_eq_ok_iff, Ty.expectArrow_eq_ok_iff, TypeError.require_eq_ok_iff,
    TypeError.pure_eq_ok_iff, Prod.exists]
  constructor
  · rintro ⟨_, ht, A, hu, _, _, rfl, -, rfl, rfl⟩
    exact ⟨A, ht, hu⟩
  · rintro ⟨A, ht, hu⟩
    exact ⟨_, ht, A, hu, A, T, rfl, (), rfl, rfl⟩

theorem typeOf_letIn_eq_ok_iff :
    (letIn x t u).typeOf ctx = .ok T ↔
      ∃ A, t.typeOf ctx = .ok A ∧ u.typeOf (ctx.declare x A) = .ok T := by
  simp only [typeOf, bind_eq_ok_iff]

theorem typeOf_fix_eq_ok_iff :
    (fix t).typeOf ctx = .ok T ↔ t.typeOf ctx = .ok (.arrow T T) := by
  simp only [typeOf, bind_eq_ok_iff, Ty.expectArrow_eq_ok_iff, TypeError.require_eq_ok_iff,
    TypeError.pure_eq_ok_iff, Prod.exists]
  constructor
  · rintro ⟨_, ht, _, _, rfl, -, rfl, rfl⟩
    exact ht
  · intro ht
    exact ⟨_, ht, T, T, rfl, (), rfl, rfl⟩

/-! ## Strings and pairs -/

theorem typeOf_concat_eq_ok_iff :
    (concat t u).typeOf ctx = .ok T ↔
      t.typeOf ctx = .ok .string ∧ u.typeOf ctx = .ok .string ∧ T = .string := by
  simp only [typeOf, bind_eq_ok_iff, Ty.expectStrings_eq_ok_iff, TypeError.pure_eq_ok_iff]
  constructor
  · rintro ⟨_, ht, _, hu, -, ⟨rfl, rfl⟩, rfl⟩
    exact ⟨ht, hu, rfl⟩
  · rintro ⟨ht, hu, rfl⟩
    exact ⟨_, ht, _, hu, (), ⟨rfl, rfl⟩, rfl⟩

theorem typeOf_pair_eq_ok_iff :
    (pair t u).typeOf ctx = .ok T ↔
      ∃ A B, t.typeOf ctx = .ok A ∧ u.typeOf ctx = .ok B ∧ T = .prod A B := by
  simp only [typeOf, bind_eq_ok_iff, TypeError.pure_eq_ok_iff]
  constructor
  · rintro ⟨A, ht, B, hu, rfl⟩
    exact ⟨A, B, ht, hu, rfl⟩
  · rintro ⟨A, B, ht, hu, rfl⟩
    exact ⟨A, ht, B, hu, rfl⟩

theorem typeOf_fst_eq_ok_iff :
    (fst t).typeOf ctx = .ok T ↔ ∃ B, t.typeOf ctx = .ok (.prod T B) := by
  simp only [typeOf, bind_eq_ok_iff, Ty.expectProd_eq_ok_iff, TypeError.pure_eq_ok_iff, Prod.exists]
  constructor
  · rintro ⟨_, ht, _, B, rfl, rfl⟩
    exact ⟨B, ht⟩
  · rintro ⟨B, ht⟩
    exact ⟨_, ht, T, B, rfl, rfl⟩

theorem typeOf_snd_eq_ok_iff :
    (snd t).typeOf ctx = .ok T ↔ ∃ A, t.typeOf ctx = .ok (.prod A T) := by
  simp only [typeOf, bind_eq_ok_iff, Ty.expectProd_eq_ok_iff, TypeError.pure_eq_ok_iff, Prod.exists]
  constructor
  · rintro ⟨_, ht, A, _, rfl, rfl⟩
    exact ⟨A, ht⟩
  · rintro ⟨A, ht⟩
    exact ⟨_, ht, A, T, rfl, rfl⟩

/-! ## Records -/

/-- Fields have types when their labels are new and differ, and each has the type of its place. -/
theorem typeOfFields_eq_ok_iff {seen : List String} {fields : List (String × Term)}
    {types : List (String × Ty)} :
    typeOfFields ctx seen fields = .ok types ↔
      (fields.map Prod.fst).Nodup ∧ (∀ f ∈ fields, f.1 ∉ seen) ∧
        List.Forall₂ (fun f g => f.1 = g.1 ∧ f.2.typeOf ctx = .ok g.2) fields types := by
  induction fields generalizing seen types with
  | nil =>
    simp only [typeOfFields, TypeError.pure_eq_ok_iff, List.map_nil, List.nodup_nil,
      List.forall₂_nil_left_iff, true_and]
    exact ⟨fun h => ⟨fun f hf => absurd hf List.not_mem_nil, h.symm⟩, fun h => h.2.symm⟩
  | cons f fields ih =>
    simp only [typeOfFields, bind_eq_ok_iff, TypeError.require_eq_ok_iff, TypeError.pure_eq_ok_iff,
      ih, List.map_cons, List.nodup_cons, List.forall_mem_cons, List.forall₂_cons_left_iff]
    constructor
    · rintro ⟨-, hseen, A, hA, rest, ⟨hnodup, hnew, hrest⟩, rfl⟩
      refine ⟨⟨fun hf => ?_, hnodup⟩, ⟨hseen, fun g hg hs => ?_⟩, (f.1, A), rest, ⟨rfl, hA⟩, hrest,
        rfl⟩
      · obtain ⟨g, hg, hgf⟩ := List.mem_map.mp hf
        exact hnew g hg (hgf ▸ List.mem_cons_self)
      · exact hnew g hg (List.mem_cons_of_mem _ hs)
    · rintro ⟨⟨hf, hnodup⟩, ⟨hseen, hnew⟩, ⟨l, A⟩, rest, ⟨rfl, hA⟩, hrest, rfl⟩
      refine ⟨(), hseen, A, hA, rest, ⟨hnodup, fun g hg hs => ?_, hrest⟩, rfl⟩
      rcases List.mem_cons.mp hs with hgf | hs
      · exact hf (hgf ▸ List.mem_map_of_mem hg)
      · exact hnew g hg hs

/-- A record has a type when its labels differ and its fields have types. -/
theorem typeOf_record_eq_ok_iff {fields : List (String × Term)} :
    (record fields).typeOf ctx = .ok T ↔
      (fields.map Prod.fst).Nodup ∧ ∃ types, T = .record types ∧
        List.Forall₂ (fun f g => f.1 = g.1 ∧ f.2.typeOf ctx = .ok g.2) fields types := by
  simp only [typeOf, bind_eq_ok_iff, typeOfFields_eq_ok_iff, TypeError.pure_eq_ok_iff]
  constructor
  · rintro ⟨types, ⟨hnodup, -, htypes⟩, rfl⟩
    exact ⟨hnodup, types, rfl, htypes⟩
  · rintro ⟨hnodup, types, rfl, htypes⟩
    exact ⟨types, ⟨hnodup, fun _ _ => List.not_mem_nil, htypes⟩, rfl⟩

theorem typeOf_proj_eq_ok_iff {label : String} :
    (proj t label).typeOf ctx = .ok T ↔
      ∃ types, t.typeOf ctx = .ok (.record types) ∧ types.lookup label = some T := by
  simp only [typeOf, bind_eq_ok_iff, Ty.expectRecord_eq_ok_iff]
  constructor
  · rintro ⟨_, ht, types, rfl, h⟩
    refine ⟨types, ht, ?_⟩
    split at h <;> simp_all
  · rintro ⟨types, ht, h⟩
    exact ⟨_, ht, types, rfl, by simp [h]⟩

/-! ## Lists -/

theorem typeOf_cons_eq_ok_iff :
    (cons t u).typeOf ctx = .ok T ↔
      ∃ A, t.typeOf ctx = .ok A ∧ u.typeOf ctx = .ok (.list A) ∧ T = .list A := by
  simp only [typeOf, bind_eq_ok_iff, Ty.expectList_eq_ok_iff, TypeError.require_eq_ok_iff,
    TypeError.pure_eq_ok_iff]
  constructor
  · rintro ⟨_, hu, A, rfl, _, ht, -, rfl, rfl⟩
    exact ⟨_, ht, hu, rfl⟩
  · rintro ⟨A, ht, hu, rfl⟩
    exact ⟨_, hu, A, rfl, A, ht, (), rfl, rfl⟩

theorem typeOf_isNil_eq_ok_iff :
    (isNil t).typeOf ctx = .ok T ↔ (∃ A, t.typeOf ctx = .ok (.list A)) ∧ T = .bool := by
  simp only [typeOf, bind_eq_ok_iff, Ty.expectList_eq_ok_iff, TypeError.pure_eq_ok_iff]
  constructor
  · rintro ⟨_, ht, A, rfl, rfl⟩
    exact ⟨⟨A, ht⟩, rfl⟩
  · rintro ⟨⟨A, ht⟩, rfl⟩
    exact ⟨_, ht, A, rfl, rfl⟩

theorem typeOf_head_eq_ok_iff :
    (head t).typeOf ctx = .ok T ↔ t.typeOf ctx = .ok (.list T) := by
  simp only [typeOf, bind_eq_ok_iff, Ty.expectList_eq_ok_iff]
  constructor
  · rintro ⟨_, ht, rfl⟩
    exact ht
  · intro ht
    exact ⟨_, ht, rfl⟩

theorem typeOf_tail_eq_ok_iff :
    (tail t).typeOf ctx = .ok T ↔ ∃ A, t.typeOf ctx = .ok (.list A) ∧ T = .list A := by
  simp only [typeOf, bind_eq_ok_iff, Ty.expectList_eq_ok_iff, TypeError.pure_eq_ok_iff]
  constructor
  · rintro ⟨_, ht, A, rfl, rfl⟩
    exact ⟨A, ht, rfl⟩
  · rintro ⟨A, ht, rfl⟩
    exact ⟨_, ht, A, rfl, rfl⟩

end Term

end TypedLambda
