import TypedLambda.Proofs.Typing.Agreement

/-!
# Resolving annotations before inference

Names of types in the annotations of a term may be resolved in two places: beforehand, by a pass
over the whole term, or by inference where it meets them, behind all the binders around them. Where
names stand for types without names, both resolve each annotation to the same type. So inference
gives a term with resolved annotations what it gives the term itself, in the same place and in every
other where the variables are the same: what the names stand for does not matter any more.

## Main results

* `Term.resolveTypes_of_isPlain`: a term without names of types stays as it is
* `Term.typeOf_of_resolveTypes`: resolved annotations do not change the type, or the error
* `Term.exists_resolveTypes_of_typeOf`: the annotations of a term with a type can be resolved
* `Term.typeOf_eq_ok_iff_resolveTypes`: resolving beforehand and resolving on the way agree
-/

namespace TypedLambda

namespace Term

open TypeError (bind_eq_ok_iff pure_eq_ok_iff)

variable {ctx ctx' : Context}

/-! ## Terms without names of types -/

theorem resolveTypesFields_of_isPlain {fields : List (String × Term)}
    (h : ∀ f ∈ fields, f.2.resolveTypes ctx = .ok f.2) :
    resolveTypesFields ctx fields = .ok fields := by
  induction fields with
  | nil => rfl
  | cons f fields ih =>
    rw [resolveTypesFields, h f List.mem_cons_self, ih fun g hg => h g (List.mem_cons_of_mem _ hg)]
    rfl

/-- A term without names of types stays as it is, whatever names stand for. -/
theorem resolveTypes_of_isPlain (ctx : Context) {t : Term} (h : t.IsPlain) :
    t.resolveTypes ctx = .ok t := by
  induction t with
  | bool | zero | var | string => rfl
  | nil T =>
    rw [resolveTypes, Ty.resolve_of_isPlain ctx h]
    rfl
  | lam x T t ih =>
    obtain ⟨hT, ht⟩ := List.append_eq_nil_iff.mp h
    rw [resolveTypes, Ty.resolve_of_isPlain ctx hT, ih ht]
    rfl
  | record fields ih =>
    rw [IsPlain, typeNames_record, List.flatMap_eq_nil_iff] at h
    rw [resolveTypes, resolveTypesFields_of_isPlain fun f hf => ih f hf (h f hf)]
    rfl
  | ite t u v iht ihu ihv =>
    obtain ⟨htu, hv⟩ := List.append_eq_nil_iff.mp h
    obtain ⟨ht, hu⟩ := List.append_eq_nil_iff.mp htu
    rw [resolveTypes, iht ht, ihu hu, ihv hv]
    rfl
  | app t u iht ihu | letIn x t u iht ihu | concat t u iht ihu | pair t u iht ihu
  | cons t u iht ihu =>
    obtain ⟨ht, hu⟩ := List.append_eq_nil_iff.mp h
    rw [resolveTypes, iht ht, ihu hu]
    rfl
  | succ t ih | pred t ih | isZero t ih | fix t ih | fst t ih | snd t ih | proj t label ih
  | isNil t ih | head t ih | tail t ih =>
    rw [resolveTypes, ih h]
    rfl

/-- The type of a term without names of types, or its error, depends on the variables only. -/
theorem typeOf_congr_of_isPlain {t : Term} (h : t.IsPlain) (hterms : ctx.terms = ctx'.terms) :
    t.typeOf ctx = t.typeOf ctx' := by
  refine typeOf_congr (fun x _ => ?_) fun name hname => ?_
  · rw [Context.typeOf?, Context.typeOf?, hterms]
  · rw [show t.typeNames = [] from h] at hname
    cases hname

/-! ## Inference with resolved annotations -/

theorem forall₂_typeOf_of_resolveTypesFields {fields gs : List (String × Term)}
    (ih : ∀ f ∈ fields, ∀ u, f.2.resolveTypes ctx = .ok u → u.typeOf ctx' = f.2.typeOf ctx')
    (h : resolveTypesFields ctx fields = .ok gs) :
    List.Forall₂ (fun g f => g.1 = f.1 ∧ g.2.typeOf ctx' = f.2.typeOf ctx') gs fields := by
  induction fields generalizing gs with
  | nil =>
    obtain rfl := pure_eq_ok_iff.mp h
    exact .nil
  | cons f fields ihf =>
    simp only [resolveTypesFields, bind_eq_ok_iff, pure_eq_ok_iff] at h
    obtain ⟨u, hu, rest, hrest, rfl⟩ := h
    exact .cons ⟨rfl, ih f List.mem_cons_self u hu⟩
      (ihf (fun g hg => ih g (List.mem_cons_of_mem _ hg)) hrest)

section Resolved

variable (hctx : ∀ name A, ctx.abbreviated? name = some A → A.IsPlain)
include hctx

/-- A type and the one for which it stands are the same where names stand for the same. -/
theorem resolve_of_resolve (htypes : ctx'.types = ctx.types) {A B : Ty}
    (h : A.resolve ctx = .ok B) : B.resolve ctx' = A.resolve ctx' := by
  have hA : A.resolve ctx' = A.resolve ctx := Ty.resolve_congr fun name _ => by
    rw [Context.abbreviated?, Context.abbreviated?, htypes]
  rw [hA, h, Ty.resolve_of_isPlain ctx' (Ty.isPlain_of_resolve hctx h)]

/-- A term with resolved annotations has the type that the term itself has, or is in error for the
same reason. -/
theorem typeOf_of_resolveTypes {t u : Term} (htypes : ctx'.types = ctx.types)
    (h : t.resolveTypes ctx = .ok u) : u.typeOf ctx' = t.typeOf ctx' := by
  induction t generalizing u ctx' with
  | bool | zero | var | string =>
    obtain rfl := pure_eq_ok_iff.mp h
    rfl
  | nil A =>
    simp only [resolveTypes, bind_eq_ok_iff, pure_eq_ok_iff] at h
    obtain ⟨B, hB, rfl⟩ := h
    rw [typeOf, typeOf, resolve_of_resolve hctx htypes hB]
  | lam x A t ih =>
    simp only [resolveTypes, bind_eq_ok_iff, pure_eq_ok_iff] at h
    obtain ⟨B, hB, t', ht, rfl⟩ := h
    have ht (C : Ty) : t'.typeOf (ctx'.declare x C) = t.typeOf (ctx'.declare x C) := ih htypes ht
    simp only [typeOf, resolve_of_resolve hctx htypes hB, ht]
  | letIn x t u iht ihu =>
    simp only [resolveTypes, bind_eq_ok_iff, pure_eq_ok_iff] at h
    obtain ⟨t', ht, u', hu, rfl⟩ := h
    have hu (A : Ty) : u'.typeOf (ctx'.declare x A) = u.typeOf (ctx'.declare x A) := ihu htypes hu
    simp only [typeOf, iht htypes ht, hu]
  | record fields ih =>
    simp only [resolveTypes, bind_eq_ok_iff, pure_eq_ok_iff] at h
    obtain ⟨gs, hgs, rfl⟩ := h
    have hfields := forall₂_typeOf_of_resolveTypesFields (fun f hf u => ih f hf htypes) hgs
    simp only [typeOf, typeOfFields_congr hfields]
  | ite t u v iht ihu ihv =>
    simp only [resolveTypes, bind_eq_ok_iff, pure_eq_ok_iff] at h
    obtain ⟨t', ht, u', hu, v', hv, rfl⟩ := h
    simp only [typeOf, iht htypes ht, ihu htypes hu, ihv htypes hv]
  | app t u iht ihu | concat t u iht ihu | pair t u iht ihu | cons t u iht ihu =>
    simp only [resolveTypes, bind_eq_ok_iff, pure_eq_ok_iff] at h
    obtain ⟨t', ht, u', hu, rfl⟩ := h
    simp only [typeOf, iht htypes ht, ihu htypes hu]
  | succ t ih | pred t ih | isZero t ih | fix t ih | fst t ih | snd t ih | proj t label ih
  | isNil t ih | head t ih | tail t ih =>
    simp only [resolveTypes, bind_eq_ok_iff, pure_eq_ok_iff] at h
    obtain ⟨t', ht, rfl⟩ := h
    simp only [typeOf, ih htypes ht]

end Resolved

/-! ## Resolution of terms with a type -/

theorem resolveTypes_declare (ctx : Context) (x : String) (A : Ty) (t : Term) :
    t.resolveTypes (ctx.declare x A) = t.resolveTypes ctx :=
  resolveTypes_congr fun _ _ => rfl

theorem exists_resolveTypesFields {fields : List (String × Term)}
    (h : ∀ f ∈ fields, ∃ u, f.2.resolveTypes ctx = .ok u) :
    ∃ gs, resolveTypesFields ctx fields = .ok gs := by
  induction fields with
  | nil => exact ⟨[], rfl⟩
  | cons f fields ih =>
    obtain ⟨u, hu⟩ := h f List.mem_cons_self
    obtain ⟨gs, hgs⟩ := ih fun g hg => h g (List.mem_cons_of_mem _ hg)
    rw [resolveTypesFields, hu, hgs]
    exact ⟨_, rfl⟩

/-- The annotations of a term that has a type can be resolved. -/
theorem exists_resolveTypes_of_typeOf {t : Term} {T : Ty} (h : t.typeOf ctx = .ok T) :
    ∃ u, t.resolveTypes ctx = .ok u := by
  induction t generalizing ctx T with
  | bool | zero | var | string => exact ⟨_, rfl⟩
  | nil A =>
    obtain ⟨B, hB, -⟩ := typeOf_nil_eq_ok_iff.mp h
    rw [resolveTypes, hB]
    exact ⟨_, rfl⟩
  | lam x A t ih =>
    obtain ⟨B, C, hB, ht, -⟩ := typeOf_lam_eq_ok_iff.mp h
    obtain ⟨u, hu⟩ := ih ht
    rw [resolveTypes_declare] at hu
    rw [resolveTypes, hB, hu]
    exact ⟨_, rfl⟩
  | letIn x t₁ t₂ ih₁ ih₂ =>
    obtain ⟨A, h₁, h₂⟩ := typeOf_letIn_eq_ok_iff.mp h
    obtain ⟨u₁, hu₁⟩ := ih₁ h₁
    obtain ⟨u₂, hu₂⟩ := ih₂ h₂
    rw [resolveTypes_declare] at hu₂
    rw [resolveTypes, hu₁, hu₂]
    exact ⟨_, rfl⟩
  | record fields ih =>
    obtain ⟨-, types, -, htypes⟩ := typeOf_record_eq_ok_iff.mp h
    obtain ⟨gs, hgs⟩ := exists_resolveTypesFields fun f hf => by
      obtain ⟨g, -, -, hg⟩ := exists_mem_of_forall₂ htypes.flip hf
      exact ih f hf hg
    rw [resolveTypes, hgs]
    exact ⟨_, rfl⟩
  | ite t₁ t₂ t₃ ih₁ ih₂ ih₃ =>
    obtain ⟨h₁, h₂, h₃⟩ := typeOf_ite_eq_ok_iff.mp h
    obtain ⟨u₁, hu₁⟩ := ih₁ h₁
    obtain ⟨u₂, hu₂⟩ := ih₂ h₂
    obtain ⟨u₃, hu₃⟩ := ih₃ h₃
    rw [resolveTypes, hu₁, hu₂, hu₃]
    exact ⟨_, rfl⟩
  | cons t₁ t₂ ih₁ ih₂ =>
    obtain ⟨A, h₁, h₂, -⟩ := typeOf_cons_eq_ok_iff.mp h
    obtain ⟨u₁, hu₁⟩ := ih₁ h₁
    obtain ⟨u₂, hu₂⟩ := ih₂ h₂
    rw [resolveTypes, hu₁, hu₂]
    exact ⟨_, rfl⟩
  | app t₁ t₂ ih₁ ih₂ | concat t₁ t₂ ih₁ ih₂ | pair t₁ t₂ ih₁ ih₂ =>
    simp only [typeOf, bind_eq_ok_iff] at h
    obtain ⟨A, h₁, B, h₂, -⟩ := h
    obtain ⟨u₁, hu₁⟩ := ih₁ h₁
    obtain ⟨u₂, hu₂⟩ := ih₂ h₂
    rw [resolveTypes, hu₁, hu₂]
    exact ⟨_, rfl⟩
  | succ t ih | pred t ih | isZero t ih | fix t ih | fst t ih | snd t ih | proj t label ih
  | isNil t ih | head t ih | tail t ih =>
    rw [typeOf, bind_eq_ok_iff] at h
    obtain ⟨A, ht, -⟩ := h
    obtain ⟨u, hu⟩ := ih ht
    rw [resolveTypes, hu]
    exact ⟨_, rfl⟩

/-! ## Resolving beforehand -/

/-- **Annotations may be resolved first**: where names stand for types without names, a term has a
type exactly when its annotations can be resolved and the term with resolved annotations has this
type. That term has the same free variables and no names of types left; so resolving it once more
does nothing in any context, and its type, or its error, is the same in all contexts with the same
variables, whatever names stand for in them. -/
theorem typeOf_eq_ok_iff_resolveTypes
    (hctx : ∀ name A, ctx.abbreviated? name = some A → A.IsPlain) (t : Term) :
    (∀ T, t.typeOf ctx = .ok T ↔ ∃ u, t.resolveTypes ctx = .ok u ∧ u.typeOf ctx = .ok T) ∧
      ∀ u, t.resolveTypes ctx = .ok u →
        u.IsPlain ∧ u.freeVars = t.freeVars ∧ (∀ ctx', u.resolveTypes ctx' = .ok u) ∧
          ∀ ctx₁ ctx₂ : Context, ctx₁.terms = ctx₂.terms → u.typeOf ctx₁ = u.typeOf ctx₂ := by
  refine ⟨fun T => ⟨fun h => ?_, ?_⟩, fun u hu => ?_⟩
  · obtain ⟨u, hu⟩ := exists_resolveTypes_of_typeOf h
    exact ⟨u, hu, (typeOf_of_resolveTypes hctx rfl hu).trans h⟩
  · rintro ⟨u, hu, h⟩
    exact (typeOf_of_resolveTypes hctx rfl hu).symm.trans h
  · have hplain := isPlain_of_resolveTypes hctx hu
    exact ⟨hplain, (names_of_resolveTypes hu).1, fun ctx' => resolveTypes_of_isPlain ctx' hplain,
      fun _ _ => typeOf_congr_of_isPlain hplain⟩

/-- `P` stands for the numbers, and before that it stood for the truth values. Where it stands for
the strings later, the term itself has no type any more, but with resolved annotations it does. -/
theorem typeOf_eq_ok_iff_resolveTypes_abbreviate :
    let ctx := ((({} : Context).declare "y" .nat).abbreviate "P" .bool).abbreviate "P" .nat
    let later := ctx.abbreviate "P" .string
    let t := lam "x" (.named "P") (cons (var "y") (cons (var "x") (nil (.named "P"))))
    let u := lam "x" .nat (cons (var "y") (cons (var "x") (nil .nat)))
    (∀ name A, ctx.abbreviated? name = some A → A.IsPlain) ∧ t.resolveTypes ctx = .ok u ∧
      t.typeOf ctx = .ok (.arrow .nat (.list .nat)) ∧ u.IsPlain ∧ u.freeVars = t.freeVars ∧
      u.resolveTypes later = .ok u ∧ u.typeOf later = .ok (.arrow .nat (.list .nat)) ∧
      t.typeOf later = .error .headMismatch := by
  intro ctx later t u
  have hplain : ∀ entry ∈ ctx.types.entries, entry.2.IsPlain := by decide
  have hctx : ∀ name A, ctx.abbreviated? name = some A → A.IsPlain := fun name A h =>
    hplain (name, A) (mem_of_lookup h)
  have hu : t.resolveTypes ctx = .ok u := by decide
  have hT : t.typeOf ctx = .ok (.arrow .nat (.list .nat)) := by decide
  obtain ⟨hiff, hresolved⟩ := typeOf_eq_ok_iff_resolveTypes hctx t
  obtain ⟨hplain, hvars, hagain, hsame⟩ := hresolved u hu
  obtain ⟨u', hu', huT⟩ := (hiff _).mp hT
  obtain rfl := Except.ok.inj (hu.symm.trans hu')
  exact ⟨hctx, hu, hT, hplain, hvars, hagain later, (hsame later ctx rfl).trans huT, by decide⟩

end Term

end TypedLambda
