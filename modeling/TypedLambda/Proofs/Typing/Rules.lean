import TypedLambda.Proofs.Typing.Inversion

/-!
# The typing rules

The type system of the language, as rules from which it can be derived that a term has a type in a
context. The rules say which types go together, not in which order the parts of a term are looked
at; a name in a context and a label of a record type are looked up at their first entry. Inference
decides these rules: it gives the one type that can be derived, and an error if there is none.

## Main definitions

* `IsFirst`: what the first entry of a name holds
* `Ty.StandsFor`: a type with the names in it replaced by what they stand for
* `Term.HasType`: the typing rules, one for each form of term

## Main results

* `Ty.StandsFor.resolve_eq`, `Ty.standsFor_of_resolve`: resolution finds the type for which a type
  stands
* `Term.HasType.typeOf_eq`, `Term.hasType_of_typeOf`: inference finds the derivable types, and no
  others
* `Term.typeOf_decides`: inference decides the rules
-/

namespace TypedLambda

/-! ## Entries -/

/-- The first entry of the name holds `a`; entries of other names may come before it. -/
inductive IsFirst {α : Type} : (entries : List (String × α)) → (name : String) → (a : α) → Prop
  | here (entries : List (String × α)) (name : String) (a : α) :
      IsFirst ((name, a) :: entries) name a
  | behind {entries : List (String × α)} {name other : String} {a : α} (b : α) (hne : name ≠ other)
      (h : IsFirst entries name a) : IsFirst ((other, b) :: entries) name a

theorem isFirst_iff {α : Type} {entries : List (String × α)} {name : String} {a : α} :
    IsFirst entries name a ↔ entries.lookup name = some a := by
  constructor
  · intro h
    induction h with
    | here => rw [List.lookup_cons, beq_self_eq_true]
    | behind _ hne _ ih => rw [List.lookup_cons, beq_eq_false_iff_ne.mpr hne, ih]
  · intro h
    induction entries with
    | nil => cases h
    | cons entry entries ih =>
      obtain ⟨other, b⟩ := entry
      rw [List.lookup_cons] at h
      by_cases hne : name = other
      · subst hne
        rw [beq_self_eq_true] at h
        obtain rfl := Option.some.inj h
        exact .here entries name b
      · rw [beq_eq_false_iff_ne.mpr hne] at h
        exact .behind b hne (ih h)

namespace Ty

/-! ## Names of types -/

mutual

/-- The second type is the first with all names replaced by the types for which they stand. -/
inductive StandsFor (ctx : Context) : (A B : Ty) → Prop
  | bool : StandsFor ctx bool bool
  | nat : StandsFor ctx nat nat
  | string : StandsFor ctx string string
  | arrow {A B A' B' : Ty} (hA : StandsFor ctx A A') (hB : StandsFor ctx B B') :
      StandsFor ctx (arrow A B) (arrow A' B')
  | prod {A B A' B' : Ty} (hA : StandsFor ctx A A') (hB : StandsFor ctx B B') :
      StandsFor ctx (prod A B) (prod A' B')
  | record {fields fields' : List (String × Ty)} (h : FieldsStandFor ctx fields fields') :
      StandsFor ctx (record fields) (record fields')
  | list {A A' : Ty} (h : StandsFor ctx A A') : StandsFor ctx (list A) (list A')
  | named {name : String} {A : Ty} (h : IsFirst ctx.types.entries name A) :
      StandsFor ctx (named name) A

/-- The second fields are the first with all names replaced by the types for which they stand. -/
inductive FieldsStandFor (ctx : Context) : (fields fields' : List (String × Ty)) → Prop
  | nil : FieldsStandFor ctx [] []
  | cons (label : String) {A A' : Ty} {fields fields' : List (String × Ty)}
      (hA : StandsFor ctx A A') (h : FieldsStandFor ctx fields fields') :
      FieldsStandFor ctx ((label, A) :: fields) ((label, A') :: fields')

end

open TypeError (bind_eq_ok_iff pure_eq_ok_iff)

variable {ctx : Context}

mutual

/-- Resolution finds the type for which a type stands. -/
theorem StandsFor.resolve_eq {A B : Ty} : A.StandsFor ctx B → A.resolve ctx = .ok B
  | .bool | .nat | .string => rfl
  | .arrow hA hB | .prod hA hB => by
    rw [resolve, hA.resolve_eq, hB.resolve_eq]
    rfl
  | .record h => by
    rw [resolve, h.resolveFields_eq]
    rfl
  | .list h => by
    rw [resolve, h.resolve_eq]
    rfl
  | .named h => by rw [resolve, Context.abbreviated?, Scope.get?, isFirst_iff.mp h]; rfl

theorem FieldsStandFor.resolveFields_eq {fields fields' : List (String × Ty)} :
    FieldsStandFor ctx fields fields' → resolveFields ctx fields = .ok fields'
  | .nil => rfl
  | .cons label hA h => by
    rw [resolveFields, hA.resolve_eq, h.resolveFields_eq]
    rfl

end

theorem fieldsStandFor_of_resolveFields {fields fields' : List (String × Ty)}
    (ih : ∀ f ∈ fields, ∀ B, f.2.resolve ctx = .ok B → f.2.StandsFor ctx B)
    (h : resolveFields ctx fields = .ok fields') : FieldsStandFor ctx fields fields' := by
  induction fields generalizing fields' with
  | nil =>
    obtain rfl := pure_eq_ok_iff.mp h
    exact .nil
  | cons f fields ihf =>
    simp only [resolveFields, bind_eq_ok_iff, pure_eq_ok_iff] at h
    obtain ⟨B, hB, rest, hrest, rfl⟩ := h
    exact .cons f.1 (ih f List.mem_cons_self B hB)
      (ihf (fun g hg => ih g (List.mem_cons_of_mem _ hg)) hrest)

/-- A type stands for what resolution finds. -/
theorem standsFor_of_resolve {A B : Ty} (h : A.resolve ctx = .ok B) : A.StandsFor ctx B := by
  induction A generalizing B with
  | bool | nat | string =>
    obtain rfl := pure_eq_ok_iff.mp h
    constructor
  | arrow A₁ A₂ ih₁ ih₂ =>
    simp only [resolve, bind_eq_ok_iff, pure_eq_ok_iff] at h
    obtain ⟨B₁, h₁, B₂, h₂, rfl⟩ := h
    exact .arrow (ih₁ h₁) (ih₂ h₂)
  | prod A₁ A₂ ih₁ ih₂ =>
    simp only [resolve, bind_eq_ok_iff, pure_eq_ok_iff] at h
    obtain ⟨B₁, h₁, B₂, h₂, rfl⟩ := h
    exact .prod (ih₁ h₁) (ih₂ h₂)
  | record fields ih =>
    simp only [resolve, bind_eq_ok_iff, pure_eq_ok_iff] at h
    obtain ⟨fields', hfields, rfl⟩ := h
    exact .record (fieldsStandFor_of_resolveFields (fun f hf B => ih f hf) hfields)
  | list A ih =>
    simp only [resolve, bind_eq_ok_iff, pure_eq_ok_iff] at h
    obtain ⟨B, hB, rfl⟩ := h
    exact .list (ih hB)
  | named name =>
    rw [resolve] at h
    split at h
    · rename_i A hA
      obtain rfl := pure_eq_ok_iff.mp h
      exact .named (isFirst_iff.mpr hA)
    · cases h

end Ty

namespace Term

/-! ## Typing rules -/

mutual

/-- The term has the type in the context. -/
inductive HasType : Context → Term → Ty → Prop
  | bool (ctx : Context) (b : Bool) : HasType ctx (bool b) .bool
  | zero (ctx : Context) : HasType ctx zero .nat
  | string (ctx : Context) (s : String) : HasType ctx (string s) .string
  | succ {ctx : Context} {t : Term} (h : HasType ctx t .nat) : HasType ctx (succ t) .nat
  | pred {ctx : Context} {t : Term} (h : HasType ctx t .nat) : HasType ctx (pred t) .nat
  | isZero {ctx : Context} {t : Term} (h : HasType ctx t .nat) : HasType ctx (isZero t) .bool
  | ite {ctx : Context} {t u v : Term} {T : Ty} (ht : HasType ctx t .bool) (hu : HasType ctx u T)
      (hv : HasType ctx v T) : HasType ctx (ite t u v) T
  | var {ctx : Context} {x : String} {b : Binding} (h : IsFirst ctx.terms.entries x b) :
      HasType ctx (var x) b.ty
  | lam {ctx : Context} {x : String} {t : Term} {A B C : Ty} (hA : A.StandsFor ctx B)
      (h : HasType (ctx.declare x B) t C) : HasType ctx (lam x A t) (.arrow B C)
  | app {ctx : Context} {t u : Term} {A B : Ty} (ht : HasType ctx t (.arrow A B))
      (hu : HasType ctx u A) : HasType ctx (app t u) B
  | letIn {ctx : Context} {x : String} {t u : Term} {A B : Ty} (ht : HasType ctx t A)
      (hu : HasType (ctx.declare x A) u B) : HasType ctx (letIn x t u) B
  | fix {ctx : Context} {t : Term} {T : Ty} (h : HasType ctx t (.arrow T T)) : HasType ctx (fix t) T
  | concat {ctx : Context} {t u : Term} (ht : HasType ctx t .string) (hu : HasType ctx u .string) :
      HasType ctx (concat t u) .string
  | pair {ctx : Context} {t u : Term} {A B : Ty} (ht : HasType ctx t A) (hu : HasType ctx u B) :
      HasType ctx (pair t u) (.prod A B)
  | fst {ctx : Context} {t : Term} {A B : Ty} (h : HasType ctx t (.prod A B)) :
      HasType ctx (fst t) A
  | snd {ctx : Context} {t : Term} {A B : Ty} (h : HasType ctx t (.prod A B)) :
      HasType ctx (snd t) B
  | record {ctx : Context} {fields : List (String × Term)} {types : List (String × Ty)}
      (hlabels : (fields.map Prod.fst).Nodup) (h : FieldsHaveTypes ctx fields types) :
      HasType ctx (record fields) (.record types)
  | proj {ctx : Context} {t : Term} {types : List (String × Ty)} {label : String} {T : Ty}
      (ht : HasType ctx t (.record types)) (h : IsFirst types label T) :
      HasType ctx (proj t label) T
  | nil {ctx : Context} {A B : Ty} (hA : A.StandsFor ctx B) : HasType ctx (nil A) (.list B)
  | cons {ctx : Context} {t u : Term} {A : Ty} (ht : HasType ctx t A)
      (hu : HasType ctx u (.list A)) : HasType ctx (cons t u) (.list A)
  | isNil {ctx : Context} {t : Term} {A : Ty} (h : HasType ctx t (.list A)) :
      HasType ctx (isNil t) .bool
  | head {ctx : Context} {t : Term} {A : Ty} (h : HasType ctx t (.list A)) : HasType ctx (head t) A
  | tail {ctx : Context} {t : Term} {A : Ty} (h : HasType ctx t (.list A)) :
      HasType ctx (tail t) (.list A)

/-- Each field has the type of its label and its place. -/
inductive FieldsHaveTypes : Context → List (String × Term) → List (String × Ty) → Prop
  | nil (ctx : Context) : FieldsHaveTypes ctx [] []
  | cons {ctx : Context} (label : String) {t : Term} {A : Ty} {fields : List (String × Term)}
      {types : List (String × Ty)} (ht : HasType ctx t A) (h : FieldsHaveTypes ctx fields types) :
      FieldsHaveTypes ctx ((label, t) :: fields) ((label, A) :: types)

end

/-! ## Inference -/

mutual

/-- Inference finds every type that can be derived. -/
theorem HasType.typeOf_eq {ctx : Context} {t : Term} {T : Ty} :
    HasType ctx t T → t.typeOf ctx = .ok T
  | .bool _ _ | .zero _ | .string _ _ => rfl
  | .succ h => typeOf_succ_eq_ok_iff.mpr ⟨h.typeOf_eq, rfl⟩
  | .pred h => typeOf_pred_eq_ok_iff.mpr ⟨h.typeOf_eq, rfl⟩
  | .isZero h => typeOf_isZero_eq_ok_iff.mpr ⟨h.typeOf_eq, rfl⟩
  | .ite ht hu hv => typeOf_ite_eq_ok_iff.mpr ⟨ht.typeOf_eq, hu.typeOf_eq, hv.typeOf_eq⟩
  | .var h => typeOf_var_eq_ok_iff.mpr (Option.map_eq_some_iff.mpr ⟨_, isFirst_iff.mp h, rfl⟩)
  | .lam hA h => typeOf_lam_eq_ok_iff.mpr ⟨_, _, hA.resolve_eq, h.typeOf_eq, rfl⟩
  | .app ht hu => typeOf_app_eq_ok_iff.mpr ⟨_, ht.typeOf_eq, hu.typeOf_eq⟩
  | .letIn ht hu => typeOf_letIn_eq_ok_iff.mpr ⟨_, ht.typeOf_eq, hu.typeOf_eq⟩
  | .fix h => typeOf_fix_eq_ok_iff.mpr h.typeOf_eq
  | .concat ht hu => typeOf_concat_eq_ok_iff.mpr ⟨ht.typeOf_eq, hu.typeOf_eq, rfl⟩
  | .pair ht hu => typeOf_pair_eq_ok_iff.mpr ⟨_, _, ht.typeOf_eq, hu.typeOf_eq, rfl⟩
  | .fst h => typeOf_fst_eq_ok_iff.mpr ⟨_, h.typeOf_eq⟩
  | .snd h => typeOf_snd_eq_ok_iff.mpr ⟨_, h.typeOf_eq⟩
  | .record hlabels h => typeOf_record_eq_ok_iff.mpr ⟨hlabels, _, rfl, h.forall₂⟩
  | .proj ht h => typeOf_proj_eq_ok_iff.mpr ⟨_, ht.typeOf_eq, isFirst_iff.mp h⟩
  | .nil hA => typeOf_nil_eq_ok_iff.mpr ⟨_, hA.resolve_eq, rfl⟩
  | .cons ht hu => typeOf_cons_eq_ok_iff.mpr ⟨_, ht.typeOf_eq, hu.typeOf_eq, rfl⟩
  | .isNil h => typeOf_isNil_eq_ok_iff.mpr ⟨⟨_, h.typeOf_eq⟩, rfl⟩
  | .head h => typeOf_head_eq_ok_iff.mpr h.typeOf_eq
  | .tail h => typeOf_tail_eq_ok_iff.mpr ⟨_, h.typeOf_eq, rfl⟩

theorem FieldsHaveTypes.forall₂ {ctx : Context} {fields : List (String × Term)}
    {types : List (String × Ty)} : FieldsHaveTypes ctx fields types →
    List.Forall₂ (fun f g => f.1 = g.1 ∧ f.2.typeOf ctx = .ok g.2) fields types
  | .nil _ => .nil
  | .cons _ ht h => .cons ⟨rfl, ht.typeOf_eq⟩ h.forall₂

end

theorem fieldsHaveTypes_of_forall₂ {ctx : Context} {fields : List (String × Term)}
    {types : List (String × Ty)}
    (ih : ∀ f ∈ fields, ∀ A, f.2.typeOf ctx = .ok A → HasType ctx f.2 A)
    (h : List.Forall₂ (fun f g => f.1 = g.1 ∧ f.2.typeOf ctx = .ok g.2) fields types) :
    FieldsHaveTypes ctx fields types := by
  induction h with
  | nil => exact .nil ctx
  | @cons f g fields types hfg _ ihf =>
    obtain ⟨label, A⟩ := g
    obtain ⟨rfl, hA⟩ := hfg
    exact .cons f.1 (ih f List.mem_cons_self A hA)
      (ihf fun g hg => ih g (List.mem_cons_of_mem _ hg))

/-- The type that inference finds can be derived. -/
theorem hasType_of_typeOf {ctx : Context} {t : Term} {T : Ty} (h : t.typeOf ctx = .ok T) :
    HasType ctx t T := by
  induction t generalizing ctx T with
  | bool b =>
    obtain rfl := Except.ok.inj h
    exact .bool ctx b
  | zero =>
    obtain rfl := Except.ok.inj h
    exact .zero ctx
  | string s =>
    obtain rfl := Except.ok.inj h
    exact .string ctx s
  | var x =>
    obtain ⟨b, hb, rfl⟩ := Option.map_eq_some_iff.mp (typeOf_var_eq_ok_iff.mp h)
    exact .var (isFirst_iff.mpr hb)
  | nil A =>
    obtain ⟨B, hB, rfl⟩ := typeOf_nil_eq_ok_iff.mp h
    exact .nil (Ty.standsFor_of_resolve hB)
  | succ t ih =>
    obtain ⟨ht, rfl⟩ := typeOf_succ_eq_ok_iff.mp h
    exact .succ (ih ht)
  | pred t ih =>
    obtain ⟨ht, rfl⟩ := typeOf_pred_eq_ok_iff.mp h
    exact .pred (ih ht)
  | isZero t ih =>
    obtain ⟨ht, rfl⟩ := typeOf_isZero_eq_ok_iff.mp h
    exact .isZero (ih ht)
  | ite t u v iht ihu ihv =>
    obtain ⟨ht, hu, hv⟩ := typeOf_ite_eq_ok_iff.mp h
    exact .ite (iht ht) (ihu hu) (ihv hv)
  | lam x A t ih =>
    obtain ⟨B, C, hB, ht, rfl⟩ := typeOf_lam_eq_ok_iff.mp h
    exact .lam (Ty.standsFor_of_resolve hB) (ih ht)
  | app t u iht ihu =>
    obtain ⟨A, ht, hu⟩ := typeOf_app_eq_ok_iff.mp h
    exact .app (iht ht) (ihu hu)
  | letIn x t u iht ihu =>
    obtain ⟨A, ht, hu⟩ := typeOf_letIn_eq_ok_iff.mp h
    exact .letIn (iht ht) (ihu hu)
  | fix t ih => exact .fix (ih (typeOf_fix_eq_ok_iff.mp h))
  | concat t u iht ihu =>
    obtain ⟨ht, hu, rfl⟩ := typeOf_concat_eq_ok_iff.mp h
    exact .concat (iht ht) (ihu hu)
  | pair t u iht ihu =>
    obtain ⟨A, B, ht, hu, rfl⟩ := typeOf_pair_eq_ok_iff.mp h
    exact .pair (iht ht) (ihu hu)
  | fst t ih =>
    obtain ⟨B, ht⟩ := typeOf_fst_eq_ok_iff.mp h
    exact .fst (ih ht)
  | snd t ih =>
    obtain ⟨A, ht⟩ := typeOf_snd_eq_ok_iff.mp h
    exact .snd (ih ht)
  | record fields ih =>
    obtain ⟨hlabels, types, rfl, htypes⟩ := typeOf_record_eq_ok_iff.mp h
    exact .record hlabels (fieldsHaveTypes_of_forall₂ (fun f hf A => ih f hf) htypes)
  | proj t label ih =>
    obtain ⟨types, ht, hT⟩ := typeOf_proj_eq_ok_iff.mp h
    exact .proj (ih ht) (isFirst_iff.mpr hT)
  | cons t u iht ihu =>
    obtain ⟨A, ht, hu, rfl⟩ := typeOf_cons_eq_ok_iff.mp h
    exact .cons (iht ht) (ihu hu)
  | isNil t ih =>
    obtain ⟨⟨A, ht⟩, rfl⟩ := typeOf_isNil_eq_ok_iff.mp h
    exact .isNil (ih ht)
  | head t ih => exact .head (ih (typeOf_head_eq_ok_iff.mp h))
  | tail t ih =>
    obtain ⟨A, ht, rfl⟩ := typeOf_tail_eq_ok_iff.mp h
    exact .tail (ih ht)

/-- **Inference decides the typing rules**: it gives a type exactly when the rules do, it is in
error exactly when they give none, and they never give two. -/
theorem typeOf_decides (ctx : Context) (t : Term) :
    (∀ T, t.typeOf ctx = .ok T ↔ HasType ctx t T) ∧
      ((∃ e, t.typeOf ctx = .error e) ↔ ∀ T, ¬HasType ctx t T) ∧
      ∀ T T', HasType ctx t T → HasType ctx t T' → T = T' := by
  have hiff (T : Ty) : t.typeOf ctx = .ok T ↔ HasType ctx t T :=
    ⟨hasType_of_typeOf, HasType.typeOf_eq⟩
  refine ⟨hiff, ?_, fun T T' h h' => ?_⟩
  · constructor
    · rintro ⟨e, he⟩ T h
      exact nomatch he.symm.trans h.typeOf_eq
    · intro hnone
      cases hT : t.typeOf ctx with
      | error e => exact ⟨e, rfl⟩
      | ok T => exact absurd (hasType_of_typeOf hT) (hnone T)
  · exact Except.ok.inj (h.typeOf_eq.symm.trans h'.typeOf_eq)

/-- `P` is looked up at its newest entry and `l` at the first field of that label, so the function
gives a number. A record with other labels is no argument for it. -/
theorem typeOf_decides_first :
    let R := Ty.record [("l", .nat), ("l", .bool)]
    let ctx := (({} : Context).abbreviate "P" .nat).abbreviate "P" R
    let t := lam "p" (.named "P") (proj (var "p") "l")
    HasType ctx t (.arrow R .nat) ∧ (∀ T, HasType ctx t T → T = .arrow R .nat) ∧
      ∀ T, ¬HasType ctx (app t (record [("l", zero), ("m", zero)])) T := by
  intro R ctx t
  have hT : t.typeOf ctx = .ok (.arrow R .nat) := by decide
  obtain ⟨hiff, -, huniq⟩ := typeOf_decides ctx t
  obtain ⟨-, herror, -⟩ := typeOf_decides ctx (app t (record [("l", zero), ("m", zero)]))
  have hderived := (hiff _).mp hT
  exact ⟨hderived, fun T h => huniq _ _ h hderived, herror.mp ⟨.argumentMismatch, by decide⟩⟩

end Term

end TypedLambda
