import Mathlib.Data.List.Forall2
import TypedLambda.Proofs.Reduction.Names
import TypedLambda.Proofs.Reduction.Run

/-!
# Annotations along a run

Functions and empty lists are annotated with types, and reduction hands the annotations on as they
are: it looks at none of them, and neither does the choice of fresh names. So whatever is put for
each annotation, a term steps as it did before, to the same term with the new annotations. Where the
names of types in a term can be resolved, this is such a change of annotations, and since a step
brings in no names of types, it can be resolved in every term of the run.

## Main definitions

* `Term.mapTypes`: the term with another type for each annotation
* `Ty.resolved`: the type for which a type stands, if it can be resolved

## Main results

* `Term.subst_mapTypes`: substitution, with the same fresh names
* `Term.step_mapTypes`, `Term.trace_mapTypes`, `Term.outcome_mapTypes`: steps and runs
* `Term.resolveTypes_eq_ok_iff`: resolution changes annotations, when all names stand for types
* `Term.lockstep_mapTypes`: annotations have no influence on evaluation
-/

namespace TypedLambda

namespace Term

/-! ## Changing annotations -/

mutual

/-- The term with `g T` for each annotation `T`. -/
def mapTypes (g : Ty → Ty) : Term → Term
  | bool b => bool b
  | zero => zero
  | string s => string s
  | var x => var x
  | nil T => nil (g T)
  | lam x T t => lam x (g T) (t.mapTypes g)
  | succ t => succ (t.mapTypes g)
  | pred t => pred (t.mapTypes g)
  | isZero t => isZero (t.mapTypes g)
  | ite t u v => ite (t.mapTypes g) (u.mapTypes g) (v.mapTypes g)
  | app t u => app (t.mapTypes g) (u.mapTypes g)
  | letIn x t u => letIn x (t.mapTypes g) (u.mapTypes g)
  | fix t => fix (t.mapTypes g)
  | concat t u => concat (t.mapTypes g) (u.mapTypes g)
  | pair t u => pair (t.mapTypes g) (u.mapTypes g)
  | fst t => fst (t.mapTypes g)
  | snd t => snd (t.mapTypes g)
  | record fields => record (mapTypesFields g fields)
  | proj t label => proj (t.mapTypes g) label
  | cons t u => cons (t.mapTypes g) (u.mapTypes g)
  | isNil t => isNil (t.mapTypes g)
  | head t => head (t.mapTypes g)
  | tail t => tail (t.mapTypes g)

/-- The fields with `g T` for each annotation `T`. -/
def mapTypesFields (g : Ty → Ty) : List (String × Term) → List (String × Term)
  | [] => []
  | (label, t) :: fields => (label, t.mapTypes g) :: mapTypesFields g fields

end

attribute [local simp] mapTypes

section Mapped

variable (g : Ty → Ty)

theorem mapTypesFields_eq_map (fields : List (String × Term)) :
    mapTypesFields g fields = fields.map fun f => (f.1, f.2.mapTypes g) := by
  induction fields with
  | nil => rfl
  | cons f fields ih => rw [mapTypesFields, ih, List.map_cons]

/-- The annotations of a record are those of its fields. -/
theorem mapTypes_record (fields : List (String × Term)) :
    (record fields).mapTypes g = record (fields.map fun f => (f.1, f.2.mapTypes g)) := by
  rw [mapTypes, mapTypesFields_eq_map]

/-! ## Variables and values -/

/-- No variable occurs in an annotation. -/
theorem freeVars_mapTypes (t : Term) : (t.mapTypes g).freeVars = t.freeVars := by
  induction t with
  | record fields ih =>
    rw [mapTypes_record, freeVars_record, freeVars_record, List.flatMap_map]
    exact List.flatMap_congr ih
  | _ => simp_all [freeVars]

theorem toNat?_mapTypes (t : Term) : (t.mapTypes g).toNat? = t.toNat? := by
  induction t with
  | succ t ih => rw [mapTypes, toNat?, toNat?, ih]
  | _ => rfl

theorem isNumeral_mapTypes (t : Term) : (t.mapTypes g).isNumeral = t.isNumeral := by
  rw [isNumeral, isNumeral, toNat?_mapTypes]

theorem isString_mapTypes (t : Term) : (t.mapTypes g).isString = t.isString := by
  cases t <;> rfl

/-- Terms are values whatever their annotations. -/
theorem isValue_mapTypes (t : Term) : (t.mapTypes g).isValue = t.isValue := by
  induction t with
  | succ t => rw [mapTypes, isValue, isValue, isNumeral_mapTypes]
  | pair t u iht ihu | cons t u iht ihu => rw [mapTypes, isValue, isValue, iht, ihu]
  | record fields ih =>
    rw [mapTypes_record, isValue_record, isValue_record, List.all_map]
    rw [Bool.eq_iff_iff, List.all_eq_true, List.all_eq_true]
    exact forall₂_congr fun f hf => by rw [Function.comp_apply, ih f hf]
  | _ => rfl

/-! ## Substitution -/

/-- A renamed body may be substituted into when every body of its size may. -/
theorem subst_renamed_mapTypes {b : Term} {x : String} {s : Term}
    (ih : ∀ b' : Term, b'.size = b.size → ∀ x s,
      (b'.mapTypes g).subst x (s.mapTypes g) = (b'.subst x s).mapTypes g) (y z : String) :
    ((b.mapTypes g).subst y (var z)).subst x (s.mapTypes g) =
      ((b.subst y (var z)).subst x s).mapTypes g := by
  have hrenamed : (b.mapTypes g).subst y (var z) = (b.subst y (var z)).mapTypes g :=
    ih b rfl y (var z)
  rw [hrenamed, ih _ (size_subst_var y z b)]

/-- Substitution hands annotations on. The fresh names are the same, since they are to differ from
the same variables. -/
theorem subst_mapTypes (x : String) (s t : Term) :
    (t.mapTypes g).subst x (s.mapTypes g) = (t.subst x s).mapTypes g := by
  induction t using inductUpToSize generalizing x s with
  | var y =>
    rw [mapTypes, subst_var, subst_var]
    split <;> rfl
  | lam y T b ih =>
    rw [mapTypes, subst_lam, subst_lam, freeVars_mapTypes, freeVars_mapTypes]
    split
    · rfl
    split
    · exact congrArg (lam _ (g T)) (subst_renamed_mapTypes g ih y _)
    · exact congrArg (lam y (g T)) (ih b rfl x s)
  | letIn y v b ihv ihb =>
    rw [mapTypes, subst_letIn, subst_letIn, freeVars_mapTypes, freeVars_mapTypes, ihv]
    split
    · rfl
    split
    · exact congrArg (letIn _ _) (subst_renamed_mapTypes g ihb y _)
    · exact congrArg (letIn y _) (ihb b rfl x s)
  | record fields ih =>
    rw [mapTypes_record, subst_record, subst_record, mapTypes_record, List.map_map, List.map_map]
    refine congrArg record (List.map_congr_left fun f hf => ?_)
    exact congrArg (f.1, ·) (ih f hf x s)
  | _ => simp_all

/-! ## Steps -/

theorem lookup_map_mapTypes (fields : List (String × Term)) (label : String) :
    (fields.map fun f => (f.1, f.2.mapTypes g)).lookup label =
      (fields.lookup label).map (mapTypes g) := by
  induction fields with
  | nil => rfl
  | cons f fields ih =>
    rw [List.map_cons, List.lookup_cons, List.lookup_cons, ih]
    cases label == f.1 <;> rfl

/-- A redex contracts whatever the annotations. -/
theorem contract?_mapTypes (t : Term) :
    (t.mapTypes g).contract? = t.contract?.map (mapTypes g) := by
  cases t with
  | ite c u v =>
    cases c with
    | bool b => cases b <;> rfl
    | _ => rfl
  | pred t | isZero t =>
    cases t with
    | succ n =>
      simp only [mapTypes, contract?, isNumeral_mapTypes]
      split <;> rfl
    | _ => rfl
  | app t v =>
    cases t with
    | lam x T b =>
      simp only [mapTypes, contract?, isValue_mapTypes, subst_mapTypes]
      split <;> rfl
    | _ => rfl
  | letIn x v b =>
    simp only [mapTypes, contract?, isValue_mapTypes, subst_mapTypes]
    split <;> rfl
  | fix t =>
    cases t with
    | lam x T b => exact congrArg some (subst_mapTypes g x (fix (lam x T b)) b)
    | _ => rfl
  | concat t u =>
    cases t with
    | string => cases u <;> rfl
    | _ => rfl
  | fst t | snd t =>
    cases t with
    | pair v w =>
      simp only [mapTypes, contract?, isValue_mapTypes]
      split <;> rfl
    | _ => rfl
  | isNil t | head t | tail t =>
    cases t with
    | cons v w =>
      simp only [mapTypes, contract?, isValue_mapTypes]
      split <;> rfl
    | _ => rfl
  | proj t label =>
    cases t with
    | record fields =>
      rw [mapTypes, mapTypes_record, contract?, contract?, lookup_map_mapTypes]
      have hvalues := isValue_mapTypes g (record fields)
      rw [mapTypes_record, isValue, isValue] at hvalues
      rw [hvalues]
      split <;> rfl
    | _ => rfl
  | _ => rfl

theorem map_orElse {α β : Type} (f : α → β) (o o' : Option α) :
    (o <|> o').map f = (o.map f <|> o'.map f) := by
  cases o <;> rfl

theorem stepFields_mapTypes {fields : List (String × Term)}
    (h : ∀ f ∈ fields, (f.2.mapTypes g).step = f.2.step.map (mapTypes g)) :
    stepFields (fields.map fun f => (f.1, f.2.mapTypes g)) =
      (stepFields fields).map fun fs => fs.map fun f => (f.1, f.2.mapTypes g) := by
  induction fields with
  | nil => rfl
  | cons f fields ih =>
    obtain ⟨hf, hfields⟩ := List.forall_mem_cons.mp h
    rw [List.map_cons, stepFields, stepFields, isValue_mapTypes, hf, ih hfields]
    cases f.2.isValue with
    | true => simp [Function.comp_def]
    | false => simp [Function.comp_def]

/-- A term steps as it does with other annotations. -/
theorem step_mapTypes (t : Term) : (t.mapTypes g).step = t.step.map (mapTypes g) := by
  have hcontract := contract?_mapTypes g
  induction t with
  | succ t ih => simp only [mapTypes, step, ih, Option.map_map, Function.comp_def]
  | pred t ih | isZero t ih | fix t ih | fst t ih | snd t ih | proj t label ih | isNil t ih
  | head t ih | tail t ih =>
    rw [step, map_orElse, ← hcontract, mapTypes, step, ih]
    simp only [Option.map_map, Function.comp_def, mapTypes]
  | ite t u v ih | letIn x t u ih =>
    rw [step, map_orElse, ← hcontract, mapTypes, step, ih]
    simp only [Option.map_map, Function.comp_def, mapTypes]
  | app t u iht ihu | concat t u iht ihu =>
    rw [step, map_orElse, ← hcontract, mapTypes, step]
    simp only [isValue_mapTypes, isString_mapTypes, iht, ihu]
    split <;> simp only [Option.map_map, Function.comp_def, mapTypes]
  | pair t u iht ihu | cons t u iht ihu =>
    rw [mapTypes, step, step, isValue_mapTypes, iht, ihu]
    split <;> simp only [Option.map_map, Function.comp_def, mapTypes]
  | record fields ih =>
    rw [mapTypes_record, step, step, stepFields_mapTypes g ih, Option.map_map, Option.map_map]
    exact congrArg (Option.map · _) (funext fun fs => (mapTypes_record g fs).symm)
  | bool | zero | var | lam | string | nil => rfl

end Mapped

end Term

/-! ## Runs -/

namespace Outcome

/-- The outcome with another final term. -/
def map (f : Term → Term) : Outcome → Outcome
  | finished t => finished (f t)
  | stopped => stopped
  | refused => refused

/-- The same way to end, with related final terms. -/
inductive Rel (R : Term → Term → Prop) : Outcome → Outcome → Prop
  | finished {t u : Term} (h : R t u) : Rel R (finished t) (finished u)
  | stopped : Rel R stopped stopped
  | refused : Rel R refused refused

end Outcome

namespace Term

/-- A run ends as it does with other annotations, when the same terms are refused. -/
theorem outcome_mapTypes (g : Ty → Ty) {refuses refuses' : Term → Bool}
    (h : ∀ t : Term, refuses' (t.mapTypes g) = refuses t) (n : Nat) (t : Term) :
    outcome refuses' n (t.mapTypes g) = (outcome refuses n t).map (mapTypes g) := by
  induction n generalizing t with
  | zero =>
    rw [outcome, outcome, h, step_mapTypes]
    cases refuses t <;> cases t.step <;> rfl
  | succ n ih =>
    rw [outcome, outcome, h, step_mapTypes]
    cases refuses t with
    | true => rfl
    | false =>
      cases t.step with
      | none => rfl
      | some u => exact ih u

theorem trace_mapTypes (g : Ty → Ty) {refuses refuses' : Term → Bool}
    (h : ∀ t : Term, refuses' (t.mapTypes g) = refuses t) (n : Nat) (t : Term) :
    trace refuses' n (t.mapTypes g) = (trace refuses n t).map (mapTypes g) := by
  induction n generalizing t with
  | zero => rfl
  | succ n ih =>
    rw [trace, trace, h, step_mapTypes]
    cases refuses t with
    | true => rfl
    | false =>
      cases t.step with
      | none => rfl
      | some u => exact congrArg (u.mapTypes g :: ·) (ih u)

end Term

/-! ## Resolution -/

/-- All the names stand for types. -/
def Context.Defines (ctx : Context) (names : List String) : Prop :=
  ∀ name ∈ names, ∃ A, ctx.abbreviated? name = some A

theorem Context.defines_append {ctx : Context} {names names' : List String} :
    ctx.Defines (names ++ names') ↔ ctx.Defines names ∧ ctx.Defines names' :=
  List.forall_mem_append

namespace Ty

open TypeError (bind_eq_ok_iff pure_eq_ok_iff)

/-- The type for which the type stands, or the type itself if a name in it stands for none. -/
def resolved (ctx : Context) (T : Ty) : Ty :=
  (T.resolve ctx).toOption.getD T

variable {ctx : Context} {T A : Ty}

theorem resolved_of_resolve (h : T.resolve ctx = .ok A) : T.resolved ctx = A := by
  rw [resolved, h]
  rfl

theorem exists_resolveFields_iff {fields : List (String × Ty)}
    (h : ∀ f ∈ fields, (∃ A, f.2.resolve ctx = .ok A) ↔ ctx.Defines f.2.names) :
    (∃ fs, resolveFields ctx fields = .ok fs) ↔ ctx.Defines (namesFields fields) := by
  induction fields with
  | nil => exact iff_of_true ⟨[], rfl⟩ (List.forall_mem_nil _)
  | cons f fields ih =>
    obtain ⟨hf, hfields⟩ := List.forall_mem_cons.mp h
    rw [namesFields, Context.defines_append, ← hf, ← ih hfields]
    simp only [resolveFields, bind_eq_ok_iff, pure_eq_ok_iff]
    constructor
    · rintro ⟨-, A, hA, fs, hfs, -⟩
      exact ⟨⟨A, hA⟩, fs, hfs⟩
    · rintro ⟨⟨A, hA⟩, fs, hfs⟩
      exact ⟨_, A, hA, fs, hfs, rfl⟩

/-- A type can be resolved when all names in it stand for types. -/
theorem exists_resolve_iff : (∃ A, T.resolve ctx = .ok A) ↔ ctx.Defines T.names := by
  induction T with
  | bool | nat | string => exact iff_of_true ⟨_, rfl⟩ (List.forall_mem_nil _)
  | arrow A B ihA ihB | prod A B ihA ihB =>
    rw [names, Context.defines_append, ← ihA, ← ihB]
    simp only [resolve, bind_eq_ok_iff, pure_eq_ok_iff]
    constructor
    · rintro ⟨-, A', hA, B', hB, -⟩
      exact ⟨⟨A', hA⟩, B', hB⟩
    · rintro ⟨⟨A', hA⟩, B', hB⟩
      exact ⟨_, A', hA, B', hB, rfl⟩
  | record fields ih =>
    rw [names, ← exists_resolveFields_iff ih]
    simp only [resolve, bind_eq_ok_iff, pure_eq_ok_iff]
    constructor
    · rintro ⟨-, fs, hfs, -⟩
      exact ⟨fs, hfs⟩
    · rintro ⟨fs, hfs⟩
      exact ⟨_, fs, hfs, rfl⟩
  | list A ih =>
    rw [names, ← ih]
    simp only [resolve, bind_eq_ok_iff, pure_eq_ok_iff]
    constructor
    · rintro ⟨-, A', hA, -⟩
      exact ⟨A', hA⟩
    · rintro ⟨A', hA⟩
      exact ⟨_, A', hA, rfl⟩
  | named name =>
    rw [resolve, names, Context.Defines, List.forall_mem_singleton]
    cases ctx.abbreviated? name <;> simp

theorem resolve_of_defines (h : ctx.Defines T.names) : T.resolve ctx = .ok (T.resolved ctx) := by
  obtain ⟨A, hA⟩ := exists_resolve_iff.mpr h
  rw [resolved_of_resolve hA, hA]

end Ty

namespace Term

open TypeError (bind_eq_ok_iff pure_eq_ok_iff)

variable {ctx : Context}

theorem resolveTypesFields_of_defines {fields : List (String × Term)}
    (h : ∀ f ∈ fields, f.2.resolveTypes ctx = .ok (f.2.mapTypes (Ty.resolved ctx))) :
    resolveTypesFields ctx fields = .ok (mapTypesFields (Ty.resolved ctx) fields) := by
  induction fields with
  | nil => rfl
  | cons f fields ih =>
    obtain ⟨hf, hfields⟩ := List.forall_mem_cons.mp h
    rw [resolveTypesFields, hf, ih hfields]
    rfl

/-- Where all names stand for types, each annotation is resolved. -/
theorem resolveTypes_of_defines {t : Term} (h : ctx.Defines t.typeNames) :
    t.resolveTypes ctx = .ok (t.mapTypes (Ty.resolved ctx)) := by
  induction t with
  | bool | zero | var | string => rfl
  | nil T =>
    rw [resolveTypes, Ty.resolve_of_defines h]
    rfl
  | lam x T t ih =>
    obtain ⟨hT, ht⟩ := Context.defines_append.mp h
    rw [resolveTypes, Ty.resolve_of_defines hT, ih ht]
    rfl
  | record fields ih =>
    have hfields : ∀ f ∈ fields, ctx.Defines f.2.typeNames := by
      intro f hf name hname
      rw [typeNames_record] at h
      exact h name (List.mem_flatMap.mpr ⟨f, hf, hname⟩)
    rw [resolveTypes, resolveTypesFields_of_defines fun f hf => ih f hf (hfields f hf)]
    rfl
  | ite t u v iht ihu ihv =>
    obtain ⟨htu, hv⟩ := Context.defines_append.mp h
    obtain ⟨ht, hu⟩ := Context.defines_append.mp htu
    rw [resolveTypes, iht ht, ihu hu, ihv hv]
    rfl
  | app t u iht ihu | letIn x t u iht ihu | concat t u iht ihu | pair t u iht ihu
  | cons t u iht ihu =>
    obtain ⟨ht, hu⟩ := Context.defines_append.mp h
    rw [resolveTypes, iht ht, ihu hu]
    rfl
  | succ t ih | pred t ih | isZero t ih | fix t ih | fst t ih | snd t ih | proj t label ih
  | isNil t ih | head t ih | tail t ih =>
    rw [resolveTypes, ih h]
    rfl

theorem defines_of_resolveTypesFields {fields gs : List (String × Term)}
    (h : ∀ f ∈ fields, ∀ u, f.2.resolveTypes ctx = .ok u → ctx.Defines f.2.typeNames)
    (hgs : resolveTypesFields ctx fields = .ok gs) : ctx.Defines (typeNamesFields fields) := by
  induction fields generalizing gs with
  | nil => exact List.forall_mem_nil _
  | cons f fields ih =>
    obtain ⟨hf, hfields⟩ := List.forall_mem_cons.mp h
    simp only [resolveTypesFields, bind_eq_ok_iff, pure_eq_ok_iff] at hgs
    obtain ⟨u, hu, rest, hrest, -⟩ := hgs
    exact Context.defines_append.mpr ⟨hf u hu, ih hfields hrest⟩

/-- Resolution fails at a name that stands for no type. -/
theorem defines_of_resolveTypes {t u : Term} (h : t.resolveTypes ctx = .ok u) :
    ctx.Defines t.typeNames := by
  induction t generalizing u with
  | bool | zero | var | string => exact List.forall_mem_nil _
  | nil T =>
    simp only [resolveTypes, bind_eq_ok_iff, pure_eq_ok_iff] at h
    obtain ⟨A, hA, -⟩ := h
    exact Ty.exists_resolve_iff.mp ⟨A, hA⟩
  | lam x T t ih =>
    simp only [resolveTypes, bind_eq_ok_iff, pure_eq_ok_iff] at h
    obtain ⟨A, hA, t', ht, -⟩ := h
    exact Context.defines_append.mpr ⟨Ty.exists_resolve_iff.mp ⟨A, hA⟩, ih ht⟩
  | record fields ih =>
    simp only [resolveTypes, bind_eq_ok_iff, pure_eq_ok_iff] at h
    obtain ⟨gs, hgs, -⟩ := h
    exact defines_of_resolveTypesFields (fun f hf u => ih f hf) hgs
  | ite t u v iht ihu ihv =>
    simp only [resolveTypes, bind_eq_ok_iff, pure_eq_ok_iff] at h
    obtain ⟨t', ht, u', hu, v', hv, -⟩ := h
    exact Context.defines_append.mpr ⟨Context.defines_append.mpr ⟨iht ht, ihu hu⟩, ihv hv⟩
  | app t u iht ihu | letIn x t u iht ihu | concat t u iht ihu | pair t u iht ihu
  | cons t u iht ihu =>
    simp only [resolveTypes, bind_eq_ok_iff, pure_eq_ok_iff] at h
    obtain ⟨t', ht, u', hu, -⟩ := h
    exact Context.defines_append.mpr ⟨iht ht, ihu hu⟩
  | succ t ih | pred t ih | isZero t ih | fix t ih | fst t ih | snd t ih | proj t label ih
  | isNil t ih | head t ih | tail t ih =>
    simp only [resolveTypes, bind_eq_ok_iff, pure_eq_ok_iff] at h
    obtain ⟨t', ht, -⟩ := h
    exact ih ht

/-- The annotations of a term can be resolved when all names in them stand for types, and then each
is changed into the type for which it stands. -/
theorem resolveTypes_eq_ok_iff {t u : Term} :
    t.resolveTypes ctx = .ok u ↔
      ctx.Defines t.typeNames ∧ u = t.mapTypes (Ty.resolved ctx) := by
  constructor
  · intro h
    have hdefines := defines_of_resolveTypes h
    exact ⟨hdefines, Except.ok.inj (h.symm.trans (resolveTypes_of_defines hdefines))⟩
  · rintro ⟨hdefines, rfl⟩
    exact resolveTypes_of_defines hdefines

/-! ## Resolution along a run -/

theorem defines_of_step {t t' : Term} (h : t.step = some t') (ht : ctx.Defines t.typeNames) :
    ctx.Defines t'.typeNames :=
  fun name hname => ht name (typeNames_subset_of_step h hname)

/-- All terms of a run can be resolved when the first can. -/
theorem forall_mem_trace_defines {refuses : Term → Bool} {n : Nat} {t : Term}
    (ht : ctx.Defines t.typeNames) : ∀ t' ∈ trace refuses n t, ctx.Defines t'.typeNames :=
  forall_mem_trace (fun _ _ => defines_of_step) ht

/-- The end of a run can be resolved, too. -/
theorem defines_of_outcome {refuses : Term → Bool} {n : Nat} {t v : Term}
    (h : outcome refuses n t = .finished v) (ht : ctx.Defines t.typeNames) :
    ctx.Defines v.typeNames := by
  obtain ⟨m, hm, -⟩ := exists_steps_of_outcome h
  exact steps_induct (fun _ _ => defines_of_step) hm ht

/-- **Annotations have no influence on evaluation**: with other types for its annotations, a term,
closed or not and with a type or without, has the same free variables, is a value if it was one, and
steps to the same term as before with the other types; substitution of such terms gives the same
term with the other types. In particular resolution of names of types, when it succeeds, may come
before a run or after it, and in each term on the way. -/
theorem lockstep_mapTypes (g : Ty → Ty) (t : Term) :
    (t.mapTypes g).freeVars = t.freeVars ∧ (t.mapTypes g).isValue = t.isValue ∧
      (∀ x s, (t.mapTypes g).subst x (s.mapTypes g) = (t.subst x s).mapTypes g) ∧
      (t.mapTypes g).step = t.step.map (mapTypes g) ∧
      ∀ (ctx : Context) (u : Term), t.resolveTypes ctx = .ok u → ∀ n,
        List.Forall₂ (fun t' u' => t'.resolveTypes ctx = .ok u')
            (trace (fun _ => false) n t) (trace (fun _ => false) n u) ∧
          Outcome.Rel (fun t' u' => t'.resolveTypes ctx = .ok u')
            (outcome (fun _ => false) n t) (outcome (fun _ => false) n u) := by
  refine ⟨freeVars_mapTypes g t, isValue_mapTypes g t, fun x s => subst_mapTypes g x s t,
    step_mapTypes g t, fun ctx u hu n => ?_⟩
  obtain ⟨hdefines, rfl⟩ := resolveTypes_eq_ok_iff.mp hu
  rw [trace_mapTypes _ fun _ => rfl, outcome_mapTypes _ fun _ => rfl]
  constructor
  · rw [List.forall₂_map_right_iff, List.forall₂_same]
    exact fun t' ht' => resolveTypes_of_defines (forall_mem_trace_defines hdefines t' ht')
  · cases hend : outcome (fun _ => false) n t with
    | finished v => exact .finished (resolveTypes_of_defines (defines_of_outcome hend hdefines))
    | stopped => exact .stopped
    | refused => exact .refused

/-- A step that renames a binder, in a term that is not closed: with the names resolved it leads to
the same function, with the names resolved. -/
theorem lockstep_mapTypes_renaming :
    let ctx := ({} : Context).abbreviate "P" .nat
    let t := letIn "y" (lam "x" (.named "P") (var "z"))
      (lam "z" (.list (.named "P")) (app (var "y") (var "z")))
    let u := letIn "y" (lam "x" .nat (var "z")) (lam "z" (.list .nat) (app (var "y") (var "z")))
    t.resolveTypes ctx = .ok u ∧
      outcome (fun _ => false) 1 t = .finished
        (lam "z'" (.list (.named "P")) (app (lam "x" (.named "P") (var "z")) (var "z'"))) ∧
      Outcome.Rel (fun t' u' => t'.resolveTypes ctx = .ok u')
        (outcome (fun _ => false) 1 t) (outcome (fun _ => false) 1 u) := by
  intro ctx t u
  have hu : t.resolveTypes ctx = .ok u := by decide
  obtain ⟨-, -, -, -, hruns⟩ := lockstep_mapTypes id t
  exact ⟨hu, by decide, (hruns ctx u hu 1).2⟩

end Term

end TypedLambda
