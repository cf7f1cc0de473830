import Mathlib.Data.List.Basic
import TypedLambda.Proofs.Substitution.Equations
import TypedLambda.Typing.Resolve

/-!
# Type names

The names of types that occur in a type, or in the annotations of a term. The names are all that
resolution depends on, and where what a context stores for them has no names itself, resolution
leaves none.

## Main definitions

* `Ty.names`, `Term.typeNames`: the names of types that occur in a type and in a term
* `Ty.IsPlain`, `Term.IsPlain`: no name of a type occurs
* `Context.namesBehind`: the names in the types for which names stand

## Main results

* `Ty.resolve_congr`, `Term.resolveTypes_congr`: resolution depends on what the names stand for
* `Ty.resolve_of_isPlain`: a type without names stands for itself
* `Ty.names_of_resolve`, `Term.names_of_resolveTypes`: the names that resolution leaves
* `Ty.isPlain_of_resolve`, `Term.isPlain_of_resolveTypes`: in which case there are none
* `Term.mem_typeNames_of_mem_subst`: substitution brings in no names but those of the replacement
-/

namespace TypedLambda

namespace TypeError

variable {α β : Type}

/-- A sequence of checks succeeds when its parts do, one after the other. -/
theorem bind_eq_ok_iff {p : Except TypeError α} {f : α → Except TypeError β} {b : β} :
    p >>= f = .ok b ↔ ∃ a, p = .ok a ∧ f a = .ok b := by
  cases p <;> simp [bind, Except.bind]

@[simp] theorem pure_eq_ok_iff {a b : α} : (pure a : Except TypeError α) = .ok b ↔ a = b := by
  simp [pure, Except.pure]

@[simp] theorem throw_ne_ok {e : TypeError} {a : α} : (throw e : Except TypeError α) ≠ .ok a := by
  simp [throw, throwThe, MonadExceptOf.throw]

end TypeError

/-- A field that is found is one of the fields. -/
theorem mem_of_lookup {α : Type} {fields : List (String × α)} {label : String} {a : α}
    (h : fields.lookup label = some a) : (label, a) ∈ fields := by
  obtain ⟨before, after, rfl, -⟩ := List.lookup_eq_some_iff.mp h
  exact List.mem_append_right _ List.mem_cons_self

namespace Ty

/-! ## Names in types -/

mutual

/-- The names that occur in a type, from left to right, with repetitions. -/
def names : Ty → List String
  | bool | nat | string => []
  | arrow A B | prod A B => A.names ++ B.names
  | record fields => namesFields fields
  | list A => A.names
  | named name => [name]

/-- The names that occur in the fields of a record type. -/
def namesFields : List (String × Ty) → List String
  | [] => []
  | (_, A) :: fields => A.names ++ namesFields fields

end

attribute [local simp] names resolve

@[simp] theorem namesFields_eq_flatMap (fields : List (String × Ty)) :
    namesFields fields = fields.flatMap fun f => f.2.names := by
  induction fields with
  | nil => rfl
  | cons f fields ih => simp [namesFields, ih]

/-- No name occurs in the type. -/
def IsPlain (T : Ty) : Prop :=
  T.names = []

instance (T : Ty) : Decidable T.IsPlain :=
  inferInstanceAs (Decidable (T.names = []))

@[simp] theorem isPlain_bool : bool.IsPlain := rfl

@[simp] theorem isPlain_nat : nat.IsPlain := rfl

@[simp] theorem isPlain_string : string.IsPlain := rfl

@[simp] theorem isPlain_arrow {A B : Ty} : (arrow A B).IsPlain ↔ A.IsPlain ∧ B.IsPlain := by
  simp [IsPlain, names]

@[simp] theorem isPlain_prod {A B : Ty} : (prod A B).IsPlain ↔ A.IsPlain ∧ B.IsPlain := by
  simp [IsPlain, names]

@[simp] theorem isPlain_record {fields : List (String × Ty)} :
    (record fields).IsPlain ↔ ∀ f ∈ fields, f.2.IsPlain := by
  simp [IsPlain, names]

@[simp] theorem isPlain_list {A : Ty} : (list A).IsPlain ↔ A.IsPlain := Iff.rfl

@[simp] theorem not_isPlain_named {name : String} : ¬ (named name).IsPlain := by
  simp [IsPlain, names]

end Ty

namespace Context

/-! ## Names behind names -/

/-- The names in the types for which the given names stand, from left to right. -/
def namesBehind (ctx : Context) (names : List String) : List String :=
  names.flatMap fun name => (ctx.abbreviated? name).elim [] Ty.names

theorem namesBehind_append (ctx : Context) (names names' : List String) :
    ctx.namesBehind (names ++ names') = ctx.namesBehind names ++ ctx.namesBehind names' :=
  List.flatMap_append

theorem namesBehind_singleton {ctx : Context} {name : String} {T : Ty}
    (h : ctx.abbreviated? name = some T) : ctx.namesBehind [name] = T.names := by
  rw [namesBehind, List.flatMap_singleton, h, Option.elim_some]

/-- There is nothing behind names that stand for types without names. -/
theorem namesBehind_eq_nil {ctx : Context}
    (hctx : ∀ name A, ctx.abbreviated? name = some A → A.IsPlain) (names : List String) :
    ctx.namesBehind names = [] := by
  refine List.flatMap_eq_nil_iff.mpr fun name _ => ?_
  cases hname : ctx.abbreviated? name with
  | none => rfl
  | some A => exact hctx name A hname

end Context

namespace Ty

attribute [local simp] names resolve

/-! ## Resolution of types -/

theorem resolveFields_congr {ctx ctx' : Context} {fields : List (String × Ty)}
    (h : ∀ f ∈ fields, f.2.resolve ctx = f.2.resolve ctx') :
    resolveFields ctx fields = resolveFields ctx' fields := by
  induction fields with
  | nil => rfl
  | cons f fields ih =>
    rw [resolveFields, resolveFields, h f (by simp), ih fun g hg => h g (by simp [hg])]

/-- Resolution depends only on what the names of the type stand for. -/
theorem resolve_congr {ctx ctx' : Context} {T : Ty}
    (h : ∀ name ∈ T.names, ctx.abbreviated? name = ctx'.abbreviated? name) :
    T.resolve ctx = T.resolve ctx' := by
  induction T with
  | arrow A B ihA ihB | prod A B ihA ihB =>
    rw [resolve, resolve, ihA fun n hn => h n (by simp [names, hn]),
      ihB fun n hn => h n (by simp [names, hn])]
  | record fields ih =>
    rw [resolve, resolve, resolveFields_congr fun f hf => ih f hf fun n hn => h n ?_]
    simp only [names, namesFields_eq_flatMap, List.mem_flatMap]
    exact ⟨f, hf, hn⟩
  | list A ih => rw [resolve, resolve, ih fun n hn => h n (by simp [names, hn])]
  | named name => rw [resolve, resolve, h name (by simp [names])]
  | _ => rfl

theorem resolveFields_of_isPlain {ctx : Context} {fields : List (String × Ty)}
    (h : ∀ f ∈ fields, f.2.resolve ctx = .ok f.2) : resolveFields ctx fields = .ok fields := by
  induction fields with
  | nil => rfl
  | cons f fields ih =>
    rw [resolveFields, h f (by simp), ih fun g hg => h g (by simp [hg])]
    rfl

/-- A type without names stands for itself. -/
theorem resolve_of_isPlain (ctx : Context) {T : Ty} (h : T.IsPlain) : T.resolve ctx = .ok T := by
  induction T with
  | arrow A B ihA ihB =>
    obtain ⟨hA, hB⟩ := isPlain_arrow.mp h
    rw [resolve, ihA hA, ihB hB]
    rfl
  | prod A B ihA ihB =>
    obtain ⟨hA, hB⟩ := isPlain_prod.mp h
    rw [resolve, ihA hA, ihB hB]
    rfl
  | record fields ih =>
    rw [resolve, resolveFields_of_isPlain fun f hf => ih f hf (isPlain_record.mp h f hf)]
    rfl
  | list A ih =>
    rw [resolve, ih (isPlain_list.mp h)]
    rfl
  | named name => exact absurd h not_isPlain_named
  | _ => rfl

theorem names_of_resolveFields {ctx : Context} {fields gs : List (String × Ty)}
    (ih : ∀ f ∈ fields, ∀ A, f.2.resolve ctx = .ok A → A.names = ctx.namesBehind f.2.names)
    (h : resolveFields ctx fields = .ok gs) :
    namesFields gs = ctx.namesBehind (namesFields fields) := by
  induction fields generalizing gs with
  | nil =>
    obtain rfl : [] = gs := by simpa [resolveFields] using h
    rfl
  | cons f fields ihf =>
    simp only [resolveFields, TypeError.bind_eq_ok_iff, TypeError.pure_eq_ok_iff] at h
    obtain ⟨A, hA, rest, hrest, rfl⟩ := h
    rw [namesFields, namesFields, Context.namesBehind_append, ih f (by simp) A hA,
      ihf (fun g hg => ih g (by simp [hg])) hrest]

/-- Resolution leaves the names in the types for which the names of the type stand. -/
theorem names_of_resolve {ctx : Context} {T A : Ty} (h : T.resolve ctx = .ok A) :
    A.names = ctx.namesBehind T.names := by
  induction T generalizing A with
  | arrow B C ihB ihC | prod B C ihB ihC =>
    simp only [resolve, TypeError.bind_eq_ok_iff, TypeError.pure_eq_ok_iff] at h
    obtain ⟨B', hB, C', hC, rfl⟩ := h
    rw [names, names, Context.namesBehind_append, ihB hB, ihC hC]
  | record fields ih =>
    simp only [resolve, TypeError.bind_eq_ok_iff, TypeError.pure_eq_ok_iff] at h
    obtain ⟨gs, hgs, rfl⟩ := h
    rw [names, names, names_of_resolveFields (fun f hf A => ih f hf) hgs]
  | list B ih =>
    simp only [resolve, TypeError.bind_eq_ok_iff, TypeError.pure_eq_ok_iff] at h
    obtain ⟨B', hB, rfl⟩ := h
    rw [names, names, ih hB]
  | named name =>
    rw [resolve] at h
    split at h
    · rename_i B hB
      obtain rfl : B = A := TypeError.pure_eq_ok_iff.mp h
      rw [names, Context.namesBehind_singleton hB]
    · cases h
  | bool | nat | string =>
    obtain rfl := TypeError.pure_eq_ok_iff.mp h
    rfl

/-- Resolution leaves no names when what the names stand for has none. -/
theorem isPlain_of_resolve {ctx : Context}
    (hctx : ∀ name A, ctx.abbreviated? name = some A → A.IsPlain) {T A : Ty}
    (h : T.resolve ctx = .ok A) : A.IsPlain :=
  (names_of_resolve h).trans (Context.namesBehind_eq_nil hctx _)

end Ty

namespace Term

/-! ## Names in terms -/

mutual

/-- The names of types that occur in the annotations of a term, with repetitions. -/
def typeNames : Term → List String
  | bool _ | zero | var _ | string _ => []
  | nil T => T.names
  | lam _ T t => T.names ++ t.typeNames
  | succ t | pred t | isZero t | fix t | fst t | snd t | proj t _ | isNil t | head t | tail t =>
    t.typeNames
  | app t u | letIn _ t u | concat t u | pair t u | cons t u => t.typeNames ++ u.typeNames
  | ite t u v => t.typeNames ++ u.typeNames ++ v.typeNames
  | record fields => typeNamesFields fields

/-- The names of types that occur in the annotations of the fields. -/
def typeNamesFields : List (String × Term) → List String
  | [] => []
  | (_, t) :: fields => t.typeNames ++ typeNamesFields fields

end

attribute [local simp] typeNames resolveTypes

@[simp] theorem typeNamesFields_eq_flatMap (fields : List (String × Term)) :
    typeNamesFields fields = fields.flatMap fun f => f.2.typeNames := by
  induction fields with
  | nil => rfl
  | cons f fields ih => simp [typeNamesFields, ih]

/-- The names of types in a record are those in its fields. -/
theorem typeNames_record (fields : List (String × Term)) :
    (record fields).typeNames = fields.flatMap fun f => f.2.typeNames := by
  simp [typeNames]

/-- No name of a type occurs in the annotations of the term. -/
def IsPlain (t : Term) : Prop :=
  t.typeNames = []

instance (t : Term) : Decidable t.IsPlain :=
  inferInstanceAs (Decidable (t.typeNames = []))

/-- A name in a body in which the binder `z` has been renamed to `z'` before a substitution. -/
theorem mem_typeNames_of_renamed {x z z' name : String} {s b : Term}
    (ih : ∀ b' : Term, b'.size = b.size → ∀ {x : String} {s : Term},
      name ∈ (b'.subst x s).typeNames → name ∈ b'.typeNames ∨ name ∈ s.typeNames)
    (h : name ∈ ((b.subst z (var z')).subst x s).typeNames) :
    name ∈ b.typeNames ∨ name ∈ s.typeNames := by
  rcases ih _ (size_subst_var ..) h with hb | hs
  · exact .inl ((ih b rfl hb).resolve_right List.not_mem_nil)
  · exact .inr hs

/-- A name in a substitution is one of the term or one of the replacement. -/
theorem mem_typeNames_of_mem_subst {x name : String} {s t : Term}
    (h : name ∈ (t.subst x s).typeNames) : name ∈ t.typeNames ∨ name ∈ s.typeNames := by
  induction t using inductUpToSize generalizing x s with
  | var y =>
    rw [subst_var] at h
    split at h
    · exact .inr h
    · cases h
  | lam y T b ih =>
    rw [subst_lam] at h
    split at h
    · exact .inl h
    split at h
    · rcases List.mem_append.mp h with hT | hb
      · exact .inl (List.mem_append_left _ hT)
      · exact (mem_typeNames_of_renamed ih hb).imp_left (List.mem_append_right _)
    · rcases List.mem_append.mp h with hT | hb
      · exact .inl (List.mem_append_left _ hT)
      · exact (ih b rfl hb).imp_left (List.mem_append_right _)
  | letIn y v b ihv ih =>
    rw [subst_letIn] at h
    split at h
    · rcases List.mem_append.mp h with hv | hb
      · exact (ihv hv).imp_left (List.mem_append_left _)
      · exact .inl (List.mem_append_right _ hb)
    split at h
    · rcases List.mem_append.mp h with hv | hb
      · exact (ihv hv).imp_left (List.mem_append_left _)
      · exact (mem_typeNames_of_renamed ih hb).imp_left (List.mem_append_right _)
    · rcases List.mem_append.mp h with hv | hb
      · exact (ihv hv).imp_left (List.mem_append_left _)
      · exact (ih b rfl hb).imp_left (List.mem_append_right _)
  | record fields ih =>
    simp only [subst_record, typeNames_record, List.flatMap_map, List.mem_flatMap] at h
    obtain ⟨f, hf, hn⟩ := h
    refine (ih f hf hn).imp_left fun hn => ?_
    rw [typeNames_record]
    exact List.mem_flatMap.mpr ⟨f, hf, hn⟩
  | ite t u v iht ihu ihv =>
    simp only [subst_ite, typeNames, List.mem_append] at h ⊢
    rcases h with (ht | hu) | hv
    · exact (iht ht).imp_left fun h => .inl (.inl h)
    · exact (ihu hu).imp_left fun h => .inl (.inr h)
    · exact (ihv hv).imp_left .inr
  | app t u iht ihu | concat t u iht ihu | pair t u iht ihu | cons t u iht ihu =>
    simp only [subst_app, subst_concat, subst_pair, subst_cons, typeNames, List.mem_append] at h ⊢
    rcases h with ht | hu
    · exact (iht ht).imp_left .inl
    · exact (ihu hu).imp_left .inr
  | succ t ih | pred t ih | isZero t ih | fix t ih | fst t ih | snd t ih | proj t _ ih | isNil t ih
  | head t ih | tail t ih => exact ih h
  | _ => exact .inl h

/-! ## Resolution of annotations -/

section Resolution

variable {ctx ctx' : Context}

theorem resolveTypesFields_congr {fields : List (String × Term)}
    (h : ∀ f ∈ fields, f.2.resolveTypes ctx = f.2.resolveTypes ctx') :
    resolveTypesFields ctx fields = resolveTypesFields ctx' fields := by
  induction fields with
  | nil => rfl
  | cons f fields ih =>
    rw [resolveTypesFields, resolveTypesFields, h f (by simp), ih fun g hg => h g (by simp [hg])]

/-- Resolution of annotations depends only on what the names in them stand for. -/
theorem resolveTypes_congr {t : Term}
    (h : ∀ name ∈ t.typeNames, ctx.abbreviated? name = ctx'.abbreviated? name) :
    t.resolveTypes ctx = t.resolveTypes ctx' := by
  induction t with
  | nil T => rw [resolveTypes, resolveTypes, Ty.resolve_congr h]
  | lam x T t ih =>
    rw [resolveTypes, resolveTypes, Ty.resolve_congr fun n hn => h n (List.mem_append_left _ hn),
      ih fun n hn => h n (List.mem_append_right _ hn)]
  | record fields ih =>
    rw [typeNames_record] at h
    rw [resolveTypes, resolveTypes, resolveTypesFields_congr fun f hf => ih f hf fun n hn =>
      h n (List.mem_flatMap.mpr ⟨f, hf, hn⟩)]
  | ite t u v iht ihu ihv =>
    simp only [typeNames, List.mem_append] at h
    rw [resolveTypes, resolveTypes, iht fun n hn => h n (.inl (.inl hn)),
      ihu fun n hn => h n (.inl (.inr hn)), ihv fun n hn => h n (.inr hn)]
  | app t u iht ihu | letIn x t u iht ihu | concat t u iht ihu | pair t u iht ihu
  | cons t u iht ihu =>
    rw [resolveTypes, resolveTypes, iht fun n hn => h n (List.mem_append_left _ hn),
      ihu fun n hn => h n (List.mem_append_right _ hn)]
  | succ t ih | pred t ih | isZero t ih | fix t ih | fst t ih | snd t ih | proj t _ ih | isNil t ih
  | head t ih | tail t ih => rw [resolveTypes, resolveTypes, ih h]
  | bool | zero | var | string => rfl

/-- The fields keep their variables, and have the names behind those in their annotations. -/
theorem names_of_resolveTypesFields {fields gs : List (String × Term)}
    (ih : ∀ f ∈ fields, ∀ u, f.2.resolveTypes ctx = .ok u →
      u.freeVars = f.2.freeVars ∧ u.typeNames = ctx.namesBehind f.2.typeNames)
    (h : resolveTypesFields ctx fields = .ok gs) :
    freeVarsFields gs = freeVarsFields fields ∧
      typeNamesFields gs = ctx.namesBehind (typeNamesFields fields) := by
  induction fields generalizing gs with
  | nil =>
    obtain rfl : [] = gs := by simpa [resolveTypesFields] using h
    exact ⟨rfl, rfl⟩
  | cons f fields ihf =>
    simp only [resolveTypesFields, TypeError.bind_eq_ok_iff, TypeError.pure_eq_ok_iff] at h
    obtain ⟨u, hu, rest, hrest, rfl⟩ := h
    obtain ⟨hvars, hnames⟩ := ih f (by simp) u hu
    obtain ⟨hvars', hnames'⟩ := ihf (fun g hg => ih g (by simp [hg])) hrest
    rw [freeVarsFields, freeVarsFields, typeNamesFields, typeNamesFields,
      Context.namesBehind_append, hvars, hvars', hnames, hnames']
    exact ⟨rfl, rfl⟩

/-- A term with resolved annotations has the variables that it had, and the names in the types for
which the names in its annotations stood. -/
theorem names_of_resolveTypes {t u : Term} (h : t.resolveTypes ctx = .ok u) :
    u.freeVars = t.freeVars ∧ u.typeNames = ctx.namesBehind t.typeNames := by
  induction t generalizing u with
  | nil T =>
    simp only [resolveTypes, TypeError.bind_eq_ok_iff, TypeError.pure_eq_ok_iff] at h
    obtain ⟨A, hA, rfl⟩ := h
    exact ⟨rfl, Ty.names_of_resolve hA⟩
  | lam x T t ih =>
    simp only [resolveTypes, TypeError.bind_eq_ok_iff, TypeError.pure_eq_ok_iff] at h
    obtain ⟨A, hA, t', ht, rfl⟩ := h
    simp only [freeVars, typeNames, Context.namesBehind_append, Ty.names_of_resolve hA, ih ht,
      and_self]
  | record fields ih =>
    simp only [resolveTypes, TypeError.bind_eq_ok_iff, TypeError.pure_eq_ok_iff] at h
    obtain ⟨gs, hgs, rfl⟩ := h
    exact names_of_resolveTypesFields (fun f hf u => ih f hf) hgs
  | ite t₁ t₂ t₃ ih₁ ih₂ ih₃ =>
    simp only [resolveTypes, TypeError.bind_eq_ok_iff, TypeError.pure_eq_ok_iff] at h
    obtain ⟨u₁, h₁, u₂, h₂, u₃, h₃, rfl⟩ := h
    simp only [freeVars, typeNames, Context.namesBehind_append, ih₁ h₁, ih₂ h₂, ih₃ h₃, and_self]
  | app t₁ t₂ ih₁ ih₂ | letIn x t₁ t₂ ih₁ ih₂ | concat t₁ t₂ ih₁ ih₂ | pair t₁ t₂ ih₁ ih₂
  | cons t₁ t₂ ih₁ ih₂ =>
    simp only [resolveTypes, TypeError.bind_eq_ok_iff, TypeError.pure_eq_ok_iff] at h
    obtain ⟨u₁, h₁, u₂, h₂, rfl⟩ := h
    simp only [freeVars, typeNames, Context.namesBehind_append, ih₁ h₁, ih₂ h₂, and_self]
  | succ t ih | pred t ih | isZero t ih | fix t ih | fst t ih | snd t ih | proj t _ ih | isNil t ih
  | head t ih | tail t ih =>
    simp only [resolveTypes, TypeError.bind_eq_ok_iff, TypeError.pure_eq_ok_iff] at h
    obtain ⟨t', ht, rfl⟩ := h
    simp only [freeVars, typeNames, ih ht, and_self]
  | bool | zero | var | string =>
    obtain rfl := TypeError.pure_eq_ok_iff.mp h
    exact ⟨rfl, rfl⟩

/-- A term with resolved annotations mentions no names when what the names stand for has none. -/
theorem isPlain_of_resolveTypes (hctx : ∀ name A, ctx.abbreviated? name = some A → A.IsPlain)
    {t u : Term} (h : t.resolveTypes ctx = .ok u) : u.IsPlain :=
  (names_of_resolveTypes h).2.trans (Context.namesBehind_eq_nil hctx _)

end Resolution

end Term

end TypedLambda
