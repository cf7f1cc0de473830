import TypedLambda.Proofs.Reduction.Progress
import TypedLambda.Proofs.Substitution.Environment

/-!
# Normalization

Without general recursion every program ends. The size of a term does not show it, since a value
that is put for a variable may occur many times, so the proof follows the types. The reducible
values of a type are those that may be used as the type allows: a function is reducible when it
comes to an end, with a reducible value, on every reducible argument. A term of which the free
variables are replaced by reducible values comes to an end with a reducible value, or gets stuck; so
does each closed term, which has no variables to replace.

## Main definitions

* `Term.EndsIn`: reduction comes to an end, and if it ends in a value, this has a given property
* `Ty.Reducible`: the values that may be used as their type allows
* `Context.Fits`: an environment of reducible values for the variables of a context
* `Term.hasFix`: whether the fixed point operator occurs in a term

## Main results

* `Term.EndsIn.fill`: a frame around a term whose reduction ends
* `Term.endsIn_substAll`: reducible values for the variables make a term end in a reducible value
* `Term.normalization`: without fixed points, every closed term that has a type has a normal form
-/

namespace TypedLambda

namespace Term

/-! ## Runs that end -/

/-- Reduction comes to an end. If it ends in a value, this has the property `P`; otherwise it is
stuck. -/
inductive EndsIn (P : Term → Prop) : Term → Prop
  | value {v : Term} (hv : v.isValue = true) (h : P v) : EndsIn P v
  | stuck {t : Term} (ht : t.IsNormal) (hv : t.isValue = false) : EndsIn P t
  | step {t u : Term} (h : t.step = some u) (hu : EndsIn P u) : EndsIn P t

variable {P Q : Term → Prop} {t u v : Term}

theorem EndsIn.of_contracts (h : Contracts t u) (hu : EndsIn P u) : EndsIn P t :=
  .step (step_of_contracts h) hu

/-- What a frame makes of the values in which a term may end decides how the whole ends. -/
theorem EndsIn.fill (h : EndsIn P t) (F : Frame)
    (hF : ∀ v, v.isValue = true → P v → EndsIn Q (F.fill v)) : EndsIn Q (F.fill t) := by
  induction h with
  | value hv hP => exact hF _ hv hP
  | @stuck t ht hv =>
    have hnone : t.step = none := ht
    exact .stuck (by rw [IsNormal, step_fill F hv, hnone, Option.map_none]) (isValue_fill F hv)
  | step h _ ih => exact .step (step_fill_of_step F h) ih

/-- A run that ends does so after finitely many steps. -/
theorem EndsIn.exists_steps (h : EndsIn P t) : ∃ n u, steps n t = some u ∧ u.IsNormal := by
  induction h with
  | @value v hv _ => exact ⟨0, v, rfl, step_of_isValue hv⟩
  | @stuck t ht _ => exact ⟨0, t, rfl, ht⟩
  | step h _ ih =>
    obtain ⟨n, u, hu, hnormal⟩ := ih
    exact ⟨n + 1, u, by rw [steps, h, Option.bind_some, hu], hnormal⟩

theorem isClosed_of_isNumeral (h : t.isNumeral = true) : t.IsClosed := by
  induction t with
  | zero => rfl
  | succ t ih =>
    rw [isNumeral, toNat?, Option.isSome_map] at h
    exact ih h
  | _ => cases h

/-- A list that is written out, all of whose elements have the property `P`. -/
inductive ListOf (P : Term → Prop) : Term → Prop
  | nil (T : Ty) : ListOf P (nil T)
  | cons {v w : Term} (hv : P v) (hw : ListOf P w) : ListOf P (cons v w)

end Term

/-! ## Reducible values -/

namespace Ty

open Term (EndsIn ListOf)

mutual

/-- The closed values that may be used as their type allows. No value has a name of a type for its
type. -/
def Reducible : Ty → Term → Prop
  | bool, v => ∃ b, v = .bool b
  | nat, v => v.isNumeral = true
  | string, v => ∃ s, v = .string s
  | arrow A B, v => ∃ x T t, v = .lam x T t ∧ v.IsClosed ∧
      ∀ w, A.Reducible w → EndsIn B.Reducible (t.subst x w)
  | prod A B, v => ∃ v₁ v₂, v = .pair v₁ v₂ ∧ A.Reducible v₁ ∧ B.Reducible v₂
  | record types, v => ∃ fields, v = .record fields ∧ ReducibleFields types fields
  | list A, v => ListOf A.Reducible v
  | named _, _ => False

/-- The fields have the labels of the types, in their order, and reducible values. -/
def ReducibleFields : List (String × Ty) → List (String × Term) → Prop
  | [], [] => True
  | (l, A) :: types, (m, v) :: fields => m = l ∧ A.Reducible v ∧ ReducibleFields types fields
  | _, _ => False

end

variable {A B : Ty} {v : Term}

theorem reducibleFields_iff {types : List (String × Ty)} {fields : List (String × Term)} :
    ReducibleFields types fields ↔
      List.Forall₂ (fun f g => f.1 = g.1 ∧ g.2.Reducible f.2) fields types := by
  induction types generalizing fields with
  | nil => cases fields <;> simp [ReducibleFields]
  | cons g types ih => cases fields <;> simp [ReducibleFields, ih, and_assoc]

/-- A list of closed values is a closed value. -/
theorem isValue_of_listOf {P : Term → Prop} (hP : ∀ v, P v → v.isValue = true ∧ v.IsClosed)
    (h : ListOf P v) : v.isValue = true ∧ v.IsClosed := by
  induction h with
  | nil T => exact ⟨rfl, rfl⟩
  | cons hv _ ih =>
    obtain ⟨hv, hvc⟩ := hP _ hv
    exact ⟨Bool.and_eq_true_iff.mpr ⟨hv, ih.1⟩, List.append_eq_nil_iff.mpr ⟨hvc, ih.2⟩⟩

/-- Reducible values are values, and closed. -/
theorem Reducible.isValue_isClosed (h : A.Reducible v) : v.isValue = true ∧ v.IsClosed := by
  induction A generalizing v with
  | bool | string =>
    obtain ⟨b, rfl⟩ := h
    exact ⟨rfl, rfl⟩
  | nat => exact ⟨Term.isValue_of_isNumeral h, Term.isClosed_of_isNumeral h⟩
  | arrow A B =>
    obtain ⟨x, T, t, rfl, hc, -⟩ := h
    exact ⟨rfl, hc⟩
  | prod A B ihA ihB =>
    obtain ⟨v, w, rfl, hv, hw⟩ := h
    obtain ⟨hv, hvc⟩ := ihA hv
    obtain ⟨hw, hwc⟩ := ihB hw
    exact ⟨Bool.and_eq_true_iff.mpr ⟨hv, hw⟩, List.append_eq_nil_iff.mpr ⟨hvc, hwc⟩⟩
  | record types ih =>
    obtain ⟨fields, rfl, hfields⟩ := h
    have each (f : String × Term) (hf : f ∈ fields) : f.2.isValue = true ∧ f.2.IsClosed := by
      obtain ⟨g, hg, -, hgf⟩ := Term.exists_mem_of_forall₂ (reducibleFields_iff.mp hfields).flip hf
      exact ih g hg hgf
    rw [Term.isValue_record, List.all_eq_true, Term.IsClosed, Term.freeVars_record,
      List.flatMap_eq_nil_iff]
    exact ⟨fun f hf => (each f hf).1, fun f hf => (each f hf).2⟩
  | list A ih => exact isValue_of_listOf (fun _ => ih) h
  | named name => cases h

theorem Reducible.isValue (h : A.Reducible v) : v.isValue = true :=
  h.isValue_isClosed.1

/-- A reducible value is its own end. -/
theorem Reducible.endsIn (h : A.Reducible v) : EndsIn A.Reducible v :=
  .value h.isValue h

end Ty

namespace Context

variable {ctx : Context} {env : Env} {x : String} {A : Ty} {v : Term}

/-- The environment has a reducible value for every variable of the context. -/
structure Fits (ctx : Context) (env : Env) : Prop where
  /-- All values are closed. -/
  closed : env.IsClosed
  /-- The value that counts for a variable may be used as the type of the variable allows. -/
  reducible : ∀ x A, ctx.typeOf? x = some A → ∃ v, env.lookup x = some v ∧ A.Reducible v

/-- Behind a binder there is one more value, which comes in the place of others for its variable. -/
theorem Fits.declare (h : ctx.Fits env) (hv : A.Reducible v) :
    (ctx.declare x A).Fits (env.hide x ++ [(x, v)]) where
  closed := (h.closed.hide x).append hv.isValue_isClosed.2
  reducible := by
    intro y B hB
    by_cases hy : y = x
    · rw [hy, typeOf?_declare_self] at hB
      obtain rfl := Option.some.inj hB
      exact ⟨v, by rw [hy, Env.lookup_hide_append_self], hv⟩
    · rw [typeOf?_declare_of_ne _ hy] at hB
      obtain ⟨w, hw, hwB⟩ := h.reducible y B hB
      exact ⟨w, by rw [Env.lookup_hide_append_of_ne hy, hw], hwB⟩

/-- The values of an environment close every term that has a type. -/
theorem Fits.isClosed_substAll (h : ctx.Fits env) {t : Term} {T : Ty} (hT : t.typeOf ctx = .ok T) :
    (t.substAll env).IsClosed := by
  rw [Term.IsClosed, List.eq_nil_iff_forall_not_mem]
  intro y hy
  obtain ⟨hyt, hnone⟩ := (Term.mem_freeVars_substAll h.closed).mp hy
  obtain ⟨A, hA⟩ := Term.exists_typeOf?_of_mem_freeVars hT hyt
  obtain ⟨v, hv, -⟩ := h.reducible y A hA
  rw [hnone] at hv
  cases hv

end Context

namespace Term

/-! ## The fixed point operator -/

mutual

/-- Whether the fixed point operator occurs in the term. -/
def hasFix : Term → Bool
  | bool _ | zero | var _ | string _ | nil _ => false
  | fix _ => true
  | succ t | pred t | isZero t | lam _ _ t | fst t | snd t | proj t _ | isNil t | head t
  | tail t => t.hasFix
  | app t u | letIn _ t u | concat t u | pair t u | cons t u => t.hasFix || u.hasFix
  | ite t u v => t.hasFix || u.hasFix || v.hasFix
  | record fields => hasFixFields fields

/-- Whether the fixed point operator occurs in one of the fields. -/
def hasFixFields : List (String × Term) → Bool
  | [] => false
  | (_, t) :: fields => t.hasFix || hasFixFields fields

end

theorem hasFixFields_eq_any (fields : List (String × Term)) :
    hasFixFields fields = fields.any fun f => f.2.hasFix := by
  induction fields with
  | nil => rfl
  | cons f fields ih => rw [hasFixFields, ih, List.any_cons]

/-- The fixed point operator occurs at the root or in a part. -/
theorem hasFix_eq_true_iff {t : Term} :
    t.hasFix = true ↔ (∃ u, t = fix u) ∨ ∃ s ∈ t.parts, s.hasFix = true := by
  cases t with
  | record fields =>
    simp only [hasFix, hasFixFields_eq_any, parts, List.any_eq_true, List.mem_map,
      exists_exists_and_eq_and, reduceCtorEq, exists_false, false_or]
  | _ => simp [hasFix, parts, or_assoc]

/-- The fixed point operator is found wherever it occurs. -/
theorem hasFix_iff_exists_occurs {t : Term} : t.hasFix = true ↔ ∃ u, (fix u).Occurs t := by
  constructor
  · intro h
    induction t using parts_induct with
    | step t ih =>
      rcases hasFix_eq_true_iff.mp h with ⟨u, rfl⟩ | ⟨s, hs, hfix⟩
      · exact ⟨u, .here⟩
      · obtain ⟨u, hu⟩ := ih s hs hfix
        exact ⟨u, .inside hs hu⟩
  · rintro ⟨u, h⟩
    induction h with
    | here => rfl
    | inside hs _ ih => exact hasFix_eq_true_iff.mpr (.inr ⟨_, hs, ih⟩)

/-! ## Normalization -/

section Reducible

variable {ctx : Context} {env : Env}

/-- Fields that end in reducible values make a record that does; those before them are values. -/
theorem endsIn_record {before fields : List (String × Term)} {types' types : List (String × Ty)}
    (hbefore : List.Forall₂ (fun f g => f.1 = g.1 ∧ g.2.Reducible f.2) before types')
    (hfields : List.Forall₂ (fun f g => f.1 = g.1 ∧ EndsIn g.2.Reducible f.2) fields types) :
    EndsIn (Ty.record (types' ++ types)).Reducible (record (before ++ fields)) := by
  induction hfields generalizing before types' with
  | nil =>
    have hreducible : (Ty.record types').Reducible (record before) :=
      ⟨before, rfl, Ty.reducibleFields_iff.mpr hbefore⟩
    rw [List.append_nil, List.append_nil]
    exact hreducible.endsIn
  | @cons f g fields types hf _ ih =>
    have hv (f : String × Term) (hf : f ∈ before) : f.2.isValue = true := by
      obtain ⟨g, -, -, hgf⟩ := exists_mem_of_forall₂ hbefore.flip hf
      exact hgf.isValue
    refine hf.2.fill (.record before hv f.1 fields) fun v _ hvA => ?_
    have hmore := List.rel_append hbefore (.cons (a := (f.1, v)) ⟨hf.1, hvA⟩ .nil)
    have hrest := ih hmore
    rwa [List.append_assoc, List.append_assoc] at hrest

/-- Where the variables have reducible values, a term without fixed points ends in a reducible value
of its type, or gets stuck. -/
theorem endsIn_substAll {t : Term} {T : Ty} (henv : ctx.Fits env) (hT : t.typeOf ctx = .ok T)
    (hfix : t.hasFix = false) : EndsIn T.Reducible (t.substAll env) := by
  -- behind a binder there are another context and another environment; each part is reduced in its
  -- frame, and where it has ended in a reducible value, this is one that a rule fits
  induction t generalizing ctx env T with
  | bool b =>
    rw [typeOf_bool] at hT
    obtain rfl := Except.ok.inj hT
    rw [substAll_bool]
    exact .value rfl ⟨b, rfl⟩
  | zero =>
    rw [typeOf_zero] at hT
    obtain rfl := Except.ok.inj hT
    rw [substAll_zero]
    exact .value rfl rfl
  | string s =>
    rw [typeOf_string] at hT
    obtain rfl := Except.ok.inj hT
    rw [substAll_string]
    exact .value rfl ⟨s, rfl⟩
  | var x =>
    obtain ⟨v, hv, hvT⟩ := henv.reducible x T (typeOf_var_eq_ok_iff.mp hT)
    rw [substAll_var henv.closed, hv, Option.getD_some]
    exact hvT.endsIn
  | nil A =>
    obtain ⟨B, -, rfl⟩ := typeOf_nil_eq_ok_iff.mp hT
    rw [substAll_nil]
    exact .value rfl (.nil A)
  | succ t ih =>
    obtain ⟨ht, rfl⟩ := typeOf_succ_eq_ok_iff.mp hT
    rw [substAll_succ]
    refine (ih henv ht hfix).fill .succ fun n _ hn => ?_
    have hsucc : (succ n).isNumeral = true := by
      rw [isNumeral, toNat?, Option.isSome_map]
      exact hn
    exact .value (isValue_of_isNumeral hsucc) hsucc
  | pred t ih =>
    obtain ⟨ht, rfl⟩ := typeOf_pred_eq_ok_iff.mp hT
    rw [substAll_pred]
    refine (ih henv ht hfix).fill .pred fun n _ hn => ?_
    obtain rfl | ⟨m, rfl, hm⟩ := eq_zero_or_succ_of_isNumeral hn
    · exact .of_contracts .predZero (.value rfl rfl)
    · exact .of_contracts (.predSucc hm) (.value (isValue_of_isNumeral hm) hm)
  | isZero t ih =>
    obtain ⟨ht, rfl⟩ := typeOf_isZero_eq_ok_iff.mp hT
    rw [substAll_isZero]
    refine (ih henv ht hfix).fill .isZero fun n _ hn => ?_
    obtain rfl | ⟨m, rfl, hm⟩ := eq_zero_or_succ_of_isNumeral hn
    · exact .of_contracts .isZeroZero (.value rfl ⟨true, rfl⟩)
    · exact .of_contracts (.isZeroSucc hm) (.value rfl ⟨false, rfl⟩)
  | ite t u v iht ihu ihv =>
    obtain ⟨ht, hu, hv⟩ := typeOf_ite_eq_ok_iff.mp hT
    simp only [hasFix, Bool.or_eq_false_iff] at hfix
    rw [substAll_ite]
    refine (iht henv ht hfix.1.1).fill (.ite _ _) fun w _ hw => ?_
    obtain ⟨b, rfl⟩ := hw
    cases b
    · exact .of_contracts (.iteFalse _ _) (ihv henv hv hfix.2)
    · exact .of_contracts (.iteTrue _ _) (ihu henv hu hfix.1.2)
  | lam x A t ih =>
    obtain ⟨B, C, -, ht, rfl⟩ := typeOf_lam_eq_ok_iff.mp hT
    have hclosed := henv.isClosed_substAll hT
    rw [substAll_lam henv.closed] at hclosed ⊢
    refine .value rfl ⟨x, A, _, rfl, hclosed, fun w hw => ?_⟩
    rw [← substAll_append]
    exact ih (henv.declare hw) ht hfix
  | app t u iht ihu =>
    obtain ⟨A, ht, hu⟩ := typeOf_app_eq_ok_iff.mp hT
    simp only [hasFix, Bool.or_eq_false_iff] at hfix
    rw [substAll_app]
    refine (iht henv ht hfix.1).fill (.appFun _) fun f _ hf => ?_
    obtain ⟨x, C, b, rfl, -, hb⟩ := hf
    refine (ihu henv hu hfix.2).fill (.appArg (lam x C b) rfl) fun w hw hwA => ?_
    exact .of_contracts (.app x C b hw) (hb w hwA)
  | letIn x t u iht ihu =>
    obtain ⟨A, ht, hu⟩ := typeOf_letIn_eq_ok_iff.mp hT
    simp only [hasFix, Bool.or_eq_false_iff] at hfix
    rw [substAll_letIn henv.closed]
    refine (iht henv ht hfix.1).fill (.letIn x _) fun w hw hwA => ?_
    refine .of_contracts (.letIn x hw _) ?_
    rw [← substAll_append]
    exact ihu (henv.declare hwA) hu hfix.2
  | fix t => cases hfix
  | concat t u iht ihu =>
    obtain ⟨ht, hu, rfl⟩ := typeOf_concat_eq_ok_iff.mp hT
    simp only [hasFix, Bool.or_eq_false_iff] at hfix
    rw [substAll_concat]
    refine (iht henv ht hfix.1).fill (.concatFirst _) fun v _ hv => ?_
    obtain ⟨s, rfl⟩ := hv
    refine (ihu henv hu hfix.2).fill (.concatSecond s) fun w _ hw => ?_
    obtain ⟨r, rfl⟩ := hw
    exact .of_contracts (.concat s r) (.value rfl ⟨s ++ r, rfl⟩)
  | pair t u iht ihu =>
    obtain ⟨A, B, ht, hu, rfl⟩ := typeOf_pair_eq_ok_iff.mp hT
    simp only [hasFix, Bool.or_eq_false_iff] at hfix
    rw [substAll_pair]
    refine (iht henv ht hfix.1).fill (.pairFirst _) fun v hv hvA => ?_
    refine (ihu henv hu hfix.2).fill (.pairSecond v hv) fun w hw hwB => ?_
    exact .value (Bool.and_eq_true_iff.mpr ⟨hv, hw⟩) ⟨v, w, rfl, hvA, hwB⟩
  | fst t ih =>
    obtain ⟨B, ht⟩ := typeOf_fst_eq_ok_iff.mp hT
    rw [substAll_fst]
    refine (ih henv ht hfix).fill .fst fun p _ hp => ?_
    obtain ⟨v, w, rfl, hv, hw⟩ := hp
    exact .of_contracts (.fst hv.isValue hw.isValue) hv.endsIn
  | snd t ih =>
    obtain ⟨A, ht⟩ := typeOf_snd_eq_ok_iff.mp hT
    rw [substAll_snd]
    refine (ih henv ht hfix).fill .snd fun p _ hp => ?_
    obtain ⟨v, w, rfl, hv, hw⟩ := hp
    exact .of_contracts (.snd hv.isValue hw.isValue) hw.endsIn
  | record fields ih =>
    obtain ⟨-, types, rfl, htypes⟩ := typeOf_record_eq_ok_iff.mp hT
    simp only [hasFix, hasFixFields_eq_any, List.any_eq_false, Bool.not_eq_true] at hfix
    rw [substAll_record]
    have each : ∀ f ∈ fields, ∀ A, f.2.typeOf ctx = .ok A →
        EndsIn A.Reducible (f.2.substAll env) :=
      fun f hf A hA => ih f hf henv hA (hfix f hf)
    refine endsIn_record .nil (List.forall₂_map_left_iff.mpr ?_)
    refine ((List.forall₂_and_left fields types).mpr ⟨each, htypes⟩).imp fun f g hfg => ?_
    exact ⟨hfg.2.1, hfg.1 g.2 hfg.2.2⟩
  | proj t label ih =>
    obtain ⟨types, ht, hl⟩ := typeOf_proj_eq_ok_iff.mp hT
    rw [substAll_proj]
    refine (ih henv ht hfix).fill (.proj label) fun r hr hrA => ?_
    obtain ⟨fields, rfl, hfields⟩ := hrA
    obtain ⟨v, hlv, hv⟩ := exists_lookup_of_forall₂ (R := fun v (A : Ty) => A.Reducible v)
      (Ty.reducibleFields_iff.mp hfields) hl
    rw [isValue_record, List.all_eq_true] at hr
    exact .of_contracts (.proj hr hlv) hv.endsIn
  | cons t u iht ihu =>
    obtain ⟨A, ht, hu, rfl⟩ := typeOf_cons_eq_ok_iff.mp hT
    simp only [hasFix, Bool.or_eq_false_iff] at hfix
    rw [substAll_cons]
    refine (iht henv ht hfix.1).fill (.consHead _) fun v hv hvA => ?_
    refine (ihu henv hu hfix.2).fill (.consTail v hv) fun w hw hwA => ?_
    exact .value (Bool.and_eq_true_iff.mpr ⟨hv, hw⟩) (.cons hvA hwA)
  | isNil t ih =>
    obtain ⟨⟨A, ht⟩, rfl⟩ := typeOf_isNil_eq_ok_iff.mp hT
    rw [substAll_isNil]
    refine (ih henv ht hfix).fill .isNil fun l hl hlA => ?_
    cases hlA with
    | nil B => exact .of_contracts (.isNilNil B) (.value rfl ⟨true, rfl⟩)
    | cons =>
      obtain ⟨hv, hw⟩ := Bool.and_eq_true_iff.mp hl
      exact .of_contracts (.isNilCons hv hw) (.value rfl ⟨false, rfl⟩)
  | head t ih =>
    rw [substAll_head]
    refine (ih henv (typeOf_head_eq_ok_iff.mp hT) hfix).fill .head fun l hl hlA => ?_
    cases hlA with
    | nil B => exact .stuck rfl rfl
    | cons hvA =>
      obtain ⟨hv, hw⟩ := Bool.and_eq_true_iff.mp hl
      exact .of_contracts (.head hv hw) (.value hv hvA)
  | tail t ih =>
    obtain ⟨A, ht, rfl⟩ := typeOf_tail_eq_ok_iff.mp hT
    rw [substAll_tail]
    refine (ih henv ht hfix).fill .tail fun l hl hlA => ?_
    cases hlA with
    | nil B => exact .stuck rfl rfl
    | cons _ hwA =>
      obtain ⟨hv, hw⟩ := Bool.and_eq_true_iff.mp hl
      exact .of_contracts (.tail hv hw) (.value hw hwA)

end Reducible

/-- **Normalization**: a closed term that has a type and in which no fixed point is taken has a
normal form, whatever the context. Its evaluation finishes there with every number of steps that is
large enough. -/
theorem normalization {ctx : Context} {t : Term} {T : Ty} (hc : t.IsClosed)
    (hT : t.typeOf ctx = .ok T) (hfix : ∀ u, ¬(fix u).Occurs t) :
    ∃ n u, steps n t = some u ∧ u.IsNormal ∧
      ∀ m, n ≤ m → outcome (fun _ => false) m t = .finished u := by
  have hT : t.typeOf { types := ctx.types } = .ok T := by
    rw [← hT]
    exact typeOf_congr_of_isClosed hc rfl
  have henv : Context.Fits { types := ctx.types } [] := ⟨Env.isClosed_nil, fun _ _ h => nomatch h⟩
  have hfix : t.hasFix = false := by
    rw [← Bool.not_eq_true, hasFix_iff_exists_occurs, not_exists]
    exact hfix
  obtain ⟨n, u, hu, hnormal⟩ := (endsIn_substAll henv hT hfix).exists_steps
  rw [substAll_empty] at hu
  exact ⟨n, u, hu, hnormal, fun m hm => outcome_eq_finished_mono (outcome_of_steps hu hnormal) hm⟩

/-- A function that applies its argument twice has the successor of a successor as its result. -/
theorem normalization_twice :
    let t := app (lam "f" (.arrow .nat .nat) (app (var "f") (app (var "f") zero)))
      (lam "x" .nat (succ (var "x")))
    steps 3 t = some (succ (succ zero)) ∧
      ∃ n u, steps n t = some u ∧ u.IsNormal ∧
        ∀ m, n ≤ m → outcome (fun _ => false) m t = .finished u := by
  intro t
  have hfix : ∀ u, ¬(fix u).Occurs t := by
    rw [← not_exists, ← hasFix_iff_exists_occurs]
    decide
  exact ⟨by decide, normalization (T := .nat) (show t.IsClosed by decide)
    (show t.typeOf {} = _ by decide) hfix⟩

end Term

end TypedLambda
