import TypedLambda.Proofs.Substitution.FreeVars
import TypedLambda.Proofs.Typing.Inversion

/-!
# What a type depends on

The type of a term, or the error that inference reports, depends on the types of its free variables
and on what the names in its annotations stand for. A closed term without names of types therefore
has the same type everywhere, and a closed term may be put for a variable of its own type.

## Main results

* `Term.typeOf_congr`: contexts that agree on what a term mentions give it the same type
* `Term.typeOf_congr_of_isClosed`, `Term.typeOf_of_isClosed_of_isPlain`: closed terms
* `Term.typeOf_subst`: replacing a variable by a closed term of its type keeps the type
* `Term.exists_typeOf?_of_mem_freeVars`: free variables have types
* `Term.isPlain_of_typeOf`: types inferred from types without names have no names
-/

namespace TypedLambda

namespace Term

/-! ## Contexts that agree -/

theorem typeOfFields_congr {ctx ctx' : Context} {seen : List String}
    {fields gs : List (String × Term)}
    (h : List.Forall₂ (fun f g => f.1 = g.1 ∧ f.2.typeOf ctx = g.2.typeOf ctx') fields gs) :
    typeOfFields ctx seen fields = typeOfFields ctx' seen gs := by
  induction h generalizing seen with
  | nil => rfl
  | cons hfg _ ih => simp only [typeOfFields, hfg.1, hfg.2, ih]

/-- Contexts that agree stay so behind a binder. -/
theorem typeOf?_declare_congr {ctx ctx' : Context} {x : String} {t : Term}
    (h : ∀ y ∈ t.freeVars.filter (· ≠ x), ctx.typeOf? y = ctx'.typeOf? y) (T : Ty) :
    ∀ y ∈ t.freeVars, (ctx.declare x T).typeOf? y = (ctx'.declare x T).typeOf? y := by
  intro y hy
  by_cases hyx : y = x
  · rw [hyx, Context.typeOf?_declare_self, Context.typeOf?_declare_self]
  · rw [Context.typeOf?_declare_of_ne _ hyx, Context.typeOf?_declare_of_ne _ hyx]
    exact h y (List.mem_filter.mpr ⟨hy, by simpa using hyx⟩)

/-- Two contexts that agree on the free variables of a term and on the names in its annotations
give it the same type, or the same error. -/
theorem typeOf_congr {ctx ctx' : Context} {t : Term}
    (hvars : ∀ x ∈ t.freeVars, ctx.typeOf? x = ctx'.typeOf? x)
    (hnames : ∀ name ∈ t.typeNames, ctx.abbreviated? name = ctx'.abbreviated? name) :
    t.typeOf ctx = t.typeOf ctx' := by
  -- for all contexts: behind a binder these are others
  induction t generalizing ctx ctx' with
  | var x => simp only [typeOf, hvars x (by simp [freeVars])]
  | nil T => simp only [typeOf, Ty.resolve_congr hnames]
  | lam x T t ih =>
    have hT := Ty.resolve_congr fun n hn => hnames n (List.mem_append_left _ hn)
    have ht (A : Ty) : t.typeOf (ctx.declare x A) = t.typeOf (ctx'.declare x A) :=
      ih (typeOf?_declare_congr hvars A) fun n hn => hnames n (List.mem_append_right _ hn)
    simp only [typeOf, hT, ht]
  | letIn x t u iht ihu =>
    have ht := iht (fun y hy => hvars y (List.mem_append_left _ hy))
      fun n hn => hnames n (List.mem_append_left _ hn)
    have hu (A : Ty) : u.typeOf (ctx.declare x A) = u.typeOf (ctx'.declare x A) :=
      ihu (typeOf?_declare_congr (fun y hy => hvars y (List.mem_append_right _ hy)) A)
        fun n hn => hnames n (List.mem_append_right _ hn)
    simp only [typeOf, ht, hu]
  | record fields ih =>
    rw [freeVars_record] at hvars
    rw [typeNames_record] at hnames
    have hf : ∀ f ∈ fields, f.1 = f.1 ∧ f.2.typeOf ctx = f.2.typeOf ctx' := fun f hf =>
      ⟨rfl, ih f hf (fun x hx => hvars x (List.mem_flatMap.mpr ⟨f, hf, hx⟩))
        fun n hn => hnames n (List.mem_flatMap.mpr ⟨f, hf, hn⟩)⟩
    simp only [typeOf, typeOfFields_congr (List.forall₂_same.mpr hf)]
  | ite t u v iht ihu ihv =>
    simp only [freeVars, typeNames, List.mem_append, or_imp, forall_and] at hvars hnames
    simp only [typeOf, iht hvars.1.1 hnames.1.1, ihu hvars.1.2 hnames.1.2, ihv hvars.2 hnames.2]
  | app t u iht ihu | concat t u iht ihu | pair t u iht ihu | cons t u iht ihu =>
    simp only [freeVars, typeNames, List.mem_append, or_imp, forall_and] at hvars hnames
    simp only [typeOf, iht hvars.1 hnames.1, ihu hvars.2 hnames.2]
  | succ t ih | pred t ih | isZero t ih | fix t ih | fst t ih | snd t ih | proj t _ ih | isNil t ih
  | head t ih | tail t ih => simp only [typeOf, ih hvars hnames]
  | _ => rfl

section Closed

variable {ctx ctx' : Context} {s t : Term} {x : String} {A T : Ty}

/-- A closed term has the same type in all contexts with the same names of types. -/
theorem typeOf_congr_of_isClosed (ht : t.IsClosed) (h : ctx.types = ctx'.types) :
    t.typeOf ctx = t.typeOf ctx' := by
  refine typeOf_congr (fun x hx => absurd hx (not_mem_freeVars_of_isClosed ht)) fun name _ => ?_
  rw [Context.abbreviated?, h, Context.abbreviated?]

/-- A closed term without names of types has the same type in all contexts. -/
theorem typeOf_of_isClosed_of_isPlain (ht : t.IsClosed) (hp : t.IsPlain) (ctx ctx' : Context) :
    t.typeOf ctx = t.typeOf ctx' := by
  refine typeOf_congr (fun x hx => absurd hx (not_mem_freeVars_of_isClosed ht)) fun name hn => ?_
  rw [show t.typeNames = [] from hp] at hn
  cases hn

/-! ## Closed terms for variables -/

/-- Behind the binder of another variable, a variable and a closed term keep their types. -/
theorem typeOf_declare_of_ne (hs : s.IsClosed) (hx : ctx.typeOf? x = some A)
    (hA : s.typeOf ctx = .ok A) {y : String} (hy : y ≠ x) (B : Ty) :
    (ctx.declare y B).typeOf? x = some A ∧ s.typeOf (ctx.declare y B) = .ok A := by
  refine ⟨?_, ?_⟩
  · rw [Context.typeOf?_declare_of_ne _ (Ne.symm hy), hx]
  · rw [typeOf_congr_of_isClosed hs (Context.types_declare ctx y B), hA]

/-- A variable may be replaced by a closed term of its type: the type of the whole is the same, and
so is the error if there is none. -/
theorem typeOf_subst (hs : s.IsClosed) (hx : ctx.typeOf? x = some A) (hA : s.typeOf ctx = .ok A) :
    (t.subst x s).typeOf ctx = t.typeOf ctx := by
  induction t generalizing ctx with
  | var y =>
    by_cases hy : y = x
    · rw [subst_var, if_pos hy, hA, hy, typeOf_var_eq_ok_iff.mpr hx]
    · rw [subst_var, if_neg hy]
  | lam y T b ih =>
    rw [subst_lam_of_isClosed hs]
    split
    · rfl
    · rename_i hy
      have hb (B : Ty) : (b.subst x s).typeOf (ctx.declare y B) = b.typeOf (ctx.declare y B) := by
        obtain ⟨hx', hA'⟩ := typeOf_declare_of_ne hs hx hA hy B
        exact ih hx' hA'
      simp only [typeOf, hb]
  | letIn y v b ihv ih =>
    rw [subst_letIn_of_isClosed hs]
    split
    · simp only [typeOf, ihv hx hA]
    · rename_i hy
      have hb (B : Ty) : (b.subst x s).typeOf (ctx.declare y B) = b.typeOf (ctx.declare y B) := by
        obtain ⟨hx', hA'⟩ := typeOf_declare_of_ne hs hx hA hy B
        exact ih hx' hA'
      simp only [typeOf, ihv hx hA, hb]
  | record fields ih =>
    have hf : List.Forall₂ (fun f g => f.1 = g.1 ∧ f.2.typeOf ctx = g.2.typeOf ctx)
        (fields.map fun f => (f.1, f.2.subst x s)) fields :=
      List.forall₂_map_left_iff.mpr (List.forall₂_same.mpr fun f hf => ⟨rfl, ih f hf hx hA⟩)
    simp only [subst_record, typeOf, typeOfFields_congr hf]
  | ite t u v iht ihu ihv => simp only [subst_ite, typeOf, iht hx hA, ihu hx hA, ihv hx hA]
  | app t u iht ihu | concat t u iht ihu | pair t u iht ihu | cons t u iht ihu =>
    simp only [subst_app, subst_concat, subst_pair, subst_cons, typeOf, iht hx hA, ihu hx hA]
  | succ t ih | pred t ih | isZero t ih | fix t ih | fst t ih | snd t ih | proj t _ ih | isNil t ih
  | head t ih | tail t ih =>
    simp only [subst_succ, subst_pred, subst_isZero, subst_fix, subst_fst, subst_snd, subst_proj,
      subst_isNil, subst_head, subst_tail, typeOf, ih hx hA]
  | _ => rfl

/-- A closed term of the type of a binder may be put for the variable that it binds. -/
theorem typeOf_subst_declare (hs : s.IsClosed) (hA : s.typeOf ctx = .ok A) :
    (t.subst x s).typeOf ctx = t.typeOf (ctx.declare x A) := by
  have hA' : s.typeOf (ctx.declare x A) = .ok A := by
    rw [typeOf_congr_of_isClosed hs (Context.types_declare ctx x A), hA]
  rw [← typeOf_subst hs (Context.typeOf?_declare_self ctx x A) hA']
  refine typeOf_congr (fun y hy => ?_) fun _ _ => rfl
  rw [freeVars_subst_of_isClosed hs] at hy
  have hyx : y ≠ x := by simpa using (List.mem_filter.mp hy).2
  rw [Context.typeOf?_declare_of_ne _ hyx]

end Closed

/-! ## Free variables -/

theorem exists_mem_of_forall₂ {α β : Type} {R : α → β → Prop} {as : List α} {bs : List β}
    (h : List.Forall₂ R as bs) {b : β} (hb : b ∈ bs) : ∃ a ∈ as, R a b := by
  induction h with
  | nil => cases hb
  | cons hab _ ih =>
    rcases List.mem_cons.mp hb with rfl | hb
    · exact ⟨_, List.mem_cons_self, hab⟩
    · obtain ⟨a, ha, hab⟩ := ih hb
      exact ⟨a, List.mem_cons_of_mem _ ha, hab⟩

/-- Fields with the same labels have what belongs together under the same label. -/
theorem exists_lookup_of_forall₂ {α β : Type} {R : α → β → Prop} {fields : List (String × α)}
    {types : List (String × β)}
    (h : List.Forall₂ (fun f g => f.1 = g.1 ∧ R f.2 g.2) fields types) {label : String} {b : β}
    (hb : types.lookup label = some b) : ∃ a, fields.lookup label = some a ∧ R a b := by
  induction h with
  | nil => cases hb
  | @cons f g _ _ hfg _ ih =>
    rw [List.lookup_cons] at hb ⊢
    rw [hfg.1]
    by_cases hl : label = g.1
    · rw [hl, beq_self_eq_true] at hb ⊢
      obtain rfl := Option.some.inj hb
      exact ⟨f.2, rfl, hfg.2⟩
    · rw [beq_eq_false_iff_ne.mpr hl] at hb ⊢
      exact ih hb

/-- The free variables of a term that has a type have types. -/
theorem exists_typeOf?_of_mem_freeVars {ctx : Context} {t : Term} {T : Ty} {x : String}
    (h : t.typeOf ctx = .ok T) (hx : x ∈ t.freeVars) : ∃ A, ctx.typeOf? x = some A := by
  have outside {ctx : Context} {y : String} {B : Ty} (hxy : x ≠ y)
      (h : ∃ A, (ctx.declare y B).typeOf? x = some A) : ∃ A, ctx.typeOf? x = some A := by
    rwa [Context.typeOf?_declare_of_ne _ hxy] at h
  induction t generalizing ctx T with
  | bool | zero | string | nil => cases hx
  | var y =>
    obtain rfl := List.mem_singleton.mp hx
    exact ⟨T, typeOf_var_eq_ok_iff.mp h⟩
  | succ t ih => exact ih (typeOf_succ_eq_ok_iff.mp h).1 hx
  | pred t ih => exact ih (typeOf_pred_eq_ok_iff.mp h).1 hx
  | isZero t ih => exact ih (typeOf_isZero_eq_ok_iff.mp h).1 hx
  | ite t u v iht ihu ihv =>
    obtain ⟨ht, hu, hv⟩ := typeOf_ite_eq_ok_iff.mp h
    rcases List.mem_append.mp hx with hx | hx
    · exact (List.mem_append.mp hx).elim (iht ht) (ihu hu)
    · exact ihv hv hx
  | lam y A t ih =>
    obtain ⟨B, C, -, ht, -⟩ := typeOf_lam_eq_ok_iff.mp h
    obtain ⟨hx, hxy⟩ := List.mem_filter.mp hx
    exact outside (by simpa using hxy) (ih ht hx)
  | app t u iht ihu =>
    obtain ⟨A, ht, hu⟩ := typeOf_app_eq_ok_iff.mp h
    exact (List.mem_append.mp hx).elim (iht ht) (ihu hu)
  | letIn y t u iht ihu =>
    obtain ⟨A, ht, hu⟩ := typeOf_letIn_eq_ok_iff.mp h
    rcases List.mem_append.mp hx with hx | hx
    · exact iht ht hx
    · obtain ⟨hx, hxy⟩ := List.mem_filter.mp hx
      exact outside (by simpa using hxy) (ihu hu hx)
  | fix t ih => exact ih (typeOf_fix_eq_ok_iff.mp h) hx
  | concat t u iht ihu =>
    obtain ⟨ht, hu, -⟩ := typeOf_concat_eq_ok_iff.mp h
    exact (List.mem_append.mp hx).elim (iht ht) (ihu hu)
  | pair t u iht ihu =>
    obtain ⟨A, B, ht, hu, -⟩ := typeOf_pair_eq_ok_iff.mp h
    exact (List.mem_append.mp hx).elim (iht ht) (ihu hu)
  | fst t ih =>
    obtain ⟨B, ht⟩ := typeOf_fst_eq_ok_iff.mp h
    exact ih ht hx
  | snd t ih =>
    obtain ⟨A, ht⟩ := typeOf_snd_eq_ok_iff.mp h
    exact ih ht hx
  | record fields ih =>
    obtain ⟨-, types, -, htypes⟩ := typeOf_record_eq_ok_iff.mp h
    rw [freeVars_record] at hx
    obtain ⟨f, hf, hx⟩ := List.mem_flatMap.mp hx
    obtain ⟨g, -, -, hg⟩ := exists_mem_of_forall₂ htypes.flip hf
    exact ih f hf hg hx
  | proj t label ih =>
    obtain ⟨types, ht, -⟩ := typeOf_proj_eq_ok_iff.mp h
    exact ih ht hx
  | cons t u iht ihu =>
    obtain ⟨A, ht, hu, -⟩ := typeOf_cons_eq_ok_iff.mp h
    exact (List.mem_append.mp hx).elim (iht ht) (ihu hu)
  | isNil t ih =>
    obtain ⟨⟨A, ht⟩, -⟩ := typeOf_isNil_eq_ok_iff.mp h
    exact ih ht hx
  | head t ih => exact ih (typeOf_head_eq_ok_iff.mp h) hx
  | tail t ih =>
    obtain ⟨A, ht, -⟩ := typeOf_tail_eq_ok_iff.mp h
    exact ih ht hx

/-! ## Types without names -/

/-- What is inferred where variables and names have types without names has no names. -/
theorem isPlain_of_typeOf {ctx : Context} {t : Term} {T : Ty}
    (hvars : ∀ x A, ctx.typeOf? x = some A → A.IsPlain)
    (hnames : ∀ name A, ctx.abbreviated? name = some A → A.IsPlain)
    (h : t.typeOf ctx = .ok T) : T.IsPlain := by
  have declared {ctx : Context} (hvars : ∀ x A, ctx.typeOf? x = some A → A.IsPlain) (x : String)
      {B : Ty} (hB : B.IsPlain) : ∀ y A, (ctx.declare x B).typeOf? y = some A → A.IsPlain := by
    intro y A hA
    by_cases hyx : y = x
    · rw [hyx, Context.typeOf?_declare_self] at hA
      exact Option.some.inj hA ▸ hB
    · rw [Context.typeOf?_declare_of_ne _ hyx] at hA
      exact hvars y A hA
  induction t generalizing ctx T with
  | bool | zero | string =>
    obtain rfl := Except.ok.inj h
    rfl
  | var x => exact hvars x T (typeOf_var_eq_ok_iff.mp h)
  | nil A =>
    obtain ⟨B, hB, rfl⟩ := typeOf_nil_eq_ok_iff.mp h
    exact Ty.isPlain_list.mpr (Ty.isPlain_of_resolve hnames hB)
  | succ t ih =>
    obtain ⟨-, rfl⟩ := typeOf_succ_eq_ok_iff.mp h
    rfl
  | pred t ih =>
    obtain ⟨-, rfl⟩ := typeOf_pred_eq_ok_iff.mp h
    rfl
  | isZero t ih =>
    obtain ⟨-, rfl⟩ := typeOf_isZero_eq_ok_iff.mp h
    rfl
  | ite t u v iht ihu ihv => exact ihu hvars hnames (typeOf_ite_eq_ok_iff.mp h).2.1
  | lam x A t ih =>
    obtain ⟨B, C, hB, hC, rfl⟩ := typeOf_lam_eq_ok_iff.mp h
    have hB := Ty.isPlain_of_resolve hnames hB
    exact Ty.isPlain_arrow.mpr ⟨hB, ih (declared hvars x hB) hnames hC⟩
  | app t u iht ihu =>
    obtain ⟨A, ht, -⟩ := typeOf_app_eq_ok_iff.mp h
    exact (Ty.isPlain_arrow.mp (iht hvars hnames ht)).2
  | letIn x t u iht ihu =>
    obtain ⟨A, ht, hu⟩ := typeOf_letIn_eq_ok_iff.mp h
    exact ihu (declared hvars x (iht hvars hnames ht)) hnames hu
  | fix t ih => exact (Ty.isPlain_arrow.mp (ih hvars hnames (typeOf_fix_eq_ok_iff.mp h))).2
  | concat t u iht ihu =>
    obtain ⟨-, -, rfl⟩ := typeOf_concat_eq_ok_iff.mp h
    rfl
  | pair t u iht ihu =>
    obtain ⟨A, B, ht, hu, rfl⟩ := typeOf_pair_eq_ok_iff.mp h
    exact Ty.isPlain_prod.mpr ⟨iht hvars hnames ht, ihu hvars hnames hu⟩
  | fst t ih =>
    obtain ⟨B, ht⟩ := typeOf_fst_eq_ok_iff.mp h
    exact (Ty.isPlain_prod.mp (ih hvars hnames ht)).1
  | snd t ih =>
    obtain ⟨A, ht⟩ := typeOf_snd_eq_ok_iff.mp h
    exact (Ty.isPlain_prod.mp (ih hvars hnames ht)).2
  | record fields ih =>
    obtain ⟨-, types, rfl, htypes⟩ := typeOf_record_eq_ok_iff.mp h
    refine Ty.isPlain_record.mpr fun g hg => ?_
    obtain ⟨f, hf, hfg⟩ := exists_mem_of_forall₂ htypes hg
    exact ih f hf hvars hnames hfg.2
  | proj t label ih =>
    obtain ⟨types, ht, hT⟩ := typeOf_proj_eq_ok_iff.mp h
    exact Ty.isPlain_record.mp (ih hvars hnames ht) _ (mem_of_lookup hT)
  | cons t u iht ihu =>
    obtain ⟨A, -, hu, rfl⟩ := typeOf_cons_eq_ok_iff.mp h
    exact ihu hvars hnames hu
  | isNil t ih =>
    obtain ⟨-, rfl⟩ := typeOf_isNil_eq_ok_iff.mp h
    rfl
  | head t ih => exact Ty.isPlain_list.mp (ih hvars hnames (typeOf_head_eq_ok_iff.mp h))
  | tail t ih =>
    obtain ⟨A, ht, rfl⟩ := typeOf_tail_eq_ok_iff.mp h
    exact ih hvars hnames ht

end Term

end TypedLambda
