import TypedLambda.Proofs.Reduction.Preservation
import TypedLambda.Proofs.Substitution.Alpha

/-!
# Bound names do not matter

Terms that differ in the names of their binders have the same type, or the same error, and closed
ones reduce in lockstep: where the one takes a step, so does the other, and what they step to
differs in the names of binders again. The terms may shadow names in different ways. A step is
followed along the frames around its redex; corresponding frames have corresponding holes.

## Main definitions

* `Frame.Corresponds`: frames that differ in the names of their binders
* `Term.ClosedAlphaEquiv`: closed terms that differ in the names of their binders

## Main results

* `Term.AlphaUnder.typeOf_eq`: the same type, or the same error
* `Term.AlphaUnder.isValue_eq`: values correspond to values
* `Term.AlphaEquiv.exists_contracts`, `Term.AlphaEquiv.exists_fill`: redexes and frames
* `Term.AlphaEquiv.lockstep`: closed terms that differ in the names of their binders only
-/

namespace TypedLambda

/-- Around terms that differ in the names of their binders, the two frames do so, too. -/
def Frame.Corresponds (F G : Frame) : Prop :=
  ∀ t u : Term, t.AlphaEquiv u → (F.fill t).AlphaEquiv (G.fill u)

namespace Term

variable {bs : Binders} {t t' u : Term}

/-! ## Types -/

/-- Corresponding fields stand at the same places, so what holds of the terms of each two of them
is a relation of the fields. -/
theorem AlphaFields.imp_of_mem {fields fields' : List (String × Term)}
    (h : AlphaFields bs fields fields') {R : Term → Term → Prop}
    (hR : ∀ f ∈ fields, ∀ u, AlphaUnder bs f.2 u → R f.2 u) :
    List.Forall₂ (fun f g => f.1 = g.1 ∧ R f.2 g.2) fields fields' := by
  induction h with
  | nil => exact .nil
  | @cons f g fields _ hfg _ ih =>
    have hrest := ih fun f hf => hR f (List.mem_cons_of_mem _ hf)
    exact .cons ⟨hfg.1, hR f List.mem_cons_self g.2 hfg.2⟩ hrest

/-- Behind one more pair of binders with the same type, corresponding variables have the same
types as before. -/
theorem typeOf_var_declare_congr {ctx ctx' : Context}
    (hvars : ∀ x y, bs.Matches x y → (Term.var x).typeOf ctx = (Term.var y).typeOf ctx')
    (a b : String) (A : Ty) : ∀ x y, Binders.Matches ((a, b) :: bs) x y →
      (Term.var x).typeOf (ctx.declare a A) = (Term.var y).typeOf (ctx'.declare b A) := by
  intro x y hxy
  rcases Binders.matches_cons_iff.mp hxy with ⟨rfl, rfl⟩ | ⟨hx, hy, hxy⟩
  · simp only [typeOf, Context.typeOf?_declare_self]
  · have h := hvars x y hxy
    simp only [typeOf] at h ⊢
    rw [Context.typeOf?_declare_of_ne _ hx, Context.typeOf?_declare_of_ne _ hy, h]

/-- Terms that differ in the names of their binders have the same type, or the same error, where
corresponding variables do. -/
theorem AlphaUnder.typeOf_eq {ctx ctx' : Context} (h : AlphaUnder bs t u)
    (hvars : ∀ x y, bs.Matches x y → (Term.var x).typeOf ctx = (Term.var y).typeOf ctx')
    (htypes : ctx.types = ctx'.types) : t.typeOf ctx = u.typeOf ctx' := by
  have resolved {ctx ctx' : Context} (htypes : ctx.types = ctx'.types) (A : Ty) :
      A.resolve ctx = A.resolve ctx' :=
    Ty.resolve_congr fun name _ => by rw [Context.abbreviated?, htypes, Context.abbreviated?]
  -- on the term and not on the relation, which has a rule for each field of a record
  induction t generalizing bs u ctx ctx' with
  | bool | zero | string =>
    cases h
    rfl
  | var x =>
    cases h with
    | var h => exact hvars _ _ h
  | nil T =>
    cases h
    simp only [typeOf, resolved htypes]
  | lam x T t ih =>
    cases h with
    | @lam _ _ y _ _ u h =>
      have hbody (A : Ty) : t.typeOf (ctx.declare x A) = u.typeOf (ctx'.declare y A) :=
        ih h (typeOf_var_declare_congr hvars x y A) htypes
      simp only [typeOf, resolved htypes, hbody]
  | letIn x t t' ih ih' =>
    cases h with
    | @letIn _ _ y _ u _ u' h h' =>
      have hbody (A : Ty) : t'.typeOf (ctx.declare x A) = u'.typeOf (ctx'.declare y A) :=
        ih' h' (typeOf_var_declare_congr hvars x y A) htypes
      simp only [typeOf, ih h hvars htypes, hbody]
  | record fields ih =>
    obtain ⟨fields', rfl, hfields⟩ := h.fields
    have htyped := hfields.imp_of_mem (R := fun t u => t.typeOf ctx = u.typeOf ctx')
      fun f hf u hu => ih f hf hu hvars htypes
    simp only [typeOf, typeOfFields_congr htyped]
  | ite t t' t'' ih ih' ih'' =>
    cases h with
    | ite h h' h'' =>
      simp only [typeOf, ih h hvars htypes, ih' h' hvars htypes, ih'' h'' hvars htypes]
  | app _ _ ih ih' | concat _ _ ih ih' | pair _ _ ih ih' | cons _ _ ih ih' =>
    cases h
    rename_i h h'
    simp only [typeOf, ih h hvars htypes, ih' h' hvars htypes]
  | succ _ ih | pred _ ih | isZero _ ih | fix _ ih | fst _ ih | snd _ ih | proj _ _ ih | isNil _ ih
  | head _ ih | tail _ ih =>
    cases h
    rename_i h
    simp only [typeOf, ih h hvars htypes]

/-! ## Values -/

theorem AlphaUnder.isNumeral_eq (h : AlphaUnder bs t u) : t.isNumeral = u.isNumeral := by
  have hn : t.toNat? = u.toNat? := by
    induction h with
    | succ _ ih => rw [toNat?, toNat?, ih]
    | _ => rfl
  rw [isNumeral, isNumeral, hn]

/-- Terms that differ in the names of their binders are values together. -/
theorem AlphaUnder.isValue_eq (h : AlphaUnder bs t u) : t.isValue = u.isValue := by
  induction h with
  | succ h _ => rw [isValue, isValue, h.isNumeral_eq]
  | pair _ _ ih ih' | cons _ _ ih ih' => rw [isValue, isValue, ih, ih']
  | record _ _ _ ih ih' =>
    rw [isValue_record, isValue_record] at ih' ⊢
    rw [List.all_cons, List.all_cons, ih, ih']
  | _ => rfl

/-- Where all fields are values, so are their counterparts. -/
theorem AlphaFields.forall_isValue {fields fields' : List (String × Term)}
    (h : AlphaFields bs fields fields') (hv : ∀ f ∈ fields, f.2.isValue = true) :
    ∀ g ∈ fields', g.2.isValue = true := by
  intro g hg
  obtain ⟨f, hf, -, hfg⟩ := exists_mem_of_forall₂ h hg
  rw [← hfg.isValue_eq, hv f hf]

/-! ## Redexes -/

/-- Corresponding records have the same labels, and the fields that they find under them
correspond. -/
theorem AlphaFields.exists_lookup {fields fields' : List (String × Term)}
    (h : AlphaFields bs fields fields') {label : String} {v : Term}
    (hl : fields.lookup label = some v) :
    ∃ w, fields'.lookup label = some w ∧ AlphaUnder bs v w :=
  exists_lookup_of_forall₂ (R := fun w v => AlphaUnder bs v w)
    (List.Forall₂.imp (fun _ _ hfg => ⟨hfg.1.symm, hfg.2⟩) h.flip) hl

/-- Where a closed term is a redex, so is each term that differs in the names of its binders. -/
theorem AlphaEquiv.exists_contracts (h : t.AlphaEquiv u) (ht : t.IsClosed)
    (hc : Contracts t t') : ∃ u', Contracts u u' ∧ t'.AlphaEquiv u' := by
  unfold AlphaEquiv at h
  cases hc with
  | iteTrue =>
    cases h with
    | ite hb h _ =>
      cases hb
      exact ⟨_, .iteTrue _ _, h⟩
  | iteFalse =>
    cases h with
    | ite hb _ h =>
      cases hb
      exact ⟨_, .iteFalse _ _, h⟩
  | predZero =>
    cases h with
    | pred hn =>
      cases hn
      exact ⟨_, .predZero, .zero []⟩
  | predSucc hn =>
    cases h with
    | pred h =>
      cases h with
      | succ h => exact ⟨_, .predSucc (h.isNumeral_eq ▸ hn), h⟩
  | isZeroZero =>
    cases h with
    | isZero hn =>
      cases hn
      exact ⟨_, .isZeroZero, .bool [] true⟩
  | isZeroSucc hn =>
    cases h with
    | isZero h =>
      cases h with
      | succ h => exact ⟨_, .isZeroSucc (h.isNumeral_eq ▸ hn), .bool [] false⟩
  | @app x T b v hv =>
    have hclosed : v.IsClosed := isClosed_of_fill (F := .appArg (Term.lam x T b) rfl) ht
    cases h with
    | app hf hvw =>
      cases hf with
      | lam _ hb => exact ⟨_, .app _ T _ (hvw.isValue_eq ▸ hv), hb.subst hclosed hvw⟩
  | @letIn x v hv b =>
    have hclosed : v.IsClosed := isClosed_of_fill (F := .letIn x b) ht
    cases h with
    | letIn hvw hb => exact ⟨_, .letIn _ (hvw.isValue_eq ▸ hv) _, hb.subst hclosed hvw⟩
  | @fix x T b =>
    cases h with
    | fix hf =>
      cases hf with
      | lam _ hb => exact ⟨_, .fix _ T _, hb.subst ht (.fix (.lam T hb))⟩
  | concat s r =>
    cases h with
    | concat hs hr =>
      cases hs
      cases hr
      exact ⟨_, .concat s r, .string [] (s ++ r)⟩
  | fst hv hw =>
    cases h with
    | fst h =>
      cases h with
      | pair h h' => exact ⟨_, .fst (h.isValue_eq ▸ hv) (h'.isValue_eq ▸ hw), h⟩
  | snd hv hw =>
    cases h with
    | snd h =>
      cases h with
      | pair h h' => exact ⟨_, .snd (h.isValue_eq ▸ hv) (h'.isValue_eq ▸ hw), h'⟩
  | proj hv hl =>
    cases h with
    | proj h label =>
      obtain ⟨fields', rfl, hfields⟩ := h.fields
      obtain ⟨w, hw, hvw⟩ := hfields.exists_lookup hl
      exact ⟨w, .proj (hfields.forall_isValue hv) hw, hvw⟩
  | isNilNil T =>
    cases h with
    | isNil h =>
      cases h
      exact ⟨_, .isNilNil T, .bool [] true⟩
  | isNilCons hv hw =>
    cases h with
    | isNil h =>
      cases h with
      | cons h h' =>
        exact ⟨_, .isNilCons (h.isValue_eq ▸ hv) (h'.isValue_eq ▸ hw), .bool [] false⟩
  | head hv hw =>
    cases h with
    | head h =>
      cases h with
      | cons h h' => exact ⟨_, .head (h.isValue_eq ▸ hv) (h'.isValue_eq ▸ hw), h⟩
  | tail hv hw =>
    cases h with
    | tail h =>
      cases h with
      | cons h h' => exact ⟨_, .tail (h.isValue_eq ▸ hv) (h'.isValue_eq ▸ hw), h'⟩

/-! ## Frames -/

/-- The fields before and behind a field have their counterparts on the same sides. -/
theorem AlphaFields.exists_append {before after fields' : List (String × Term)} {label : String}
    (h : AlphaFields bs (before ++ (label, t) :: after) fields') :
    ∃ before' u after', fields' = before' ++ (label, u) :: after' ∧
      AlphaFields bs before before' ∧ AlphaUnder bs t u ∧ AlphaFields bs after after' := by
  induction before generalizing fields' with
  | nil =>
    obtain ⟨⟨_, u⟩, after', ⟨rfl, hu⟩, hafter, rfl⟩ := List.forall₂_cons_left_iff.mp h
    exact ⟨[], u, after', rfl, .nil, hu, hafter⟩
  | cons f before ih =>
    obtain ⟨g, rest, hfg, hrest, rfl⟩ := List.forall₂_cons_left_iff.mp h
    obtain ⟨before', u, after', rfl, hbefore, hu, hafter⟩ := ih hrest
    exact ⟨g :: before', u, after', rfl, .cons hfg hbefore, hu, hafter⟩

/-- A term that differs from a frame around `t` in the names of its binders is a frame around a
counterpart of `t`. -/
theorem AlphaEquiv.exists_fill {F : Frame} (h : (F.fill t).AlphaEquiv u) :
    ∃ (G : Frame) (s : Term), u = G.fill s ∧ t.AlphaEquiv s ∧ F.Corresponds G := by
  unfold AlphaEquiv at h
  cases F with
  | record before hv label after =>
    obtain ⟨_, rfl, hfields⟩ := h.fields
    obtain ⟨before', s, after', rfl, hbefore, hs, hafter⟩ := hfields.exists_append
    refine ⟨.record before' (hbefore.forall_isValue hv) label after', s, rfl, hs, fun t u htu => ?_⟩
    exact AlphaFields.record (List.rel_append hbefore (.cons ⟨rfl, htu⟩ hafter))
  | concatSecond s =>
    cases h with
    | concat hs h =>
      cases hs
      exact ⟨.concatSecond s, _, rfl, h, fun _ _ htu => .concat (.string [] s) htu⟩
  | succ =>
    cases h with
    | succ h => exact ⟨.succ, _, rfl, h, fun _ _ htu => .succ htu⟩
  | pred =>
    cases h with
    | pred h => exact ⟨.pred, _, rfl, h, fun _ _ htu => .pred htu⟩
  | isZero =>
    cases h with
    | isZero h => exact ⟨.isZero, _, rfl, h, fun _ _ htu => .isZero htu⟩
  | ite =>
    cases h with
    | ite h h' h'' => exact ⟨.ite _ _, _, rfl, h, fun _ _ htu => .ite htu h' h''⟩
  | appFun =>
    cases h with
    | app h h' => exact ⟨.appFun _, _, rfl, h, fun _ _ htu => .app htu h'⟩
  | appArg _ hf =>
    cases h with
    | app h h' => exact ⟨.appArg _ (h.isValue_eq ▸ hf), _, rfl, h', fun _ _ htu => .app h htu⟩
  | letIn =>
    cases h with
    | letIn h h' => exact ⟨.letIn _ _, _, rfl, h, fun _ _ htu => .letIn htu h'⟩
  | fix =>
    cases h with
    | fix h => exact ⟨.fix, _, rfl, h, fun _ _ htu => .fix htu⟩
  | concatFirst =>
    cases h with
    | concat h h' => exact ⟨.concatFirst _, _, rfl, h, fun _ _ htu => .concat htu h'⟩
  | pairFirst =>
    cases h with
    | pair h h' => exact ⟨.pairFirst _, _, rfl, h, fun _ _ htu => .pair htu h'⟩
  | pairSecond _ hv =>
    cases h with
    | pair h h' =>
      exact ⟨.pairSecond _ (h.isValue_eq ▸ hv), _, rfl, h', fun _ _ htu => .pair h htu⟩
  | fst =>
    cases h with
    | fst h => exact ⟨.fst, _, rfl, h, fun _ _ htu => .fst htu⟩
  | snd =>
    cases h with
    | snd h => exact ⟨.snd, _, rfl, h, fun _ _ htu => .snd htu⟩
  | proj label =>
    cases h with
    | proj h => exact ⟨.proj label, _, rfl, h, fun _ _ htu => .proj htu label⟩
  | consHead =>
    cases h with
    | cons h h' => exact ⟨.consHead _, _, rfl, h, fun _ _ htu => .cons htu h'⟩
  | consTail _ hv =>
    cases h with
    | cons h h' =>
      exact ⟨.consTail _ (h.isValue_eq ▸ hv), _, rfl, h', fun _ _ htu => .cons h htu⟩
  | isNil =>
    cases h with
    | isNil h => exact ⟨.isNil, _, rfl, h, fun _ _ htu => .isNil htu⟩
  | head =>
    cases h with
    | head h => exact ⟨.head, _, rfl, h, fun _ _ htu => .head htu⟩
  | tail =>
    cases h with
    | tail h => exact ⟨.tail, _, rfl, h, fun _ _ htu => .tail htu⟩

/-! ## Steps and runs -/

/-- A step of a closed term is taken by each term that differs in the names of its binders. -/
theorem AlphaEquiv.exists_step (h : t.AlphaEquiv u) (ht : t.IsClosed) (hs : t.step = some t') :
    ∃ u', u.step = some u' ∧ t'.AlphaEquiv u' := by
  induction hs using step_induct generalizing u with
  | contract t t' hc =>
    obtain ⟨u', hu', htu⟩ := h.exists_contracts ht hc
    exact ⟨u', step_of_contracts hu', htu⟩
  | frame F t t' _ ih =>
    obtain ⟨G, s, rfl, hts, hFG⟩ := h.exists_fill
    obtain ⟨s', hs', hts'⟩ := ih hts (isClosed_of_fill ht)
    exact ⟨G.fill s', step_fill_of_step G hs', hFG t' s' hts'⟩

/-- Two closed terms, the same up to the names of their binders. -/
structure ClosedAlphaEquiv (t u : Term) : Prop where
  /-- They differ in the names of their binders only. -/
  equiv : t.AlphaEquiv u
  /-- The first is closed. -/
  closed_left : t.IsClosed
  /-- The second is closed. -/
  closed_right : u.IsClosed

/-- Closed terms that differ in the names of their binders step together, or not at all. -/
theorem ClosedAlphaEquiv.rel_step (h : ClosedAlphaEquiv t u) :
    Option.Rel ClosedAlphaEquiv t.step u.step := by
  cases hs : t.step with
  | some t' =>
    obtain ⟨u', hu', htu⟩ := h.equiv.exists_step h.closed_left hs
    rw [hu']
    exact .some ⟨htu, isClosed_of_step hs h.closed_left, isClosed_of_step hu' h.closed_right⟩
  | none =>
    cases hu : u.step with
    | none => exact .none
    | some u' =>
      obtain ⟨t', ht', -⟩ := h.equiv.symm.exists_step h.closed_right hu
      rw [hs] at ht'
      cases ht'

/-- Their runs go on for the same number of steps. -/
theorem ClosedAlphaEquiv.rel_steps (h : ClosedAlphaEquiv t u) (n : Nat) :
    Option.Rel ClosedAlphaEquiv (steps n t) (steps n u) := by
  induction n generalizing t u with
  | zero => exact .some h
  | succ n ih =>
    rw [steps, steps]
    have hstep := h.rel_step
    generalize t.step = o, u.step = o' at hstep
    cases hstep with
    | none => exact .none
    | some h => exact ih h

/-- **Bound names do not matter**: two closed terms that differ in the names of their binders only
have in every context the same type, or the same error; they are values together; they step
together, to closed terms that differ in the names of their binders only; and so do their runs, for
any number of steps. -/
theorem AlphaEquiv.lockstep {t u : Term} (h : t.AlphaEquiv u) (ht : t.IsClosed) :
    (∀ ctx, t.typeOf ctx = u.typeOf ctx) ∧ t.isValue = u.isValue ∧
      Option.Rel ClosedAlphaEquiv t.step u.step ∧
      ∀ n, Option.Rel ClosedAlphaEquiv (steps n t) (steps n u) := by
  have hclosed : ClosedAlphaEquiv t u := ⟨h, ht, h.isClosed_iff.mp ht⟩
  refine ⟨fun ctx => ?_, AlphaUnder.isValue_eq h, hclosed.rel_step, hclosed.rel_steps⟩
  exact AlphaUnder.typeOf_eq h (fun x y hxy => by rw [Binders.matches_nil_iff.mp hxy]) rfl

/-- A binder that hides the function's argument, against one that hides nothing until the function
inside hides the argument: both runs come to the function that gives one. -/
theorem AlphaEquiv.lockstep_shadowing :
    let t := app (lam "x" .nat (letIn "x" (succ (var "x")) (lam "y" .nat (var "x")))) zero
    let u := app (lam "a" .nat (letIn "b" (succ (var "a")) (lam "a" .nat (var "b")))) zero
    t.AlphaEquiv u ∧ t.IsClosed ∧ t.typeOf {} = u.typeOf {} ∧
      steps 2 t = some (lam "y" .nat (succ zero)) ∧ steps 2 u = some (lam "a" .nat (succ zero)) ∧
      Option.Rel ClosedAlphaEquiv (steps 2 t) (steps 2 u) := by
  intro t u
  have hvar : Binders.Matches [("y", "a"), ("x", "b"), ("x", "a")] "x" "b" :=
    .outer (by decide) (by decide) (.here _ "x" "b")
  have h : t.AlphaEquiv u :=
    .app (.lam .nat (.letIn (.succ (.var (.here [] "x" "a"))) (.lam .nat (.var hvar)))) (.zero [])
  have ht : t.IsClosed := by decide
  obtain ⟨htype, -, -, hruns⟩ := h.lockstep ht
  exact ⟨h, ht, htype {}, by decide, by decide, hruns 2⟩

end Term

end TypedLambda
