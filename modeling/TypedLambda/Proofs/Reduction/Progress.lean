import TypedLambda.Proofs.Reduction.Preservation

/-!
# Progress

A closed term that has a type is a value, or takes a step, or is stuck on the empty list: reduction
has come to the head or the tail of a list that has neither. Which values a type has decides whether
a frame around a value is a redex, so the proof goes over the forms of terms and, where the part in
the hole is a value, over the values of its type.

## Main definitions

* `Frame.fillAll`: a term inside several frames
* `Term.IsStuck`: the frames around the head or the tail of the empty list
* `Term.CanonicalForm`: the values of each type
* `Term.Occurs`: the terms that occur in a term

## Main results

* `Term.canonicalForm_of_isValue`: the values of a type have its canonical forms
* `Term.IsStuck.step_eq_none`, `Term.IsStuck.isValue_eq_false`: a stuck term is no value and takes
  no step
* `Term.progress`: of the three cases exactly one holds
-/

namespace TypedLambda

/-- The term inside several frames, the outermost first. -/
def Frame.fillAll (t : Term) : List Frame → Term
  | [] => t
  | F :: frames => F.fill (fillAll t frames)

namespace Term

variable {ctx : Context}

/-! ## Stuck terms -/

/-- Reduction has come to the head or the tail of the empty list. -/
def IsStuck (t : Term) : Prop :=
  ∃ (frames : List Frame) (A : Ty),
    t = Frame.fillAll (head (nil A)) frames ∨ t = Frame.fillAll (tail (nil A)) frames

theorem isStuck_head_nil (A : Ty) : IsStuck (head (nil A)) :=
  ⟨[], A, .inl rfl⟩

theorem isStuck_tail_nil (A : Ty) : IsStuck (tail (nil A)) :=
  ⟨[], A, .inr rfl⟩

/-- A frame around a stuck term is stuck. -/
theorem IsStuck.fill {t : Term} (h : t.IsStuck) (F : Frame) : (F.fill t).IsStuck := by
  obtain ⟨frames, A, rfl | rfl⟩ := h
  · exact ⟨F :: frames, A, .inl rfl⟩
  · exact ⟨F :: frames, A, .inr rfl⟩

/-- Induction over the frames around the head or the tail of the empty list. -/
@[elab_as_elim]
theorem IsStuck.induct {motive : (t : Term) → t.IsStuck → Prop}
    (head : ∀ A, motive (.head (.nil A)) (isStuck_head_nil A))
    (tail : ∀ A, motive (.tail (.nil A)) (isStuck_tail_nil A))
    (fill : ∀ (F : Frame) (t : Term) (h : t.IsStuck), motive t h → motive (F.fill t) (h.fill F))
    {t : Term} (h : t.IsStuck) : motive t h := by
  obtain ⟨frames, A, hA⟩ := id h
  induction frames generalizing t with
  | nil =>
    obtain rfl | rfl := hA
    · exact head A
    · exact tail A
  | cons F frames ih =>
    obtain rfl | rfl := hA
    · exact fill F _ ⟨frames, A, .inl rfl⟩ (ih _ (.inl rfl))
    · exact fill F _ ⟨frames, A, .inr rfl⟩ (ih _ (.inr rfl))

/-- A frame around a term that is no value is no value. -/
theorem isValue_fill (F : Frame) {t : Term} (ht : t.isValue = false) :
    (F.fill t).isValue = false := by
  cases F with
  | succ =>
    rw [← Bool.not_eq_true] at ht ⊢
    exact fun h => ht (isValue_of_isNumeral h)
  | pairFirst | consHead => rw [Frame.fill, isValue, ht, Bool.false_and]
  | pairSecond | consTail => rw [Frame.fill, isValue, ht, Bool.and_false]
  | record before hv label after =>
    rw [Frame.fill, isValue_record, List.all_eq_false]
    exact ⟨(label, t), List.mem_append_right _ List.mem_cons_self, by simp [ht]⟩
  | _ => rfl

/-- A stuck term is no value. -/
theorem IsStuck.isValue_eq_false {t : Term} (h : t.IsStuck) : t.isValue = false := by
  induction h using IsStuck.induct with
  | head A | tail A => rfl
  | fill F t _ ih => exact isValue_fill F ih

/-- A stuck term takes no step. -/
theorem IsStuck.step_eq_none {t : Term} (h : t.IsStuck) : t.step = none := by
  -- that the term in the hole is no value goes along, so that the frame steps as the term does
  suffices t.isValue = false ∧ t.step = none from this.2
  induction h using IsStuck.induct with
  | head A | tail A => exact ⟨rfl, rfl⟩
  | fill F t _ ih => exact ⟨isValue_fill F ih.1, by rw [step_fill F ih.1, ih.2, Option.map_none]⟩

/-! ## Occurrences -/

/-- The terms of which a term is made directly. -/
def parts : Term → List Term
  | bool _ | zero | var _ | string _ | nil _ => []
  | succ t | pred t | isZero t | lam _ _ t | fix t | fst t | snd t | proj t _ | isNil t | head t
  | tail t => [t]
  | app t u | letIn _ t u | concat t u | pair t u | cons t u => [t, u]
  | ite t u v => [t, u, v]
  | record fields => fields.map Prod.snd

/-- Induction over terms by their parts, whatever the form. -/
@[elab_as_elim]
theorem parts_induct {motive : Term → Prop}
    (step : ∀ t, (∀ s ∈ t.parts, motive s) → motive t) (t : Term) : motive t := by
  induction t with
  | bool | zero | var | string | nil => exact step _ fun _ hs => nomatch hs
  | succ t ih | pred t ih | isZero t ih | lam _ _ t ih | fix t ih | fst t ih | snd t ih
  | proj t _ ih | isNil t ih | head t ih | tail t ih =>
    exact step _ (List.forall_mem_singleton.mpr ih)
  | app t u iht ihu | letIn _ t u iht ihu | concat t u iht ihu | pair t u iht ihu
  | cons t u iht ihu =>
    exact step _ (List.forall_mem_cons.mpr ⟨iht, List.forall_mem_singleton.mpr ihu⟩)
  | ite t u v iht ihu ihv =>
    exact step _ (List.forall_mem_cons.mpr
      ⟨iht, List.forall_mem_cons.mpr ⟨ihu, List.forall_mem_singleton.mpr ihv⟩⟩)
  | record fields ih => exact step _ (List.forall_mem_map.mpr ih)

/-- The term `u` occurs in a term, at the root or deeper. -/
inductive Occurs (u : Term) : Term → Prop
  | here : Occurs u u
  | inside {t s : Term} (h : s ∈ t.parts) (hs : Occurs u s) : Occurs u t

theorem mem_parts_fill (F : Frame) (t : Term) : t ∈ (F.fill t).parts := by
  cases F with
  | record before hv label after =>
    exact List.mem_map_of_mem (List.mem_append_right before List.mem_cons_self)
  | _ => simp [Frame.fill, parts]

/-- A stuck term contains the head or the tail of a list. -/
theorem IsStuck.exists_occurs {t : Term} (h : t.IsStuck) :
    ∃ u, (head u).Occurs t ∨ (tail u).Occurs t := by
  induction h using IsStuck.induct with
  | head A => exact ⟨nil A, .inl .here⟩
  | tail A => exact ⟨nil A, .inr .here⟩
  | fill F t _ ih =>
    obtain ⟨u, h | h⟩ := ih
    · exact ⟨u, .inl (.inside (mem_parts_fill F t) h)⟩
    · exact ⟨u, .inr (.inside (mem_parts_fill F t) h)⟩

/-! ## Canonical forms -/

/-- The values of a type. -/
inductive CanonicalForm : Ty → Term → Prop
  | bool (b : Bool) : CanonicalForm .bool (bool b)
  | nat {n : Term} (hn : n.isNumeral = true) : CanonicalForm .nat n
  | string (s : String) : CanonicalForm .string (string s)
  | arrow (A B : Ty) (x : String) (T : Ty) (t : Term) : CanonicalForm (.arrow A B) (lam x T t)
  | prod (A B : Ty) {v w : Term} (hv : v.isValue = true) (hw : w.isValue = true) :
      CanonicalForm (.prod A B) (pair v w)
  | record {types : List (String × Ty)} {fields : List (String × Term)}
      (hv : ∀ f ∈ fields, f.2.isValue = true)
      (hlabels : types.map Prod.fst = fields.map Prod.fst) :
      CanonicalForm (.record types) (record fields)
  | nil (A T : Ty) : CanonicalForm (.list A) (nil T)
  | cons (A : Ty) {v w : Term} (hv : v.isValue = true) (hw : w.isValue = true) :
      CanonicalForm (.list A) (cons v w)

theorem labels_eq_of_forall₂ {fields : List (String × Term)} {types : List (String × Ty)}
    (h : List.Forall₂ (fun f g => f.1 = g.1 ∧ f.2.typeOf ctx = .ok g.2) fields types) :
    types.map Prod.fst = fields.map Prod.fst := by
  induction h with
  | nil => rfl
  | cons hfg _ ih => rw [List.map_cons, List.map_cons, hfg.1, ih]

/-- The values of a type have its canonical forms. -/
theorem canonicalForm_of_isValue {v : Term} {T : Ty} (hv : v.isValue = true)
    (hT : v.typeOf ctx = .ok T) : CanonicalForm T v := by
  cases v with
  | bool b =>
    rw [typeOf_bool] at hT
    obtain rfl := Except.ok.inj hT
    exact .bool b
  | zero =>
    rw [typeOf_zero] at hT
    obtain rfl := Except.ok.inj hT
    exact .nat rfl
  | succ t =>
    obtain ⟨-, rfl⟩ := typeOf_succ_eq_ok_iff.mp hT
    refine .nat ?_
    rw [isNumeral, toNat?, Option.isSome_map]
    exact hv
  | string s =>
    rw [typeOf_string] at hT
    obtain rfl := Except.ok.inj hT
    exact .string s
  | lam x A t =>
    obtain ⟨B, C, -, -, rfl⟩ := typeOf_lam_eq_ok_iff.mp hT
    exact .arrow B C x A t
  | pair t u =>
    obtain ⟨A, B, -, -, rfl⟩ := typeOf_pair_eq_ok_iff.mp hT
    obtain ⟨ht, hu⟩ := Bool.and_eq_true_iff.mp hv
    exact .prod A B ht hu
  | record fields =>
    obtain ⟨-, types, rfl, htypes⟩ := typeOf_record_eq_ok_iff.mp hT
    rw [isValue_record, List.all_eq_true] at hv
    exact .record hv (labels_eq_of_forall₂ htypes)
  | nil A =>
    obtain ⟨B, -, rfl⟩ := typeOf_nil_eq_ok_iff.mp hT
    exact .nil B A
  | cons t u =>
    obtain ⟨A, -, -, rfl⟩ := typeOf_cons_eq_ok_iff.mp hT
    obtain ⟨ht, hu⟩ := Bool.and_eq_true_iff.mp hv
    exact .cons A ht hu
  | _ => cases hv

/-- A number that is a value is zero or the successor of a number. -/
theorem eq_zero_or_succ_of_isNumeral {n : Term} (h : n.isNumeral = true) :
    n = zero ∨ ∃ m, n = succ m ∧ m.isNumeral = true := by
  cases n with
  | zero => exact .inl rfl
  | succ m =>
    rw [isNumeral, toNat?, Option.isSome_map] at h
    exact .inr ⟨m, rfl, h⟩
  | _ => cases h

theorem exists_lookup_of_labels_eq {types : List (String × Ty)} {fields : List (String × Term)}
    (h : types.map Prod.fst = fields.map Prod.fst) {label : String} {T : Ty}
    (hT : types.lookup label = some T) : ∃ v, fields.lookup label = some v := by
  have mem : label ∈ fields.map Prod.fst :=
    h ▸ List.mem_map_of_mem (mem_of_lookup hT)
  rw [← Option.isSome_iff_exists, List.lookup_isSome_iff]
  obtain ⟨f, hf, rfl⟩ := List.mem_map.mp mem
  exact ⟨f, hf, beq_self_eq_true _⟩

/-! ## Progress -/

/-- The term is a value, takes a step, or is stuck. -/
def Progresses (t : Term) : Prop :=
  t.isValue = true ∨ (∃ t', t.step = some t') ∨ t.IsStuck

theorem Progresses.of_isValue {t : Term} (h : t.isValue = true) : t.Progresses :=
  .inl h

theorem Progresses.of_contracts {t t' : Term} (h : Contracts t t') : t.Progresses :=
  .inr (.inl ⟨t', step_of_contracts h⟩)

/-- Only where the term in the hole is a value is there anything to show of a frame. -/
theorem Progresses.fill {t : Term} (h : t.Progresses) (F : Frame)
    (hF : t.isValue = true → (F.fill t).Progresses) : (F.fill t).Progresses := by
  obtain hv | ⟨t', ht⟩ | hs := h
  · exact hF hv
  · exact .inr (.inl ⟨_, step_fill_of_step F ht⟩)
  · exact .inr (.inr (hs.fill F))

/-- A closed term that has a type is a value, takes a step, or is stuck. -/
theorem progresses_of_typeOf {t : Term} {T : Ty} (hc : t.IsClosed) (hT : t.typeOf ctx = .ok T) :
    t.Progresses := by
  induction t generalizing T with
  | bool | zero | string | lam | nil => exact .of_isValue rfl
  | var x => cases hc
  | succ t ih =>
    obtain ⟨ht, -⟩ := typeOf_succ_eq_ok_iff.mp hT
    refine (ih hc ht).fill .succ fun hv => .of_isValue ?_
    cases canonicalForm_of_isValue hv ht with
    | nat hn => exact hn
  | pred t ih =>
    obtain ⟨ht, -⟩ := typeOf_pred_eq_ok_iff.mp hT
    refine (ih hc ht).fill .pred fun hv => ?_
    cases canonicalForm_of_isValue hv ht with
    | nat hn =>
      obtain rfl | ⟨m, rfl, hm⟩ := eq_zero_or_succ_of_isNumeral hn
      · exact .of_contracts .predZero
      · exact .of_contracts (.predSucc hm)
  | isZero t ih =>
    obtain ⟨ht, -⟩ := typeOf_isZero_eq_ok_iff.mp hT
    refine (ih hc ht).fill .isZero fun hv => ?_
    cases canonicalForm_of_isValue hv ht with
    | nat hn =>
      obtain rfl | ⟨m, rfl, hm⟩ := eq_zero_or_succ_of_isNumeral hn
      · exact .of_contracts .isZeroZero
      · exact .of_contracts (.isZeroSucc hm)
  | ite t u v iht =>
    obtain ⟨ht, -⟩ := typeOf_ite_eq_ok_iff.mp hT
    refine (iht (isClosed_of_fill (F := .ite u v) hc) ht).fill (.ite u v) fun hv => ?_
    cases canonicalForm_of_isValue hv ht with
    | bool b =>
      cases b
      · exact .of_contracts (.iteFalse u v)
      · exact .of_contracts (.iteTrue u v)
  | app t u iht ihu =>
    obtain ⟨A, ht, hu⟩ := typeOf_app_eq_ok_iff.mp hT
    refine (iht (isClosed_of_fill (F := .appFun u) hc) ht).fill (.appFun u) fun hv => ?_
    refine (ihu (isClosed_of_fill (F := .appArg t hv) hc) hu).fill (.appArg t hv) fun hw => ?_
    cases canonicalForm_of_isValue hv ht with
    | arrow A B x C b => exact .of_contracts (.app x C b hw)
  | letIn x t u iht =>
    obtain ⟨A, ht, -⟩ := typeOf_letIn_eq_ok_iff.mp hT
    exact (iht (isClosed_of_fill (F := .letIn x u) hc) ht).fill (.letIn x u) fun hv =>
      .of_contracts (.letIn x hv u)
  | fix t ih =>
    have ht := typeOf_fix_eq_ok_iff.mp hT
    refine (ih hc ht).fill .fix fun hv => ?_
    cases canonicalForm_of_isValue hv ht with
    | arrow A B x C b => exact .of_contracts (.fix x C b)
  | concat t u iht ihu =>
    obtain ⟨ht, hu, -⟩ := typeOf_concat_eq_ok_iff.mp hT
    refine (iht (isClosed_of_fill (F := .concatFirst u) hc) ht).fill (.concatFirst u) fun hv => ?_
    cases canonicalForm_of_isValue hv ht with
    | string s =>
      refine (ihu (isClosed_of_fill (F := .concatSecond s) hc) hu).fill (.concatSecond s)
        fun hw => ?_
      cases canonicalForm_of_isValue hw hu with
      | string r => exact .of_contracts (.concat s r)
  | pair t u iht ihu =>
    obtain ⟨A, B, ht, hu, -⟩ := typeOf_pair_eq_ok_iff.mp hT
    refine (iht (isClosed_of_fill (F := .pairFirst u) hc) ht).fill (.pairFirst u) fun hv => ?_
    exact (ihu (isClosed_of_fill (F := .pairSecond t hv) hc) hu).fill (.pairSecond t hv) fun hw =>
      .of_isValue (Bool.and_eq_true_iff.mpr ⟨hv, hw⟩)
  | fst t ih =>
    obtain ⟨B, ht⟩ := typeOf_fst_eq_ok_iff.mp hT
    refine (ih hc ht).fill .fst fun h => ?_
    cases canonicalForm_of_isValue h ht with
    | prod A B hv hw => exact .of_contracts (.fst hv hw)
  | snd t ih =>
    obtain ⟨A, ht⟩ := typeOf_snd_eq_ok_iff.mp hT
    refine (ih hc ht).fill .snd fun h => ?_
    cases canonicalForm_of_isValue h ht with
    | prod A B hv hw => exact .of_contracts (.snd hv hw)
  | record fields ih =>
    obtain ⟨-, types, -, htypes⟩ := typeOf_record_eq_ok_iff.mp hT
    cases hfind : fields.find? fun f => !f.2.isValue with
    | none =>
      refine .of_isValue ?_
      rw [isValue_record, List.all_eq_true]
      simpa using List.find?_eq_none.mp hfind
    | some f =>
      obtain ⟨hf, before, after, rfl, hbefore⟩ := List.find?_eq_some_iff_append.mp hfind
      have hv : ∀ g ∈ before, g.2.isValue = true := by simpa using hbefore
      have hmem : f ∈ before ++ f :: after := List.mem_append_right _ List.mem_cons_self
      obtain ⟨g, -, -, hg⟩ := exists_mem_of_forall₂ htypes.flip hmem
      have hfc : f.2.IsClosed := isClosed_of_fill (F := .record before hv f.1 after) hc
      refine (ih f hmem hfc hg).fill (.record before hv f.1 after) fun hfv => ?_
      rw [hfv] at hf
      cases hf
  | proj t label ih =>
    obtain ⟨types, ht, hl⟩ := typeOf_proj_eq_ok_iff.mp hT
    refine (ih hc ht).fill (.proj label) fun h => ?_
    cases canonicalForm_of_isValue h ht with
    | record hv hlabels =>
      obtain ⟨v, hlv⟩ := exists_lookup_of_labels_eq hlabels hl
      exact .of_contracts (.proj hv hlv)
  | cons t u iht ihu =>
    obtain ⟨A, ht, hu, -⟩ := typeOf_cons_eq_ok_iff.mp hT
    refine (iht (isClosed_of_fill (F := .consHead u) hc) ht).fill (.consHead u) fun hv => ?_
    exact (ihu (isClosed_of_fill (F := .consTail t hv) hc) hu).fill (.consTail t hv) fun hw =>
      .of_isValue (Bool.and_eq_true_iff.mpr ⟨hv, hw⟩)
  | isNil t ih =>
    obtain ⟨⟨A, ht⟩, -⟩ := typeOf_isNil_eq_ok_iff.mp hT
    refine (ih hc ht).fill .isNil fun h => ?_
    cases canonicalForm_of_isValue h ht with
    | nil A B => exact .of_contracts (.isNilNil B)
    | cons A hv hw => exact .of_contracts (.isNilCons hv hw)
  | head t ih =>
    have ht := typeOf_head_eq_ok_iff.mp hT
    refine (ih hc ht).fill .head fun h => ?_
    cases canonicalForm_of_isValue h ht with
    | nil A B =>
      exact .inr (.inr (isStuck_head_nil B))
    | cons A hv hw => exact .of_contracts (.head hv hw)
  | tail t ih =>
    obtain ⟨A, ht, -⟩ := typeOf_tail_eq_ok_iff.mp hT
    refine (ih hc ht).fill .tail fun h => ?_
    cases canonicalForm_of_isValue h ht with
    | nil A B => exact .inr (.inr (isStuck_tail_nil B))
    | cons A hv hw => exact .of_contracts (.tail hv hw)

/-- **Progress**: of a closed term that has a type, exactly one of three holds: it is a value, or it
takes a step, or it is stuck on the empty list. Without a head or a tail in it, it is a value or
takes a step; and no value takes one. -/
theorem progress :
    (∀ (ctx : Context) (t : Term) (T : Ty), t.IsClosed → t.typeOf ctx = .ok T →
      ((t.isValue = true ∧ t.step = none ∧ ¬t.IsStuck) ∨
        (t.isValue = false ∧ (∃ t', t.step = some t') ∧ ¬t.IsStuck) ∨
        (t.isValue = false ∧ t.step = none ∧ t.IsStuck)) ∧
      ((∀ u, ¬(head u).Occurs t ∧ ¬(tail u).Occurs t) →
        t.isValue = true ∨ ∃ t', t.step = some t')) ∧
    ∀ v : Term, v.isValue = true → v.step = none := by
  refine ⟨fun ctx t T hc hT => ?_, fun v => step_of_isValue⟩
  obtain hv | ⟨t', ht⟩ | hs := progresses_of_typeOf hc hT
  · have hn : ¬t.IsStuck := fun hs => by
      rw [hs.isValue_eq_false] at hv
      cases hv
    exact ⟨.inl ⟨hv, step_of_isValue hv, hn⟩, fun _ => .inl hv⟩
  · have hv : t.isValue = false := by
      rw [← Bool.not_eq_true]
      intro hv
      rw [step_of_isValue hv] at ht
      cases ht
    have hn : ¬t.IsStuck := fun hs => by
      rw [hs.step_eq_none] at ht
      cases ht
    exact ⟨.inr (.inl ⟨hv, ⟨t', ht⟩, hn⟩), fun _ => .inr ⟨t', ht⟩⟩
  · refine ⟨.inr (.inr ⟨hs.isValue_eq_false, hs.step_eq_none, hs⟩), fun hno => ?_⟩
    obtain ⟨u, h | h⟩ := hs.exists_occurs
    · exact absurd h (hno u).1
    · exact absurd h (hno u).2

/-- A record whose middle field is the tail of the empty list is stuck, the comparison of a number
with zero is a value or takes a step, and a number takes none. -/
theorem progress_record_tail_nil :
    (record [("a", zero), ("b", tail (nil .nat)), ("c", pred zero)]).IsStuck ∧
      ((isZero zero).isValue = true ∨ ∃ t', (isZero zero).step = some t') ∧
      (succ zero).step = none := by
  refine ⟨?_, ?_, progress.2 (succ zero) (by decide)⟩
  · obtain ⟨hv, -⟩ | ⟨-, ⟨t', ht⟩, -⟩ | ⟨-, -, hs⟩ := (progress.1 {}
      (record [("a", zero), ("b", tail (nil .nat)), ("c", pred zero)])
      (.record [("a", .nat), ("b", .list .nat), ("c", .nat)]) (by decide) (by decide)).1
    · cases hv
    · cases ht
    · exact hs
  · refine (progress.1 {} (isZero zero) .bool (by decide) (by decide)).2 fun u => ⟨?_, ?_⟩
    all_goals
      rintro (_ | ⟨hs, hocc⟩)
      obtain rfl := List.mem_singleton.mp hs
      obtain _ | ⟨hs, -⟩ := hocc
      cases hs

end Term

end TypedLambda
