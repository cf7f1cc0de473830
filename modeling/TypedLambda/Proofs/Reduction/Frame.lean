import TypedLambda.Reduction.Run

/-!
# Frames

A frame is a form of term with a hole at the place where reduction goes on; what stands to the left
of the hole has been reduced to a value. A term that is no value takes its steps inside a frame as
it takes them alone, and a step of any term is a contraction at its root or a step inside a frame.
Facts about steps are proved once for contractions and once for frames.

## Main definitions

* `Frame`, `Frame.fill`: a form of term with a hole, and the term with the hole filled
* `Contracts`: the rules for redexes at the root of a term
* `Term.step_induct`: induction over a step, by the frames around its redex

## Main results

* `Term.step_of_isValue`: values take no step
* `Term.contract?_eq_some_iff`: what a redex contracts to
* `Term.step_fill`: a step inside a frame
* `Term.step_cases`: a step is a contraction or a step inside a frame
-/

namespace TypedLambda

/-- A form of term with a hole where reduction goes on. All to the left of the hole are values. -/
inductive Frame where
  /-- The number whose successor is taken. -/
  | succ
  /-- The number whose predecessor is taken. -/
  | pred
  /-- The number that is compared with zero. -/
  | isZero
  /-- The guard of a conditional. -/
  | ite (onTrue onFalse : Term)
  /-- The function of an application. -/
  | appFun (a : Term)
  /-- The argument of an application. -/
  | appArg (f : Term) (hf : f.isValue = true)
  /-- The value of a definition. -/
  | letIn (x : String) (body : Term)
  /-- The function of which the fixed point is taken. -/
  | fix
  /-- The first of two strings. -/
  | concatFirst (second : Term)
  /-- The second of two strings. -/
  | concatSecond (first : String)
  /-- The first component of a pair. -/
  | pairFirst (second : Term)
  /-- The second component of a pair. -/
  | pairSecond (first : Term) (hv : first.isValue = true)
  /-- The pair whose first component is taken. -/
  | fst
  /-- The pair whose second component is taken. -/
  | snd
  /-- A field of a record. -/
  | record (before : List (String × Term)) (hv : ∀ f ∈ before, f.2.isValue = true)
    (label : String) (after : List (String × Term))
  /-- The record of which a field is taken. -/
  | proj (label : String)
  /-- The first element of a list. -/
  | consHead (tail : Term)
  /-- The rest of a list. -/
  | consTail (head : Term) (hv : head.isValue = true)
  /-- The list that is compared with the empty one. -/
  | isNil
  /-- The list whose first element is taken. -/
  | head
  /-- The list whose rest is taken. -/
  | tail

/-- The frame with a term in its hole. -/
def Frame.fill (t : Term) : Frame → Term
  | succ => .succ t
  | pred => .pred t
  | isZero => .isZero t
  | ite u v => .ite t u v
  | appFun a => .app t a
  | appArg f _ => .app f t
  | letIn x u => .letIn x t u
  | fix => .fix t
  | concatFirst u => .concat t u
  | concatSecond s => .concat (.string s) t
  | pairFirst u => .pair t u
  | pairSecond u _ => .pair u t
  | fst => .fst t
  | snd => .snd t
  | record before _ label after => .record (before ++ (label, t) :: after)
  | proj label => .proj t label
  | consHead u => .cons t u
  | consTail u _ => .cons u t
  | isNil => .isNil t
  | head => .head t
  | tail => .tail t

namespace Term

-- reduction is opened in this module; the others use the rules and the frames
attribute [local simp] step isValue size

/-! ## Values -/

theorem isValue_of_isNumeral {t : Term} (h : t.isNumeral = true) : t.isValue = true := by
  cases t with
  | zero => rfl
  | succ t =>
    rw [isNumeral, toNat?, Option.isSome_map] at h
    exact h
  | _ => cases h

theorem stepFields_of_isValue {fields : List (String × Term)}
    (h : ∀ f ∈ fields, f.2.isValue = true) : stepFields fields = none := by
  induction fields with
  | nil => rfl
  | cons f fields ih =>
    rw [stepFields, if_pos (h f (by simp)), ih fun g hg => h g (by simp [hg]), Option.map_none]

/-- Values take no step. -/
theorem step_of_isValue {t : Term} (h : t.isValue = true) : t.step = none := by
  induction t with
  | succ t ih => rw [step, ih (isValue_of_isNumeral h), Option.map_none]
  | pair t u iht ihu | cons t u iht ihu =>
    obtain ⟨ht, hu⟩ := Bool.and_eq_true_iff.mp h
    rw [step, if_pos ht, ihu hu, Option.map_none]
  | record fields ih =>
    rw [isValue_record, List.all_eq_true] at h
    rw [step, stepFields_of_isValue h, Option.map_none]
  | bool | zero | string | lam | nil => rfl
  | _ => cases h

/-! ## Contractions -/

/-- The rules for redexes at the root of a term. -/
inductive Contracts : Term → Term → Prop
  | iteTrue (t u : Term) : Contracts (ite (bool true) t u) t
  | iteFalse (t u : Term) : Contracts (ite (bool false) t u) u
  | predZero : Contracts (pred zero) zero
  | predSucc {n : Term} (hn : n.isNumeral = true) : Contracts (pred (succ n)) n
  | isZeroZero : Contracts (isZero zero) (bool true)
  | isZeroSucc {n : Term} (hn : n.isNumeral = true) : Contracts (isZero (succ n)) (bool false)
  | app (x : String) (T : Ty) (t : Term) {v : Term} (hv : v.isValue = true) :
      Contracts (app (lam x T t) v) (t.subst x v)
  | letIn (x : String) {v : Term} (hv : v.isValue = true) (t : Term) :
      Contracts (letIn x v t) (t.subst x v)
  | fix (x : String) (T : Ty) (t : Term) :
      Contracts (fix (lam x T t)) (t.subst x (fix (lam x T t)))
  | concat (s r : String) : Contracts (concat (string s) (string r)) (string (s ++ r))
  | fst {v w : Term} (hv : v.isValue = true) (hw : w.isValue = true) : Contracts (fst (pair v w)) v
  | snd {v w : Term} (hv : v.isValue = true) (hw : w.isValue = true) : Contracts (snd (pair v w)) w
  | proj {fields : List (String × Term)} {label : String} {v : Term}
      (hv : ∀ f ∈ fields, f.2.isValue = true) (hl : fields.lookup label = some v) :
      Contracts (proj (record fields) label) v
  | isNilNil (T : Ty) : Contracts (isNil (nil T)) (bool true)
  | isNilCons {v w : Term} (hv : v.isValue = true) (hw : w.isValue = true) :
      Contracts (isNil (cons v w)) (bool false)
  | head {v w : Term} (hv : v.isValue = true) (hw : w.isValue = true) :
      Contracts (head (cons v w)) v
  | tail {v w : Term} (hv : v.isValue = true) (hw : w.isValue = true) :
      Contracts (tail (cons v w)) w

/-- A redex contracts as the rules say. -/
theorem contract?_eq_some_iff {t u : Term} : t.contract? = some u ↔ Contracts t u := by
  constructor
  · intro h
    unfold contract? at h
    split at h
    all_goals simp only [Option.ite_none_right_eq_some, Option.some.injEq, reduceCtorEq,
      Bool.and_eq_true, isValueFields_eq_all, List.all_eq_true] at h
    case h_1 b t u =>
      obtain rfl := h
      cases b
      · exact .iteFalse t u
      · exact .iteTrue t u
    case h_2 =>
      obtain rfl := h
      exact .predZero
    case h_3 =>
      obtain ⟨hn, rfl⟩ := h
      exact .predSucc hn
    case h_4 =>
      obtain rfl := h
      exact .isZeroZero
    case h_5 =>
      obtain ⟨hn, rfl⟩ := h
      exact .isZeroSucc hn
    case h_6 x T t v =>
      obtain ⟨hv, rfl⟩ := h
      exact .app x T t hv
    case h_7 x v t =>
      obtain ⟨hv, rfl⟩ := h
      exact .letIn x hv t
    case h_8 x T t =>
      obtain rfl := h
      exact .fix x T t
    case h_9 s r =>
      obtain rfl := h
      exact .concat s r
    case h_10 =>
      obtain ⟨⟨hv, hw⟩, rfl⟩ := h
      exact .fst hv hw
    case h_11 =>
      obtain ⟨⟨hv, hw⟩, rfl⟩ := h
      exact .snd hv hw
    case h_12 => exact .proj h.1 h.2
    case h_13 T =>
      obtain rfl := h
      exact .isNilNil T
    case h_14 =>
      obtain ⟨⟨hv, hw⟩, rfl⟩ := h
      exact .isNilCons hv hw
    case h_15 =>
      obtain ⟨⟨hv, hw⟩, rfl⟩ := h
      exact .head hv hw
    case h_16 =>
      obtain ⟨⟨hv, hw⟩, rfl⟩ := h
      exact .tail hv hw
  · intro h
    cases h with
    | proj hv hl => rw [contract?, isValueFields_eq_all, if_pos (List.all_eq_true.mpr hv), hl]
    | _ => simp_all [contract?]

/-- A redex takes its contraction as its step. -/
theorem step_of_contracts {t u : Term} (h : Contracts t u) : t.step = some u := by
  have hc := contract?_eq_some_iff.mpr h
  cases h <;> rw [step, hc] <;> rfl

/-! ## Steps inside a frame -/

/-- The term in the hole of a redex is a value. -/
theorem isValue_of_contracts_fill {F : Frame} {t u : Term} (h : Contracts (F.fill t) u) :
    t.isValue = true := by
  cases F <;> rw [Frame.fill] at h <;> cases h
  case proj hv _ => rwa [isValue_record, List.all_eq_true]
  all_goals simp_all

/-- A frame around a term that is no value is no redex. -/
theorem contract?_fill (F : Frame) {t : Term} (ht : t.isValue = false) :
    (F.fill t).contract? = none := by
  rw [Option.eq_none_iff_forall_ne_some]
  intro u h
  rw [isValue_of_contracts_fill (contract?_eq_some_iff.mp h)] at ht
  cases ht

theorem isString_of_isValue_eq_false {t : Term} (ht : t.isValue = false) : t.isString = false := by
  cases t with
  | string s => cases ht
  | _ => rfl

theorem stepFields_append {before : List (String × Term)} (hv : ∀ f ∈ before, f.2.isValue = true)
    (label : String) {t : Term} (ht : t.isValue = false) (after : List (String × Term)) :
    stepFields (before ++ (label, t) :: after) =
      t.step.map fun u => before ++ (label, u) :: after := by
  induction before with
  | nil => rw [List.nil_append, stepFields, ht]; rfl
  | cons f before ih =>
    rw [List.cons_append, stepFields, if_pos (hv f (by simp)), ih fun g hg => hv g (by simp [hg]),
      Option.map_map]
    rfl

/-- A term that is no value steps inside a frame as it does alone. -/
theorem step_fill (F : Frame) {t : Term} (ht : t.isValue = false) :
    (F.fill t).step = t.step.map (F.fill ·) := by
  have hc := contract?_fill F ht
  cases F with
  | record before hv label after =>
    rw [Frame.fill, step, stepFields_append hv label ht, Option.map_map]
    rfl
  | concatFirst u =>
    rw [Frame.fill] at hc ⊢
    rw [step, hc, isString_of_isValue_eq_false ht]
    rfl
  | appFun u =>
    rw [Frame.fill] at hc ⊢
    rw [step, hc, ht]
    rfl
  | appArg f hf =>
    rw [Frame.fill] at hc ⊢
    rw [step, hc, if_pos hf]
    rfl
  | pairFirst u | consHead u =>
    rw [Frame.fill, step, ht]
    rfl
  | pairSecond u hu | consTail u hu => rw [Frame.fill, step, if_pos hu]; rfl
  | succ => rfl
  | _ =>
    rw [Frame.fill] at hc ⊢
    rw [step, hc]
    rfl

/-- A step of a term in a frame is a step of the whole. -/
theorem step_fill_of_step (F : Frame) {t u : Term} (h : t.step = some u) :
    (F.fill t).step = some (F.fill u) := by
  have ht : t.isValue = false := by
    rw [← Bool.not_eq_true]
    intro hv
    rw [step_of_isValue hv] at h
    cases h
  rw [step_fill F ht, h, Option.map_some]

/-! ## The shape of a step -/

theorem stepFields_cases {fields fields' : List (String × Term)}
    (h : stepFields fields = some fields') :
    ∃ before label t t' after, (∀ f ∈ before, f.2.isValue = true) ∧ t.step = some t' ∧
      fields = before ++ (label, t) :: after ∧ fields' = before ++ (label, t') :: after := by
  induction fields generalizing fields' with
  | nil => cases h
  | cons f fields ih =>
    rw [stepFields] at h
    split at h
    · rename_i hf
      obtain ⟨rest, hrest, rfl⟩ := Option.map_eq_some_iff.mp h
      obtain ⟨before, label, t, t', after, hv, ht, rfl, rfl⟩ := ih hrest
      exact ⟨f :: before, label, t, t', after, List.forall_mem_cons.mpr ⟨hf, hv⟩, ht, rfl, rfl⟩
    · obtain ⟨t', ht, rfl⟩ := Option.map_eq_some_iff.mp h
      exact ⟨[], f.1, f.2, t', fields, fun _ hg => absurd hg List.not_mem_nil, ht, rfl, rfl⟩

theorem contracts_or_of_orElse {t u : Term} {o : Option Term}
    (h : (t.contract? <|> o) = some u) : Contracts t u ∨ o = some u := by
  rw [Option.orElse_eq_orElse, Option.orElse_eq_or, Option.or_eq_some_iff] at h
  exact h.imp contract?_eq_some_iff.mp And.right

/-- A step is a contraction, or a step inside a frame. -/
theorem step_cases {t t' : Term} (h : t.step = some t') :
    Contracts t t' ∨ ∃ (F : Frame) (u u' : Term),
      t = F.fill u ∧ u.step = some u' ∧ t' = F.fill u' := by
  have inside (F : Frame) {u : Term} (hu : u.step.map (F.fill ·) = some t') :
      ∃ (G : Frame) (v v' : Term), F.fill u = G.fill v ∧ v.step = some v' ∧ t' = G.fill v' := by
    obtain ⟨u', hu', rfl⟩ := Option.map_eq_some_iff.mp hu
    exact ⟨F, u, u', rfl, hu', rfl⟩
  cases t with
  | bool | zero | string | lam | nil | var => cases h
  | record fields =>
    obtain ⟨gs, hgs, rfl⟩ := Option.map_eq_some_iff.mp h
    obtain ⟨before, label, u, u', after, hv, hu, rfl, rfl⟩ := stepFields_cases hgs
    exact .inr ⟨.record before hv label after, u, u', rfl, hu, rfl⟩
  | succ t => exact .inr (inside .succ h)
  | pair t u =>
    rw [step] at h
    split at h
    · rename_i ht
      exact .inr (inside (.pairSecond t ht) h)
    · exact .inr (inside (.pairFirst u) h)
  | cons t u =>
    rw [step] at h
    split at h
    · rename_i ht
      exact .inr (inside (.consTail t ht) h)
    · exact .inr (inside (.consHead u) h)
  | app t u =>
    refine (contracts_or_of_orElse h).imp_right fun h => ?_
    split at h
    · rename_i ht
      exact inside (.appArg t ht) h
    · exact inside (.appFun u) h
  | concat t u =>
    refine (contracts_or_of_orElse h).imp_right fun h => ?_
    cases t with
    | string s => exact inside (.concatSecond s) h
    | _ => exact inside (.concatFirst u) h
  | ite t u v => exact (contracts_or_of_orElse h).imp_right (inside (.ite u v))
  | letIn x t u => exact (contracts_or_of_orElse h).imp_right (inside (.letIn x u))
  | proj t label => exact (contracts_or_of_orElse h).imp_right (inside (.proj label))
  | pred t => exact (contracts_or_of_orElse h).imp_right (inside .pred)
  | isZero t => exact (contracts_or_of_orElse h).imp_right (inside .isZero)
  | fix t => exact (contracts_or_of_orElse h).imp_right (inside .fix)
  | fst t => exact (contracts_or_of_orElse h).imp_right (inside .fst)
  | snd t => exact (contracts_or_of_orElse h).imp_right (inside .snd)
  | isNil t => exact (contracts_or_of_orElse h).imp_right (inside .isNil)
  | head t => exact (contracts_or_of_orElse h).imp_right (inside .head)
  | tail t => exact (contracts_or_of_orElse h).imp_right (inside .tail)

/-- The term in a frame is smaller than the whole. -/
theorem size_lt_size_fill (F : Frame) (t : Term) : t.size < (F.fill t).size := by
  cases F with
  | record before hv label after =>
    exact size_lt_size_record (f := (label, t)) (List.mem_append_right _ List.mem_cons_self)
  | _ =>
    simp only [Frame.fill, size]
    omega

/-- Induction over a step: a claim that holds of contractions, and of a step inside a frame when it
holds of the step that goes on there, holds of all steps. -/
@[elab_as_elim]
theorem step_induct {motive : (t t' : Term) → t.step = some t' → Prop}
    (contract : ∀ t t' (h : Contracts t t'), motive t t' (step_of_contracts h))
    (frame : ∀ (F : Frame) t t' (h : t.step = some t'), motive t t' h →
      motive (F.fill t) (F.fill t') (step_fill_of_step F h))
    {t t' : Term} (h : t.step = some t') : motive t t' h := by
  -- on the size: what is in the frame is smaller
  induction hn : t.size using Nat.strongRecOn generalizing t t' with
  | ind n ih =>
    rcases step_cases h with hc | ⟨F, u, u', rfl, hu, rfl⟩
    · exact contract t t' hc
    · exact frame F u u' hu (ih u.size (hn ▸ size_lt_size_fill F u) hu rfl)

end Term

end TypedLambda
