import TypedLambda.Proofs.Reduction.Preservation

/-!
# Reduction with another substitution

Three of the rules put a term for a variable. Reduction is carried out here with any function in the
place of substitution; it takes the same steps as long as this function does the same as
substitution with the replacements that occur. What occurs is told by the frames around the redex:
the argument of a function, the value of a definition, or the fixed point itself. In a closed term
these are closed, so only closed replacements matter along its whole run.

## Main definitions

* `Substitution`: a function in the place of substitution
* `Term.Replaces`: which term the step of a term puts for which variable, and in which body
* `Term.stepBy`, `Term.outcomeBy`, `Term.traceBy`: reduction with such a function

## Main results

* `Term.stepBy_eq_step`: a step depends on the replacement that it makes only
* `Term.isClosed_of_replaces`: in a closed term, closed terms are put for variables
* `Term.outcomeBy_eq_outcome`, `Term.traceBy_eq_trace`: runs of closed terms
-/

namespace TypedLambda

/-- A function that may stand in the place of substitution: of a term, a variable in it and the
replacement. -/
abbrev Substitution :=
  (t : Term) → (x : String) → (s : Term) → Term

/-- The function substitutes closed terms as substitution does. -/
def Substitution.IsFaithful (sub : Substitution) : Prop :=
  ∀ t x s, s.IsClosed → sub t x s = t.subst x s

namespace Term

/-! ## Replacements -/

/-- The step of a term puts `s` for `x` in `body`. -/
inductive Replaces (body : Term) (x : String) : (s : Term) → Term → Prop
  | app (T : Ty) {v : Term} (hv : v.isValue = true) : Replaces body x v (app (lam x T body) v)
  | letIn {v : Term} (hv : v.isValue = true) : Replaces body x v (letIn x v body)
  | fix (T : Ty) : Replaces body x (fix (lam x T body)) (fix (lam x T body))
  | fill (F : Frame) {s t : Term} (h : Replaces body x s t) : Replaces body x s (F.fill t)

/-- In a closed term, closed terms are put for variables. -/
theorem isClosed_of_replaces {body s t : Term} {x : String} (h : Replaces body x s t)
    (ht : t.IsClosed) : s.IsClosed := by
  induction h with
  | app T hv => exact isClosed_of_fill (F := .appArg (lam x T body) rfl) ht
  | letIn hv => exact isClosed_of_fill (F := .letIn x body) ht
  | fix T => exact ht
  | fill F _ ih => exact ih (isClosed_of_fill ht)

/-! ## Steps -/

/-- The contraction of a redex at the root, with `sub` in the place of substitution. -/
def contractBy (sub : Substitution) : Term → Option Term
  | app (lam x _ t) v => if v.isValue then some (sub t x v) else none
  | letIn x v t => if v.isValue then some (sub t x v) else none
  | fix (lam x T t) => some (sub t x (fix (lam x T t)))
  | t => t.contract?

mutual

/-- One step of reduction, with `sub` in the place of substitution. -/
def stepBy (sub : Substitution) : Term → Option Term
  | ite t u v => (ite t u v).contractBy sub <|> (t.stepBy sub).map (ite · u v)
  | succ t => (t.stepBy sub).map succ
  | pred t => (pred t).contractBy sub <|> (t.stepBy sub).map pred
  | isZero t => (isZero t).contractBy sub <|> (t.stepBy sub).map isZero
  | app t u =>
    (app t u).contractBy sub <|>
      if t.isValue then (u.stepBy sub).map (app t) else (t.stepBy sub).map (app · u)
  | letIn x t u => (letIn x t u).contractBy sub <|> (t.stepBy sub).map (letIn x · u)
  | fix t => (fix t).contractBy sub <|> (t.stepBy sub).map fix
  | concat t u =>
    (concat t u).contractBy sub <|>
      if t.isString then (u.stepBy sub).map (concat t) else (t.stepBy sub).map (concat · u)
  | pair t u => if t.isValue then (u.stepBy sub).map (pair t) else (t.stepBy sub).map (pair · u)
  | fst t => (fst t).contractBy sub <|> (t.stepBy sub).map fst
  | snd t => (snd t).contractBy sub <|> (t.stepBy sub).map snd
  | record fields => (stepFieldsBy sub fields).map record
  | proj t label => (proj t label).contractBy sub <|> (t.stepBy sub).map (proj · label)
  | cons t u => if t.isValue then (u.stepBy sub).map (cons t) else (t.stepBy sub).map (cons · u)
  | isNil t => (isNil t).contractBy sub <|> (t.stepBy sub).map isNil
  | head t => (head t).contractBy sub <|> (t.stepBy sub).map head
  | tail t => (tail t).contractBy sub <|> (t.stepBy sub).map tail
  | bool _ | zero | string _ | lam _ _ _ | nil _ | var _ => none

/-- One step in the first field that is not a value, with `sub` in the place of substitution. -/
def stepFieldsBy (sub : Substitution) : List (String × Term) → Option (List (String × Term))
  | [] => none
  | (label, t) :: fields =>
    if t.isValue then (stepFieldsBy sub fields).map ((label, t) :: ·)
    else (t.stepBy sub).map fun u => (label, u) :: fields

end

section Agreement

variable {sub : Substitution}

theorem contractBy_eq_contract? {t : Term}
    (h : ∀ body x s, Replaces body x s t → sub body x s = body.subst x s) :
    t.contractBy sub = t.contract? := by
  unfold contractBy
  split
  · rename_i x T body v
    by_cases hv : v.isValue = true
    · rw [contract?, if_pos hv, if_pos hv, h body x v (.app T hv)]
    · rw [contract?, if_neg hv, if_neg hv]
  · rename_i x v body
    by_cases hv : v.isValue = true
    · rw [contract?, if_pos hv, if_pos hv, h body x v (.letIn hv)]
    · rw [contract?, if_neg hv, if_neg hv]
  · rename_i x T body
    rw [contract?, h body x _ (.fix T)]
  · rfl

theorem stepFieldsBy_eq_stepFields {fields : List (String × Term)}
    (h : ∀ before f after, fields = before ++ f :: after → (∀ g ∈ before, g.2.isValue = true) →
      f.2.stepBy sub = f.2.step) : stepFieldsBy sub fields = stepFields fields := by
  induction fields with
  | nil => rfl
  | cons f fields ih =>
    rw [stepFieldsBy, stepFields, h [] f fields rfl fun _ hg => absurd hg List.not_mem_nil]
    by_cases hf : f.2.isValue = true
    · rw [if_pos hf, if_pos hf, ih fun before g after hfields hbefore => ?_]
      exact h (f :: before) g after (congrArg _ hfields) (List.forall_mem_cons.mpr ⟨hf, hbefore⟩)
    · rw [if_neg hf, if_neg hf]

/-- The step is the same with a function that does what substitution does in the replacement that
the step makes. -/
theorem stepBy_eq_step {t : Term}
    (h : ∀ body x s, Replaces body x s t → sub body x s = body.subst x s) :
    t.stepBy sub = t.step := by
  -- a part is asked for its step where it stands in a frame, which makes the replacement of the
  -- part one of the whole
  induction t with
  | bool | zero | string | lam | nil | var => rfl
  | succ t ih => rw [stepBy, step, ih fun b x s hr => h b x s (.fill .succ hr)]
  | pred t ih =>
    rw [stepBy, step, contractBy_eq_contract? h, ih fun b x s hr => h b x s (.fill .pred hr)]
  | isZero t ih =>
    rw [stepBy, step, contractBy_eq_contract? h, ih fun b x s hr => h b x s (.fill .isZero hr)]
  | ite t u v ih =>
    rw [stepBy, step, contractBy_eq_contract? h, ih fun b x s hr => h b x s (.fill (.ite u v) hr)]
  | app t u iht ihu =>
    rw [stepBy, step, contractBy_eq_contract? h,
      iht fun b x s hr => h b x s (.fill (.appFun u) hr)]
    by_cases ht : t.isValue = true
    · rw [if_pos ht, if_pos ht, ihu fun b x s hr => h b x s (.fill (.appArg t ht) hr)]
    · rw [if_neg ht, if_neg ht]
  | letIn y t u ih =>
    rw [stepBy, step, contractBy_eq_contract? h,
      ih fun b x s hr => h b x s (.fill (.letIn y u) hr)]
  | fix t ih =>
    rw [stepBy, step, contractBy_eq_contract? h, ih fun b x s hr => h b x s (.fill .fix hr)]
  | concat t u iht ihu =>
    rw [stepBy, step, contractBy_eq_contract? h,
      iht fun b x s hr => h b x s (.fill (.concatFirst u) hr)]
    cases t with
    | string r => rw [ihu fun b x s hr => h b x s (.fill (.concatSecond r) hr)]
    | _ => rfl
  | pair t u iht ihu =>
    rw [stepBy, step, iht fun b x s hr => h b x s (.fill (.pairFirst u) hr)]
    by_cases ht : t.isValue = true
    · rw [if_pos ht, if_pos ht, ihu fun b x s hr => h b x s (.fill (.pairSecond t ht) hr)]
    · rw [if_neg ht, if_neg ht]
  | cons t u iht ihu =>
    rw [stepBy, step, iht fun b x s hr => h b x s (.fill (.consHead u) hr)]
    by_cases ht : t.isValue = true
    · rw [if_pos ht, if_pos ht, ihu fun b x s hr => h b x s (.fill (.consTail t ht) hr)]
    · rw [if_neg ht, if_neg ht]
  | fst t ih =>
    rw [stepBy, step, contractBy_eq_contract? h, ih fun b x s hr => h b x s (.fill .fst hr)]
  | snd t ih =>
    rw [stepBy, step, contractBy_eq_contract? h, ih fun b x s hr => h b x s (.fill .snd hr)]
  | record fields ih =>
    rw [stepBy, step, stepFieldsBy_eq_stepFields fun before f after hfields hbefore => ?_]
    subst hfields
    exact ih f (List.mem_append_right _ List.mem_cons_self) fun b x s hr =>
      h b x s (.fill (.record before hbefore f.1 after) hr)
  | proj t label ih =>
    rw [stepBy, step, contractBy_eq_contract? h,
      ih fun b x s hr => h b x s (.fill (.proj label) hr)]
  | isNil t ih =>
    rw [stepBy, step, contractBy_eq_contract? h, ih fun b x s hr => h b x s (.fill .isNil hr)]
  | head t ih =>
    rw [stepBy, step, contractBy_eq_contract? h, ih fun b x s hr => h b x s (.fill .head hr)]
  | tail t ih =>
    rw [stepBy, step, contractBy_eq_contract? h, ih fun b x s hr => h b x s (.fill .tail hr)]

/-- With substitution itself it is reduction. -/
theorem stepBy_subst (t : Term) : t.stepBy subst = t.step :=
  stepBy_eq_step fun _ _ _ _ => rfl

/-- A closed term takes the same step with a function that substitutes closed terms faithfully. -/
theorem stepBy_eq_step_of_isClosed (hsub : sub.IsFaithful) {t : Term} (ht : t.IsClosed) :
    t.stepBy sub = t.step :=
  stepBy_eq_step fun body x s h => hsub body x s (isClosed_of_replaces h ht)

end Agreement

/-! ## Runs -/

/-- The end of a run of at most `n` steps that refuses the terms in `refuses`, with `sub` in the
place of substitution. -/
def outcomeBy (sub : Substitution) (refuses : Term → Bool) (n : Nat) (t : Term) : Outcome :=
  if refuses t then .refused
  else
    match t.stepBy sub with
    | none => .finished t
    | some u =>
      match n with
      | 0 => .stopped
      | n + 1 => outcomeBy sub refuses n u

/-- The terms met by a run of at most `n` steps that refuses the terms in `refuses`, without the
first one, with `sub` in the place of substitution. -/
def traceBy (sub : Substitution) (refuses : Term → Bool) : (n : Nat) → Term → List Term
  | 0, _ => []
  | n + 1, t =>
    if refuses t then []
    else
      match t.stepBy sub with
      | none => []
      | some u => u :: traceBy sub refuses n u

section Runs

variable {sub : Substitution} (hsub : sub.IsFaithful) (refuses : Term → Bool)
include hsub

/-- The run of a closed term ends in the same way. -/
theorem outcomeBy_eq_outcome (n : Nat) {t : Term} (ht : t.IsClosed) :
    t.outcomeBy sub refuses n = t.outcome refuses n := by
  induction n generalizing t with
  | zero =>
    rw [outcomeBy, outcome]
    cases hu : t.step <;> simp only [stepBy_eq_step_of_isClosed hsub ht, hu]
  | succ n ih =>
    rw [outcomeBy, outcome]
    cases hu : t.step with
    | none => simp only [stepBy_eq_step_of_isClosed hsub ht, hu]
    | some u =>
      simp only [stepBy_eq_step_of_isClosed hsub ht, hu, ih (isClosed_of_step hu ht)]

/-- The run of a closed term meets the same terms. -/
theorem traceBy_eq_trace (n : Nat) {t : Term} (ht : t.IsClosed) :
    t.traceBy sub refuses n = t.trace refuses n := by
  induction n generalizing t with
  | zero => rfl
  | succ n ih =>
    rw [traceBy, trace]
    cases hu : t.step with
    | none => simp only [stepBy_eq_step_of_isClosed hsub ht, hu]
    | some u => simp only [stepBy_eq_step_of_isClosed hsub ht, hu, ih (isClosed_of_step hu ht)]

end Runs

end Term

end TypedLambda
