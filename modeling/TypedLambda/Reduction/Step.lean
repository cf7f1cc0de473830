import TypedLambda.Term.Subst

/-!
# Reduction

Call-by-value reduction by single steps. A redex at the root of a term contracts; otherwise the
step happens in the leftmost part that is not a value, or nowhere.

## Main definitions

* `Term.isValue`: the terms that are finished results
* `Term.contract?`: the contraction of a redex at the root
* `Term.step`: one step of reduction
* `Term.IsNormal`: no step is possible

## Main results

* `Term.isValue_record`: a record is a value when its fields are
-/

namespace TypedLambda

namespace Term

/-! ## Values -/

mutual

/-- Whether a term is a finished result: a constant, a function, or data all of whose parts are
values. -/
def isValue : Term → Bool
  | bool _ | lam _ _ _ | string _ | nil _ | zero => true
  | succ t => t.isNumeral
  | pair t u | cons t u => t.isValue && u.isValue
  | record fields => isValueFields fields
  | _ => false

/-- Whether all fields are values. -/
def isValueFields : List (String × Term) → Bool
  | [] => true
  | (_, t) :: fields => t.isValue && isValueFields fields

end

@[simp] theorem isValueFields_eq_all (fields : List (String × Term)) :
    isValueFields fields = fields.all fun f => f.2.isValue := by
  induction fields with
  | nil => rfl
  | cons f fields ih => simp [isValueFields, ih]

/-- A record is a value when its fields are. -/
theorem isValue_record (fields : List (String × Term)) :
    (record fields).isValue = fields.all fun f => f.2.isValue := by
  simp [isValue]

/-! ## Steps -/

/-- The contraction of a redex at the root of a term. -/
def contract? : Term → Option Term
  | ite (bool b) t u => some (if b then t else u)
  | pred zero => some zero
  | pred (succ t) => if t.isNumeral then some t else none
  | isZero zero => some (bool true)
  | isZero (succ t) => if t.isNumeral then some (bool false) else none
  | app (lam x _ t) v => if v.isValue then some (t.subst x v) else none
  | letIn x v t => if v.isValue then some (t.subst x v) else none
  | fix (lam x T t) => some (t.subst x (fix (lam x T t)))
  | concat (string s) (string r) => some (string (s ++ r))
  | fst (pair v w) => if v.isValue && w.isValue then some v else none
  | snd (pair v w) => if v.isValue && w.isValue then some w else none
  | proj (record fields) label =>
    if isValueFields fields then fields.lookup label else none
  | isNil (nil _) => some (bool true)
  | isNil (cons v w) => if v.isValue && w.isValue then some (bool false) else none
  | head (cons v w) => if v.isValue && w.isValue then some v else none
  | tail (cons v w) => if v.isValue && w.isValue then some w else none
  | _ => none

/-- Whether the term is a string constant. -/
def isString : Term → Bool
  | string _ => true
  | _ => false

mutual

/-- One step of call-by-value reduction, unless no rule applies. -/
def step : Term → Option Term
  | ite t u v => (ite t u v).contract? <|> t.step.map (ite · u v)
  | succ t => t.step.map succ
  | pred t => (pred t).contract? <|> t.step.map pred
  | isZero t => (isZero t).contract? <|> t.step.map isZero
  | app t u =>
    (app t u).contract? <|> if t.isValue then u.step.map (app t) else t.step.map (app · u)
  | letIn x t u => (letIn x t u).contract? <|> t.step.map (letIn x · u)
  | fix t => (fix t).contract? <|> t.step.map fix
  | concat t u =>
    (concat t u).contract? <|>
      if t.isString then u.step.map (concat t) else t.step.map (concat · u)
  | pair t u => if t.isValue then u.step.map (pair t) else t.step.map (pair · u)
  | fst t => (fst t).contract? <|> t.step.map fst
  | snd t => (snd t).contract? <|> t.step.map snd
  | record fields => (stepFields fields).map record
  | proj t label => (proj t label).contract? <|> t.step.map (proj · label)
  | cons t u => if t.isValue then u.step.map (cons t) else t.step.map (cons · u)
  | isNil t => (isNil t).contract? <|> t.step.map isNil
  | head t => (head t).contract? <|> t.step.map head
  | tail t => (tail t).contract? <|> t.step.map tail
  | bool _ | zero | string _ | lam _ _ _ | nil _ | var _ => none

/-- One step in the first field that is not a value. -/
def stepFields : List (String × Term) → Option (List (String × Term))
  | [] => none
  | (label, t) :: fields =>
    if t.isValue then (stepFields fields).map ((label, t) :: ·)
    else t.step.map fun u => (label, u) :: fields

end

/-- No step is possible. -/
def IsNormal (t : Term) : Prop :=
  t.step = none

instance (t : Term) : Decidable t.IsNormal :=
  inferInstanceAs (Decidable (t.step = none))

end Term

end TypedLambda
