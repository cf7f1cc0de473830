import TypedLambda.Ty.Basic

/-!
# Terms

The terms of the language: booleans, natural numbers built from zero and successor, variables,
functions, `let`, general recursion by `fix`, strings, pairs, records and lists. Variables and
labels are names; a binder carries the name it binds, and functions and the empty list carry a
type annotation.

## Main definitions

* `Term`: the terms
* `Term.numeral`, `Term.toNat?`: the terms that stand for numbers
* `Term.size`, `Term.depth`: the number of nodes and the height of a term
* `Term.induct`: induction over terms, with the hypothesis for every field of a record

## Main results

* `Term.toNat?_eq_some_iff`: a term stands for `n` exactly when it is the numeral of `n`
* `Term.beq_eq_true_iff`: the comparison function decides equality
-/

namespace TypedLambda

/-- A term. -/
inductive Term where
  /-- A truth value. -/
  | bool (value : Bool)
  /-- The number zero. -/
  | zero
  /-- The number after that of `t`. -/
  | succ (t : Term)
  /-- The number before that of `t`. -/
  | pred (t : Term)
  /-- Whether the number of `t` is zero. -/
  | isZero (t : Term)
  /-- `onTrue` or `onFalse`, as the guard says. -/
  | ite (guard onTrue onFalse : Term)
  /-- A variable. -/
  | var (name : String)
  /-- The function of `x`, of the annotated type, that gives `body`. -/
  | lam (x : String) (ty : Ty) (body : Term)
  /-- The function `f` applied to the argument `a`. -/
  | app (f a : Term)
  /-- `body`, with `x` standing for what `value` gives. -/
  | letIn (x : String) (value body : Term)
  /-- The fixed point of a function. -/
  | fix (t : Term)
  /-- A string constant. -/
  | string (value : String)
  /-- One string after another. -/
  | concat (first second : Term)
  /-- A pair. -/
  | pair (first second : Term)
  /-- The first component of a pair. -/
  | fst (t : Term)
  /-- The second component of a pair. -/
  | snd (t : Term)
  /-- A record with the given fields, in this order. -/
  | record (fields : List (String × Term))
  /-- The field `label` of a record. -/
  | proj (t : Term) (label : String)
  /-- The empty list of the annotated element type. -/
  | nil (ty : Ty)
  /-- The list `tail` with `head` put in front. -/
  | cons (head tail : Term)
  /-- Whether a list is empty. -/
  | isNil (t : Term)
  /-- The first element of a list. -/
  | head (t : Term)
  /-- A list without its first element. -/
  | tail (t : Term)
deriving Repr, Inhabited

namespace Term

/-! ## Induction -/

/-- Induction over terms: a record may use the claim for each of its fields. -/
@[elab_as_elim, induction_eliminator]
theorem induct {motive : Term → Prop} (bool : ∀ b, motive (.bool b)) (zero : motive .zero)
    (succ : ∀ t, motive t → motive (.succ t))
    (pred : ∀ t, motive t → motive (.pred t))
    (isZero : ∀ t, motive t → motive (.isZero t))
    (ite : ∀ t u v, motive t → motive u → motive v → motive (.ite t u v))
    (var : ∀ x, motive (.var x))
    (lam : ∀ x T t, motive t → motive (.lam x T t))
    (app : ∀ t u, motive t → motive u → motive (.app t u))
    (letIn : ∀ x t u, motive t → motive u → motive (.letIn x t u))
    (fix : ∀ t, motive t → motive (.fix t))
    (string : ∀ s, motive (.string s))
    (concat : ∀ t u, motive t → motive u → motive (.concat t u))
    (pair : ∀ t u, motive t → motive u → motive (.pair t u))
    (fst : ∀ t, motive t → motive (.fst t))
    (snd : ∀ t, motive t → motive (.snd t))
    (record : ∀ fields, (∀ f ∈ fields, motive f.2) → motive (.record fields))
    (proj : ∀ t label, motive t → motive (.proj t label))
    (nil : ∀ T, motive (.nil T))
    (cons : ∀ t u, motive t → motive u → motive (.cons t u))
    (isNil : ∀ t, motive t → motive (.isNil t))
    (head : ∀ t, motive t → motive (.head t))
    (tail : ∀ t, motive t → motive (.tail t)) (t : Term) : motive t :=
  Term.rec bool zero succ pred isZero ite var lam app letIn fix string concat pair fst snd record
    proj nil cons isNil head tail
    (fun _ h => nomatch h)
    (fun _ _ head tail f h => (List.mem_cons.mp h).elim (fun e => e ▸ head) (tail f))
    (fun _ _ h => h) t

/-! ## Numerals -/

/-- The number `n` as `n` successors around zero. -/
def numeral : Nat → Term
  | 0 => zero
  | n + 1 => succ (numeral n)

/-- The number for which the term stands, if it is a numeral. -/
def toNat? : Term → Option Nat
  | zero => some 0
  | succ t => t.toNat?.map (· + 1)
  | _ => none

@[simp] theorem toNat?_numeral (n : Nat) : (numeral n).toNat? = some n := by
  induction n with
  | zero => rfl
  | succ n ih => simp [numeral, toNat?, ih]

/-- A term stands for `n` exactly when it is the numeral of `n`. -/
theorem toNat?_eq_some_iff {t : Term} {n : Nat} : t.toNat? = some n ↔ t = numeral n := by
  refine ⟨fun h => ?_, fun h => h ▸ toNat?_numeral n⟩
  induction t generalizing n with
  | zero =>
    obtain rfl : 0 = n := Option.some.inj h
    rfl
  | succ t ih =>
    obtain ⟨m, hm, rfl⟩ := Option.map_eq_some_iff.mp h
    simp [numeral, ih hm]
  | _ => simp [toNat?] at h

/-- Whether the term is a numeral. -/
def isNumeral (t : Term) : Bool :=
  t.toNat?.isSome

/-! ## Size and height -/

mutual

/-- The number of nodes of a term. -/
def size : Term → Nat
  | bool _ | zero | var _ | string _ | nil _ => 1
  | succ t | pred t | isZero t | lam _ _ t | fix t | fst t | snd t | proj t _ | isNil t | head t
  | tail t => t.size + 1
  | app t u | letIn _ t u | concat t u | pair t u | cons t u => t.size + u.size + 1
  | ite t u v => t.size + u.size + v.size + 1
  | record fields => sizeFields fields + 1

/-- The number of nodes of all fields together. -/
def sizeFields : List (String × Term) → Nat
  | [] => 0
  | (_, t) :: fields => t.size + sizeFields fields

end

mutual

/-- The height of the term as a tree, annotations included. -/
def depth : Term → Nat
  | bool _ | zero | var _ | string _ => 1
  | nil T => T.depth + 1
  | lam _ T t => max T.depth t.depth + 1
  | succ t | pred t | isZero t | fix t | fst t | snd t | proj t _ | isNil t | head t | tail t =>
    t.depth + 1
  | app t u | letIn _ t u | concat t u | pair t u | cons t u => max t.depth u.depth + 1
  | ite t u v => max t.depth (max u.depth v.depth) + 1
  | record fields => depthFields fields + 1

/-- The greatest height among the fields. -/
def depthFields : List (String × Term) → Nat
  | [] => 0
  | (_, t) :: fields => max t.depth (depthFields fields)

end

theorem size_le_sizeFields {fields : List (String × Term)} {f : String × Term}
    (h : f ∈ fields) : f.2.size ≤ sizeFields fields := by
  induction fields with
  | nil => cases h
  | cons g fields ih =>
    rw [sizeFields]
    rcases List.mem_cons.mp h with rfl | h
    · omega
    · have := ih h
      omega

/-- A field is smaller than its record. -/
theorem size_lt_size_record {fields : List (String × Term)} {f : String × Term}
    (h : f ∈ fields) : f.2.size < (record fields).size := by
  rw [size]
  exact Nat.lt_succ_of_le (size_le_sizeFields h)

theorem size_pos (t : Term) : 0 < t.size := by
  cases t <;> simp [size]

/-! ## Equality -/

mutual

/-- Whether two terms are the same tree. -/
def beq : Term → Term → Bool
  | bool a, bool b => a == b
  | zero, zero => true
  | succ t, succ u | pred t, pred u | isZero t, isZero u | fix t, fix u | fst t, fst u
  | snd t, snd u | isNil t, isNil u | head t, head u | tail t, tail u => t.beq u
  | ite t₁ t₂ t₃, ite u₁ u₂ u₃ => t₁.beq u₁ && t₂.beq u₂ && t₃.beq u₃
  | var x, var y => x == y
  | lam x A t, lam y B u => x == y && decide (A = B) && t.beq u
  | app t₁ t₂, app u₁ u₂ => t₁.beq u₁ && t₂.beq u₂
  | letIn x t₁ t₂, letIn y u₁ u₂ => x == y && t₁.beq u₁ && t₂.beq u₂
  | string s, string r => s == r
  | concat t₁ t₂, concat u₁ u₂ => t₁.beq u₁ && t₂.beq u₂
  | pair t₁ t₂, pair u₁ u₂ => t₁.beq u₁ && t₂.beq u₂
  | record fs, record gs => beqFields fs gs
  | proj t l, proj u m => l == m && t.beq u
  | nil A, nil B => decide (A = B)
  | cons t₁ t₂, cons u₁ u₂ => t₁.beq u₁ && t₂.beq u₂
  | _, _ => false

/-- Whether two lists of fields have the same labels and terms in the same order. -/
def beqFields : List (String × Term) → List (String × Term) → Bool
  | [], [] => true
  | (l, t) :: fs, (m, u) :: gs => l == m && t.beq u && beqFields fs gs
  | _, _ => false

end

theorem eq_of_beq {t u : Term} : t.beq u = true → t = u := by
  refine Term.beq.induct (fun t u => t.beq u = true → t = u)
    (fun fs gs => beqFields fs gs = true → fs = gs)
    ?_ ?_ ?_ ?_ ?_ ?_ ?_ ?_ ?_ ?_ ?_ ?_ ?_ ?_ ?_ ?_ ?_ ?_ ?_ ?_ ?_ ?_ ?_ ?_ ?_ ?_ ?_ t u
  all_goals intros
  all_goals simp_all [beq, beqFields]

theorem beq_self (t : Term) : t.beq t = true := by
  induction t with
  | record fields ih =>
    rw [beq]
    induction fields with
    | nil => rfl
    | cons f fields ihf => simp_all [beqFields]
  | _ => simp_all [beq]

/-- The comparison function decides equality of terms. -/
theorem beq_eq_true_iff (t u : Term) : t.beq u = true ↔ t = u :=
  ⟨eq_of_beq, fun h => h ▸ beq_self t⟩

instance : DecidableEq Term := fun t u =>
  decidable_of_iff (t.beq u = true) (beq_eq_true_iff t u)

end Term

end TypedLambda
