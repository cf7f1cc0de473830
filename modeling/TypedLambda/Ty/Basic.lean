/-!
# Types

The types of the language: booleans, natural numbers and strings, functions, products, records,
lists, and names that stand for other types. A record type keeps its fields in the order in which
they were written, and equality of types is equality of these trees.

## Main definitions

* `Ty`: the types
* `Ty.depth`: the height of a type as a tree
* `Ty.induct`: induction over types, with the hypothesis for every field of a record

## Main results

* `Ty.beq_eq_true_iff`: the comparison function decides equality
-/

namespace TypedLambda

/-- A type. -/
inductive Ty where
  /-- Truth values. -/
  | bool
  /-- Natural numbers. -/
  | nat
  /-- Character strings. -/
  | string
  /-- Functions from `domain` to `codomain`. -/
  | arrow (domain codomain : Ty)
  /-- Pairs of a `first` and a `second`. -/
  | prod (first second : Ty)
  /-- Records with the given labels, in this order. -/
  | record (fields : List (String × Ty))
  /-- Lists of `element`s. -/
  | list (element : Ty)
  /-- A name that stands for another type. -/
  | named (name : String)
deriving Repr, Inhabited

namespace Ty

/-! ## Induction -/

/-- Induction over types: a record type may use the claim for each of its fields. -/
@[elab_as_elim, induction_eliminator]
theorem induct {motive : Ty → Prop} (bool : motive .bool) (nat : motive .nat)
    (string : motive .string)
    (arrow : ∀ A B, motive A → motive B → motive (.arrow A B))
    (prod : ∀ A B, motive A → motive B → motive (.prod A B))
    (record : ∀ fields, (∀ f ∈ fields, motive f.2) → motive (.record fields))
    (list : ∀ A, motive A → motive (.list A))
    (named : ∀ name, motive (.named name)) (T : Ty) : motive T :=
  Ty.rec bool nat string arrow prod record list named
    (fun _ h => nomatch h)
    (fun _ _ head tail f h => (List.mem_cons.mp h).elim (fun e => e ▸ head) (tail f))
    (fun _ _ h => h) T

/-! ## Height -/

mutual

/-- The height of the type as a tree; a name and a base type have height one. -/
def depth : Ty → Nat
  | bool | nat | string | named _ => 1
  | arrow A B | prod A B => max A.depth B.depth + 1
  | record fields => depthFields fields + 1
  | list A => A.depth + 1

/-- The greatest height among the fields. -/
def depthFields : List (String × Ty) → Nat
  | [] => 0
  | (_, A) :: fields => max A.depth (depthFields fields)

end

/-! ## Equality -/

mutual

/-- Whether two types are the same tree. -/
def beq : Ty → Ty → Bool
  | bool, bool | nat, nat | string, string => true
  | arrow A B, arrow C D => A.beq C && B.beq D
  | prod A B, prod C D => A.beq C && B.beq D
  | record fs, record gs => beqFields fs gs
  | list A, list B => A.beq B
  | named x, named y => x == y
  | _, _ => false

/-- Whether two lists of fields have the same labels and types in the same order. -/
def beqFields : List (String × Ty) → List (String × Ty) → Bool
  | [], [] => true
  | (l, A) :: fs, (m, B) :: gs => l == m && A.beq B && beqFields fs gs
  | _, _ => false

end

theorem beqFields_eq_true_iff {fs : List (String × Ty)}
    (h : ∀ f ∈ fs, ∀ B, f.2.beq B = true ↔ f.2 = B) (gs : List (String × Ty)) :
    beqFields fs gs = true ↔ fs = gs := by
  induction fs generalizing gs with
  | nil => cases gs <;> simp [beqFields]
  | cons f fs ih =>
    cases gs with
    | nil => simp [beqFields]
    | cons g gs =>
      have hf := h f (by simp) g.2
      have ht := ih (fun f' hf' => h f' (by simp [hf'])) gs
      obtain ⟨l, A⟩ := f
      obtain ⟨m, B⟩ := g
      simp_all [beqFields, and_assoc]

/-- The comparison function decides equality of types. -/
theorem beq_eq_true_iff (A B : Ty) : A.beq B = true ↔ A = B := by
  induction A generalizing B with
  | record fields ih =>
    cases B <;> simp [beq]
    exact beqFields_eq_true_iff ih _
  | _ => cases B <;> simp_all [beq]

instance : DecidableEq Ty := fun A B =>
  decidable_of_iff (A.beq B = true) (beq_eq_true_iff A B)

end Ty

end TypedLambda
