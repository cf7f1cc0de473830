/-!
# Scopes

A scope lists names with what they stand for, the newest entry first. An entry hides the older
entries of the same name, which stay in the list.

## Main definitions

* `Scope α`: names that stand for values in `α`
* `Scope.extend`, `Scope.get?`: the two operations on a scope

## Main results

* `Scope.get?_extend_self`, `Scope.get?_extend_of_ne`: the newest entry of a name is found
-/

namespace TypedLambda

/-- Names with what they stand for, the newest first. -/
structure Scope (α : Type) where
  /-- All entries, hidden ones included, the newest first. -/
  entries : List (String × α) := []
deriving Repr

namespace Scope

variable {α : Type}

instance : Inhabited (Scope α) := ⟨{}⟩

/-- The scope with one more entry in front. -/
def extend (s : Scope α) (name : String) (value : α) : Scope α :=
  ⟨(name, value) :: s.entries⟩

/-- What the newest entry of the name holds. -/
def get? (s : Scope α) (name : String) : Option α :=
  s.entries.lookup name

/-- The number of entries, hidden ones included. -/
def size (s : Scope α) : Nat :=
  s.entries.length

@[simp] theorem get?_empty (x : String) : ({} : Scope α).get? x = none := rfl

@[simp] theorem get?_extend_self (s : Scope α) (x : String) (a : α) :
    (s.extend x a).get? x = some a := by
  simp [get?, extend]

theorem get?_extend_of_ne (s : Scope α) {x y : String} (h : y ≠ x) (a : α) :
    (s.extend x a).get? y = s.get? y := by
  have h' : (y == x) = false := by simpa using h
  simp [get?, extend, List.lookup_cons, h']

@[simp] theorem size_extend (s : Scope α) (x : String) (a : α) :
    (s.extend x a).size = s.size + 1 := rfl

end Scope

end TypedLambda
