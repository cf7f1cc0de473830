import Mathlib.Data.Finset.Card
import Mathlib.Data.List.Nodup
import Mathlib.Data.List.Perm.Subperm
import Mathlib.Order.Bounds.Defs
import TypedLambda.Term.FreeVars

/-!
# Fresh names

A fresh name is the given one with primes behind it, as few as make it differ from all names to be
avoided. Every prime makes a name longer, so the primed variants of a name are all different, and
one more of them than there are names to be avoided cannot all be among these. That is why a search
of as many steps as there are names to be avoided always ends at a new name.

## Main definitions

* `Name.primed`: a name with a number of primes behind it
* `Name.IsPrimed`: one name is another one with primes behind it
* `Name.Searches`: the search for a fresh name, without any bound

## Main results

* `Name.exists_fresh_eq_primed`: the fresh name is the first primed variant that is not avoided
* `Name.fresh_not_mem`: the fresh name is not avoided
* `Name.isPrimed_fresh`: the fresh variant of a name that is avoided has primes behind it
* `Name.search_terminates`: the search ends without a bound, and with the fewest primes
-/

namespace TypedLambda

namespace Name

/-! ## Primes -/

/-- The name with `k` primes behind it. -/
def primed (name : String) : (k : Nat) → String
  | 0 => name
  | k + 1 => primed name k ++ "'"

/-- The name `y` is `x` with at least one prime behind it. -/
def IsPrimed (x y : String) : Prop :=
  ∃ k, y = primed x (k + 1)

variable {x y z : String} {avoid : List String}

/-- The first prime may be put before the others. -/
theorem primed_prime (x : String) (k : Nat) : primed (x ++ "'") k = primed x (k + 1) := by
  induction k with
  | zero => rfl
  | succ k ih => rw [primed, ih, ← primed]

theorem primed_primed (x : String) (j k : Nat) : primed (primed x j) k = primed x (j + k) := by
  induction k with
  | zero => rfl
  | succ k ih => rw [primed, ih, ← Nat.add_assoc, primed]

@[simp] theorem length_primed (x : String) (k : Nat) : (primed x k).length = x.length + k := by
  induction k with
  | zero => rfl
  | succ k ih =>
    rw [primed, String.length_append, ih]
    rfl

theorem primed_injective (x : String) : Function.Injective (primed x) := by
  intro j k h
  have hlength := congrArg String.length h
  simpa using hlength

theorem IsPrimed.ne (h : IsPrimed x y) : y ≠ x := by
  obtain ⟨k, rfl⟩ := h
  exact fun h => Nat.succ_ne_zero k (primed_injective x (h.trans rfl))

theorem IsPrimed.trans (h : IsPrimed x y) (h' : IsPrimed y z) : IsPrimed x z := by
  obtain ⟨j, rfl⟩ := h
  obtain ⟨k, rfl⟩ := h'
  exact ⟨j + 1 + k, by rw [primed_primed, Nat.add_assoc, Nat.add_assoc, Nat.add_assoc]⟩

/-! ## The search for a fresh name -/

/-- The search passes names that are avoided, and stops at one that is not, or at its bound. -/
theorem exists_freshWithin_eq_primed (bound : Nat) (x : String) (avoid : List String) :
    ∃ k ≤ bound, freshWithin bound x avoid = primed x k ∧ (∀ j < k, primed x j ∈ avoid) ∧
      (k < bound → primed x k ∉ avoid) := by
  induction bound generalizing x with
  | zero => exact ⟨0, Nat.le_refl 0, rfl, fun j hj => absurd hj (Nat.not_lt_zero j),
      fun h => absurd h (Nat.not_lt_zero 0)⟩
  | succ bound ih =>
    rw [freshWithin]
    split
    · rename_i hx
      obtain ⟨k, hk, heq, hbefore, hafter⟩ := ih (x ++ "'")
      refine ⟨k + 1, Nat.succ_le_succ hk, by rw [heq, primed_prime], fun j hj => ?_, fun hlt => ?_⟩
      · cases j with
        | zero => exact hx
        | succ j =>
          rw [← primed_prime]
          exact hbefore j (Nat.lt_of_succ_lt_succ hj)
      · rw [← primed_prime]
        exact hafter (Nat.lt_of_succ_lt_succ hlt)
    · rename_i hx
      exact ⟨0, Nat.zero_le _, rfl, fun j hj => absurd hj (Nat.not_lt_zero j), fun _ => hx⟩

/-- Of the primed variants of a name, no more are avoided one after the other than there are names
to be avoided. -/
theorem le_length_of_primed_mem {n : Nat} (h : ∀ j < n, primed x j ∈ avoid) :
    n ≤ avoid.length := by
  have hnodup : ((List.range n).map (primed x)).Nodup :=
    List.nodup_range.map (primed_injective x)
  have hsub : (List.range n).map (primed x) ⊆ avoid := by
    intro y hy
    obtain ⟨j, hj, rfl⟩ := List.mem_map.mp hy
    exact h j (List.mem_range.mp hj)
  simpa using (List.subperm_of_subset hnodup hsub).length_le

/-- The fresh name has as many primes as it needs, and no more. -/
theorem exists_fresh_eq_primed (x : String) (avoid : List String) :
    ∃ k ≤ avoid.length, fresh x avoid = primed x k ∧ (∀ j < k, primed x j ∈ avoid) ∧
      primed x k ∉ avoid := by
  obtain ⟨k, hk, heq, hbefore, hafter⟩ := exists_freshWithin_eq_primed avoid.length x avoid
  refine ⟨k, hk, heq, hbefore, fun hmem => ?_⟩
  rcases Nat.lt_or_eq_of_le hk with hlt | hlast
  · exact hafter hlt hmem
  · -- all variants that were looked at, and this one, would be avoided
    have hall : ∀ j < k + 1, primed x j ∈ avoid := fun j hj =>
      (Nat.lt_or_eq_of_le (Nat.le_of_lt_succ hj)).elim (hbefore j) fun h => h ▸ hmem
    have hle := le_length_of_primed_mem hall
    omega

theorem fresh_not_mem (x : String) (avoid : List String) : fresh x avoid ∉ avoid := by
  obtain ⟨k, -, heq, -, hnew⟩ := exists_fresh_eq_primed x avoid
  rwa [heq]

/-- What is put in the place of a name that is avoided has primes behind it. -/
theorem isPrimed_fresh (hx : x ∈ avoid) : IsPrimed x (fresh x avoid) := by
  obtain ⟨k, -, heq, -, hnew⟩ := exists_fresh_eq_primed x avoid
  cases k with
  | zero => exact absurd hx hnew
  | succ k => exact ⟨k, heq⟩

/-! ## The search without a bound -/

/-- The search from `name` passes `n` names that are avoided, putting one more prime behind each of
them, and ends at `result`, which is not avoided. -/
inductive Searches (avoid : List String) : (n : Nat) → (name result : String) → Prop
  | stop {name : String} (h : name ∉ avoid) : Searches avoid 0 name name
  | next {n : Nat} {name result : String} (h : name ∈ avoid)
      (rest : Searches avoid n (name ++ "'") result) : Searches avoid (n + 1) name result

/-- A search passes primed variants of its name and ends at the first one that is not avoided. -/
theorem searches_iff {n : Nat} {result : String} :
    Searches avoid n x result ↔
      result = primed x n ∧ (∀ j < n, primed x j ∈ avoid) ∧ primed x n ∉ avoid := by
  constructor
  · intro h
    induction h with
    | stop hx => exact ⟨rfl, fun j hj => absurd hj (Nat.not_lt_zero j), hx⟩
    | next hx _ ih =>
      obtain ⟨hresult, hbefore, hnew⟩ := ih
      simp only [primed_prime] at hresult hbefore hnew
      refine ⟨hresult, fun j hj => ?_, hnew⟩
      cases j with
      | zero => exact hx
      | succ j => exact hbefore j (Nat.lt_of_succ_lt_succ hj)
  · rintro ⟨rfl, hbefore, hnew⟩
    induction n generalizing x with
    | zero => exact .stop hnew
    | succ n ih =>
      rw [← primed_prime] at hnew ⊢
      refine .next (hbefore 0 (Nat.succ_pos n)) (ih (fun j hj => ?_) hnew)
      rw [primed_prime]
      exact hbefore (j + 1) (Nat.succ_lt_succ hj)

/-- A search can end in one way only: at the least number of primes with which the name is not
avoided. -/
theorem searches_iff_of_isLeast {k n : Nat} {result : String}
    (hk : IsLeast {j | primed x j ∉ avoid} k) :
    Searches avoid n x result ↔ n = k ∧ result = primed x k := by
  rw [searches_iff]
  constructor
  · rintro ⟨rfl, hbefore, hnew⟩
    have hnk : n ≤ k := Nat.le_of_not_lt fun hlt => hk.1 (hbefore k hlt)
    obtain rfl : n = k := Nat.le_antisymm hnk (hk.2 hnew)
    exact ⟨rfl, rfl⟩
  · rintro ⟨rfl, rfl⟩
    exact ⟨rfl, fun j hj => of_not_not fun hnew => Nat.not_lt_of_le (hk.2 hnew) hj, hk.1⟩

/-- The fresh name has the least number of primes with which the name is not avoided. This is at
most the number of different names to be avoided. -/
theorem exists_isLeast_primed (x : String) (avoid : List String) :
    ∃ k ≤ avoid.toFinset.card, IsLeast {j | primed x j ∉ avoid} k ∧ fresh x avoid = primed x k := by
  obtain ⟨k, -, hfresh, hbefore, hnew⟩ := exists_fresh_eq_primed x avoid
  refine ⟨k, ?_, ⟨hnew, fun j hj => Nat.le_of_not_lt fun hlt => hj (hbefore j hlt)⟩, hfresh⟩
  rw [List.card_toFinset]
  exact le_length_of_primed_mem fun j hj => List.mem_dedup.mpr (hbefore j hj)

/-- **The search for a fresh name terminates**, although nothing bounds it. It passes no more names
than there are different ones to be avoided, and ends at the name with the least number of primes
behind it that is not avoided. This is the fresh name. -/
theorem search_terminates (name : String) (avoid : List String) :
    ∃ k ≤ avoid.toFinset.card, IsLeast {j | primed name j ∉ avoid} k ∧
      fresh name avoid = primed name k ∧
      ∀ n result, Searches avoid n name result ↔ n = k ∧ result = fresh name avoid := by
  obtain ⟨k, hcard, hleast, hfresh⟩ := exists_isLeast_primed name avoid
  refine ⟨k, hcard, hleast, hfresh, fun n result => ?_⟩
  rw [hfresh]
  exact searches_iff_of_isLeast hleast

/-- Names may be listed twice, and in any order. -/
example : fresh "x" ["x'", "y", "x", "x"] = "x''" := by decide

end Name

end TypedLambda
