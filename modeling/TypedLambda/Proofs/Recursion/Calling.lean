/-!
# Recursive calls

A recursive function whose calls depend on the results of other calls need not be recursive on the
parts of its argument, and the calls cannot be read off its value. A computation shows them: it
ends, or calls the function and goes on with what the call gives. A function is described by one
computation for each argument. Running it replaces a call by the computation for its argument, and
nothing bounds how deep this goes. It comes to an end when all calls, answered rightly, are made
with smaller arguments than the one that they are made for.

## Main definitions

* `Calling`: computations with calls
* `Calling.answer`: what a computation gives, when a function answers its calls
* `Calling.Runs`, `Calling.Calls`: results of runs, and the calls that a run makes
* `Calling.Stays`: where all calls are made with arguments of a certain kind

## Main results

* `Calling.runs_iff`: with calls on smaller arguments, a run gives the value of the function
* `Calling.of_calls`: what is known of all calls, answered rightly, holds of those in a run
* `Calling.wellFounded_calls`: no calls go on inside each other forever
-/

namespace TypedLambda

/-- A computation that may call a function with arguments in `ι` and results in `ο`. -/
inductive Calling (ι ο α : Type) where
  /-- To end with a result. -/
  | done (a : α)
  /-- To call the function, and to go on with what it gives. -/
  | call (i : ι) (next : ο → Calling ι ο α)

namespace Calling

variable {ι ο α β : Type}

/-- One computation after another. -/
def bind : Calling ι ο α → (α → Calling ι ο β) → Calling ι ο β
  | done a, g => g a
  | call i next, g => call i fun o => (next o).bind g

instance : Monad (Calling ι ο) where
  pure := done
  bind := bind

/-- To call the function, and to give what it gives. -/
def ask (i : ι) : Calling ι ο ο :=
  call i done

/-! ## Answers -/

section Answers

variable (f : ι → ο) (P : ι → Prop)

/-- What the computation gives, when `f` answers its calls. -/
def answer : Calling ι ο α → α
  | done a => a
  | call i next => (next (f i)).answer

/-- When `f` answers the calls, all of them are made with arguments that satisfy `P`. -/
def Stays : Calling ι ο α → Prop
  | done _ => True
  | call i next => P i ∧ (next (f i)).Stays

@[simp] theorem answer_pure (a : α) : (pure a : Calling ι ο α).answer f = a := rfl

@[simp] theorem answer_ask (i : ι) : (ask i).answer f = f i := rfl

@[simp] theorem answer_bind (p : Calling ι ο α) (g : α → Calling ι ο β) :
    (p >>= g).answer f = (g (p.answer f)).answer f := by
  induction p with
  | done a => rfl
  | call i next ih => exact ih (f i)

@[simp] theorem stays_pure (a : α) : (pure a : Calling ι ο α).Stays f P ↔ True := .rfl

@[simp] theorem stays_ask (i : ι) : (ask i).Stays f P ↔ P i :=
  and_iff_left trivial

@[simp] theorem stays_bind (p : Calling ι ο α) (g : α → Calling ι ο β) :
    (p >>= g).Stays f P ↔ p.Stays f P ∧ (g (p.answer f)).Stays f P := by
  induction p with
  | done a => exact (and_iff_right trivial).symm
  | call i next ih => exact (and_congr_right fun _ => ih (f i)).trans and_assoc.symm

variable {f P}

theorem Stays.imp {Q : ι → Prop} {p : Calling ι ο α} (hp : p.Stays f P) (h : ∀ i, P i → Q i) :
    p.Stays f Q := by
  induction p with
  | done a => trivial
  | call i next ih => exact ⟨h i hp.1, ih (f i) hp.2⟩

/-- Two functions that answer the calls alike lead to the same result. -/
theorem answer_congr {g : ι → ο} {p : Calling ι ο α} (hp : p.Stays f P)
    (h : ∀ i, P i → g i = f i) : p.answer g = p.answer f := by
  induction p with
  | done a => rfl
  | call i next ih =>
    rw [answer, answer, h i hp.1]
    exact ih (f i) hp.2

end Answers

/-! ## Runs -/

/-- What running a computation comes to, when each call is run in its turn. -/
inductive Runs (body : ι → Calling ι ο ο) : {α : Type} → Calling ι ο α → α → Prop
  | done {α : Type} (a : α) : Runs body (done a) a
  | call {α : Type} {i : ι} {next : ο → Calling ι ο α} {o : ο} {a : α} (h : Runs body (body i) o)
      (rest : Runs body (next o) a) : Runs body (call i next) a

/-- The calls that a computation makes when it is run. Calls that these make in their turn are left
out. -/
inductive Calls (body : ι → Calling ι ο ο) : Calling ι ο α → ι → Prop
  | first (i : ι) (next : ο → Calling ι ο α) : Calls body (call i next) i
  | later {i j : ι} {next : ο → Calling ι ο α} {o : ο} (h : Runs body (body i) o)
      (rest : Calls body (next o) j) : Calls body (call i next) j

section Described

variable {body : ι → Calling ι ο ο} {f : ι → ο}

/-- A computation whose calls have runs has one itself. -/
theorem runs_of_stays {p : Calling ι ο α} (hp : p.Stays f fun i => Runs body (body i) (f i)) :
    Runs body p (p.answer f) := by
  induction p with
  | done a => exact .done a
  | call i next ih => exact .call hp.1 (ih (f i) hp.2)

variable (hf : ∀ i, (body i).answer f = f i)

include hf

/-- A run gives nothing but what the function gives. -/
theorem Runs.eq_answer {p : Calling ι ο α} {a : α} (h : Runs body p a) : a = p.answer f := by
  induction h with
  | done a => rfl
  | @call _ i next o a _ _ ihcall ihrest => rw [ihrest, ihcall, hf, answer]

/-- What holds of the arguments of all calls, when `f` answers them, holds of those in a run. -/
theorem of_calls {P : ι → Prop} {p : Calling ι ο α} {j : ι} (h : Calls body p j)
    (hp : p.Stays f P) : P j := by
  induction h with
  | first i next => exact hp.1
  | @later i j next o hrun _ ih =>
    have ho : o = f i := (hrun.eq_answer hf).trans (hf i)
    exact ih (ho ▸ hp.2)

variable {size : ι → Nat} (hsize : ∀ i, (body i).Stays f fun j => size j < size i)

include hsize

/-- A run comes to an end. -/
theorem runs_value (i : ι) : Runs body (body i) (f i) := by
  -- on the size of the argument: the calls that are made for it are for smaller ones
  induction hn : size i using Nat.strongRecOn generalizing i with
  | ind n ih =>
    have hcalls : (body i).Stays f fun j => Runs body (body j) (f j) :=
      (hsize i).imp fun j hj => ih (size j) (hn ▸ hj) j rfl
    exact hf i ▸ runs_of_stays hcalls

/-- **Calls on smaller arguments**: a run comes to an end, and gives the value of the function. -/
theorem runs_iff {i : ι} {o : ο} : Runs body (body i) o ↔ o = f i :=
  ⟨fun h => (h.eq_answer hf).trans (hf i), fun h => h ▸ runs_value hf hsize i⟩

/-- No calls go on inside each other forever. -/
theorem wellFounded_calls : WellFounded fun j i => Calls body (body i) j :=
  Subrelation.wf (fun h => of_calls hf h (hsize _)) (measure size).wf

end Described

end Calling

end TypedLambda
