import TypedLambda.Reduction.Run

/-!
# How runs end

A run comes to its end exactly when some number of steps leads to a normal form and none of the
terms on the way is refused; then more steps make no difference. What every step keeps, every run
keeps.

## Main results

* `Term.steps_induct`, `Term.forall_mem_trace`: what every step keeps, every run keeps
* `Term.outcome_eq_finished_iff`: when a run comes to its end
* `Term.exists_steps_of_outcome`, `Term.outcome_of_steps`: the end of a run and steps to a normal
  form
* `Term.outcome_eq_finished_mono`: more steps make no difference
-/

namespace TypedLambda

namespace Term

/-- What holds of a term and is kept by every step holds of all terms that a run reaches. -/
theorem steps_induct {P : Term → Prop} (keeps : ∀ t t', t.step = some t' → P t → P t')
    {n : Nat} {t t' : Term} (h : steps n t = some t') (ht : P t) : P t' := by
  induction n generalizing t with
  | zero => exact Option.some.inj h ▸ ht
  | succ n ih =>
    obtain ⟨u, hu, hn⟩ := Option.bind_eq_some_iff.mp h
    exact ih hn (keeps t u hu ht)

/-- What holds of a term and is kept by every step holds of all terms that a run meets. -/
theorem forall_mem_trace {P : Term → Prop} (keeps : ∀ t t', t.step = some t' → P t → P t')
    {refuses : Term → Bool} {n : Nat} {t : Term} (ht : P t) :
    ∀ t' ∈ trace refuses n t, P t' := by
  induction n generalizing t with
  | zero => exact List.forall_mem_nil _
  | succ n ih =>
    rw [trace]
    split
    · exact List.forall_mem_nil _
    split
    · exact List.forall_mem_nil _
    · rename_i u hu
      have hPu := keeps t u hu ht
      exact List.forall_mem_cons.mpr ⟨hPu, ih hPu⟩

/-- A run comes to its end at a normal form that is not refused, or after a step. -/
theorem outcome_eq_finished_iff {refuses : Term → Bool} {n : Nat} {t v : Term} :
    outcome refuses n t = .finished v ↔ refuses t = false ∧ ((t.IsNormal ∧ t = v) ∨
      ∃ m u, n = m + 1 ∧ t.step = some u ∧ outcome refuses m u = .finished v) := by
  rw [outcome, IsNormal]
  cases refuses t with
  | true => simp
  | false =>
    cases t.step with
    | none => simp
    | some u => cases n <;> simp

/-- A run that comes to its end has taken steps to a normal form. -/
theorem exists_steps_of_outcome {refuses : Term → Bool} {n : Nat} {t v : Term}
    (h : outcome refuses n t = .finished v) : ∃ m, steps m t = some v ∧ v.IsNormal := by
  induction n generalizing t with
  | zero =>
    obtain ⟨-, ⟨ht, rfl⟩ | ⟨m, u, hm, -⟩⟩ := outcome_eq_finished_iff.mp h
    · exact ⟨0, rfl, ht⟩
    · cases hm
  | succ n ih =>
    obtain ⟨-, ⟨ht, rfl⟩ | ⟨m, u, hm, hu, hrest⟩⟩ := outcome_eq_finished_iff.mp h
    · exact ⟨0, rfl, ht⟩
    · obtain rfl := Nat.succ.inj hm
      obtain ⟨k, hk, hv⟩ := ih hrest
      exact ⟨k + 1, by rw [steps, hu, Option.bind_some, hk], hv⟩

/-- Conversely, steps to a normal form are a run that comes to its end. -/
theorem outcome_of_steps {n : Nat} {t v : Term} (h : steps n t = some v) (hv : v.IsNormal) :
    outcome (fun _ => false) n t = .finished v := by
  induction n generalizing t with
  | zero =>
    obtain rfl := Option.some.inj h
    exact outcome_eq_finished_iff.mpr ⟨rfl, .inl ⟨hv, rfl⟩⟩
  | succ n ih =>
    obtain ⟨u, hu, hn⟩ := Option.bind_eq_some_iff.mp h
    exact outcome_eq_finished_iff.mpr ⟨rfl, .inr ⟨n, u, rfl, hu, ih hn⟩⟩

/-- A run that comes to its end does so with more steps, too. -/
theorem outcome_eq_finished_mono {refuses : Term → Bool} {n m : Nat} {t v : Term}
    (h : outcome refuses n t = .finished v) (hnm : n ≤ m) : outcome refuses m t = .finished v := by
  induction n generalizing m t with
  | zero =>
    obtain ⟨hr, ht | ⟨k, u, hk, -⟩⟩ := outcome_eq_finished_iff.mp h
    · exact outcome_eq_finished_iff.mpr ⟨hr, .inl ht⟩
    · cases hk
  | succ n ih =>
    obtain ⟨hr, ht | ⟨k, u, hk, hu, hrest⟩⟩ := outcome_eq_finished_iff.mp h
    · exact outcome_eq_finished_iff.mpr ⟨hr, .inl ht⟩
    · obtain rfl := Nat.succ.inj hk
      obtain ⟨m, rfl⟩ := Nat.exists_eq_add_of_lt hnm
      exact outcome_eq_finished_iff.mpr ⟨hr, .inr ⟨_, u, rfl, hu, ih hrest (by omega)⟩⟩

/-- A run that refuses no term is not refused. -/
theorem outcome_ne_refused {n : Nat} {t : Term} : outcome (fun _ => false) n t ≠ .refused := by
  induction n generalizing t with
  | zero =>
    rw [outcome, if_neg Bool.false_ne_true]
    cases t.step <;> simp
  | succ n ih =>
    rw [outcome, if_neg Bool.false_ne_true]
    cases t.step with
    | none => simp
    | some u => exact ih

end Term

end TypedLambda
