import TypedLambda.Proofs.Command.Isolation

/-!
# Wider bounds

A command that succeeds has not come up against its bounds, so it does the same when more is
allowed. This holds of the number of steps and of the height of terms and types alike.

## Main definitions

* `Bounds.Within`: bounds that allow no more than others do

## Main results

* `Term.outcome_eq_finished_of_refuses`: a run to its end when fewer terms are refused
* `Command.run_of_within`: a command that succeeds does so within wider bounds
-/

namespace TypedLambda

/-- A run that comes to its end does so when fewer terms are refused, too. -/
theorem Term.outcome_eq_finished_of_refuses {refuses refuses' : Term → Bool}
    (hle : ∀ t, refuses' t = true → refuses t = true) {n : Nat} {t v : Term}
    (h : outcome refuses n t = .finished v) : outcome refuses' n t = .finished v := by
  have allowed {t : Term} (h : refuses t = false) : refuses' t = false := by
    rw [← Bool.not_eq_true] at h ⊢
    exact fun h' => h (hle t h')
  induction n generalizing t with
  | zero =>
    obtain ⟨hr, ht | ⟨k, u, hk, -⟩⟩ := outcome_eq_finished_iff.mp h
    · exact outcome_eq_finished_iff.mpr ⟨allowed hr, .inl ht⟩
    · cases hk
  | succ n ih =>
    obtain ⟨hr, ht | ⟨k, u, hk, hu, hrest⟩⟩ := outcome_eq_finished_iff.mp h
    · exact outcome_eq_finished_iff.mpr ⟨allowed hr, .inl ht⟩
    · obtain rfl := Nat.succ.inj hk
      exact outcome_eq_finished_iff.mpr ⟨allowed hr, .inr ⟨n, u, rfl, hu, ih hrest⟩⟩

/-- What is allowed by the bounds `b`, is allowed by the bounds `b'`, too. -/
structure Bounds.Within (b b' : Bounds) : Prop where
  /-- There are at least as many steps. -/
  steps : b.steps ≤ b'.steps
  /-- A height that is refused is refused by `b`, too. -/
  depth : ∀ d, b'.exceededBy d = true → b.exceededBy d = true

section Within

variable {b b' : Bounds} (hb : b.Within b') {ctx : Context}
include hb

theorem Bounds.Within.exceededBy_eq_false {d : Nat} (h : b.exceededBy d = false) :
    b'.exceededBy d = false := by
  rw [← Bool.not_eq_true] at h ⊢
  exact fun h' => h (hb.depth d h')

theorem Context.evaluate_of_within {t : Term} {r : Ty × Term} (h : ctx.evaluate b t = .ok r) :
    ctx.evaluate b' t = .ok r := by
  obtain ⟨u, hu, hout⟩ := evaluate_eq_ok_iff.mp h
  obtain ⟨hdepth, hu⟩ := prepare_eq_ok_iff.mp hu
  refine evaluate_eq_ok_iff.mpr ⟨u, prepare_eq_ok_iff.mpr ⟨hb.exceededBy_eq_false hdepth, hu⟩, ?_⟩
  have hmore := Term.outcome_eq_finished_of_refuses (fun t => hb.depth t.depth) hout
  exact Term.outcome_eq_finished_mono hmore hb.steps

theorem Context.resolve_of_within {T A : Ty} (h : ctx.resolve b T = .ok A) :
    ctx.resolve b' T = .ok A := by
  rw [resolve] at h ⊢
  cases hdepth : b.exceededBy T.depth with
  | true => rw [hdepth] at h; cases h
  | false =>
    rw [hdepth] at h
    rwa [hb.exceededBy_eq_false hdepth]

/-- A command that succeeds does so within wider bounds, with the same answer. -/
theorem Command.run_of_within {cmd : Command} {answer : Answer} (h : cmd.run b ctx = .ok answer) :
    cmd.run b' ctx = .ok answer := by
  cases cmd with
  | define x t | evaluate t =>
    cases hr : ctx.evaluate b t with
    | error e => simp [run, hr] at h
    | ok r => rwa [run, ctx.evaluate_of_within hb hr, ← hr, ← run]
  | abbreviate name T | showType T =>
    cases hA : ctx.resolve b T with
    | error e => simp [run, hA] at h
    | ok A => rwa [run, ctx.resolve_of_within hb hA, ← hA, ← run]

end Within

end TypedLambda
