import TypedLambda.Reduction.Step

/-!
# Runs

Repeated steps, as many as are allowed. A run ends at a normal form, or when its steps are used up
while another one is possible, or when the term at hand may not be worked on any more: `refuses`
tells which terms are refused. Without a refusal a run is plain iteration of `Term.step`.

## Main definitions

* `Outcome`: how a run ends
* `Term.outcome`: the end of a run
* `Term.trace`: the terms met by a run, without the first
* `Term.steps`: the term after a given number of steps
-/

namespace TypedLambda

/-- How a run ends. -/
inductive Outcome where
  /-- At a term on which no rule applies. -/
  | finished (t : Term)
  /-- Before a step for which none was left. -/
  | stopped
  /-- At a term that is refused. -/
  | refused
deriving Repr, DecidableEq

namespace Term

/-- The end of a run of at most `n` steps that refuses the terms in `refuses`. -/
def outcome (refuses : Term → Bool) (n : Nat) (t : Term) : Outcome :=
  if refuses t then .refused
  else
    match t.step with
    | none => .finished t
    | some u =>
      match n with
      | 0 => .stopped
      | n + 1 => outcome refuses n u

/-- The terms met by a run of at most `n` steps that refuses the terms in `refuses`; the first term
is not among them. -/
def trace (refuses : Term → Bool) : (n : Nat) → Term → List Term
  | 0, _ => []
  | n + 1, t =>
    if refuses t then []
    else
      match t.step with
      | none => []
      | some u => u :: trace refuses n u

/-- The term after exactly `n` steps, if there are so many. -/
def steps : (n : Nat) → Term → Option Term
  | 0, t => some t
  | n + 1, t => t.step.bind (steps n)

end Term

end TypedLambda
