import TypedLambda.Proofs.Command.Soundness
import TypedLambda.Proofs.Reduction.Replacement
import TypedLambda.Proofs.Substitution.Naive

/-!
# Commands with naive substitution

Commands put terms for variables in two places: where the values of its variables are put into a
term, and in the steps of its reduction. In the contexts of a session all these terms are closed, so
no binder is ever renamed, and commands give what they would give with naive substitution.

## Main definitions

* `Context.closeBy`, `Context.evaluateBy`, `Command.runBy`, `Command.traceBy`: commands with another
  function in the place of substitution

## Main results

* `Context.WellFormed.runBy_eq_run`, `Context.WellFormed.traceBy_eq_trace`: commands with a function
  that substitutes closed terms faithfully
* `Context.Reachable.naive_substitution`: the terms that are put for variables in a session are
  closed, and naive substitution makes no difference
-/

namespace TypedLambda

namespace Context

/-! ## Running a term -/

/-- The term with the values of its free variables put in by `sub`, as far as they have one. -/
def closeBy (sub : Substitution) (ctx : Context) (t : Term) : Term :=
  t.freeVars.eraseDups.foldl
    (fun t x =>
      match ctx.valueOf? x with
      | some v => sub t x v
      | none => t) t

/-- The type of a term, and the term with which its reduction starts, with `sub` in the place of
substitution. -/
def prepareBy (sub : Substitution) (b : Bounds) (ctx : Context) (t : Term) :
    Except Fault (Ty × Term) :=
  if b.refuses t then .error .tooDeep
  else
    match t.resolveTypes ctx with
    | .error e => .error (.typing e)
    | .ok u =>
      match u.typeOf ctx with
      | .error e => .error (.typing e)
      | .ok T => .ok (T, ctx.closeBy sub u)

/-- The type of a term and its normal form, with `sub` in the place of substitution. -/
def evaluateBy (sub : Substitution) (b : Bounds) (ctx : Context) (t : Term) :
    Except Fault (Ty × Term) :=
  match ctx.prepareBy sub b t with
  | .error e => .error e
  | .ok (T, u) =>
    match u.outcomeBy sub b.refuses b.steps with
    | .finished v => .ok (T, v)
    | .stopped => .error .stopped
    | .refused => .error .tooDeep

end Context

namespace Command

/-- Carries out a command with `sub` in the place of substitution. -/
def runBy (sub : Substitution) (b : Bounds) (ctx : Context) : Command → Except Fault Answer
  | define x t =>
    match ctx.evaluateBy sub b t with
    | .error e => .error e
    | .ok (T, v) =>
      .ok ⟨"val " ++ x ++ " : " ++ T.render ++ " = " ++ v.render, ctx.define x T v⟩
  | evaluate t =>
    match ctx.evaluateBy sub b t with
    | .error e => .error e
    | .ok (T, v) => .ok ⟨"- : " ++ T.render ++ " = " ++ v.render, ctx⟩
  | cmd => cmd.run b ctx

/-- The terms met while a command is carried out with `sub` in the place of substitution. -/
def traceBy (sub : Substitution) (b : Bounds) (ctx : Context) : Command → List Term
  | define _ t | evaluate t =>
    match ctx.prepareBy sub b t with
    | .error _ => []
    | .ok (_, u) => u.traceBy sub b.refuses b.steps
  | abbreviate _ _ | showType _ => []

end Command

namespace Context

variable {ctx : Context} {sub : Substitution}

/-- The values that are put for variables are closed. -/
theorem WellFormed.isClosed_of_valueOf? (h : ctx.WellFormed) {x : String} {v : Term}
    (hx : ctx.valueOf? x = some v) : v.IsClosed := by
  obtain ⟨A, -, hv⟩ := h.exists_typeOf? hx
  exact hv.closed

/-! ## Functions that substitute closed terms faithfully -/

section Faithful

variable (h : ctx.WellFormed) (hsub : sub.IsFaithful)
include h hsub

theorem WellFormed.closeBy_eq_close (t : Term) : ctx.closeBy sub t = ctx.close t := by
  rw [closeBy, close]
  congr 1
  funext t x
  cases hx : ctx.valueOf? x with
  | none => rfl
  | some v => exact hsub t x v (h.isClosed_of_valueOf? hx)

theorem WellFormed.prepareBy_eq_prepare (b : Bounds) (t : Term) :
    ctx.prepareBy sub b t = ctx.prepare b t := by
  simp only [prepareBy, h.closeBy_eq_close hsub]
  rfl

/-- The run of a term starts with a closed term, so it goes the same way. -/
theorem WellFormed.evaluateBy_eq_evaluate (b : Bounds) (t : Term) :
    ctx.evaluateBy sub b t = ctx.evaluate b t := by
  rw [evaluateBy, Context.evaluate, h.prepareBy_eq_prepare hsub]
  cases hp : ctx.prepare b t with
  | error e => rfl
  | ok p =>
    obtain ⟨T, u⟩ := p
    obtain ⟨-, hu, -⟩ := h.prepare hp
    cases hout : u.outcome b.refuses b.steps <;>
      simp only [Term.outcomeBy_eq_outcome hsub b.refuses b.steps hu, hout]

/-- A command gives the same line and the same context, or the same fault. -/
theorem WellFormed.runBy_eq_run (b : Bounds) (cmd : Command) :
    cmd.runBy sub b ctx = cmd.run b ctx := by
  cases cmd with
  | define x t | evaluate t =>
    rw [Command.runBy, Command.run]
    cases hv : ctx.evaluate b t <;> simp only [h.evaluateBy_eq_evaluate hsub, hv]
  | showType | abbreviate => rfl

/-- A command meets the same terms on its way. -/
theorem WellFormed.traceBy_eq_trace (b : Bounds) (cmd : Command) :
    cmd.traceBy sub b ctx = cmd.trace b ctx := by
  cases cmd with
  | define x t | evaluate t =>
    rw [Command.traceBy, Command.trace, h.prepareBy_eq_prepare hsub]
    cases hp : ctx.prepare b t with
    | error e => rfl
    | ok p =>
      obtain ⟨T, u⟩ := p
      obtain ⟨-, hu, -⟩ := h.prepare hp
      exact Term.traceBy_eq_trace hsub b.refuses b.steps hu
  | showType | abbreviate => rfl

end Faithful

/-! ## Naive substitution -/

/-- Naive substitution does what substitution does with closed terms. -/
theorem isFaithful_replace : Substitution.IsFaithful Term.replace :=
  fun t x _ hs => (Term.subst_eq_replace hs t x).symm

/-- **Nothing is renamed in a session**: the values that are put for variables are closed, and so is
what any step on the run of a term with a type puts for a variable; with closed terms substitution
is naive. So naive substitution closes terms in the same way, and all commands give with it the same
lines, the same contexts and the same faults, and meet the same terms. -/
theorem Reachable.naive_substitution (h : ctx.Reachable) :
    (∀ x v, ctx.valueOf? x = some v → v.IsClosed) ∧
      (∀ b t T u, ctx.prepare b t = .ok (T, u) → ∀ n t', Term.steps n u = some t' →
        ∀ body x s, Term.Replaces body x s t' → s.IsClosed) ∧
      (∀ s t : Term, s.IsClosed → ∀ x, t.subst x s = t.replace x s) ∧
      (∀ t, ctx.closeBy Term.replace t = ctx.close t) ∧
      ∀ b (cmd : Command), cmd.runBy Term.replace b ctx = cmd.run b ctx ∧
        cmd.traceBy Term.replace b ctx = cmd.trace b ctx := by
  have hctx := h.wellFormed
  refine ⟨fun x v hx => hctx.isClosed_of_valueOf? hx, ?_, fun s t hs => Term.subst_eq_replace hs t,
    hctx.closeBy_eq_close isFaithful_replace, fun b cmd =>
      ⟨hctx.runBy_eq_run isFaithful_replace b cmd, hctx.traceBy_eq_trace isFaithful_replace b cmd⟩⟩
  -- the run starts with a closed term and goes through closed terms only
  intro b t T u hu n t' ht' body x s hs
  obtain ⟨-, hclosed, -⟩ := hctx.prepare hu
  exact Term.isClosed_of_replaces hs (Term.isClosed_of_steps ht' hclosed)

/-- After the definition of the function that gives the first of two numbers, applying it to `y`
behind a binder of `y` is the same with naive substitution, though `y` is bound in it, too. -/
theorem Reachable.naive_substitution_first :
    ∃ ctx : Context, ctx.Reachable ∧
      ctx.valueOf? "first" = some (.lam "x" .nat (.lam "y" .nat (.var "x"))) ∧
      (Command.evaluate (.lam "y" .nat (.app (.var "first") (.var "y")))).runBy Term.replace
          ⟨5, none⟩ ctx =
        (Command.evaluate (.lam "y" .nat (.app (.var "first") (.var "y")))).run ⟨5, none⟩ ctx := by
  have hreach : Reachable (Command.next {} ⟨0, none⟩
      (.define "first" (.lam "x" .nat (.lam "y" .nat (.var "x"))))) :=
    Reachable.empty.next ⟨0, none⟩ _
  obtain ⟨-, -, -, -, hrun⟩ := hreach.naive_substitution
  exact ⟨_, hreach, by decide, (hrun ⟨5, none⟩ _).1⟩

end Context

end TypedLambda
