import TypedLambda.Proofs.Command.Soundness

/-!
# What a command sees of its context

A command looks up the variables that are free in its term and the names of types in its types. The
annotations of a term are resolved before its type is inferred, and inference resolves what it
finds, so the names in the types for which these stand are looked up as well; where the context
stores types without names there are none. All else in a context, older entries for the same names
among it, makes no difference: in two contexts with the same entries for what it looks up, a command
does the same.

## Main definitions

* `Command.freeVars`, `Command.typeNames`, `Command.lookups`: what a command looks up
* `Change`: what a command adds to its context
* `Command.SameIn`: a command does the same in two contexts
* `Command.Spares`: a command binds none of the given names

## Main results

* `Command.effect_congr`, `Command.trace_congr`: a command depends on what it looks up
* `Command.sameIn_of_lookups`: in contexts that agree on this it does the same
* `Command.isolation`: so it does after commands that bind other names
-/

namespace TypedLambda

/-! ## What is looked up -/

namespace Command

/-- The variables that are free in the term of the command. -/
def freeVars : Command → List String
  | evaluate t | define _ t => t.freeVars
  | showType _ | abbreviate _ _ => []

/-- The names of types that occur in the command. -/
def typeNames : Command → List String
  | evaluate t | define _ t => t.typeNames
  | showType T | abbreviate _ T => T.names

/-- The names of types that are looked up when the command is run: those that occur in it and, if it
has a term, those in the types for which these stand. -/
def lookups (ctx : Context) : Command → List String
  | evaluate t | define _ t => t.typeNames ++ ctx.namesBehind t.typeNames
  | showType T | abbreviate _ T => T.names

end Command

/-! ## What is done -/

/-- What a command adds to the context in which it is run. -/
inductive Change where
  /-- No entry. -/
  | nothing
  /-- A variable with its type and value. -/
  | term (x : String) (T : Ty) (v : Term)
  /-- A name for a type. -/
  | type (name : String) (T : Ty)

/-- The context with what is added. -/
def Change.apply (ctx : Context) : Change → Context
  | nothing => ctx
  | term x T v => ctx.define x T v
  | type name T => ctx.abbreviate name T

/-- Two runs, in two contexts, end in the same way: with the same fault, or with the same line and
the same addition to both contexts. -/
inductive SameEnd (ctx ctx' : Context) : Except Fault Answer → Except Fault Answer → Prop
  | fault (e : Fault) : SameEnd ctx ctx' (.error e) (.error e)
  | answer (line : String) (change : Change) :
      SameEnd ctx ctx' (.ok ⟨line, change.apply ctx⟩) (.ok ⟨line, change.apply ctx'⟩)

theorem SameEnd.line_eq {ctx ctx' : Context} {r r' : Except Fault Answer}
    (h : SameEnd ctx ctx' r r') : r.map Answer.line = r'.map Answer.line := by
  cases h <;> rfl

namespace Command

/-- The command does the same in two contexts. -/
structure SameIn (cmd : Command) (ctx ctx' : Context) : Prop where
  /-- Within all bounds it ends in the same way. -/
  run : ∀ b, SameEnd ctx ctx' (cmd.run b ctx) (cmd.run b ctx')
  /-- Within all bounds it meets the same terms. -/
  trace : ∀ b, cmd.trace b ctx = cmd.trace b ctx'
  /-- When only the number of steps is bounded, it gives the same line and the same addition in both
  contexts as soon as there are enough steps, or has the same typing error in both, or ends in
  neither. -/
  ends :
    (∃ n line, ∃ change : Change, ∀ m, n ≤ m →
      cmd.run ⟨m, none⟩ ctx = .ok ⟨line, change.apply ctx⟩ ∧
        cmd.run ⟨m, none⟩ ctx' = .ok ⟨line, change.apply ctx'⟩) ∨
      (∃ e, ∀ m, cmd.run ⟨m, none⟩ ctx = .error (.typing e) ∧
        cmd.run ⟨m, none⟩ ctx' = .error (.typing e)) ∨
      ∀ m, cmd.run ⟨m, none⟩ ctx = .error .stopped ∧ cmd.run ⟨m, none⟩ ctx' = .error .stopped

/-- The line and the addition to the context that a command gives, or its fault. -/
def effect (b : Bounds) (ctx : Context) : Command → Except Fault (String × Change)
  | define x t =>
    (ctx.evaluate b t).map fun r =>
      ("val " ++ x ++ " : " ++ r.1.render ++ " = " ++ r.2.render, .term x r.1 r.2)
  | abbreviate name T =>
    (ctx.resolve b T).map fun A => ("type " ++ name ++ " = " ++ A.render, .type name A)
  | evaluate t =>
    (ctx.evaluate b t).map fun r => ("- : " ++ r.1.render ++ " = " ++ r.2.render, .nothing)
  | showType T => (ctx.resolve b T).map fun A => ("- : type = " ++ A.render, .nothing)

/-- A command shows the line of its effect and adds to the context what its effect says. -/
theorem run_eq_map_effect (b : Bounds) (ctx : Context) (cmd : Command) :
    cmd.run b ctx = (cmd.effect b ctx).map fun r => ⟨r.1, r.2.apply ctx⟩ := by
  cases cmd with
  | define x t | evaluate t =>
    rw [run, effect]
    cases ctx.evaluate b t <;> rfl
  | abbreviate name T | showType T =>
    rw [run, effect]
    cases ctx.resolve b T <;> rfl

end Command

/-! ## Contexts that agree -/

namespace Context

section Agreement

variable {ctx ctx' : Context} {t : Term}
  (hvars : ∀ x ∈ t.freeVars, ctx.terms.get? x = ctx'.terms.get? x)
  (hnames : ∀ name ∈ t.typeNames ++ ctx.namesBehind t.typeNames,
    ctx.abbreviated? name = ctx'.abbreviated? name)
include hvars hnames

/-- The type of a term and its closed form depend on what is looked up. -/
theorem prepare_congr (b : Bounds) : ctx.prepare b t = ctx'.prepare b t := by
  have hresolve : t.resolveTypes ctx = t.resolveTypes ctx' :=
    Term.resolveTypes_congr fun name hn => hnames name (List.mem_append_left _ hn)
  rw [prepare, prepare, ← hresolve]
  cases hu : t.resolveTypes ctx with
  | error e => rfl
  | ok u =>
    obtain ⟨hfree, hbehind⟩ := Term.names_of_resolveTypes hu
    have htype : u.typeOf ctx = u.typeOf ctx' := by
      refine Term.typeOf_congr (fun x hx => ?_) fun name hn => ?_
      · rw [typeOf?, typeOf?, hvars x (hfree ▸ hx)]
      · exact hnames name (List.mem_append_right _ (hbehind ▸ hn))
    have hclose : ctx.close u = ctx'.close u :=
      close_congr fun x hx => by rw [valueOf?, valueOf?, hvars x (hfree ▸ hx)]
    simp only [htype, hclose]

/-- The type of a term and its normal form depend on what is looked up. -/
theorem evaluate_congr (b : Bounds) : ctx.evaluate b t = ctx'.evaluate b t := by
  rw [evaluate, evaluate, prepare_congr hvars hnames]

end Agreement

theorem resolve_congr {ctx ctx' : Context} {T : Ty}
    (h : ∀ name ∈ T.names, ctx.abbreviated? name = ctx'.abbreviated? name) (b : Bounds) :
    ctx.resolve b T = ctx'.resolve b T := by
  rw [resolve, resolve, Ty.resolve_congr h]

end Context

namespace Command

section Agreement

variable {cmd : Command} {ctx ctx' : Context}
  (hvars : ∀ x ∈ cmd.freeVars, ctx.terms.get? x = ctx'.terms.get? x)
  (hnames : ∀ name ∈ cmd.lookups ctx, ctx.abbreviated? name = ctx'.abbreviated? name)
include hvars hnames

/-- The effect of a command depends on what it looks up. -/
theorem effect_congr (b : Bounds) : cmd.effect b ctx = cmd.effect b ctx' := by
  cases cmd with
  | define x t | evaluate t => rw [effect, effect, Context.evaluate_congr hvars hnames]
  | abbreviate name T | showType T => rw [effect, effect, Context.resolve_congr hnames]

/-- The terms that a command meets depend on what it looks up. -/
theorem trace_congr (b : Bounds) : cmd.trace b ctx = cmd.trace b ctx' := by
  cases cmd with
  | define x t | evaluate t => rw [trace, trace, Context.prepare_congr hvars hnames]
  | abbreviate name T | showType T => rfl

end Agreement

end Command

/-! ## Unbounded runs -/

namespace Context

/-- Without a bound on the depth, preparing a term fails by a typing error only. -/
theorem prepare_cases (ctx : Context) (t : Term) :
    (∃ e, ∀ m, ctx.prepare ⟨m, none⟩ t = .error (.typing e)) ∨
      ∃ T u, ∀ m, ctx.prepare ⟨m, none⟩ t = .ok (T, u) := by
  cases hu : t.resolveTypes ctx with
  | error e => exact .inl ⟨e, fun m => by simp [prepare, Bounds.refuses, Bounds.exceededBy, hu]⟩
  | ok u =>
    cases hT : u.typeOf ctx with
    | error e =>
      exact .inl ⟨e, fun m => by simp [prepare, Bounds.refuses, Bounds.exceededBy, hu, hT]⟩
    | ok T =>
      exact .inr ⟨T, ctx.close u, fun m => prepare_eq_ok_iff.mpr ⟨rfl, u, hu, hT, rfl⟩⟩

/-- Without a bound on the depth, a term has a type and comes to its end as soon as there are enough
steps, or has a typing error, or does not come to its end. -/
theorem evaluate_cases (ctx : Context) (t : Term) :
    (∃ n T v, ∀ m, n ≤ m → ctx.evaluate ⟨m, none⟩ t = .ok (T, v)) ∨
      (∃ e, ∀ m, ctx.evaluate ⟨m, none⟩ t = .error (.typing e)) ∨
      ∀ m, ctx.evaluate ⟨m, none⟩ t = .error .stopped := by
  rcases prepare_cases ctx t with ⟨e, he⟩ | ⟨T, u, hu⟩
  · exact .inr (.inl ⟨e, fun m => by rw [evaluate, he m]⟩)
  by_cases hend : ∃ n v, u.outcome (fun _ => false) n = .finished v
  · obtain ⟨n, v, hv⟩ := hend
    refine .inl ⟨n, T, v, fun m hm => evaluate_eq_ok_iff.mpr ⟨u, hu m, ?_⟩⟩
    exact Term.outcome_eq_finished_mono hv hm
  · refine .inr (.inr fun m => ?_)
    have hout : u.outcome (Bounds.refuses ⟨m, none⟩) m = .stopped := by
      show u.outcome (fun _ => false) m = .stopped
      cases hout : u.outcome (fun _ => false) m with
      | finished v => exact absurd ⟨m, v, hout⟩ hend
      | stopped => rfl
      | refused => exact absurd hout Term.outcome_ne_refused
    simp only [evaluate, hu m, hout]

end Context

namespace Command

/-- Without a bound on the depth, a command has an effect as soon as there are enough steps, or a
typing error, or does not end. -/
theorem effect_cases (ctx : Context) (cmd : Command) :
    (∃ n line change, ∀ m, n ≤ m → cmd.effect ⟨m, none⟩ ctx = .ok (line, change)) ∨
      (∃ e, ∀ m, cmd.effect ⟨m, none⟩ ctx = .error (.typing e)) ∨
      ∀ m, cmd.effect ⟨m, none⟩ ctx = .error .stopped := by
  cases cmd with
  | define x t | evaluate t =>
    rcases ctx.evaluate_cases t with ⟨n, T, v, h⟩ | ⟨e, h⟩ | h
    · exact .inl ⟨n, _, _, fun m hm => by rw [effect, h m hm]; rfl⟩
    · exact .inr (.inl ⟨e, fun m => by rw [effect, h m]; rfl⟩)
    · exact .inr (.inr fun m => by rw [effect, h m]; rfl)
  | abbreviate name T | showType T =>
    cases hA : T.resolve ctx with
    | error e =>
      have h (m : Nat) : ctx.resolve ⟨m, none⟩ T = .error (.typing e) := by
        simp [Context.resolve, Bounds.exceededBy, hA]
      exact .inr (.inl ⟨e, fun m => by rw [effect, h m]; rfl⟩)
    | ok A =>
      have h (m : Nat) : ctx.resolve ⟨m, none⟩ T = .ok A := by
        simp [Context.resolve, Bounds.exceededBy, hA]
      exact .inl ⟨0, _, _, fun m _ => by rw [effect, h m]; rfl⟩

/-- In contexts that agree on what it looks up, a command does the same. -/
theorem sameIn_of_lookups {cmd : Command} {ctx ctx' : Context}
    (hvars : ∀ x ∈ cmd.freeVars, ctx.terms.get? x = ctx'.terms.get? x)
    (hnames : ∀ name ∈ cmd.lookups ctx, ctx.abbreviated? name = ctx'.abbreviated? name) :
    cmd.SameIn ctx ctx' where
  run := by
    intro b
    rw [run_eq_map_effect b ctx, run_eq_map_effect b ctx', ← effect_congr hvars hnames]
    cases cmd.effect b ctx with
    | error e => exact .fault e
    | ok r => exact .answer r.1 r.2
  trace := trace_congr hvars hnames
  ends := by
    simp only [run_eq_map_effect _ ctx, run_eq_map_effect _ ctx', ← effect_congr hvars hnames]
    rcases effect_cases ctx cmd with ⟨n, line, change, h⟩ | ⟨e, h⟩ | h
    · exact .inl ⟨n, line, change, fun m hm => by rw [h m hm]; exact ⟨rfl, rfl⟩⟩
    · exact .inr (.inl ⟨e, fun m => by rw [h m]; exact ⟨rfl, rfl⟩⟩)
    · exact .inr (.inr fun m => by rw [h m]; exact ⟨rfl, rfl⟩)

end Command

/-! ## Commands in between -/

namespace Command

/-- The command binds none of the given variables and none of the given names of types. -/
def Spares (vars names : List String) : Command → Prop
  | define x _ => x ∉ vars
  | abbreviate name _ => name ∉ names
  | evaluate _ | showType _ => True

end Command

namespace Context

/-- The context after several commands, each with bounds of its own. -/
def after (ctx : Context) (cmds : List (Bounds × Command)) : Context :=
  cmds.foldl (fun ctx cmd => cmd.2.next ctx cmd.1) ctx

variable {ctx : Context} {vars names : List String}

/-- A command leaves the entries for the names that it does not bind. -/
theorem next_of_spares {cmd : Command} (h : cmd.Spares vars names) (b : Bounds) :
    (∀ x ∈ vars, (cmd.next ctx b).terms.get? x = ctx.terms.get? x) ∧
      ∀ name ∈ names, (cmd.next ctx b).abbreviated? name = ctx.abbreviated? name := by
  rw [Command.next, Command.run_eq_map_effect]
  cases cmd with
  | define x t =>
    rw [Command.effect]
    cases ctx.evaluate b t with
    | error e => exact ⟨fun _ _ => rfl, fun _ _ => rfl⟩
    | ok r =>
      refine ⟨fun y hy => ?_, fun _ _ => rfl⟩
      exact Scope.get?_extend_of_ne _ (ne_of_mem_of_not_mem hy h) _
  | abbreviate name T =>
    rw [Command.effect]
    cases ctx.resolve b T with
    | error e => exact ⟨fun _ _ => rfl, fun _ _ => rfl⟩
    | ok A =>
      refine ⟨fun _ _ => rfl, fun other hn => ?_⟩
      exact Scope.get?_extend_of_ne _ (ne_of_mem_of_not_mem hn h) _
  | evaluate t =>
    rw [Command.effect]
    cases ctx.evaluate b t <;> exact ⟨fun _ _ => rfl, fun _ _ => rfl⟩
  | showType T =>
    rw [Command.effect]
    cases ctx.resolve b T <;> exact ⟨fun _ _ => rfl, fun _ _ => rfl⟩

/-- So do several commands. -/
theorem after_of_spares {cmds : List (Bounds × Command)}
    (h : ∀ cmd ∈ cmds, cmd.2.Spares vars names) :
    (∀ x ∈ vars, (ctx.after cmds).terms.get? x = ctx.terms.get? x) ∧
      ∀ name ∈ names, (ctx.after cmds).abbreviated? name = ctx.abbreviated? name := by
  induction cmds generalizing ctx with
  | nil => exact ⟨fun _ _ => rfl, fun _ _ => rfl⟩
  | cons cmd cmds ih =>
    obtain ⟨hcmd, hcmds⟩ := List.forall_mem_cons.mp h
    obtain ⟨hvars, hnames⟩ : (∀ x ∈ vars, (cmd.2.next ctx cmd.1).terms.get? x = _) ∧ _ :=
      next_of_spares hcmd cmd.1
    obtain ⟨hvars', hnames'⟩ := @ih (cmd.2.next ctx cmd.1) hcmds
    exact ⟨fun x hx => (hvars' x hx).trans (hvars x hx),
      fun name hn => (hnames' name hn).trans (hnames name hn)⟩

/-- In a well-formed context, no names are looked up but those that occur in the command. -/
theorem WellFormed.lookups_eq (h : ctx.WellFormed) (cmd : Command) :
    cmd.lookups ctx = cmd.typeNames := by
  have hnil (names : List String) : ctx.namesBehind names = [] :=
    namesBehind_eq_nil (fun _ _ => h.isPlain_of_abbreviated?) names
  cases cmd with
  | define x t | evaluate t => rw [Command.lookups, hnil, List.append_nil, Command.typeNames]
  | abbreviate name T | showType T => rfl

end Context

namespace Command

/-- **Isolation**: in two contexts that have the same entries for what it looks up, a command does
the same; so it does after commands that bind none of these names. In the contexts of a session, a
command looks up the names of types that occur in it, and no others. -/
theorem isolation :
    (∀ (cmd : Command) (ctx ctx' : Context),
      (∀ x ∈ cmd.freeVars, ctx.terms.get? x = ctx'.terms.get? x) →
      (∀ name ∈ cmd.lookups ctx, ctx.abbreviated? name = ctx'.abbreviated? name) →
      cmd.SameIn ctx ctx') ∧
    (∀ (cmd : Command) (ctx : Context) (between : List (Bounds × Command)),
      (∀ other ∈ between, other.2.Spares cmd.freeVars (cmd.lookups ctx)) →
      cmd.SameIn ctx (ctx.after between)) ∧
    ∀ ctx : Context, ctx.Reachable → ∀ cmd : Command, cmd.lookups ctx = cmd.typeNames := by
  refine ⟨fun cmd ctx ctx' => sameIn_of_lookups, fun cmd ctx between h => ?_,
    fun ctx h => h.wellFormed.lookups_eq⟩
  obtain ⟨hvars, hnames⟩ : (∀ x ∈ cmd.freeVars, (ctx.after between).terms.get? x = _) ∧ _ :=
    Context.after_of_spares h
  exact sameIn_of_lookups (fun x hx => (hvars x hx).symm) fun name hn => (hnames name hn).symm

/-- Behind a binder of type `T`, a function that was defined with `y` is applied in the same way
when `y` has been bound to a truth value and another name abbreviates a type. -/
theorem isolation_of_rebinding :
    ∃ ctx : Context, ctx.Reachable ∧ ctx.types.entries = [("T", .nat)] ∧
      (evaluate (.lam "z" (.named "T") (.app (.var "f") (.var "z")))).SameIn ctx
        (ctx.after [(⟨0, none⟩, define "y" (.bool true)), (⟨0, none⟩, abbreviate "S" .bool)]) := by
  let b : Bounds := ⟨0, none⟩
  let first := Command.next {} b (abbreviate "T" .nat)
  let second := Command.next first b (define "y" (.succ .zero))
  let ctx := Command.next second b (define "f" (.lam "x" (.named "T") (.var "y")))
  have hreach : ctx.Reachable := ((Context.Reachable.empty.next b _).next b _).next b _
  refine ⟨ctx, hreach, by decide, isolation.2.1 _ ctx _ ?_⟩
  rw [isolation.2.2 ctx hreach]
  exact List.forall_mem_cons.mpr ⟨show "y" ∉ ["f"] by decide,
    List.forall_mem_singleton.mpr (show "S" ∉ ["T"] by decide)⟩

/-- What occurs in a command is not all that it looks up. Here `A` stands for another name, `B`, and
the command mentions `A` only; a command in between that rebinds `B` leaves what `A` stands for, but
changes the types that are shown. -/
theorem not_sameIn_of_names_behind :
    let cmd := evaluate (.lam "x" (.named "A") (.var "x"))
    let ctx := (({} : Context).abbreviate "B" .nat).abbreviate "A" (.named "B")
    let ctx' := ctx.after [(⟨0, none⟩, abbreviate "B" .bool)]
    (∀ x ∈ cmd.freeVars, ctx.terms.get? x = ctx'.terms.get? x) ∧
      (∀ name ∈ cmd.typeNames, ctx.abbreviated? name = ctx'.abbreviated? name) ∧
      (abbreviate "B" .bool).Spares cmd.freeVars cmd.typeNames ∧
      (cmd.run ⟨0, none⟩ ctx).map Answer.line = .ok "- : Nat -> Nat = lambda x:B. x" ∧
      (cmd.run ⟨0, none⟩ ctx').map Answer.line = .ok "- : Bool -> Bool = lambda x:B. x" ∧
      ¬cmd.SameIn ctx ctx' := by
  intro cmd ctx ctx'
  have hline : (cmd.run ⟨0, none⟩ ctx).map Answer.line = .ok "- : Nat -> Nat = lambda x:B. x" := by
    decide +kernel
  have hline' : (cmd.run ⟨0, none⟩ ctx').map Answer.line =
      .ok "- : Bool -> Bool = lambda x:B. x" := by
    decide +kernel
  refine ⟨by decide, by decide, show "B" ∉ ["A"] by decide, hline, hline', fun h => ?_⟩
  have hsame := (h.run ⟨0, none⟩).line_eq
  rw [hline, hline'] at hsame
  exact absurd hsame (by decide)

end Command

end TypedLambda
