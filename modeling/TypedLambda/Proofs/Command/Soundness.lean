import TypedLambda.Proofs.Command.Closing
import TypedLambda.Proofs.Reduction.Preservation

/-!
# Soundness of sessions

A session starts with the empty context and runs one command after another; a command that fails
leaves the context as it was. What a session has stored can be used as it stands: the types mention
no names, and the values are closed normal forms whose types, taken in the empty context, are the
recorded ones. This is the invariant of sessions. Running a term keeps it, since the annotations are
resolved first, the closed term has the type of the term, and the type is kept along the run.

## Main definitions

* `Term.IsResult`: the normal forms that evaluation may give for a type
* `Context.WellFormed`: the invariant of sessions
* `Command.next`, `Context.Reachable`: the contexts of a session

## Main results

* `Context.WellFormed.evaluate`: what evaluation gives in a well-formed context
* `Context.Reachable.wellFormed`: all contexts of a session are well-formed
* `Context.Reachable.sound`: soundness of sessions
-/

namespace TypedLambda

namespace Term

/-! ## Results -/

/-- A closed normal form of the given type, without names of types. -/
structure IsResult (v : Term) (T : Ty) : Prop where
  /-- No variable occurs free in it. -/
  closed : v.IsClosed
  /-- No annotation in it has a name of a type. -/
  plain : v.IsPlain
  /-- No step is possible. -/
  normal : v.IsNormal
  /-- Where no variable and no type has a name, it has the given type. -/
  typeOf_empty : v.typeOf {} = .ok T

variable {v : Term} {T : Ty}

/-- A result has its type in every context. -/
theorem IsResult.typeOf_eq (h : v.IsResult T) (ctx : Context) : v.typeOf ctx = .ok T := by
  rw [typeOf_of_isClosed_of_isPlain h.closed h.plain ctx {}, h.typeOf_empty]

theorem IsResult.isPlain_ty (h : v.IsResult T) : T.IsPlain := by
  have hvars (x : String) (A : Ty) (hA : ({} : Context).typeOf? x = some A) : A.IsPlain :=
    nomatch hA
  have hnames (name : String) (A : Ty) (hA : ({} : Context).abbreviated? name = some A) :
      A.IsPlain := nomatch hA
  exact isPlain_of_typeOf hvars hnames h.typeOf_empty

end Term

namespace Context

/-! ## The invariant -/

/-- The context has only types without names, and only results of the recorded types. This is said
of all entries, also of those that newer ones hide. -/
structure WellFormed (ctx : Context) : Prop where
  /-- No type for which a name stands mentions a name. -/
  types : ∀ entry ∈ ctx.types.entries, entry.2.IsPlain
  /-- All variables have values, which are results of their types. -/
  terms : ∀ entry ∈ ctx.terms.entries, ∃ v, entry.2.value = some v ∧ v.IsResult entry.2.ty

variable {ctx : Context} {x : String} {t v : Term} {T : Ty}

theorem wellFormed_empty : WellFormed {} where
  types := fun _ h => absurd h List.not_mem_nil
  terms := fun _ h => absurd h List.not_mem_nil

theorem WellFormed.define (h : ctx.WellFormed) (x : String) (hv : v.IsResult T) :
    (ctx.define x T v).WellFormed where
  types := h.types
  terms := List.forall_mem_cons.mpr ⟨⟨v, rfl, hv⟩, h.terms⟩

theorem WellFormed.abbreviate (h : ctx.WellFormed) (name : String) (hT : T.IsPlain) :
    (ctx.abbreviate name T).WellFormed where
  types := List.forall_mem_cons.mpr ⟨hT, h.types⟩
  terms := h.terms

/-- What a name of a type stands for has no names. -/
theorem WellFormed.isPlain_of_abbreviated? (h : ctx.WellFormed) {name : String}
    (hT : ctx.abbreviated? name = some T) : T.IsPlain :=
  h.types _ (mem_of_lookup hT)

/-- A variable has a type exactly when it has a value, which is then a result of this type. -/
theorem WellFormed.isResult_of_get? (h : ctx.WellFormed) {entry : Binding}
    (hx : ctx.terms.get? x = some entry) :
    ∃ v, entry.value = some v ∧ v.IsResult entry.ty :=
  h.terms _ (mem_of_lookup hx)

theorem WellFormed.exists_valueOf? (h : ctx.WellFormed) (hx : ctx.typeOf? x = some T) :
    ∃ v, ctx.valueOf? x = some v ∧ v.IsResult T := by
  obtain ⟨entry, hentry, rfl⟩ := Option.map_eq_some_iff.mp hx
  obtain ⟨v, hvalue, hv⟩ := h.isResult_of_get? hentry
  exact ⟨v, Option.bind_eq_some_iff.mpr ⟨entry, hentry, hvalue⟩, hv⟩

theorem WellFormed.exists_typeOf? (h : ctx.WellFormed) (hx : ctx.valueOf? x = some v) :
    ∃ A, ctx.typeOf? x = some A ∧ v.IsResult A := by
  obtain ⟨entry, hentry, hvalue⟩ := Option.bind_eq_some_iff.mp hx
  obtain ⟨w, hw, hv⟩ := h.isResult_of_get? hentry
  obtain rfl := Option.some.inj (hw.symm.trans hvalue)
  exact ⟨entry.ty, Option.map_eq_some_iff.mpr ⟨entry, hentry, rfl⟩, hv⟩

/-! ## Running a term -/

/-- A term that has a type is closed by the values of its variables. -/
theorem WellFormed.isClosed_close (h : ctx.WellFormed) (hT : t.typeOf ctx = .ok T) :
    (ctx.close t).IsClosed := by
  have hclosed (x : String) (v : Term) (hx : ctx.valueOf? x = some v) : v.IsClosed := by
    obtain ⟨A, -, hv⟩ := h.exists_typeOf? hx
    exact hv.closed
  rw [Term.IsClosed, List.eq_nil_iff_forall_not_mem]
  intro y hy
  obtain ⟨hyt, hnone⟩ := (mem_freeVars_close hclosed).mp hy
  obtain ⟨A, hA⟩ := Term.exists_typeOf?_of_mem_freeVars hT hyt
  obtain ⟨v, hv, -⟩ := h.exists_valueOf? hA
  rw [hnone] at hv
  cases hv

theorem WellFormed.typeOf_close (h : ctx.WellFormed) :
    (ctx.close t).typeOf ctx = t.typeOf ctx := by
  refine Context.typeOf_close fun x v hx => ?_
  obtain ⟨A, hA, hv⟩ := h.exists_typeOf? hx
  exact ⟨hv.closed, A, hA, hv.typeOf_eq ctx⟩

theorem WellFormed.isPlain_close (h : ctx.WellFormed) (ht : t.IsPlain) :
    (ctx.close t).IsPlain := by
  refine Context.isPlain_close ht fun x v hx => ?_
  obtain ⟨A, -, hv⟩ := h.exists_typeOf? hx
  exact hv.plain

theorem prepare_eq_ok_iff {b : Bounds} {u : Term} :
    ctx.prepare b t = .ok (T, u) ↔ b.refuses t = false ∧
      ∃ s, t.resolveTypes ctx = .ok s ∧ s.typeOf ctx = .ok T ∧ ctx.close s = u := by
  unfold prepare
  cases b.refuses t with
  | true => simp
  | false =>
    cases hs : t.resolveTypes ctx with
    | error e => simp
    | ok s => cases hT : s.typeOf ctx <;> simp [hT]

theorem evaluate_eq_ok_iff {b : Bounds} :
    ctx.evaluate b t = .ok (T, v) ↔ ∃ u, ctx.prepare b t = .ok (T, u) ∧
      u.outcome b.refuses b.steps = .finished v := by
  unfold evaluate
  split
  · rename_i e he
    simp [he]
  · rename_i A u hu
    rw [hu]
    constructor
    · intro h
      split at h
      · rename_i w hw
        obtain ⟨rfl, rfl⟩ := Prod.mk.inj (Except.ok.inj h)
        exact ⟨u, rfl, hw⟩
      · cases h
      · cases h
    · rintro ⟨u', hu', hv⟩
      obtain ⟨rfl, rfl⟩ := Prod.mk.inj (Except.ok.inj hu')
      rw [hv]

/-- Reduction starts with a closed term of the type that is shown. -/
theorem WellFormed.prepare (h : ctx.WellFormed) {b : Bounds} {u : Term}
    (hu : ctx.prepare b t = .ok (T, u)) :
    T.IsPlain ∧ u.IsClosed ∧ u.IsPlain ∧ u.typeOf ctx = .ok T := by
  obtain ⟨-, s, hs, hT, rfl⟩ := prepare_eq_ok_iff.mp hu
  have hnames (name : String) (A : Ty) (hA : ctx.abbreviated? name = some A) : A.IsPlain :=
    h.isPlain_of_abbreviated? hA
  have hplain : s.IsPlain := Term.isPlain_of_resolveTypes hnames hs
  refine ⟨?_, h.isClosed_close hT, h.isPlain_close hplain, by rw [h.typeOf_close, hT]⟩
  refine Term.isPlain_of_typeOf (fun x A hA => ?_) hnames hT
  obtain ⟨v, -, hv⟩ := h.exists_valueOf? hA
  exact hv.isPlain_ty

/-- Evaluation gives a result of the type that is shown. -/
theorem WellFormed.evaluate (h : ctx.WellFormed) {b : Bounds}
    (hv : ctx.evaluate b t = .ok (T, v)) : T.IsPlain ∧ v.IsResult T := by
  obtain ⟨u, hu, hout⟩ := evaluate_eq_ok_iff.mp hv
  obtain ⟨hT, hclosed, hplain, htype⟩ := h.prepare hu
  obtain ⟨n, hn, hnormal⟩ := Term.exists_steps_of_outcome hout
  have hvclosed := Term.isClosed_of_steps hn hclosed
  have hvplain := Term.isPlain_of_steps hn hplain
  refine ⟨hT, hvclosed, hvplain, hnormal, ?_⟩
  rw [Term.typeOf_of_isClosed_of_isPlain hvclosed hvplain {} ctx]
  exact Term.typeOf_steps hn hclosed htype

/-- What a type is resolved to has no names. -/
theorem WellFormed.resolve (h : ctx.WellFormed) {b : Bounds} {A : Ty}
    (hA : ctx.resolve b T = .ok A) : A.IsPlain := by
  unfold Context.resolve at hA
  split at hA
  · cases hA
  · split at hA
    · cases hA
    · rename_i B hB
      obtain rfl := Except.ok.inj hA
      exact Ty.isPlain_of_resolve (fun _ _ => h.isPlain_of_abbreviated?) hB

end Context

/-! ## Sessions -/

/-- The context after a command: what the command gives, or the same one when it fails. -/
def Command.next (ctx : Context) (b : Bounds) (cmd : Command) : Context :=
  match cmd.run b ctx with
  | .ok answer => answer.ctx
  | .error _ => ctx

namespace Context

/-- The contexts to which commands lead from the empty one. Every command may have bounds of its
own, and may fail. -/
inductive Reachable : Context → Prop
  | empty : Reachable {}
  | next {ctx : Context} (h : Reachable ctx) (b : Bounds) (cmd : Command) :
      Reachable (cmd.next ctx b)

/-- A command that succeeds keeps the context well-formed. -/
theorem WellFormed.run {ctx : Context} (h : ctx.WellFormed) {b : Bounds} {cmd : Command}
    {answer : Answer} (hrun : cmd.run b ctx = .ok answer) : answer.ctx.WellFormed := by
  cases cmd with
  | evaluate t =>
    rw [Command.run] at hrun
    split at hrun
    · cases hrun
    · obtain rfl := Except.ok.inj hrun
      exact h
  | showType T =>
    rw [Command.run] at hrun
    split at hrun
    · cases hrun
    · obtain rfl := Except.ok.inj hrun
      exact h
  | define x t =>
    rw [Command.run] at hrun
    split at hrun
    · cases hrun
    · rename_i T v hv
      obtain rfl := Except.ok.inj hrun
      exact h.define x (h.evaluate hv).2
  | abbreviate name T =>
    rw [Command.run] at hrun
    split at hrun
    · cases hrun
    · rename_i A hA
      obtain rfl := Except.ok.inj hrun
      exact h.abbreviate name (h.resolve hA)

theorem WellFormed.next {ctx : Context} (h : ctx.WellFormed) (b : Bounds) (cmd : Command) :
    (cmd.next ctx b).WellFormed := by
  unfold Command.next
  split
  · rename_i answer hrun
    exact h.run hrun
  · exact h

/-- All contexts of a session are well-formed. -/
theorem Reachable.wellFormed {ctx : Context} (h : ctx.Reachable) : ctx.WellFormed := by
  induction h with
  | empty => exact wellFormed_empty
  | next _ b cmd ih => exact ih.next b cmd

/-- **Soundness of sessions**: whatever commands have been run, the stored types mention no names,
the stored values are results of the recorded types, and so is every value that evaluation gives
for the type that it shows. -/
theorem Reachable.sound {ctx : Context} (h : ctx.Reachable) :
    (∀ entry ∈ ctx.types.entries, entry.2.IsPlain) ∧
      (∀ entry ∈ ctx.terms.entries, ∃ v, entry.2.value = some v ∧ v.IsResult entry.2.ty) ∧
      ∀ (b : Bounds) (t : Term) (T : Ty) (v : Term), ctx.evaluate b t = .ok (T, v) →
        T.IsPlain ∧ v.IsResult T :=
  ⟨h.wellFormed.types, h.wellFormed.terms, fun _ _ _ _ hv => h.wellFormed.evaluate hv⟩

/-- In a session where `T` first abbreviates the type of numbers and then that of truth values, a
function defined in between keeps its type, and applying it gives a number. -/
theorem Reachable.sound_of_rebinding :
    ∃ ctx : Context, ctx.Reachable ∧ ctx.types.entries = [("T", .bool), ("T", .nat)] ∧
      (∀ entry ∈ ctx.terms.entries, ∃ v, entry.2.value = some v ∧ v.IsResult entry.2.ty) ∧
      ctx.evaluate ⟨1, none⟩ (.app (.var "f") .zero) = .ok (.nat, .succ .zero) ∧
      (Term.succ .zero).IsResult .nat := by
  let b : Bounds := ⟨1, none⟩
  let first := Command.next {} b (.abbreviate "T" .nat)
  let second := Command.next first b
    (.define "f" (.lam "x" (.named "T") (.succ (.var "x"))))
  let ctx := Command.next second b (.abbreviate "T" .bool)
  have hreach : ctx.Reachable := ((Reachable.empty.next b _).next b _).next b _
  have heval : ctx.evaluate b (.app (.var "f") .zero) = .ok (.nat, .succ .zero) := by decide
  obtain ⟨-, hterms, hresult⟩ := hreach.sound
  exact ⟨ctx, hreach, by decide, hterms, heval, (hresult b _ _ _ heval).2⟩

end Context

end TypedLambda
