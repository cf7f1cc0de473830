import TypedLambda.Proofs.Parser.Repetition

/-!
# Parsers without numbers

Only numbers can be too long. A parser that reads none either succeeds or fails, so that something
else may be tried wherever it does not succeed.

## Main definitions

* `Parser.Numberless`: parsers that do not end at a number

## Main results

* `Parser.Numberless.fails`: where such a parser does not succeed, it fails
* `Parser.Numberless.bind`, `Parser.Numberless.or`, `Parser.Numberless.fix`: the combinators
-/

namespace TypedLambda

namespace Parser

variable {α β : Type} {p : Parser α} {c : Cursor}

/-- Nowhere does the parser end at a number that is too long. -/
def Numberless (p : Parser α) : Prop :=
  ∀ c e, p c ≠ .error (.overlong e)

/-- Without numbers, a parser succeeds or fails. -/
theorem Numberless.fails (hp : Numberless p) (h : ∀ r, p c ≠ .ok r) : Fails p c := by
  rcases hc : p c with (e | e) | r
  · exact ⟨e, hc⟩
  · exact absurd hc (hp c e)
  · exact absurd hc (h r)

/-! ## Combinators -/

theorem numberless_pure (a : α) : Numberless (pure a : Parser α) :=
  fun _ _ => nofun

theorem Numberless.bind {f : α → Parser β} (h : Numberless p) (hf : ∀ a, Numberless (f a)) :
    Numberless (p >>= f) := by
  intro c e he
  rw [bind_apply] at he
  split at he
  · exact hf _ _ e he
  · rename_i x hx
    obtain rfl := Except.error.inj he
    exact h c e hx

theorem Numberless.map (h : Numberless p) (f : α → β) : Numberless (f <$> p) :=
  h.bind fun a => numberless_pure (f a)

/-- What is done about a failure without numbers ends at none either. -/
theorem recover_ne_overlong {ρ : Type} {o : Except Halt ρ} {f : Failure → Except Halt ρ}
    {e : Overlong} (ho : o ≠ .error (.overlong e)) (hf : ∀ x, f x ≠ .error (.overlong e)) :
    recover o f ≠ .error (.overlong e) := by
  rcases o with (x | x) | r
  · exact hf x
  · exact ho
  · exact nofun

theorem numberless_firstOf_nil : Numberless (firstOf ([] : List (Parser α))) :=
  fun _ _ => nofun

theorem Numberless.or {ps : List (Parser α)} (h : Numberless p) (hps : Numberless (firstOf ps)) :
    Numberless (firstOf (p :: ps)) :=
  fun c e => recover_ne_overlong (h c e) fun _ => recover_ne_overlong (hps c e) fun _ => nofun

theorem Numberless.choice {reason : String} {ps : List (Parser α)} (h : Numberless (firstOf ps)) :
    Numberless (choice reason ps) :=
  fun c e => recover_ne_overlong (h c e) fun _ => nofun

theorem Numberless.optional {default : α} (h : Numberless p) : Numberless (optional default p) :=
  fun c e => recover_ne_overlong (h c e) fun _ => nofun

theorem Numberless.many (h : Numberless p) : Numberless (many p) := by
  have within (bound : Nat) : Numberless (manyWithin p bound) := by
    induction bound with
    | zero => exact numberless_pure []
    | succ bound ih =>
      exact (h.bind fun a => ih.bind fun as => numberless_pure (a :: as)).optional
  exact fun c e => within _ c e

theorem Numberless.sepBy {sep : Parser Unit} (h : Numberless p) (hsep : Numberless sep) :
    Numberless (sepBy p sep) :=
  h.bind fun a => (hsep.bind fun _ => h).many.bind fun as => numberless_pure (a, as)

theorem Numberless.fix {rule : Parser α → Parser α} (h : ∀ p, Numberless p → Numberless (rule p)) :
    Numberless (fix rule) := by
  have unrolled (depth : Nat) : Numberless (unroll rule depth) := by
    induction depth with
    | zero => exact fun _ _ => nofun
    | succ depth ih => exact h _ ih
  exact fun c e => unrolled _ c e

end Parser

end TypedLambda
