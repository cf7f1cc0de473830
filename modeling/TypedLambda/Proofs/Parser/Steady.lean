import TypedLambda.Proofs.Parser.Numberless

/-!
# Where a parser starts

Of the text that has been read already, parsers see no more than whether a word has just ended. So
they do the same at two places with the same text ahead, when the same is true of both in this
respect. A parser that starts with a lexeme may also start in front of the gap before it or behind
this gap, but it does not come over any other blanks.

## Main definitions

* `Cursor.Alike`: places at which parsers do the same
* `Parser.Alike`: equal results at places that are alike, or two failures, or the same number
* `Parser.Steady`: parsers that do the same at places that are alike
* `Parser.Leads`: parsers that start with a lexeme

## Main results

* `Parser.Steady.bind`, `Parser.Steady.many`, `Parser.Steady.fix`: the combinators
* `Parser.Leads.bind`, `Parser.Leads.or`: the combinators, where a lexeme comes first
-/

namespace TypedLambda

namespace Cursor

variable {c c' : Cursor}

theorem skipGap_skipGap (c : Cursor) : c.skipGap.skipGap = c.skipGap := by
  have hrest : c.skipGap.rest.takeWhile Text.isGap = [] := by
    rw [skipGap, rest_skip]
    induction c.rest with
    | nil => rfl
    | cons x xs ih => by_cases hx : Text.isGap x <;> simp [hx, ih]
  rw [skipGap, skip, hrest, List.length_nil, advance_zero]

/-- The same text lies ahead, and a word ends in front of both places or of neither. -/
def Alike (c c' : Cursor) : Prop :=
  c.rest = c'.rest ∧ c.prev.any Text.isNameChar = c'.prev.any Text.isNameChar

theorem Alike.refl (c : Cursor) : c.Alike c :=
  ⟨rfl, rfl⟩

theorem Alike.symm (h : c.Alike c') : c'.Alike c :=
  ⟨h.1.symm, h.2.symm⟩

theorem Alike.trans {c'' : Cursor} (h : c.Alike c') (h' : c'.Alike c'') : c.Alike c'' :=
  ⟨h.1.trans h'.1, h.2.trans h'.2⟩

theorem Alike.advance (h : c.Alike c') (n : Nat) : (c.advance n).Alike (c'.advance n) := by
  induction n generalizing c c' with
  | zero => exact h
  | succ n ih =>
    rw [Cursor.advance, Cursor.advance, ← h.1]
    split
    · exact h
    · exact ih ⟨rfl, rfl⟩

theorem Alike.skipGap (h : c.Alike c') : c.skipGap.Alike c'.skipGap := by
  rw [Cursor.skipGap, Cursor.skipGap, skip, skip, ← h.1]
  exact h.advance _

end Cursor

namespace Parser

variable {α β : Type} {p : Parser α} {c c' : Cursor}

/-! ## Results -/

/-- Both have the same result and end at places that are alike, or both fail, or both end at a
number of so many digits. -/
inductive Alike : (x y : Except Halt (α × Cursor)) → Prop
  | ok (a : α) {c c' : Cursor} (h : c.Alike c') : Alike (.ok (a, c)) (.ok (a, c'))
  | failure (e e' : Failure) : Alike (.error (.failure e)) (.error (.failure e'))
  | overlong (e : Overlong) : Alike (.error (.overlong e)) (.error (.overlong e))

variable {x y z : Except Halt (α × Cursor)}

theorem Alike.refl (x : Except Halt (α × Cursor)) : Alike x x := by
  rcases x with (e | e) | r
  · exact .failure e e
  · exact .overlong e
  · exact .ok r.1 (.refl r.2)

theorem Alike.of_eq (h : x = y) : Alike x y :=
  h ▸ .refl x

theorem Alike.symm (h : Alike x y) : Alike y x := by
  cases h with
  | ok a h => exact .ok a h.symm
  | failure e e' => exact .failure e' e
  | overlong e => exact .overlong e

theorem Alike.trans (h : Alike x y) (h' : Alike y z) : Alike x z := by
  cases h with
  | ok a h =>
    cases h' with
    | ok _ h' => exact .ok a (h.trans h')
  | failure e _ =>
    cases h' with
    | failure _ e' => exact .failure e e'
  | overlong e => exact h'

theorem Alike.exists_ok {a : α} (h : Alike (.ok (a, c)) y) :
    ∃ c', y = .ok (a, c') ∧ c.Alike c' := by
  cases h with
  | ok _ h => exact ⟨_, rfl, h⟩

/-! ## Steady parsers -/

/-- The parser does the same at places that are alike. -/
def Steady (p : Parser α) : Prop :=
  ∀ c c', c.Alike c' → Alike (p c) (p c')

/-- Of two places that are alike it does not matter which comes first. -/
theorem Numberless.steady (hp : Numberless p) (h : ∀ c c', c.Alike c' → ∀ a d, p c = .ok (a, d) →
    ∃ d', p c' = .ok (a, d') ∧ d.Alike d') : Steady p := by
  intro c c' hc
  rcases hpc : p c with (e | e) | r
  · obtain ⟨e', he'⟩ : Fails p c' := hp.fails fun r hr => by
      obtain ⟨d, hd, -⟩ := h c' c hc.symm r.1 r.2 hr
      rw [hpc] at hd
      cases hd
    rw [he']
    exact .failure e e'
  · exact absurd hpc (hp c e)
  · obtain ⟨d', hp', hd⟩ := h c c' hc r.1 r.2 hpc
    rw [hp']
    exact .ok r.1 hd

theorem steady_pure (a : α) : Steady (pure a) :=
  fun _ _ hc => .ok a hc

theorem Alike.bind {p q : Parser α} {f : α → Parser β} (h : Alike (p c) (q c'))
    (hf : ∀ a, Steady (f a)) : Alike ((p >>= f) c) ((q >>= f) c') := by
  rw [bind_apply, bind_apply]
  generalize p c = x, q c' = y at h
  cases h with
  | ok a h => exact hf a _ _ h
  | failure e e' => exact .failure e e'
  | overlong e => exact .overlong e

/-- What is done about two failures is alike if it is so for any two. -/
theorem Alike.recover {f g : Failure → Except Halt (α × Cursor)} (h : Alike x y)
    (hfg : ∀ e e', Alike (f e) (g e')) : Alike (recover x f) (recover y g) := by
  cases h with
  | ok a h => exact .ok a h
  | failure e e' => exact hfg e e'
  | overlong e => exact .overlong e

theorem Steady.bind {f : α → Parser β} (h : Steady p) (hf : ∀ a, Steady (f a)) :
    Steady (p >>= f) :=
  fun c c' hc => (h c c' hc).bind hf

theorem Steady.map (h : Steady p) (f : α → β) : Steady (f <$> p) :=
  h.bind fun a => steady_pure (f a)

/-- The first alternative that succeeds is the same when all alternatives are alike. -/
theorem Alike.or {ps : List (Parser α)} (h : Alike (p c) (p c'))
    (hps : Alike (firstOf ps c) (firstOf ps c')) :
    Alike (firstOf (p :: ps) c) (firstOf (p :: ps) c') :=
  h.recover fun _ _ => hps.recover fun _ _ => .failure _ _

theorem Alike.choice {reason : String} {ps : List (Parser α)}
    (h : Alike (firstOf ps c) (firstOf ps c')) :
    Alike (choice reason ps c) (choice reason ps c') :=
  h.recover fun _ _ => .failure _ _

theorem Steady.optional {default : α} (h : Steady p) : Steady (optional default p) :=
  fun c c' hc => (h c c' hc).recover fun _ _ => .ok default hc

theorem Steady.many (h : Steady p) : Steady (many p) := by
  have within (bound : Nat) : Steady (manyWithin p bound) := by
    induction bound with
    | zero => exact steady_pure []
    | succ bound ih => exact (h.bind fun a => ih.bind fun as => steady_pure (a :: as)).optional
  intro c c' hc
  rw [Parser.many, Parser.many, ← hc.1]
  exact within _ c c' hc

theorem Steady.fix {rule : Parser α → Parser α} (h : ∀ p, Steady p → Steady (rule p)) :
    Steady (fix rule) := by
  have unrolled (depth : Nat) : Steady (unroll rule depth) := by
    induction depth with
    | zero => exact fun _ _ _ => .failure _ _
    | succ depth ih => exact h _ ih
  intro c c' hc
  rw [Parser.fix, Parser.fix, ← hc.1]
  exact unrolled _ c c' hc

/-! ## Parsers that start with a lexeme -/

/-- A steady parser that may start behind the gap ahead of it, and reads nothing where another blank
comes then. -/
structure Leads (p : Parser α) : Prop where
  /-- It does the same at places that are alike. -/
  steady : Steady p
  /-- It does the same behind the gap. -/
  behindGap : ∀ c, Alike (p c) (p c.skipGap)
  /-- It reads nothing that starts with another blank. -/
  notBlank : ∀ c r, p c = .ok r → c.skipGap.rest.head?.any Text.isBlank = false

theorem Leads.bind {f : α → Parser β} (h : Leads p) (hf : ∀ a, Steady (f a)) :
    Leads (p >>= f) where
  steady := h.steady.bind hf
  behindGap c := (h.behindGap c).bind hf
  notBlank c r hr := by
    obtain ⟨a, c', ha, -⟩ := bind_eq_ok_iff.mp hr
    exact h.notBlank c _ ha

theorem Leads.map (h : Leads p) (f : α → β) : Leads (f <$> p) :=
  h.bind fun a => steady_pure (f a)

theorem leads_firstOf_nil : Leads (firstOf ([] : List (Parser α))) where
  steady _ _ _ := .failure _ _
  behindGap _ := .failure _ _
  notBlank _ _ hr := nomatch hr

theorem Leads.or {ps : List (Parser α)} (h : Leads p) (hps : Leads (firstOf ps)) :
    Leads (firstOf (p :: ps)) where
  steady c c' hc := (h.steady c c' hc).or (hps.steady c c' hc)
  behindGap c := (h.behindGap c).or (hps.behindGap c)
  notBlank c r hr := by
    rcases ok_or_ok_of_firstOf hr with hr | hr
    · exact h.notBlank c r hr
    · exact hps.notBlank c r hr

theorem Leads.choice {reason : String} {ps : List (Parser α)} (h : Leads (firstOf ps)) :
    Leads (choice reason ps) where
  steady c c' hc := (h.steady c c' hc).choice
  behindGap c := (h.behindGap c).choice
  notBlank c r hr := h.notBlank c r (choice_eq_ok_iff.mp hr)

theorem Leads.afterGap (h : Leads p) : Leads (afterGap p) where
  steady _ _ hc := h.steady _ _ hc.skipGap
  behindGap c := .of_eq (by rw [Parser.afterGap, Parser.afterGap, c.skipGap_skipGap])
  notBlank c r hr := by
    have hblank := h.notBlank c.skipGap r hr
    rwa [c.skipGap_skipGap] at hblank

theorem Leads.sepBy {sep : Parser Unit} (h : Leads p) (hsep : Steady sep) : Leads (sepBy p sep) :=
  h.bind fun a => (hsep.bind fun _ => h.steady).many.bind fun as => steady_pure (a, as)

end Parser

end TypedLambda
