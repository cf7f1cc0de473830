import TypedLambda.Proofs.Parser.Recursion

/-!
# Choice and repetition

Which alternative of a choice is read, and how often a part is. An alternative is taken when the
ones before it fail. A part that may be absent is absent where it fails, and a repeated part is read
until it fails: if it reads something each time, the bound on the number of times is never met. A
number that is too long is no failure, and ends all of this.

## Main definitions

* `Parser.Fails`: a parser that fails at a cursor
* `Parser.Repeats`: a part that is read several times

## Main results

* `Parser.choice_eq_of_fails`, `Parser.exists_of_choice`: the alternative that is read
* `Parser.choice_perm`: alternatives whose order does not matter
* `Parser.many_of_ok`, `Parser.many_of_fails`, `Parser.Repeats.many_eq`: repeated parts
* `Parser.many_ok_or_overlong`, `Parser.many_of_overlong`, `Parser.many_overlong_of_ok`: repetition
  does not fail, but it ends at a number that is too long
-/

namespace TypedLambda

namespace Parser

variable {α β : Type} {p : Parser α} {c : Cursor} {a : α}

/-- At the cursor, the parser fails, and something else may be tried. -/
def Fails (p : Parser α) (c : Cursor) : Prop :=
  ∃ e, p c = .error (.failure e)

theorem Fails.ne_ok (h : Fails p c) (r : α × Cursor) : p c ≠ .ok r := by
  obtain ⟨e, he⟩ := h
  rw [he]
  exact nofun

theorem Fails.ne_overlong (h : Fails p c) (e : Overlong) : p c ≠ .error (.overlong e) := by
  obtain ⟨x, hx⟩ := h
  rw [hx]
  exact nofun

theorem not_fails_of_ok {r : α × Cursor} (h : p c = .ok r) : ¬Fails p c :=
  fun hf => hf.ne_ok r h

theorem ne_overlong_of_ok {r : α × Cursor} (h : p c = .ok r) (e : Overlong) :
    p c ≠ .error (.overlong e) := by
  intro he
  cases h.symm.trans he

/-- A sequence ends where its first part does. -/
theorem bind_eq_error {x : Halt} (h : p c = .error x) (f : α → Parser β) :
    (p >>= f) c = .error x := by
  rw [bind_apply, h]

/-- A sequence fails where its first part does. -/
theorem Fails.bind (h : Fails p c) (f : α → Parser β) : Fails (p >>= f) c := by
  obtain ⟨e, he⟩ := h
  exact ⟨e, bind_eq_error he f⟩

theorem Fails.map (h : Fails p c) (f : α → β) : Fails (f <$> p) c :=
  h.bind _

/-- A sequence fails where its second part does, behind the first one. -/
theorem fails_bind_of_ok {f : α → Parser β} {c' : Cursor} (ha : p c = .ok (a, c'))
    (h : Fails (f a) c') : Fails (p >>= f) c := by
  obtain ⟨e, he⟩ := h
  exact ⟨e, by rw [bind_apply, ha, ← he]⟩

/-! ## Choice -/

/-- Only about a failure something is done. -/
theorem recover_eq_self {ρ : Type} {o : Except Halt ρ} {f : Failure → Except Halt ρ}
    (h : ¬∃ e, o = .error (.failure e)) : recover o f = o := by
  rcases o with (e | e) | r
  · exact absurd ⟨e, rfl⟩ h
  · rfl
  · rfl

/-- The first alternative that does not fail decides. -/
theorem firstOf_eq_of_fails (before : List (Parser α)) {after : List (Parser α)}
    (hbefore : ∀ q ∈ before, Fails q c) (h : ¬Fails p c) :
    firstOf (before ++ p :: after) c = p c := by
  induction before with
  | nil => exact recover_eq_self h
  | cons q before ih =>
    obtain ⟨⟨e, he⟩, hbefore⟩ := List.forall_mem_cons.mp hbefore
    simp only [List.cons_append, firstOf, he, ih hbefore, recover_failure]
    exact recover_eq_self h

theorem choice_eq_of_fails {reason : String} (before : List (Parser α)) {after : List (Parser α)}
    (hbefore : ∀ q ∈ before, Fails q c) (h : ¬Fails p c) :
    choice reason (before ++ p :: after) c = p c := by
  rw [choice, firstOf_eq_of_fails before hbefore h, recover_eq_self h]

theorem firstOf_fails {ps : List (Parser α)} (h : ∀ p ∈ ps, Fails p c) : Fails (firstOf ps) c := by
  induction ps with
  | nil => exact ⟨_, rfl⟩
  | cons p ps ih =>
    obtain ⟨⟨e, he⟩, hps⟩ := List.forall_mem_cons.mp h
    obtain ⟨f, hf⟩ := ih hps
    exact ⟨e.furthest f, by simp only [firstOf, he, hf, recover_failure]⟩

theorem exists_of_firstOf {ps : List (Parser α)} {r : α × Cursor} (h : firstOf ps c = .ok r) :
    ∃ p ∈ ps, p c = .ok r := by
  induction ps with
  | nil => cases h
  | cons p ps ih =>
    rcases ok_or_ok_of_firstOf h with hp | hps
    · exact ⟨p, List.mem_cons_self, hp⟩
    · obtain ⟨q, hq, hr⟩ := ih hps
      exact ⟨q, List.mem_cons_of_mem _ hq, hr⟩

/-- What a choice reads is read by one of its alternatives. -/
theorem exists_of_choice {reason : String} {ps : List (Parser α)} {r : α × Cursor}
    (h : choice reason ps c = .ok r) : ∃ p ∈ ps, p c = .ok r :=
  exists_of_firstOf (choice_eq_ok_iff.mp h)

/-- Where one alternative reads something and the others read the same or fail, the choice reads
it. -/
theorem choice_eq_of_mem (reason : String) {ps : List (Parser α)} {r : α × Cursor} (hp : p ∈ ps)
    (h : p c = .ok r) (hps : ∀ q ∈ ps, q c = .ok r ∨ Fails q c) :
    choice reason ps c = .ok r := by
  rw [choice_eq_ok_iff]
  induction ps with
  | nil => cases hp
  | cons q ps ih =>
    obtain ⟨hq, hps⟩ := List.forall_mem_cons.mp hps
    rcases hq with hq | ⟨e, he⟩
    · simp only [firstOf, hq, recover_ok]
    · have hmem : p ∈ ps := by
        rcases List.mem_cons.mp hp with rfl | hp
        · rw [he] at h
          cases h
        · exact hp
      simp only [firstOf, he, ih hmem hps, recover_failure, recover_ok]

/-- Where all alternatives fail that do not read the same, their order does not matter. -/
theorem choice_perm {reason reason' : String} {ps qs : List (Parser α)} {r : α × Cursor}
    (hperm : ps.Perm qs)
    (hagree : ∀ p ∈ ps, ∀ q ∈ ps, ∀ r, p c = .ok r → q c = .ok r ∨ Fails q c) :
    choice reason ps c = .ok r ↔ choice reason' qs c = .ok r := by
  constructor
  · intro h
    obtain ⟨p, hp, hr⟩ := exists_of_choice h
    exact choice_eq_of_mem reason' (hperm.mem_iff.mp hp) hr fun q hq =>
      hagree p hp q (hperm.mem_iff.mpr hq) r hr
  · intro h
    obtain ⟨p, hp, hr⟩ := exists_of_choice h
    have hp := hperm.mem_iff.mpr hp
    exact choice_eq_of_mem reason hp hr fun q hq => hagree p hp q hq r hr

/-- A choice fails where all its alternatives do. -/
theorem choice_fails {reason : String} {ps : List (Parser α)} (h : ∀ p ∈ ps, Fails p c) :
    Fails (choice reason ps) c := by
  obtain ⟨e, he⟩ := firstOf_fails h
  exact ⟨_, by rw [choice, he, recover_failure]⟩

/-! ## Absent and repeated parts -/

theorem optional_eq_of_fails {default : α} (h : Fails p c) :
    optional default p c = .ok (default, c) := by
  obtain ⟨e, he⟩ := h
  rw [optional, he, recover_failure]

/-- A parser that reads something reads it no more often than there are characters. -/
theorem manyWithin_eq_manyWithin (hp : ∀ n, Agree 1 n p p) {m n : Nat} (hm : c.rest.length < m)
    (hn : c.rest.length < n) : manyWithin p m c = manyWithin p n c := by
  induction m generalizing c n with
  | zero => omega
  | succ m ih =>
    cases n with
    | zero => omega
    | succ n =>
      have hseq : (do let a ← p; let as ← manyWithin p m; pure (a :: as)) c =
          (do let a ← p; let as ← manyWithin p n; pure (a :: as)) c := by
        rw [bind_apply, bind_apply]
        cases hc : p c with
        | error e => rfl
        | ok r =>
          have hlen := ((hp _ c (Nat.lt_succ_self _)).2 r hc).length_add_le
          have hrest : manyWithin p m r.2 = manyWithin p n r.2 := ih (by omega) (by omega)
          simp only [bind_apply, hrest]
      simp only [manyWithin, Parser.optional, hseq]

theorem many_of_fails (h : Fails p c) : many p c = .ok ([], c) :=
  optional_eq_of_fails (h.bind _)

/-- Repetition ends at a number that is too long. -/
theorem many_of_overlong {e : Overlong} (h : p c = .error (.overlong e)) :
    many p c = .error (.overlong e) := by
  rw [many, manyWithin, Parser.optional, bind_apply, h, recover_overlong]

/-- A part that may be absent does not fail. -/
theorem optional_ok_or_overlong (default : α) (p : Parser α) (c : Cursor) :
    (∃ r, optional default p c = .ok r) ∨ ∃ e, optional default p c = .error (.overlong e) := by
  rw [Parser.optional]
  rcases p c with (e | e) | r
  · exact .inl ⟨_, rfl⟩
  · exact .inr ⟨e, rfl⟩
  · exact .inl ⟨r, rfl⟩

/-- Repetition does not fail. -/
theorem many_ok_or_overlong (p : Parser α) (c : Cursor) :
    (∃ r, many p c = .ok r) ∨ ∃ e, many p c = .error (.overlong e) :=
  optional_ok_or_overlong [] _ c

/-- Behind a part that is read, the bound that is left suffices. -/
theorem manyWithin_eq_many (hp : ∀ n, Agree 1 n p p) {c' : Cursor} (ha : p c = .ok (a, c')) :
    manyWithin p c.rest.length c' = many p c' := by
  have hlen := ((hp _ c (Nat.lt_succ_self _)).2 _ ha).length_add_le
  exact manyWithin_eq_manyWithin hp (by dsimp only at hlen; omega) (Nat.lt_succ_self _)

theorem many_of_ok (hp : ∀ n, Agree 1 n p p) {c' c'' : Cursor} {as : List α}
    (ha : p c = .ok (a, c')) (has : many p c' = .ok (as, c'')) :
    many p c = .ok (a :: as, c'') := by
  have has' := (manyWithin_eq_many hp ha).trans has
  have hseq : (do let a ← p; let as ← manyWithin p c.rest.length; pure (a :: as)) c =
      .ok (a :: as, c'') :=
    bind_eq_ok_iff.mpr ⟨a, c', ha, bind_eq_ok_iff.mpr ⟨as, c'', has', rfl⟩⟩
  rw [many, manyWithin, Parser.optional, hseq, recover_ok]

/-- Repetition ends at a number behind other parts. -/
theorem many_overlong_of_ok (hp : ∀ n, Agree 1 n p p) {c' : Cursor} {e : Overlong}
    (ha : p c = .ok (a, c')) (he : many p c' = .error (.overlong e)) :
    many p c = .error (.overlong e) := by
  have he' := (manyWithin_eq_many hp ha).trans he
  have hseq : (do let a ← p; let as ← manyWithin p c.rest.length; pure (a :: as)) c =
      .error (.overlong e) := by
    rw [bind_apply, ha]
    dsimp only
    rw [bind_apply, he']
  rw [many, manyWithin, Parser.optional, hseq, recover_overlong]

/-- From the cursor `c` on, the parser reads these results one after the other, and then stands
at `c'`. -/
inductive Repeats (p : Parser α) : (c : Cursor) → List α → (c' : Cursor) → Prop
  | nil (c : Cursor) : Repeats p c [] c
  | cons {c c' c'' : Cursor} {a : α} {as : List α} (h : p c = .ok (a, c'))
      (hs : Repeats p c' as c'') : Repeats p c (a :: as) c''

theorem Repeats.snoc {c' c'' : Cursor} {as : List α} (hs : Repeats p c as c')
    (h : p c' = .ok (a, c'')) : Repeats p c (as ++ [a]) c'' := by
  induction hs with
  | nil c => exact .cons h (.nil c'')
  | cons h' _ ih => exact .cons h' (ih h)

/-- What is read as often as it comes is read several times. -/
theorem repeats_of_many {r : List α × Cursor} (h : many p c = .ok r) : Repeats p c r.1 r.2 := by
  have within (bound : Nat) {c : Cursor} {r : List α × Cursor}
      (h : manyWithin p bound c = .ok r) : Repeats p c r.1 r.2 := by
    induction bound generalizing c r with
    | zero =>
      obtain rfl := Except.ok.inj h
      exact .nil c
    | succ bound ih =>
      obtain hmore | ⟨-, rfl⟩ := optional_cases h
      · obtain ⟨a, c', ha, hmore⟩ := bind_eq_ok_iff.mp hmore
        obtain ⟨as, c'', has, hr⟩ := bind_eq_ok_iff.mp hmore
        obtain rfl := Except.ok.inj hr
        exact .cons ha (ih has)
      · exact .nil c
  exact within _ h

/-- A part that reads something is read as often as it comes. -/
theorem Repeats.many_eq (hp : ∀ n, Agree 1 n p p) {c' : Cursor} {as : List α}
    (hs : Repeats p c as c') (h : Fails p c') : many p c = .ok (as, c') := by
  induction hs with
  | nil c => exact many_of_fails h
  | cons ha _ ih => exact many_of_ok hp ha (ih h)

end Parser

end TypedLambda
