import Mathlib.Data.List.Forall2
import TypedLambda.Parser.Basic

/-!
# Recursive rules

A recursive rule describes a parser when it reads something before it uses itself: what it does at a
place then depends on its own uses at later places only. To see this of a rule, two parsers that do
the same at all places with fewer than `n` characters left are followed through the combinators. How
far they move on is part of what is followed, since it decides which places are met next.

## Main definitions

* `Cursor.Reaches`: a place that lies at least so many characters further on
* `Parser.Agree`: parsers that do the same near the end of a text
* `Parser.Guarded`: rules that read something before they use themselves

## Main results

* `Parser.Agree.bind`, `Parser.Agree.choice`, `Parser.Agree.many`: the combinators
* `Parser.fix_apply`: a guarded rule holds of the parser that it describes
-/

namespace TypedLambda

namespace Cursor

theorem advance_add (m n : Nat) (c : Cursor) : c.advance (m + n) = (c.advance m).advance n := by
  induction m generalizing c with
  | zero => rw [Nat.zero_add, advance_zero]
  | succ m ih =>
    rw [Nat.succ_add, advance, advance]
    split
    · rename_i h
      cases n with
      | zero => rfl
      | succ n => rw [advance, h]
    · exact ih _

/-- The place lies at least `k` characters further on in the text. -/
def Reaches (k : Nat) (c c' : Cursor) : Prop :=
  ∃ m, k ≤ m ∧ m ≤ c.rest.length ∧ c' = c.advance m

variable {c c' c'' : Cursor} {j k : Nat}

theorem Reaches.refl (c : Cursor) : c.Reaches 0 c :=
  ⟨0, Nat.le_refl 0, Nat.zero_le _, rfl⟩

theorem Reaches.length_add_le (h : c.Reaches k c') : c'.rest.length + k ≤ c.rest.length := by
  obtain ⟨m, hk, hm, rfl⟩ := h
  rw [rest_advance, List.length_drop]
  omega

/-- Places further on have the same end of the text. -/
theorem Reaches.pos_add_length (h : c.Reaches k c') :
    c'.pos + c'.rest.length = c.pos + c.rest.length := by
  obtain ⟨m, -, -, rfl⟩ := h
  exact pos_add_length_advance m c

theorem Reaches.trans (h : c.Reaches j c') (h' : c'.Reaches k c'') : c.Reaches (j + k) c'' := by
  obtain ⟨m, hj, hm, rfl⟩ := h
  obtain ⟨n, hk, hn, rfl⟩ := h'
  rw [rest_advance, List.length_drop] at hn
  exact ⟨m + n, by omega, by omega, (advance_add m n c).symm⟩

/-- A place in between makes no difference. -/
theorem Reaches.zero_trans (h : c.Reaches 0 c') (h' : c'.Reaches k c'') : c.Reaches k c'' :=
  Nat.zero_add k ▸ h.trans h'

theorem Reaches.mono (h : c.Reaches k c') (hj : j ≤ k) : c.Reaches j c' := by
  obtain ⟨m, hk, hm, rfl⟩ := h
  exact ⟨m, Nat.le_trans hj hk, hm, rfl⟩

theorem reaches_skip (p : Char → Bool) (c : Cursor) : c.Reaches 0 (c.skip p) :=
  ⟨_, Nat.zero_le _, (List.takeWhile_sublist p).length_le, rfl⟩

theorem reaches_skipGap (c : Cursor) : c.Reaches 0 c.skipGap :=
  reaches_skip _ c

end Cursor

namespace Parser

variable {α β : Type} {k n : Nat} {p q : Parser α}

/-- Two parsers do the same at all places with fewer than `n` characters left, and read at least `k`
characters there when they succeed. -/
def Agree (k n : Nat) (p q : Parser α) : Prop :=
  ∀ c : Cursor, c.rest.length < n → p c = q c ∧ ∀ r, p c = .ok r → c.Reaches k r.2

/-! ## Combinators -/

theorem Agree.mono {j m : Nat} (h : Agree k n p q) (hj : j ≤ k) (hm : m ≤ n) : Agree j m p q :=
  fun c hc =>
    let ⟨hpq, hreach⟩ := h c (Nat.lt_of_lt_of_le hc hm)
    ⟨hpq, fun r hr => (hreach r hr).mono hj⟩

/-- How much is read may be forgotten. -/
theorem Agree.zero (h : Agree k n p q) : Agree 0 n p q :=
  h.mono (Nat.zero_le k) (Nat.le_refl n)

/-- The parsers agree on shorter rests, too. -/
theorem Agree.pred (h : Agree k (n + 1) p q) : Agree k n p q :=
  h.mono (Nat.le_refl k) (Nat.le_succ n)

theorem agree_pure (a : α) (n : Nat) : Agree 0 n (pure a) (pure a) := by
  intro c _
  refine ⟨rfl, fun r hr => ?_⟩
  obtain rfl := Except.ok.inj hr
  exact .refl c

/-- What comes behind a part that reads `k` characters needs to agree on shorter rests only. -/
theorem Agree.bind {f g : α → Parser β} {j : Nat} (h : Agree k n p q)
    (hfg : ∀ a, Agree j (n - k) (f a) (g a)) : Agree (k + j) n (p >>= f) (q >>= g) := by
  intro c hc
  obtain ⟨hpq, hreach⟩ := h c hc
  rw [bind_apply, bind_apply, ← hpq]
  cases hp : p c with
  | error e => exact ⟨rfl, fun r hr => nomatch hr⟩
  | ok r =>
    obtain ⟨a, c'⟩ := r
    have hc' := hreach _ hp
    have hlen := hc'.length_add_le
    obtain ⟨heq, hnext⟩ := hfg a c' (by dsimp only at hlen; omega)
    exact ⟨heq, fun r hr => hc'.trans (hnext r hr)⟩

/-- A part in front may also be one that reads nothing. -/
theorem Agree.seq {f g : α → Parser β} {j : Nat} (h : Agree k n p q)
    (hfg : ∀ a, Agree j n (f a) (g a)) : Agree j n (p >>= f) (q >>= g) := by
  have hbind : Agree (0 + j) n (p >>= f) (q >>= g) := h.zero.bind hfg
  exact Nat.zero_add j ▸ hbind

/-- Behind a part that reads something, what comes next needs to agree on shorter rests only. -/
theorem Agree.guard {f g : α → Parser β} {j : Nat} (h : Agree k (n + 1) p q) (hk : 1 ≤ k)
    (hfg : ∀ a, Agree j n (f a) (g a)) : Agree 1 (n + 1) (p >>= f) (q >>= g) := by
  have hbind := (h.mono hk (Nat.le_refl (n + 1))).bind hfg
  exact hbind.mono (Nat.le_add_right 1 j) (Nat.le_refl (n + 1))

theorem Agree.map (h : Agree k n p q) (f : α → β) : Agree k n (f <$> p) (f <$> q) :=
  h.bind fun a => agree_pure (f a) (n - k)

theorem Agree.firstOf {ps qs : List (Parser α)} (h : List.Forall₂ (Agree k n) ps qs) :
    Agree k n (firstOf ps) (firstOf qs) := by
  induction h with
  | nil => exact fun c _ => ⟨rfl, fun r hr => nomatch hr⟩
  | @cons p q ps qs hpq _ ih =>
    intro c hc
    obtain ⟨hp, hreach⟩ := hpq c hc
    obtain ⟨hps, hreaches⟩ := ih c hc
    refine ⟨by simp only [Parser.firstOf, hp, hps], fun r hr => ?_⟩
    rcases ok_or_ok_of_firstOf hr with hr | hr
    · exact hreach r hr
    · exact hreaches r hr

theorem Agree.choice {reason : String} {ps qs : List (Parser α)}
    (h : List.Forall₂ (Agree k n) ps qs) : Agree k n (choice reason ps) (choice reason qs) := by
  intro c hc
  obtain ⟨hps, hreach⟩ := Agree.firstOf h c hc
  refine ⟨by simp only [Parser.choice, hps], fun r hr => ?_⟩
  exact hreach r (choice_eq_ok_iff.mp hr)

theorem Agree.afterGap (h : Agree k n p q) : Agree k n (afterGap p) (afterGap q) := by
  intro c hc
  have hgap := c.reaches_skipGap
  have hlen := hgap.length_add_le
  obtain ⟨hpq, hreach⟩ := h c.skipGap (by omega)
  exact ⟨hpq, fun r hr => hgap.zero_trans (hreach r hr)⟩

theorem Agree.optional {default : α} (h : Agree k n p q) :
    Agree 0 n (optional default p) (optional default q) := by
  intro c hc
  obtain ⟨hpq, hreach⟩ := h c hc
  refine ⟨by simp only [Parser.optional, hpq], fun r hr => ?_⟩
  rcases optional_cases hr with hr | ⟨-, rfl⟩
  · exact (hreach r hr).mono (Nat.zero_le k)
  · exact .refl c

theorem Agree.manyWithin (h : Agree k n p q) (bound : Nat) :
    Agree 0 n (manyWithin p bound) (manyWithin q bound) := by
  induction bound with
  | zero => exact agree_pure [] n
  | succ bound ih =>
    exact Agree.optional (h.seq fun a => ih.seq fun as => agree_pure (a :: as) n)

theorem Agree.many (h : Agree k n p q) : Agree 0 n (many p) (many q) :=
  fun c hc => h.manyWithin _ c hc

theorem Agree.sepBy {sep : Parser Unit} {j : Nat} (h : Agree k n p q) (hsep : Agree j n sep sep) :
    Agree k n (sepBy p sep) (sepBy q sep) := by
  have hitem : Agree k n (do sep; p) (do sep; q) := hsep.seq fun _ => h
  have hitems : Agree 0 (n - k) (Parser.many (do sep; p)) (Parser.many (do sep; q)) :=
    hitem.many.mono (Nat.le_refl 0) (Nat.sub_le n k)
  exact h.bind fun a => hitems.seq fun as => agree_pure (a, as) (n - k)

/-! ## Rules -/

/-- A rule that reads at least one character, and does so before it uses itself. -/
def Guarded (rule : Parser α → Parser α) : Prop :=
  ∀ n p q, Agree 0 n p q → Agree 1 (n + 1) (rule p) (rule q)

variable {rule : Parser α → Parser α}

/-- Unrolling a guarded rule further than there are characters makes no difference. -/
theorem Guarded.agree_unroll (h : Guarded rule) {d e : Nat} (hd : n ≤ d) (he : n ≤ e) :
    Agree 1 n (unroll rule d) (unroll rule e) := by
  -- every unrolling reads a character before it comes to the next one
  induction n generalizing d e with
  | zero => exact fun c hc => absurd hc (Nat.not_lt_zero _)
  | succ n ih =>
    cases d with
    | zero => omega
    | succ d =>
      cases e with
      | zero => omega
      | succ e =>
        exact h n _ _ (ih (by omega) (by omega)).zero

theorem Guarded.agree_unroll_fix (h : Guarded rule) (n : Nat) :
    Agree 1 n (unroll rule n) (fix rule) := by
  intro c hc
  obtain ⟨heq, hreach⟩ := h.agree_unroll (d := n) (e := c.rest.length + 1) hc (Nat.le_refl _) c
    (Nat.lt_succ_self _)
  exact ⟨heq, hreach⟩

/-- A guarded rule holds of the parser that it describes. -/
theorem fix_apply (h : Guarded rule) (c : Cursor) : fix rule c = rule (fix rule) c := by
  have hfix := (h.agree_unroll_fix c.rest.length).zero
  exact (h _ _ _ hfix c (Nat.lt_succ_self _)).1

/-- The parser that a guarded rule describes reads at least one character. -/
theorem agree_fix (h : Guarded rule) (n : Nat) : Agree 1 n (fix rule) (fix rule) := by
  intro c hc
  obtain ⟨heq, hreach⟩ := h.agree_unroll_fix n c hc
  exact ⟨rfl, fun r hr => hreach r (heq.trans hr)⟩

end Parser

end TypedLambda
