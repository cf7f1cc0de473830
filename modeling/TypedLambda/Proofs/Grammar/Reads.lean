import Mathlib.Data.List.Forall2
import TypedLambda.Grammar.Term
import TypedLambda.Proofs.Grammar.Spelling
import TypedLambda.Proofs.Parser.Repetition

/-!
# Reading sequences of lexemes

What the combinators read at a cursor that spells a sequence of lexemes. Of the alternatives in
front of the one that is taken, most fail at the first lexeme: a parser starts with certain lexemes
only. Repeated parts are joined to the first one, or are items of a list.

## Main definitions

* `Parser.StartsWith`: the lexemes with which a parser can start
* `Parser.ReadsChain`: a first part and further parts that are joined to it

## Main results

* `Parser.Reads.bind`, `Parser.Reads.choice`: sequences and alternatives
* `Parser.ReadsChain.reads`, `Parser.Reads.sepBy_cons`: repeated parts
-/

namespace TypedLambda

namespace Parser

variable [DigitLimit] {α β : Type} {p : Parser α} {c : Cursor} {a : α} {b : β}
  {ls ls' : List Lexeme}

/-! ## Sequences -/

theorem reads_pure (h : c.Spells ls) : Reads (pure a) c a ls :=
  ⟨c, rfl, h⟩

theorem Reads.bind {f : α → Parser β} (h : Reads p c a ls)
    (hf : ∀ c', c'.Spells ls → Reads (f a) c' b ls') : Reads (p >>= f) c b ls' := by
  obtain ⟨c', hp, hc'⟩ := h
  obtain ⟨c'', hfa, hc''⟩ := hf c' hc'
  exact ⟨c'', bind_eq_ok_iff.mpr ⟨a, c', hp, hfa⟩, hc''⟩

theorem Reads.map (h : Reads p c a ls) (f : α → β) : Reads (f <$> p) c (f a) ls :=
  h.bind fun _ hc' => reads_pure hc'

/-- A sequence fails where the rest of it does behind what the first part reads. -/
theorem Reads.fails_bind {f : α → Parser β} (h : Reads p c a ls)
    (hf : ∀ c', c'.Spells ls → Fails (f a) c') : Fails (p >>= f) c := by
  obtain ⟨c', hp, hc'⟩ := h
  exact fails_bind_of_ok hp (hf c' hc')

/-! ## Choice -/

/-- The alternative at place `k` is taken when the ones before it fail. -/
theorem Reads.choice (reason : String) {ps : List (Parser α)} (k : Nat) (hk : ps[k]? = some p)
    (hbefore : ∀ q ∈ ps.take k, Fails q c) (h : Reads p c a ls) :
    Reads (choice reason ps) c a ls := by
  obtain ⟨hlt, hget⟩ := List.getElem?_eq_some_iff.mp hk
  have hsplit : ps = ps.take k ++ p :: ps.drop (k + 1) := by
    rw [← hget, ← List.drop_eq_getElem_cons hlt, List.take_append_drop]
  obtain ⟨c', hp, hc'⟩ := h
  refine ⟨c', ?_, hc'⟩
  rw [hsplit, choice_eq_of_fails _ hbefore (not_fails_of_ok hp), hp]

/-! ## First lexemes -/

/-- The parser fails unless one of these lexemes comes first. -/
def StartsWith (p : Parser α) (first : Lexeme → Bool) : Prop :=
  ∀ c ls, c.Spells ls → ls.head?.any first = false → Fails p c

theorem StartsWith.bind {first : Lexeme → Bool} (h : StartsWith p first) (f : α → Parser β) :
    StartsWith (p >>= f) first :=
  fun c ls hc hfirst => (h c ls hc hfirst).bind f

theorem StartsWith.map {first : Lexeme → Bool} (h : StartsWith p first) (f : α → β) :
    StartsWith (f <$> p) first :=
  h.bind _

theorem StartsWith.afterGap {first : Lexeme → Bool} (h : StartsWith p first) :
    StartsWith (afterGap p) first :=
  fun c ls hc hfirst => h c.skipGap ls hc.skipGap hfirst

/-- At a lexeme with which none of the parsers starts, all of them fail. -/
theorem forall_fails {ps : List (Parser α)} {firsts : List (Lexeme → Bool)}
    (h : List.Forall₂ StartsWith ps firsts) (hc : c.Spells ls)
    (hfirst : ∀ first ∈ firsts, ls.head?.any first = false) : ∀ p ∈ ps, Fails p c := by
  induction h with
  | nil => exact List.forall_mem_nil _
  | @cons p first ps firsts hp _ ih =>
    obtain ⟨hfirst, hfirsts⟩ := List.forall_mem_cons.mp hfirst
    exact List.forall_mem_cons.mpr ⟨hp c ls hc hfirst, ih hfirsts⟩

/-- At a lexeme with which none of the first `k` parsers starts, these fail. -/
theorem fails_take {ps : List (Parser α)} {firsts : List (Lexeme → Bool)}
    (h : List.Forall₂ StartsWith ps firsts) (k : Nat) {l : Lexeme} (hc : c.Spells (l :: ls))
    (hfirst : (firsts.take k).all (fun first => !first l) = true) : ∀ q ∈ ps.take k, Fails q c := by
  refine forall_fails (List.forall₂_take k h) hc fun first hmem => ?_
  have hnot := List.all_eq_true.mp hfirst first hmem
  rw [List.head?_cons, Option.any_some]
  exact Bool.not_eq_true' _ |>.mp hnot

/-- The alternative at place `k` is taken at a lexeme with which none of those before it starts. -/
theorem Reads.choice_of_starts {reason : String} {ps : List (Parser α)}
    {firsts : List (Lexeme → Bool)} (hs : List.Forall₂ StartsWith ps firsts) (k : Nat)
    (hk : ps[k]? = some p) {l : Lexeme} (hc : c.Spells (l :: ls))
    (hfirst : (firsts.take k).all (fun first => !first l) = true) (h : Reads p c a ls') :
    Reads (Parser.choice reason ps) c a ls' :=
  Reads.choice reason k hk (fails_take hs k hc hfirst) h

/-- A choice starts with what its alternatives start with. -/
theorem StartsWith.choice {reason : String} {ps : List (Parser α)}
    {firsts : List (Lexeme → Bool)} (h : List.Forall₂ StartsWith ps firsts) :
    StartsWith (choice reason ps) fun l => firsts.any (· l) := by
  intro c ls hc hfirst
  refine choice_fails (forall_fails h hc fun first hmem => ?_)
  cases hl : ls.head? with
  | none => rfl
  | some l =>
    rw [hl, Option.any_some, List.any_eq_false] at hfirst
    exact (Bool.not_eq_true _).mp (hfirst first hmem)

/-! ## Absent and repeated parts -/

theorem Reads.optional {default : α} (h : Reads p c a ls) : Reads (optional default p) c a ls := by
  obtain ⟨c', hp, hc'⟩ := h
  exact ⟨c', recover_eq_ok_iff.mpr (.inl hp), hc'⟩

/-- At the cursor, a first part and then further parts can be read, which together make `b` and
leave the lexemes `ls`. -/
def ReadsChain (p : Parser β) (q : Parser α) (join : β → α → β) (c : Cursor) (b : β)
    (ls : List Lexeme) : Prop :=
  ∃ b₀ c₁ as c₂, p c = .ok (b₀, c₁) ∧ Repeats q c₁ as c₂ ∧ as.foldl join b₀ = b ∧ c₂.Spells ls

section Chain

variable {q : Parser β} {join : α → β → α}

theorem Reads.chain (h : Reads p c a ls) : ReadsChain p q join c a ls := by
  obtain ⟨c', hp, hc'⟩ := h
  exact ⟨a, c', [], c', hp, .nil c', rfl, hc'⟩

theorem ReadsChain.snoc (h : ReadsChain p q join c a ls)
    (hq : ∀ c', c'.Spells ls → Reads q c' b ls') : ReadsChain p q join c (join a b) ls' := by
  obtain ⟨a₀, c₁, bs, c₂, hp, hbs, rfl, hc₂⟩ := h
  obtain ⟨c₃, hb, hc₃⟩ := hq c₂ hc₂
  exact ⟨a₀, c₁, bs ++ [b], c₃, hp, hbs.snoc hb, List.foldl_concat join a₀ b bs, hc₃⟩

/-- A chain is read to its end where no further part comes. -/
theorem ReadsChain.reads (h : ReadsChain p q join c a ls) (hq : ∀ n, Agree 1 n q q)
    (hfails : ∀ c', c'.Spells ls → Fails q c') :
    Reads (do let a ← p; let bs ← many q; pure (bs.foldl join a)) c a ls := by
  obtain ⟨a₀, c₁, bs, c₂, hp, hbs, rfl, hc₂⟩ := h
  have hmany := hbs.many_eq hq (hfails c₂ hc₂)
  exact ⟨c₂, bind_eq_ok_iff.mpr ⟨a₀, c₁, hp, bind_eq_ok_iff.mpr ⟨bs, c₂, hmany, rfl⟩⟩, hc₂⟩

end Chain

/-- When no separator comes, a list has no more parts. -/
theorem Reads.sepBy_one {sep : Parser Unit} (h : Reads p c a ls)
    (hsep : ∀ c', c'.Spells ls → Fails sep c') : Reads (sepBy p sep) c (a, []) ls :=
  h.bind fun c' hc' =>
    have hnil := many_of_fails (((hsep c' hc').bind fun _ => p))
    ⟨c', bind_eq_ok_iff.mpr ⟨[], c', hnil, rfl⟩, hc'⟩

/-- Behind a separator the list goes on as another list. -/
theorem Reads.sepBy_cons {sep : Parser Unit} (hp : ∀ n, Agree 1 n p p)
    (hsep : ∀ n, Agree 0 n sep sep) {ls₁ : List Lexeme} {bs : List α} {a₁ : α}
    (h : Reads p c a ls) (hs : ∀ c', c'.Spells ls → Reads sep c' () ls₁)
    (hrest : ∀ c', c'.Spells ls₁ → Reads (sepBy p sep) c' (a₁, bs) ls') :
    Reads (sepBy p sep) c (a, a₁ :: bs) ls' := by
  obtain ⟨c₁, ha, hc₁⟩ := h
  obtain ⟨c₂, hsep₂, hc₂⟩ := hs c₁ hc₁
  obtain ⟨c', hlist, hc'⟩ := hrest c₂ hc₂
  obtain ⟨_, c₃, ha₁, hmany⟩ := bind_eq_ok_iff.mp hlist
  obtain ⟨_, c₄, hbs, heq⟩ := bind_eq_ok_iff.mp hmany
  rw [pure_apply] at heq
  obtain ⟨hpair, rfl⟩ := Prod.mk.inj (Except.ok.inj heq)
  obtain ⟨rfl, rfl⟩ := Prod.mk.inj hpair
  have hitem : (do sep; p) c₁ = .ok (_, c₃) := bind_eq_ok_iff.mpr ⟨(), c₂, hsep₂, ha₁⟩
  have hgo := many_of_ok (fun n => (hsep n).seq fun _ => hp n) hitem hbs
  exact ⟨c₄, bind_eq_ok_iff.mpr ⟨a, c₁, ha, bind_eq_ok_iff.mpr ⟨_, c₄, hgo, rfl⟩⟩, hc'⟩

end Parser

end TypedLambda
