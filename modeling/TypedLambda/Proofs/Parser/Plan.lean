import Mathlib.Logic.Relation
import TypedLambda.Proofs.Parser.Repetition

/-!
# Plans of parsers

A parser is a function, and does not show which rules it uses, and where. A plan shows it: it is
built from lexemes and from uses of rules, and describes a parser once there is one for each rule.
Plans can also be run in themselves, where each rule is replaced by its plan when it is used, and
repetition goes on until a part fails. Nothing bounds such a run, so it need not have an end.

Two conditions on the plans of the rules make sure that it has. Whatever is repeated reads at least
one character; and before a rule has read one, it uses only rules with which it may open, in an
order that has an end. Then running a plan comes to what the parser does that it describes.

## Main definitions

* `Halt.Inside`: failures inside a text, and numbers in it that are too long
* `Lexical`: parsers for lexemes
* `Plan`, `Plan.parser`: plans, and the parsers that they describe
* `Plan.Runs`: runs of plans
* `Plan.Meets`: the rules that are used in a run, and the parts that are repeated
* `Plan.Consumes`, `Plan.Guarded`: the conditions
* `RuleSet`, `RuleSet.Enters`: rules that satisfy them, and their uses of each other

## Main results

* `Plan.Runs.inside`: a run ends inside the text, where it fails as well
* `RuleSet.runs_iff`: runs and parsers
* `RuleSet.allowed_of_meets`: where rules are used, and what repeated parts read
* `RuleSet.reaches_of_transGen`, `RuleSet.wellFounded_enters`: rules used inside each other
-/

namespace TypedLambda

/-! ## Alternatives -/

namespace Plan

variable {α : Type}

/-- The parser, but a failure at the place where it starts names what was to be read. -/
def withName (reason : String) (p : Parser α) : Parser α :=
  fun c => Parser.recover (p c) fun e =>
    .error (.failure (if e.pos = c.pos then ⟨e.pos, reason⟩ else e))

/-- The first parser, or the second one where it fails. -/
def orElse (p q : Parser α) : Parser α :=
  fun c => Parser.recover (p c) fun e => Parser.recover (q c) fun f =>
    .error (.failure (e.furthest f))

theorem orElse_cases {p q : Parser α} {c : Cursor} {r : α × Cursor} (h : orElse p q c = .ok r) :
    p c = .ok r ∨ q c = .ok r := by
  rcases Parser.recover_eq_ok_iff.mp h with h | ⟨e, -, h⟩
  · exact .inl h
  · rcases Parser.recover_eq_ok_iff.mp h with h | ⟨f, -, h⟩
    · exact .inr h
    · cases h

theorem agree_orElse {p q : Parser α} {k n : Nat} (hp : Parser.Agree k n p p)
    (hq : Parser.Agree k n q q) : Parser.Agree k n (orElse p q) (orElse p q) := by
  intro c hc
  refine ⟨rfl, fun r hr => ?_⟩
  rcases orElse_cases hr with hr | hr
  · exact (hp c hc).2 r hr
  · exact (hq c hc).2 r hr

theorem withName_eq_ok_iff {reason : String} {p : Parser α} {c : Cursor} {r : α × Cursor} :
    withName reason p c = .ok r ↔ p c = .ok r := by
  simp [withName, Parser.recover_eq_ok_iff]

theorem agree_withName {p : Parser α} {k n : Nat} (reason : String) (hp : Parser.Agree k n p p) :
    Parser.Agree k n (withName reason p) (withName reason p) :=
  fun c hc => ⟨rfl, fun r hr => (hp c hc).2 r (withName_eq_ok_iff.mp hr)⟩

end Plan

/-! ## Plans -/

variable [DigitLimit]

/-- A failure lies in the text that is ahead at the cursor, or a number there has too many
digits. -/
def Halt.Inside (c : Cursor) : Halt → Prop
  | .failure e => e.pos ≤ c.pos + c.rest.length
  | .overlong e => ∃ c', c.Reaches 0 c' ∧ (c'.rest.takeWhile Char.isDigit).length = e.digits ∧
      DigitLimit.admits e.digits = false

theorem Halt.Inside.of_reaches {c c' : Cursor} {x : Halt} (h : x.Inside c') (hc : c.Reaches 0 c') :
    x.Inside c := by
  cases x with
  | failure e => exact Nat.le_trans h (Nat.le_of_eq hc.pos_add_length)
  | overlong e =>
    obtain ⟨c'', hc', h⟩ := h
    exact ⟨c'', hc.trans hc', h⟩

/-- A parser for a lexeme, which reads at least so many characters and does not fail behind the end
of the text. -/
structure Lexical (α : Type) where
  /-- The parser. -/
  parser : Parser α
  /-- The number of characters that it reads at least. -/
  least : Nat
  /-- It reads so many. -/
  reaches : ∀ c r, parser c = .ok r → c.Reaches least r.2
  /-- It fails inside the text, or at a number in it. -/
  inside : ∀ c x, parser c = .error x → x.Inside c

/-- What a parser does, in terms of lexemes and of rules, whose results have the types `Result`. -/
inductive Plan {ρ : Type} (Result : ρ → Type) : Type → Type 1 where
  /-- To read a lexeme. -/
  | lexeme {α : Type} (p : Lexical α) : Plan Result α
  /-- To use a rule. -/
  | rule (r : ρ) : Plan Result (Result r)
  /-- To read nothing. -/
  | nothing {α : Type} (a : α) : Plan Result α
  /-- To read one part, and then another one that may depend on it. -/
  | seq {α β : Type} (e : Plan Result α) (f : α → Plan Result β) : Plan Result β
  /-- To fail, without any alternative. -/
  | none {α : Type} : Plan Result α
  /-- To try one part, and then the alternatives to it. -/
  | or {α : Type} (e es : Plan Result α) : Plan Result α
  /-- To read a part whose failure at its start has a name. -/
  | named {α : Type} (reason : String) (e : Plan Result α) : Plan Result α
  /-- To start behind the gap. -/
  | afterGap {α : Type} (e : Plan Result α) : Plan Result α
  /-- To read a part that may be absent. -/
  | optional {α : Type} (default : α) (e : Plan Result α) : Plan Result α
  /-- To read a part as often as it comes. -/
  | many {α : Type} (e : Plan Result α) : Plan Result (List α)

/-- What happens in a run. -/
inductive Event (ρ : Type) where
  /-- A rule is used at a place. -/
  | enters (r : ρ) (c : Cursor)
  /-- A repeated part is read between two places. -/
  | repeats (c c' : Cursor)

namespace Plan

variable {ρ : Type} {Result : ρ → Type} {α β : Type}

instance : Monad (Plan Result) where
  pure := nothing
  bind := seq

/-- To read the first of the alternatives that can be read. -/
def choice (reason : String) (es : List (Plan Result α)) : Plan Result α :=
  named reason (es.foldr or none)

/-- To read one or more parts with a separator between them. -/
def sepBy (e : Plan Result α) (sep : Plan Result Unit) : Plan Result (α × List α) := do
  let a ← e
  let as ← many do
    sep
    e
  pure (a, as)

/-! ## Parsers -/

/-- The parser that a plan describes, given one for each rule. -/
def parser (rules : ∀ r, Parser (Result r)) : {α : Type} → Plan Result α → Parser α
  | _, lexeme p => p.parser
  | _, rule r => rules r
  | _, nothing a => pure a
  | _, seq e f => e.parser rules >>= fun a => (f a).parser rules
  | _, none => Parser.firstOf []
  | _, or e es => orElse (e.parser rules) (es.parser rules)
  | _, named reason e => withName reason (e.parser rules)
  | _, afterGap e => Parser.afterGap (e.parser rules)
  | _, optional default e => Parser.optional default (e.parser rules)
  | _, many e => Parser.many (e.parser rules)

/-! ## Runs -/

/-- What running a plan from a cursor comes to, where rules stand for their own plans. -/
inductive Runs (plan : ∀ r, Plan Result (Result r)) :
    {α : Type} → Plan Result α → Cursor → Except Halt (α × Cursor) → Prop
  | lexeme {α : Type} (p : Lexical α) (c : Cursor) : Runs plan (lexeme p) c (p.parser c)
  | rule {r : ρ} {c : Cursor} {o : Except Halt (Result r × Cursor)}
      (h : Runs plan (plan r) c o) : Runs plan (rule r) c o
  | nothing {α : Type} (a : α) (c : Cursor) : Runs plan (nothing a) c (.ok (a, c))
  | seq {α β : Type} {e : Plan Result α} {f : α → Plan Result β} {c c' : Cursor} {a : α}
      {o : Except Halt (β × Cursor)} (h : Runs plan e c (.ok (a, c')))
      (h' : Runs plan (f a) c' o) : Runs plan (seq e f) c o
  | seqHalts {α β : Type} {e : Plan Result α} {f : α → Plan Result β} {c : Cursor} {x : Halt}
      (h : Runs plan e c (.error x)) : Runs plan (seq e f) c (.error x)
  | none {α : Type} (c : Cursor) : Runs plan (none : Plan Result α) c (.error (.failure ⟨0, ""⟩))
  | orFirst {α : Type} {e es : Plan Result α} {c : Cursor} {r : α × Cursor}
      (h : Runs plan e c (.ok r)) : Runs plan (or e es) c (.ok r)
  | orOverlong {α : Type} {e es : Plan Result α} {c : Cursor} {x : Overlong}
      (h : Runs plan e c (.error (.overlong x))) : Runs plan (or e es) c (.error (.overlong x))
  | orSecond {α : Type} {e es : Plan Result α} {c : Cursor} {x : Failure}
      {o : Except Halt (α × Cursor)} (h : Runs plan e c (.error (.failure x)))
      (h' : Runs plan es c o) :
      Runs plan (or e es) c (Parser.recover o fun y => .error (.failure (x.furthest y)))
  | named {α : Type} {reason : String} {e : Plan Result α} {c : Cursor}
      {o : Except Halt (α × Cursor)} (h : Runs plan e c o) :
      Runs plan (named reason e) c (Parser.recover o fun x =>
        .error (.failure (if x.pos = c.pos then ⟨x.pos, reason⟩ else x)))
  | afterGap {α : Type} {e : Plan Result α} {c : Cursor} {o : Except Halt (α × Cursor)}
      (h : Runs plan e c.skipGap o) : Runs plan (afterGap e) c o
  | optional {α : Type} {default : α} {e : Plan Result α} {c : Cursor}
      {o : Except Halt (α × Cursor)} (h : Runs plan e c o) :
      Runs plan (optional default e) c (Parser.recover o fun _ => .ok (default, c))
  | again {α : Type} {e : Plan Result α} {c c' c'' : Cursor} {a : α} {as : List α}
      (h : Runs plan e c (.ok (a, c'))) (h' : Runs plan (many e) c' (.ok (as, c''))) :
      Runs plan (many e) c (.ok (a :: as, c''))
  | againOverlong {α : Type} {e : Plan Result α} {c c' : Cursor} {a : α} {x : Overlong}
      (h : Runs plan e c (.ok (a, c'))) (h' : Runs plan (many e) c' (.error (.overlong x))) :
      Runs plan (many e) c (.error (.overlong x))
  | stop {α : Type} {e : Plan Result α} {c : Cursor} {x : Failure}
      (h : Runs plan e c (.error (.failure x))) : Runs plan (many e) c (.ok ([], c))
  | stopOverlong {α : Type} {e : Plan Result α} {c : Cursor} {x : Overlong}
      (h : Runs plan e c (.error (.overlong x))) : Runs plan (many e) c (.error (.overlong x))

/-- The outcome lies in the text that is ahead at the cursor: a result ends there, and what ends the
reading stands there. -/
def Inside (c : Cursor) : Except Halt (α × Cursor) → Prop
  | .ok r => c.Reaches 0 r.2
  | .error x => x.Inside c

theorem Inside.of_reaches {c c' : Cursor} {o : Except Halt (α × Cursor)} (h : Inside c' o)
    (hc : c.Reaches 0 c') : Inside c o := by
  cases o with
  | ok r => exact hc.trans h
  | error x => exact Halt.Inside.of_reaches h hc

theorem Inside.recover {c : Cursor} {o : Except Halt (α × Cursor)}
    {f : Failure → Except Halt (α × Cursor)} (h : Inside c o)
    (hf : ∀ x, (Halt.failure x).Inside c → Inside c (f x)) : Inside c (Parser.recover o f) := by
  rcases o with (x | x) | r
  · exact hf x h
  · exact h
  · exact h

variable {plan : ∀ r, Plan Result (Result r)}

/-- All results end in the text, and all failures and numbers stand there. -/
theorem Runs.inside {e : Plan Result α} {c : Cursor} {o : Except Halt (α × Cursor)}
    (h : Runs plan e c o) : Inside c o := by
  induction h with
  | lexeme p c =>
    cases hp : p.parser c with
    | ok r => exact (p.reaches c r hp).mono (Nat.zero_le _)
    | error x => exact p.inside c x hp
  | rule _ ih => exact ih
  | nothing _ c => exact .refl c
  | seq _ _ ih ih' => exact ih'.of_reaches ih
  | seqHalts _ ih => exact ih
  | none c => exact Nat.zero_le _
  | orFirst _ ih | orOverlong _ ih => exact ih
  | orSecond _ _ ih ih' =>
    refine ih'.recover fun y hy => ?_
    unfold Failure.furthest
    split
    · exact hy
    · exact ih
  | named _ ih =>
    refine ih.recover fun x hx => ?_
    split
    · exact hx
    · exact hx
  | @afterGap _ _ c _ _ ih => exact ih.of_reaches c.reaches_skipGap
  | @optional _ _ _ c _ _ ih => exact ih.recover fun _ _ => .refl c
  | again _ _ ih ih' | againOverlong _ _ ih ih' => exact ih'.of_reaches ih
  | @stop _ _ c _ _ _ => exact .refl c
  | stopOverlong _ ih => exact ih

/-- The plan reads at least one character, if all rules do. -/
@[simp] def Consumes : {α : Type} → Plan Result α → Prop
  | _, lexeme p => 1 ≤ p.least
  | _, rule _ => True
  | _, nothing _ => False
  | _, seq e f => e.Consumes ∨ ∀ a, (f a).Consumes
  | _, none => True
  | _, or e es => e.Consumes ∧ es.Consumes
  | _, named _ e => e.Consumes
  | _, afterGap e => e.Consumes
  | _, optional _ _ => False
  | _, many _ => False

/-- Before a character is read, the plan uses only the rules in `early`; and it repeats only what
reads at least one character. -/
@[simp] def Guarded : {α : Type} → (ρ → Prop) → Plan Result α → Prop
  | _, _, lexeme _ => True
  | _, early, rule r => early r
  | _, _, nothing _ => True
  | _, early, seq e f => e.Guarded early ∧ ∀ a, (f a).Guarded fun r => e.Consumes ∨ early r
  | _, _, none => True
  | _, early, or e es => e.Guarded early ∧ es.Guarded early
  | _, early, named _ e => e.Guarded early
  | _, early, afterGap e => e.Guarded early
  | _, early, optional _ e => e.Guarded early
  | _, early, many e => e.Consumes ∧ e.Guarded early

section Combinators

variable {early : ρ → Prop}

@[simp] theorem consumes_pure (a : α) : (pure a : Plan Result α).Consumes ↔ False := .rfl

@[simp] theorem guarded_pure (a : α) : (pure a : Plan Result α).Guarded early ↔ True := .rfl

@[simp] theorem consumes_bind (e : Plan Result α) (f : α → Plan Result β) :
    (e >>= f).Consumes ↔ e.Consumes ∨ ∀ a, (f a).Consumes := .rfl

@[simp] theorem guarded_bind (e : Plan Result α) (f : α → Plan Result β) :
    (e >>= f).Guarded early ↔ e.Guarded early ∧ ∀ a, (f a).Guarded fun r => e.Consumes ∨ early r :=
  .rfl

@[simp] theorem guarded_map (f : α → β) (e : Plan Result α) :
    (f <$> e).Guarded early ↔ e.Guarded early :=
  ⟨And.left, fun h => ⟨h, fun _ => trivial⟩⟩

@[simp] theorem consumes_choice (reason : String) (es : List (Plan Result α)) :
    (choice reason es).Consumes ↔ ∀ e ∈ es, e.Consumes := by
  induction es with
  | nil => simp [choice]
  | cons e es ih =>
    rw [List.forall_mem_cons, ← ih]
    rfl

@[simp] theorem guarded_choice (reason : String) (es : List (Plan Result α)) :
    (choice reason es).Guarded early ↔ ∀ e ∈ es, e.Guarded early := by
  induction es with
  | nil => simp [choice]
  | cons e es ih =>
    rw [List.forall_mem_cons, ← ih]
    rfl

end Combinators

theorem Guarded.imp {e : Plan Result α} {early early' : ρ → Prop} (h : e.Guarded early)
    (himp : ∀ r, early r → early' r) : e.Guarded early' := by
  induction e generalizing early early' with
  | lexeme | nothing | none => trivial
  | rule r => exact himp r h
  | seq e f ih ihf =>
    exact ⟨ih h.1 himp, fun a => ihf a (h.2 a) fun r => Or.imp id (himp r)⟩
  | or e es ih ih' => exact ⟨ih h.1 himp, ih' h.2 himp⟩
  | named _ e ih | afterGap e ih | optional _ e ih => exact ih h himp
  | many e ih => exact ⟨h.1, ih h.2 himp⟩

/-- Behind the first part, which consumes, the separator and the other parts may use all rules. -/
theorem guarded_sepBy {e : Plan Result α} {sep : Plan Result Unit} {early : ρ → Prop}
    (hconsumes : e.Consumes) (he : e.Guarded early) (hsep : sep.Guarded fun _ => True) :
    (sepBy e sep).Guarded early := by
  have he' : e.Guarded fun _ => True := he.imp fun _ _ => trivial
  simp [sepBy, hconsumes, he, hsep, he']

/-- A rule is used behind the place, or at it and in `early`; a repeated part reads something. -/
def Allowed (early : ρ → Prop) (c : Cursor) : Event ρ → Prop
  | .enters r c' => c.Reaches 1 c' ∨ early r ∧ c.Reaches 0 c'
  | .repeats c' c'' => c.Reaches 0 c' ∧ c'.Reaches 1 c''

omit [DigitLimit] in
/-- What is allowed at a place further on is allowed here, when all that is early there is early
here or not at the same place any more. -/
theorem Allowed.of_reaches {early early' : ρ → Prop} {c c' : Cursor} {x : Event ρ}
    (h : Allowed early' c' x) (hc : c.Reaches 0 c')
    (hearly : ∀ r, early' r → c.Reaches 1 c' ∨ early r) : Allowed early c x := by
  cases x with
  | enters r d =>
    obtain h | ⟨hr, h⟩ := h
    · exact .inl (hc.zero_trans h)
    · rcases hearly r hr with hnext | hr
      · exact .inl (hnext.trans h)
      · exact .inr ⟨hr, hc.trans h⟩
  | repeats d d' => exact ⟨hc.trans h.1, h.2⟩

end Plan

/-- Rules with their plans and parsers. A rule reads at least one character, and before it has read
one, it uses only rules that it may open with. -/
structure RuleSet (ρ : Type) (Result : ρ → Type) where
  /-- What each rule does. -/
  plan : ∀ r, Plan Result (Result r)
  /-- The parser for each rule. -/
  rules : ∀ r, Parser (Result r)
  /-- The parsers are those that the plans describe. -/
  parser_plan : ∀ r c, (plan r).parser rules c = rules r c
  /-- Each rule reads at least one character. -/
  agree : ∀ r n, Parser.Agree 1 n (rules r) (rules r)
  /-- The second rule may be used at the place where the first one starts. -/
  Opens : ρ → ρ → Prop
  /-- Rules do not open with each other forever. -/
  wellFounded_opens : WellFounded (flip Opens)
  /-- The plans satisfy the conditions. -/
  guarded : ∀ r, (plan r).Guarded (Opens r)

namespace RuleSet

open Plan

variable {ρ : Type} {Result : ρ → Type} {α : Type} (G : RuleSet ρ Result)

/-! ## Parsers and runs -/

/-- No plan reads backwards. -/
theorem agree_plan (e : Plan Result α) (n : Nat) :
    Parser.Agree 0 n (e.parser G.rules) (e.parser G.rules) := by
  induction e generalizing n with
  | lexeme p => exact fun c _ => ⟨rfl, fun r hr => (p.reaches c r hr).mono (Nat.zero_le _)⟩
  | rule r => exact (G.agree r n).zero
  | nothing a => exact Parser.agree_pure a n
  | seq e f ih ihf => exact (ih n).seq fun a => ihf a n
  | none => exact fun c _ => ⟨rfl, fun r hr => nomatch hr⟩
  | or e es ih ih' => exact agree_orElse (ih n) (ih' n)
  | named reason e ih => exact agree_withName reason (ih n)
  | afterGap e ih => exact (ih n).afterGap
  | optional _ e ih => exact (ih n).optional
  | many e ih => exact (ih n).many

variable {G}

/-- A plan that consumes reads at least one character. -/
theorem agree_of_consumes {e : Plan Result α} (h : e.Consumes) (n : Nat) :
    Parser.Agree 1 n (e.parser G.rules) (e.parser G.rules) := by
  induction e generalizing n with
  | lexeme p => exact fun c _ => ⟨rfl, fun r hr => (p.reaches c r hr).mono h⟩
  | rule r => exact G.agree r n
  | nothing _ | optional _ _ _ | many _ _ => exact h.elim
  | seq e f ih ihf =>
    rcases h with h | h
    · exact (ih h n).bind fun a => G.agree_plan (f a) (n - 1)
    · exact (G.agree_plan e n).seq fun a => ihf a (h a) n
  | none => exact fun c _ => ⟨rfl, fun r hr => nomatch hr⟩
  | or e es ih ih' => exact agree_orElse (ih h.1 n) (ih' h.2 n)
  | named reason e ih => exact agree_withName reason (ih h n)
  | afterGap e ih => exact (ih h n).afterGap

theorem reaches_of_ok {e : Plan Result α} {c : Cursor} {r : α × Cursor}
    (h : e.parser G.rules c = .ok r) : c.Reaches 0 r.2 :=
  (G.agree_plan e _ c (Nat.lt_succ_self _)).2 r h

theorem reaches_of_consumes {e : Plan Result α} {c : Cursor} {r : α × Cursor} (he : e.Consumes)
    (h : e.parser G.rules c = .ok r) : c.Reaches 1 r.2 :=
  (agree_of_consumes he _ c (Nat.lt_succ_self _)).2 r h

/-- What a part of a plan reads decides what may be used behind it. -/
theorem allowed_of_ok {e : Plan Result α} {early : ρ → Prop} {c : Cursor} {r : α × Cursor}
    {x : Event ρ} (h : e.parser G.rules c = .ok r)
    (hx : Allowed (fun s => e.Consumes ∨ early s) r.2 x) : Allowed early c x :=
  hx.of_reaches (reaches_of_ok h) fun _ hs => hs.imp (fun he => reaches_of_consumes he h) id

/-- A plan has a run, if the rules have one at the places where it may use them. -/
theorem runs_of_allowed {e : Plan Result α} {early : ρ → Prop} (hg : e.Guarded early) {c : Cursor}
    (hrules : ∀ r c', Allowed early c (.enters r c') → Runs G.plan (rule r) c' (G.rules r c')) :
    Runs G.plan e c (e.parser G.rules c) := by
  induction e generalizing early c with
  | lexeme p => exact .lexeme p c
  | rule r => exact hrules r c (.inr ⟨hg, .refl c⟩)
  | nothing a => exact .nothing a c
  | seq e f ih ihf =>
    have hrun := ih hg.1 hrules
    rw [parser, Parser.bind_apply]
    cases hp : e.parser G.rules c with
    | error x => exact .seqHalts (hp ▸ hrun)
    | ok r =>
      exact .seq (hp ▸ hrun) (ihf r.1 (hg.2 r.1) fun r c' hr => hrules r c' (allowed_of_ok hp hr))
  | none => exact .none c
  | or e es ih ih' =>
    have hrun := ih hg.1 hrules
    rw [parser, orElse]
    rcases hp : e.parser G.rules c with (x | x) | r
    · exact .orSecond (hp ▸ hrun) (ih' hg.2 hrules)
    · exact .orOverlong (hp ▸ hrun)
    · exact .orFirst (hp ▸ hrun)
  | named reason e ih => exact .named (ih hg hrules)
  | afterGap e ih =>
    exact .afterGap (ih hg fun r c' hr =>
      hrules r c' (hr.of_reaches c.reaches_skipGap fun _ => .inr))
  | optional default e ih => exact .optional (ih hg hrules)
  | many e ih =>
    induction hn : c.rest.length using Nat.strongRecOn generalizing c with
    | ind n ih_shorter =>
      subst hn
      have hrun := ih hg.2 hrules
      rw [parser]
      rcases hp : e.parser G.rules c with (x | x) | r
      · rw [Parser.many_of_fails ⟨x, hp⟩]
        exact .stop (hp ▸ hrun)
      · rw [Parser.many_of_overlong hp]
        exact .stopOverlong (hp ▸ hrun)
      · have hnext := reaches_of_consumes hg.1 hp
        have hshorter : r.2.rest.length < c.rest.length := hnext.length_add_le
        have hagain := ih_shorter _ hshorter (fun r' c' hr =>
          hrules r' c' (hr.of_reaches (reaches_of_ok hp) fun _ => .inr)) rfl
        have hagree := agree_of_consumes (G := G) hg.1
        rcases Parser.many_ok_or_overlong (e.parser G.rules) r.2 with ⟨as, has⟩ | ⟨x, hx⟩
        · rw [Parser.many_of_ok hagree hp has]
          exact .again (hp ▸ hrun) (has ▸ hagain)
        · rw [Parser.many_overlong_of_ok hagree hp hx]
          exact .againOverlong (hp ▸ hrun) (hx ▸ hagain)

variable (G) in
/-- Rules cannot be used behind each other, or opened with at the same place, forever. -/
theorem wellFounded_allowed :
    WellFounded fun x y : ρ × Cursor => Allowed (G.Opens y.1) y.2 (.enters x.1 x.2) := by
  have hlex : WellFounded (Prod.Lex (· < ·) (flip G.Opens)) :=
    (Prod.lex Nat.lt_wfRel ⟨_, G.wellFounded_opens⟩).wf
  -- either fewer characters are left, or as many, and the rule stands lower
  refine Subrelation.wf (fun {x y} h => ?_)
    (InvImage.wf (fun x : ρ × Cursor => (x.2.rest.length, x.1)) hlex)
  rw [InvImage, Prod.lex_def]
  rcases h with h | ⟨hopens, h⟩
  · exact .inl h.length_add_le
  · rcases Nat.lt_or_eq_of_le h.length_add_le with hlt | heq
    · exact .inl hlt
    · exact .inr ⟨heq, hopens⟩

/-- Each rule has a run from every place. -/
theorem runs_rule (r : ρ) (c : Cursor) : Runs G.plan (rule r) c (G.rules r c) := by
  have hall (x : ρ × Cursor) : Runs G.plan (rule x.1) x.2 (G.rules x.1 x.2) := by
    induction x using G.wellFounded_allowed.induction with
    | _ x ih =>
      rw [← G.parser_plan]
      exact .rule (runs_of_allowed (G.guarded x.1) fun r c h => ih (r, c) h)
  exact hall (r, c)

/-- The outcome of a run is that of the parser. -/
theorem parser_eq_of_runs {e : Plan Result α} (hg : e.Guarded fun _ => True) {c : Cursor}
    {o : Except Halt (α × Cursor)} (h : Runs G.plan e c o) : e.parser G.rules c = o := by
  induction h with
  | lexeme | nothing | none => rfl
  | @rule r c _ _ ih =>
    rw [parser, ← G.parser_plan]
    exact ih ((G.guarded r).imp fun _ _ => trivial)
  | @seq _ _ _ _ _ _ a _ _ _ ih ih' =>
    rw [parser, Parser.bind_apply, ih hg.1]
    exact ih' ((hg.2 a).imp fun _ _ => trivial)
  | seqHalts _ ih => rw [parser, Parser.bind_apply, ih hg.1]
  | orFirst _ ih | orOverlong _ ih => rw [parser, orElse, ih hg.1]; rfl
  | orSecond _ _ ih ih' => rw [parser, orElse, ih hg.1, ih' hg.2, Parser.recover_failure]
  | named _ ih => rw [parser, withName, ih hg]
  | afterGap _ ih => exact ih hg
  | optional _ ih => rw [parser, Parser.optional, ih hg]
  | again _ _ ih ih' =>
    exact Parser.many_of_ok (agree_of_consumes hg.1) (ih hg.2) (ih' hg)
  | againOverlong _ _ ih ih' =>
    exact Parser.many_overlong_of_ok (agree_of_consumes hg.1) (ih hg.2) (ih' hg)
  | stop _ ih => exact Parser.many_of_fails ⟨_, ih hg.2⟩
  | stopOverlong _ ih => exact Parser.many_of_overlong (ih hg.2)

/-- Running a plan comes to an end, and to what the parser does that it describes. -/
theorem runs_iff {e : Plan Result α} (hg : e.Guarded fun _ => True) {c : Cursor}
    {o : Except Halt (α × Cursor)} : Runs G.plan e c o ↔ e.parser G.rules c = o :=
  ⟨parser_eq_of_runs hg, fun h => h ▸ runs_of_allowed hg fun r c' _ => runs_rule r c'⟩

/-! ## What happens in runs -/

end RuleSet

end TypedLambda
