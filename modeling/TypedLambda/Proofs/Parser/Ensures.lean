import TypedLambda.Parser.Basic

/-!
# What a parser comes to

Facts about all results of a parser, and about the places where its reading ends. They hold from
certain places only, such as those in front of which no word has just ended; so a fact is carried
through a sequence with what its parts know of the place between them. Recursive rules need no
guard: a fact that a rule hands on holds of its unrolling to any depth.

## Main definitions

* `Parser.Ensures`: what holds of the results and the end of a parser

## Main results

* `Parser.Ensures.bind`, `Parser.Ensures.or`, `Parser.Ensures.many`: the combinators
* `Parser.Ensures.fix`: recursive rules
-/

namespace TypedLambda

namespace Parser

variable {α β : Type} {Pre Mid Post : Cursor → Prop} {P : α → Prop} {Q : β → Prop}
  {p : Parser α}

/-- Where the parser succeeds from a place in `Pre`, its result is in `P` and the place where it
ends is in `Post`. -/
def Ensures (Pre : Cursor → Prop) (p : Parser α) (P : α → Prop) (Post : Cursor → Prop) : Prop :=
  ∀ c r, Pre c → p c = .ok r → P r.1 ∧ Post r.2

/-- What holds from some places holds from fewer. -/
theorem Ensures.of_imp {Pre' : Cursor → Prop} (h : Ensures Pre p P Post)
    (hpre : ∀ c, Pre' c → Pre c) : Ensures Pre' p P Post :=
  fun c r hc hr => h c r (hpre c hc) hr

/-- Some of what is known of the end may be forgotten. -/
theorem Ensures.imp_end {Post' : Cursor → Prop} (h : Ensures Pre p P Post)
    (hpost : ∀ c, Post c → Post' c) : Ensures Pre p P Post' :=
  fun c r hc hr => ⟨(h c r hc hr).1, hpost r.2 (h c r hc hr).2⟩

/-! ## Combinators -/

theorem ensures_pure {a : α} (ha : P a) : Ensures Pre (pure a) P Pre := by
  intro c r hc hr
  obtain rfl := Except.ok.inj hr
  exact ⟨ha, hc⟩

/-- What the first part comes to is there for the second. -/
theorem Ensures.bind {f : α → Parser β} (h : Ensures Pre p P Mid)
    (hf : ∀ a, P a → Ensures Mid (f a) Q Post) : Ensures Pre (p >>= f) Q Post := by
  intro c r hc hr
  obtain ⟨a, c', ha, hr⟩ := bind_eq_ok_iff.mp hr
  obtain ⟨hP, hmid⟩ := h c (a, c') hc ha
  exact hf a hP c' r hmid hr

theorem Ensures.map {f : α → β} (h : Ensures Pre p P Post) (hf : ∀ a, P a → Q (f a)) :
    Ensures Pre (f <$> p) Q Post :=
  h.bind fun a ha => ensures_pure (hf a ha)

theorem ensures_firstOf_nil : Ensures Pre (firstOf []) P Post :=
  fun _ _ _ hr => nomatch hr

/-- One alternative more. -/
theorem Ensures.or {ps : List (Parser α)} (h : Ensures Pre p P Post)
    (hps : Ensures Pre (firstOf ps) P Post) : Ensures Pre (firstOf (p :: ps)) P Post := by
  intro c r hc hr
  rcases ok_or_ok_of_firstOf hr with hr | hr
  · exact h c r hc hr
  · exact hps c r hc hr

theorem Ensures.choice {reason : String} {ps : List (Parser α)}
    (h : Ensures Pre (firstOf ps) P Post) : Ensures Pre (choice reason ps) P Post :=
  fun c r hc hr => h c r hc (choice_eq_ok_iff.mp hr)

theorem Ensures.afterGap (h : Ensures Mid p P Post) (hgap : ∀ c, Pre c → Mid c.skipGap) :
    Ensures Pre (afterGap p) P Post :=
  fun c r hc hr => h c.skipGap r (hgap c hc) hr

theorem Ensures.optional {default : α} (h : Ensures Pre p P Post) (hd : P default)
    (hpost : ∀ c, Pre c → Post c) : Ensures Pre (optional default p) P Post := by
  intro c r hc hr
  rcases optional_cases hr with hr | ⟨-, rfl⟩
  · exact h c r hc hr
  · exact ⟨hd, hpost c hc⟩

/-- A part may be repeated when it ends at a place from where it may start. -/
theorem Ensures.many (h : Ensures Pre p P Pre) :
    Ensures Pre (many p) (fun as => ∀ a ∈ as, P a) Pre := by
  have within (bound : Nat) :
      Ensures Pre (manyWithin p bound) (fun as => ∀ a ∈ as, P a) Pre := by
    induction bound with
    | zero => exact ensures_pure (List.forall_mem_nil P)
    | succ bound ih =>
      have hmore : Ensures Pre (do
          let a ← p
          let as ← manyWithin p bound
          pure (a :: as)) (fun as => ∀ a ∈ as, P a) Pre :=
        h.bind fun a ha => ih.bind fun as has => ensures_pure (List.forall_mem_cons.mpr ⟨ha, has⟩)
      exact hmore.optional (List.forall_mem_nil P) fun _ hc => hc
  exact fun c r hc hr => within _ c r hc hr

/-- A separator brings every part behind it to a place where parts may start. -/
theorem Ensures.sepBy {sep : Parser Unit} (h : Ensures Pre p P Post)
    (hsep : Ensures Post sep (fun _ => True) Pre) :
    Ensures Pre (sepBy p sep) (fun r => P r.1 ∧ ∀ a ∈ r.2, P a) Post := by
  have hitem : Ensures Post (do sep; p) P Post := hsep.bind fun _ _ => h
  exact h.bind fun a ha => hitem.many.bind fun as has => ensures_pure ⟨ha, has⟩

/-! ## Rules -/

theorem Ensures.fix {rule : Parser α → Parser α}
    (h : ∀ p, Ensures Pre p P Post → Ensures Pre (rule p) P Post) :
    Ensures Pre (fix rule) P Post := by
  have unrolled (depth : Nat) : Ensures Pre (unroll rule depth) P Post := by
    induction depth with
    | zero => exact fun c r _ hr => nomatch hr
    | succ depth ih => exact h _ ih
  exact fun c r hc hr => unrolled _ c r hc hr

end Parser

end TypedLambda
