import TypedLambda.Grammar.Term
import TypedLambda.Proofs.Grammar.Layout

/-!
# The grammar as a relation

The rules of the grammar without an order among the alternatives: which sequences of lexemes are
types and terms, and which ones. A rule stands at a level, and every level admits what the tighter
one does. The fields between braces have a level of their own; what they denote is the record with
these fields.

## Main definitions

* `Grammar.DerivesType`, `Grammar.DerivesTerm`: what a sequence of lexemes denotes
* `Grammar.TermLevel.starts`: the lexemes with which something at a level starts

## Main results

* `Grammar.DerivesTerm.exists_starts`: what stands at a level starts with such a lexeme
* `Grammar.DerivesTerm.ne_field`: no term starts like a field of a record
-/

namespace TypedLambda

namespace Lexeme

/-! ## Kinds of lexemes -/

/-- Whether the lexeme is this mark. -/
def isMark (s : String) : Lexeme → Bool
  | mark r => r = s
  | _ => false

/-- Whether the lexeme is this keyword. -/
def isKeyword (w : String) : Lexeme → Bool
  | keyword v => v = w
  | _ => false

/-- Whether the lexeme is the name of a variable or a label. -/
def isName : Lexeme → Bool
  | name _ => true
  | _ => false

/-- Whether the lexeme is the name of a type. -/
def isTypeName : Lexeme → Bool
  | typeName _ => true
  | _ => false

/-- Whether the lexeme is a string. -/
def isLiteral : Lexeme → Bool
  | literal _ => true
  | _ => false

theorem eq_keyword_of_isKeyword {w : String} {l : Lexeme} (h : l.isKeyword w = true) :
    l = keyword w := by
  cases l with
  | keyword v => rw [of_decide_eq_true h]
  | _ => cases h

end Lexeme

namespace Grammar

/-! ## Types -/

/-- The levels of the grammar of types, from tight to loose. -/
inductive TypeLevel where
  /-- Fields of a record, at least one. -/
  | fields
  /-- Types that need no brackets anywhere. -/
  | atomic
  /-- Atomic types with stars between them. -/
  | product
  /-- Products with arrows between them. -/
  | type
deriving Repr, DecidableEq

/-- The lexemes are the type, at this level. -/
inductive DerivesType : TypeLevel → List Lexeme → Ty → Prop
  | bool : DerivesType .atomic [.keyword "Bool"] .bool
  | nat : DerivesType .atomic [.keyword "Nat"] .nat
  | string : DerivesType .atomic [.keyword "String"] .string
  | list {ls : List Lexeme} {A : Ty} (h : DerivesType .type ls A) :
      DerivesType .atomic (.keyword "List" :: .mark "[" :: (ls ++ [.mark "]"])) (.list A)
  | emptyRecord : DerivesType .atomic [.mark "\x7b", .mark "\x7d"] (.record [])
  | record {ls : List Lexeme} {T : Ty} (h : DerivesType .fields ls T) :
      DerivesType .atomic (.mark "\x7b" :: (ls ++ [.mark "\x7d"])) T
  | named (X : String) : DerivesType .atomic [.typeName X] (.named X)
  | paren {ls : List Lexeme} {A : Ty} (h : DerivesType .type ls A) :
      DerivesType .atomic (.mark "(" :: (ls ++ [.mark ")"])) A
  | ofAtomic {ls : List Lexeme} {A : Ty} (h : DerivesType .atomic ls A) : DerivesType .product ls A
  | prod {ls ls' : List Lexeme} {A B : Ty} (hA : DerivesType .atomic ls A)
      (hB : DerivesType .product ls' B) :
      DerivesType .product (ls ++ .mark "*" :: ls') (.prod A B)
  | ofProduct {ls : List Lexeme} {A : Ty} (h : DerivesType .product ls A) : DerivesType .type ls A
  | arrow {ls ls' : List Lexeme} {A B : Ty} (hA : DerivesType .product ls A)
      (hB : DerivesType .type ls' B) :
      DerivesType .type (ls ++ .mark "->" :: ls') (.arrow A B)
  | field (label : String) {ls : List Lexeme} {A : Ty} (h : DerivesType .type ls A) :
      DerivesType .fields (.name label :: .mark ":" :: ls) (.record [(label, A)])
  | fieldCons (label : String) {ls ls' : List Lexeme} {A : Ty} {fields : List (String × Ty)}
      (h : DerivesType .type ls A) (hs : DerivesType .fields ls' (.record fields)) :
      DerivesType .fields (.name label :: .mark ":" :: (ls ++ .mark "," :: ls'))
        (.record ((label, A) :: fields))

/-! ## Terms -/

/-- The levels of the grammar of terms, from tight to loose. -/
inductive TermLevel where
  /-- Fields of a record, at least one. -/
  | fields
  /-- Terms that need no brackets anywhere. -/
  | atomic
  /-- Atomic terms with selectors behind them. -/
  | simple
  /-- Operators with operands, and functions with arguments. -/
  | application
  /-- All terms. -/
  | term
deriving Repr, DecidableEq

/-- The operators with one operand. -/
def unaryOperators : List (String × (Term → Term)) :=
  [("succ", .succ), ("pred", .pred), ("iszero", .isZero), ("fix", .fix), ("isnil", .isNil),
    ("head", .head), ("tail", .tail)]

/-- The operators with two operands. -/
def binaryOperators : List (String × (Term → Term → Term)) :=
  [("concat", .concat), ("cons", .cons)]

/-- The lexemes are the term, at this level. -/
inductive DerivesTerm : TermLevel → List Lexeme → Term → Prop
  | true : DerivesTerm .atomic [.keyword "true"] (.bool true)
  | false : DerivesTerm .atomic [.keyword "false"] (.bool false)
  | number (digits : List Char) :
      DerivesTerm .atomic [.number digits] (.numeral (valueOfDigits digits))
  | string (content : List Char) :
      DerivesTerm .atomic [.literal content] (.string (String.ofList content))
  | nil {ls : List Lexeme} {A : Ty} (h : DerivesType .type ls A) :
      DerivesTerm .atomic (.keyword "nil" :: .mark "[" :: (ls ++ [.mark "]"])) (.nil A)
  | emptyRecord : DerivesTerm .atomic [.mark "\x7b", .mark "\x7d"] (.record [])
  | record {ls : List Lexeme} {t : Term} (h : DerivesTerm .fields ls t) :
      DerivesTerm .atomic (.mark "\x7b" :: (ls ++ [.mark "\x7d"])) t
  | pair {ls ls' : List Lexeme} {t u : Term} (ht : DerivesTerm .term ls t)
      (hu : DerivesTerm .term ls' u) :
      DerivesTerm .atomic (.mark "\x7b" :: (ls ++ .mark "," :: (ls' ++ [.mark "\x7d"]))) (.pair t u)
  | var (x : String) : DerivesTerm .atomic [.name x] (.var x)
  | paren {ls : List Lexeme} {t : Term} (h : DerivesTerm .term ls t) :
      DerivesTerm .atomic (.mark "(" :: (ls ++ [.mark ")"])) t
  | ofAtomic {ls : List Lexeme} {t : Term} (h : DerivesTerm .atomic ls t) :
      DerivesTerm .simple ls t
  | fst {ls : List Lexeme} {t : Term} (h : DerivesTerm .simple ls t) :
      DerivesTerm .simple (ls ++ [.mark ".", .index "1"]) (.fst t)
  | snd {ls : List Lexeme} {t : Term} (h : DerivesTerm .simple ls t) :
      DerivesTerm .simple (ls ++ [.mark ".", .index "2"]) (.snd t)
  | proj (label : String) {ls : List Lexeme} {t : Term} (h : DerivesTerm .simple ls t) :
      DerivesTerm .simple (ls ++ [.mark ".", .name label]) (.proj t label)
  | ofSimple {ls : List Lexeme} {t : Term} (h : DerivesTerm .simple ls t) :
      DerivesTerm .application ls t
  | unary {w : String} {build : Term → Term} (hw : (w, build) ∈ unaryOperators)
      {ls : List Lexeme} {t : Term} (h : DerivesTerm .simple ls t) :
      DerivesTerm .application (.keyword w :: ls) (build t)
  | binary {w : String} {build : Term → Term → Term} (hw : (w, build) ∈ binaryOperators)
      {ls ls' : List Lexeme} {t u : Term} (ht : DerivesTerm .simple ls t)
      (hu : DerivesTerm .simple ls' u) :
      DerivesTerm .application (.keyword w :: (ls ++ ls')) (build t u)
  | app {ls ls' : List Lexeme} {t u : Term} (ht : DerivesTerm .application ls t)
      (hu : DerivesTerm .simple ls' u) :
      DerivesTerm .application (ls ++ ls') (.app t u)
  | ofApplication {ls : List Lexeme} {t : Term} (h : DerivesTerm .application ls t) :
      DerivesTerm .term ls t
  | lam {w : String} (hw : w = "lambda" ∨ w = "L") (x : String) {ls ls' : List Lexeme} {T : Ty}
      {t : Term} (hT : DerivesType .type ls T) (ht : DerivesTerm .term ls' t) :
      DerivesTerm .term (.keyword w :: .name x :: .mark ":" :: (ls ++ .mark "." :: ls'))
        (.lam x T t)
  | ite {ls ls' ls'' : List Lexeme} {t u v : Term} (ht : DerivesTerm .term ls t)
      (hu : DerivesTerm .term ls' u) (hv : DerivesTerm .term ls'' v) :
      DerivesTerm .term (.keyword "if" :: (ls ++ .keyword "then" ::
        (ls' ++ .keyword "else" :: ls''))) (.ite t u v)
  | letRec (f : String) {ls ls' ls'' : List Lexeme} {T : Ty} {t u : Term}
      (hT : DerivesType .type ls T) (ht : DerivesTerm .term ls' t) (hu : DerivesTerm .term ls'' u) :
      DerivesTerm .term (.keyword "letrec" :: .name f :: .mark ":" :: (ls ++ .mark "=" ::
        (ls' ++ .keyword "in" :: ls''))) (.letIn f (.fix (.lam f T t)) u)
  | letIn (x : String) {ls ls' : List Lexeme} {t u : Term} (ht : DerivesTerm .term ls t)
      (hu : DerivesTerm .term ls' u) :
      DerivesTerm .term (.keyword "let" :: .name x :: .mark "=" :: (ls ++ .keyword "in" :: ls'))
        (.letIn x t u)
  | field (label : String) {ls : List Lexeme} {t : Term} (h : DerivesTerm .term ls t) :
      DerivesTerm .fields (.name label :: .mark "=" :: ls) (.record [(label, t)])
  | fieldCons (label : String) {ls ls' : List Lexeme} {t : Term} {fields : List (String × Term)}
      (h : DerivesTerm .term ls t) (hs : DerivesTerm .fields ls' (.record fields)) :
      DerivesTerm .fields (.name label :: .mark "=" :: (ls ++ .mark "," :: ls'))
        (.record ((label, t) :: fields))

/-! ## First lexemes -/

/-- The keywords with which a function, a conditional or a definition starts. -/
def binders : List String :=
  ["lambda", "L", "if", "letrec", "let"]

/-- The keywords with which an application may start. -/
def operators : List String :=
  unaryOperators.map Prod.fst ++ binaryOperators.map Prod.fst

/-- The keywords with which an atomic term starts. -/
def constants : List String :=
  ["true", "false", "nil"]

/-- The lexemes with which an atomic term starts. -/
def startsAtomic : Lexeme → Bool
  | .keyword w => w ∈ constants
  | .number _ | .literal _ | .name _ => true
  | .mark s => s = "\x7b" || s = "("
  | .typeName _ | .index _ => false

/-- The lexemes with which something at the level starts. -/
def TermLevel.starts : TermLevel → Lexeme → Bool
  | fields, l => l.isName
  | atomic, l | simple, l => startsAtomic l
  | application, l => startsAtomic l || operators.any l.isKeyword
  | term, l => startsAtomic l || operators.any l.isKeyword || binders.any l.isKeyword

namespace DerivesTerm

variable {level : TermLevel} {ls : List Lexeme} {t : Term}

/-- What stands at a level starts with such a lexeme. -/
theorem exists_starts (h : DerivesTerm level ls t) :
    ∃ l ls', ls = l :: ls' ∧ level.starts l = Bool.true := by
  have append {ls ls' : List Lexeme} {level : TermLevel}
      (h : ∃ l rest, ls = l :: rest ∧ level.starts l = Bool.true) :
      ∃ l rest, ls ++ ls' = l :: rest ∧ level.starts l = Bool.true := by
    obtain ⟨l, rest, rfl, hl⟩ := h
    exact ⟨l, rest ++ ls', rfl, hl⟩
  have operator {w : String} (hw : w ∈ operators) :
      TermLevel.application.starts (.keyword w) = Bool.true :=
    Bool.or_eq_true_iff.mpr (.inr (List.any_eq_true.mpr ⟨w, hw, decide_eq_true rfl⟩))
  induction h with
  | ofAtomic _ ih => exact ih
  | ofSimple _ ih | ofApplication _ ih =>
    obtain ⟨l, ls', rfl, hl⟩ := ih
    exact ⟨l, ls', rfl, Bool.or_eq_true_iff.mpr (.inl hl)⟩
  | fst _ ih | snd _ ih | proj _ _ ih => exact append ih
  | app _ _ iht _ => exact append iht
  | unary hw => exact ⟨_, _, rfl, operator (List.mem_append_left _ (List.mem_map_of_mem hw))⟩
  | binary hw => exact ⟨_, _, rfl, operator (List.mem_append_right _ (List.mem_map_of_mem hw))⟩
  | lam hw => rcases hw with rfl | rfl <;> exact ⟨_, _, rfl, rfl⟩
  | _ => exact ⟨_, _, rfl, rfl⟩

/-- No term starts like a field of a record, whatever comes behind it. -/
theorem ne_field (h : DerivesTerm level ls t) (hlevel : level ≠ .fields) {rest : List Lexeme}
    (hrest : rest.head? ≠ some (.mark "=")) (x : String) (ls' : List Lexeme) :
    ls ++ rest ≠ .name x :: .mark "=" :: ls' := by
  induction h generalizing rest with
  | var y =>
    rintro heq
    obtain rfl := (List.cons.inj heq).2
    exact hrest rfl
  | ofAtomic _ ih | ofSimple _ ih | ofApplication _ ih => exact ih (by decide) hrest
  | fst _ ih | snd _ ih | proj _ _ ih =>
    rw [List.append_assoc]
    exact ih (by decide) (by simp)
  | app _ hu iht _ =>
    obtain ⟨l, ls, rfl, hl⟩ := hu.exists_starts
    rw [List.append_assoc]
    refine iht (by decide) ?_
    rw [List.cons_append, List.head?_cons]
    rintro heq
    obtain rfl := Option.some.inj heq
    cases hl
  | field | fieldCons => exact absurd rfl hlevel
  | _ => simp

end DerivesTerm

end Grammar

end TypedLambda
