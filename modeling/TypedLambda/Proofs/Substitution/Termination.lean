import TypedLambda.Proofs.Recursion.Calling
import TypedLambda.Proofs.Substitution.Equations

/-!
# Termination of substitution

Substitution goes on in a renamed body where it renames a binder, and the renamed body is not a part
of the term: it is what another use of substitution gives. But renaming a variable leaves a term as
it is up to names. So every use of substitution that another one makes is for a term with fewer
nodes, and substitution comes to an end without any bound on its recursion.

## Main definitions

* `Term.unnamed`: the shape of a term, which has no names of variables and binders
* `SubstCall`, `SubstCall.body`: uses of substitution, and the uses that they make
* `SubstCall.Gives`, `SubstCall.Makes`: what comes out of a use without any bound on the recursion,
  and the uses made directly by another one

## Main results

* `Term.unnamed_subst_var`: renaming keeps the shape
* `SubstCall.answer_body_substWithin`: substitution with a bound does at each level what a use does
* `SubstCall.stays_body`: uses made by another one are for smaller terms
* `Term.subst_terminates`: substitution terminates
-/

namespace TypedLambda

namespace Term

/-! ## Shapes -/

mutual

/-- The term with the empty name for all variables and binders. -/
def unnamed : Term → Term
  | bool b => bool b
  | zero => zero
  | string s => string s
  | nil T => nil T
  | var _ => var ""
  | lam _ T t => lam "" T t.unnamed
  | letIn _ t u => letIn "" t.unnamed u.unnamed
  | ite t u v => ite t.unnamed u.unnamed v.unnamed
  | succ t => succ t.unnamed
  | pred t => pred t.unnamed
  | isZero t => isZero t.unnamed
  | app t u => app t.unnamed u.unnamed
  | fix t => fix t.unnamed
  | concat t u => concat t.unnamed u.unnamed
  | pair t u => pair t.unnamed u.unnamed
  | fst t => fst t.unnamed
  | snd t => snd t.unnamed
  | record fields => record (unnamedFields fields)
  | proj t label => proj t.unnamed label
  | cons t u => cons t.unnamed u.unnamed
  | isNil t => isNil t.unnamed
  | head t => head t.unnamed
  | tail t => tail t.unnamed

/-- The fields with the empty name for all variables and binders. -/
def unnamedFields : List (String × Term) → List (String × Term)
  | [] => []
  | (label, t) :: fields => (label, t.unnamed) :: unnamedFields fields

end

theorem unnamedFields_eq_map (fields : List (String × Term)) :
    unnamedFields fields = fields.map fun f => (f.1, f.2.unnamed) := by
  induction fields with
  | nil => rfl
  | cons f fields ih => rw [unnamedFields, ih, List.map_cons]

/-- Renaming a variable keeps the shape. -/
theorem unnamed_subst_var (y z : String) (t : Term) :
    (t.subst y (var z)).unnamed = t.unnamed := by
  induction t using inductUpToSize generalizing y z with
  | var x =>
    rw [subst_var]
    split <;> rfl
  | lam x T b ih =>
    rw [subst_lam]
    split
    · rfl
    split
    · simp only [unnamed, ih _ (size_subst_var ..), ih b rfl]
    · simp only [unnamed, ih b rfl]
  | letIn x v b ihv ihb =>
    rw [subst_letIn]
    split
    · simp only [unnamed, ihv]
    split
    · simp only [unnamed, ihv, ihb _ (size_subst_var ..), ihb b rfl]
    · simp only [unnamed, ihv, ihb b rfl]
  | record fields ih =>
    rw [subst_record, unnamed, unnamed, unnamedFields_eq_map, unnamedFields_eq_map, List.map_map]
    exact congrArg record (List.map_congr_left fun f hf => congrArg (f.1, ·) (ih f hf y z))
  | _ => simp_all [unnamed]

end Term

/-! ## Uses of substitution -/

/-- A use of substitution: of `s` for `x` in `t`. -/
structure SubstCall where
  /-- The variable that is replaced. -/
  x : String
  /-- The term that is put for it. -/
  s : Term
  /-- The term in which it is replaced. -/
  t : Term

namespace SubstCall

open Calling Term

/-- The number of nodes of the term in which the variable is replaced. -/
def size (c : SubstCall) : Nat :=
  c.t.size

/-- What substitution gives. -/
def value (c : SubstCall) : Term :=
  c.t.subst c.x c.s

/-- What is done in the fields of a record, one after the other. -/
def bodyFields (x : String) (s : Term) :
    List (String × Term) → Calling SubstCall Term (List (String × Term))
  | [] => return []
  | (label, t) :: fields => return (label, ← ask ⟨x, s, t⟩) :: (← bodyFields x s fields)

/-- What is done in a use of substitution. -/
def body : SubstCall → Calling SubstCall Term Term
  | ⟨x, s, t⟩ =>
    match t with
    | .bool b => return bool b
    | .zero => return zero
    | .string r => return string r
    | .nil T => return nil T
    | .var y => return if y = x then s else var y
    | .lam y T b =>
      if y = x then return lam y T b
      else if y ∈ s.freeVars then
        let z := Name.fresh y (b.freeVars ++ s.freeVars)
        return lam z T (← ask ⟨x, s, ← ask ⟨y, var z, b⟩⟩)
      else return lam y T (← ask ⟨x, s, b⟩)
    | .letIn y v b =>
      if y = x then return letIn y (← ask ⟨x, s, v⟩) b
      else if y ∈ s.freeVars then
        let z := Name.fresh y (b.freeVars ++ s.freeVars)
        return letIn z (← ask ⟨x, s, v⟩) (← ask ⟨x, s, ← ask ⟨y, var z, b⟩⟩)
      else return letIn y (← ask ⟨x, s, v⟩) (← ask ⟨x, s, b⟩)
    | .ite t u v => return ite (← ask ⟨x, s, t⟩) (← ask ⟨x, s, u⟩) (← ask ⟨x, s, v⟩)
    | .succ t => return succ (← ask ⟨x, s, t⟩)
    | .pred t => return pred (← ask ⟨x, s, t⟩)
    | .isZero t => return isZero (← ask ⟨x, s, t⟩)
    | .app t u => return app (← ask ⟨x, s, t⟩) (← ask ⟨x, s, u⟩)
    | .fix t => return fix (← ask ⟨x, s, t⟩)
    | .concat t u => return concat (← ask ⟨x, s, t⟩) (← ask ⟨x, s, u⟩)
    | .pair t u => return pair (← ask ⟨x, s, t⟩) (← ask ⟨x, s, u⟩)
    | .fst t => return fst (← ask ⟨x, s, t⟩)
    | .snd t => return snd (← ask ⟨x, s, t⟩)
    | .record fields => return record (← bodyFields x s fields)
    | .proj t label => return proj (← ask ⟨x, s, t⟩) label
    | .cons t u => return cons (← ask ⟨x, s, t⟩) (← ask ⟨x, s, u⟩)
    | .isNil t => return isNil (← ask ⟨x, s, t⟩)
    | .head t => return head (← ask ⟨x, s, t⟩)
    | .tail t => return tail (← ask ⟨x, s, t⟩)

theorem answer_bodyFields (f : SubstCall → Term) (x : String) (s : Term)
    (fields : List (String × Term)) :
    (bodyFields x s fields).answer f = fields.map fun g => (g.1, f ⟨x, s, g.2⟩) := by
  induction fields with
  | nil => rfl
  | cons g fields ih => simp [bodyFields, ih]

theorem stays_bodyFields (f : SubstCall → Term) (P : SubstCall → Prop) (x : String) (s : Term)
    (fields : List (String × Term)) :
    (bodyFields x s fields).Stays f P ↔ ∀ g ∈ fields, P ⟨x, s, g.2⟩ := by
  induction fields with
  | nil => simp [bodyFields]
  | cons g fields ih => simp [bodyFields, ih]

/-- One level of the computation of substitution: it does what is done in a use of substitution, and
the level below answers. -/
theorem answer_body_substWithin (n : Nat) (c : SubstCall) :
    c.body.answer (fun d => substWithin n d.x d.s d.t) = substWithin (n + 1) c.x c.s c.t := by
  obtain ⟨x, s, t⟩ := c
  cases t with
  | lam y T b | letIn y v b =>
    simp only [body, substWithin]
    split
    · rfl
    split <;> rfl
  | record fields => simp [body, substWithin, answer_bodyFields]
  | _ => rfl

/-- Uses of substitution that another one makes are for smaller terms. A renamed body counts as the
body itself, since it has the same size. -/
theorem stays_body (c : SubstCall) : c.body.Stays value fun d => d.size < c.size := by
  obtain ⟨x, s, t⟩ := c
  cases t with
  | bool | zero | string | nil | var => exact trivial
  | lam y T b =>
    rw [body]
    split
    · exact trivial
    split <;> simp [size, value, Term.size]
  | letIn y v b =>
    rw [body]
    split
    · simp only [stays_bind, stays_ask, stays_pure, and_true, size, Term.size]
      omega
    split
    · simp only [stays_bind, stays_ask, stays_pure, and_true, answer_ask, size, value,
        Term.size, size_subst_var]
      omega
    · simp only [stays_bind, stays_ask, stays_pure, and_true, size, Term.size]
      omega
  | record fields =>
    simp only [body, stays_bind, stays_bodyFields, stays_pure, and_true]
    exact fun f hf => size_lt_size_record hf
  | _ =>
    simp only [body, stays_bind, stays_ask, stays_pure, and_true, size, Term.size]
    omega

/-- What is done in a use of substitution gives what substitution gives, when the uses that it makes
are answered rightly. -/
theorem answer_body (c : SubstCall) : c.body.answer value = c.value := by
  calc c.body.answer value
    _ = c.body.answer fun d => substWithin c.size d.x d.s d.t :=
      (answer_congr c.stays_body fun d hd => substWithin_eq_subst (Nat.le_of_lt hd) d.x d.s).symm
    _ = substWithin (c.size + 1) c.x c.s c.t := answer_body_substWithin c.size c
    _ = c.value := substWithin_eq_subst (Nat.le_succ c.size) c.x c.s

/-! ## Termination -/

/-- A use of substitution comes to `r`, when the uses that it makes are carried out in their turn,
with no bound on how deep this goes. -/
def Gives (c : SubstCall) (r : Term) : Prop :=
  Runs body c.body r

/-- The first use of substitution makes the second one. What this one makes in its turn is left
out. -/
def Makes (c d : SubstCall) : Prop :=
  Calls body c.body d

theorem gives_iff {c : SubstCall} {r : Term} : c.Gives r ↔ r = c.value :=
  runs_iff answer_body stays_body

theorem size_lt_of_makes {c d : SubstCall} (h : c.Makes d) : d.size < c.size :=
  of_calls answer_body h c.stays_body

section Renaming

variable {x y : String} {s : Term} (hyx : y ≠ x) (hy : y ∈ s.freeVars) (b : Term)

include hyx hy

/-- Where the binder of a function is renamed, substitution goes on in the renamed body. -/
theorem makes_renamed_of_lam (T : Ty) :
    Makes ⟨x, s, lam y T b⟩ ⟨x, s, b.subst y (var (Name.fresh y (b.freeVars ++ s.freeVars)))⟩ := by
  have hbody : body ⟨x, s, lam y T b⟩ = do
      let z := Name.fresh y (b.freeVars ++ s.freeVars)
      return lam z T (← ask ⟨x, s, ← ask ⟨y, var z, b⟩⟩) := by
    simp only [body, if_neg hyx, if_pos hy]
  rw [Makes, hbody]
  exact .later (gives_iff.mpr rfl) (.first _ _)

/-- Where the binder of a definition is renamed, substitution goes on in the renamed body. -/
theorem makes_renamed_of_letIn (v : Term) :
    Makes ⟨x, s, letIn y v b⟩
      ⟨x, s, b.subst y (var (Name.fresh y (b.freeVars ++ s.freeVars)))⟩ := by
  have hbody : body ⟨x, s, letIn y v b⟩ = do
      let z := Name.fresh y (b.freeVars ++ s.freeVars)
      return letIn z (← ask ⟨x, s, v⟩) (← ask ⟨x, s, ← ask ⟨y, var z, b⟩⟩) := by
    simp only [body, if_neg hyx, if_pos hy]
  rw [Makes, hbody]
  exact .later (gives_iff.mpr rfl) (.later (gives_iff.mpr rfl) (.first _ _))

end Renaming

end SubstCall

namespace Term

/-- **Substitution terminates.** Renaming a variable keeps the number of nodes of a term, and its
shape. So every use of substitution that another one makes is for a term with fewer nodes, also
where it goes on in a body whose binder has been renamed, and no uses go on inside each other
forever. With no bound on its recursion, substitution comes to an end for every variable,
replacement and term, and gives what it gives with the bound. -/
theorem subst_terminates :
    (∀ (y z : String) (t : Term), (t.subst y (var z)).size = t.size ∧
      (t.subst y (var z)).unnamed = t.unnamed) ∧
    (∀ c d : SubstCall, c.Makes d → d.t.size < c.t.size) ∧
    (∀ (x y : String) (s v b : Term) (T : Ty), y ≠ x → y ∈ s.freeVars →
      let renamed := b.subst y (var (Name.fresh y (b.freeVars ++ s.freeVars)))
      SubstCall.Makes ⟨x, s, lam y T b⟩ ⟨x, s, renamed⟩ ∧
        SubstCall.Makes ⟨x, s, letIn y v b⟩ ⟨x, s, renamed⟩) ∧
    WellFounded (flip SubstCall.Makes) ∧
    ∀ (x : String) (s t r : Term), SubstCall.Gives ⟨x, s, t⟩ r ↔ r = t.subst x s := by
  refine ⟨fun y z t => ⟨size_subst_var y z t, unnamed_subst_var y z t⟩, ?_, ?_, ?_, ?_⟩
  · exact fun c d => SubstCall.size_lt_of_makes
  · exact fun x y s v b T hyx hy => ⟨SubstCall.makes_renamed_of_lam hyx hy b T,
      SubstCall.makes_renamed_of_letIn hyx hy b v⟩
  · exact Calling.wellFounded_calls SubstCall.answer_body SubstCall.stays_body
  · exact fun x s t r => SubstCall.gives_iff

/-- Two binders are renamed: `y` is free in the replacement, and its fresh variant `y'` is bound in
the body, where the binder becomes `y''`. Substitution goes on in the body that this gives. -/
theorem subst_terminates_nested :
    let c : SubstCall :=
      ⟨"x", var "y", lam "y" .nat (lam "y'" .nat (app (var "x") (app (var "y") (var "y'"))))⟩
    let d : SubstCall :=
      ⟨"x", var "y", lam "y''" .nat (app (var "x") (app (var "y'") (var "y''")))⟩
    (c.Makes d ∧ d.t.size < c.t.size) ∧
      c.Gives (lam "y'" .nat (lam "y''" .nat (app (var "y") (app (var "y'") (var "y''"))))) := by
  intro c d
  obtain ⟨-, hsmaller, hrenamed, -, hgives⟩ := subst_terminates
  have hmakes : c.Makes d :=
    (hrenamed "x" "y" (var "y") zero (lam "y'" .nat (app (var "x") (app (var "y") (var "y'"))))
      .nat (by decide) (by decide)).1
  exact ⟨⟨hmakes, hsmaller c d hmakes⟩, (hgives ..).mpr (by decide)⟩

end Term

end TypedLambda
