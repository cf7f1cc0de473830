import Mathlib.Data.List.Forall2
import TypedLambda.Proofs.Substitution.Environment

/-!
# Renamed binders

Two terms are alpha-equivalent when they differ in the names of their binders only. They are gone
through together, with a list of the binders that correspond to each other, the innermost first: two
variables correspond when they are bound by corresponding binders, or when they are the same free
variable. Since a binder hides the outer ones of its name on its own side only, the two terms may
shadow names in different ways.

## Main definitions

* `Binders.Matches`: variables that correspond under corresponding binders
* `Term.AlphaUnder`, `Term.AlphaEquiv`: terms that differ in the names of their binders
* `Env.MatchUnder`: environments that give corresponding values to corresponding variables

## Main results

* `Term.AlphaUnder.freeVars`, `Term.AlphaEquiv.isClosed_iff`: corresponding variables occur in the
  same places
* `Term.AlphaUnder.congr`: only the free variables of the two terms matter
* `Term.AlphaUnder.substAll`: closed values that differ in the names of their binders are put in
* `Term.AlphaUnder.symm`: the relation is symmetric
-/

namespace TypedLambda

/-! ## Corresponding variables -/

/-- Pairs of corresponding binders, the innermost first. -/
abbrev Binders := List (String × String)

/-- The two variables are bound by corresponding binders, or they are the same and free. -/
inductive Binders.Matches : Binders → (x y : String) → Prop
  | free (x : String) : Matches [] x x
  | here (bs : Binders) (x y : String) : Matches ((x, y) :: bs) x y
  /-- A binder of another name is passed on both sides. -/
  | outer {bs : Binders} {a b x y : String} (hx : x ≠ a) (hy : y ≠ b) (h : Matches bs x y) :
      Matches ((a, b) :: bs) x y

namespace Binders

variable {bs bs' : Binders} {a b x y : String}

theorem matches_nil_iff : Matches [] x y ↔ x = y := by
  constructor
  · rintro ⟨⟩
    rfl
  · rintro rfl
    exact .free x

theorem matches_cons_iff :
    Matches ((a, b) :: bs) x y ↔ x = a ∧ y = b ∨ x ≠ a ∧ y ≠ b ∧ bs.Matches x y := by
  constructor
  · rintro (_ | _ | ⟨hx, hy, h⟩)
    · exact .inl ⟨rfl, rfl⟩
    · exact .inr ⟨hx, hy, h⟩
  · rintro (⟨rfl, rfl⟩ | ⟨hx, hy, h⟩)
    · exact .here bs x y
    · exact .outer hx hy h

theorem Matches.swap (h : bs.Matches x y) : Matches (bs.map Prod.swap) y x := by
  induction h with
  | free x => exact .free x
  | here bs x y => exact .here _ y x
  | outer hx hy _ ih => exact .outer hy hx ih

end Binders

namespace Term

/-! ## Alpha-equivalence -/

/-- The terms differ in the names of their binders only, where the binders around them correspond
as listed. -/
inductive AlphaUnder : Binders → (t u : Term) → Prop
  | bool (bs : Binders) (b : Bool) : AlphaUnder bs (bool b) (bool b)
  | zero (bs : Binders) : AlphaUnder bs zero zero
  | string (bs : Binders) (s : String) : AlphaUnder bs (string s) (string s)
  | nil (bs : Binders) (T : Ty) : AlphaUnder bs (nil T) (nil T)
  | var {bs : Binders} {x y : String} (h : bs.Matches x y) : AlphaUnder bs (var x) (var y)
  | lam {bs : Binders} {x y : String} (T : Ty) {t u : Term}
      (h : AlphaUnder ((x, y) :: bs) t u) : AlphaUnder bs (lam x T t) (lam y T u)
  | letIn {bs : Binders} {x y : String} {t u t' u' : Term} (h : AlphaUnder bs t u)
      (h' : AlphaUnder ((x, y) :: bs) t' u') : AlphaUnder bs (letIn x t t') (letIn y u u')
  | succ {bs : Binders} {t u : Term} (h : AlphaUnder bs t u) : AlphaUnder bs (succ t) (succ u)
  | pred {bs : Binders} {t u : Term} (h : AlphaUnder bs t u) : AlphaUnder bs (pred t) (pred u)
  | isZero {bs : Binders} {t u : Term} (h : AlphaUnder bs t u) :
      AlphaUnder bs (isZero t) (isZero u)
  | ite {bs : Binders} {t u t' u' t'' u'' : Term} (h : AlphaUnder bs t u)
      (h' : AlphaUnder bs t' u') (h'' : AlphaUnder bs t'' u'') :
      AlphaUnder bs (ite t t' t'') (ite u u' u'')
  | app {bs : Binders} {t u t' u' : Term} (h : AlphaUnder bs t u) (h' : AlphaUnder bs t' u') :
      AlphaUnder bs (app t t') (app u u')
  | fix {bs : Binders} {t u : Term} (h : AlphaUnder bs t u) : AlphaUnder bs (fix t) (fix u)
  | concat {bs : Binders} {t u t' u' : Term} (h : AlphaUnder bs t u) (h' : AlphaUnder bs t' u') :
      AlphaUnder bs (concat t t') (concat u u')
  | pair {bs : Binders} {t u t' u' : Term} (h : AlphaUnder bs t u) (h' : AlphaUnder bs t' u') :
      AlphaUnder bs (pair t t') (pair u u')
  | fst {bs : Binders} {t u : Term} (h : AlphaUnder bs t u) : AlphaUnder bs (fst t) (fst u)
  | snd {bs : Binders} {t u : Term} (h : AlphaUnder bs t u) : AlphaUnder bs (snd t) (snd u)
  | emptyRecord (bs : Binders) : AlphaUnder bs (record []) (record [])
  | record {bs : Binders} (label : String) {t u : Term} {fields fields' : List (String × Term)}
      (h : AlphaUnder bs t u) (h' : AlphaUnder bs (record fields) (record fields')) :
      AlphaUnder bs (record ((label, t) :: fields)) (record ((label, u) :: fields'))
  | proj {bs : Binders} {t u : Term} (h : AlphaUnder bs t u) (label : String) :
      AlphaUnder bs (proj t label) (proj u label)
  | cons {bs : Binders} {t u t' u' : Term} (h : AlphaUnder bs t u) (h' : AlphaUnder bs t' u') :
      AlphaUnder bs (cons t t') (cons u u')
  | isNil {bs : Binders} {t u : Term} (h : AlphaUnder bs t u) : AlphaUnder bs (isNil t) (isNil u)
  | head {bs : Binders} {t u : Term} (h : AlphaUnder bs t u) : AlphaUnder bs (head t) (head u)
  | tail {bs : Binders} {t u : Term} (h : AlphaUnder bs t u) : AlphaUnder bs (tail t) (tail u)

/-- The terms differ in the names of their binders only. -/
def AlphaEquiv (t u : Term) : Prop :=
  AlphaUnder [] t u

variable {bs bs' : Binders} {t u : Term}

/-! ## Records -/

/-- Fields have the same labels, and terms that differ in the names of their binders only. -/
def AlphaFields (bs : Binders) (fields fields' : List (String × Term)) : Prop :=
  List.Forall₂ (fun f g => f.1 = g.1 ∧ AlphaUnder bs f.2 g.2) fields fields'

theorem AlphaFields.record {fields fields' : List (String × Term)}
    (h : AlphaFields bs fields fields') :
    AlphaUnder bs (Term.record fields) (Term.record fields') := by
  induction h with
  | nil => exact .emptyRecord bs
  | @cons f g _ _ hfg _ ih =>
    obtain ⟨label, t⟩ := f
    obtain ⟨label', u⟩ := g
    obtain ⟨rfl, h⟩ := hfg
    exact AlphaUnder.record label h ih

/-- A record corresponds to records only, field by field. -/
theorem AlphaUnder.fields {fields : List (String × Term)}
    (h : AlphaUnder bs (Term.record fields) u) :
    ∃ fields', u = Term.record fields' ∧ AlphaFields bs fields fields' := by
  induction fields generalizing u with
  | nil =>
    cases h
    exact ⟨[], rfl, .nil⟩
  | cons f fields ih =>
    cases h with
    | @record _ label _ u _ fields' h h' =>
      obtain ⟨_, hrecord, hfields⟩ := ih h'
      obtain rfl := record.inj hrecord
      exact ⟨(label, u) :: fields', rfl, .cons ⟨rfl, h⟩ hfields⟩

/-! ## Free variables -/

/-- Under one more pair of binders, the variables that they do not bind correspond as before. -/
theorem forall₂_filter_ne {a b : String} {xs ys : List String}
    (h : List.Forall₂ (Binders.Matches ((a, b) :: bs)) xs ys) :
    List.Forall₂ bs.Matches (xs.filter (· ≠ a)) (ys.filter (· ≠ b)) := by
  induction h with
  | nil => exact .nil
  | @cons x y _ _ hxy _ ih =>
    rcases Binders.matches_cons_iff.mp hxy with ⟨rfl, rfl⟩ | ⟨hx, hy, hxy⟩
    · rwa [List.filter_cons_of_neg (by simp), List.filter_cons_of_neg (by simp)]
    · rw [List.filter_cons_of_pos (by simpa using hx), List.filter_cons_of_pos (by simpa using hy)]
      exact .cons hxy ih

/-- Corresponding variables occur in the same places. -/
theorem AlphaUnder.freeVars (h : AlphaUnder bs t u) :
    List.Forall₂ bs.Matches t.freeVars u.freeVars := by
  induction h with
  | bool | zero | string | nil | emptyRecord => exact .nil
  | var h => exact .cons h .nil
  | lam _ _ ih => exact forall₂_filter_ne ih
  | letIn _ _ ih ih' => exact List.rel_append ih (forall₂_filter_ne ih')
  | ite _ _ _ ih ih' ih'' => exact List.rel_append (List.rel_append ih ih') ih''
  | app _ _ ih ih' | concat _ _ ih ih' | pair _ _ ih ih' | cons _ _ ih ih' =>
    exact List.rel_append ih ih'
  | record _ _ _ ih ih' => exact List.rel_append ih ih'
  | succ _ ih | pred _ ih | isZero _ ih | fix _ ih | fst _ ih | snd _ ih | isNil _ ih | head _ ih
  | tail _ ih => exact ih
  | proj _ _ ih => exact ih

/-- Terms that differ in the names of their binders have the same free variables. -/
theorem AlphaEquiv.freeVars_eq (h : t.AlphaEquiv u) : t.freeVars = u.freeVars := by
  have hvars := h.freeVars
  rwa [show Binders.Matches [] = Eq from
    funext fun x => funext fun y => propext Binders.matches_nil_iff, List.forall₂_eq_eq_eq] at hvars

theorem AlphaEquiv.isClosed_iff (h : t.AlphaEquiv u) : t.IsClosed ↔ u.IsClosed := by
  rw [IsClosed, IsClosed, h.freeVars_eq]

/-- Other binders around the terms make no difference when the free variables that correspond still
do. -/
theorem AlphaUnder.congr (h : AlphaUnder bs t u)
    (hbs : ∀ x ∈ t.freeVars, ∀ y ∈ u.freeVars, bs.Matches x y → bs'.Matches x y) :
    AlphaUnder bs' t u := by
  have behind {bs bs' : Binders} {a b : String} {t u : Term}
      (h : ∀ x ∈ t.freeVars.filter (· ≠ a), ∀ y ∈ u.freeVars.filter (· ≠ b),
        bs.Matches x y → bs'.Matches x y) :
      ∀ x ∈ t.freeVars, ∀ y ∈ u.freeVars, Binders.Matches ((a, b) :: bs) x y →
        Binders.Matches ((a, b) :: bs') x y := by
    intro x hx y hy hxy
    rcases Binders.matches_cons_iff.mp hxy with ⟨rfl, rfl⟩ | ⟨hxa, hyb, hxy⟩
    · exact .here bs' x y
    · refine .outer hxa hyb (h x ?_ y ?_ hxy)
      · exact List.mem_filter.mpr ⟨hx, by simpa using hxa⟩
      · exact List.mem_filter.mpr ⟨hy, by simpa using hyb⟩
  induction h generalizing bs' with
  | bool _ b => exact .bool bs' b
  | zero => exact .zero bs'
  | string _ s => exact .string bs' s
  | nil _ T => exact .nil bs' T
  | emptyRecord => exact .emptyRecord bs'
  | var h => exact .var (hbs _ (by simp [Term.freeVars]) _ (by simp [Term.freeVars]) h)
  | lam T _ ih => exact .lam T (ih (behind hbs))
  | letIn _ _ ih ih' =>
    refine .letIn (ih fun x hx y hy => hbs x (List.mem_append_left _ hx) y
      (List.mem_append_left _ hy)) (ih' (behind fun x hx y hy => ?_))
    exact hbs x (List.mem_append_right _ hx) y (List.mem_append_right _ hy)
  | ite _ _ _ ih ih' ih'' =>
    simp only [Term.freeVars, List.mem_append] at hbs
    exact .ite (ih fun x hx y hy => hbs x (.inl (.inl hx)) y (.inl (.inl hy)))
      (ih' fun x hx y hy => hbs x (.inl (.inr hx)) y (.inl (.inr hy)))
      (ih'' fun x hx y hy => hbs x (.inr hx) y (.inr hy))
  | app _ _ ih ih' =>
    simp only [Term.freeVars, List.mem_append] at hbs
    exact .app (ih fun x hx y hy => hbs x (.inl hx) y (.inl hy))
      (ih' fun x hx y hy => hbs x (.inr hx) y (.inr hy))
  | concat _ _ ih ih' =>
    simp only [Term.freeVars, List.mem_append] at hbs
    exact .concat (ih fun x hx y hy => hbs x (.inl hx) y (.inl hy))
      (ih' fun x hx y hy => hbs x (.inr hx) y (.inr hy))
  | pair _ _ ih ih' =>
    simp only [Term.freeVars, List.mem_append] at hbs
    exact .pair (ih fun x hx y hy => hbs x (.inl hx) y (.inl hy))
      (ih' fun x hx y hy => hbs x (.inr hx) y (.inr hy))
  | cons _ _ ih ih' =>
    simp only [Term.freeVars, List.mem_append] at hbs
    exact .cons (ih fun x hx y hy => hbs x (.inl hx) y (.inl hy))
      (ih' fun x hx y hy => hbs x (.inr hx) y (.inr hy))
  | record label _ _ ih ih' =>
    simp only [Term.freeVars, freeVarsFields, List.mem_append] at hbs
    exact .record label (ih fun x hx y hy => hbs x (.inl hx) y (.inl hy))
      (ih' fun x hx y hy => hbs x (.inr hx) y (.inr hy))
  | succ _ ih => exact .succ (ih hbs)
  | pred _ ih => exact .pred (ih hbs)
  | isZero _ ih => exact .isZero (ih hbs)
  | fix _ ih => exact .fix (ih hbs)
  | fst _ ih => exact .fst (ih hbs)
  | snd _ ih => exact .snd (ih hbs)
  | proj _ label ih => exact .proj (ih hbs) label
  | isNil _ ih => exact .isNil (ih hbs)
  | head _ ih => exact .head (ih hbs)
  | tail _ ih => exact .tail (ih hbs)

/-- Closed terms are alpha-equivalent under all binders. -/
theorem AlphaEquiv.under (h : t.AlphaEquiv u) (ht : t.IsClosed) (bs : Binders) :
    AlphaUnder bs t u :=
  AlphaUnder.congr h fun _ hx => absurd hx (not_mem_freeVars_of_isClosed ht)

/-! ## Symmetry -/

/-- The two terms may change sides. -/
theorem AlphaUnder.symm (h : AlphaUnder bs t u) : AlphaUnder (bs.map Prod.swap) u t := by
  induction h with
  | bool _ b => exact .bool _ b
  | zero => exact .zero _
  | string _ s => exact .string _ s
  | nil _ T => exact .nil _ T
  | emptyRecord => exact .emptyRecord _
  | var h => exact .var h.swap
  | lam T _ ih => exact .lam T ih
  | letIn _ _ ih ih' => exact .letIn ih ih'
  | ite _ _ _ ih ih' ih'' => exact .ite ih ih' ih''
  | app _ _ ih ih' => exact .app ih ih'
  | concat _ _ ih ih' => exact .concat ih ih'
  | pair _ _ ih ih' => exact .pair ih ih'
  | cons _ _ ih ih' => exact .cons ih ih'
  | record label _ _ ih ih' => exact .record label ih ih'
  | succ _ ih => exact .succ ih
  | pred _ ih => exact .pred ih
  | isZero _ ih => exact .isZero ih
  | fix _ ih => exact .fix ih
  | fst _ ih => exact .fst ih
  | snd _ ih => exact .snd ih
  | proj _ label ih => exact .proj ih label
  | isNil _ ih => exact .isNil ih
  | head _ ih => exact .head ih
  | tail _ ih => exact .tail ih

theorem AlphaEquiv.symm (h : t.AlphaEquiv u) : u.AlphaEquiv t :=
  AlphaUnder.symm h

end Term

/-! ## Values for variables -/

/-- Variables that correspond under the binders `bs` have corresponding values, or none on both
sides and correspond under the binders `bs'`. -/
def Env.MatchUnder (bs bs' : Binders) (env env' : Env) : Prop :=
  ∀ x y, bs.Matches x y →
    (∃ v w, env.lookup x = some v ∧ env'.lookup y = some w ∧ v.AlphaEquiv w) ∨
      env.lookup x = none ∧ env'.lookup y = none ∧ bs'.Matches x y

/-- One more pair of binders hides the values for the variables that they bind. -/
theorem Env.MatchUnder.hide {bs bs' : Binders} {env env' : Env} (h : Env.MatchUnder bs bs' env env')
    (a b : String) : Env.MatchUnder ((a, b) :: bs) ((a, b) :: bs') (env.hide a) (env'.hide b) := by
  intro x y hxy
  rcases Binders.matches_cons_iff.mp hxy with ⟨rfl, rfl⟩ | ⟨hx, hy, hxy⟩
  · exact .inr ⟨Env.lookup_hide_self, Env.lookup_hide_self, .here bs' x y⟩
  · rw [Env.lookup_hide_of_ne hx, Env.lookup_hide_of_ne hy]
    refine (h x y hxy).imp_right fun ⟨hnone, hnone', hxy⟩ => ?_
    exact ⟨hnone, hnone', .outer hx hy hxy⟩

namespace Term

variable {bs bs' : Binders} {t u : Term}

/-- Corresponding values are put into corresponding terms. -/
theorem AlphaUnder.substAll (h : AlphaUnder bs t u) {env env' : Env} (henv : env.IsClosed)
    (henv' : env'.IsClosed) (hmatch : Env.MatchUnder bs bs' env env') :
    AlphaUnder bs' (t.substAll env) (u.substAll env') := by
  induction h generalizing bs' env env' with
  | bool _ b => simpa using .bool bs' b
  | zero => simpa using .zero bs'
  | string _ s => simpa using .string bs' s
  | nil _ T => simpa using .nil bs' T
  | emptyRecord => simpa using .emptyRecord bs'
  | @var _ x y h =>
    rw [substAll_var henv, substAll_var henv']
    obtain ⟨v, w, hv, hw, hvw⟩ | ⟨hv, hw, hxy⟩ := hmatch x y h
    · rw [hv, hw]
      have hmem := List.lookup_eq_some_iff.mp hv
      obtain ⟨before, after, rfl, -⟩ := hmem
      exact hvw.under (henv (x, v) (List.mem_append_right _ List.mem_cons_self)) bs'
    · rw [hv, hw]
      exact .var hxy
  | @lam _ x y T _ _ _ ih =>
    rw [substAll_lam henv, substAll_lam henv']
    exact .lam T (ih (henv.hide x) (henv'.hide y) (hmatch.hide x y))
  | @letIn _ x y _ _ _ _ _ _ ih ih' =>
    rw [substAll_letIn henv, substAll_letIn henv']
    exact .letIn (ih henv henv' hmatch) (ih' (henv.hide x) (henv'.hide y) (hmatch.hide x y))
  | record label _ _ ih ih' =>
    have hrest := ih' henv henv' hmatch
    rw [substAll_record, substAll_record] at hrest ⊢
    exact .record label (ih henv henv' hmatch) hrest
  | ite _ _ _ ih ih' ih'' =>
    simpa using .ite (ih henv henv' hmatch) (ih' henv henv' hmatch) (ih'' henv henv' hmatch)
  | app _ _ ih ih' => simpa using .app (ih henv henv' hmatch) (ih' henv henv' hmatch)
  | concat _ _ ih ih' => simpa using .concat (ih henv henv' hmatch) (ih' henv henv' hmatch)
  | pair _ _ ih ih' => simpa using .pair (ih henv henv' hmatch) (ih' henv henv' hmatch)
  | cons _ _ ih ih' => simpa using .cons (ih henv henv' hmatch) (ih' henv henv' hmatch)
  | succ _ ih => simpa using .succ (ih henv henv' hmatch)
  | pred _ ih => simpa using .pred (ih henv henv' hmatch)
  | isZero _ ih => simpa using .isZero (ih henv henv' hmatch)
  | fix _ ih => simpa using .fix (ih henv henv' hmatch)
  | fst _ ih => simpa using .fst (ih henv henv' hmatch)
  | snd _ ih => simpa using .snd (ih henv henv' hmatch)
  | proj _ label ih => simpa using .proj (ih henv henv' hmatch) label
  | isNil _ ih => simpa using .isNil (ih henv henv' hmatch)
  | head _ ih => simpa using .head (ih henv henv' hmatch)
  | tail _ ih => simpa using .tail (ih henv henv' hmatch)

/-- The bodies of corresponding binders correspond when corresponding closed terms are put for the
variables that are bound. -/
theorem AlphaUnder.subst {x y : String} {v w : Term} (h : AlphaUnder [(x, y)] t u)
    (hv : v.IsClosed) (hvw : v.AlphaEquiv w) : (t.subst x v).AlphaEquiv (u.subst y w) := by
  have closed {x : String} {v : Term} (hv : v.IsClosed) : Env.IsClosed [(x, v)] :=
    List.forall_mem_singleton.mpr hv
  suffices hmatch : Env.MatchUnder [(x, y)] [] [(x, v)] [(y, w)] from
    h.substAll (closed hv) (closed (hvw.isClosed_iff.mp hv)) hmatch
  intro a b hab
  rcases Binders.matches_cons_iff.mp hab with ⟨rfl, rfl⟩ | ⟨ha, hb, hab⟩
  · exact .inl ⟨v, w, by simp, by simp, hvw⟩
  · refine .inr ⟨?_, ?_, hab⟩
    · simp [List.lookup_cons, beq_eq_false_iff_ne.mpr ha]
    · simp [List.lookup_cons, beq_eq_false_iff_ne.mpr hb]

end Term

end TypedLambda
