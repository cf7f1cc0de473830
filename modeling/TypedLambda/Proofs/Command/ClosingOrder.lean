import TypedLambda.Proofs.Command.Closing
import TypedLambda.Proofs.Substitution.Simultaneous

/-!
# The order of closing

The free variables of a term have no order of their own, yet their values are put in one after the
other, and each goes into the term that the values before it gave. When the values are closed, this
leaves nothing to the order: all orders give the term in which the values are put for their
variables at once.

## Main definitions

* `Context.valuesOf`: the values of some variables, in their order

## Main results

* `Context.foldl_putValue_eq_replaceAll`: the values of the free variables, put in in any order
* `Context.close_simultaneous`: closing is putting in all values at once
-/

namespace TypedLambda

namespace Context

variable {ctx : Context} {t : Term} {x : String} {xs : List String}

/-- The values of those of the variables that have one, in the order of the variables. -/
def valuesOf (ctx : Context) (xs : List String) : Env :=
  xs.filterMap fun x => (ctx.valueOf? x).map (x, ·)

theorem mem_valuesOf {entry : String × Term} :
    entry ∈ ctx.valuesOf xs ↔ entry.1 ∈ xs ∧ ctx.valueOf? entry.1 = some entry.2 := by
  obtain ⟨y, v⟩ := entry
  simp only [valuesOf, List.mem_filterMap, Option.map_eq_some_iff, Prod.mk.injEq]
  constructor
  · rintro ⟨x, hx, _, hv, rfl, rfl⟩
    exact ⟨hx, hv⟩
  · rintro ⟨hy, hv⟩
    exact ⟨y, hy, v, hv, rfl, rfl⟩

theorem valuesOf_cons_of_none (h : ctx.valueOf? x = none) :
    ctx.valuesOf (x :: xs) = ctx.valuesOf xs := by
  rw [valuesOf, List.filterMap_cons, h]
  rfl

theorem valuesOf_cons_of_some {v : Term} (h : ctx.valueOf? x = some v) :
    ctx.valuesOf (x :: xs) = (x, v) :: ctx.valuesOf xs := by
  rw [valuesOf, List.filterMap_cons, h]
  rfl

/-- Among the values of the variables, the value of each of them is found. -/
theorem lookup_valuesOf (hx : x ∈ xs) : (ctx.valuesOf xs).lookup x = ctx.valueOf? x := by
  cases hv : ctx.valueOf? x with
  | none =>
    rw [List.lookup_eq_none_iff]
    intro entry hentry
    refine bne_iff_ne.mpr fun hne => ?_
    have hsome := (mem_valuesOf.mp hentry).2
    rw [← hne, hv] at hsome
    exact nomatch hsome
  | some v =>
    induction xs with
    | nil => exact absurd hx List.not_mem_nil
    | cons y xs ih =>
      by_cases hxy : x = y
      · subst hxy
        rw [valuesOf_cons_of_some hv, List.lookup_cons, beq_self_eq_true]
      · have hlookup := ih ((List.mem_cons.mp hx).resolve_left hxy)
        cases hy : ctx.valueOf? y with
        | none => rw [valuesOf_cons_of_none hy, hlookup]
        | some w =>
          rw [valuesOf_cons_of_some hy, List.lookup_cons, beq_eq_false_iff_ne.mpr hxy, hlookup]

/-- Values put in one after the other are an environment put in. -/
theorem foldl_putValue_eq_substAll (ctx : Context) (t : Term) (xs : List String) :
    xs.foldl ctx.putValue t = t.substAll (ctx.valuesOf xs) := by
  induction xs generalizing t with
  | nil => rfl
  | cons x xs ih =>
    rw [List.foldl_cons, ih]
    cases hx : ctx.valueOf? x with
    | none => rw [putValue_of_valueOf?_eq_none hx, valuesOf_cons_of_none hx]
    | some v => rw [putValue_of_valueOf? hx, valuesOf_cons_of_some hx, Term.substAll_entry]

/-- The environment of the values of the free variables is closed if these values are. -/
theorem isClosed_valuesOf (hxs : ∀ x ∈ xs, x ∈ t.freeVars)
    (hclosed : ∀ x ∈ t.freeVars, ∀ v, ctx.valueOf? x = some v → v.IsClosed) :
    (ctx.valuesOf xs).IsClosed := by
  intro entry hentry
  obtain ⟨hx, hv⟩ := mem_valuesOf.mp hentry
  exact hclosed entry.1 (hxs entry.1 hx) entry.2 hv

/-- The values of the free variables are put in at once, in whatever order they are gone through. -/
theorem foldl_putValue_eq_replaceAll (hxs : ∀ x, x ∈ xs ↔ x ∈ t.freeVars)
    (hclosed : ∀ x ∈ t.freeVars, ∀ v, ctx.valueOf? x = some v → v.IsClosed) :
    xs.foldl ctx.putValue t = t.replaceAll ctx.valueOf? := by
  have henv := isClosed_valuesOf (fun x => (hxs x).mp) hclosed
  rw [foldl_putValue_eq_substAll, Term.substAll_eq_replaceAll henv]
  exact Term.replaceAll_congr fun x hx => lookup_valuesOf ((hxs x).mpr hx)

/-- **Closing has no order**: if the values of the free variables of a term are closed, then putting
them in one after the other, in any order of the free variables, gives the term in which they are
put in all at once, with no binder renamed, and the variables that stay free are those without a
value. -/
theorem close_simultaneous
    (hclosed : ∀ x ∈ t.freeVars, ∀ v, ctx.valueOf? x = some v → v.IsClosed) :
    (∀ xs : List String, (∀ x, x ∈ xs ↔ x ∈ t.freeVars) →
        xs.foldl ctx.putValue t = t.replaceAll ctx.valueOf?) ∧
      ctx.close t = t.replaceAll ctx.valueOf? ∧
      ∀ y, y ∈ (ctx.close t).freeVars ↔ y ∈ t.freeVars ∧ ctx.valueOf? y = none := by
  have hvars : ∀ x, x ∈ t.freeVars.eraseDups ↔ x ∈ t.freeVars := fun _ => List.mem_eraseDups
  refine ⟨fun xs hxs => foldl_putValue_eq_replaceAll hxs hclosed,
    foldl_putValue_eq_replaceAll hvars hclosed, fun y => ?_⟩
  have henv := isClosed_valuesOf (fun x => (hvars x).mp) hclosed
  rw [close_eq_foldl, foldl_putValue_eq_substAll, Term.mem_freeVars_substAll henv]
  exact and_congr_right fun hy => by rw [lookup_valuesOf ((hvars y).mpr hy)]

/-- `y` is bound in the function and free outside of it, the value of `x` binds it, too, and `z` has
no value. The value of `w`, which is not closed, does not matter. -/
theorem close_simultaneous_shadowing :
    let ctx := (((({} : Context).define "x" (.arrow .nat .nat) (.lam "y" .nat (.var "y"))).define
      "y" .nat .zero).declare "z" .nat).define "w" .nat (.var "y")
    let t := Term.app (.lam "y" .nat (.app (.var "x") (.var "y"))) (.pair (.var "y") (.var "z"))
    let u := Term.app (.lam "y" .nat (.app (.lam "y" .nat (.var "y")) (.var "y")))
      (.pair .zero (.var "z"))
    (∀ x ∈ t.freeVars, ∀ v, ctx.valueOf? x = some v → v.IsClosed) ∧ ctx.close t = u ∧
      ["z", "y", "x"].foldl ctx.putValue t = u ∧
      ∀ y, y ∈ u.freeVars ↔ y ∈ t.freeVars ∧ ctx.valueOf? y = none := by
  intro ctx t u
  have hclosed : ∀ x ∈ t.freeVars, ∀ v ∈ ctx.valueOf? x, v.IsClosed := by decide
  obtain ⟨horder, hclose, hvars⟩ := close_simultaneous hclosed
  have hu : t.replaceAll ctx.valueOf? = u := by decide
  rw [hclose, hu] at hvars
  have hperm : ["z", "y", "x"].Perm t.freeVars := by decide
  exact ⟨hclosed, hclose.trans hu, (horder _ fun _ => hperm.mem_iff).trans hu, hvars⟩

end Context

end TypedLambda
