import TypedLambda.Proofs.Substitution.Nameless

/-!
# Renaming a binder

Before substitution goes under a binder that the replacement mentions, the binder gets a fresh name,
and its variable in the body is replaced by that name. Renaming meets binders that have the new name
already; these are renamed first, in the same way. Their new names have still more primes behind
them, so none of them is the name that was replaced at first, and the renamed body has the nameless
form of the body.

## Main definitions

* `Term.Readdresses`: binders behind which the new name refers to what the old one referred to

## Main results

* `Term.nameless_subst_var`: renaming keeps the nameless form
* `Term.nameless_renamed`: the body of a binder and the renamed body behind the new binder
* `Term.alphaEquiv_of_fresh_binder`: functions and definitions with a renamed binder
-/

namespace TypedLambda

namespace Term

variable {t : Term} {xs ys : List String} {y z : String}

/-- Behind binders `xs` the new name `z` refers to what `y` refers to behind binders `ys`, and the
other variables of the term refer to the same. -/
def Readdresses (t : Term) (y z : String) (xs ys : List String) : Prop :=
  ∀ x ∈ t.freeVars, Referent.of xs (if x = y then z else x) = Referent.of ys x

theorem Readdresses.part {u : Term} (h : t.Readdresses y z xs ys)
    (hu : ∀ x ∈ u.freeVars, x ∈ t.freeVars) : u.Readdresses y z xs ys :=
  fun x hx => h x (hu x hx)

/-- One more binder on both sides makes no difference, if it is neither of the two names. -/
theorem Readdresses.cons {a : String} (hy : a ≠ y) (hz : a ≠ z)
    (h : ∀ x ∈ t.freeVars.filter (· ≠ a),
      Referent.of xs (if x = y then z else x) = Referent.of ys x) :
    t.Readdresses y z (a :: xs) (a :: ys) := by
  intro x hx
  rw [Referent.of_cons_eq_of_cons_iff]
  by_cases hxa : x = a
  · left
    rw [hxa, if_neg hy]
    exact ⟨rfl, rfl⟩
  · right
    refine ⟨?_, hxa, h x (List.mem_filter.mpr ⟨hx, by simpa using hxa⟩)⟩
    split
    · exact hz.symm
    · exact hxa

/-- A binder is readdressed when its name is replaced by one that is not free in its body. -/
theorem readdresses_binder (hz : z ∉ t.freeVars) (xs : List String) :
    t.Readdresses y z (z :: xs) (y :: xs) := by
  intro x hx
  rw [Referent.of_cons_eq_of_cons_iff]
  by_cases hxy : x = y
  · exact .inl ⟨if_pos hxy, hxy⟩
  · rw [if_neg hxy]
    exact .inr ⟨fun hxz => hz (hxz ▸ hx), hxy, rfl⟩

/-- Replacing a variable by one with primes behind it keeps the nameless form of a function, if it
keeps that of all bodies of the same size. -/
theorem nameless_subst_var_lam {x : String} {b : Term} (T : Ty)
    (ih : ∀ b' : Term, b'.size = b.size → ∀ {xs ys : List String} {y z : String},
      Name.IsPrimed y z → b'.Readdresses y z xs ys →
        (b'.subst y (var z)).nameless xs = b'.nameless ys)
    (hyz : Name.IsPrimed y z) (h : (lam x T b).Readdresses y z xs ys) :
    ((lam x T b).subst y (var z)).nameless xs = (lam x T b).nameless ys := by
  rw [subst_lam]
  split
  · rename_i hx
    subst hx
    refine nameless_congr fun w hw => ?_
    have hwx : w ≠ x := by simpa using (List.mem_filter.mp hw).2
    rw [← h w hw, if_neg hwx]
  split
  · rename_i hxy hxz
    obtain rfl : x = z := List.mem_singleton.mp hxz
    -- the inner binder has the new name, so it is renamed first, to a name with more primes
    have hw : Name.fresh x (b.freeVars ++ [x]) ∉ b.freeVars := fun hmem =>
      Name.fresh_not_mem x (b.freeVars ++ [x]) (List.mem_append_left _ hmem)
    have hxw : Name.IsPrimed x (Name.fresh x (b.freeVars ++ [x])) :=
      Name.isPrimed_fresh (List.mem_append_right _ (List.mem_singleton_self x))
    rw [freeVars]
    generalize Name.fresh x (b.freeVars ++ [x]) = w at hw hxw
    have hinner : (b.subst x (var w)).Readdresses y x (w :: xs) (w :: ys) := by
      refine .cons (hyz.trans hxw).ne hxw.ne fun v hv => h v ?_
      obtain ⟨hv, hvw⟩ := List.mem_filter.mp hv
      rcases mem_freeVars_of_mem_subst hv with ⟨hvb, hvx⟩ | hvw'
      · exact List.mem_filter.mpr ⟨hvb, by simpa using hvx⟩
      · exact absurd (List.mem_singleton.mp hvw') (by simpa using hvw)
    have hbody : ((b.subst x (var w)).subst y (var x)).nameless (w :: xs) =
        b.nameless (x :: ys) := by
      rw [ih _ (size_subst_var ..) hyz hinner, ih b rfl hxw (readdresses_binder hw ys)]
    exact congrArg (Nameless.lam T) hbody
  · rename_i hxy hxz
    have hxz : x ≠ z := fun hxz' => hxz (List.mem_singleton.mpr hxz')
    exact congrArg (Nameless.lam T) (ih b rfl hyz (.cons hxy hxz h))

/-- **Renaming**: replacing a variable by one with primes behind it keeps the nameless form, where
the new name refers to what the variable referred to. -/
theorem nameless_subst_var (hyz : Name.IsPrimed y z) (h : t.Readdresses y z xs ys) :
    (t.subst y (var z)).nameless xs = t.nameless ys := by
  induction t using inductUpToSize generalizing y z xs ys with
  | bool | zero | string | nil => rfl
  | var x =>
    have hx := h x (List.mem_singleton_self x)
    rw [subst_var, nameless, ← hx]
    split <;> rfl
  | lam x T b ih => exact nameless_subst_var_lam T ih hyz h
  | letIn x v b ihv ih =>
    obtain ⟨x', b', hlam, hletIn⟩ := exists_subst_binder y (var z) v b x .bool
    have hv := ihv hyz (h.part fun w hw => List.mem_append_left _ hw)
    have hb := nameless_subst_var_lam .bool ih hyz (h.part fun w hw => List.mem_append_right _ hw)
    rw [hlam, nameless, nameless] at hb
    rw [hletIn, nameless, nameless, hv, (Nameless.lam.inj hb).2]
  | record fields ih =>
    rw [subst_record, nameless, nameless, namelessFields_eq_map, namelessFields_eq_map,
      List.map_map]
    refine congrArg Nameless.record (List.map_congr_left fun f hf => congrArg (f.1, ·) ?_)
    refine ih f hf hyz (h.part fun x hx => ?_)
    rw [freeVars_record]
    exact List.mem_flatMap.mpr ⟨f, hf, hx⟩
  | ite t u v iht ihu ihv =>
    rw [subst_ite, nameless, nameless,
      iht hyz (h.part fun x hx => List.mem_append_left _ (List.mem_append_left _ hx)),
      ihu hyz (h.part fun x hx => List.mem_append_left _ (List.mem_append_right _ hx)),
      ihv hyz (h.part fun x hx => List.mem_append_right _ hx)]
  | app t u iht ihu | concat t u iht ihu | pair t u iht ihu | cons t u iht ihu =>
    have ht := iht hyz (h.part fun x hx => List.mem_append_left _ hx)
    have hu := ihu hyz (h.part fun x hx => List.mem_append_right _ hx)
    simp only [subst_app, subst_concat, subst_pair, subst_cons, nameless, ht, hu]
  | succ t ih | pred t ih | isZero t ih | fix t ih | fst t ih | snd t ih | proj t _ ih | isNil t ih
  | head t ih | tail t ih =>
    simp only [subst_succ, subst_pred, subst_isZero, subst_fix, subst_fst, subst_snd, subst_proj,
      subst_isNil, subst_head, subst_tail, nameless, ih hyz h]

/-- A body in which the variable of its binder is renamed to a primed name that is not free in it
has behind a binder of the new name the form that it had behind its own. -/
theorem nameless_renamed (hyz : Name.IsPrimed y z) (hz : z ∉ t.freeVars) (xs : List String) :
    (t.subst y (var z)).nameless (z :: xs) = t.nameless (y :: xs) :=
  nameless_subst_var hyz (readdresses_binder hz xs)

/-- **Renaming a binder is an alpha-conversion**: when a binder that is to be avoided gets a fresh
name, which its variable in the body is replaced by, the function or definition is alpha-equivalent
to the one that it was, whatever primed names the body binds. Behind the new binder, and behind any
others around it, every occurrence in the body refers to the binder that it referred to. -/
theorem alphaEquiv_of_fresh_binder {names : List String} (T : Ty) (b : Term) (hy : y ∈ names) :
    let z := Name.fresh y (b.freeVars ++ names)
    (lam z T (b.subst y (var z))).AlphaEquiv (lam y T b) ∧
      (∀ v, (letIn z v (b.subst y (var z))).AlphaEquiv (letIn y v b)) ∧
      ∀ xs, (b.subst y (var z)).nameless (z :: xs) = b.nameless (y :: xs) := by
  intro z
  have hyz : Name.IsPrimed y z := Name.isPrimed_fresh (List.mem_append_right _ hy)
  have hz : z ∉ b.freeVars := fun hb =>
    Name.fresh_not_mem y (b.freeVars ++ names) (List.mem_append_left _ hb)
  have hbody (xs : List String) : (b.subst y (var z)).nameless (z :: xs) = b.nameless (y :: xs) :=
    nameless_renamed hyz hz xs
  refine ⟨?_, fun v => ?_, hbody⟩
  · rw [alphaEquiv_iff, nameless, nameless, hbody]
  · rw [alphaEquiv_iff, nameless, nameless, hbody]

/-- An inner binder has the new name already, and its variable has one more prime than is free in
the body: it is renamed to `y'''`, and the variable `y''` stays free. -/
theorem alphaEquiv_of_fresh_binder_primed :
    let b := lam "y'" .nat (app (app (var "y") (var "y'")) (var "y''"))
    let b' := lam "y'''" .nat (app (app (var "y'") (var "y'''")) (var "y''"))
    "y" ∈ ["y"] ∧ Name.fresh "y" (b.freeVars ++ ["y"]) = "y'" ∧ b.subst "y" (var "y'") = b' ∧
      (lam "y'" .bool b').AlphaEquiv (lam "y" .bool b) := by
  intro b b'
  have hy : "y" ∈ ["y"] := List.mem_singleton_self _
  have hfresh : Name.fresh "y" (b.freeVars ++ ["y"]) = "y'" := by decide
  have hsubst : b.subst "y" (var "y'") = b' := by decide
  obtain ⟨hlam, -⟩ := alphaEquiv_of_fresh_binder .bool b hy
  rw [hfresh, hsubst] at hlam
  exact ⟨hy, hfresh, hsubst, hlam⟩

end Term

end TypedLambda
