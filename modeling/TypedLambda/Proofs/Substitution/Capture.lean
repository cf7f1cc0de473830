import TypedLambda.Proofs.Substitution.Renaming

/-!
# Substitution without capture

Substitution gives, up to the names of binders, the term that putting the nameless form of the
replacement for the variable gives; where the variable is free, the free variables are those of the
term other than the variable, and those of the replacement. One case is to be set apart. The fresh
name of a binder is new to its body and to the replacement, but it may be the variable itself, if
this is the name of the binder with primes behind it and does not occur in the body. Then the
variable of the renamed binder is taken for the variable that is to be replaced.

## Main definitions

* `Term.scopes`: the binders in a term with their bodies
* `Term.RenamesApart`: no binder gets the name of the variable

## Main results

* `Term.nameless_subst`: the nameless form of a substitution
* `Term.subst_capture_avoiding`: substitution is substitution in nameless forms
* `Term.subst_captures`: a binder that gets the name of the variable
-/

namespace TypedLambda

namespace Term

open Name (IsPrimed)

/-! ## Binders -/

mutual

/-- The binders in a term, each with the body for which it binds. -/
def scopes : Term → List (String × Term)
  | bool _ | zero | var _ | string _ | nil _ => []
  | lam x _ t => (x, t) :: t.scopes
  | letIn x t u => t.scopes ++ (x, u) :: u.scopes
  | succ t | pred t | isZero t | fix t | fst t | snd t | proj t _ | isNil t | head t | tail t =>
    t.scopes
  | app t u | concat t u | pair t u | cons t u => t.scopes ++ u.scopes
  | ite t u v => t.scopes ++ u.scopes ++ v.scopes
  | record fields => scopesFields fields

/-- The binders in fields, each with the body for which it binds. -/
def scopesFields : List (String × Term) → List (String × Term)
  | [] => []
  | (_, t) :: fields => t.scopes ++ scopesFields fields

end

theorem scopesFields_eq_flatMap (fields : List (String × Term)) :
    scopesFields fields = fields.flatMap fun f => f.2.scopes := by
  induction fields with
  | nil => rfl
  | cons f fields ih => rw [scopesFields, ih, List.flatMap_cons]

variable {s t u : Term} {x y z : String}

/-- No binder gets the name `x` when it is renamed, since `x` is not the name of a binder that `s`
mentions with primes behind it; or it gets another one, since `x` occurs in the body of every binder
whose name it is with primes behind it. -/
def RenamesApart (t : Term) (x : String) (s : Term) : Prop :=
  (∀ b ∈ t.scopes, b.1 ∈ s.freeVars → ¬IsPrimed b.1 x) ∨
    ∀ b ∈ t.scopes, IsPrimed b.1 x → x ∈ b.2.freeVars

theorem RenamesApart.part (h : t.RenamesApart x s) (hu : u.scopes ⊆ t.scopes) :
    u.RenamesApart x s :=
  h.imp (fun h b hb => h b (hu hb)) fun h b hb => h b (hu hb)

/-- The fresh name of a binder is not the variable. -/
theorem RenamesApart.fresh_ne {T : Ty} {b : Term} (h : (lam y T b).RenamesApart x s)
    (hy : y ∈ s.freeVars) : Name.fresh y (b.freeVars ++ s.freeVars) ≠ x := by
  rintro rfl
  have hprimed : IsPrimed y (Name.fresh y (b.freeVars ++ s.freeVars)) :=
    Name.isPrimed_fresh (List.mem_append_right _ hy)
  rcases h with h | h
  · exact h (y, b) List.mem_cons_self hy hprimed
  · have hmem := h (y, b) List.mem_cons_self hprimed
    exact Name.fresh_not_mem y (b.freeVars ++ s.freeVars) (List.mem_append_left _ hmem)

/-! ## Renamed bodies -/

section Renamed

variable {P : String → Term → Prop} {Q : String → String → Prop}

/-- What holds of the binders of a function holds of those of the renamed function, if this is so
for all bodies of the same size. -/
theorem forall_scopes_subst_var_lam {b : Term} (T : Ty)
    (hbody : ∀ w b y z, Q y z → P w b → P w (b.subst y (var z)))
    (hbinder : ∀ b y z, Q y z → P z b → let w := Name.fresh z (b.freeVars ++ [z])
      Q z w ∧ P w ((b.subst z (var w)).subst y (var z)))
    (ih : ∀ b' : Term, b'.size = b.size → ∀ {y z : String}, Q y z →
      (∀ p ∈ b'.scopes, P p.1 p.2) → ∀ p ∈ (b'.subst y (var z)).scopes, P p.1 p.2)
    (hyz : Q y z) (h : ∀ p ∈ (lam x T b).scopes, P p.1 p.2) :
    ∀ p ∈ ((lam x T b).subst y (var z)).scopes, P p.1 p.2 := by
  obtain ⟨hx, hb⟩ := List.forall_mem_cons.mp h
  rw [subst_lam]
  split
  · exact h
  split
  · rename_i hxz
    obtain rfl : x = z := List.mem_singleton.mp hxz
    obtain ⟨hw, hPw⟩ := hbinder b y x hyz hx
    exact List.forall_mem_cons.mpr ⟨hPw, ih _ (size_subst_var ..) hyz (ih b rfl hw hb)⟩
  · exact List.forall_mem_cons.mpr ⟨hbody x b y z hyz hx, ih b rfl hyz hb⟩

/-- What holds of the binders of a term holds of those of the renamed term, if it is kept when the
body of a binder is renamed, and when a binder is renamed that has the new name already. -/
theorem forall_scopes_subst_var
    (hbody : ∀ w b y z, Q y z → P w b → P w (b.subst y (var z)))
    (hbinder : ∀ b y z, Q y z → P z b → let w := Name.fresh z (b.freeVars ++ [z])
      Q z w ∧ P w ((b.subst z (var w)).subst y (var z)))
    (hyz : Q y z) (h : ∀ p ∈ t.scopes, P p.1 p.2) :
    ∀ p ∈ (t.subst y (var z)).scopes, P p.1 p.2 := by
  induction t using inductUpToSize generalizing y z with
  | bool | zero | string | nil => exact h
  | var x =>
    rw [subst_var]
    split <;> exact List.forall_mem_nil _
  | lam x T b ih => exact forall_scopes_subst_var_lam T hbody hbinder ih hyz h
  | letIn x v b ihv ih =>
    obtain ⟨x', b', hlam, hletIn⟩ := exists_subst_binder y (var z) v b x .bool
    obtain ⟨hv, hb⟩ := List.forall_mem_append.mp h
    have hb' := forall_scopes_subst_var_lam .bool hbody hbinder ih hyz hb
    rw [hlam] at hb'
    rw [hletIn]
    exact List.forall_mem_append.mpr ⟨ihv hyz hv, hb'⟩
  | record fields ih =>
    simp only [subst_record, scopes, scopesFields_eq_flatMap, List.flatMap_map,
      List.forall_mem_flatMap] at h ⊢
    exact fun f hf => ih f hf hyz (h f hf)
  | ite t u v iht ihu ihv =>
    simp only [subst_ite, scopes, List.forall_mem_append] at h ⊢
    exact ⟨⟨iht hyz h.1.1, ihu hyz h.1.2⟩, ihv hyz h.2⟩
  | app t u iht ihu | concat t u iht ihu | pair t u iht ihu | cons t u iht ihu =>
    simp only [subst_app, subst_concat, subst_pair, subst_cons, scopes, List.forall_mem_append]
      at h ⊢
    exact ⟨iht hyz h.1, ihu hyz h.2⟩
  | succ t ih | pred t ih | isZero t ih | fix t ih | fst t ih | snd t ih | proj t _ ih | isNil t ih
  | head t ih | tail t ih => exact ih hyz h

end Renamed

/-- The renamed body of a binder that `s` mentions renames apart, too. -/
theorem RenamesApart.renamed {T : Ty} {b : Term} (h : (lam y T b).RenamesApart x s) (hyx : y ≠ x)
    (hy : y ∈ s.freeVars) :
    (b.subst y (var (Name.fresh y (b.freeVars ++ s.freeVars)))).RenamesApart x s := by
  have hyz : IsPrimed y (Name.fresh y (b.freeVars ++ s.freeVars)) :=
    Name.isPrimed_fresh (List.mem_append_right _ hy)
  have hzx := h.fresh_ne hy
  generalize Name.fresh y (b.freeVars ++ s.freeVars) = z at hyz hzx
  refine h.imp (fun h => ?_) fun h => ?_
  · -- the names that renaming makes up have more primes than `y`, of which `x` is no primed variant
    refine forall_scopes_subst_var (P := fun w _ => w ∈ s.freeVars → ¬IsPrimed w x)
      (Q := fun _ z => ¬IsPrimed z x) (fun _ _ _ _ _ hw => hw) ?_ ?_ ?_
    · intro b y z hz _
      have hzw : IsPrimed z (Name.fresh z (b.freeVars ++ [z])) :=
        Name.isPrimed_fresh (List.mem_append_right _ (List.mem_singleton_self z))
      exact ⟨fun hw => hz (hzw.trans hw), fun _ hw => hz (hzw.trans hw)⟩
    · exact fun hz => h (y, b) List.mem_cons_self hy (hyz.trans hz)
    · exact fun p hp => h p (List.mem_cons_of_mem _ hp)
  · refine forall_scopes_subst_var (P := fun w b => IsPrimed w x → x ∈ b.freeVars)
      (Q := fun y z => x ≠ y ∧ x ≠ z) ?_ ?_ ⟨hyx.symm, hzx.symm⟩ ?_
    · exact fun w b y z hQ hw hwx => mem_freeVars_subst (.inl ⟨hw hwx, hQ.1⟩)
    · intro b y z hQ hz w
      have hzw : IsPrimed z w :=
        Name.isPrimed_fresh (List.mem_append_right _ (List.mem_singleton_self z))
      have hxw : x ≠ w := fun hxw => Name.fresh_not_mem z (b.freeVars ++ [z])
        (List.mem_append_left _ (show w ∈ b.freeVars from hxw ▸ hz (hxw ▸ hzw)))
      refine ⟨⟨hQ.2, hxw⟩, fun hwx => ?_⟩
      exact mem_freeVars_subst (.inl ⟨mem_freeVars_subst (.inl ⟨hz (hzw.trans hwx), hQ.2⟩), hQ.1⟩)
    · exact fun p hp => h p (List.mem_cons_of_mem _ hp)

/-! ## The nameless form of a substitution -/

/-- Behind binders that bind none of its variables, a term has the same nameless form. -/
theorem nameless_of_not_mem {xs : List String} (h : ∀ y ∈ t.freeVars, y ∉ xs) :
    t.nameless xs = t.nameless [] := by
  refine nameless_congr fun y hy => ?_
  rw [Referent.of_nil, Referent.of_eq_free_iff]
  exact ⟨rfl, h y hy⟩

/-- The nameless form of a substitution in a function, if all bodies of the same size have it. -/
theorem nameless_subst_lam {xs : List String} {b : Term} (T : Ty)
    (ih : ∀ b' : Term, b'.size = b.size → ∀ {xs : List String}, b'.RenamesApart x s → x ∉ xs →
      (∀ y ∈ s.freeVars, y ∉ xs) →
      (b'.subst x s).nameless xs = (b'.nameless xs).put x (s.nameless []))
    (h : (lam y T b).RenamesApart x s) (hx : x ∉ xs) (hs : ∀ y ∈ s.freeVars, y ∉ xs) :
    ((lam y T b).subst x s).nameless xs = ((lam y T b).nameless xs).put x (s.nameless []) := by
  have behind {z : String} (hz : z ∉ s.freeVars) : ∀ y ∈ s.freeVars, y ∉ z :: xs := by
    intro y hy hmem
    rcases List.mem_cons.mp hmem with rfl | hmem
    · exact hz hy
    · exact hs y hy hmem
  rw [subst_lam]
  split
  · rename_i hyx
    subst hyx
    exact (congrArg (Nameless.lam T) (put_nameless_of_not_mem _ fun _ => List.mem_cons_self)).symm
  rename_i hyx
  split
  · rename_i hy
    have hz : Name.fresh y (b.freeVars ++ s.freeVars) ∉ b.freeVars ++ s.freeVars :=
      Name.fresh_not_mem y (b.freeVars ++ s.freeVars)
    have hyz : IsPrimed y (Name.fresh y (b.freeVars ++ s.freeVars)) :=
      Name.isPrimed_fresh (List.mem_append_right _ hy)
    have hzx := h.fresh_ne hy
    have hb := h.renamed hyx hy
    generalize Name.fresh y (b.freeVars ++ s.freeVars) = z at hz hyz hzx hb
    rw [List.mem_append, not_or] at hz
    have hxz : x ∉ z :: xs := List.not_mem_cons_of_ne_of_not_mem hzx.symm hx
    refine congrArg (Nameless.lam T) ?_
    rw [ih _ (size_subst_var ..) hb hxz (behind hz.2), nameless_renamed hyz hz.1]
  · rename_i hy
    have hxy : x ∉ y :: xs := List.not_mem_cons_of_ne_of_not_mem (Ne.symm hyx) hx
    exact congrArg (Nameless.lam T)
      (ih b rfl (h.part (List.subset_cons_self _ _)) hxy (behind hy))

/-- The nameless form of a substitution behind binders of other names. -/
theorem nameless_subst {xs : List String} (h : t.RenamesApart x s) (hx : x ∉ xs)
    (hs : ∀ y ∈ s.freeVars, y ∉ xs) :
    (t.subst x s).nameless xs = (t.nameless xs).put x (s.nameless []) := by
  induction t using inductUpToSize generalizing xs with
  | bool | zero | string | nil => rfl
  | var y =>
    rw [subst_var, nameless, Nameless.put]
    by_cases hyx : y = x
    · rw [if_pos hyx, if_pos (Referent.of_eq_free_iff.mpr ⟨hyx, hyx ▸ hx⟩), nameless_of_not_mem hs]
    · rw [if_neg hyx, if_neg fun hy => hyx (Referent.of_eq_free_iff.mp hy).1, nameless]
  | lam y T b ih => exact nameless_subst_lam T ih h hx hs
  | letIn y v b ihv ih =>
    obtain ⟨y', b', hlam, hletIn⟩ := exists_subst_binder x s v b y .bool
    have hv := ihv (h.part (List.subset_append_left _ _)) hx hs
    have hb := nameless_subst_lam .bool ih (h.part (List.subset_append_right _ _)) hx hs
    rw [hlam, nameless, nameless, Nameless.put] at hb
    rw [hletIn, nameless, nameless, Nameless.put, hv, (Nameless.lam.inj hb).2]
  | record fields ih =>
    rw [subst_record, nameless, nameless, Nameless.put, namelessFields_eq_map,
      namelessFields_eq_map, Nameless.putFields_eq_map, List.map_map, List.map_map]
    refine congrArg Nameless.record (List.map_congr_left fun f hf => congrArg (f.1, ·) ?_)
    refine ih f hf (h.part fun b hb => ?_) hx hs
    rw [scopes, scopesFields_eq_flatMap]
    exact List.mem_flatMap.mpr ⟨f, hf, hb⟩
  | ite t u v iht ihu ihv =>
    rw [subst_ite, nameless, nameless, Nameless.put,
      iht (h.part fun b hb => List.mem_append_left _ (List.mem_append_left _ hb)) hx hs,
      ihu (h.part fun b hb => List.mem_append_left _ (List.mem_append_right _ hb)) hx hs,
      ihv (h.part (List.subset_append_right _ _)) hx hs]
  | app t u iht ihu | concat t u iht ihu | pair t u iht ihu | cons t u iht ihu =>
    have ht := iht (h.part (List.subset_append_left _ _)) hx hs
    have hu := ihu (h.part (List.subset_append_right _ _)) hx hs
    simp only [subst_app, subst_concat, subst_pair, subst_cons, nameless, Nameless.put, ht, hu]
  | succ t ih | pred t ih | isZero t ih | fix t ih | fst t ih | snd t ih | proj t _ ih | isNil t ih
  | head t ih | tail t ih =>
    simp only [subst_succ, subst_pred, subst_isZero, subst_fix, subst_fst, subst_snd, subst_proj,
      subst_isNil, subst_head, subst_tail, nameless, Nameless.put, ih h hx hs]

/-! ## Substitution -/

/-- **Substitution is capture-avoiding** as long as no binder gets the name of the variable: a term
differs from the result in the names of its binders only exactly when its nameless form is that of
`t` with that of `s` put for `x`, and where `x` is not free the free variables are those of `t`.
Where `x` is free, the free variables are in any case those of `t` other than `x`, and those of
`s`. -/
theorem subst_capture_avoiding (x : String) (s t : Term) :
    (t.RenamesApart x s →
      (∀ u, (t.subst x s).AlphaEquiv u ↔ u.nameless [] = (t.nameless []).put x (s.nameless [])) ∧
        (x ∉ t.freeVars → ∀ y, y ∈ (t.subst x s).freeVars ↔ y ∈ t.freeVars)) ∧
      (x ∈ t.freeVars → ∀ y, y ∈ (t.subst x s).freeVars ↔
        y ∈ t.freeVars ∧ y ≠ x ∨ y ∈ s.freeVars) := by
  refine ⟨fun h => ?_, fun hx y => ⟨mem_freeVars_of_mem_subst, fun hy => ?_⟩⟩
  · have hform : (t.subst x s).nameless [] = (t.nameless []).put x (s.nameless []) :=
      nameless_subst h List.not_mem_nil fun _ _ => List.not_mem_nil
    refine ⟨fun u => ?_, fun hx y => ?_⟩
    · rw [alphaEquiv_iff, hform, eq_comm]
    · rw [put_nameless_of_not_mem _ fun hmem => absurd hmem hx, ← alphaEquiv_iff] at hform
      rw [hform.freeVars_eq]
  · exact mem_freeVars_subst (hy.imp_right fun hs => ⟨hx, hs⟩)

/-- The replacement mentions the binder `y`, and `y'` is the variable: since it occurs in the body,
the binder becomes `y''`. In a body where nothing is to be replaced, the binder is renamed, too. -/
theorem subst_capture_avoiding_primed :
    let t := lam "y" .nat (app (var "y'") (var "y"))
    let u := lam "y" .nat (var "y")
    t.RenamesApart "y'" (var "y") ∧ u.RenamesApart "x" (var "y") ∧
      t.subst "y'" (var "y") = lam "y''" .nat (app (var "y") (var "y''")) ∧
      u.subst "x" (var "y") = lam "y'" .nat (var "y'") ∧
      (t.subst "y'" (var "y")).AlphaEquiv (lam "z" .nat (app (var "y") (var "z"))) ∧
      (∀ x, x ∈ (t.subst "y'" (var "y")).freeVars ↔
        x ∈ t.freeVars ∧ x ≠ "y'" ∨ x ∈ (var "y").freeVars) ∧
      ∀ x, x ∈ (u.subst "x" (var "y")).freeVars ↔ x ∈ u.freeVars := by
  intro t u
  have ht : t.RenamesApart "y'" (var "y") :=
    .inr (List.forall_mem_singleton.mpr fun _ => by decide)
  have hyx : ¬IsPrimed "y" "x" := by
    rintro ⟨k, hk⟩
    have hlength : 1 = 1 + (k + 1) := (congrArg String.length hk).trans (Name.length_primed "y" _)
    omega
  have hu : u.RenamesApart "x" (var "y") := .inl (List.forall_mem_singleton.mpr fun _ => hyx)
  obtain ⟨htform, htvars⟩ := subst_capture_avoiding "y'" (var "y") t
  obtain ⟨huform, -⟩ := subst_capture_avoiding "x" (var "y") u
  exact ⟨ht, hu, by decide, by decide, ((htform ht).1 _).mpr rfl, htvars (by decide),
    (huform hu).2 (by decide)⟩

/-- **A variable is captured** where the binder gets the name of the variable that is to be
replaced: `y'` is not free in the function that gives its argument `y`, but when `y` is put for it,
the binder becomes `y'`, and then its variable is replaced by a free `y`. -/
theorem subst_captures :
    let t := lam "y" .nat (var "y")
    t.subst "y'" (var "y") = lam "y'" .nat (var "y") ∧
      (t.subst "y'" (var "y")).nameless [] ≠ (t.nameless []).put "y'" ((var "y").nameless []) ∧
      "y'" ∉ t.freeVars ∧ "y" ∉ t.freeVars ∧ "y" ∈ (t.subst "y'" (var "y")).freeVars := by
  intro t
  have hsubst : t.subst "y'" (var "y") = lam "y'" .nat (var "y") := by decide
  refine ⟨hsubst, ?_, by decide, by decide, by decide⟩
  rw [hsubst]
  exact fun h => nomatch h

end Term

end TypedLambda
