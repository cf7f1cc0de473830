import TypedLambda.Proofs.Printer.Term
import TypedLambda.Proofs.Reduction.Progress

/-!
# Names and strings in a run

Reduction makes up no names but fresh variants of binders, and no strings but those that it puts one
behind another. So when all that stands in a term is admitted by the grammar, and its strings belong
to a class that is closed under concatenation, the same holds of all terms that a run reaches. Free
variables are left out; a closed term has none.

## Main definitions

* `Term.Admits`, `Term.Admitted`: binders, labels and types that the grammar admits, and strings of
  a class
* `Term.strings`: the string constants of a term

## Main results

* `Term.Admitted.subst`: substitution
* `Term.Admitted.steps`: runs
* `Term.Admitted.wellNamed`: closed terms with plain strings are well-named
-/

namespace TypedLambda

/-! ## Fresh names -/

namespace Grammar

/-- A name stays one with a prime behind it. -/
theorem IsName.prime {x : String} (hx : IsName x) : IsName (x ++ "'") := by
  obtain ⟨hfirst, hchars, -⟩ := hx
  have hlist : (x ++ "'").toList = x.toList ++ ['\x27'] := String.toList_append
  refine ⟨?_, ?_, fun hmem => ?_⟩
  · rw [hlist, List.head?_append]
    cases hhead : x.toList.head? with
    | none =>
      rw [hhead] at hfirst
      cases hfirst
    | some c => rwa [hhead] at hfirst
  · rw [hlist, List.all_append, hchars]
    rfl
  · have hprime : ∀ w ∈ keywords, '\x27' ∉ w.toList := by decide
    exact hprime _ hmem (hlist ▸ List.mem_append_right _ List.mem_cons_self)

theorem IsName.fresh {x : String} (hx : IsName x) (avoid : List String) :
    IsName (Name.fresh x avoid) := by
  have within (bound : Nat) : ∀ x, IsName x → IsName (Name.freshWithin bound x avoid) := by
    induction bound with
    | zero => exact fun _ hx => hx
    | succ bound ih =>
      intro x hx
      rw [Name.freshWithin]
      split
      · exact ih _ hx.prime
      · exact hx
  exact within avoid.length x hx

end Grammar

namespace Term

/-! ## Admitted terms -/

/-- What stands at the root of the term is admitted by the grammar, and a string is in `S`. -/
def Admits (S : String → Prop) : Term → Prop
  | lam x T _ => Grammar.IsName x ∧ T.WellNamed
  | letIn x _ _ => Grammar.IsName x
  | string s => S s
  | record fields => ∀ f ∈ fields, Grammar.IsName f.1
  | proj _ label => Grammar.IsName label
  | nil T => T.WellNamed
  | _ => True

/-- What stands anywhere in the term is admitted by the grammar, and all strings are in `S`. -/
def Admitted (S : String → Prop) (t : Term) : Prop :=
  ∀ u, Occurs u t → u.Admits S

variable {S : String → Prop} {s t t' : Term}

theorem Admitted.root (h : t.Admitted S) : t.Admits S :=
  h t .here

theorem Admitted.part (h : t.Admitted S) (hs : s ∈ t.parts) : s.Admitted S :=
  fun u hu => h u (.inside hs hu)

theorem Admitted.intro (h : t.Admits S) (hparts : ∀ s ∈ t.parts, s.Admitted S) :
    t.Admitted S := by
  intro u hu
  cases hu with
  | here => exact h
  | inside hs hu => exact hparts _ hs u hu

theorem admitted_iff : t.Admitted S ↔ t.Admits S ∧ ∀ s ∈ t.parts, s.Admitted S :=
  ⟨fun h => ⟨h.root, fun _ hs => h.part hs⟩, fun ⟨h, hparts⟩ => .intro h hparts⟩

theorem admitted_of_parts_eq_nil (h : t.parts = []) (ht : t.Admits S) : t.Admitted S :=
  .intro ht (h ▸ List.forall_mem_nil _)

theorem admitted_var (x : String) : (var x).Admitted S :=
  admitted_of_parts_eq_nil rfl trivial

/-! ## Strings -/

mutual

/-- The string constants of a term, from left to right. -/
def strings : Term → List String
  | string s => [s]
  | bool _ | zero | var _ | nil _ => []
  | succ t | pred t | isZero t | lam _ _ t | fix t | fst t | snd t | proj t _ | isNil t | head t
  | tail t => t.strings
  | app t u | letIn _ t u | concat t u | pair t u | cons t u => t.strings ++ u.strings
  | ite t u v => t.strings ++ u.strings ++ v.strings
  | record fields => stringsFields fields

/-- The string constants of fields, from left to right. -/
def stringsFields : List (String × Term) → List String
  | [] => []
  | (_, t) :: fields => t.strings ++ stringsFields fields

end

theorem stringsFields_eq_flatMap (fields : List (String × Term)) :
    stringsFields fields = fields.flatMap fun f => f.2.strings := by
  induction fields with
  | nil => rfl
  | cons f fields ih => rw [stringsFields, ih, List.flatMap_cons]

theorem strings_subset_of_mem_parts (h : s ∈ t.parts) : s.strings ⊆ t.strings := by
  cases t with
  | record fields =>
    obtain ⟨f, hf, rfl⟩ := List.mem_map.mp h
    rw [strings, stringsFields_eq_flatMap]
    exact fun r hr => List.mem_flatMap.mpr ⟨f, hf, hr⟩
  | bool | zero | var | string | nil => cases h
  | succ t | pred t | isZero t | lam _ _ t | fix t | fst t | snd t | proj t _ | isNil t | head t
  | tail t =>
    obtain rfl := List.mem_singleton.mp h
    exact List.Subset.refl _
  | app t u | letIn _ t u | concat t u | pair t u | cons t u =>
    obtain rfl | rfl : s = t ∨ s = u := by simpa [parts] using h
    · exact List.subset_append_left _ _
    · exact List.subset_append_right _ _
  | ite t u v =>
    obtain rfl | rfl | rfl : s = t ∨ s = u ∨ s = v := by simpa [parts] using h
    · exact fun r hr => List.mem_append_left _ (List.mem_append_left _ hr)
    · exact fun r hr => List.mem_append_left _ (List.mem_append_right _ hr)
    · exact List.subset_append_right _ _

theorem mem_strings_of_occurs {r : String} (h : Occurs (string r) t) : r ∈ t.strings := by
  induction h with
  | here => exact List.mem_cons_self
  | inside hs _ ih => exact strings_subset_of_mem_parts hs ih

/-- Only the strings of a term depend on the class. -/
theorem Admitted.of_strings {S' : String → Prop} (h : t.Admitted S')
    (hS : ∀ r ∈ t.strings, S r) : t.Admitted S := by
  intro u hu
  have hu' := h u hu
  cases u with
  | string r => exact hS r (mem_strings_of_occurs hu)
  | _ => exact hu'

/-! ## Substitution -/

/-- Substitution puts admitted terms together. -/
theorem Admitted.subst (ht : t.Admitted S) (hs : s.Admitted S) (x : String) :
    (t.subst x s).Admitted S := by
  have renamed {b s : Term} {x y : String} (ih : ∀ b' : Term, b'.size = b.size → ∀ {s : Term},
      b'.Admitted S → s.Admitted S → ∀ x, (b'.subst x s).Admitted S) (hb : b.Admitted S)
      (hs : s.Admitted S) (z : String) : ((b.subst y (var z)).subst x s).Admitted S :=
    ih _ (size_subst_var ..) (ih b rfl hb (admitted_var z) y) hs x
  induction t using inductUpToSize generalizing x s with
  | bool | zero | string | nil => exact ht
  | var y =>
    rw [subst_var]
    split
    · exact hs
    · exact ht
  | lam y T b ih =>
    have hb : b.Admitted S := ht.part List.mem_cons_self
    rw [subst_lam]
    split
    · exact ht
    split
    · refine .intro ⟨ht.root.1.fresh _, ht.root.2⟩ ?_
      exact List.forall_mem_singleton.mpr (renamed ih hb hs _)
    · exact .intro ht.root (List.forall_mem_singleton.mpr (ih b rfl hb hs x))
  | letIn y v b ihv ih =>
    have hv := ihv (ht.part List.mem_cons_self) hs x
    have hb : b.Admitted S := ht.part (List.mem_cons_of_mem _ List.mem_cons_self)
    have both {z : String} {b' : Term} (hz : Grammar.IsName z) (hb' : b'.Admitted S) :
        (letIn z (v.subst x s) b').Admitted S :=
      .intro hz (List.forall_mem_cons.mpr ⟨hv, List.forall_mem_singleton.mpr hb'⟩)
    rw [subst_letIn]
    split
    · exact both ht.root hb
    split
    · exact both (Grammar.IsName.fresh ht.root _) (renamed ih hb hs _)
    · exact both ht.root (ih b rfl hb hs x)
  | record fields ih =>
    obtain ⟨hlabels, hfields⟩ := admitted_iff.mp ht
    rw [parts, List.forall_mem_map] at hfields
    rw [subst_record, admitted_iff, parts, List.map_map]
    refine ⟨List.forall_mem_map.mpr hlabels, List.forall_mem_map.mpr fun f hf => ?_⟩
    exact ih f hf (hfields f hf) hs x
  | ite t u v iht ihu ihv =>
    simp only [subst_ite, admitted_iff (t := ite _ _ _), parts, List.forall_mem_cons] at ht ⊢
    exact ⟨trivial, iht ht.2.1 hs x, ihu ht.2.2.1 hs x, ihv ht.2.2.2.1 hs x, ht.2.2.2.2⟩
  | app t u iht ihu | concat t u iht ihu | pair t u iht ihu | cons t u iht ihu =>
    simp only [subst_app, subst_concat, subst_pair, subst_cons]
    rw [admitted_iff, parts, List.forall_mem_cons, List.forall_mem_singleton] at ht ⊢
    exact ⟨trivial, iht ht.2.1 hs x, ihu ht.2.2 hs x⟩
  | proj t label ih =>
    exact .intro ht.root (List.forall_mem_singleton.mpr (ih (ht.part List.mem_cons_self) hs x))
  | succ t ih | pred t ih | isZero t ih | fix t ih | fst t ih | snd t ih | isNil t ih | head t ih
  | tail t ih =>
    exact .intro trivial (List.forall_mem_singleton.mpr (ih (ht.part List.mem_cons_self) hs x))

/-! ## Reduction -/

/-- A part of a frame is the term in the hole, or a part whatever stands in the hole. -/
theorem mem_parts_fill_cases {F : Frame} (t' : Term) (h : s ∈ (F.fill t).parts) :
    s = t ∨ s ∈ (F.fill t').parts := by
  cases F with
  | record before hv label after =>
    simp only [Frame.fill, parts, List.map_append, List.map_cons, List.mem_append,
      List.mem_cons] at h ⊢
    tauto
  | _ =>
    simp only [Frame.fill, parts, List.mem_cons, List.not_mem_nil, or_false] at h ⊢
    tauto

/-- The root of a frame does not depend on the term in the hole. -/
theorem Admits.fill {F : Frame} (t' : Term) (h : (F.fill t).Admits S) :
    (F.fill t').Admits S := by
  cases F with
  | record before hv label after =>
    simp only [Frame.fill, Admits, List.forall_mem_append, List.forall_mem_cons] at h ⊢
    exact h
  | _ => exact h

theorem Admitted.fill {F : Frame} (h : (F.fill t).Admitted S) (ht' : t'.Admitted S) :
    (F.fill t').Admitted S := by
  refine .intro (h.root.fill t') fun s hs => ?_
  rcases mem_parts_fill_cases t hs with rfl | hs
  · exact ht'
  · exact h.part hs

/-- A contraction puts together parts of the redex. -/
theorem Admitted.contracts (hS : ∀ r r', S r → S r' → S (r ++ r')) (hc : Contracts t t')
    (ht : t.Admitted S) : t'.Admitted S := by
  cases hc with
  | iteTrue | iteFalse => exact ht.part (by simp [parts])
  | predZero => exact ht.part (by simp [parts])
  | isZeroZero | isZeroSucc | isNilNil | isNilCons => exact admitted_of_parts_eq_nil rfl trivial
  | predSucc | fst | head =>
    exact (ht.part List.mem_cons_self).part List.mem_cons_self
  | snd | tail =>
    exact (ht.part List.mem_cons_self).part (List.mem_cons_of_mem _ List.mem_cons_self)
  | app x T b _ =>
    have hb : b.Admitted S := (ht.part List.mem_cons_self).part List.mem_cons_self
    exact hb.subst (ht.part (List.mem_cons_of_mem _ List.mem_cons_self)) x
  | letIn x _ b =>
    have hb : b.Admitted S := ht.part (List.mem_cons_of_mem _ List.mem_cons_self)
    exact hb.subst (ht.part List.mem_cons_self) x
  | fix x T b =>
    have hb : b.Admitted S := (ht.part List.mem_cons_self).part List.mem_cons_self
    exact hb.subst ht x
  | concat r r' =>
    have hr : S r := (ht.part List.mem_cons_self).root
    have hr' : S r' := (ht.part (List.mem_cons_of_mem _ List.mem_cons_self)).root
    exact admitted_of_parts_eq_nil rfl (hS r r' hr hr')
  | proj _ hl =>
    exact (ht.part List.mem_cons_self).part (List.mem_map_of_mem (mem_of_lookup hl))

/-- A step keeps terms admitted. -/
theorem Admitted.step (hS : ∀ r r', S r → S r' → S (r ++ r')) (h : t.step = some t')
    (ht : t.Admitted S) : t'.Admitted S := by
  induction h using step_induct with
  | contract t t' hc => exact ht.contracts hS hc
  | frame F t t' _ ih => exact ht.fill (ih (ht.part (mem_parts_fill F t)))

/-- So does a run. -/
theorem Admitted.steps (hS : ∀ r r', S r → S r' → S (r ++ r')) {n : Nat}
    (h : steps n t = some t') (ht : t.Admitted S) : t'.Admitted S :=
  steps_induct (fun _ _ hstep ht => ht.step hS hstep) h ht

/-! ## Well-named terms -/

/-- The string has a literal without escapes. -/
def IsPlainString (s : String) : Prop :=
  s.toList.all isPlainChar = true

instance (s : String) : Decidable (IsPlainString s) :=
  inferInstanceAs (Decidable (_ = true))

theorem IsPlainString.append {r r' : String} (hr : IsPlainString r) (hr' : IsPlainString r') :
    IsPlainString (r ++ r') := by
  rw [IsPlainString, String.toList_append, List.all_append, Bool.and_eq_true]
  exact ⟨hr, hr'⟩

theorem wellNamedFields_iff {fields : List (String × Term)} :
    WellNamedFields fields ↔ ∀ f ∈ fields, Grammar.IsName f.1 ∧ f.2.WellNamed := by
  induction fields with
  | nil => exact iff_of_true trivial (List.forall_mem_nil _)
  | cons f fields ih => rw [WellNamedFields, ih, List.forall_mem_cons, and_assoc]

/-- A term with admitted binders and labels is well-named when its free variables are names. -/
theorem Admitted.wellNamed (ht : t.Admitted IsPlainString)
    (hvars : ∀ x ∈ t.freeVars, Grammar.IsName x) : t.WellNamed := by
  have behind {x : String} {b : Term} (hx : Grammar.IsName x)
      (h : ∀ y ∈ b.freeVars.filter (· ≠ x), Grammar.IsName y) :
      ∀ y ∈ b.freeVars, Grammar.IsName y := by
    intro y hy
    by_cases hyx : y = x
    · exact hyx ▸ hx
    · exact h y (List.mem_filter.mpr ⟨hy, by simpa using hyx⟩)
  induction t with
  | bool | zero => trivial
  | string | nil => exact ht.root
  | var x => exact hvars x List.mem_cons_self
  | lam x T b ih =>
    obtain ⟨hx, hT⟩ := ht.root
    exact ⟨hx, hT, ih (ht.part List.mem_cons_self) (behind hx hvars)⟩
  | letIn x v b ihv ih =>
    obtain ⟨hv, hb⟩ := List.forall_mem_append.mp hvars
    have hx := ht.root
    exact ⟨hx, ihv (ht.part List.mem_cons_self) hv,
      ih (ht.part (List.mem_cons_of_mem _ List.mem_cons_self)) (behind hx hb)⟩
  | record fields ih =>
    rw [freeVars_record] at hvars
    refine wellNamedFields_iff.mpr fun f hf => ⟨ht.root f hf, ?_⟩
    exact ih f hf (ht.part (List.mem_map_of_mem hf))
      fun x hx => hvars x (List.mem_flatMap.mpr ⟨f, hf, hx⟩)
  | ite t u v iht ihu ihv =>
    simp only [freeVars, List.forall_mem_append] at hvars
    exact ⟨iht (ht.part (by simp [parts])) hvars.1.1, ihu (ht.part (by simp [parts])) hvars.1.2,
      ihv (ht.part (by simp [parts])) hvars.2⟩
  | app t u iht ihu | concat t u iht ihu | pair t u iht ihu | cons t u iht ihu =>
    simp only [freeVars, List.forall_mem_append] at hvars
    exact ⟨iht (ht.part (by simp [parts])) hvars.1, ihu (ht.part (by simp [parts])) hvars.2⟩
  | proj t label ih => exact ⟨ih (ht.part List.mem_cons_self) hvars, ht.root⟩
  | succ t ih | pred t ih | isZero t ih | fix t ih | fst t ih | snd t ih | isNil t ih | head t ih
  | tail t ih => exact ih (ht.part List.mem_cons_self) hvars

end Term

end TypedLambda
