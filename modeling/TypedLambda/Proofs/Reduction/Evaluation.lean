import TypedLambda.Proofs.Reduction.Frame
import TypedLambda.Proofs.Reduction.Run

/-!
# Evaluation in one go

The value of a term from the values of its parts: rules that relate a term to its value at once and
say nothing of the steps in between. Functions are evaluated before their arguments, pairs, records
and lists from left to right, and of a conditional only the arm that the guard chooses. Reduction by
single steps leads to the same values. In one direction the runs of the parts are carried out one
after the other in the frames where they stand; in the other, evaluation is followed backwards along
a run, step by step.

## Main definitions

* `Term.Evaluates`: a term and its value
* `Term.ReducesTo`: a term and what some number of steps leads to

## Main results

* `Term.Evaluates.reducesTo`: runs of the parts make up a run of the whole
* `Term.Evaluates.of_step`: a term has the values of what it steps to
* `Term.evaluates_iff`: evaluation and reduction give the same values
-/

namespace TypedLambda

namespace Term

/-! ## The rules -/

/-- The term has the value `v`. -/
inductive Evaluates : (t v : Term) → Prop
  | bool (b : Bool) : Evaluates (bool b) (bool b)
  | zero : Evaluates zero zero
  | string (s : String) : Evaluates (string s) (string s)
  | lam (x : String) (T : Ty) (b : Term) : Evaluates (lam x T b) (lam x T b)
  | nil (T : Ty) : Evaluates (nil T) (nil T)
  | succ {t n : Term} (ht : Evaluates t n) (hn : n.isNumeral = true) :
      Evaluates (succ t) (succ n)
  | predZero {t : Term} (ht : Evaluates t zero) : Evaluates (pred t) zero
  | predSucc {t n : Term} (ht : Evaluates t (succ n)) : Evaluates (pred t) n
  | isZeroZero {t : Term} (ht : Evaluates t zero) : Evaluates (isZero t) (bool true)
  | isZeroSucc {t n : Term} (ht : Evaluates t (succ n)) : Evaluates (isZero t) (bool false)
  | iteTrue {t u w : Term} (v : Term) (ht : Evaluates t (bool true)) (hu : Evaluates u w) :
      Evaluates (ite t u v) w
  | iteFalse {t v w : Term} (u : Term) (ht : Evaluates t (bool false)) (hv : Evaluates v w) :
      Evaluates (ite t u v) w
  /-- The function first, then its argument, then the body. -/
  | app {t u v b w : Term} {x : String} {T : Ty} (ht : Evaluates t (lam x T b))
      (hu : Evaluates u v) (hb : Evaluates (b.subst x v) w) : Evaluates (app t u) w
  | letIn {x : String} {t v b w : Term} (ht : Evaluates t v) (hb : Evaluates (b.subst x v) w) :
      Evaluates (letIn x t b) w
  /-- The fixed point of a function stands for itself in the body. -/
  | fix {t b w : Term} {x : String} {T : Ty} (ht : Evaluates t (lam x T b))
      (hb : Evaluates (b.subst x (fix (lam x T b))) w) : Evaluates (fix t) w
  | concat {t u : Term} {s r : String} (ht : Evaluates t (string s)) (hu : Evaluates u (string r)) :
      Evaluates (concat t u) (string (s ++ r))
  | pair {t u v w : Term} (ht : Evaluates t v) (hu : Evaluates u w) :
      Evaluates (pair t u) (pair v w)
  | fst {t v w : Term} (ht : Evaluates t (pair v w)) : Evaluates (fst t) v
  | snd {t v w : Term} (ht : Evaluates t (pair v w)) : Evaluates (snd t) w
  | emptyRecord : Evaluates (record []) (record [])
  /-- The first field, then the record of the others. -/
  | record {label : String} {t v : Term} {fields values : List (String × Term)}
      (ht : Evaluates t v) (hrest : Evaluates (record fields) (record values)) :
      Evaluates (record ((label, t) :: fields)) (record ((label, v) :: values))
  /-- The first field of that label is taken. -/
  | proj {t v : Term} {values : List (String × Term)} {label : String}
      (ht : Evaluates t (record values)) (hl : values.lookup label = some v) :
      Evaluates (proj t label) v
  | cons {t u v w : Term} (ht : Evaluates t v) (hu : Evaluates u w) :
      Evaluates (cons t u) (cons v w)
  | isNilNil {t : Term} {T : Ty} (ht : Evaluates t (nil T)) : Evaluates (isNil t) (bool true)
  | isNilCons {t v w : Term} (ht : Evaluates t (cons v w)) : Evaluates (isNil t) (bool false)
  | head {t v w : Term} (ht : Evaluates t (cons v w)) : Evaluates (head t) v
  | tail {t v w : Term} (ht : Evaluates t (cons v w)) : Evaluates (tail t) w

variable {t t' u v w : Term}

/-! ## Values -/

theorem isNumeral_of_isValue_succ (h : (Term.succ t).isValue = true) : t.isNumeral = true := by
  rwa [isValue] at h

theorem isValue_pair_iff :
    (Term.pair v w).isValue = true ↔ v.isValue = true ∧ w.isValue = true := by
  rw [isValue, Bool.and_eq_true]

theorem isValue_cons_iff :
    (Term.cons v w).isValue = true ↔ v.isValue = true ∧ w.isValue = true := by
  rw [isValue, Bool.and_eq_true]

theorem isValue_record_cons_iff {f : String × Term} {fields : List (String × Term)} :
    (Term.record (f :: fields)).isValue = true ↔
      f.2.isValue = true ∧ (Term.record fields).isValue = true := by
  rw [isValue_record, isValue_record, List.all_cons, Bool.and_eq_true]

theorem isValue_of_lookup {fields : List (String × Term)} {label : String}
    (h : (Term.record fields).isValue = true) (hl : fields.lookup label = some v) :
    v.isValue = true := by
  obtain ⟨before, after, rfl, -⟩ := List.lookup_eq_some_iff.mp hl
  rw [isValue_record, List.all_eq_true] at h
  exact h (label, v) (List.mem_append_right _ List.mem_cons_self)

/-- Evaluation gives values. -/
theorem Evaluates.isValue (h : t.Evaluates v) : v.isValue = true := by
  induction h with
  | bool | zero | string | lam | nil | predZero | isZeroZero | isZeroSucc | isNilNil | isNilCons
  | concat | emptyRecord => rfl
  | succ _ hn _ => exact hn
  | predSucc _ ih => exact isValue_of_isNumeral (isNumeral_of_isValue_succ ih)
  | iteTrue _ _ _ _ ih | iteFalse _ _ _ _ ih | app _ _ _ _ _ ih | letIn _ _ _ ih | fix _ _ _ ih =>
    exact ih
  | pair _ _ iht ihu => exact isValue_pair_iff.mpr ⟨iht, ihu⟩
  | fst _ ih => exact (isValue_pair_iff.mp ih).1
  | snd _ ih => exact (isValue_pair_iff.mp ih).2
  | record _ _ iht ihrest => exact isValue_record_cons_iff.mpr ⟨iht, ihrest⟩
  | proj _ hl ih => exact isValue_of_lookup ih hl
  | cons _ _ iht ihu => exact isValue_cons_iff.mpr ⟨iht, ihu⟩
  | head _ ih => exact (isValue_cons_iff.mp ih).1
  | tail _ ih => exact (isValue_cons_iff.mp ih).2

/-- A value evaluates to itself. -/
theorem evaluates_of_isValue (h : v.isValue = true) : v.Evaluates v := by
  induction v with
  | bool b => exact .bool b
  | zero => exact .zero
  | string s => exact .string s
  | lam x T b => exact .lam x T b
  | nil T => exact .nil T
  | succ n ih =>
    have hn := isNumeral_of_isValue_succ h
    exact .succ (ih (isValue_of_isNumeral hn)) hn
  | pair v w ihv ihw =>
    obtain ⟨hv, hw⟩ := isValue_pair_iff.mp h
    exact .pair (ihv hv) (ihw hw)
  | cons v w ihv ihw =>
    obtain ⟨hv, hw⟩ := isValue_cons_iff.mp h
    exact .cons (ihv hv) (ihw hw)
  | record fields ih =>
    induction fields with
    | nil => exact .emptyRecord
    | cons f fields ihf =>
      obtain ⟨hf, hfields⟩ := isValue_record_cons_iff.mp h
      exact .record (ih f List.mem_cons_self hf)
        (ihf (fun g hg => ih g (List.mem_cons_of_mem f hg)) hfields)
  | _ => cases h

/-- A value evaluates to nothing else. -/
theorem Evaluates.eq_of_isValue (h : t.Evaluates v) (ht : t.isValue = true) : v = t := by
  induction h with
  | bool | zero | string | lam | nil | emptyRecord => rfl
  | succ _ _ ih => rw [ih (isValue_of_isNumeral (isNumeral_of_isValue_succ ht))]
  | pair _ _ iht ihu =>
    obtain ⟨ht, hu⟩ := isValue_pair_iff.mp ht
    rw [iht ht, ihu hu]
  | cons _ _ iht ihu =>
    obtain ⟨ht, hu⟩ := isValue_cons_iff.mp ht
    rw [iht ht, ihu hu]
  | record _ _ iht ihrest =>
    obtain ⟨ht, hrest⟩ := isValue_record_cons_iff.mp ht
    rw [iht ht, record.inj (ihrest hrest)]
  | _ => cases ht

/-! ## From evaluation to runs -/

/-- Some number of steps leads from the one term to the other. -/
def ReducesTo (t u : Term) : Prop :=
  ∃ n, steps n t = some u

theorem steps_add (m n : Nat) (t : Term) : steps (m + n) t = (steps m t).bind (steps n) := by
  induction m generalizing t with
  | zero => rw [Nat.zero_add, steps, Option.bind_some]
  | succ m ih =>
    rw [Nat.succ_add, steps, steps, Option.bind_assoc]
    exact congrArg _ (funext ih)

theorem ReducesTo.refl (t : Term) : t.ReducesTo t :=
  ⟨0, rfl⟩

theorem ReducesTo.trans (h : t.ReducesTo u) (h' : u.ReducesTo v) : t.ReducesTo v := by
  obtain ⟨m, hm⟩ := h
  obtain ⟨n, hn⟩ := h'
  exact ⟨m + n, by rw [steps_add, hm, Option.bind_some, hn]⟩

theorem ReducesTo.of_contracts (h : Contracts t u) : t.ReducesTo u :=
  ⟨1, by rw [steps, step_of_contracts h]; rfl⟩

/-- A run goes on in a frame. -/
theorem ReducesTo.fill (h : t.ReducesTo u) (F : Frame) : (F.fill t).ReducesTo (F.fill u) := by
  obtain ⟨n, hn⟩ := h
  refine ⟨n, ?_⟩
  induction n generalizing t with
  | zero => rw [Option.some.inj hn, steps]
  | succ n ih =>
    obtain ⟨s, hs, hn⟩ := Option.bind_eq_some_iff.mp hn
    rw [steps, step_fill_of_step F hs, Option.bind_some, ih hn]

/-- Behind a field that is a value, the run of the other fields goes on. -/
theorem ReducesTo.record_cons {label : String} (hv : v.isValue = true)
    {fields values : List (String × Term)} (h : (record fields).ReducesTo (record values)) :
    (record ((label, v) :: fields)).ReducesTo (record ((label, v) :: values)) := by
  obtain ⟨n, hn⟩ := h
  refine ⟨n, ?_⟩
  induction n generalizing fields with
  | zero => rw [record.inj (Option.some.inj hn), steps]
  | succ n ih =>
    obtain ⟨s, hs, hn⟩ := Option.bind_eq_some_iff.mp hn
    obtain ⟨gs, hgs, rfl⟩ := Option.map_eq_some_iff.mp hs
    rw [steps, step, stepFields, if_pos hv, hgs, Option.map_some, Option.map_some, Option.bind_some,
      ih hn]

/-- Reduction leads to the value of a term. -/
theorem Evaluates.reducesTo (h : t.Evaluates v) : t.ReducesTo v := by
  -- the parts are reduced in their frames, in the order of the premises; then the redex contracts
  induction h with
  | bool | zero | string | lam | nil | emptyRecord => exact .refl _
  | succ _ _ ih => exact ih.fill .succ
  | predZero _ ih => exact (ih.fill .pred).trans (.of_contracts .predZero)
  | predSucc ht ih =>
    have hn := isNumeral_of_isValue_succ ht.isValue
    exact (ih.fill .pred).trans (.of_contracts (.predSucc hn))
  | isZeroZero _ ih => exact (ih.fill .isZero).trans (.of_contracts .isZeroZero)
  | isZeroSucc ht ih =>
    have hn := isNumeral_of_isValue_succ ht.isValue
    exact (ih.fill .isZero).trans (.of_contracts (.isZeroSucc hn))
  | @iteTrue _ u _ v _ _ iht ihu =>
    exact (iht.fill (.ite u v)).trans ((ReducesTo.of_contracts (.iteTrue u v)).trans ihu)
  | @iteFalse _ v _ u _ _ iht ihv =>
    exact (iht.fill (.ite u v)).trans ((ReducesTo.of_contracts (.iteFalse u v)).trans ihv)
  | @app _ u v b _ x T _ hu _ iht ihu ihb =>
    have hfun := iht.fill (.appFun u)
    have harg := ihu.fill (.appArg (Term.lam x T b) rfl)
    exact hfun.trans (harg.trans ((ReducesTo.of_contracts (.app x T b hu.isValue)).trans ihb))
  | @letIn x _ v b _ ht _ iht ihb =>
    exact (iht.fill (.letIn x b)).trans
      ((ReducesTo.of_contracts (.letIn x ht.isValue b)).trans ihb)
  | @fix _ b _ x T _ _ iht ihb =>
    exact (iht.fill .fix).trans ((ReducesTo.of_contracts (.fix x T b)).trans ihb)
  | @concat _ u s r _ _ iht ihu =>
    have hfirst := iht.fill (.concatFirst u)
    have hsecond := ihu.fill (.concatSecond s)
    exact hfirst.trans (hsecond.trans (.of_contracts (.concat s r)))
  | @pair _ u v _ ht _ iht ihu =>
    exact (iht.fill (.pairFirst u)).trans (ihu.fill (.pairSecond v ht.isValue))
  | fst ht ih =>
    obtain ⟨hv, hw⟩ := isValue_pair_iff.mp ht.isValue
    exact (ih.fill .fst).trans (.of_contracts (.fst hv hw))
  | snd ht ih =>
    obtain ⟨hv, hw⟩ := isValue_pair_iff.mp ht.isValue
    exact (ih.fill .snd).trans (.of_contracts (.snd hv hw))
  | @record label _ v fields _ ht _ iht ihrest =>
    have hfirst := iht.fill (.record [] (List.forall_mem_nil _) label fields)
    exact hfirst.trans (ihrest.record_cons ht.isValue)
  | @proj _ v values label ht hl ih =>
    have hv := ht.isValue
    rw [isValue_record, List.all_eq_true] at hv
    exact (ih.fill (.proj label)).trans (.of_contracts (.proj hv hl))
  | @cons _ u v _ ht _ iht ihu =>
    exact (iht.fill (.consHead u)).trans (ihu.fill (.consTail v ht.isValue))
  | @isNilNil _ T _ ih => exact (ih.fill .isNil).trans (.of_contracts (.isNilNil T))
  | isNilCons ht ih =>
    obtain ⟨hv, hw⟩ := isValue_cons_iff.mp ht.isValue
    exact (ih.fill .isNil).trans (.of_contracts (.isNilCons hv hw))
  | head ht ih =>
    obtain ⟨hv, hw⟩ := isValue_cons_iff.mp ht.isValue
    exact (ih.fill .head).trans (.of_contracts (.head hv hw))
  | tail ht ih =>
    obtain ⟨hv, hw⟩ := isValue_cons_iff.mp ht.isValue
    exact (ih.fill .tail).trans (.of_contracts (.tail hv hw))

/-! ## From runs to evaluation -/

/-- A redex has the values of its contraction. -/
theorem Evaluates.of_contracts (h : Contracts t t') (hv : t'.Evaluates v) : t.Evaluates v := by
  cases h with
  | iteTrue t u => exact .iteTrue u (.bool true) hv
  | iteFalse t u => exact .iteFalse t (.bool false) hv
  | predZero =>
    obtain rfl := hv.eq_of_isValue rfl
    exact .predZero .zero
  | predSucc hn =>
    obtain rfl := hv.eq_of_isValue (isValue_of_isNumeral hn)
    exact .predSucc (.succ hv hn)
  | isZeroZero =>
    obtain rfl := hv.eq_of_isValue rfl
    exact .isZeroZero .zero
  | isZeroSucc hn =>
    obtain rfl := hv.eq_of_isValue rfl
    exact .isZeroSucc (.succ (evaluates_of_isValue (isValue_of_isNumeral hn)) hn)
  | app x T b ha => exact .app (.lam x T b) (evaluates_of_isValue ha) hv
  | letIn x ha b => exact .letIn (evaluates_of_isValue ha) hv
  | fix x T b => exact .fix (.lam x T b) hv
  | concat s r =>
    obtain rfl := hv.eq_of_isValue rfl
    exact .concat (.string s) (.string r)
  | fst h₁ h₂ =>
    obtain rfl := hv.eq_of_isValue h₁
    exact .fst (.pair hv (evaluates_of_isValue h₂))
  | snd h₁ h₂ =>
    obtain rfl := hv.eq_of_isValue h₂
    exact .snd (.pair (evaluates_of_isValue h₁) hv)
  | proj hfields hl =>
    have hrecord := isValue_record _ ▸ List.all_eq_true.mpr hfields
    obtain rfl := hv.eq_of_isValue (isValue_of_lookup hrecord hl)
    exact .proj (evaluates_of_isValue hrecord) hl
  | isNilNil T =>
    obtain rfl := hv.eq_of_isValue rfl
    exact .isNilNil (.nil T)
  | isNilCons h₁ h₂ =>
    obtain rfl := hv.eq_of_isValue rfl
    exact .isNilCons (.cons (evaluates_of_isValue h₁) (evaluates_of_isValue h₂))
  | head h₁ h₂ =>
    obtain rfl := hv.eq_of_isValue h₁
    exact .head (.cons hv (evaluates_of_isValue h₂))
  | tail h₁ h₂ =>
    obtain rfl := hv.eq_of_isValue h₂
    exact .tail (.cons (evaluates_of_isValue h₁) hv)

/-- The value of a field may come from another term. -/
theorem Evaluates.record_congr (h : ∀ w, t'.Evaluates w → t.Evaluates w) {label : String}
    {before after : List (String × Term)}
    (hv : (Term.record (before ++ (label, t') :: after)).Evaluates v) :
    (Term.record (before ++ (label, t) :: after)).Evaluates v := by
  induction before generalizing v with
  | nil =>
    cases hv with
    | record ht hrest => exact .record (h _ ht) hrest
  | cons f before ih =>
    cases hv with
    | record hf hrest => exact .record hf (ih hrest)

/-- The value of the term in a frame may come from another term. -/
theorem Evaluates.fill_congr (h : ∀ w, t'.Evaluates w → t.Evaluates w) {F : Frame}
    (hv : (F.fill t').Evaluates v) : (F.fill t).Evaluates v := by
  cases F with
  | record before _ label after => exact .record_congr h hv
  | succ =>
    cases hv with
    | succ ht hn => exact .succ (h _ ht) hn
  | pred =>
    cases hv with
    | predZero ht => exact .predZero (h _ ht)
    | predSucc ht => exact .predSucc (h _ ht)
  | isZero =>
    cases hv with
    | isZeroZero ht => exact .isZeroZero (h _ ht)
    | isZeroSucc ht => exact .isZeroSucc (h _ ht)
  | ite u v =>
    cases hv with
    | iteTrue _ ht hu => exact .iteTrue v (h _ ht) hu
    | iteFalse _ ht hv => exact .iteFalse u (h _ ht) hv
  | appFun a =>
    cases hv with
    | app ht hu hb => exact .app (h _ ht) hu hb
  | appArg f _ =>
    cases hv with
    | app ht hu hb => exact .app ht (h _ hu) hb
  | letIn x b =>
    cases hv with
    | letIn ht hb => exact .letIn (h _ ht) hb
  | fix =>
    cases hv with
    | fix ht hb => exact .fix (h _ ht) hb
  | concatFirst u =>
    cases hv with
    | concat ht hu => exact .concat (h _ ht) hu
  | concatSecond s =>
    cases hv with
    | concat ht hu => exact .concat ht (h _ hu)
  | pairFirst u =>
    cases hv with
    | pair ht hu => exact .pair (h _ ht) hu
  | pairSecond u _ =>
    cases hv with
    | pair ht hu => exact .pair ht (h _ hu)
  | fst =>
    cases hv with
    | fst ht => exact .fst (h _ ht)
  | snd =>
    cases hv with
    | snd ht => exact .snd (h _ ht)
  | proj label =>
    cases hv with
    | proj ht hl => exact .proj (h _ ht) hl
  | consHead u =>
    cases hv with
    | cons ht hu => exact .cons (h _ ht) hu
  | consTail u _ =>
    cases hv with
    | cons ht hu => exact .cons ht (h _ hu)
  | isNil =>
    cases hv with
    | isNilNil ht => exact .isNilNil (h _ ht)
    | isNilCons ht => exact .isNilCons (h _ ht)
  | head =>
    cases hv with
    | head ht => exact .head (h _ ht)
  | tail =>
    cases hv with
    | tail ht => exact .tail (h _ ht)

/-- A term has the values of what it steps to. -/
theorem Evaluates.of_step (h : t.step = some t') (hv : t'.Evaluates v) : t.Evaluates v := by
  induction h using step_induct generalizing v with
  | contract t t' hc => exact .of_contracts hc hv
  | frame F t t' _ ih => exact hv.fill_congr fun w hw => ih hw

/-- A run to a value is followed backwards, from the value that evaluates to itself. -/
theorem evaluates_of_steps {n : Nat} (h : steps n t = some v) (hv : v.isValue = true) :
    t.Evaluates v := by
  induction n generalizing t with
  | zero =>
    obtain rfl := Option.some.inj h
    exact evaluates_of_isValue hv
  | succ n ih =>
    obtain ⟨u, hu, hn⟩ := Option.bind_eq_some_iff.mp h
    exact .of_step hu (ih hn)

/-- **Big steps and small steps**: a term evaluates to `v` exactly when `v` is a value and some
number of steps leads to it, which is when the run of the term comes to its end at the value `v`. -/
theorem evaluates_iff (t v : Term) :
    (t.Evaluates v ↔ v.isValue = true ∧ ∃ n, steps n t = some v) ∧
      (t.Evaluates v ↔ v.isValue = true ∧ ∃ n, t.outcome (fun _ => false) n = .finished v) := by
  refine ⟨⟨fun h => ⟨h.isValue, h.reducesTo⟩, fun ⟨hv, n, hn⟩ => evaluates_of_steps hn hv⟩,
    fun h => ⟨h.isValue, ?_⟩, fun ⟨hv, n, hn⟩ => ?_⟩
  · obtain ⟨n, hn⟩ := h.reducesTo
    exact ⟨n, outcome_of_steps hn (step_of_isValue h.isValue)⟩
  · obtain ⟨m, hm, -⟩ := exists_steps_of_outcome hn
    exact evaluates_of_steps hm hv

end Term

end TypedLambda
