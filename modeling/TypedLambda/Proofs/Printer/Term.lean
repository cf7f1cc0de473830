import TypedLambda.Proofs.Printer.Ty
import TypedLambda.Proofs.Reduction.Progress
import TypedLambda.Term.Printer

/-!
# Printed terms

The text of a well-named term lays out lexemes from which the grammar derives this term. Terms stand
at three levels: functions, conditionals and definitions reach to the end of what surrounds them,
operators and applications may take further arguments, and everything else may be an operand. So an
operand needs parentheses at the first two levels, and the function of an application needs none if
it is an application itself. A complete numeral stands at the tightest level, like a constant.

## Main definitions

* `Grammar.WritesTerm`: the texts of a term at a level
* `Term.WellNamed`: terms whose names and strings the grammar admits
* `Term.HasShortNumerals`: terms whose numerals are printed as numbers that are not too long
* `Term.level`: the level at which a term stands without parentheses

## Main results

* `Term.writes`: the printed text of a term
-/

namespace TypedLambda

/-! ## Well-named terms -/

namespace Term

/-- A character that stands for itself in a string literal, and is printed as itself. -/
def isPlainChar (c : Char) : Bool :=
  c ∉ ['"', '\\', '\t', '\n', '\r']

mutual

/-- Names of variables, labels and types are admitted by the grammar, and strings have literals
without escapes. -/
def WellNamed : Term → Prop
  | bool _ | zero => True
  | succ t | pred t | isZero t | fix t | fst t | snd t | isNil t | head t | tail t => t.WellNamed
  | app t u | concat t u | pair t u | cons t u => t.WellNamed ∧ u.WellNamed
  | ite t u v => t.WellNamed ∧ u.WellNamed ∧ v.WellNamed
  | var x => Grammar.IsName x
  | lam x T t => Grammar.IsName x ∧ T.WellNamed ∧ t.WellNamed
  | letIn x t u => Grammar.IsName x ∧ t.WellNamed ∧ u.WellNamed
  | string s => s.toList.all isPlainChar = true
  | record fields => WellNamedFields fields
  | proj t label => t.WellNamed ∧ Grammar.IsName label
  | nil T => T.WellNamed

/-- The fields have admitted labels and well-named terms. -/
def WellNamedFields : List (String × Term) → Prop
  | [] => True
  | (label, t) :: fields => Grammar.IsName label ∧ t.WellNamed ∧ WellNamedFields fields

end

mutual

/-- Whether a term is well-named can be computed. -/
def decidableWellNamed : (t : Term) → Decidable t.WellNamed
  | bool _ | zero => inferInstanceAs (Decidable True)
  | succ t | pred t | isZero t | fix t | fst t | snd t | isNil t | head t | tail t =>
    t.decidableWellNamed
  | app t u | concat t u | pair t u | cons t u =>
    have := t.decidableWellNamed
    have := u.decidableWellNamed
    inferInstanceAs (Decidable (t.WellNamed ∧ u.WellNamed))
  | ite t u v =>
    have := t.decidableWellNamed
    have := u.decidableWellNamed
    have := v.decidableWellNamed
    inferInstanceAs (Decidable (t.WellNamed ∧ u.WellNamed ∧ v.WellNamed))
  | var x => inferInstanceAs (Decidable (Grammar.IsName x))
  | lam x T t =>
    have := t.decidableWellNamed
    inferInstanceAs (Decidable (Grammar.IsName x ∧ T.WellNamed ∧ t.WellNamed))
  | letIn x t u =>
    have := t.decidableWellNamed
    have := u.decidableWellNamed
    inferInstanceAs (Decidable (Grammar.IsName x ∧ t.WellNamed ∧ u.WellNamed))
  | string s => inferInstanceAs (Decidable (s.toList.all isPlainChar = true))
  | record fields => decidableWellNamedFields fields
  | proj t label =>
    have := t.decidableWellNamed
    inferInstanceAs (Decidable (t.WellNamed ∧ Grammar.IsName label))
  | nil T => inferInstanceAs (Decidable T.WellNamed)

/-- Whether fields are well-named can be computed. -/
def decidableWellNamedFields :
    (fields : List (String × Term)) → Decidable (WellNamedFields fields)
  | [] => inferInstanceAs (Decidable True)
  | (label, t) :: fields =>
    have := t.decidableWellNamed
    have := decidableWellNamedFields fields
    inferInstanceAs (Decidable (Grammar.IsName label ∧ t.WellNamed ∧ WellNamedFields fields))

end

instance (t : Term) : Decidable t.WellNamed :=
  t.decidableWellNamed

/-! ## Short numerals -/

theorem size_lt_of_mem_parts {s t : Term} (h : s ∈ t.parts) : s.size < t.size := by
  cases t with
  | record fields =>
    obtain ⟨f, hf, rfl⟩ := List.mem_map.mp h
    exact size_lt_size_record hf
  | bool | zero | var | string | nil => cases h
  | _ =>
    simp only [parts, List.mem_cons, List.not_mem_nil, or_false] at h
    rcases h with rfl | rfl | rfl <;> simp only [size] <;> omega

theorem size_le_of_occurs {u t : Term} (h : Occurs u t) : u.size ≤ t.size := by
  induction h with
  | here => exact Nat.le_refl _
  | inside hs _ ih => exact Nat.le_trans ih (Nat.le_of_lt (size_lt_of_mem_parts hs))

theorem size_numeral (n : Nat) : (numeral n).size = n + 1 := by
  induction n with
  | zero => rfl
  | succ n ih => rw [numeral, size, ih]

/-- No numeral in the term has more digits in decimal than numbers may have. -/
def HasShortNumerals [DigitLimit] (t : Term) : Prop :=
  ∀ n, Occurs (numeral n) t → DigitLimit.admits (Nat.toDigits 10 n).length = true

variable {s t : Term}

theorem HasShortNumerals.part [DigitLimit] (h : t.HasShortNumerals) (hs : s ∈ t.parts) :
    s.HasShortNumerals :=
  fun n hn => h n (.inside hs hn)

theorem hasShortNumerals_unlimited (t : Term) : @HasShortNumerals .unlimited t :=
  fun _ _ => rfl

theorem length_toDigits_mono {m n : Nat} (h : m ≤ n) :
    (Nat.toDigits 10 m).length ≤ (Nat.toDigits 10 n).length := by
  have hpos : 0 < (Nat.toDigits 10 n).length := List.length_pos_of_ne_nil Nat.toDigits_ne_nil
  have hn := (Nat.length_toDigits_le_iff (by decide) hpos).mp (Nat.le_refl _)
  exact (Nat.length_toDigits_le_iff (by decide) hpos).mpr (Nat.lt_of_le_of_lt h hn)

/-- A numeral that is too long has more nodes than can be written as a number. -/
theorem hasShortNumerals_of_size [DigitLimit]
    (h : DigitLimit.admits (Nat.toDigits 10 t.size).length = true) : t.HasShortNumerals := by
  intro n hn
  have hsize := size_le_of_occurs hn
  rw [size_numeral] at hsize
  have hlength := length_toDigits_mono (Nat.le_of_lt hsize)
  rw [DigitLimit.admits, Option.all_eq_true] at h ⊢
  exact fun m hm => decide_eq_true (Nat.le_trans hlength (of_decide_eq_true (h m hm)))

end Term

/-! ## Texts of terms -/

variable {cs cs' cs'' : List Char}

namespace Grammar

theorem valueOfDigits_toDigits (n : Nat) : valueOfDigits (Nat.toDigits 10 n) = n := by
  rw [valueOfDigits, ← Nat.ofDigitChars_eq_foldl, Nat.ofDigitChars_ten_toDigits]

variable [DigitLimit]

/-- The text is the term, at this level. -/
def WritesTerm (level : TermLevel) (t : Term) (cs : List Char) : Prop :=
  ∃ ls, DerivesTerm level ls t ∧ LaysOut ls cs

namespace WritesTerm

variable {level : TermLevel} {t u v : Term} {T : Ty}

theorem simple (h : WritesTerm .atomic t cs) : WritesTerm .simple t cs := by
  obtain ⟨ls, hder, hcs⟩ := h
  exact ⟨ls, .ofAtomic hder, hcs⟩

theorem application (h : WritesTerm .simple t cs) : WritesTerm .application t cs := by
  obtain ⟨ls, hder, hcs⟩ := h
  exact ⟨ls, .ofSimple hder, hcs⟩

/-- A term at a tight level is also one at the loose level. -/
theorem term (h : WritesTerm level t cs) (hlevel : level ≠ .fields) : WritesTerm .term t cs := by
  obtain ⟨ls, hder, hcs⟩ := h
  cases level with
  | fields => exact absurd rfl hlevel
  | atomic => exact ⟨ls, .ofApplication (.ofSimple (.ofAtomic hder)), hcs⟩
  | simple => exact ⟨ls, .ofApplication (.ofSimple hder), hcs⟩
  | application => exact ⟨ls, .ofApplication hder, hcs⟩
  | term => exact ⟨ls, hder, hcs⟩

/-! ### Atomic terms -/

theorem bool (b : Bool) : WritesTerm .atomic (.bool b) (Term.bool b).chars := by
  cases b with
  | true => exact ⟨_, .true, .singleton (l := .keyword "true") (by decide) trivial⟩
  | false => exact ⟨_, .false, .singleton (l := .keyword "false") (by decide) trivial⟩

theorem numeral {n : Nat} (hn : DigitLimit.admits (Nat.toDigits 10 n).length = true) :
    WritesTerm .atomic (.numeral n) (Nat.toDigits 10 n) := by
  have hder := DerivesTerm.number (Nat.toDigits 10 n)
  rw [valueOfDigits_toDigits] at hder
  have hdigits : ∀ d ∈ Nat.toDigits 10 n, d.isDigit = true := fun d hd =>
    Nat.isDigit_of_mem_toDigits (by decide) (by decide) hd
  exact ⟨_, hder, .singleton (l := .number _) ⟨Nat.toDigits_ne_nil, hdigits⟩ hn⟩

theorem var {x : String} (hx : IsName x) : WritesTerm .atomic (.var x) x.toList :=
  ⟨_, .var x, .singleton (l := .name x) hx trivial⟩

theorem string {s : String} (hs : s.toList.all Term.isPlainChar = true) :
    WritesTerm .atomic (.string s) ('"' :: s.toList ++ ['"']) := by
  have hder := DerivesTerm.string s.toList
  rw [String.ofList_toList] at hder
  refine ⟨_, hder, .singleton (l := .literal s.toList) (fun c hc => ?_) trivial⟩
  have hnot := of_decide_eq_true (List.all_eq_true.mp hs c hc)
  simp only [List.mem_cons, List.not_mem_nil, or_false, not_or] at hnot
  obtain ⟨hquote, hbackslash, htab, hnewline, hreturn⟩ := hnot
  exact ⟨by simp [isLiteralChar, hquote, hnewline, hreturn], hbackslash, htab⟩

theorem nil (h : WritesType .type T cs) :
    WritesTerm .atomic (.nil T) ("nil[".toList ++ cs ++ [']']) := by
  obtain ⟨ls, hder, hcs⟩ := h
  have hbrackets := LaysOut.between "[" "]" rfl rfl hcs
  rw [List.append_assoc]
  exact ⟨_, .nil hder, .keyword "nil" rfl hbrackets⟩

theorem paren (h : WritesTerm .term t cs) : WritesTerm .atomic t ('(' :: cs ++ [')']) := by
  obtain ⟨ls, hder, hcs⟩ := h
  exact ⟨_, .paren hder, (LaysOut.between "(" ")" rfl rfl hcs).laysOut⟩

theorem pair (ht : WritesTerm .term t cs) (hu : WritesTerm .term u cs') :
    WritesTerm .atomic (.pair t u) ('\x7b' :: cs ++ ", ".toList ++ cs' ++ ['\x7d']) := by
  obtain ⟨ls, hdert, hcs⟩ := ht
  obtain ⟨ls', hderu, hcs'⟩ := hu
  have hclosing := LaysOutAnywhere.mark "\x7d" rfl .nil
  have hcomma := LaysOutAnywhere.mark "," rfl
    (LaysOutAnywhere.space (hcs'.append hclosing)).laysOut
  have hopening := LaysOutAnywhere.mark "\x7b" rfl (hcs.append hcomma)
  rw [List.append_assoc, List.append_assoc]
  exact ⟨_, .pair hdert hderu, hopening.laysOut⟩

theorem field {label : String} (hlabel : IsName label) (h : WritesTerm .term t cs) :
    WritesTerm .fields (.record [(label, t)]) (label.toList ++ '=' :: cs) := by
  obtain ⟨ls, hder, hcs⟩ := h
  exact ⟨_, .field label hder, .name hlabel (.mark "=" rfl hcs)⟩

theorem fieldCons {label : String} {fields : List (String × Term)} (hlabel : IsName label)
    (h : WritesTerm .term t cs) (hs : WritesTerm .fields (.record fields) cs') :
    WritesTerm .fields (.record ((label, t) :: fields))
      (label.toList ++ '=' :: cs ++ ", ".toList ++ cs') := by
  obtain ⟨ls, hder, hcs⟩ := h
  obtain ⟨ls', hders, hcs'⟩ := hs
  have hcomma := LaysOutAnywhere.mark "," rfl (LaysOutAnywhere.space hcs').laysOut
  have hfield := LaysOut.name hlabel (.mark "=" rfl (hcs.append hcomma))
  rw [List.append_assoc, List.append_assoc]
  exact ⟨_, .fieldCons label hder hders, hfield⟩

theorem emptyRecord : WritesTerm .atomic (.record []) "\x7b\x7d".toList :=
  ⟨_, .emptyRecord, (LaysOut.between "\x7b" "\x7d" rfl rfl .nil).laysOut⟩

theorem record (h : WritesTerm .fields t cs) : WritesTerm .atomic t ('\x7b' :: cs ++ ['\x7d']) := by
  obtain ⟨ls, hder, hcs⟩ := h
  exact ⟨_, .record hder, (LaysOut.between "\x7b" "\x7d" rfl rfl hcs).laysOut⟩

/-! ### Projections and applications -/

theorem fst (h : WritesTerm .simple t cs) : WritesTerm .simple (.fst t) (cs ++ ".1".toList) := by
  obtain ⟨ls, hder, hcs⟩ := h
  have hindex := LaysOut.singleton (l := .index "1") List.mem_cons_self trivial
  exact ⟨_, .fst hder, hcs.append (.mark "." rfl hindex)⟩

theorem snd (h : WritesTerm .simple t cs) : WritesTerm .simple (.snd t) (cs ++ ".2".toList) := by
  obtain ⟨ls, hder, hcs⟩ := h
  have hindex := LaysOut.singleton (l := .index "2")
    (List.mem_cons_of_mem _ List.mem_cons_self) trivial
  exact ⟨_, .snd hder, hcs.append (.mark "." rfl hindex)⟩

theorem proj {label : String} (hlabel : IsName label) (h : WritesTerm .simple t cs) :
    WritesTerm .simple (.proj t label) (cs ++ '.' :: label.toList) := by
  obtain ⟨ls, hder, hcs⟩ := h
  have hname := LaysOut.singleton (l := .name label) hlabel trivial
  exact ⟨_, .proj label hder, hcs.append (.mark "." rfl hname)⟩

theorem app (ht : WritesTerm .application t cs) (hu : WritesTerm .simple u cs') :
    WritesTerm .application (.app t u) (cs ++ ' ' :: cs') := by
  obtain ⟨ls, hdert, hcs⟩ := ht
  obtain ⟨ls', hderu, hcs'⟩ := hu
  exact ⟨_, .app hdert hderu, hcs.append (.space hcs')⟩

theorem unary {w : String} {build : Term → Term} (hw : (w, build) ∈ unaryOperators)
    (h : WritesTerm .simple t cs) :
    WritesTerm .application (build t) (w.toList ++ ' ' :: cs) := by
  obtain ⟨ls, hder, hcs⟩ := h
  have hkeywords : ∀ w ∈ unaryOperators.map Prod.fst, keywords.contains w = true := by decide
  exact ⟨_, .unary hw hder, .keyword w (hkeywords w (List.mem_map_of_mem hw)) (.space hcs)⟩

theorem binary {w : String} {build : Term → Term → Term} (hw : (w, build) ∈ binaryOperators)
    (ht : WritesTerm .simple t cs) (hu : WritesTerm .simple u cs') :
    WritesTerm .application (build t u) (w.toList ++ ' ' :: cs ++ ' ' :: cs') := by
  obtain ⟨ls, hdert, hcs⟩ := ht
  obtain ⟨ls', hderu, hcs'⟩ := hu
  have hkeywords : ∀ w ∈ binaryOperators.map Prod.fst, keywords.contains w = true := by decide
  have hoperands := LaysOutAnywhere.space (hcs.append (.space hcs'))
  rw [List.append_assoc]
  exact ⟨_, .binary hw hdert hderu, .keyword w (hkeywords w (List.mem_map_of_mem hw)) hoperands⟩

/-! ### Functions, conditionals and definitions -/

/-- A keyword between two parts. -/
theorem keyword_between (w : String) (hw : keywords.contains w = true) {ls ls' : List Lexeme}
    (hcs : LaysOut ls cs) (hcs' : LaysOut ls' cs') :
    LaysOut (ls ++ .keyword w :: ls') (cs ++ ' ' :: (w.toList ++ ' ' :: cs')) :=
  hcs.append (.space (.keyword w hw (.space hcs')))

theorem lam {x : String} (hx : IsName x) (hT : WritesType .type T cs)
    (ht : WritesTerm .term t cs') : WritesTerm .term (.lam x T t)
      ("lambda ".toList ++ x.toList ++ ':' :: cs ++ ". ".toList ++ cs') := by
  obtain ⟨ls, hderT, hcs⟩ := hT
  obtain ⟨ls', hdert, hcs'⟩ := ht
  have hbody := hcs.append (.mark "." rfl (LaysOutAnywhere.space hcs').laysOut)
  have hname := LaysOut.name hx (.mark ":" rfl hbody)
  have hder := DerivesTerm.lam (.inl rfl) x hderT hdert
  simp only [List.append_assoc, List.cons_append]
  exact ⟨_, hder, .keyword "lambda" rfl (.space hname)⟩

theorem ite (ht : WritesTerm .term t cs) (hu : WritesTerm .term u cs')
    (hv : WritesTerm .term v cs'') : WritesTerm .term (.ite t u v)
      ("if ".toList ++ cs ++ " then ".toList ++ cs' ++ " else ".toList ++ cs'') := by
  obtain ⟨ls, hdert, hcs⟩ := ht
  obtain ⟨ls', hderu, hcs'⟩ := hu
  obtain ⟨ls'', hderv, hcs''⟩ := hv
  have hbranches := keyword_between "else" rfl hcs' hcs''
  have hparts := keyword_between "then" rfl hcs hbranches
  simp only [List.append_assoc]
  exact ⟨_, .ite hdert hderu hderv, .keyword "if" rfl (.space hparts)⟩

theorem letIn {x : String} (hx : IsName x) (ht : WritesTerm .term t cs)
    (hu : WritesTerm .term u cs') : WritesTerm .term (.letIn x t u)
      ("let ".toList ++ x.toList ++ " = ".toList ++ cs ++ " in ".toList ++ cs') := by
  obtain ⟨ls, hdert, hcs⟩ := ht
  obtain ⟨ls', hderu, hcs'⟩ := hu
  have hparts := keyword_between "in" rfl hcs hcs'
  have hequals := LaysOutAnywhere.mark "=" rfl (LaysOutAnywhere.space hparts).laysOut
  have hname := LaysOut.name hx (.space hequals.laysOut)
  simp only [List.append_assoc]
  exact ⟨_, .letIn x hdert hderu, .keyword "let" rfl (.space hname)⟩

end WritesTerm

end Grammar

/-! ## The printer -/

namespace Term

variable {t : Term}

/-- Whether the term reaches to the end of what surrounds it. -/
def isOpen : Term → Bool
  | lam _ _ _ | ite _ _ _ | letIn _ _ _ => true
  | _ => false

/-- The level of the grammar at which the term stands without parentheses. -/
def level (t : Term) : Grammar.TermLevel :=
  if t.isAtomic then .simple else if t.isOpen then .term else .application

theorem level_of_isAtomic (h : t.isAtomic = true) : t.level = .simple :=
  if_pos h

theorem level_ne_fields (t : Term) : t.level ≠ .fields := by
  unfold level
  split
  · exact fun h => nomatch h
  · split <;> exact fun h => nomatch h

theorem chars_succ (t : Term) : (succ t).chars =
    match t.toNat? with
    | some n => Nat.toDigits 10 (n + 1)
    | none => "succ ".toList ++ t.wrapOperand t.chars := rfl

variable [DigitLimit]

/-- Any term may stand where the grammar admits all terms. -/
theorem writes_term (h : Grammar.WritesTerm t.level t cs) : Grammar.WritesTerm .term t cs :=
  h.term t.level_ne_fields

/-- Parentheses around all but the tightest terms make an operand. -/
theorem writes_operand (h : Grammar.WritesTerm t.level t cs) :
    Grammar.WritesTerm .simple t (t.wrapOperand cs) := by
  unfold wrapOperand
  cases hatomic : t.isAtomic with
  | true =>
    rw [level_of_isAtomic hatomic] at h
    exact h
  | false => exact (writes_term h).paren.simple

/-- The function of an application may be an application. -/
theorem writes_function (h : Grammar.WritesTerm t.level t cs) :
    Grammar.WritesTerm .application t (t.wrapFunction cs) := by
  unfold wrapFunction
  cases hatomic : t.isAtomic with
  | true =>
    rw [level_of_isAtomic hatomic] at h
    exact h.application
  | false =>
    cases happ : t.isApp with
    | true =>
      cases t with
      | app => exact h
      | _ => cases happ
    | false => exact (writes_term h).paren.simple.application

theorem writes_fields {fields : List (String × Term)} (hne : fields ≠ [])
    (ih : ∀ f ∈ fields, f.2.WellNamed → Grammar.WritesTerm f.2.level f.2 f.2.chars)
    (h : WellNamedFields fields) :
    Grammar.WritesTerm .fields (.record fields) (charsFields fields) := by
  induction fields with
  | nil => exact absurd rfl hne
  | cons f fields ihf =>
    obtain ⟨label, t⟩ := f
    obtain ⟨hlabel, ht, hfields⟩ := h
    obtain ⟨iht, ihs⟩ := List.forall_mem_cons.mp ih
    have hwrites := writes_term (iht ht)
    cases fields with
    | nil => exact hwrites.field hlabel
    | cons g fields => exact hwrites.fieldCons hlabel (ihf (List.cons_ne_nil g fields) ihs hfields)

/-- The printed text of a successor is a number or an operator with its operand. -/
theorem writes_succ (hshort : (succ t).HasShortNumerals)
    (h : Grammar.WritesTerm t.level t t.chars) :
    Grammar.WritesTerm (succ t).level (succ t) (succ t).chars := by
  cases hn : t.toNat? with
  | some n =>
    have hchars : (succ t).chars = Nat.toDigits 10 (n + 1) := by rw [chars_succ, hn]
    have hatomic : (succ t).isAtomic = true := by
      simp only [isAtomic, isNumeral, hn, Option.isSome_some]
    obtain rfl := toNat?_eq_some_iff.mp hn
    rw [hchars, level_of_isAtomic hatomic]
    exact (Grammar.WritesTerm.numeral (hshort (n + 1) .here)).simple
  | none =>
    have hchars : (succ t).chars = "succ ".toList ++ t.wrapOperand t.chars := by
      rw [chars_succ, hn]
    have hlevel : (succ t).level = .application := by
      simp only [level, isAtomic, isNumeral, hn, Option.isSome_none, isOpen, Bool.false_eq_true,
        if_false]
    rw [hchars, hlevel]
    exact .unary (w := "succ") List.mem_cons_self (writes_operand h)

/-- The printed text of a well-named term with short numerals is this term. -/
theorem writes (t : Term) (h : t.WellNamed) (hshort : t.HasShortNumerals) :
    Grammar.WritesTerm t.level t t.chars := by
  have hunary {w : String} {build : Term → Term} (i : Nat)
      (hw : Grammar.unaryOperators[i]? = some (w, build)) {t : Term}
      (ht : Grammar.WritesTerm t.level t t.chars) :
      Grammar.WritesTerm .application (build t) (w.toList ++ ' ' :: t.wrapOperand t.chars) :=
    .unary (List.mem_of_getElem? hw) (writes_operand ht)
  have hbinary {w : String} {build : Term → Term → Term} (i : Nat)
      (hw : Grammar.binaryOperators[i]? = some (w, build)) {t u : Term}
      (ht : Grammar.WritesTerm t.level t t.chars) (hu : Grammar.WritesTerm u.level u u.chars) :
      Grammar.WritesTerm .application (build t u)
        (w.toList ++ ' ' :: t.wrapOperand t.chars ++ ' ' :: u.wrapOperand u.chars) :=
    .binary (List.mem_of_getElem? hw) (writes_operand ht) (writes_operand hu)
  have hfirst {s t : Term} {ss : List Term} (hparts : t.parts = s :: ss)
      (ht : t.HasShortNumerals) : s.HasShortNumerals :=
    ht.part (hparts ▸ List.mem_cons_self)
  have hsecond {s s' t : Term} {ss : List Term} (hparts : t.parts = s :: s' :: ss)
      (ht : t.HasShortNumerals) : s'.HasShortNumerals :=
    ht.part (hparts ▸ List.mem_cons_of_mem _ List.mem_cons_self)
  induction t with
  | bool b => exact (Grammar.WritesTerm.bool b).simple
  | zero =>
    have hzero := (Grammar.WritesTerm.numeral (hshort 0 .here)).simple
    rw [Nat.toDigits_zero] at hzero
    exact hzero
  | succ t ih => exact writes_succ hshort (ih h (hfirst rfl hshort))
  | pred t ih => exact hunary 1 rfl (ih h (hfirst rfl hshort))
  | isZero t ih => exact hunary 2 rfl (ih h (hfirst rfl hshort))
  | ite t u v iht ihu ihv =>
    have hv : v.HasShortNumerals := hshort.part (by simp [parts])
    exact .ite (writes_term (iht h.1 (hfirst rfl hshort)))
      (writes_term (ihu h.2.1 (hsecond rfl hshort))) (writes_term (ihv h.2.2 hv))
  | var x => exact (Grammar.WritesTerm.var h).simple
  | lam x T t ih =>
    exact .lam h.1 (Ty.writes_type (T.writes h.2.1)) (writes_term (ih h.2.2 (hfirst rfl hshort)))
  | app t u iht ihu =>
    exact (writes_function (iht h.1 (hfirst rfl hshort))).app
      (writes_operand (ihu h.2 (hsecond rfl hshort)))
  | letIn x t u iht ihu =>
    exact .letIn h.1 (writes_term (iht h.2.1 (hfirst rfl hshort)))
      (writes_term (ihu h.2.2 (hsecond rfl hshort)))
  | fix t ih => exact hunary 3 rfl (ih h (hfirst rfl hshort))
  | string s => exact (Grammar.WritesTerm.string h).simple
  | concat t u iht ihu =>
    exact hbinary 0 rfl (iht h.1 (hfirst rfl hshort)) (ihu h.2 (hsecond rfl hshort))
  | pair t u iht ihu =>
    have ht := writes_term (iht h.1 (hfirst rfl hshort))
    exact (ht.pair (writes_term (ihu h.2 (hsecond rfl hshort)))).simple
  | fst t ih => exact (writes_operand (ih h (hfirst rfl hshort))).fst
  | snd t ih => exact (writes_operand (ih h (hfirst rfl hshort))).snd
  | record fields ih =>
    have hfields : ∀ f ∈ fields, f.2.WellNamed → Grammar.WritesTerm f.2.level f.2 f.2.chars :=
      fun f hf hwell => ih f hf hwell (hshort.part (List.mem_map_of_mem hf))
    cases fields with
    | nil => exact Grammar.WritesTerm.emptyRecord.simple
    | cons f fields => exact (writes_fields (List.cons_ne_nil f fields) hfields h).record.simple
  | proj t label ih => exact (writes_operand (ih h.1 (hfirst rfl hshort))).proj h.2
  | nil T => exact (Grammar.WritesTerm.nil (Ty.writes_type (T.writes h))).simple
  | cons t u iht ihu =>
    exact hbinary 1 rfl (iht h.1 (hfirst rfl hshort)) (ihu h.2 (hsecond rfl hshort))
  | isNil t ih => exact hunary 4 rfl (ih h (hfirst rfl hshort))
  | head t ih => exact hunary 5 rfl (ih h (hfirst rfl hshort))
  | tail t ih => exact hunary 6 rfl (ih h (hfirst rfl hshort))

end Term

end TypedLambda
