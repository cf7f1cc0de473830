import TypedLambda.Proofs.Grammar.Derivation
import TypedLambda.Ty.Printer

/-!
# Printed types

The text of a well-named type lays out lexemes from which the grammar derives this type, and at the
level that belongs to its outermost form. The text of a part is put into the text of the whole where
the level of the part is admitted: the parentheses of the printer stand exactly where it is not.

## Main definitions

* `Grammar.WritesType`: the texts of a type at a level
* `Ty.WellNamed`: types whose names the grammar admits

## Main results

* `Ty.writes`: the printed text of a type
-/

namespace TypedLambda

variable {cs cs' : List Char}

/-! ## Well-named types -/

namespace Ty

mutual

/-- Labels and names of types are admitted by the grammar. -/
def WellNamed : Ty → Prop
  | bool | nat | string => True
  | arrow A B | prod A B => A.WellNamed ∧ B.WellNamed
  | record fields => WellNamedFields fields
  | list A => A.WellNamed
  | named X => Grammar.IsTypeName X

/-- The fields have admitted labels and well-named types. -/
def WellNamedFields : List (String × Ty) → Prop
  | [] => True
  | (label, A) :: fields => Grammar.IsName label ∧ A.WellNamed ∧ WellNamedFields fields

end

mutual

/-- Whether a type is well-named can be computed. -/
def decidableWellNamed : (T : Ty) → Decidable T.WellNamed
  | bool | nat | string => inferInstanceAs (Decidable True)
  | arrow A B | prod A B =>
    have := A.decidableWellNamed
    have := B.decidableWellNamed
    inferInstanceAs (Decidable (A.WellNamed ∧ B.WellNamed))
  | record fields => decidableWellNamedFields fields
  | list A => A.decidableWellNamed
  | named X => inferInstanceAs (Decidable (Grammar.IsTypeName X))

/-- Whether fields are well-named can be computed. -/
def decidableWellNamedFields :
    (fields : List (String × Ty)) → Decidable (WellNamedFields fields)
  | [] => inferInstanceAs (Decidable True)
  | (label, A) :: fields =>
    have := A.decidableWellNamed
    have := decidableWellNamedFields fields
    inferInstanceAs (Decidable (Grammar.IsName label ∧ A.WellNamed ∧ WellNamedFields fields))

end

instance (T : Ty) : Decidable T.WellNamed :=
  T.decidableWellNamed

example : WellNamed (.arrow (.named "A") (.record [("l", .list .nat)])) := by decide

end Ty

/-! ## Texts of types -/

namespace Grammar

variable [DigitLimit]

/-- The text is the type, at this level. -/
def WritesType (level : TypeLevel) (T : Ty) (cs : List Char) : Prop :=
  ∃ ls, DerivesType level ls T ∧ LaysOut ls cs

namespace WritesType

variable {level : TypeLevel} {A B T : Ty}

/-- A type at a tight level is also one at the loose level. -/
theorem type (h : WritesType level T cs) (hlevel : level ≠ .fields) : WritesType .type T cs := by
  obtain ⟨ls, hder, hcs⟩ := h
  cases level with
  | fields => exact absurd rfl hlevel
  | atomic => exact ⟨ls, .ofProduct (.ofAtomic hder), hcs⟩
  | product => exact ⟨ls, .ofProduct hder, hcs⟩
  | type => exact ⟨ls, hder, hcs⟩

theorem product (h : WritesType .atomic T cs) : WritesType .product T cs := by
  obtain ⟨ls, hder, hcs⟩ := h
  exact ⟨ls, .ofAtomic hder, hcs⟩

theorem keyword {w : String} (hw : w ∈ keywords) (h : DerivesType .atomic [.keyword w] T) :
    WritesType .atomic T w.toList :=
  ⟨_, h, .singleton hw trivial⟩

theorem named {X : String} (hX : IsTypeName X) : WritesType .atomic (.named X) X.toList :=
  ⟨_, .named X, .singleton hX trivial⟩

theorem paren (h : WritesType .type T cs) : WritesType .atomic T ('(' :: cs ++ [')']) := by
  obtain ⟨ls, hder, hcs⟩ := h
  exact ⟨_, .paren hder, (LaysOut.between "(" ")" rfl rfl hcs).laysOut⟩

theorem list (h : WritesType .type T cs) :
    WritesType .atomic (.list T) ("List[".toList ++ cs ++ [']']) := by
  obtain ⟨ls, hder, hcs⟩ := h
  have hbrackets := LaysOut.between "[" "]" rfl rfl hcs
  rw [List.append_assoc]
  exact ⟨_, .list hder, .keyword "List" rfl hbrackets⟩

theorem prod (hA : WritesType .atomic A cs) (hB : WritesType .product B cs') :
    WritesType .product (.prod A B) (cs ++ " * ".toList ++ cs') := by
  obtain ⟨ls, hderA, hcs⟩ := hA
  obtain ⟨ls', hderB, hcs'⟩ := hB
  have hstar := LaysOutAnywhere.mark "*" rfl (LaysOutAnywhere.space hcs').laysOut
  rw [List.append_assoc]
  exact ⟨_, .prod hderA hderB, hcs.append (LaysOutAnywhere.space hstar.laysOut)⟩

theorem arrow (hA : WritesType .product A cs) (hB : WritesType .type B cs') :
    WritesType .type (.arrow A B) (cs ++ " -> ".toList ++ cs') := by
  obtain ⟨ls, hderA, hcs⟩ := hA
  obtain ⟨ls', hderB, hcs'⟩ := hB
  have harrow := LaysOutAnywhere.mark "->" rfl (LaysOutAnywhere.space hcs').laysOut
  rw [List.append_assoc]
  exact ⟨_, .arrow hderA hderB, hcs.append (LaysOutAnywhere.space harrow.laysOut)⟩

theorem field {label : String} (hlabel : IsName label) (h : WritesType .type A cs) :
    WritesType .fields (.record [(label, A)]) (label.toList ++ ':' :: cs) := by
  obtain ⟨ls, hder, hcs⟩ := h
  exact ⟨_, .field label hder, .name hlabel (.mark ":" rfl hcs)⟩

theorem fieldCons {label : String} {fields : List (String × Ty)} (hlabel : IsName label)
    (h : WritesType .type A cs) (hs : WritesType .fields (.record fields) cs') :
    WritesType .fields (.record ((label, A) :: fields))
      (label.toList ++ ':' :: cs ++ ", ".toList ++ cs') := by
  obtain ⟨ls, hder, hcs⟩ := h
  obtain ⟨ls', hders, hcs'⟩ := hs
  have hcomma := LaysOutAnywhere.mark "," rfl (LaysOutAnywhere.space hcs').laysOut
  have hfield := LaysOut.name hlabel (.mark ":" rfl (hcs.append hcomma))
  rw [List.append_assoc, List.append_assoc]
  exact ⟨_, .fieldCons label hder hders, hfield⟩

theorem emptyRecord : WritesType .atomic (.record []) "\x7b\x7d".toList :=
  ⟨_, .emptyRecord, (LaysOut.between "\x7b" "\x7d" rfl rfl .nil).laysOut⟩

theorem record (h : WritesType .fields T cs) : WritesType .atomic T ('\x7b' :: cs ++ ['\x7d']) := by
  obtain ⟨ls, hder, hcs⟩ := h
  exact ⟨_, .record hder, (LaysOut.between "\x7b" "\x7d" rfl rfl hcs).laysOut⟩

end WritesType

end Grammar

/-! ## The printer -/

namespace Ty

variable {A : Ty}

/-- The level of the grammar at which the type stands without parentheses. -/
def level : Ty → Grammar.TypeLevel
  | arrow _ _ => .type
  | prod _ _ => .product
  | _ => .atomic

theorem level_ne_fields (A : Ty) : A.level ≠ .fields := by
  cases A <;> exact fun h => nomatch h

variable [DigitLimit]

/-- Any type may stand where the grammar admits all types. -/
theorem writes_type (h : Grammar.WritesType A.level A cs) : Grammar.WritesType .type A cs :=
  h.type A.level_ne_fields

/-- Parentheses around arrows make a product. -/
theorem writes_product (h : Grammar.WritesType A.level A cs) :
    Grammar.WritesType .product A (Text.parenthesized A.isArrow cs) := by
  cases A with
  | arrow => exact h.paren.product
  | prod => exact h
  | _ => exact h.product

/-- Parentheses around arrows and products make an atomic type. -/
theorem writes_atomic (h : Grammar.WritesType A.level A cs) :
    Grammar.WritesType .atomic A (Text.parenthesized (A.isArrow || A.isProd) cs) := by
  cases A with
  | arrow => exact h.paren
  | prod => exact (writes_type h).paren
  | _ => exact h

theorem writes_fields {fields : List (String × Ty)} (hne : fields ≠ [])
    (ih : ∀ f ∈ fields, f.2.WellNamed → Grammar.WritesType f.2.level f.2 f.2.chars)
    (h : WellNamedFields fields) :
    Grammar.WritesType .fields (.record fields) (charsFields fields) := by
  induction fields with
  | nil => exact absurd rfl hne
  | cons f fields ihf =>
    obtain ⟨label, A⟩ := f
    obtain ⟨hlabel, hA, hfields⟩ := h
    obtain ⟨ihA, ihs⟩ := List.forall_mem_cons.mp ih
    have hwrites := writes_type (ihA hA)
    cases fields with
    | nil => exact hwrites.field hlabel
    | cons g fields => exact hwrites.fieldCons hlabel (ihf (List.cons_ne_nil g fields) ihs hfields)

/-- The printed text of a well-named type is this type. -/
theorem writes (T : Ty) (h : T.WellNamed) : Grammar.WritesType T.level T T.chars := by
  induction T with
  | bool => exact .keyword (w := "Bool") (by decide) .bool
  | nat => exact .keyword (w := "Nat") (by decide) .nat
  | string => exact .keyword (w := "String") (by decide) .string
  | arrow A B ihA ihB => exact (writes_product (ihA h.1)).arrow (writes_type (ihB h.2))
  | prod A B ihA ihB => exact (writes_atomic (ihA h.1)).prod (writes_product (ihB h.2))
  | record fields ih =>
    cases fields with
    | nil => exact .emptyRecord
    | cons f fields => exact (writes_fields (List.cons_ne_nil f fields) ih h).record
  | list A ih => exact (writes_type (ih h)).list
  | named X => exact .named h

end Ty

end TypedLambda
