import TypedLambda.Grammar.Read
import TypedLambda.Proofs.Grammar.Lexeme
import TypedLambda.Proofs.Grammar.Place
import TypedLambda.Proofs.Parser.Ensures
import TypedLambda.Proofs.Reduction.Admitted

/-!
# Names in what is read

The grammar reads no keyword where it reads a name, as long as no word runs up to this place: a
keyword that touches the word in front of it is not seen as one. Behind marks and behind keywords no
word runs up to the next lexeme, and binders, labels and the names of types stand there only. So
those of a term that is read are admitted by the grammar. A variable may also stand right behind the
digits of a number, and there it may be a keyword.

## Main definitions

* `Grammar.IsTouched`: words of a text that stand right behind digits
* `Grammar.IsVariableIn`: what can be read as a variable
* `Grammar.IsNamed`: terms with names that the grammar admits, and with variables of a class

## Main results

* `Grammar.ensures_mark`, `Grammar.ensures_keyword`: marks and keywords end at clear places
* `Grammar.ensures_word`: what is read as a name at a clear place
* `Grammar.ensures_variable`: what is read as a name at a settled place
* `Grammar.ensures_type`: the types that are read are well-named
* `Grammar.ensures_term`: the names in the terms that are read
* `Grammar.read_eq_ok_iff`: when a rule reads a source text
-/

namespace TypedLambda

open Cursor (IsClear IsSettled)

variable {text : List Char}

namespace Parser

variable {α : Type} {Pre Post : Cursor → Prop} {P : α → Prop} {p : Parser α}

/-- A clear end is settled. -/
theorem Ensures.settled (h : Ensures Pre p P (IsClear text)) :
    Ensures Pre p P (IsSettled text) :=
  h.imp_end fun _ => Cursor.IsClear.isSettled

/-- What may start at settled places may start at clear ones. -/
theorem Ensures.of_settled (h : Ensures (IsSettled text) p P Post) :
    Ensures (IsClear text) p P Post :=
  h.of_imp fun _ => Cursor.IsClear.isSettled

end Parser

namespace Grammar

open TypedLambda.Parser (Ensures ensures_pure ensures_firstOf_nil)

/-! ## Lexemes -/

/-- A mark ends at a clear place. -/
theorem ensures_mark {s : String} (hs : s.toList.getLast?.any (!Text.isNameChar ·) = true) :
    Ensures (IsSettled text) (mark s) (fun _ => True) (IsClear text) := by
  intro c r hc hr
  obtain ⟨front, hbehind⟩ := hc.skipGap.exists_behind
  obtain ⟨hpre, heq⟩ := mark_eq_ok_iff.mp hr
  exact ⟨trivial, heq ▸ hbehind.isClear_advance hpre hs⟩

/-- A keyword ends at a clear place. -/
theorem ensures_keyword (w : String) :
    Ensures (IsSettled text) (keyword w) (fun _ => True) (IsClear text) := by
  intro c r hc hr
  obtain ⟨front, hbehind⟩ := hc.skipGap.exists_behind
  obtain ⟨hpre, -, hnext, heq⟩ := keyword_eq_ok_iff.mp hr
  exact ⟨trivial, front ++ w.toList, heq ▸ hbehind.advance hpre, .inr hnext⟩

/-- A string literal ends with a quote. -/
theorem ensures_stringLiteral :
    Ensures (IsSettled text) stringLiteral (fun _ => True) (IsClear text) := by
  intro c r hc hr
  obtain ⟨front, hbehind⟩ := hc.skipGap.exists_behind
  obtain ⟨content, rest, hrest, -, -, heq⟩ := stringLiteral_eq_ok_iff.mp hr
  have hpre : '"' :: (content ++ ['"']) <+: c.skipGap.rest := by
    refine ⟨rest, ?_⟩
    rw [hrest, List.cons_append, List.append_assoc, List.singleton_append]
  have hlast : ('"' :: (content ++ ['"'])).getLast?.any (!Text.isNameChar ·) = true := by
    rw [← List.cons_append, List.getLast?_concat]
    rfl
  have hclear := hbehind.isClear_advance hpre hlast
  rw [List.length_cons, List.length_append, List.length_singleton, heq] at hclear
  exact ⟨trivial, hclear⟩

theorem ensures_number [DigitLimit] :
    Ensures (IsSettled text) number (fun _ => True) (IsSettled text) := by
  intro c r hc hr
  obtain ⟨digits, hne, rfl, -, -, heq⟩ := number_eq_ok_iff.mp hr
  have hdigits := List.all_eq_true.mp (List.all_takeWhile (p := Char.isDigit) (l := c.skipGap.rest))
  have hsettled := hc.skipGap.advance_digits (List.takeWhile_prefix _) hne hdigits
  exact ⟨trivial, heq ▸ hsettled⟩

/-- The number of a component is a digit. -/
theorem ensures_component {s : String} (hne : s.toList ≠ [])
    (hs : s.toList.all Char.isDigit = true) :
    Ensures (IsSettled text) (mark s) (fun _ => True) (IsSettled text) := by
  intro c r hc hr
  obtain ⟨hpre, heq⟩ := mark_eq_ok_iff.mp hr
  exact ⟨trivial, heq ▸ hc.skipGap.advance_digits hpre hne (List.all_eq_true.mp hs)⟩

/-! ## Names -/

/-- A word is read as far as it goes. If it is a keyword, another word runs up to it. -/
theorem exists_of_word {reason : String} {first : Char → Bool}
    (hfirst : ∀ c, first c = true → Text.isNameChar c = true) {c : Cursor} {front : List Char}
    (hbehind : c.skipGap.Behind text front) {r : String × Cursor}
    (hr : (do notKeyword; word reason first) c = .ok r) :
    r.1.toList.head?.any first = true ∧ r.1.toList.all Text.isNameChar = true ∧
      c.skipGap.rest.head?.any Text.isNameChar = true ∧ r.2.Behind text (front ++ r.1.toList) ∧
      r.2.rest.head?.any Text.isNameChar = false ∧
      (r.1 ∈ keywords → front.getLast?.any Text.isNameChar = true) := by
  obtain ⟨_, c', hnot, hword⟩ := Parser.bind_eq_ok_iff.mp hr
  obtain ⟨hkeyword, rfl⟩ := notKeyword_eq_ok_iff.mp hnot
  obtain ⟨x, rest, hrest, hx, hw, hend⟩ := word_eq_ok_iff.mp hword
  have hname := hfirst x hx
  have hchars : r.1.toList = x :: rest.takeWhile Text.isNameChar := by
    rw [← hw, String.toList_ofList]
  have hsplit : c.skipGap.rest = r.1.toList ++ rest.dropWhile Text.isNameChar := by
    rw [hchars, hrest, List.cons_append, List.takeWhile_append_dropWhile]
  have hpre : r.1.toList <+: c.skipGap.rest := ⟨_, hsplit.symm⟩
  have hadvance : c.skipGap.advance r.1.toList.length = r.2 := by
    rw [hchars, List.length_cons, hend]
  have hnext : r.2.rest.head?.any Text.isNameChar = false := by
    rw [← hadvance, Cursor.rest_advance, hsplit, List.drop_left]
    exact any_head?_dropWhile _ rest
  refine ⟨?_, ?_, ?_, hadvance ▸ hbehind.advance hpre, hnext, fun hmem => ?_⟩
  · rw [hchars]
    exact hx
  · rw [hchars, List.all_cons, hname, List.all_takeWhile]
    rfl
  · rw [hrest]
    exact hname
  · rw [← Bool.not_eq_false]
    intro hprev
    rw [← hbehind.prev_eq] at hprev
    have hread := keyword_eq_ok_iff (w := r.1) (r := ((), r.2)).mpr ⟨hpre, hprev, hnext, hadvance⟩
    rw [atKeyword_eq_true_iff.mpr ⟨_, hmem, _, hread⟩] at hkeyword
    cases hkeyword

/-- A word that is read at a clear place where no keyword stands is no keyword. -/
theorem ensures_word {reason : String} {first : Char → Bool}
    (hfirst : ∀ c, first c = true → Text.isNameChar c = true) :
    Ensures (IsClear text) (do notKeyword; word reason first) (IsWord first) (IsClear text) := by
  intro c r hc hr
  obtain ⟨front, hbehind, hclear⟩ := hc.skipGap
  obtain ⟨hhead, hall, hnext, hend, hbehindEnd, hkeyword⟩ := exists_of_word hfirst hbehind hr
  have hfront := hclear.resolve_right fun hnot => by rw [hnext] at hnot; cases hnot
  refine ⟨⟨hhead, hall, fun hmem => ?_⟩, front ++ r.1.toList, hend, .inr hbehindEnd⟩
  rw [hkeyword hmem] at hfront
  cases hfront

theorem ensures_name : Ensures (IsClear text) name IsName (IsClear text) :=
  ensures_word fun _ => Text.isNameChar_of_isNameStart

theorem ensures_typeName : Ensures (IsClear text) typeName IsTypeName (IsClear text) :=
  ensures_word fun _ => Text.isNameChar_of_isUpper

/-- The word stands in the text right behind digits, and there is no more of a word around them. -/
def IsTouched (text : List Char) (w : String) : Prop :=
  ∃ front digits rest, text = front ++ (digits ++ (w.toList ++ rest)) ∧ digits ≠ [] ∧
    (∀ d ∈ digits, d.isDigit = true) ∧ front.getLast?.any Text.isNameChar = false ∧
    rest.head?.any Text.isNameChar = false

/-- The word starts as names of variables do, and if it is a keyword, it is touched by a number. -/
def IsVariableIn (text : List Char) (x : String) : Prop :=
  x.toList.head?.any isNameStart = true ∧ x.toList.all Text.isNameChar = true ∧
    (x ∈ keywords → IsTouched text x)

/-- A word that is read at a settled place where no keyword is seen may be one behind a number. -/
theorem ensures_variable : Ensures (IsSettled text) name (IsVariableIn text) (IsClear text) := by
  intro c r hc hr
  obtain ⟨front, digits, hbehind, hdigits, hclear⟩ := hc.skipGap
  obtain ⟨hhead, hall, hnext, hend, hbehindEnd, hkeyword⟩ :=
    exists_of_word (fun _ => Text.isNameChar_of_isNameStart) hbehind hr
  have hfront := hclear.resolve_right fun hnot => by rw [hnext] at hnot; cases hnot
  refine ⟨⟨hhead, hall, fun hmem => ?_⟩, _, hend, .inr hbehindEnd⟩
  refine ⟨front, digits, r.2.rest, ?_, ?_, hdigits, hfront, hbehindEnd⟩
  · rw [hend.text_eq]
    simp only [List.append_assoc]
  · rintro rfl
    have hlast := hkeyword hmem
    rw [List.append_nil, hfront] at hlast
    cases hlast

/-! ## Types -/

section Parts

variable {α : Type} {P : α → Prop} {p : Parser α}

theorem chainRight_induct {join : α → α → α} (hjoin : ∀ a b, P a → P b → P (join a b)) {a : α}
    {as : List α} (ha : P a) (has : ∀ b ∈ as, P b) : P (chainRight join a as) := by
  induction as generalizing a with
  | nil => exact ha
  | cons b bs ih =>
    obtain ⟨hb, hbs⟩ := List.forall_mem_cons.mp has
    exact hjoin a _ ha (ih hb hbs)

/-- What stands between marks starts at a clear place. -/
theorem ensures_between {opening closing : String}
    (ho : opening.toList.getLast?.any (!Text.isNameChar ·) = true)
    (hc : closing.toList.getLast?.any (!Text.isNameChar ·) = true)
    (h : Ensures (IsClear text) p P (IsSettled text)) :
    Ensures (IsSettled text) (between opening closing p) P (IsClear text) :=
  (ensures_mark ho).bind fun _ _ => h.bind fun _ ha =>
    (ensures_mark hc).bind fun _ _ => ensures_pure ha

/-- Labels are read behind marks. -/
theorem ensures_fields {sep : String} (hsep : sep.toList.getLast?.any (!Text.isNameChar ·) = true)
    (h : Ensures (IsClear text) p P (IsSettled text)) :
    Ensures (IsClear text) (fields sep p) (fun fs => ∀ f ∈ fs, IsName f.1 ∧ P f.2)
      (IsSettled text) := by
  have hfield : Ensures (IsClear text) (do
      let label ← name
      mark sep
      let a ← p
      pure (label, a)) (fun f => IsName f.1 ∧ P f.2) (IsSettled text) :=
    ensures_name.bind fun _ hlabel => (ensures_mark hsep).of_settled.bind fun _ _ =>
      h.bind fun _ ha => ensures_pure ⟨hlabel, ha⟩
  have hfields := hfield.sepBy (ensures_mark (s := ",") rfl)
  exact (hfields.bind fun _ hr => ensures_pure (List.forall_mem_cons.mpr hr)).optional
    (List.forall_mem_nil _) fun _ => Cursor.IsClear.isSettled

end Parts

/-- What stands behind a keyword starts at a clear place. -/
theorem ensures_keyword_bind {α : Type} {P : α → Prop} {p : Parser α} {Post : Cursor → Prop}
    (w : String) (h : Ensures (IsClear text) p P Post) :
    Ensures (IsSettled text) (do keyword w; p) P Post :=
  (ensures_keyword w).bind fun _ _ => h

theorem wellNamedFields_iff {fields : List (String × Ty)} :
    Ty.WellNamedFields fields ↔ ∀ f ∈ fields, IsName f.1 ∧ f.2.WellNamed := by
  induction fields with
  | nil => exact iff_of_true trivial (List.forall_mem_nil _)
  | cons f fields ih => rw [Ty.WellNamedFields, ih, List.forall_mem_cons, and_assoc]

/-- Types are read from clear places, and end at clear places. -/
def EnsuresType (text : List Char) (type : Parser Ty) : Prop :=
  Ensures (IsClear text) type Ty.WellNamed (IsClear text)

theorem ensures_atomicType {type : Parser Ty} (h : EnsuresType text type) :
    EnsuresType text (atomicType type) := by
  have constant (w : String) (T : Ty) (hT : T.WellNamed) :
      EnsuresType text (do keyword w; pure T) :=
    (ensures_keyword_bind w (ensures_pure hT)).of_settled
  have hlist : Ensures (IsSettled text) (Ty.list <$> between "[" "]" type) Ty.WellNamed
      (IsClear text) :=
    (ensures_between rfl rfl h.settled).map fun _ hA => hA
  have hrecord : Ensures (IsSettled text) (Ty.record <$> between "\x7b" "\x7d" (fields ":" type))
      Ty.WellNamed (IsClear text) :=
    (ensures_between rfl rfl (ensures_fields rfl h.settled)).map fun _ hfs =>
      wellNamedFields_iff.mpr hfs
  exact Ensures.choice <|
    .or (constant "Bool" .bool trivial) <|
    .or (constant "Nat" .nat trivial) <|
    .or (constant "String" .string trivial) <|
    .or (ensures_keyword_bind "List" hlist.of_settled).of_settled <|
    .or hrecord.of_settled <|
    .or (ensures_typeName.map fun _ hX => hX) <|
    .or (ensures_between rfl rfl h.settled).of_settled ensures_firstOf_nil

theorem ensures_productType {type : Parser Ty} (h : EnsuresType text type) :
    EnsuresType text (productType type) :=
  ((ensures_atomicType h).sepBy (ensures_mark rfl).of_settled).bind fun _ hr =>
    ensures_pure (chainRight_induct (fun _ _ hA hB => ⟨hA, hB⟩) hr.1 hr.2)

/-- A type that is read at a clear place is well-named. -/
theorem ensures_type : EnsuresType text type :=
  Ensures.fix fun _ h => ((ensures_productType h).sepBy (ensures_mark rfl).of_settled).bind
    fun _ hr => ensures_pure (chainRight_induct (fun _ _ hA hB => ⟨hA, hB⟩) hr.1 hr.2)

/-! ## Terms -/

/-- What stands in the term is admitted, with any strings, and its variables are in `V`. -/
def IsNamed (V : String → Prop) (t : Term) : Prop :=
  (t.Admitted fun _ => True) ∧ ∀ x, Term.Occurs (.var x) t → V x

section Named

variable {V : String → Prop} {t s r : Term}

theorem IsNamed.intro (ht : t.Admits fun _ => True) (hvar : ∀ x, t = .var x → V x)
    (hparts : ∀ s ∈ t.parts, IsNamed V s) : IsNamed V t := by
  refine ⟨.intro ht fun s hs => (hparts s hs).1, fun x hx => ?_⟩
  cases hx with
  | here => exact hvar x rfl
  | inside hs hx => exact (hparts _ hs).2 x hx

theorem isNamed_of_leaf (hparts : t.parts = []) (ht : t.Admits fun _ => True)
    (hvar : ∀ x, t = .var x → V x) : IsNamed V t :=
  .intro ht hvar (hparts ▸ List.forall_mem_nil _)

theorem isNamed_of_part (hparts : t.parts = [s]) (ht : t.Admits fun _ => True)
    (hs : IsNamed V s) : IsNamed V t :=
  .intro ht (by rintro x rfl; cases hparts) (hparts ▸ List.forall_mem_singleton.mpr hs)

theorem isNamed_of_two_parts (hparts : t.parts = [s, r]) (ht : t.Admits fun _ => True)
    (hs : IsNamed V s) (hr : IsNamed V r) : IsNamed V t :=
  .intro ht (by rintro x rfl; cases hparts)
    (hparts ▸ List.forall_mem_cons.mpr ⟨hs, List.forall_mem_singleton.mpr hr⟩)

theorem isNamed_numeral (n : Nat) : IsNamed V (.numeral n) := by
  induction n with
  | zero => exact isNamed_of_leaf rfl trivial nofun
  | succ n ih => exact isNamed_of_part rfl trivial ih

end Named

/-- Terms are read from settled places, and end at settled places. -/
def EnsuresTerm (text : List Char) (term : Parser Term) : Prop :=
  Ensures (IsSettled text) term (IsNamed (IsVariableIn text)) (IsSettled text)

variable {term : Parser Term}

theorem EnsuresTerm.afterGap (h : EnsuresTerm text term) :
    EnsuresTerm text (Parser.afterGap term) :=
  Ensures.afterGap h fun _ => Cursor.IsSettled.skipGap

/-- A label behind a point is a name. -/
theorem ensures_selector {V : String → Prop} :
    Ensures (IsSettled text) selector (fun s => ∀ t, IsNamed V t → IsNamed V (s.apply t))
      (IsSettled text) := by
  have component {w : String} {s : Selector} (hne : w.toList ≠ [])
      (hw : w.toList.all Char.isDigit = true) (hs : ∀ t, IsNamed V t → IsNamed V (s.apply t)) :
      Ensures (IsClear text) (do mark w; pure s) (fun s => ∀ t, IsNamed V t → IsNamed V (s.apply t))
        (IsSettled text) :=
    (ensures_component hne hw).of_settled.bind fun _ _ => ensures_pure hs
  have hlabel : Ensures (IsClear text) (Selector.label <$> name)
      (fun s => ∀ t, IsNamed V t → IsNamed V (s.apply t)) (IsClear text) :=
    ensures_name.map fun _ hl _ ht => isNamed_of_part rfl hl ht
  exact (ensures_mark rfl).bind fun _ _ => Ensures.choice <|
    .or (component (w := "1") (by decide) rfl fun _ ht => isNamed_of_part rfl trivial ht) <|
    .or (component (w := "2") (by decide) rfl fun _ ht => isNamed_of_part rfl trivial ht) <|
    .or hlabel.settled ensures_firstOf_nil

theorem ensures_function (h : EnsuresTerm text term) : EnsuresTerm text (function term) := by
  have hstart : Ensures (IsSettled text)
      (Parser.choice (expected Description.functionStart) [keyword "lambda", keyword "L"])
      (fun _ => True) (IsClear text) :=
    Ensures.choice <|
      .or (ensures_keyword "lambda") <|
      .or (ensures_keyword "L") ensures_firstOf_nil
  exact hstart.bind fun _ _ => ensures_name.bind fun _ hx =>
    (ensures_mark rfl).of_settled.bind fun _ _ => ensures_type.bind fun _ hT =>
    (ensures_mark rfl).of_settled.bind fun _ _ => h.of_settled.bind fun _ ht =>
    ensures_pure (isNamed_of_part rfl ⟨hx, hT⟩ ht)

theorem ensures_conditional (h : EnsuresTerm text term) : EnsuresTerm text (conditional term) :=
  ensures_keyword_bind "if" <| h.of_settled.bind fun _ ht =>
    ensures_keyword_bind "then" <| h.of_settled.bind fun _ hu =>
    ensures_keyword_bind "else" <| h.of_settled.bind fun _ hv =>
    ensures_pure (.intro trivial nofun (List.forall_mem_cons.mpr
      ⟨ht, List.forall_mem_cons.mpr ⟨hu, List.forall_mem_singleton.mpr hv⟩⟩))

theorem ensures_letRec (h : EnsuresTerm text term) : EnsuresTerm text (letRec term) :=
  ensures_keyword_bind "letrec" <| ensures_name.bind fun _ hf =>
    (ensures_mark rfl).of_settled.bind fun _ _ => ensures_type.bind fun _ hT =>
    (ensures_mark rfl).of_settled.bind fun _ _ => h.of_settled.bind fun _ ht =>
    ensures_keyword_bind "in" <| h.of_settled.bind fun _ hu =>
    have hlam := isNamed_of_part (t := .lam _ _ _) rfl ⟨hf, hT⟩ ht
    have hfix := isNamed_of_part (t := .fix _) rfl trivial hlam
    ensures_pure (isNamed_of_two_parts rfl hf hfix hu)

theorem ensures_letIn (h : EnsuresTerm text term) : EnsuresTerm text (letIn term) :=
  ensures_keyword_bind "let" <| ensures_name.bind fun _ hx =>
    (ensures_mark rfl).of_settled.bind fun _ _ => h.of_settled.bind fun _ ht =>
    ensures_keyword_bind "in" <| h.of_settled.bind fun _ hu =>
    ensures_pure (isNamed_of_two_parts rfl hx ht hu)

section Numbers

variable [DigitLimit]

theorem ensures_atomic (h : EnsuresTerm text term) : EnsuresTerm text (atomic term) := by
  have constant (w : String) (b : Bool) :
      EnsuresTerm text (do keyword w; pure (Term.bool b)) :=
    have hleaf := isNamed_of_leaf (t := .bool b) rfl trivial nofun
    (ensures_keyword_bind w (ensures_pure hleaf)).settled
  have hstring : Ensures (IsSettled text) (Term.string <$> stringLiteral)
      (IsNamed (IsVariableIn text)) (IsClear text) :=
    ensures_stringLiteral.map fun _ _ => isNamed_of_leaf rfl trivial nofun
  have hnil : Ensures (IsSettled text) (Term.nil <$> between "[" "]" type)
      (IsNamed (IsVariableIn text)) (IsClear text) :=
    (ensures_between rfl rfl ensures_type.settled).map fun _ hT => isNamed_of_leaf rfl hT nofun
  have hrecord : Ensures (IsSettled text) (Term.record <$> between "\x7b" "\x7d" (fields "=" term))
      (IsNamed (IsVariableIn text)) (IsClear text) :=
    (ensures_between rfl rfl (ensures_fields rfl h.of_settled)).map fun _ hfs =>
      .intro (fun f hf => (hfs f hf).1) nofun (List.forall_mem_map.mpr fun f hf => (hfs f hf).2)
  have hpair : EnsuresTerm text (do let t ← term; mark ","; let u ← term; pure (Term.pair t u)) :=
    h.bind fun t ht => (ensures_mark rfl).settled.bind fun _ _ => h.bind fun u hu =>
      ensures_pure (isNamed_of_two_parts rfl trivial ht hu)
  have hvar : Ensures (IsSettled text) (Term.var <$> name) (IsNamed (IsVariableIn text))
      (IsClear text) :=
    ensures_variable.map fun x hx =>
      isNamed_of_leaf rfl trivial fun y heq => Term.var.inj heq ▸ hx
  -- of all the alternatives, only a number may end where no place is clear
  exact EnsuresTerm.afterGap <| Ensures.choice <|
    .or (constant "true" true) <|
    .or (constant "false" false) <|
    .or (ensures_number.map fun n _ => isNamed_numeral n) <|
    .or hstring.settled <|
    .or (ensures_keyword_bind "nil" hnil.of_settled).settled <|
    .or hrecord.settled <|
    .or (ensures_between rfl rfl hpair.of_settled).settled <|
    .or hvar.settled <|
    .or (ensures_between rfl rfl h.of_settled).settled ensures_firstOf_nil

theorem ensures_simple (h : EnsuresTerm text term) : EnsuresTerm text (simple term) :=
  (ensures_atomic h).bind fun _ ht => ensures_selector.many.bind fun selectors hselectors =>
    ensures_pure (selectors.foldlRecOn _ ht fun t ht s hs => hselectors s hs t ht)

theorem ensures_applicationHead (h : EnsuresTerm text term) :
    EnsuresTerm text (applicationHead term) := by
  have hsimple := ensures_simple h
  have unary (w : String) {build : Term → Term}
      (hbuild : ∀ t, IsNamed (IsVariableIn text) t → IsNamed (IsVariableIn text) (build t)) :
      EnsuresTerm text (unary term w build) :=
    ensures_keyword_bind w <| hsimple.of_settled.bind fun t ht => ensures_pure (hbuild t ht)
  have binary (w : String) {build : Term → Term → Term}
      (hbuild : ∀ t u, IsNamed (IsVariableIn text) t → IsNamed (IsVariableIn text) u →
        IsNamed (IsVariableIn text) (build t u)) :
      EnsuresTerm text (binary term w build) :=
    ensures_keyword_bind w <| hsimple.of_settled.bind fun t ht => hsimple.bind fun u hu =>
      ensures_pure (hbuild t u ht hu)
  exact Ensures.choice <|
    .or (unary "succ" fun _ ht => isNamed_of_part rfl trivial ht) <|
    .or (unary "pred" fun _ ht => isNamed_of_part rfl trivial ht) <|
    .or (unary "iszero" fun _ ht => isNamed_of_part rfl trivial ht) <|
    .or (unary "fix" fun _ ht => isNamed_of_part rfl trivial ht) <|
    .or (unary "isnil" fun _ ht => isNamed_of_part rfl trivial ht) <|
    .or (unary "head" fun _ ht => isNamed_of_part rfl trivial ht) <|
    .or (unary "tail" fun _ ht => isNamed_of_part rfl trivial ht) <|
    .or (binary "concat" fun _ _ ht hu => isNamed_of_two_parts rfl trivial ht hu) <|
    .or (binary "cons" fun _ _ ht hu => isNamed_of_two_parts rfl trivial ht hu) <|
    .or hsimple ensures_firstOf_nil

theorem ensures_application (h : EnsuresTerm text term) : EnsuresTerm text (application term) :=
  (ensures_applicationHead h).bind fun _ ht => (ensures_simple h).many.bind fun args hargs =>
    ensures_pure (args.foldlRecOn _ ht fun _ ht u hu =>
      isNamed_of_two_parts rfl trivial ht (hargs u hu))

/-- The terms that are read have names that the grammar admits. -/
theorem ensures_term : EnsuresTerm text Grammar.term :=
  Ensures.fix fun _ h => EnsuresTerm.afterGap <| Ensures.choice <|
    .or (ensures_function h) <|
    .or (ensures_conditional h) <|
    .or (ensures_letRec h) <|
    .or (ensures_letIn h) <|
    .or (ensures_application h) ensures_firstOf_nil

end Numbers

/-! ## Source texts -/

section Read

variable {α : Type} {rule : Parser α} {source : List Char} {a : α}

/-- A rule reads a text when it has no lexical error and the rule fills it. -/
theorem read_eq_ok_iff :
    read rule source = .ok a ↔ Token.check source = .ok () ∧
      ∃ c, whole rule (Cursor.start (Text.expandTabs source)) = .ok (a, c) := by
  rw [read]
  cases Token.check source with
  | error e => simp
  | ok _ =>
    rcases whole rule (Cursor.start (Text.expandTabs source)) with (e | e) | r
    · simp
    · simp
    · simp [Prod.ext_iff]

/-- What a rule reads from a whole text, it reads from the start of the text. -/
theorem exists_of_read_eq_ok (h : read rule source = .ok a) :
    ∃ c, rule (Cursor.start (Text.expandTabs source)) = .ok (a, c) := by
  obtain ⟨-, c, hwhole⟩ := read_eq_ok_iff.mp h
  obtain ⟨c', hrule, -⟩ := whole_eq_ok_iff.mp hwhole
  exact ⟨c', hrule⟩

end Read

end Grammar

/-- What a source text denotes is admitted by the grammar, whatever its strings. -/
theorem Term.admitted_of_parse [DigitLimit] {source : String} {t : Term}
    (h : Term.parse source = .ok t) :
    t.Admitted fun _ => True := by
  obtain ⟨c, hc⟩ := Grammar.exists_of_read_eq_ok h
  exact (Grammar.ensures_term _ _ (Cursor.isClear_start _).isSettled hc).1.1

end TypedLambda
