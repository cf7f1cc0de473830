import TypedLambda.Grammar.Lexeme
import TypedLambda.Proofs.Parser.Numberless

/-!
# Reading one lexeme

When each of the lexeme parsers succeeds: what must stand behind the gap, and at which place the
reading ends. All but the one for numbers fail wherever they do not succeed.

## Main results

* `Grammar.mark_eq_ok_iff`, `Grammar.keyword_eq_ok_iff`: marks and keywords
* `Grammar.word_eq_ok_iff`, `Grammar.notKeyword_eq_ok_iff`: names
* `Grammar.number_eq_ok_iff`, `Grammar.stringLiteral_eq_ok_iff`: constants
* `Grammar.number_eq_overlong_iff`: numbers that are too long
* `Grammar.endOfText_eq_ok_iff`: the end
-/

namespace TypedLambda

namespace Grammar

variable {c : Cursor}

theorem takeWhile_append_of_next {p : Char → Bool} {cs rest : List Char}
    (hcs : ∀ c ∈ cs, p c = true) (hrest : rest.head?.any p = false) :
    (cs ++ rest).takeWhile p = cs ∧ (cs ++ rest).dropWhile p = rest := by
  rw [List.takeWhile_append_of_pos hcs, List.dropWhile_append_of_pos hcs]
  cases rest with
  | nil => simp
  | cons d rest =>
    have hd : ¬p d = true := by simpa using hrest
    rw [List.takeWhile_cons_of_neg hd, List.dropWhile_cons_of_neg hd, List.append_nil]
    exact ⟨rfl, rfl⟩

theorem takeWhile_eq_nil_of_next {p : Char → Bool} {cs : List Char}
    (h : cs.head?.any p = false) : cs.takeWhile p = [] := by
  cases cs with
  | nil => rfl
  | cons x cs =>
    have hx : ¬p x = true := by simpa using h
    exact List.takeWhile_cons_of_neg hx

theorem dropWhile_eq_self_of_next {p : Char → Bool} {cs : List Char}
    (h : cs.head?.any p = false) : cs.dropWhile p = cs :=
  (takeWhile_append_of_next (List.forall_mem_nil _) h).2

theorem any_head?_dropWhile (p : Char → Bool) (cs : List Char) :
    (cs.dropWhile p).head?.any p = false := by
  induction cs with
  | nil => rfl
  | cons c cs ih =>
    cases hc : p c with
    | true => rwa [List.dropWhile_cons_of_pos hc]
    | false =>
      rw [List.dropWhile_cons_of_neg (by simp [hc])]
      exact hc

/-! ## Marks and keywords -/

theorem numberless_mark (s : String) : Parser.Numberless (mark s) := by
  intro c e
  simp only [mark]
  split <;> simp

theorem numberless_keyword (w : String) : Parser.Numberless (keyword w) := by
  intro c e
  simp only [keyword]
  split
  · simp
  · split
    · simp
    · split <;> simp

theorem mark_eq_ok_iff {s : String} {r : Unit × Cursor} :
    mark s c = .ok r ↔
      s.toList <+: c.skipGap.rest ∧ c.skipGap.advance s.toList.length = r.2 := by
  obtain ⟨⟨⟩, c'⟩ := r
  simp only [mark]
  split
  · rename_i h
    simp [List.isPrefixOf_iff_prefix.mp h]
  · rename_i h
    rw [List.isPrefixOf_iff_prefix] at h
    simp [h]

theorem keyword_eq_ok_iff {w : String} {r : Unit × Cursor} :
    keyword w c = .ok r ↔
      w.toList <+: c.skipGap.rest ∧ c.skipGap.prev.any Text.isNameChar = false ∧
        r.2.rest.head?.any Text.isNameChar = false ∧
        c.skipGap.advance w.toList.length = r.2 := by
  obtain ⟨⟨⟩, c'⟩ := r
  simp only [keyword, Bool.not_eq_true']
  split
  · rename_i h
    rw [← Bool.not_eq_true, List.isPrefixOf_iff_prefix] at h
    simp [h]
  · rename_i h
    rw [Bool.not_eq_false, List.isPrefixOf_iff_prefix] at h
    split
    · rename_i hprev
      simp [hprev]
    · rename_i hprev
      rw [Bool.not_eq_true] at hprev
      split
      · rename_i hnext
        refine iff_of_false (by simp) ?_
        rintro ⟨-, -, hnext', rfl⟩
        rw [hnext] at hnext'
        cases hnext'
      · rename_i hnext
        rw [Bool.not_eq_true] at hnext
        constructor
        · intro heq
          obtain ⟨-, rfl⟩ := Prod.mk.inj (Except.ok.inj heq)
          exact ⟨h, hprev, hnext, rfl⟩
        · rintro ⟨-, -, -, rfl⟩
          rfl

theorem atKeyword_eq_true_iff :
    atKeyword c = true ↔ ∃ w ∈ keywords, ∃ r, keyword w c = .ok r := by
  rw [atKeyword, List.any_eq_true]
  refine exists_congr fun w => and_congr_right fun _ => ?_
  cases keyword w c <;> simp [Except.isOk, Except.toBool]

/-! ## Names -/

theorem numberless_word (reason : String) (first : Char → Bool) :
    Parser.Numberless (word reason first) := by
  intro c e
  simp only [word]
  split
  · split <;> simp
  · simp

theorem numberless_notKeyword : Parser.Numberless notKeyword := by
  intro c e
  simp only [notKeyword]
  split <;> simp

theorem numberless_name : Parser.Numberless name :=
  numberless_notKeyword.bind fun _ => numberless_word _ _

theorem numberless_typeName : Parser.Numberless typeName :=
  numberless_notKeyword.bind fun _ => numberless_word _ _

theorem word_eq_ok_iff {reason : String} {first : Char → Bool} {r : String × Cursor} :
    word reason first c = .ok r ↔
      ∃ x rest, c.skipGap.rest = x :: rest ∧ first x = true ∧
        String.ofList (x :: rest.takeWhile Text.isNameChar) = r.1 ∧
        c.skipGap.advance ((rest.takeWhile Text.isNameChar).length + 1) = r.2 := by
  obtain ⟨w, c'⟩ := r
  simp only [word]
  split
  · rename_i x rest hrest
    rw [hrest]
    split
    · rename_i hx
      constructor
      · intro heq
        obtain ⟨rfl, rfl⟩ := Prod.mk.inj (Except.ok.inj heq)
        exact ⟨x, rest, rfl, hx, rfl, rfl⟩
      · rintro ⟨_, _, heq, -, rfl, rfl⟩
        obtain ⟨rfl, rfl⟩ := List.cons.inj heq
        rfl
    · rename_i hx
      refine iff_of_false (by simp) ?_
      rintro ⟨_, _, heq, hx', -⟩
      obtain ⟨rfl, rfl⟩ := List.cons.inj heq
      exact hx hx'
  · rename_i hrest
    simp [hrest]

theorem notKeyword_eq_ok_iff {r : Unit × Cursor} :
    notKeyword c = .ok r ↔ atKeyword c = false ∧ c = r.2 := by
  obtain ⟨⟨⟩, c'⟩ := r
  unfold notKeyword
  cases atKeyword c <;> simp

/-! ## Constants -/

section Number

variable [DigitLimit]

theorem number_eq_ok_iff {r : Nat × Cursor} :
    number c = .ok r ↔ ∃ digits, digits ≠ [] ∧ c.skipGap.rest.takeWhile Char.isDigit = digits ∧
      DigitLimit.admits digits.length = true ∧ valueOfDigits digits = r.1 ∧
      c.skipGap.advance digits.length = r.2 := by
  obtain ⟨k, c'⟩ := r
  simp only [number, List.isEmpty_iff]
  split
  · rename_i h
    refine iff_of_false (by simp) ?_
    rintro ⟨_, hne, rfl, -⟩
    exact hne h
  · rename_i hne
    split
    · rename_i hadmits
      constructor
      · intro heq
        obtain ⟨rfl, rfl⟩ := Prod.mk.inj (Except.ok.inj heq)
        exact ⟨_, hne, rfl, hadmits, rfl, rfl⟩
      · rintro ⟨_, -, rfl, -, rfl, rfl⟩
        rfl
    · rename_i hadmits
      refine iff_of_false (by simp) ?_
      rintro ⟨_, -, rfl, hadmits', -⟩
      exact hadmits hadmits'

/-- A number that is too long is refused. -/
theorem number_eq_overlong_iff {e : Overlong} :
    number c = .error (.overlong e) ↔
      c.skipGap.rest.takeWhile Char.isDigit ≠ [] ∧
        (c.skipGap.rest.takeWhile Char.isDigit).length = e.digits ∧
        DigitLimit.admits e.digits = false := by
  obtain ⟨n⟩ := e
  simp only [number, List.isEmpty_iff]
  split
  · rename_i h
    simp [h]
  · rename_i hne
    split
    · rename_i hadmits
      refine iff_of_false (by simp) ?_
      rintro ⟨-, rfl, hadmits'⟩
      exact Bool.noConfusion (hadmits.symm.trans hadmits')
    · rename_i hadmits
      rw [Bool.not_eq_true] at hadmits
      constructor
      · intro heq
        obtain ⟨rfl⟩ := Overlong.mk.inj (Halt.overlong.inj (Except.error.inj heq))
        exact ⟨hne, rfl, hadmits⟩
      · rintro ⟨-, rfl, -⟩
        rfl

end Number

theorem numberless_stringLiteral : Parser.Numberless stringLiteral := by
  intro c e
  simp only [stringLiteral]
  split
  · split <;> simp
  · simp

theorem stringLiteral_eq_ok_iff {r : String × Cursor} :
    stringLiteral c = .ok r ↔ ∃ content rest, c.skipGap.rest = '"' :: (content ++ '"' :: rest) ∧
      (∀ x ∈ content, isLiteralChar x = true) ∧ String.ofList (Text.unescape content) = r.1 ∧
      c.skipGap.advance (content.length + 2) = r.2 := by
  obtain ⟨s, c'⟩ := r
  simp only [stringLiteral]
  constructor
  · intro h
    split at h
    · rename_i rest hrest
      split at h
      · rename_i after hafter
        obtain ⟨rfl, rfl⟩ := Prod.mk.inj (Except.ok.inj h)
        refine ⟨rest.takeWhile isLiteralChar, after, ?_, ?_, rfl, rfl⟩
        · rw [hrest, ← hafter, List.takeWhile_append_dropWhile]
        · exact List.all_eq_true.mp List.all_takeWhile
      · cases h
    · cases h
  · rintro ⟨content, rest, hrest, hall, rfl, rfl⟩
    have hquote : ('"' :: rest).head?.any isLiteralChar = false := rfl
    obtain ⟨htake, hdrop⟩ := takeWhile_append_of_next hall hquote
    rw [hrest]
    simp only [htake, hdrop]

/-! ## The end -/

theorem numberless_endOfText : Parser.Numberless endOfText := by
  intro c e
  simp only [endOfText]
  split <;> simp

theorem endOfText_eq_ok_iff {r : Unit × Cursor} :
    endOfText c = .ok r ↔ c.skipGap.rest = [] ∧ c.skipGap = r.2 := by
  obtain ⟨⟨⟩, c'⟩ := r
  simp only [endOfText]
  split
  · rename_i h
    simp [List.isEmpty_iff.mp h]
  · rename_i h
    rw [List.isEmpty_iff] at h
    simp [h]

end Grammar

end TypedLambda
