import TypedLambda.Text.TabStop

/-!
# Texts with expanded tabs

Spaces are all that is new in a text with expanded tabs, and tabs are all that is missing. How wide
a tab is depends on its column, and so on what stands in front of it; but the columns behind a text
depend on nothing else. A word, which contains no spaces, stands in the text with expanded tabs only
where it stands in the text.

## Main results

* `Text.mem_expandTabsFrom`: the characters of a text with expanded tabs
* `Text.exists_expandTabsFrom_append`: one text behind another
* `Text.exists_of_expandTabsFrom_eq_append`: words in a text with expanded tabs
-/

namespace TypedLambda

namespace Text

variable {c : Char} {cs front w rest : List Char} {column : Nat}

/-- A tab is at least one space wide. -/
theorem exists_tab_eq (column : Nat) : ∃ k, tabWidth - column % tabWidth = k + 1 := by
  have hwidth : 0 < tabWidth - column % tabWidth :=
    Nat.sub_pos_of_lt (Nat.mod_lt column (by decide))
  exact ⟨_, (Nat.succ_pred_eq_of_pos hwidth).symm⟩

theorem mem_expandTabsFrom (h : c ∈ expandTabsFrom column cs) : c = ' ' ∨ c ∈ cs := by
  induction cs generalizing column with
  | nil => exact .inr h
  | cons d cs ih =>
    rw [expandTabsFrom] at h
    split at h
    · rcases List.mem_append.mp h with h | h
      · exact .inl (List.eq_of_mem_replicate h)
      · exact (ih h).imp_right (List.mem_cons_of_mem d)
    · rcases List.mem_cons.mp h with rfl | h
      · exact .inr List.mem_cons_self
      · exact (ih h).imp_right (List.mem_cons_of_mem d)

/-- A class of characters with the space is kept. -/
theorem forall_mem_expandTabsFrom {p : Char → Bool} (hspace : p ' ' = true)
    (h : ∀ c ∈ cs, p c = true) (column : Nat) : ∀ c ∈ expandTabsFrom column cs, p c = true := by
  intro c hc
  rcases mem_expandTabsFrom hc with rfl | hc
  · exact hspace
  · exact h c hc

theorem expandTabsFrom_eq_self (h : '\t' ∉ cs) (column : Nat) : expandTabsFrom column cs = cs := by
  induction cs generalizing column with
  | nil => rfl
  | cons c cs ih =>
    rw [List.mem_cons, not_or] at h
    rw [expandTabsFrom, if_neg (Ne.symm h.1), ih h.2]

theorem expandTabsFrom_eq_nil_iff : expandTabsFrom column cs = [] ↔ cs = [] := by
  cases cs with
  | nil => exact iff_of_true rfl rfl
  | cons c cs =>
    obtain ⟨k, hk⟩ := exists_tab_eq column
    rw [expandTabsFrom, hk]
    split <;> exact iff_of_false (List.cons_ne_nil _ _) (List.cons_ne_nil _ _)

theorem exists_expandTabsFrom_append (cs : List Char) (column : Nat) :
    ∃ column', ∀ rest, expandTabsFrom column (cs ++ rest) =
      expandTabsFrom column cs ++ expandTabsFrom column' rest := by
  induction cs generalizing column with
  | nil => exact ⟨column, fun _ => rfl⟩
  | cons c cs ih =>
    by_cases htab : c = '\t'
    · obtain ⟨column', hrest⟩ := ih (column + (tabWidth - column % tabWidth))
      refine ⟨column', fun rest => ?_⟩
      rw [List.cons_append, expandTabsFrom, expandTabsFrom, if_pos htab, if_pos htab, hrest,
        List.append_assoc]
    · obtain ⟨column', hrest⟩ := ih (if c = '\n' ∨ c = '\r' then 0 else column + 1)
      refine ⟨column', fun rest => ?_⟩
      rw [List.cons_append, expandTabsFrom, expandTabsFrom, if_neg htab, if_neg htab, hrest,
        List.cons_append]

/-! ## The ends of a text -/

theorem any_head?_expandTabsFrom {p : Char → Bool} (hspace : p ' ' = false) (htab : p '\t' = false)
    (cs : List Char) (column : Nat) :
    (expandTabsFrom column cs).head?.any p = cs.head?.any p := by
  cases cs with
  | nil => rfl
  | cons c cs =>
    rw [expandTabsFrom]
    split
    · rename_i hc
      obtain ⟨k, hk⟩ := exists_tab_eq column
      rw [hk, hc]
      exact hspace.trans htab.symm
    · rfl

theorem any_getLast?_expandTabsFrom {p : Char → Bool} (hspace : p ' ' = false)
    (htab : p '\t' = false) (cs : List Char) (column : Nat) :
    (expandTabsFrom column cs).getLast?.any p = cs.getLast?.any p := by
  rcases List.eq_nil_or_concat cs with rfl | ⟨front, c, rfl⟩
  · rfl
  · obtain ⟨column', hrest⟩ := exists_expandTabsFrom_append front column
    rw [List.concat_eq_append, hrest, List.getLast?_concat, expandTabsFrom]
    split
    · rename_i hc
      obtain ⟨k, hk⟩ := exists_tab_eq column'
      rw [hk, hc, expandTabsFrom, List.append_nil, List.replicate_succ', ← List.append_assoc,
        List.getLast?_concat]
      exact hspace.trans htab.symm
    · rw [expandTabsFrom, List.getLast?_concat]

/-! ## Words -/

theorem exists_of_expandTabsFrom_eq_word_append (hw : ' ' ∉ w)
    (h : expandTabsFrom column cs = w ++ rest) :
    ∃ rest' column', cs = w ++ rest' ∧ rest = expandTabsFrom column' rest' := by
  induction w generalizing cs column with
  | nil => exact ⟨cs, column, rfl, h.symm⟩
  | cons d w ih =>
    rw [List.mem_cons, not_or] at hw
    cases cs with
    | nil => cases h
    | cons c cs =>
      rw [expandTabsFrom] at h
      split at h
      · obtain ⟨k, hk⟩ := exists_tab_eq column
        rw [hk] at h
        exact absurd (List.cons.inj h).1 hw.1
      · obtain ⟨rfl, htail⟩ := List.cons.inj h
        obtain ⟨rest', column', rfl, hrest⟩ := ih hw.2 htail
        exact ⟨rest', column', rfl, hrest⟩

/-- A word in the text with expanded tabs stands in the text, between what becomes its
surroundings. -/
theorem exists_of_expandTabsFrom_eq_append (hne : w ≠ []) (hw : ' ' ∉ w)
    (h : expandTabsFrom column cs = front ++ (w ++ rest)) :
    ∃ front' rest' column', cs = front' ++ (w ++ rest') ∧ front = expandTabsFrom column front' ∧
      rest = expandTabsFrom column' rest' := by
  induction cs generalizing column front with
  | nil =>
    obtain ⟨-, hnil⟩ := List.append_eq_nil_iff.mp h.symm
    exact absurd (List.append_eq_nil_iff.mp hnil).1 hne
  | cons c cs ih =>
    cases front with
    | nil =>
      obtain ⟨rest', column', hcs, hrest⟩ := exists_of_expandTabsFrom_eq_word_append hw h
      exact ⟨[], rest', column', hcs, rfl, hrest⟩
    | cons d front =>
      rw [expandTabsFrom] at h
      split at h
      · rename_i hc
        -- the front contains all spaces of the tab, since the word starts with none
        rcases List.append_eq_append_iff.mp h with ⟨front₁, hfront, h⟩ | ⟨spaces, hspaces, h⟩
        · obtain ⟨front', rest', column', rfl, rfl, hrest⟩ := ih h
          refine ⟨c :: front', rest', column', rfl, ?_, hrest⟩
          rw [expandTabsFrom, if_pos hc, hfront]
        · cases spaces with
          | nil =>
            rw [List.append_nil] at hspaces
            obtain ⟨rest', column', rfl, hrest⟩ :=
              exists_of_expandTabsFrom_eq_word_append hw h.symm
            refine ⟨[c], rest', column', rfl, ?_, hrest⟩
            rw [expandTabsFrom, if_pos hc, expandTabsFrom, List.append_nil, hspaces]
          | cons x spaces =>
            have hx : x ∈ List.replicate (tabWidth - column % tabWidth) ' ' := by
              rw [hspaces]
              exact List.mem_append_right _ List.mem_cons_self
            obtain ⟨y, w, rfl⟩ := List.exists_cons_of_ne_nil hne
            obtain ⟨rfl, -⟩ := List.cons.inj h
            exact absurd (List.eq_of_mem_replicate hx ▸ List.mem_cons_self) hw
      · rename_i hc
        obtain ⟨rfl, htail⟩ := List.cons.inj h
        obtain ⟨front', rest', column', rfl, rfl, hrest⟩ := ih htail
        refine ⟨c :: front', rest', column', rfl, ?_, hrest⟩
        rw [expandTabsFrom, if_neg hc]

end Text

end TypedLambda
