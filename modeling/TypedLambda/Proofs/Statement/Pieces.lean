import Mathlib.Data.List.DropRight
import TypedLambda.Statement

/-!
# Statements and lines

Terminators are looked for from left to right, so how a text is divided depends on where it starts:
of three semicolons the first two are taken. A line end belongs to no terminator, so the text may be
divided into lines first: the last piece of what comes first runs together with the first piece of
what follows, and all other pieces stay as they are. Where a terminator stands at the end of a line,
the last piece of this line is blank, or starts with a semicolon that is left over.

## Main definitions

* `Statement.ofPieces`: the statements among the pieces of a text
* `Statement.Ended`: texts that leave no statement unfinished

## Main results

* `Statement.pieces_append_line`: the pieces of two texts on lines of their own
* `Statement.exists_pieces_of_terminated`: the last piece of a text that ends with a terminator
* `Statement.Ended.of_append_line`: what follows on the next lines of an ended text
-/

namespace TypedLambda

/-! ## The end of a text -/

namespace Text

variable {cs ds : List Char}

theorem trimEnd_eq_nil_iff : trimEnd cs = [] ↔ ∀ c ∈ cs, isBlank c = true :=
  List.rdropWhile_eq_nil_iff

/-- What is taken away from the end is blank. -/
theorem exists_eq_trimEnd_append (cs : List Char) :
    ∃ blanks, (∀ c ∈ blanks, isBlank c = true) ∧ cs = trimEnd cs ++ blanks :=
  ⟨cs.rtakeWhile isBlank, fun _ => List.mem_rtakeWhile_imp,
    List.rdropWhile_append_rtakeWhile.symm⟩

/-- As long as something is left of the last part, nothing is taken away in front of it. -/
theorem trimEnd_append (h : trimEnd ds ≠ []) : trimEnd (cs ++ ds) = cs ++ trimEnd ds := by
  have hne : (ds.reverse.dropWhile isBlank).isEmpty = false := by
    rw [trimEnd, Ne, List.reverse_eq_nil_iff, ← List.isEmpty_iff, Bool.not_eq_true] at h
    exact h
  rw [trimEnd, List.reverse_append, List.dropWhile_append, hne, if_neg Bool.false_ne_true,
    List.reverse_append, List.reverse_reverse, trimEnd]

end Text

namespace Statement

/-! ## Pieces -/

theorem pieces_ne_nil (cs : List Char) : pieces cs ≠ [] := by
  cases cs using pieces.fun_cases with
  | case1 => exact List.cons_ne_nil _ _
  | case2 cs => exact List.cons_ne_nil _ _
  | case3 c cs hsemi h => rw [pieces.eq_3 _ _ hsemi, h]; exact List.cons_ne_nil _ _
  | case4 c cs hsemi p ps h => rw [pieces.eq_3 _ _ hsemi, h]; exact List.cons_ne_nil _ _

/-- A character belongs to the first piece, unless it starts a terminator. -/
theorem pieces_cons {c : Char} {cs p : List Char} {ps : List (List Char)}
    (hc : c = ';' → cs.head? ≠ some ';') (h : pieces cs = p :: ps) :
    pieces (c :: cs) = (c :: p) :: ps := by
  rw [pieces.eq_3 c cs fun ds hsemi hds => hc hsemi (hds ▸ rfl), h]

/-- Induction along the division of a text. -/
theorem pieces_induct {P : List Char → Prop} (nil : P [])
    (terminator : ∀ cs, P cs → P (';' :: ';' :: cs))
    (char : ∀ c cs, (c = ';' → cs.head? ≠ some ';') → P cs → P (c :: cs)) (cs : List Char) :
    P cs := by
  have head?_ne {c : Char} {cs : List Char} (h : ∀ ds, c = ';' → cs = ';' :: ds → False)
      (hc : c = ';') : cs.head? ≠ some ';' := by
    cases cs with
    | nil => exact nofun
    | cons d ds => exact fun hd => h ds hc (Option.some.inj hd ▸ rfl)
  induction cs using pieces.induct with
  | case1 => exact nil
  | case2 cs ih => exact terminator cs ih
  | case3 c cs hsemi _ ih => exact char c cs (head?_ne hsemi) ih
  | case4 c cs hsemi _ _ _ ih => exact char c cs (head?_ne hsemi) ih

/-- The last piece of a text runs together with the first piece of what follows on the next line;
all other pieces stay as they are. -/
theorem pieces_append_line {cs ds p q : List Char} {front ps : List (List Char)}
    (hcs : pieces cs = front ++ [q]) (hds : pieces ds = p :: ps) :
    pieces (cs ++ '\n' :: ds) = front ++ (q ++ '\n' :: p) :: ps := by
  induction cs using pieces_induct generalizing front q with
  | nil =>
    obtain ⟨rfl, hq⟩ := List.append_inj' (show [] ++ [[]] = front ++ [q] from hcs) rfl
    obtain rfl := List.singleton_inj.mp hq
    exact pieces_cons (fun h => absurd h (by decide)) hds
  | terminator cs ih =>
    rw [pieces] at hcs
    cases front with
    | nil => exact absurd (List.cons.inj hcs).2 (pieces_ne_nil cs)
    | cons r front =>
      obtain ⟨rfl, htail⟩ := List.cons.inj hcs
      rw [List.cons_append, List.cons_append, pieces, ih htail]
      rfl
  | char c cs hc ih =>
    obtain ⟨r, rs, hrs⟩ := List.exists_cons_of_ne_nil (pieces_ne_nil cs)
    have hc' : c = ';' → (cs ++ '\n' :: ds).head? ≠ some ';' := by
      cases cs with
      | nil => exact fun _ h => absurd (Option.some.inj h) (by decide)
      | cons d cs => exact hc
    rw [pieces_cons hc hrs] at hcs
    cases front with
    | nil =>
      obtain ⟨rfl, rfl⟩ := List.cons.inj hcs
      exact pieces_cons hc' (ih (List.nil_append [r] ▸ hrs))
    | cons s front =>
      obtain ⟨rfl, rfl⟩ := List.cons.inj hcs
      exact pieces_cons hc' (ih (List.cons_append ▸ hrs))

theorem pieces_of_blank {cs : List Char} (h : ∀ c ∈ cs, Text.isBlank c = true) :
    pieces cs = [cs] := by
  induction cs with
  | nil => rfl
  | cons c cs ih =>
    obtain ⟨hc, hcs⟩ := List.forall_mem_cons.mp h
    refine pieces_cons (fun hsemi => ?_) (ih hcs)
    rw [hsemi] at hc
    exact absurd hc (by decide)

theorem pieces_terminated (cs : List Char) {blanks : List Char}
    (h : ∀ c ∈ blanks, Text.isBlank c = true) :
    ∃ p front q, pieces (cs ++ ';' :: ';' :: blanks) = p :: front ++ [q] ∧
      (q = blanks ∨ q = ';' :: blanks) := by
  induction cs using pieces_induct with
  | nil => exact ⟨[], [], blanks, by rw [List.nil_append, pieces, pieces_of_blank h]; rfl, .inl rfl⟩
  | terminator cs ih =>
    obtain ⟨p, front, q, hpieces, hq⟩ := ih
    exact ⟨[], p :: front, q, by rw [List.cons_append, List.cons_append, pieces, hpieces]; rfl, hq⟩
  | char c cs hc ih =>
    by_cases hodd : c = ';' ∧ cs = []
    · obtain ⟨rfl, rfl⟩ := hodd
      have hrest : pieces (';' :: blanks) = [';' :: blanks] := by
        refine pieces_cons (fun _ hhead => ?_) (pieces_of_blank h)
        exact absurd (h _ (List.mem_of_mem_head? hhead)) (by decide)
      exact ⟨[], [], ';' :: blanks, by rw [List.singleton_append, pieces, hrest]; rfl, .inr rfl⟩
    · obtain ⟨p, front, q, hpieces, hq⟩ := ih
      refine ⟨c :: p, front, q, pieces_cons (fun hsemi => ?_) hpieces, hq⟩
      cases cs with
      | nil => exact absurd ⟨hsemi, rfl⟩ hodd
      | cons d cs => exact hc hsemi

/-- Where a text ends with a terminator, but for blanks, its last piece is blank or starts with a
semicolon that is left over. -/
theorem exists_pieces_of_terminated {cs : List Char} (h : terminator <:+ Text.trimEnd cs) :
    ∃ front q, pieces cs = front ++ [q] ∧
      ((∀ c ∈ q, Text.isBlank c = true) ∨ ∃ blanks, q = ';' :: blanks) := by
  obtain ⟨blanks, hblanks, hcs⟩ := Text.exists_eq_trimEnd_append cs
  obtain ⟨front, hfront⟩ := h
  obtain ⟨p, ps, q, hpieces, hq⟩ := pieces_terminated front hblanks
  refine ⟨p :: ps, q, ?_, ?_⟩
  · rw [hcs, ← hfront, List.append_assoc]
    exact hpieces
  · rcases hq with rfl | rfl
    · exact .inl hblanks
    · exact .inr ⟨blanks, rfl⟩

/-! ## Statements -/

/-- The statements among the pieces of a text. -/
def ofPieces (ps : List (List Char)) : List String :=
  (ps.filter fun p => !p.all Text.isBlank).map String.ofList

theorem split_eq_ofPieces (source : String) : split source = ofPieces (pieces source.toList) := rfl

theorem ofPieces_append (ps qs : List (List Char)) :
    ofPieces (ps ++ qs) = ofPieces ps ++ ofPieces qs := by
  rw [ofPieces, List.filter_append, List.map_append]
  rfl

theorem ofPieces_cons_of_blank {p : List Char} (h : ∀ c ∈ p, Text.isBlank c = true)
    (ps : List (List Char)) : ofPieces (p :: ps) = ofPieces ps := by
  have hp : p.all Text.isBlank = true := List.all_eq_true.mpr h
  simp [ofPieces, hp]

theorem ofPieces_cons_of_not_blank {p : List Char} (h : ¬∀ c ∈ p, Text.isBlank c = true)
    (ps : List (List Char)) : ofPieces (p :: ps) = String.ofList p :: ofPieces ps := by
  have hp : p.all Text.isBlank = false := by
    rwa [← Bool.not_eq_true, List.all_eq_true]
  simp [ofPieces, hp]

/-- A blank text has no statements. -/
theorem ofPieces_pieces_of_blank {cs : List Char} (h : ∀ c ∈ cs, Text.isBlank c = true) :
    ofPieces (pieces cs) = [] := by
  rw [pieces_of_blank h, ofPieces_cons_of_blank h]
  rfl

/-! ## Ended texts -/

/-- The text is blank or ends with a terminator, but for blanks. -/
def Ended (cs : List Char) : Prop :=
  Text.trimEnd cs = [] ∨ terminator <:+ Text.trimEnd cs

instance (cs : List Char) : Decidable (Ended cs) :=
  inferInstanceAs (Decidable (_ ∨ _))

theorem isTerminated_iff {source : String} :
    isTerminated source = true ↔ terminator <:+ Text.trimEnd source.toList := by
  rw [isTerminated, List.isSuffixOf_iff_suffix]

/-- What follows on the next lines of an ended text is ended, too. -/
theorem Ended.of_append_line {cs ds : List Char} (h : Ended (cs ++ '\n' :: ds)) : Ended ds := by
  by_cases hds : Text.trimEnd ds = []
  · exact .inl hds
  have hsplit : Text.trimEnd (cs ++ '\n' :: ds) = cs ++ '\n' :: Text.trimEnd ds := by
    rw [← List.singleton_append, ← List.append_assoc, Text.trimEnd_append hds, List.append_assoc]
    rfl
  rw [Ended, hsplit] at h
  rcases h with h | h
  · exact absurd h (List.append_ne_nil_of_right_ne_nil _ (List.cons_ne_nil _ _))
  · have hlen : terminator.length ≤ ('\n' :: Text.trimEnd ds).length := by
      have hpos := List.length_pos_iff.mpr hds
      rw [List.length_cons]
      exact Nat.succ_le_succ hpos
    have hline := List.suffix_of_suffix_length_le h (List.suffix_append cs _) hlen
    rcases List.suffix_cons_iff.mp hline with heq | hsuffix
    · exact absurd (List.cons.inj heq).1 (by decide)
    · exact .inr hsuffix

end Statement

end TypedLambda
