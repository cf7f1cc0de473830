import TypedLambda.Proofs.Grammar.Lexeme
import TypedLambda.Proofs.Text.Letter
import TypedLambda.Token

/-!
# Divisions into pieces

A text may be divided into legal pieces in many ways, since a run of blanks, a word or a number may
be cut where another piece of text can start. The scan always takes the longest piece. It gets to
the end all the same whenever some division does: a legal piece consists of characters with which
the piece in front of it may go on, or it starts with one that ends this piece. So what the longest
piece takes from a division are whole pieces, and those behind them divide the rest.

## Main definitions

* `Token.Class.Contains`, `Token.Piece.Legal`: the texts of a class
* `Token.Divides`: the division of a text into legal pieces
* `Token.Scans`: what a scan gives, piece by piece

## Main results

* `Token.piece?_append`: the longest piece
* `Token.piece?_eq_none_iff`: texts with which no legal piece starts
* `Token.Divides.error_eq_none`: a text that can be divided is scanned to its end
* `Token.Scans.divides`, `Token.Scans.of_error`: what the scan has passed over
* `Token.check_eq_ok_iff_divides`: texts without lexical errors
* `Token.scan_divides`: the scan accepts what can be divided, and loses nothing
-/

namespace TypedLambda

namespace Token

/-! ## Legal pieces -/

/-- The texts of a class, whether or not they could be longer. -/
def Class.Contains : Class → List Char → Prop
  | blank, cs => cs ≠ [] ∧ ∀ c ∈ cs, Text.isBlank c = true
  | string, cs => ∃ content, '"' ∉ content ∧ cs = '"' :: (content ++ ['"'])
  | word, cs => ∃ c rest, cs = c :: rest ∧ Text.isWordStart c = true ∧
      ∀ d ∈ rest, Text.isNameChar d = true
  | number, cs => cs ≠ [] ∧ ∀ c ∈ cs, c.isDigit = true
  | symbol, cs => cs = ['-', '>'] ∨ ∃ c ∈ marks, cs = [c]

/-- The characters with which a piece of the class may go on. -/
def Class.goesOn : Class → Char → Bool
  | blank => Text.isBlank
  | word => Text.isNameChar
  | number => Char.isDigit
  | string | symbol => fun _ => false

/-- The piece is a text of its class. -/
def Piece.Legal (p : Piece) : Prop :=
  p.cls.Contains p.chars

variable {p : Piece} {ps : List Piece} {c : Char} {cs rest : List Char}

theorem Piece.Legal.chars_ne_nil (h : p.Legal) : p.chars ≠ [] := by
  obtain ⟨cls, chars⟩ := p
  cases cls with
  | blank | number => exact h.1
  | string =>
    obtain ⟨content, -, heq⟩ := h
    exact heq ▸ List.cons_ne_nil _ _
  | word =>
    obtain ⟨c, rest, heq, -⟩ := h
    exact heq ▸ List.cons_ne_nil _ _
  | symbol =>
    rcases h with heq | ⟨c, -, heq⟩ <;> exact heq ▸ List.cons_ne_nil _ _

theorem any_head?_append (h : cs ≠ []) (q : Char → Bool) (rest : List Char) :
    (cs ++ rest).head?.any q = cs.head?.any q := by
  obtain ⟨c, cs, rfl⟩ := List.exists_cons_of_ne_nil h
  rfl

/-- A mark belongs to no other class. -/
theorem not_of_mem_marks (h : c ∈ marks) :
    Text.isBlank c = false ∧ c ≠ '"' ∧ Text.isNameChar c = false := by
  have hmarks : marks.all (fun c => !Text.isBlank c && c != '"' && !Text.isNameChar c) = true := rfl
  simpa [and_assoc] using List.all_eq_true.mp hmarks c h

theorem not_isWordStart_of_not_isNameChar (h : Text.isNameChar c = false) :
    Text.isWordStart c = false ∧ c.isDigit = false := by
  rw [← Bool.not_eq_true] at h
  constructor <;> rw [← Bool.not_eq_true]
  · exact fun hc => h (Text.isNameChar_of_isWordStart hc)
  · exact fun hc => h (Text.isNameChar_of_isDigit hc)

/-! ## The longest piece -/

theorem Class.span_of_not_goesOn (cls : Class) (h : ∀ c, cls.goesOn c = false) (cs : List Char) :
    cs.takeWhile cls.goesOn = [] ∧ cs.dropWhile cls.goesOn = cs := by
  have hnext : cs.head?.any cls.goesOn = false := by
    cases cs with
    | nil => rfl
    | cons c cs => exact h c
  exact ⟨Grammar.takeWhile_eq_nil_of_next hnext, Grammar.dropWhile_eq_self_of_next hnext⟩

/-- A legal piece at the beginning of a text goes on as far as its class allows. -/
theorem piece?_append (hp : p.Legal) (cs : List Char) :
    piece? (p.chars ++ cs) =
      some (⟨p.cls, p.chars ++ cs.takeWhile p.cls.goesOn⟩, cs.dropWhile p.cls.goesOn) := by
  obtain ⟨cls, chars⟩ := p
  cases cls with
  | blank =>
    obtain ⟨hne, hblank⟩ := hp
    obtain ⟨c, chars, rfl⟩ := List.exists_cons_of_ne_nil hne
    obtain ⟨hc, hchars⟩ := List.forall_mem_cons.mp hblank
    rw [List.cons_append, piece?, if_pos hc, List.takeWhile_append_of_pos hchars,
      List.dropWhile_append_of_pos hchars]
    rfl
  | string =>
    obtain ⟨content, hcontent, rfl⟩ := hp
    have hinside : ∀ c ∈ content, decide (c ≠ '"') = true := by
      intro c hc
      exact decide_eq_true fun heq => hcontent (heq ▸ hc)
    have hquote : ('"' :: cs).head?.any (fun c => decide (c ≠ '"')) = false := rfl
    obtain ⟨htake, hdrop⟩ := Grammar.takeWhile_append_of_next hinside hquote
    rw [List.cons_append, List.append_assoc, List.singleton_append, piece?, if_neg (by decide),
      if_pos rfl, hdrop]
    obtain ⟨hnone, hall⟩ := Class.span_of_not_goesOn .string (fun _ => rfl) cs
    simp only [htake, hnone, hall, List.append_nil, List.cons_append]
  | word =>
    obtain ⟨c, chars, rfl, hc, hchars⟩ := hp
    have hblank := Text.isBlank_of_isNameChar (Text.isNameChar_of_isWordStart hc)
    have hquote : c ≠ '"' := by
      rintro rfl
      cases hc
    rw [List.cons_append, piece?, if_neg (by simp [hblank]), if_neg hquote, if_pos hc,
      List.takeWhile_append_of_pos hchars, List.dropWhile_append_of_pos hchars]
    rfl
  | number =>
    obtain ⟨hne, hdigits⟩ := hp
    obtain ⟨c, chars, rfl⟩ := List.exists_cons_of_ne_nil hne
    obtain ⟨hc, hchars⟩ := List.forall_mem_cons.mp hdigits
    have hblank := Text.isBlank_of_isNameChar (Text.isNameChar_of_isDigit hc)
    have hquote : c ≠ '"' := by
      rintro rfl
      cases hc
    rw [List.cons_append, piece?, if_neg (by simp [hblank]), if_neg hquote,
      if_neg (by simp [Text.isWordStart_of_isDigit hc]), if_pos hc,
      List.takeWhile_append_of_pos hchars, List.dropWhile_append_of_pos hchars]
    rfl
  | symbol =>
    obtain ⟨htake, hdrop⟩ := Class.span_of_not_goesOn .symbol (fun _ => rfl) cs
    dsimp only
    rw [htake, hdrop, List.append_nil]
    rcases hp with rfl | ⟨c, hc, rfl⟩
    · rfl
    · obtain ⟨hblank, hquote, hname⟩ := not_of_mem_marks hc
      obtain ⟨hstart, hdigit⟩ := not_isWordStart_of_not_isNameChar hname
      simp [piece?, hblank, hquote, hstart, hdigit, hc]

/-- A legal piece is the longest one when it cannot go on. -/
theorem piece?_append_of_next (hp : p.Legal) (hnext : cs.head?.any p.cls.goesOn = false) :
    piece? (p.chars ++ cs) = some (p, cs) := by
  rw [piece?_append hp, Grammar.takeWhile_eq_nil_of_next hnext,
    Grammar.dropWhile_eq_self_of_next hnext, List.append_nil]

theorem forall_mem_takeWhile (q : Char → Bool) (cs : List Char) :
    ∀ c ∈ cs.takeWhile q, q c = true :=
  List.all_eq_true.mp List.all_takeWhile

/-- The longest piece is legal, the rest stands behind it, and it cannot go on there. -/
theorem eq_append_of_piece? (h : piece? cs = some (p, rest)) :
    p.Legal ∧ cs = p.chars ++ rest ∧ rest.head?.any p.cls.goesOn = false := by
  cases cs with
  | nil => cases h
  | cons c cs =>
    have hspan (q : Char → Bool) : c :: cs = (c :: cs.takeWhile q) ++ cs.dropWhile q := by
      rw [List.cons_append, List.takeWhile_append_dropWhile]
    have hnothing (cs : List Char) : cs.head?.any (fun _ => false) = false := by
      cases cs <;> rfl
    rw [piece?] at h
    split at h
    · rename_i hc
      cases h
      exact ⟨⟨List.cons_ne_nil _ _, List.forall_mem_cons.mpr ⟨hc, forall_mem_takeWhile _ _⟩⟩,
        hspan _, Grammar.any_head?_dropWhile _ _⟩
    split at h
    · rename_i hc
      subst hc
      split at h
      · cases h
      · rename_i quote after hafter
        cases h
        have hquote : quote = '"' := by
          have hhead := Grammar.any_head?_dropWhile (· ≠ '"') cs
          rw [hafter] at hhead
          simpa using hhead
        subst hquote
        refine ⟨⟨cs.takeWhile (· ≠ '"'), fun hmem => ?_, rfl⟩, ?_, hnothing _⟩
        · exact absurd rfl (of_decide_eq_true (forall_mem_takeWhile _ cs _ hmem))
        · rw [List.cons_append, List.cons_append, List.append_assoc, List.singleton_append,
            ← hafter, List.takeWhile_append_dropWhile]
    split at h
    · rename_i hc
      cases h
      exact ⟨⟨c, _, rfl, hc, forall_mem_takeWhile _ _⟩, hspan _, Grammar.any_head?_dropWhile _ _⟩
    split at h
    · rename_i hc
      cases h
      exact ⟨⟨List.cons_ne_nil _ _, List.forall_mem_cons.mpr ⟨hc, forall_mem_takeWhile _ _⟩⟩,
        hspan _, Grammar.any_head?_dropWhile _ _⟩
    split at h
    · rename_i hc
      cases h
      exact ⟨.inr ⟨c, hc, rfl⟩, rfl, hnothing _⟩
    split at h
    · rename_i hc
      obtain ⟨rfl, hnext⟩ := hc
      cases h
      cases cs with
      | nil => cases hnext
      | cons d cs =>
        obtain rfl := Option.some.inj hnext
        exact ⟨.inl rfl, rfl, hnothing _⟩
    · cases h

/-- No piece is found exactly where no legal piece starts. -/
theorem piece?_eq_none_iff : piece? cs = none ↔ ∀ p : Piece, p.Legal → ¬ p.chars <+: cs := by
  constructor
  · rintro h p hp ⟨rest, rfl⟩
    rw [piece?_append hp] at h
    cases h
  · intro h
    cases hpiece : piece? cs with
    | none => rfl
    | some r =>
      obtain ⟨hlegal, heq, -⟩ := eq_append_of_piece? hpiece
      exact absurd (heq ▸ List.prefix_append _ _) (h r.1 hlegal)

/-! ## Divisions -/

/-- The text is made up by these legal pieces, in this order. -/
inductive Divides : List Piece → List Char → Prop
  | nil : Divides [] []
  | cons {p : Piece} {ps : List Piece} {cs : List Char} (hp : p.Legal) (h : Divides ps cs) :
      Divides (p :: ps) (p.chars ++ cs)

/-- The tokens among the pieces: all but the blanks. -/
def tokensOf (ps : List Piece) : List (List Char) :=
  (ps.filter fun p => p.cls ≠ .blank).map Piece.chars

theorem Divides.legal (h : Divides ps cs) : ∀ p ∈ ps, p.Legal := by
  induction h with
  | nil => exact List.forall_mem_nil _
  | cons hp _ ih => exact List.forall_mem_cons.mpr ⟨hp, ih⟩

/-! ## First characters -/

/-- Only a run of blanks starts with a blank. -/
theorem Piece.Legal.isBlank_head? (hp : p.Legal) (hcls : p.cls ≠ .blank) :
    p.chars.head?.any Text.isBlank = false := by
  obtain ⟨cls, chars⟩ := p
  cases cls with
  | blank => exact absurd rfl hcls
  | string =>
    obtain ⟨content, -, rfl⟩ := hp
    rfl
  | word =>
    obtain ⟨c, rest, rfl, hc, -⟩ := hp
    exact Text.isBlank_of_isNameChar (Text.isNameChar_of_isWordStart hc)
  | number =>
    obtain ⟨hne, hdigits⟩ := hp
    obtain ⟨c, rest, rfl⟩ := List.exists_cons_of_ne_nil hne
    exact Text.isBlank_of_isNameChar (Text.isNameChar_of_isDigit (hdigits c List.mem_cons_self))
  | symbol =>
    rcases hp with rfl | ⟨c, hc, rfl⟩
    · decide
    · exact (not_of_mem_marks hc).1

/-- Only words and numbers start with a character of names. -/
theorem Piece.Legal.isNameChar_head? (hp : p.Legal) (hword : p.cls ≠ .word)
    (hnumber : p.cls ≠ .number) : p.chars.head?.any Text.isNameChar = false := by
  obtain ⟨cls, chars⟩ := p
  cases cls with
  | blank =>
    obtain ⟨hne, hblank⟩ := hp
    obtain ⟨c, rest, rfl⟩ := List.exists_cons_of_ne_nil hne
    show Text.isNameChar c = false
    rw [← Bool.not_eq_true]
    intro hc
    have hc' := hblank c List.mem_cons_self
    rw [Text.isBlank_of_isNameChar hc] at hc'
    cases hc'
  | string =>
    obtain ⟨content, -, rfl⟩ := hp
    rfl
  | word => exact absurd rfl hword
  | number => exact absurd rfl hnumber
  | symbol =>
    rcases hp with rfl | ⟨c, hc, rfl⟩
    · decide
    · exact (not_of_mem_marks hc).2.2

/-- Only a number starts with a digit. -/
theorem Piece.Legal.isDigit_head? (hp : p.Legal) (hcls : p.cls ≠ .number) :
    p.chars.head?.any Char.isDigit = false := by
  by_cases hword : p.cls = .word
  · obtain ⟨cls, chars⟩ := p
    subst hword
    obtain ⟨c, rest, rfl, hc, -⟩ := hp
    show c.isDigit = false
    rw [← Bool.not_eq_true]
    intro hdigit
    rw [Text.isWordStart_of_isDigit hdigit] at hc
    cases hc
  · exact Text.not_any_of_not_any (fun _ => Text.isNameChar_of_isDigit)
      (hp.isNameChar_head? hword hcls)

/-- A piece goes on with all of a legal piece, or with nothing of it. -/
theorem Piece.Legal.goesOn_or (hp : p.Legal) (cls : Class) :
    (∀ c ∈ p.chars, cls.goesOn c = true) ∨ p.chars.head?.any cls.goesOn = false := by
  cases cls with
  | string | symbol => exact .inr (by cases p.chars <;> rfl)
  | blank =>
    by_cases hcls : p.cls = .blank
    · obtain ⟨own, chars⟩ := p
      subst hcls
      exact .inl hp.2
    · exact .inr (hp.isBlank_head? hcls)
  | word =>
    by_cases hword : p.cls = .word
    · obtain ⟨own, chars⟩ := p
      subst hword
      obtain ⟨c, rest, rfl, hc, hrest⟩ := hp
      exact .inl (List.forall_mem_cons.mpr ⟨Text.isNameChar_of_isWordStart hc, hrest⟩)
    · by_cases hnumber : p.cls = .number
      · obtain ⟨own, chars⟩ := p
        subst hnumber
        exact .inl fun c hc => Text.isNameChar_of_isDigit (hp.2 c hc)
      · exact .inr (hp.isNameChar_head? hword hnumber)
  | number =>
    by_cases hcls : p.cls = .number
    · obtain ⟨own, chars⟩ := p
      subst hcls
      exact .inl hp.2
    · exact .inr (hp.isDigit_head? hcls)

/-! ## The scan of a text that can be divided -/

/-- What is left of a divided text behind the longest piece can be divided. -/
theorem Divides.dropWhile (h : Divides ps cs) (cls : Class) :
    ∃ qs, Divides qs (cs.dropWhile cls.goesOn) := by
  induction h with
  | nil => exact ⟨[], .nil⟩
  | @cons p ps cs hp h ih =>
    rcases hp.goesOn_or cls with hall | hnone
    · rwa [List.dropWhile_append_of_pos hall]
    · rw [← any_head?_append hp.chars_ne_nil _ cs] at hnone
      rw [Grammar.dropWhile_eq_self_of_next hnone]
      exact ⟨p :: ps, .cons hp h⟩

/-! ## What the scan gives -/

/-- What the scan of a text that starts at the given position gives. -/
inductive Scans : Nat → List Char → Scan → Prop
  | nil {pos : Nat} : Scans pos [] {}
  | error {pos : Nat} {c : Char} {cs : List Char} (h : piece? (c :: cs) = none) :
      Scans pos (c :: cs) { error := some ⟨c, pos⟩ }
  | piece {pos : Nat} {cs rest : List Char} {p : Piece} {s : Scan}
      (h : piece? cs = some (p, rest)) (hs : Scans (pos + p.chars.length) rest s) :
      Scans pos cs (s.push p)

variable {pos bound : Nat} {s t : Scan}

@[simp]
theorem Scan.error_push (p : Piece) (s : Scan) : (s.push p).error = s.error := by
  unfold Scan.push
  split <;> rfl

theorem Scan.push_of_blank (h : p.cls = .blank) (s : Scan) : s.push p = s :=
  if_pos h

theorem Scan.push_of_ne_blank (h : p.cls ≠ .blank) (s : Scan) :
    s.push p = { s with tokens := p.chars :: s.tokens } :=
  if_neg h

/-- A piece in front does the same where the error behind it is cut off. -/
theorem Scan.push_tokens (p : Piece) (s : Scan) :
    Scan.push p { tokens := s.tokens } = { tokens := (s.push p).tokens } := by
  unfold Scan.push
  split <;> rfl

theorem Scan.tokens_push (p : Piece) (h : s.tokens = tokensOf ps) :
    (s.push p).tokens = tokensOf (p :: ps) := by
  by_cases hp : p.cls = .blank
  · rw [Scan.push_of_blank hp, h, tokensOf, tokensOf, List.filter_cons_of_neg (by simp [hp])]
  · rw [Scan.push_of_ne_blank hp, tokensOf, List.filter_cons_of_pos (by simp [hp])]
    exact congrArg _ h

theorem scans_scanWithin (h : cs.length ≤ bound) : Scans pos cs (scanWithin bound pos cs) := by
  induction bound generalizing pos cs with
  | zero =>
    obtain rfl := List.length_eq_zero_iff.mp (Nat.le_zero.mp h)
    exact .nil
  | succ bound ih =>
    cases cs with
    | nil => exact .nil
    | cons c cs =>
      rw [scanWithin]
      split
      · rename_i hpiece
        exact .error hpiece
      · rename_i p rest hpiece
        refine .piece hpiece (ih ?_)
        obtain ⟨hlegal, heq, -⟩ := eq_append_of_piece? hpiece
        have hpos := List.length_pos_iff.mpr hlegal.chars_ne_nil
        have hlength := congrArg List.length heq
        rw [List.length_append] at hlength
        omega

theorem Scans.unique (hs : Scans pos cs s) (ht : Scans pos cs t) : s = t := by
  induction hs generalizing t with
  | nil =>
    cases ht with
    | nil => rfl
    | piece h => cases h
  | error h =>
    cases ht with
    | error => rfl
    | piece h' => rw [h] at h'; cases h'
  | piece h _ ih =>
    cases ht with
    | nil => cases h
    | error h' => rw [h] at h'; cases h'
    | piece h' ht =>
      rw [h] at h'
      cases h'
      rw [ih ht]

/-- The scan is the only one that goes through the text piece by piece. -/
theorem scans_iff : Scans 0 cs s ↔ scan cs = s := by
  have hscan : Scans 0 cs (scan cs) := scans_scanWithin (Nat.le_refl _)
  constructor
  · exact hscan.unique
  · rintro rfl
    exact hscan

/-- A text that can be divided is scanned to its end. -/
theorem Divides.error_eq_none (h : Divides ps cs) (hs : Scans pos cs s) : s.error = none := by
  -- along the scan, with the invariant that the text that is left can be divided
  induction hs generalizing ps with
  | nil => rfl
  | error hpiece =>
    generalize hcs : _ :: _ = cs at h hpiece
    cases h with
    | nil => cases hcs
    | cons hp =>
      rw [piece?_append hp] at hpiece
      cases hpiece
  | piece hpiece _ ih =>
    cases h with
    | nil => cases hpiece
    | cons hp h =>
      rw [piece?_append hp] at hpiece
      cases hpiece
      obtain ⟨qs, hqs⟩ := h.dropWhile _
      rw [Scan.error_push]
      exact ih hqs

/-- A scan that gets to the end of the text divides it. -/
theorem Scans.divides (h : Scans pos cs s) (hs : s.error = none) :
    ∃ ps, Divides ps cs ∧ s.tokens = tokensOf ps := by
  induction h with
  | nil => exact ⟨[], .nil, rfl⟩
  | error => cases hs
  | @piece pos cs rest p s hpiece _ ih =>
    obtain ⟨ps, hps, htokens⟩ := ih (by rwa [Scan.error_push] at hs)
    obtain ⟨hp, rfl, -⟩ := eq_append_of_piece? hpiece
    exact ⟨p :: ps, .cons hp hps, Scan.tokens_push p htokens⟩

/-- A scan that ends in an error has scanned all that is in front of it, and found no piece
there. -/
theorem Scans.of_error {e : LexicalError} (h : Scans pos cs s) (hs : s.error = some e) :
    ∃ front rest, cs = front ++ e.char :: rest ∧ e.pos = pos + front.length ∧
      piece? (e.char :: rest) = none ∧ Scans pos front { tokens := s.tokens } := by
  induction h with
  | nil => cases hs
  | @error pos c cs hpiece =>
    cases hs
    exact ⟨[], cs, rfl, rfl, hpiece, .nil⟩
  | @piece pos cs rest p s hpiece _ ih =>
    obtain ⟨front, behind, rfl, hpos, hnone, hfront⟩ := ih (by rwa [Scan.error_push] at hs)
    obtain ⟨hp, rfl, hnext⟩ := eq_append_of_piece? hpiece
    refine ⟨p.chars ++ front, behind, (List.append_assoc _ _ _).symm, ?_, hnone, ?_⟩
    · rw [List.length_append, hpos, Nat.add_assoc]
    · have hcut : front.head?.any p.cls.goesOn = false := by
        cases front with
        | nil => rfl
        | cons d front => exact hnext
      have hscans := Scans.piece (piece?_append_of_next hp hcut) hfront
      rwa [Scan.push_tokens] at hscans

theorem check_eq_ok_iff : check cs = .ok () ↔ (scan cs).error = none := by
  rw [check]
  cases (scan cs).error with
  | none => exact iff_of_true rfl rfl
  | some e => exact iff_of_false nofun nofun

/-- A text has no lexical errors when it can be divided. -/
theorem check_eq_ok_iff_divides : check cs = .ok () ↔ ∃ ps, Divides ps cs := by
  have hscans : Scans 0 cs (scan cs) := scans_iff.mpr rfl
  rw [check_eq_ok_iff]
  constructor
  · intro h
    obtain ⟨ps, hps, -⟩ := hscans.divides h
    exact ⟨ps, hps⟩
  · rintro ⟨ps, hps⟩
    exact hps.error_eq_none hscans

/-! ## The tokens joined by spaces -/

theorem Class.goesOn_space {cls : Class} (h : cls ≠ .blank) : cls.goesOn ' ' = false := by
  cases cls with
  | blank => exact absurd rfl h
  | string | symbol => rfl
  | word | number => decide

theorem exists_intercalate_cons {α : Type} (sep x : List α) (xs : List (List α)) :
    ∃ rest, sep.intercalate (x :: xs) = x ++ rest := by
  cases xs with
  | nil => exact ⟨[], by simp⟩
  | cons y ys => exact ⟨sep ++ sep.intercalate (y :: ys), by simp [List.append_assoc]⟩

/-- Spaces keep tokens apart. -/
theorem scans_intercalate (hps : ∀ p ∈ ps, p.Legal ∧ p.cls ≠ .blank) :
    Scans pos ([' '].intercalate (ps.map Piece.chars)) { tokens := ps.map Piece.chars } := by
  induction ps generalizing pos with
  | nil => exact .nil
  | cons p ps ih =>
    obtain ⟨⟨hp, hcls⟩, hps⟩ := List.forall_mem_cons.mp hps
    have hpush (pos : Nat) {rest : List Char} (hnext : rest.head?.any p.cls.goesOn = false)
        (hrest : Scans (pos + p.chars.length) rest { tokens := ps.map Piece.chars }) :
        Scans pos (p.chars ++ rest) { tokens := (p :: ps).map Piece.chars } := by
      have hscans := Scans.piece (piece?_append_of_next hp hnext) hrest
      rwa [Scan.push_of_ne_blank hcls] at hscans
    cases ps with
    | nil => simpa using hpush pos rfl .nil
    | cons q qs =>
      obtain ⟨⟨hq, hqcls⟩, -⟩ := List.forall_mem_cons.mp hps
      rw [List.map_cons, List.map_cons, List.intercalate_cons_cons, List.append_assoc]
      refine hpush pos (Class.goesOn_space hcls) ?_
      have hspace : Piece.Legal ⟨.blank, [' ']⟩ :=
        ⟨List.cons_ne_nil _ _, List.forall_mem_singleton.mpr rfl⟩
      have hnext : (([' '].intercalate ((q :: qs).map Piece.chars)).head?.any Text.isBlank) =
          false := by
        obtain ⟨rest, hrest⟩ := exists_intercalate_cons [' '] q.chars (qs.map Piece.chars)
        rw [List.map_cons, hrest, any_head?_append hq.chars_ne_nil]
        exact hq.isBlank_head? hqcls
      exact .piece (piece?_append_of_next hspace hnext) (ih hps)

/-! ## The language of the scan -/

/-- The scan gets to the end of a text exactly when the text can be divided into legal pieces in
some way. Its tokens are then all that is not blank in such a division, and joined by spaces they
are scanned to the same tokens. Otherwise the error is at a place where no legal piece starts, and
the text in front of it is scanned to its end, to the same tokens. -/
theorem scan_divides (text : List Char) :
    ((scan text).error = none ↔ ∃ ps, Divides ps text) ∧
      ((scan text).error = none →
        (∃ ps, Divides ps text ∧ (scan text).tokens = tokensOf ps) ∧
          scan ([' '].intercalate (scan text).tokens) = { tokens := (scan text).tokens }) ∧
      ∀ e, (scan text).error = some e →
        text[e.pos]? = some e.char ∧
          scan (text.take e.pos) = { tokens := (scan text).tokens } ∧
            ∀ p : Piece, p.Legal → ¬p.chars <+: text.drop e.pos := by
  have hscans : Scans 0 text (scan text) := scans_iff.mpr rfl
  refine ⟨check_eq_ok_iff.symm.trans check_eq_ok_iff_divides, fun herror => ?_, fun e herror => ?_⟩
  · obtain ⟨ps, hps, htokens⟩ := hscans.divides herror
    refine ⟨⟨ps, hps, htokens⟩, ?_⟩
    rw [htokens, tokensOf]
    apply scans_iff.mp
    apply scans_intercalate
    intro p hp
    obtain ⟨hmem, hcls⟩ := List.mem_filter.mp hp
    exact ⟨hps.legal p hmem, of_decide_eq_true hcls⟩
  · obtain ⟨front, rest, htext, hpos, hnone, hfront⟩ := hscans.of_error herror
    rw [Nat.zero_add] at hpos
    subst htext
    rw [hpos]
    refine ⟨by simp, ?_, ?_⟩
    · rw [List.take_left]
      exact scans_iff.mp hfront
    · rw [List.drop_left]
      exact piece?_eq_none_iff.mp hnone

/-- A text in which pieces touch each other, with another division than that of the scan, and a text
with a quote that is not closed. -/
theorem scan_divides_of_touching :
    (Divides [⟨.word, ['a']⟩, ⟨.number, ['1']⟩, ⟨.string, "\"b \"".toList⟩] "a1\"b \"".toList ∧
        scan "a1 \"b \"".toList = { tokens := ["a1".toList, "\"b \"".toList] }) ∧
      ("f -> \"b".toList[5]? = some '"' ∧
        scan ("f -> \"b".toList.take 5) = { tokens := ["f".toList, "->".toList] } ∧
          ∀ p : Piece, p.Legal → ¬p.chars <+: "\"b".toList) := by
  have hdivides :
      Divides [⟨.word, ['a']⟩, ⟨.number, ['1']⟩, ⟨.string, "\"b \"".toList⟩] "a1\"b \"".toList :=
    .cons ⟨'a', [], rfl, rfl, List.forall_mem_nil _⟩ <|
      .cons ⟨List.cons_ne_nil _ _, List.forall_mem_singleton.mpr rfl⟩ <|
        .cons ⟨"b ".toList, by simp, rfl⟩ .nil
  obtain ⟨haccepts, hjoined, -⟩ := scan_divides "a1\"b \"".toList
  exact ⟨⟨hdivides, (hjoined (haccepts.mpr ⟨_, hdivides⟩)).2⟩,
    (scan_divides "f -> \"b".toList).2.2 ⟨'"', 5⟩ (by decide)⟩

end Token

end TypedLambda
