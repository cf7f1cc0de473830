import TypedLambda.Proofs.Session.BlankLines
import TypedLambda.Proofs.Statement.Pieces
import TypedLambda.Proofs.Text.TabStop
import TypedLambda.Proofs.Token.Division

/-!
# Joining statements

Statements are joined with terminators and found again by division, which looks at the characters
alone. A text that is read as a command is not blank and ends with no semicolon, so the terminators
put between such texts are found where they are. But a string literal may contain a terminator, and
there the text is divided, too.

## Main results

* `Statement.pieces_intercalate`: the pieces of joined texts
* `Statement.not_infix_of_mem_pieces`: no piece contains a terminator
* `Statement.IsText.of_parse`: texts that are read as commands
* `Statement.split_intercalate_iff`: joined statements are found again exactly when none of them
  contains a terminator
* `Statement.split_literal_ne`: a terminator in a string literal divides the text
-/

namespace TypedLambda

/-! ## The end of a legal text -/

namespace Token

variable {p : Piece} {ps : List Piece} {cs : List Char}

/-- No legal piece ends with a semicolon. -/
theorem Piece.Legal.getLast?_ne (hp : p.Legal) : p.chars.getLast? ≠ some ';' := by
  obtain ⟨cls, chars⟩ := p
  intro hlast
  have hmem := List.mem_of_getLast? hlast
  cases cls with
  | blank => exact absurd (hp.2 _ hmem) (by decide)
  | string =>
    obtain ⟨content, -, rfl⟩ := hp
    rw [← List.cons_append, List.getLast?_concat] at hlast
    cases hlast
  | word =>
    obtain ⟨c, rest, rfl, hc, hrest⟩ := hp
    have hname : Text.isNameChar ';' = true :=
      (List.forall_mem_cons (p := fun d => Text.isNameChar d = true)).mpr
        ⟨Text.isNameChar_of_isWordStart hc, hrest⟩ _ hmem
    exact absurd hname (by decide)
  | number => exact absurd (hp.2 _ hmem) (by decide)
  | symbol =>
    rcases hp with rfl | ⟨c, hc, rfl⟩
    · cases hlast
    · obtain rfl := Option.some.inj hlast
      exact absurd hc (by decide)

theorem Divides.getLast?_ne (h : Divides ps cs) : cs.getLast? ≠ some ';' := by
  induction h with
  | nil => exact nofun
  | @cons p ps cs hp _ ih =>
    by_cases hcs : cs = []
    · rw [hcs, List.append_nil]
      exact hp.getLast?_ne
    · rwa [List.getLast?_append_of_ne_nil _ hcs]

end Token

namespace Statement

variable {c : Char} {cs ds p : List Char} {ps : List (List Char)}

/-! ## Pieces and terminators -/

theorem terminator_infix_cons_iff :
    terminator <:+: c :: cs ↔ (c = ';' ∧ cs.head? = some ';') ∨ terminator <:+: cs := by
  rw [List.infix_cons_iff, terminator, List.cons_prefix_cons]
  have hhead : [';'] <+: cs ↔ cs.head? = some ';' := by
    cases cs with
    | nil => simp
    | cons d cs => simp [eq_comm]
  rw [hhead, eq_comm]

/-- The first piece stands at the beginning of the text. -/
theorem prefix_of_pieces (h : pieces cs = p :: ps) : p <+: cs := by
  induction cs using pieces_induct generalizing p ps with
  | nil =>
    obtain ⟨rfl, -⟩ := List.cons.inj h
    exact List.prefix_rfl
  | terminator cs ih =>
    rw [pieces] at h
    obtain ⟨rfl, -⟩ := List.cons.inj h
    exact List.nil_prefix
  | char c cs hc ih =>
    obtain ⟨q, qs, hqs⟩ := List.exists_cons_of_ne_nil (pieces_ne_nil cs)
    rw [pieces_cons hc hqs] at h
    obtain ⟨rfl, -⟩ := List.cons.inj h
    exact (List.cons_prefix_cons).mpr ⟨rfl, ih hqs⟩

/-- No piece contains a terminator. -/
theorem not_infix_of_mem_pieces (h : p ∈ pieces cs) : ¬terminator <:+: p := by
  induction cs using pieces_induct generalizing p with
  | nil =>
    obtain rfl := List.mem_singleton.mp h
    decide
  | terminator cs ih =>
    rw [pieces] at h
    rcases List.mem_cons.mp h with rfl | h
    · decide
    · exact ih h
  | char c cs hc ih =>
    obtain ⟨q, qs, hqs⟩ := List.exists_cons_of_ne_nil (pieces_ne_nil cs)
    rw [pieces_cons hc hqs] at h
    rcases List.mem_cons.mp h with rfl | h
    · rw [terminator_infix_cons_iff]
      rintro (⟨hsemi, hhead⟩ | hinfix)
      · obtain ⟨rest, rfl⟩ := prefix_of_pieces hqs
        obtain ⟨q, rfl⟩ := List.head?_eq_some_iff.mp hhead
        exact hc hsemi rfl
      · exact ih (hqs ▸ List.mem_cons_self) hinfix
    · exact ih (hqs ▸ List.mem_cons_of_mem q h)

theorem pieces_of_not_infix (h : ¬terminator <:+: cs) : pieces cs = [cs] := by
  induction cs with
  | nil => rfl
  | cons c cs ih =>
    rw [terminator_infix_cons_iff, not_or] at h
    exact pieces_cons (fun hsemi hhead => h.1 ⟨hsemi, hhead⟩) (ih h.2)

/-- A terminator ends a piece that neither contains one nor ends with a semicolon. -/
theorem pieces_append_terminator (h : ¬terminator <:+: cs) (hlast : cs.getLast? ≠ some ';')
    (ds : List Char) : pieces (cs ++ (terminator ++ ds)) = cs :: pieces ds := by
  induction cs with
  | nil => rfl
  | cons c cs ih =>
    rw [terminator_infix_cons_iff, not_or] at h
    -- a terminator that starts at `c` lies in the piece, or `c` is a semicolon at its end
    cases cs with
    | nil =>
      refine pieces_cons (fun hsemi => ?_) rfl
      exact absurd (congrArg some hsemi) hlast
    | cons d cs =>
      refine pieces_cons (fun hsemi hhead => h.1 ⟨hsemi, hhead⟩) (ih h.2 ?_)
      rwa [List.getLast?_cons_cons] at hlast

theorem pieces_intercalate (hne : ps ≠ [])
    (h : ∀ p ∈ ps, ¬terminator <:+: p ∧ p.getLast? ≠ some ';') :
    pieces (terminator.intercalate ps) = ps := by
  induction ps with
  | nil => exact absurd rfl hne
  | cons p ps ih =>
    obtain ⟨⟨hp, hlast⟩, hps⟩ := List.forall_mem_cons.mp h
    cases ps with
    | nil =>
      rw [List.intercalate_singleton]
      exact pieces_of_not_infix hp
    | cons q qs =>
      rw [List.intercalate_cons_cons, List.append_assoc, pieces_append_terminator hp hlast,
        ih (List.cons_ne_nil q qs) hps]

/-! ## Texts of commands -/

/-- The text of a command: not blank, and not ending with a semicolon. -/
structure IsText (s : String) : Prop where
  not_blank : ¬∀ c ∈ s.toList, Text.isBlank c = true
  getLast?_ne : s.toList.getLast? ≠ some ';'

/-- Nothing is read from an empty text. -/
theorem exists_command_nil [DigitLimit] :
    ∃ e, Grammar.whole Grammar.command (Cursor.start []) = .error e :=
  ⟨_, rfl⟩

theorem IsText.of_parse [DigitLimit] {s : String} {cmd : Command} (h : Command.parse s = .ok cmd) :
    IsText s := by
  rw [Command.parse, Grammar.read_eq_ok_iff] at h
  obtain ⟨hcheck, c, hread⟩ := h
  constructor
  · -- what is read from blanks would be read from the empty text
    intro hblank
    have hblanks := Text.forall_mem_expandTabsFrom (p := Text.isBlank) (by decide) hblank 0
    rw [Text.expandTabs, ← List.append_nil (Text.expandTabsFrom _ _)] at hread
    obtain ⟨c', hc'⟩ := (Grammar.leads_whole Grammar.leads_command).start_of_blanks hblanks hread
    obtain ⟨e, he⟩ := exists_command_nil
    rw [he] at hc'
    cases hc'
  · obtain ⟨ps, hps⟩ := Token.check_eq_ok_iff_divides.mp hcheck
    exact hps.getLast?_ne

/-! ## Joined texts -/

theorem ofPieces_map_toList {texts : List String} (h : ∀ s ∈ texts, IsText s) :
    ofPieces (texts.map String.toList) = texts := by
  induction texts with
  | nil => rfl
  | cons s texts ih =>
    obtain ⟨hs, htexts⟩ := List.forall_mem_cons.mp h
    rw [List.map_cons, ofPieces_cons_of_not_blank hs.not_blank, String.ofList_toList, ih htexts]

theorem intercalate_append_nil (hne : ps ≠ []) :
    terminator.intercalate (ps ++ [[]]) = terminator.intercalate ps ++ terminator := by
  induction ps with
  | nil => exact absurd rfl hne
  | cons p ps ih =>
    cases ps with
    | nil => simp
    | cons q qs =>
      rw [List.cons_append, List.cons_append, List.intercalate_cons_cons, ← List.cons_append,
        ih (List.cons_ne_nil q qs), List.intercalate_cons_cons]
      simp only [List.append_assoc]

theorem forall_mem_map_toList {texts : List String} (h : ∀ s ∈ texts, IsText s)
    (hclear : ∀ s ∈ texts, ¬terminator <:+: s.toList) :
    ∀ p ∈ texts.map String.toList, ¬terminator <:+: p ∧ p.getLast? ≠ some ';' := by
  intro p hp
  obtain ⟨s, hs, rfl⟩ := List.mem_map.mp hp
  exact ⟨hclear s hs, (h s hs).getLast?_ne⟩

/-- No statement contains a terminator. -/
theorem not_infix_of_mem_split {source s : String} (h : s ∈ split source) :
    ¬terminator <:+: s.toList := by
  obtain ⟨p, hp, rfl⟩ := List.mem_map.mp h
  rw [String.toList_ofList]
  exact not_infix_of_mem_pieces (List.mem_filter.mp hp).1

theorem toList_semicolons : ";;".toList = terminator := rfl

/-- Joined texts are found again when none of them contains a terminator. -/
theorem split_intercalate {texts : List String} (h : ∀ s ∈ texts, IsText s)
    (hclear : ∀ s ∈ texts, ¬terminator <:+: s.toList) :
    split (";;".intercalate texts) = texts := by
  rw [split_eq_ofPieces, String.toList_intercalate, toList_semicolons]
  by_cases hnil : texts = []
  · subst hnil
    rfl
  · have hne : texts.map String.toList ≠ [] := mt List.map_eq_nil_iff.mp hnil
    rw [pieces_intercalate hne (forall_mem_map_toList h hclear), ofPieces_map_toList h]

/-- A terminator at the end makes no difference. -/
theorem split_intercalate_append {texts : List String} (h : ∀ s ∈ texts, IsText s)
    (hclear : ∀ s ∈ texts, ¬terminator <:+: s.toList) :
    split (";;".intercalate texts ++ ";;") = texts := by
  rw [split_eq_ofPieces, String.toList_append, String.toList_intercalate, toList_semicolons]
  by_cases hnil : texts = []
  · subst hnil
    rfl
  · have hne : texts.map String.toList ≠ [] := mt List.map_eq_nil_iff.mp hnil
    have hall : ∀ p ∈ texts.map String.toList ++ [[]],
        ¬terminator <:+: p ∧ p.getLast? ≠ some ';' := by
      refine List.forall_mem_append.mpr ⟨forall_mem_map_toList h hclear, ?_⟩
      exact List.forall_mem_singleton.mpr ⟨by decide, nofun⟩
    rw [← intercalate_append_nil hne,
      pieces_intercalate (List.append_ne_nil_of_left_ne_nil hne _) hall, ofPieces_append,
      ofPieces_map_toList h]
    exact List.append_nil texts

/-- Texts that are read as commands, joined with terminators with or without one at the end, are
found again by division exactly when none of them contains a terminator. Then the joined text runs
as the texts do one after the other. -/
theorem split_intercalate_iff [DigitLimit] {texts : List String}
    (h : ∀ s ∈ texts, ∃ cmd, Command.parse s = .ok cmd) :
    (split (";;".intercalate texts) = texts ↔ ∀ s ∈ texts, ¬terminator <:+: s.toList) ∧
      (split (";;".intercalate texts ++ ";;") = texts ↔
        ∀ s ∈ texts, ¬terminator <:+: s.toList) ∧
      ((∀ s ∈ texts, ¬terminator <:+: s.toList) → ∀ (b : Bounds) (ctx : Context),
        runAll b ctx (";;".intercalate texts) = runEach b ctx texts ∧
          runAll b ctx (";;".intercalate texts ++ ";;") = runEach b ctx texts) := by
  have htexts : ∀ s ∈ texts, IsText s := by
    intro s hs
    obtain ⟨cmd, hcmd⟩ := h s hs
    exact .of_parse hcmd
  have hsplit := split_intercalate htexts
  have hfinal := split_intercalate_append htexts
  refine ⟨⟨fun heq s hs => ?_, hsplit⟩, ⟨fun heq s hs => ?_, hfinal⟩, fun hclear b ctx => ?_⟩
  · exact not_infix_of_mem_split (heq ▸ hs)
  · exact not_infix_of_mem_split (heq ▸ hs)
  · rw [runAll, runAll, hsplit hclear, hfinal hclear]
    exact ⟨rfl, rfl⟩

/-- A definition and a use of it, with a literal that contains a single semicolon. -/
theorem split_intercalate_iff_pair :
    (∀ s ∈ ["x = \"a;b\"", " concat x x"], ∃ cmd, Command.parse s = .ok cmd) ∧
      split (";;".intercalate ["x = \"a;b\"", " concat x x"]) =
        ["x = \"a;b\"", " concat x x"] := by
  have hdefine : Command.parse "x = \"a;b\"" = .ok (.define "x" (.string "a;b")) := by
    decide +kernel
  have hevaluate :
      Command.parse " concat x x" = .ok (.evaluate (.concat (.var "x") (.var "x"))) := by
    decide +kernel
  have hparse : ∀ s ∈ ["x = \"a;b\"", " concat x x"], ∃ cmd, Command.parse s = .ok cmd :=
    List.forall_mem_cons.mpr ⟨⟨_, hdefine⟩, List.forall_mem_singleton.mpr ⟨_, hevaluate⟩⟩
  exact ⟨hparse, (split_intercalate_iff hparse).1.mpr (by decide +kernel)⟩

/-- A terminator in a string literal ends a statement, although the text with the literal is read
as a command. -/
theorem split_literal_ne :
    Command.parse "\"a;;b\"" = .ok (.evaluate (.string "a;;b")) ∧
      split (";;".intercalate ["\"a;;b\""]) = ["\"a", "b\""] ∧
        split (";;".intercalate ["\"a;;b\""]) ≠ ["\"a;;b\""] := by
  have hparse : Command.parse "\"a;;b\"" = .ok (.evaluate (.string "a;;b")) := by
    decide +kernel
  have hsplit : split (";;".intercalate ["\"a;;b\""]) = ["\"a", "b\""] := by
    decide +kernel
  refine ⟨hparse, hsplit, ?_⟩
  rw [hsplit]
  decide

end Statement

end TypedLambda
