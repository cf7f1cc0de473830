import TypedLambda.Proofs.Command.Bounds
import TypedLambda.Proofs.Session.BlankLines
import TypedLambda.Proofs.Statement.Pieces

/-!
# Runs without a failure

Statements may be carried out up to the first failure, or all of them in any case, or by themselves
without a session. As long as they all succeed this comes to the same. What is written and which
state is reached is then determined by a relation that composes: a run over two lists of statements
is a run over the first and one over the second.

## Main definitions

* `Session.Runs`: the lines written and the state reached when all statements succeed

## Main results

* `Session.executeUntilFailure_eq_success_iff`, `Session.Runs.executeAll`, `Session.Runs.runEach`:
  the three ways to carry out statements
* `Session.runs_append_iff`: a run in two parts
* `Session.Runs.of_append_line`: a run over terminated lines and over what follows them
-/

namespace TypedLambda

/-- What fails does not succeed. -/
theorem Statement.Error.ending_ne_success (e : Statement.Error) : e.ending ≠ .success := by
  rcases e with (e | e | e) | e <;> exact nofun

namespace Session

/-- Without a trace, the bounds are the same for all statements. -/
theorem bounds_of_not_traced {cfg : Settings} (htraced : cfg.traced = false) (s : Session) :
    s.bounds cfg = ⟨cfg.steps, some cfg.depth⟩ := by
  rw [bounds, htraced]

variable [DigitLimit] {cfg : Settings} {s last : Session} {source : String}
  {sources rest lines : List String}

/-- All statements succeed, one after the other; `lines` are written and the state `last` is
reached. -/
inductive Runs (cfg : Settings) : Session → List String → List String → Session → Prop
  | nil (s : Session) : Runs cfg s [] [] s
  | cons {s last : Session} {source : String} {rest lines : List String}
      (hok : (s.execute cfg source).ending = .success)
      (h : Runs cfg (s.execute cfg source).session rest lines last) :
      Runs cfg s (source :: rest) ((s.execute cfg source).written ++ lines) last

/-! ## Ways to carry out statements -/

theorem executeUntilFailure_eq_success_iff :
    executeUntilFailure cfg s sources = (lines, .success) ↔
      ∃ last, Runs cfg s sources lines last := by
  constructor
  · intro h
    induction sources generalizing s lines with
    | nil =>
      obtain ⟨rfl, -⟩ := Prod.mk.inj h
      exact ⟨s, .nil s⟩
    | cons source rest ih =>
      rw [executeUntilFailure] at h
      dsimp only at h
      split at h
      · rename_i hok
        obtain ⟨rfl, hrest⟩ := Prod.mk.inj h
        obtain ⟨last, hlast⟩ := ih (Prod.ext rfl hrest)
        exact ⟨last, .cons hok hlast⟩
      · rename_i hok
        exact absurd (Prod.mk.inj h).2 hok
  · rintro ⟨last, h⟩
    induction h with
    | nil s => rfl
    | cons hok _ ih => simp [executeUntilFailure, hok, ih]

theorem Runs.executeAll (h : Runs cfg s sources lines last) :
    s.executeAll cfg sources = (lines, .ok last) := by
  induction h with
  | nil s => rfl
  | cons hok _ ih => simp only [Session.executeAll, hok, ih]

theorem runs_cons_iff :
    Runs cfg s (source :: rest) lines last ↔ (s.execute cfg source).ending = .success ∧
      ∃ lines', Runs cfg (s.execute cfg source).session rest lines' last ∧
        lines = (s.execute cfg source).written ++ lines' := by
  constructor
  · rintro (_ | ⟨hok, h⟩)
    exact ⟨hok, _, h, rfl⟩
  · rintro ⟨hok, lines', h, rfl⟩
    exact .cons hok h

/-- A run over two lists of statements is a run over the first and one over the second. -/
theorem runs_append_iff :
    Runs cfg s (sources ++ rest) lines last ↔ ∃ lines₁ mid lines₂,
      Runs cfg s sources lines₁ mid ∧ Runs cfg mid rest lines₂ last ∧
        lines = lines₁ ++ lines₂ := by
  constructor
  · intro h
    induction sources generalizing s lines with
    | nil => exact ⟨[], s, lines, .nil s, h, rfl⟩
    | cons source sources ih =>
      obtain ⟨hok, lines', htail, rfl⟩ := runs_cons_iff.mp h
      obtain ⟨lines₁, mid, lines₂, h₁, h₂, rfl⟩ := ih htail
      exact ⟨_, mid, lines₂, .cons hok h₁, h₂, (List.append_assoc ..).symm⟩
  · rintro ⟨lines₁, mid, lines₂, h₁, h₂, rfl⟩
    induction h₁ with
    | nil s => exact h₂
    | cons hok _ ih =>
      rw [List.append_assoc]
      exact .cons hok (ih h₂)

/-! ## Single statements -/

/-- What a statement does depends on the command that it denotes. -/
theorem execute_congr {source' : String} (h : command cfg source = command cfg source') :
    s.execute cfg source = s.execute cfg source' := by
  rw [execute, execute, h]

/-- A statement that succeeds denotes a command that does. -/
theorem exists_of_execute (hok : (s.execute cfg source).ending = .success) :
    ∃ cmd answer, command cfg source = .ok cmd ∧ cmd.run (s.bounds cfg) s.ctx = .ok answer ∧
      (s.execute cfg source).session.ctx = answer.ctx ∧
      (cfg.traced = false → (s.execute cfg source).written = [answer.line]) := by
  unfold execute at hok ⊢
  cases hcommand : command cfg source with
  | error e =>
    rw [hcommand] at hok
    exact absurd hok e.ending_ne_success
  | ok cmd =>
    simp only [hcommand] at hok ⊢
    cases hrun : cmd.run (s.bounds cfg) s.ctx with
    | error e =>
      simp only [hrun] at hok
      cases e <;> cases hok
    | ok answer => exact ⟨cmd, answer, rfl, hrun, rfl, fun htraced => by simp [htraced]⟩

/-- A run without a trace needs no session, and no narrower bounds. -/
theorem Runs.runEach (h : Runs cfg s sources lines last) (htraced : cfg.traced = false)
    {b : Bounds} (hb : Bounds.Within ⟨cfg.steps, some cfg.depth⟩ b) :
    Statement.runEach b s.ctx sources = .ok (lines, last.ctx) := by
  induction h with
  | nil s => rfl
  | @cons s last source rest lines hok h ih =>
    obtain ⟨cmd, answer, hcommand, hrun, hctx, hwritten⟩ := exists_of_execute hok
    have hparse := (command_eq_ok_iff.mp hcommand).2
    rw [bounds_of_not_traced htraced] at hrun
    have hanswer : Statement.run b s.ctx source = .ok answer := by
      rw [Statement.run, hparse]
      dsimp only
      rw [Command.run_of_within hb hrun]
    rw [hctx] at ih
    rw [Statement.runEach, hanswer]
    dsimp only
    rw [ih, hwritten htraced]
    rfl

/-! ## Runs over lines -/

/-- No statement starts with a semicolon. -/
theorem command_semicolon (cs : List Char) (cmd : Command) :
    command cfg (String.ofList (';' :: cs)) ≠ .ok cmd := by
  intro h
  have hparse := (command_eq_ok_iff.mp h).2
  rw [Command.parse, String.toList_ofList, Grammar.read_eq_ok_iff] at hparse
  have hpiece : Token.piece? (';' :: cs) = none := by
    simp [Token.piece?, Token.marks, show Text.isBlank ';' = false by decide,
      show Text.isWordStart ';' = false by decide, show Char.isDigit ';' = false by decide]
  have hcheck := hparse.1
  rw [Token.check_eq_ok_iff, Token.scan, List.length_cons, Token.scanWithin, hpiece] at hcheck
  cases hcheck

/-- Blank lines in front of the first statement make no difference. -/
theorem Runs.of_blankLine {blanks p : List Char} {ps : List (List Char)}
    (hblanks : ∀ c ∈ blanks, Text.isBlank c = true)
    (h : Runs cfg s (Statement.ofPieces ((blanks ++ '\n' :: p) :: ps)) lines last) :
    Runs cfg s (Statement.ofPieces (p :: ps)) lines last := by
  have hblank : (∀ c ∈ blanks ++ '\n' :: p, Text.isBlank c = true) ↔
      ∀ c ∈ p, Text.isBlank c = true := by
    rw [List.forall_mem_append, List.forall_mem_cons]
    exact ⟨fun h => h.2.2, fun h => ⟨hblanks, by decide, h⟩⟩
  by_cases hp : ∀ c ∈ p, Text.isBlank c = true
  · rw [Statement.ofPieces_cons_of_blank (hblank.mpr hp)] at h
    rwa [Statement.ofPieces_cons_of_blank hp]
  · rw [Statement.ofPieces_cons_of_not_blank (mt hblank.mp hp)] at h
    rw [Statement.ofPieces_cons_of_not_blank hp]
    obtain ⟨hok, lines', hrest, rfl⟩ := runs_cons_iff.mp h
    obtain ⟨cmd, -, hcommand, -⟩ := exists_of_execute hok
    have hsame : s.execute cfg (String.ofList (blanks ++ '\n' :: p)) =
        s.execute cfg (String.ofList p) :=
      execute_congr (hcommand.trans (command_of_blankLine hblanks hcommand).symm)
    rw [hsame] at hok hrest ⊢
    exact .cons hok hrest

/-- A run over a text that starts with terminated lines is a run over these lines, and then one over
the lines that follow. -/
theorem Runs.of_append_line {cs ds : List Char}
    (hterminated : Statement.terminator <:+ Text.trimEnd cs)
    (h : Runs cfg s (Statement.ofPieces (Statement.pieces (cs ++ '\n' :: ds))) lines last) :
    ∃ lines₁ mid lines₂, Runs cfg s (Statement.ofPieces (Statement.pieces cs)) lines₁ mid ∧
      Runs cfg mid (Statement.ofPieces (Statement.pieces ds)) lines₂ last ∧
      lines = lines₁ ++ lines₂ := by
  obtain ⟨front, q, hcs, hq⟩ := Statement.exists_pieces_of_terminated hterminated
  obtain ⟨p, ps, hds⟩ := List.exists_cons_of_ne_nil (Statement.pieces_ne_nil ds)
  rw [Statement.pieces_append_line hcs hds, Statement.ofPieces_append] at h
  obtain ⟨lines₁, mid, lines₂, h₁, h₂, rfl⟩ := runs_append_iff.mp h
  rcases hq with hblank | ⟨blanks, rfl⟩
  · refine ⟨lines₁, mid, lines₂, ?_, hds ▸ h₂.of_blankLine hblank, rfl⟩
    rw [hcs, Statement.ofPieces_append, Statement.ofPieces_cons_of_blank hblank]
    exact (List.append_nil (Statement.ofPieces front)).symm ▸ h₁
  · -- a semicolon that is left over is read together with what follows, and fails
    rw [List.cons_append, Statement.ofPieces_cons_of_not_blank fun hall =>
      absurd (hall ';' List.mem_cons_self) (by decide)] at h₂
    obtain ⟨hok, -⟩ := runs_cons_iff.mp h₂
    obtain ⟨cmd, -, hcommand, -⟩ := exists_of_execute hok
    exact absurd hcommand (command_semicolon _ cmd)

end Session

end TypedLambda
