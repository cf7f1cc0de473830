import TypedLambda.CommandLine
import TypedLambda.Proofs.Session.Runs

/-!
# Files and interactive sessions

The lines of a file may also be entered in an interactive session. The file is divided into
statements as a whole, but the session carries out what it has collected as soon as a line ends with
a terminator, and starts anew on the next line. If the file is carried out without a failure and
leaves no statement unfinished, this makes no difference: the session writes the same lines between
its banner and its farewell, and ends with the same context.

## Main definitions

* `Repl.writes`: the lines written in an interaction
* `Repl.remaining`: what the lines that wait and the lines to come make up

## Main results

* `Repl.interactFrom_of_runs`: an interaction writes what a run over the remaining text writes
* `Session.modes_agree`: files, source texts and interactive sessions agree on programs without a
  failure
-/

namespace TypedLambda

/-! ## Lines -/

/-- A run over lines of which the first is terminated is a run over this line, and then one over the
other lines. -/
theorem Session.Runs.of_terminated_line [DigitLimit] {cfg : Settings} {s last : Session}
    {line : String} {rest lines : List String} (hline : Statement.isTerminated line = true)
    (hended : Statement.Ended ("\n".intercalate (line :: rest)).toList)
    (h : Runs cfg s (Statement.split ("\n".intercalate (line :: rest))) lines last) :
    Statement.Ended ("\n".intercalate rest).toList ∧ ∃ lines₁ mid lines₂,
      Runs cfg s (Statement.split line) lines₁ mid ∧
      Runs cfg mid (Statement.split ("\n".intercalate rest)) lines₂ last ∧
      lines = lines₁ ++ lines₂ := by
  cases rest with
  | nil =>
    rw [String.intercalate_singleton] at h
    exact ⟨.inl rfl, lines, last, [], h, .nil last, (List.append_nil lines).symm⟩
  | cons next rest =>
    have htext : ("\n".intercalate (line :: next :: rest)).toList =
        line.toList ++ '\n' :: ("\n".intercalate (next :: rest)).toList := by
      rw [String.intercalate_cons_cons, String.toList_append, String.toList_append,
        List.append_assoc]
      rfl
    rw [htext] at hended
    rw [Statement.split_eq_ofPieces, htext] at h
    exact ⟨hended.of_append_line, h.of_append_line (Statement.isTerminated_iff.mp hline)⟩

namespace Repl

/-! ## Interactions -/

/-- The line written by an event, if it writes one. -/
def Event.line? : Event → Option String
  | prompt _ => none
  | write line => some line

/-- The lines written in an interaction. -/
def writes (events : List Event) : List String :=
  events.filterMap Event.line?

theorem writes_prompt_append (text : String) (lines : List String) (events : List Event) :
    writes (.prompt text :: lines.map .write ++ events) = lines ++ writes events := by
  have hlines : (lines.map Event.write).filterMap Event.line? = lines := by
    rw [List.filterMap_map]
    exact List.filterMap_some
  rw [List.cons_append, writes, List.filterMap_cons_none rfl, List.filterMap_append, hlines]
  rfl

/-- The lines that wait, with one more line. -/
def buffer (r : Repl) (line : String) : String :=
  match r.pending with
  | none => line
  | some lines => lines ++ "\n" ++ line

/-- The text made up by the lines that wait and the lines to come. -/
def remaining (r : Repl) (lines : List String) : String :=
  "\n".intercalate (r.pending.toList ++ lines)

theorem remaining_cons (r : Repl) (line : String) (rest : List String) :
    r.remaining (line :: rest) = "\n".intercalate (r.buffer line :: rest) := by
  rw [remaining, buffer]
  cases r.pending with
  | none => rfl
  | some lines =>
    dsimp only
    rw [String.append_assoc, String.intercalate_cons_append, String.intercalate_cons_append,
      Option.toList_some, List.singleton_append, String.intercalate_cons_cons, String.append_assoc]

variable [DigitLimit] {cfg : Settings} {r : Repl}

theorem feed_eq (line : String) : r.feed cfg line =
    if Statement.isTerminated (r.buffer line) then
      let (written, last) := r.session.executeAll cfg (Statement.split (r.buffer line))
      (written, last.map fun session => ⟨session, none⟩)
    else ([], .ok { r with pending := some (r.buffer line) }) := rfl

theorem feed_of_terminated {line : String} (h : Statement.isTerminated (r.buffer line) = true)
    {lines : List String} {last : Session}
    (hall : r.session.executeAll cfg (Statement.split (r.buffer line)) = (lines, .ok last)) :
    r.feed cfg line = (lines, .ok ⟨last, none⟩) := by
  rw [feed_eq, if_pos h, hall]
  rfl

theorem feed_of_not_terminated {line : String}
    (h : Statement.isTerminated (r.buffer line) = false) :
    r.feed cfg line = ([], .ok { r with pending := some (r.buffer line) }) := by
  rw [feed_eq, if_neg (Bool.eq_false_iff.mp h)]

/-- Between its prompts an interaction writes what a run over the remaining text writes, as long as
all statements succeed and none is left unfinished. -/
theorem interactFrom_of_runs {lines written : List String} {last : Session}
    (hpending : ∀ text ∈ r.pending, Statement.isTerminated text = false)
    (hended : Statement.Ended (r.remaining lines).toList)
    (hruns : Session.Runs cfg r.session (Statement.split (r.remaining lines)) written last) :
    writes (interactFrom cfg r lines).1 = written ++ [farewell] ∧
      (interactFrom cfg r lines).2 = .ok last.ctx := by
  induction lines generalizing r written with
  | nil =>
    have hblank : ∀ c ∈ (r.remaining []).toList, Text.isBlank c = true := by
      rw [← Text.trimEnd_eq_nil_iff]
      refine hended.resolve_right fun hterminated => ?_
      rw [← Statement.isTerminated_iff, remaining] at hterminated
      cases hr : r.pending with
      | none =>
        rw [hr] at hterminated
        exact absurd hterminated (by decide)
      | some text =>
        rw [hr, Option.toList_some, List.append_nil, String.intercalate_singleton,
          hpending text hr] at hterminated
        cases hterminated
    rw [Statement.split_eq_ofPieces, Statement.ofPieces_pieces_of_blank hblank] at hruns
    cases hruns
    exact ⟨rfl, rfl⟩
  | cons line rest ih =>
    rw [remaining_cons] at hended hruns
    cases hline : Statement.isTerminated (r.buffer line) with
    | false =>
      rw [interactFrom, feed_of_not_terminated hline]
      refine ih (r := { r with pending := some (r.buffer line) }) (fun text htext => ?_) hended
        hruns
      exact Option.some.inj htext ▸ hline
    | true =>
      -- the statements collected are carried out, and the next line starts anew
      obtain ⟨hrest, lines₁, mid, lines₂, h₁, h₂, rfl⟩ := hruns.of_terminated_line hline hended
      rw [interactFrom, feed_of_terminated hline h₁.executeAll]
      obtain ⟨hwrites, hctx⟩ := ih (r := ⟨mid, none⟩) (fun text htext => nomatch htext) hrest h₂
      refine ⟨?_, hctx⟩
      rw [List.append_assoc, ← hwrites]
      exact writes_prompt_append _ _ _

end Repl

/-! ## Files -/

/-- Without carriage returns there is nothing to unify. -/
theorem Text.unifyLineEnds_eq_self {cs : List Char} (h : '\r' ∉ cs) : unifyLineEnds cs = cs := by
  induction cs with
  | nil => rfl
  | cons c cs ih =>
    rw [List.mem_cons, not_or] at h
    rw [unifyLineEnds.eq_4 c cs (fun _ hc _ => h.1 hc.symm) fun hc => h.1 hc.symm, ih h.2]

/-- What occurs in no line occurs in no text made up by them, unless it is a line end. -/
theorem Text.not_mem_intercalate {c : Char} (hc : c ≠ '\n') {lines : List String}
    (h : ∀ line ∈ lines, c ∉ line.toList) : c ∉ ("\n".intercalate lines).toList := by
  induction lines with
  | nil => exact List.not_mem_nil
  | cons line rest ih =>
    obtain ⟨hline, hrest⟩ := List.forall_mem_cons.mp h
    cases rest with
    | nil => rwa [String.intercalate_singleton]
    | cons next rest =>
      rw [String.intercalate_cons_cons, String.toList_append, String.toList_append,
        List.mem_append, List.mem_append, not_or, not_or]
      exact ⟨⟨hline, fun hmem => hc (List.mem_singleton.mp hmem)⟩, ih hrest⟩

namespace Session

/-- **Agreement of modes**: when a file is carried out without a failure, and its text is blank or
ends with a terminator, then the statements of this text give the lines that are printed; and an
interactive session over the lines of the file writes these lines between the banner and the
farewell, and ends with the same context. -/
theorem modes_agree [DigitLimit] {cfg : Settings} (htraced : cfg.traced = false)
    {lines : List String} (hlines : ∀ line ∈ lines, '\r' ∉ line.toList)
    (hended : Statement.Ended ("\n".intercalate lines).toList)
    (hstatus : (CommandLine.runContent cfg ("\n".intercalate lines)).status = 0) :
    ∃ written ctx,
      CommandLine.runContent cfg ("\n".intercalate lines) = .done (CommandLine.unlines written) 0 ∧
      runSource cfg ("\n".intercalate lines) = (written, .success) ∧
      (∀ b, Bounds.Within ⟨cfg.steps, some cfg.depth⟩ b →
        Statement.runAll b {} ("\n".intercalate lines) = .ok (written, ctx)) ∧
      Repl.writes (Repl.interact cfg {} lines).1 = Repl.banner :: written ++ [Repl.farewell] ∧
      (Repl.interact cfg {} lines).2 = .ok ctx := by
  have hunified : String.ofList (Text.unifyLineEnds ("\n".intercalate lines).toList) =
      "\n".intercalate lines := by
    rw [Text.unifyLineEnds_eq_self (Text.not_mem_intercalate (by decide) hlines),
      String.ofList_toList]
  rw [CommandLine.runContent, hunified] at hstatus ⊢
  cases hrun : runSource cfg ("\n".intercalate lines) with | mk written ending
  rw [hrun] at hstatus
  obtain rfl : ending = .success := by
    cases ending with
    | success => rfl
    | failure => exact absurd hstatus Nat.one_ne_zero
    | brokenOff e => exact absurd hstatus Nat.one_ne_zero
  obtain ⟨last, hruns⟩ := executeUntilFailure_eq_success_iff.mp hrun
  have hinteract := Repl.interactFrom_of_runs (r := {}) (fun text htext => nomatch htext) hended
    hruns
  refine ⟨written, last.ctx, rfl, rfl, fun b hb => hruns.runEach htraced hb, ?_, hinteract.2⟩
  rw [List.cons_append, ← hinteract.1]
  rfl

/-- Two statements on one line, blank lines in front of a statement, a tab, and a statement on two
lines. -/
theorem modes_agree_spanning :
    let lines := ["x = succ 0;; T =", "", "\tNat;;", "", "lambda y:T.", "  x;;  ", ""]
    (CommandLine.runContent {} ("\n".intercalate lines)).status = 0 ∧
      Repl.writes (Repl.interact {} {} lines).1 =
        [Repl.banner, "val x : Nat = 1", "type T = Nat", "- : Nat -> Nat = lambda y:Nat. 1",
          Repl.farewell] := by
  intro lines
  have hstatus : (CommandLine.runContent {} ("\n".intercalate lines)).status = 0 := by
    decide +kernel
  have hended : Statement.Ended ("\n".intercalate lines).toList := by decide +kernel
  have hlines : ∀ line ∈ lines, '\r' ∉ line.toList := by decide +kernel
  have hrun : runSource {} ("\n".intercalate lines) =
      (["val x : Nat = 1", "type T = Nat", "- : Nat -> Nat = lambda y:Nat. 1"], .success) := by
    decide +kernel
  obtain ⟨written, ctx, -, hsource, -, hwrites, -⟩ := modes_agree rfl hlines hended hstatus
  obtain ⟨rfl, -⟩ := Prod.mk.inj (hrun.symm.trans hsource)
  exact ⟨hstatus, hwrites⟩

end Session

end TypedLambda
