import TypedLambda.Proofs.Grammar.Rendering
import TypedLambda.Proofs.Printer.Term

/-!
# Reading what is printed

Printed types and terms are read back as they were. The printed text lays out lexemes from which the
grammar derives the type or the term, the parsers read whatever the grammar derives, and nothing in
such a text is in error before the grammar is applied to it.

## Main results

* `parse_render`: reading a printed type or term
-/

namespace TypedLambda

section Reading

variable [DigitLimit]

theorem Ty.read_chars {T : Ty} (h : T.WellNamed) : Grammar.read Grammar.type T.chars = .ok T := by
  obtain ⟨ls, hder, -, hcs⟩ := Ty.writes_type (T.writes h)
  exact hder.read_eq_ok (hcs none rfl)

theorem Term.parse_render_of_short {t : Term} (h : t.WellNamed) (hshort : t.HasShortNumerals) :
    Term.parse t.render = .ok t := by
  obtain ⟨ls, hder, hls, hcs⟩ := Term.writes_term (t.writes h hshort)
  rw [Term.parse, Term.render, String.toList_ofList]
  exact hder.read_eq_ok (hcs none rfl) hls

/-- Reading a printed type or term gives it back. A number in the text of a term can be too long
only if the number of nodes of the term has too many digits, and never without a limit. -/
theorem parse_render : (∀ T : Ty, T.WellNamed → Ty.parse T.render = .ok T) ∧
    (∀ t : Term, t.WellNamed → t.HasShortNumerals → Term.parse t.render = .ok t) ∧
    (∀ t : Term, t.WellNamed → DigitLimit.admits (Nat.toDigits 10 t.size).length = true →
      Term.parse t.render = .ok t) ∧
    ∀ t : Term, t.WellNamed → @Term.parse .unlimited t.render = .ok t := by
  refine ⟨fun T h => ?_, fun t => Term.parse_render_of_short, fun t h hsize => ?_, fun t h => ?_⟩
  · rw [Ty.parse, Ty.render, String.toList_ofList]
    exact Ty.read_chars h
  · exact Term.parse_render_of_short h (Term.hasShortNumerals_of_size hsize)
  · exact @Term.parse_render_of_short .unlimited t h t.hasShortNumerals_unlimited

end Reading

theorem parse_render_nested :
    Ty.parse "A * (Nat -> Bool) -> \x7bl:List[String]\x7d" = .ok (.arrow
      (.prod (.named "A") (.arrow .nat .bool)) (.record [("l", .list .string)])) ∧
    Term.parse "(lambda x:Nat. if iszero x then 2.1 else let y = succ x in y) \x7bpred 1, x\x7d.2" =
      .ok (.app
        (.lam "x" .nat (.ite (.isZero (.var "x")) (.fst (.numeral 2))
          (.letIn "y" (.succ (.var "x")) (.var "y"))))
        (.snd (.pair (.pred (.numeral 1)) (.var "x")))) :=
  ⟨parse_render.1 (.arrow (.prod (.named "A") (.arrow .nat .bool))
      (.record [("l", .list .string)])) (by decide),
    parse_render.2.1 (.app
      (.lam "x" .nat (.ite (.isZero (.var "x")) (.fst (.numeral 2))
        (.letIn "y" (.succ (.var "x")) (.var "y"))))
      (.snd (.pair (.pred (.numeral 1)) (.var "x")))) (by decide)
      (Term.hasShortNumerals_of_size (by decide))⟩

end TypedLambda
