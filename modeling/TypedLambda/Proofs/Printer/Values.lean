import TypedLambda.Proofs.Grammar.Names
import TypedLambda.Proofs.Printer.RoundTrip

/-!
# Typing results back in

What a run reaches from a source text can be printed and read again, if the text denotes a closed
term whose strings hold no quotes, backslashes, tabs and line ends. The printer writes the
characters of a string as they are, and the grammar reads escapes. So a string with a line end,
which an escape brings in, is printed as a text that is no string literal; and a string with a
backslash may be printed as one that denotes another string. Apart from that, only a number that is
too long can stand in the way.

## Main results

* `Term.parse_render_of_steps`: terms with plain strings are read back
* `Term.exists_value_not_read_back`: a value with a line end is not
* `Term.exists_value_read_back_otherwise`: a value with a backslash is read as another value
-/

namespace TypedLambda

namespace Term

/-- **Results are read back**: a closed term that has been read from a text and has plain strings
leads to terms whose printed texts denote them, values among them. Only if such a term has grown
immense, a number in its text may be longer than the limit admits. -/
theorem parse_render_of_steps [DigitLimit] {source : String} {t : Term}
    (h : Term.parse source = .ok t) (hc : t.IsClosed) (hplain : ∀ s ∈ t.strings, IsPlainString s)
    {n : Nat} {v : Term} (hn : Term.steps n t = some v) :
    (v.HasShortNumerals → Term.parse v.render = .ok v) ∧
      @Term.parse .unlimited v.render = .ok v := by
  have ht : t.Admitted IsPlainString := (admitted_of_parse h).of_strings hplain
  have hv : v.Admitted IsPlainString := ht.steps (fun _ _ => IsPlainString.append) hn
  have hnames : v.WellNamed :=
    hv.wellNamed fun x hx => absurd hx (not_mem_freeVars_of_isClosed (isClosed_of_steps hn hc))
  exact ⟨Term.parse_render_of_short hnames,
    @Term.parse_render_of_short .unlimited v hnames v.hasShortNumerals_unlimited⟩

/-- The name of a binder, a concatenation and a pair go through a run and come back. -/
theorem parse_render_of_steps_pair :
    Term.parse "(lambda s:String. \x7bconcat s \"b\", lambda f:Nat. f\x7d) \"a\"" = .ok
      (app (lam "s" .string (pair (concat (var "s") (string "b")) (lam "f" .nat (var "f"))))
        (string "a")) ∧
    Term.parse "\x7b\"ab\", lambda f:Nat. f\x7d" =
      .ok (pair (string "ab") (lam "f" .nat (var "f"))) := by
  have hparse : Term.parse "(lambda s:String. \x7bconcat s \"b\", lambda f:Nat. f\x7d) \"a\"" = .ok
      (app (lam "s" .string (pair (concat (var "s") (string "b")) (lam "f" .nat (var "f"))))
        (string "a")) := by decide +kernel
  have hrender : (pair (string "ab") (lam "f" .nat (var "f"))).render =
      "\x7b\"ab\", lambda f:Nat. f\x7d" := by decide +kernel
  have hsteps : Term.steps 2 (app
      (lam "s" .string (pair (concat (var "s") (string "b")) (lam "f" .nat (var "f"))))
      (string "a")) = some (pair (string "ab") (lam "f" .nat (var "f"))) := by decide
  have hshort : (pair (string "ab") (lam "f" .nat (var "f"))).HasShortNumerals :=
    hasShortNumerals_of_size (by decide)
  refine ⟨hparse, ?_⟩
  rw [← hrender]
  exact (parse_render_of_steps hparse (by decide) (by decide) hsteps).1 hshort

/-- A value whose printed text cannot be read: `\n` in a literal stands for a line end, and a line
end is printed as it is. -/
theorem exists_value_not_read_back :
    ∃ (source : String) (t v : Term), Term.parse source = .ok t ∧ t.IsClosed ∧
      t.typeOf {} = .ok .string ∧ t.outcome (fun _ => false) 0 = .finished v ∧ v.isValue = true ∧
      (Term.parse v.render).toOption = none :=
  ⟨"\"a\\nb\"", string "a\nb", string "a\nb", by decide +kernel, by decide, by decide, by decide,
    by decide, by decide +kernel⟩

/-- A value whose printed text denotes another value: a backslash and an `n` that come together
when the program runs are read as a line end. -/
theorem exists_value_read_back_otherwise :
    ∃ (source : String) (t v u : Term), Term.parse source = .ok t ∧ t.IsClosed ∧
      t.typeOf {} = .ok .string ∧ t.outcome (fun _ => false) 1 = .finished v ∧ v.isValue = true ∧
      Term.parse v.render = .ok u ∧ u ≠ v :=
  ⟨"concat \"\\\" \"n\"", concat (string "\\") (string "n"), string "\\n", string "\n",
    by decide +kernel, by decide, by decide, by decide, by decide, by decide +kernel, by decide⟩

end Term

end TypedLambda
