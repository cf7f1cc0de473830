import TypedLambda.Proofs.Grammar.Names
import TypedLambda.Proofs.Text.TabStop

/-!
# Names and keywords

Binders, labels, defined names and the names of types in what a source text denotes are spelled as
the grammar says, and none of them is a keyword. Variables are spelled so, too, but may be keywords:
a keyword right behind the digits of a number is not seen as one, and is read as a variable. In a
text where no keyword stands right behind digits, there are no such variables.

## Main definitions

* `Term.NamedIn`, `Command.NamedIn`: names as they may stand in what a text denotes

## Main results

* `Grammar.IsVariableIn.of_expandTabs`: tabs make no difference
* `Grammar.ensures_command`: the names in the commands that are read
* `named_of_parse`: the names in what a source text denotes
* `Term.parse_touching_keyword`: a variable that is a keyword
-/

namespace TypedLambda

/-! ## Tabs -/

namespace Grammar

variable {cs : List Char} {x : String}

/-- A word that stands behind digits does so without tabs being expanded. -/
theorem IsTouched.of_expandTabs (h : IsTouched (Text.expandTabs cs) x)
    (hx : x.toList.all Text.isNameChar = true) : IsTouched cs x := by
  obtain ⟨front, digits, rest, htext, hne, hdigits, hfront, hrest⟩ := h
  have hspace : ' ' ∉ digits ++ x.toList := by
    intro hmem
    rcases List.mem_append.mp hmem with hmem | hmem
    · exact absurd (hdigits _ hmem) (by decide)
    · exact absurd (List.all_eq_true.mp hx _ hmem) (by decide)
  rw [← List.append_assoc digits] at htext
  obtain ⟨front', rest', column', hcs, rfl, rfl⟩ :=
    Text.exists_of_expandTabsFrom_eq_append (List.append_ne_nil_of_left_ne_nil hne _) hspace htext
  rw [Text.any_getLast?_expandTabsFrom (by decide) (by decide)] at hfront
  rw [Text.any_head?_expandTabsFrom (by decide) (by decide)] at hrest
  rw [List.append_assoc] at hcs
  exact ⟨front', digits, rest', hcs, hne, hdigits, hfront, hrest⟩

theorem IsVariableIn.of_expandTabs (h : IsVariableIn (Text.expandTabs cs) x) :
    IsVariableIn cs x :=
  ⟨h.1, h.2.1, fun hmem => (h.2.2 hmem).of_expandTabs h.2.1⟩

end Grammar

/-! ## Names in a text -/

/-- Binders, labels and annotations are admitted by the grammar, and variables can be read as such
in the text. -/
def Term.NamedIn (text : List Char) (t : Term) : Prop :=
  Grammar.IsNamed (Grammar.IsVariableIn text) t

theorem Term.NamedIn.of_expandTabs {cs : List Char} {t : Term}
    (h : t.NamedIn (Text.expandTabs cs)) : t.NamedIn cs :=
  ⟨h.1, fun x hx => (h.2 x hx).of_expandTabs⟩

/-- The names in the command, and the one that it defines. -/
def Command.NamedIn (text : List Char) : Command → Prop
  | evaluate t => t.NamedIn text
  | showType T => T.WellNamed
  | define x t => Grammar.IsName x ∧ t.NamedIn text
  | abbreviate X T => Grammar.IsTypeName X ∧ T.WellNamed

theorem Command.NamedIn.of_expandTabs {cs : List Char} {cmd : Command}
    (h : cmd.NamedIn (Text.expandTabs cs)) : cmd.NamedIn cs := by
  cases cmd with
  | evaluate t => exact Term.NamedIn.of_expandTabs h
  | showType T => exact h
  | define x t => exact ⟨h.1, Term.NamedIn.of_expandTabs h.2⟩
  | abbreviate X T => exact h

/-! ## Commands -/

namespace Grammar

open TypedLambda.Parser (Ensures ensures_pure ensures_firstOf_nil)

open Cursor (IsClear)

variable {text : List Char}

/-- Nothing is known of the end of the text. -/
theorem ensures_whole {α : Type} {Pre Post : Cursor → Prop} {P : α → Prop} {p : Parser α}
    (h : Ensures Pre p P Post) : Ensures Pre (whole p) P fun _ => True :=
  h.bind fun _ ha =>
    have hend : Ensures Post endOfText (fun _ => True) (fun _ => True) :=
      fun _ _ _ _ => ⟨trivial, trivial⟩
    hend.bind fun _ _ => ensures_pure ha

/-- Defined names are read at the beginning of the text. -/
theorem ensures_command [DigitLimit] :
    Ensures (IsClear text) command (Command.NamedIn text) fun _ => True := by
  have habbreviation : Ensures (IsClear text) abbreviation (Command.NamedIn text) (IsClear text) :=
    ensures_typeName.bind fun _ hX => (ensures_mark rfl).of_settled.bind fun _ _ =>
      ensures_type.bind fun _ hT => ensures_pure ⟨hX, hT⟩
  have hdefinition : Ensures (IsClear text) definition (Command.NamedIn text)
      (Cursor.IsSettled text) :=
    ensures_name.bind fun _ hx => (ensures_mark rfl).of_settled.bind fun _ _ =>
      ensures_term.of_settled.bind fun _ ht => ensures_pure ⟨hx, ht⟩
  have hterm : Ensures (IsClear text) (Command.evaluate <$> term) (Command.NamedIn text)
      (Cursor.IsSettled text) :=
    ensures_term.of_settled.map fun _ ht => ht
  have htype : Ensures (IsClear text) (Command.showType <$> type) (Command.NamedIn text)
      (IsClear text) :=
    ensures_type.map fun _ hT => hT
  exact Ensures.choice <|
    .or (ensures_whole habbreviation) <|
    .or (ensures_whole hdefinition) <|
    .or (ensures_whole hterm) <|
    .or (ensures_whole htype) ensures_firstOf_nil

end Grammar

/-! ## Source texts -/

/-- Types, terms and commands that are read from a source text have names that the grammar admits:
names of types and names of variables that are no keywords, and variables that are keywords only
where these stand right behind digits in the text. -/
theorem named_of_parse [DigitLimit] (source : String) :
    (∀ T, Ty.parse source = .ok T → T.WellNamed) ∧
      (∀ t, Term.parse source = .ok t → t.NamedIn source.toList) ∧
      ∀ cmd, Command.parse source = .ok cmd → cmd.NamedIn source.toList := by
  refine ⟨fun T hT => ?_, fun t ht => ?_, fun cmd hcmd => ?_⟩
  · obtain ⟨c, hc⟩ := Grammar.exists_of_read_eq_ok hT
    exact (Grammar.ensures_type _ _ (Cursor.isClear_start _) hc).1
  · obtain ⟨c, hc⟩ := Grammar.exists_of_read_eq_ok ht
    have hnamed := (Grammar.ensures_term _ _ (Cursor.isClear_start _).isSettled hc).1
    exact Term.NamedIn.of_expandTabs hnamed
  · obtain ⟨c, hc⟩ := Grammar.exists_of_read_eq_ok hcmd
    have hnamed := (Grammar.ensures_command _ _ (Cursor.isClear_start _) hc).1
    exact Command.NamedIn.of_expandTabs hnamed

/-- A type, a term with a label that starts like a keyword and with a keyword behind a number, and a
command. -/
theorem named_of_parse_touching :
    (Ty.parse "A->\x7bl:B\x7d" = .ok (.arrow (.named "A") (.record [("l", .named "B")])) ∧
        (Ty.arrow (.named "A") (.record [("l", .named "B")])).WellNamed) ∧
      (Term.parse "L x:A.x.if'\t7in" = .ok (.lam "x" (.named "A")
          (.app (.app (.proj (.var "x") "if'") (.numeral 7)) (.var "in"))) ∧
        Term.NamedIn "L x:A.x.if'\t7in".toList (.lam "x" (.named "A")
          (.app (.app (.proj (.var "x") "if'") (.numeral 7)) (.var "in")))) ∧
      (Command.parse "f = x.1" = .ok (.define "f" (.fst (.var "x"))) ∧
        Command.NamedIn "f = x.1".toList (.define "f" (.fst (.var "x")))) := by
  have htype : Ty.parse "A->\x7bl:B\x7d" =
      .ok (.arrow (.named "A") (.record [("l", .named "B")])) := by decide +kernel
  have hterm : Term.parse "L x:A.x.if'\t7in" = .ok (.lam "x" (.named "A")
      (.app (.app (.proj (.var "x") "if'") (.numeral 7)) (.var "in"))) := by decide +kernel
  have hcommand : Command.parse "f = x.1" = .ok (.define "f" (.fst (.var "x"))) := by
    decide +kernel
  exact ⟨⟨htype, (named_of_parse _).1 _ htype⟩, ⟨hterm, (named_of_parse _).2.1 _ hterm⟩,
    ⟨hcommand, (named_of_parse _).2.2 _ hcommand⟩⟩

/-- A keyword that touches a number is read as a variable. -/
theorem Term.parse_touching_keyword :
    Term.parse "0true" = .ok (.app .zero (.var "true")) ∧
      Term.Occurs (.var "true") (.app .zero (.var "true")) ∧ "true" ∈ Grammar.keywords := by
  have hparse : Term.parse "0true" = .ok (.app .zero (.var "true")) := by decide +kernel
  have hpart : Term.var "true" ∈ (Term.app .zero (.var "true")).parts := by decide
  exact ⟨hparse, .inside hpart .here, by decide⟩

end TypedLambda
