import TypedLambda.Text.Written
import TypedLambda.Ty.Basic

/-!
# Written types

The text of a type. Arrows and products associate to the right and a product binds tighter, so
parentheses stand around an arrow on the left of an arrow, around an arrow or a product on the
left of a product, and around an arrow on the right of a product, and nowhere else.

## Main definitions

* `Ty.chars`: the text of a type as characters
* `Ty.render`: the text of a type as a string
-/

namespace TypedLambda

namespace Ty

/-- Whether the type is a function type. -/
def isArrow : Ty → Bool
  | arrow _ _ => true
  | _ => false

/-- Whether the type is a product. -/
def isProd : Ty → Bool
  | prod _ _ => true
  | _ => false

mutual

/-- The text of a type, as characters. -/
def chars : Ty → List Char
  | bool => "Bool".toList
  | nat => "Nat".toList
  | string => "String".toList
  | arrow A B => Text.parenthesized A.isArrow A.chars ++ " -> ".toList ++ B.chars
  | prod A B =>
    Text.parenthesized (A.isArrow || A.isProd) A.chars ++ " * ".toList ++
      Text.parenthesized B.isArrow B.chars
  | record fields => '{' :: charsFields fields ++ ['}']
  | list A => "List[".toList ++ A.chars ++ [']']
  | named name => name.toList

/-- The fields of a record type, divided by commas. -/
def charsFields : List (String × Ty) → List Char
  | [] => []
  | [(label, A)] => label.toList ++ ':' :: A.chars
  | (label, A) :: fields => label.toList ++ ':' :: A.chars ++ ", ".toList ++ charsFields fields

end

/-- The text of a type. -/
def render (T : Ty) : String :=
  String.ofList T.chars

end Ty

end TypedLambda
