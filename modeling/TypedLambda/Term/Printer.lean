import TypedLambda.Term.Basic
import TypedLambda.Ty.Printer

/-!
# Written terms

The text of a term. An operand of a prefixed operator or of an application stands in parentheses
unless it is a constant, a variable, a bracketed form or a projection; the function of an
application may also be an application. Complete numerals are written in decimal.

## Main definitions

* `Term.chars`: the text of a term as characters
* `Term.render`: the text of a term as a string
-/

namespace TypedLambda

namespace Term

/-- Whether the term can stand as an operand without parentheses. -/
def isAtomic : Term → Bool
  | bool _ | zero | var _ | string _ | pair _ _ | record _ | nil _ | fst _ | snd _ | proj _ _ =>
    true
  | succ t => t.isNumeral
  | _ => false

/-- Whether the term is an application. -/
def isApp : Term → Bool
  | app _ _ => true
  | _ => false

/-- The text `cs` of the term `t` as an operand. -/
def wrapOperand (t : Term) (cs : List Char) : List Char :=
  Text.parenthesized (!t.isAtomic) cs

/-- The text `cs` of the term `t` as the function of an application. -/
def wrapFunction (t : Term) (cs : List Char) : List Char :=
  Text.parenthesized (!(t.isAtomic || t.isApp)) cs

mutual

/-- The text of a term, as characters. -/
def chars : Term → List Char
  | bool true => "true".toList
  | bool false => "false".toList
  | zero => ['0']
  | succ t =>
    match t.toNat? with
    | some n => Nat.toDigits 10 (n + 1)
    | none => "succ ".toList ++ t.wrapOperand t.chars
  | pred t => "pred ".toList ++ t.wrapOperand t.chars
  | isZero t => "iszero ".toList ++ t.wrapOperand t.chars
  | ite t u v =>
    "if ".toList ++ t.chars ++ " then ".toList ++ u.chars ++ " else ".toList ++ v.chars
  | var x => x.toList
  | lam x T t => "lambda ".toList ++ x.toList ++ ':' :: T.chars ++ ". ".toList ++ t.chars
  | app t u => t.wrapFunction t.chars ++ ' ' :: u.wrapOperand u.chars
  | letIn x t u =>
    "let ".toList ++ x.toList ++ " = ".toList ++ t.chars ++ " in ".toList ++ u.chars
  | fix t => "fix ".toList ++ t.wrapOperand t.chars
  | string s => '"' :: s.toList ++ ['"']
  | concat t u => "concat ".toList ++ t.wrapOperand t.chars ++ ' ' :: u.wrapOperand u.chars
  | pair t u => '{' :: t.chars ++ ", ".toList ++ u.chars ++ ['}']
  | fst t => t.wrapOperand t.chars ++ ".1".toList
  | snd t => t.wrapOperand t.chars ++ ".2".toList
  | record fields => '{' :: charsFields fields ++ ['}']
  | proj t label => t.wrapOperand t.chars ++ '.' :: label.toList
  | nil T => "nil[".toList ++ T.chars ++ [']']
  | cons t u => "cons ".toList ++ t.wrapOperand t.chars ++ ' ' :: u.wrapOperand u.chars
  | isNil t => "isnil ".toList ++ t.wrapOperand t.chars
  | head t => "head ".toList ++ t.wrapOperand t.chars
  | tail t => "tail ".toList ++ t.wrapOperand t.chars

/-- The fields of a record, divided by commas. -/
def charsFields : List (String × Term) → List Char
  | [] => []
  | [(label, t)] => label.toList ++ '=' :: t.chars
  | (label, t) :: fields => label.toList ++ '=' :: t.chars ++ ", ".toList ++ charsFields fields

end

/-- The text of a term. -/
def render (t : Term) : String :=
  String.ofList t.chars

end Term

end TypedLambda
