import TypedLambda.Grammar.Keyword

/-!
# Descriptions of rules

What a message says was expected. A choice or a sequence is described by its parts in braces, and
a recursive rule by an outline of its body that is cut off after a thousand characters; inside its
own outline a rule stands as an ellipsis.

## Main definitions

* `Description.choice`, `Description.sequence`, `Description.repeated`: rules made of parts
* `Description.recursive`: rules that use themselves
* `Description.type`, `Description.term`, `Description.command`: the rules of the grammar
-/

namespace TypedLambda

namespace Grammar

namespace Description

/-! ## Rules made of parts -/

/-- A text in braces. -/
def braced (s : String) : String :=
  "\x7b" ++ s ++ "\x7d"

/-- A text in single quotes. -/
def quoted (s : String) : String :=
  "'" ++ s ++ "'"

/-- A mark that leaves nothing in the result. -/
def dropped (s : String) : String :=
  "Suppress:(" ++ quoted s ++ ")"

/-- One of several alternatives. -/
def choice (alternatives : List String) : String :=
  braced (" | ".intercalate alternatives)

/-- Several parts, one after the other. -/
def sequence (parts : List String) : String :=
  braced (" ".intercalate parts)

/-- Alternatives that are joined two by two, from the left. -/
def choiceInPairs : List String → String
  | [] => ""
  | a :: as => as.foldl (fun x y => choice [x, y]) a

/-- Parts that are joined two by two, from the left. -/
def sequenceInPairs : List String → String
  | [] => ""
  | a :: as => as.foldl (fun x y => sequence [x, y]) a

/-- Any number of parts. -/
def repeated (part : String) : String :=
  "[" ++ part ++ "]..."

/-- One or more parts with a separator. -/
def separated (sep part : String) : String :=
  part ++ " " ++ repeated (sep ++ " " ++ part)

/-- A recursive rule with the given body. -/
def recursive (body : String) : String :=
  "Forward: " ++ String.ofList (body.toList.take 1000)

/-- A recursive rule inside its own body. -/
def ellipsis : String :=
  ": ..."

/-! ## Lexemes -/

/-- A word that starts with one of the characters `first`. -/
def word (first : String) : String :=
  "W:(" ++ first ++ ", '0-9A-Z_a-z)"

/-- The keywords. -/
def keyword : String :=
  choice (keywords.map quoted)

/-- A name of a variable or a label. -/
def name : List String :=
  ["~" ++ braced keyword, word "_a-z"]

/-- A name of a type. -/
def typeName : List String :=
  ["~" ++ braced keyword, word "A-Z"]

/-- A number. -/
def number : String :=
  "W:(0-9)"

/-- A string literal. -/
def stringLiteral : String :=
  "string enclosed in '\"'"

/-- The end of the text. -/
def endOfText : String :=
  "StringEnd"

/-- Fields in which `sep` stands between a label and a part. -/
def fields (sep part : String) : String :=
  "[" ++ separated "," ("Group:(" ++ sequence (name ++ [dropped sep, part]) ++ ")") ++ "]"

/-! ## Types -/

/-- An outline of the atomic types, inside the rule for types. -/
def atomicTypeOutline : String :=
  choiceInPairs
    [choice [quoted "Bool", quoted "Nat", quoted "String"],
     sequenceInPairs [sequence [quoted "List", dropped "[", ellipsis], dropped "]"],
     sequenceInPairs [dropped "\x7b", fields ":" ellipsis, dropped "\x7d"],
     sequence typeName,
     sequenceInPairs [dropped "(", ellipsis, dropped ")"]]

/-- A type. -/
def type : String :=
  recursive (separated "->" (separated "*" atomicTypeOutline))

/-- An atomic type. -/
def atomicType : String :=
  choice
    [quoted "Bool", quoted "Nat", quoted "String",
     sequence [quoted "List", dropped "[", type, dropped "]"],
     sequence [dropped "\x7b", fields ":" ellipsis, dropped "\x7d"],
     sequence typeName,
     sequence [dropped "(", type, dropped ")"]]

/-! ## Terms -/

/-- The words with which a function starts. -/
def functionStart : String :=
  choice [quoted "lambda", quoted "L"]

/-- A function with the given body. -/
def function (body : String) : String :=
  sequence ([functionStart] ++ name ++ [quoted ":", type, quoted ".", body])

/-- A conditional with the given parts. -/
def conditional (part : String) : String :=
  sequence [quoted "if", part, quoted "then", part, quoted "else", part]

/-- A recursive definition with the given parts. -/
def letRec (part : String) : String :=
  sequence ([quoted "letrec"] ++ name ++ [quoted ":", type, quoted "=", part, quoted "in", part])

/-- A definition with the given parts. -/
def letIn (part : String) : String :=
  sequence ([quoted "let"] ++ name ++ [quoted "=", part, quoted "in", part])

/-- The atomic terms, given how terms inside them are described and how parts are joined. -/
def atomicAlternatives (join : List String → String) (inner : String) : List String :=
  [quoted "true", quoted "false", number, stringLiteral,
   join [quoted "nil", dropped "[", type, dropped "]"],
   join [dropped "\x7b", fields "=" ellipsis, dropped "\x7d"],
   join [dropped "\x7b", inner, dropped ",", inner, dropped "\x7d"],
   sequence name,
   join [dropped "(", inner, dropped ")"]]

/-- An atomic term as a part of a projection. -/
def innerAtomic : String :=
  recursive (choiceInPairs (atomicAlternatives sequenceInPairs ellipsis))

/-- What stands behind a point. -/
def selector : String :=
  choice [quoted "1", quoted "2", sequence name]

/-- An atomic term with selectors behind it. -/
def simple : String :=
  sequence [innerAtomic, repeated (sequence [dropped ".", selector])]

/-- The first part of an application. -/
def applicationHead : String :=
  choice
    (["succ", "pred", "iszero", "fix", "isnil", "head", "tail"].map
        (fun w => sequence [quoted w, simple]) ++
      ["concat", "cons"].map (fun w => sequence [quoted w, simple, simple]) ++ [simple])

/-- A term and the arguments behind it. -/
def application : String :=
  sequence [applicationHead, repeated simple]

/-- A term as a part of another one. -/
def innerTerm : String :=
  recursive (choiceInPairs
    [function ellipsis, conditional ellipsis, letRec ellipsis, letIn ellipsis, application])

/-- An atomic term. -/
def atomic : String :=
  choice (atomicAlternatives sequence innerTerm)

/-- A term. -/
def term : String :=
  choice
    [function innerTerm, conditional innerTerm, letRec innerTerm, letIn innerTerm, application]

/-! ## Commands -/

/-- A command. -/
def command : String :=
  choice
    [sequence [sequence (typeName ++ [quoted "=", type]), endOfText],
     sequence [sequence (name ++ [quoted "=", innerTerm]), endOfText],
     sequence [innerTerm, endOfText],
     sequence [type, endOfText]]

end Description

/-- The message that something was expected. -/
def expected (what : String) : String :=
  "Expected " ++ what

end Grammar

end TypedLambda
