import JsonQuery.Token.Basic

/-!
# What can go wrong

Errors are kept as their **causes**; the wording is added last, by the functions called
`message`, and nothing ever looks at the words. There are three layers.

* A **complaint** (`JsonQuery.Complaint`) is what a function has against its arguments: how
  many there are, what type one of them has, or something of its own. It does not know
  which function it was made by.
* A **fault** (`JsonQuery.Fault`) is one thing that is wrong with an expression or its
  evaluation: a character, a token, a missing rest, or a complaint together with the name
  of the function that made it.
* An **error** (`JsonQuery.Error`) is what the caller gets: a fault with the expression that
  it was found in, or one of the two errors that no expression belongs to.

One fault is nobody's to report. An **overflow** breaks the whole run off as soon as it comes
about (`JsonQuery.Fault.breaksOff`). It takes the way of the other faults, which no expression
and no function on it stops, but what there is at the end is no error of a query.

The expression is attached at the very end, and only once: the innermost one stays
(`JsonQuery.Error.attach_attach`).
-/

namespace JsonQuery

/-! ### Complaints -/

/-- What a function has against its arguments. -/
inductive Complaint where
  /-- Not as many arguments as there are positions. -/
  | arity (expected actual : Nat)
  /-- Fewer arguments than the positions that have to be filled. -/
  | variadicArity (expected actual : Nat)
  /-- A value that is of none of the types that are expected of it. -/
  | type (value : Json) (expected : List String) (actual : String)
  /-- Something of the function's own. -/
  | custom (text : String)
  deriving Repr

/-- A count of arguments, in words. -/
def countText (count : Nat) : String :=
  if count = 1 then s!"{count} argument" else s!"{count} arguments"

/-- In which direction a count of arguments is wrong. -/
def boundText (expected actual : Nat) : String :=
  if expected < actual then "at most" else "at least"

/-- Some types to choose from: one stands for itself, any other number of them is
listed. -/
def typesText : List String → String
  | [only] => s!"\"{only}\""
  | types =>
    let names := types.map fun name => s!"\"{name}\""
    "one of " ++ String.intercalate ", " names

/-- A complaint, as long as it is not known whose it is. -/
def Complaint.message : Complaint → String
  | arity expected actual =>
    s!"expected {boundText expected actual} {countText expected}, received {actual}"
  | variadicArity expected actual => s!"expected {countText expected}, received {actual}"
  | type _ expected actual => s!"expected {typesText expected} but found \"{actual}\""
  | custom text => text

/-! ### Faults -/

/-- Why a token is not accepted, where it is more than being unexpected. -/
inductive Reason where
  /-- A quoted name stands where the name of a function should. -/
  | quotedFunctionName
  /-- What stands before an argument list is not the name of a function. -/
  | notFunctionName (shown : String)
  /-- The expression nests too deeply. -/
  | tooDeep
  /-- A reason in words. -/
  | stated (text : String)
  deriving DecidableEq, Repr

/-- A reason, in words. -/
def Reason.message : Reason → String
  | quotedFunctionName => "quoted identifiers cannot be used as a function name"
  | notFunctionName shown => s!"Invalid function name '{shown}'"
  | tooDeep => "expression nested too deeply"
  | stated text => text

/-- One thing that is wrong with an expression or its evaluation. -/
inductive Fault where
  /-- No token can be taken from a position on. -/
  | badToken (position : Nat) (shown : String)
  /-- A token that cannot stand where it does. -/
  | badSyntax (position : Nat) (shown : String) (kind : Token.Kind) (reason : Option Reason)
  /-- The expression ends too early. -/
  | unfinished (position : Nat)
  /-- A function complains. -/
  | call (function : String) (complaint : Complaint)
  /-- There is no function of this name. -/
  | unknownFunction (name : String)
  /-- A slice does not move. -/
  | zeroStep
  /-- A slice adds its step to a place, and the sum is too large. -/
  | overflow (place step : Int)
  deriving Repr

namespace Fault

/-- A fault in words, without the expression it is in. -/
def message : Fault → String
  | badToken position shown =>
    s!"Bad jmespath expression: unknown token \"{shown}\" at column {position}"
  | badSyntax position shown kind reason =>
    let issue := match reason with
      | some reason => reason.message
      | none => s!"found unexpected token \"{shown}\" ({kind.label})"
    s!"Invalid jmespath expression: parse error at column {position}, {issue}"
  | unfinished position =>
    s!"Invalid jmespath expression: parse error at column {position}, found unexpected end of expression (EOF)"
  | call function (.arity expected actual) =>
    s!"Expected {boundText expected actual} {countText expected} for function {function}(), received {actual}"
  | call function (.variadicArity expected actual) =>
    s!"Expected {countText expected} for function {function}(), received {actual}"
  | call function (.type _ expected actual) =>
    s!"Invalid argument type for function {function}(), expected {typesText expected} but found \"{actual}\""
  | call function (.custom text) => s!"Error in function {function}(): {text}"
  | unknownFunction name => s!"Unknown function: {name}()"
  | zeroStep => "Invalid slice, step cannot be 0"
  | overflow .. => "attempt to add with overflow"

/-- Whether the grammar is what is violated. -/
def isSyntactic : Fault → Bool
  | badSyntax .. => true
  | unfinished _ => true
  | _ => false

/-- Whether the fault lies with a function. -/
def isFunctional : Fault → Bool
  | call .. => true
  | unknownFunction _ => true
  | _ => false

/-- Whether the run is broken off. -/
def breaksOff : Fault → Bool
  | overflow .. => true
  | _ => false

end Fault

/-! ### Errors -/

/-- What the caller of a query gets when there is no result. -/
inductive Error where
  /-- The expression is empty. -/
  | emptyExpression
  /-- The document is not a JSON text; what is known about it. -/
  | badDocument (detail : Option String)
  /-- A fault, and the expression that it is in as soon as that is known. -/
  | fault (fault : Fault) (expression : Option String)
  deriving Repr

namespace Error

/-- An error in words. -/
def message : Error → String
  | emptyExpression => "Invalid JMESPath expression: cannot be empty."
  | badDocument none => "invalid JSON document"
  | badDocument (some detail) => s!"invalid JSON document: {detail}"
  | fault f none => f.message
  | fault f (some expression) => s!"{f.message} in expression: {expression}"

/-- The expression that an error is in. -/
def expression? : Error → Option String
  | fault _ expression => expression
  | _ => none

/-- Say which expression an error is in, unless that is known or none belongs to it. -/
def attach (expression : String) : Error → Error
  | fault f none => fault f (some expression)
  | e => e

/-- Whether the grammar is what is violated. -/
def isSyntactic : Error → Bool
  | fault f _ => f.isSyntactic
  | _ => false

/-- Whether the fault lies with a function. -/
def isFunctional : Error → Bool
  | fault f _ => f.isFunctional
  | _ => false

/-- Whether the run is broken off. -/
def breaksOff : Error → Bool
  | fault f _ => f.breaksOff
  | _ => false

/-- **The innermost expression stays.** -/
theorem attach_attach (inner outer : String) (e : Error) :
    (e.attach inner).attach outer = e.attach inner := by
  rcases e with _ | _ | ⟨f, _ | _⟩ <;> rfl

end Error

end JsonQuery
