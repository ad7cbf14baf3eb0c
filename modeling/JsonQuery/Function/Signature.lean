import JsonQuery.Expr.Basic
import JsonQuery.Fault

/-!
# Arguments and signatures

An **argument** of a function is a value, or an expression that was not evaluated: the
function gets it together with a way to evaluate it on values of its own choice
(`JsonQuery.Reference`).

A **signature** says what a function accepts: for each position some types to choose from.
A signature that is **variadic** lets the last position be filled any number of times. It
is checked in two steps, the number of arguments first and then their types from left to
right; the first argument that fits none of the types of its position is reported. For an
array whose items are to be of one type the report is more precise: it names the first
item that is not of the type which the first item selects
(`JsonQuery.Signature.strayItem?`).
-/

namespace JsonQuery

/-! ### Arguments -/

/-- An expression that is handed to a function. -/
structure Reference where
  /-- The expression. -/
  body : Expr
  /-- What it evaluates to. -/
  evaluate : Json → Except Fault Json

/-- An argument of a function. -/
inductive Argument where
  /-- A value. -/
  | value (v : Json)
  /-- An expression. -/
  | reference (r : Reference)

namespace Argument

/-- The name of the type of an argument. -/
def typeName : Argument → String
  | value v => v.typeName
  | reference _ => "expression"

/-- An argument as a value; an expression has none. -/
def toJson : Argument → Json
  | value v => v
  | reference _ => .null

end Argument

/-! ### Types -/

/-- A type that an argument can have. -/
inductive ArgumentType where
  /-- Anything, an expression included. -/
  | any
  /-- The value `null`. -/
  | null
  /-- A truth value. -/
  | boolean
  /-- A number. -/
  | number
  /-- A string. -/
  | string
  /-- An array. -/
  | array
  /-- An object. -/
  | object
  /-- An expression. -/
  | expression
  /-- An array all of whose items are of one type. -/
  | arrayOf (item : ArgumentType)
  deriving DecidableEq, Repr

namespace ArgumentType

/-- The name of a type. -/
def name : ArgumentType → String
  | any => "any"
  | null => "null"
  | boolean => "boolean"
  | number => "number"
  | string => "string"
  | array => "array"
  | object => "object"
  | expression => "expression"
  | arrayOf item => "array-" ++ item.name

/-- Whether a value is of a type. -/
def hasValue : ArgumentType → Json → Bool
  | any, _ => true
  | null, .null => true
  | boolean, .bool _ => true
  | number, .number _ => true
  | string, .string _ => true
  | array, .array _ => true
  | object, .object _ => true
  | arrayOf item, .array items => items.all (hasValue item)
  | _, _ => false

/-- Whether an argument is of a type. -/
def admits : ArgumentType → Argument → Bool
  | any, _ => true
  | expression, .reference _ => true
  | _, .reference _ => false
  | t, .value v => t.hasValue v

end ArgumentType

/-! ### Signatures -/

/-- **What a function accepts.** -/
structure Signature where
  /-- The types to choose from at each position; no types at all accept anything. -/
  positions : List (List ArgumentType)
  /-- Whether the last position can be filled any number of times. -/
  variadic : Bool
  deriving DecidableEq, Repr

namespace Signature

/-- A signature with a fixed number of positions. -/
def fixed (positions : List (List ArgumentType)) : Signature :=
  ⟨positions, false⟩

/-- A signature whose last position can be filled any number of times. -/
def variadicOf (positions : List (List ArgumentType)) : Signature :=
  ⟨positions, true⟩

/-- Whether there is a right number of arguments. -/
def checkArity (s : Signature) (count : Nat) : Except Complaint Unit :=
  if s.variadic then
    if count < s.positions.length then .error (.variadicArity s.positions.length count) else .ok ()
  else if count = s.positions.length then .ok ()
  else .error (.arity s.positions.length count)

/-- The types of the position that an argument stands at, if it stands at one. -/
def typesAt? (s : Signature) (index : Nat) : Option (List ArgumentType) :=
  match s.positions[index]? with
  | some types => some types
  | none => if s.variadic then s.positions.getLast? else none

/-- Whether an argument is of one of some types. -/
def admits (types : List ArgumentType) (arg : Argument) : Bool :=
  types.isEmpty || types.any fun t => t.admits arg

/-- Of an array whose first item selects a type of items among some types: the first item
that is not of it, with that type. -/
def strayItem? (types : List ArgumentType) : Argument → Option (Json × ArgumentType)
  | .value (.array (first :: rest)) =>
    let selected := types.findSome? fun
      | .arrayOf item => if item.hasValue first then some item else none
      | _ => none
    match selected with
    | some item => ((first :: rest).find? fun v => !item.hasValue v).map fun stray => (stray, item)
    | none => none
  | _ => none

/-- What is to be said about an argument that is of none of some types. -/
def complaint (types : List ArgumentType) (arg : Argument) : Complaint :=
  match strayItem? types arg with
  | some (stray, item) => .type stray [item.name] stray.typeName
  | none => .type arg.toJson (types.map ArgumentType.name) arg.typeName

/-- Whether the arguments from a given index on are of the types of their positions. -/
def checkTypesFrom (s : Signature) (index : Nat) : List Argument → Except Complaint Unit
  | [] => .ok ()
  | arg :: rest =>
    match s.typesAt? index with
    | none => checkTypesFrom s (index + 1) rest
    | some types =>
      if admits types arg then checkTypesFrom s (index + 1) rest
      else .error (complaint types arg)

/-- **Whether all arguments are of the types of their positions.** -/
def checkTypes (s : Signature) (args : List Argument) : Except Complaint Unit :=
  s.checkTypesFrom 0 args

end Signature

end JsonQuery
