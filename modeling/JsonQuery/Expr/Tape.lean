import JsonQuery.Expr.Grammar

/-!
# Reading from a tape

The grammar once more, as a program that goes by a **cursor**. All tokens are on a tape, the
end of the expression is a token like any other and stands last, and reading is done by looking
at the token under the cursor, or at one near it, and by moving the cursor on. The cursor never
leaves the last token.

`JsonQuery.Grammar` hands lists of tokens from function to function, so it cannot look where
there is no token, and it recurses on levels and lengths, so it cannot go round in circles. Here
nothing keeps a reader from either. A token is looked for by its number, and if there is none
the reader **crashes**. Loops go round until one of their rounds ends them, and expressions are
read inside expressions, however little the cursor has moved. So a reader has to be given
**fuel**: it is cut off, and has no result, if a loop takes more rounds than that, or if
expressions are that deep inside each other. A reader that is not cut off has not noticed its
fuel. That there is an amount that is always enough, and that there are no crashes, is something
to prove about the program, as is that it reads what the grammar reads.

A round of a loop is a definition of its own. It tells whether there is another one to go
(`JsonQuery.Tape.Turn`).
-/

namespace JsonQuery

/-- A token as it stands on a tape. -/
structure Cell where
  /-- The kind of the token. -/
  kind : Token.Kind
  /-- What the token carries. -/
  value : Json
  /-- The position of its first character. -/
  start : Nat

namespace Cell

/-- A cell as error messages show it. -/
def shown (c : Cell) : String :=
  c.value.shown

/-- To be told that a cell cannot stand where it does; at the end of the expression, that the
expression is not finished. -/
def fault (reason : Option Reason) (c : Cell) : Fault :=
  if c.kind = .ended then .unfinished c.start else .badSyntax c.start c.shown c.kind reason

end Cell

/-- A **tape** with a cursor on it, and how deep reading has gone. -/
structure Tape where
  /-- The tokens. -/
  cells : List Cell
  /-- The number of the cell under the cursor. -/
  position : Nat
  /-- How many levels of nesting are open. -/
  depth : Nat

namespace Tape

/-- Why a reader stops without a result. -/
inductive Halt where
  /-- The expression is refused. -/
  | refused (f : Fault)
  /-- There is no cell of a number that is looked for. -/
  | noCell (number : Nat)
  /-- A slice has no part of a number that is looked for. -/
  | noPart (number : Nat)

/-- A **reader** goes on from a tape, and has no result if it is cut off. -/
abbrev Reader :=
  StateT Tape (ExceptT Halt Option)

/-- What a reader comes to from a tape: nothing if it is cut off, and otherwise what it stops
for, or a value and the tape from then on. -/
def Reader.outcome {α : Type} (x : Reader α) (tape : Tape) : Option (Except Halt (α × Tape)) :=
  (x.run tape).run

/-- What a round of a loop leads to. -/
inductive Turn (α : Type) where
  /-- Another round. -/
  | again (a : α)
  /-- The end of the loop. -/
  | done (a : α)

/-- The cell of a token. -/
def cellOf (t : Token) : Cell :=
  ⟨t.kind, t.lexeme.value, t.start⟩

/-- The cell at the end of an expression of a given length. -/
def lastCell (length : Nat) : Cell :=
  ⟨.ended, .string "", length⟩

/-- The tape of an expression of a given length, before anything was read. -/
def ofTokens (ts : List Token) (length : Nat) : Tape :=
  ⟨ts.map cellOf ++ [lastCell length], 0, 0⟩

/-! ### Looking and moving -/

/-- The cell of a number. -/
def cell (number : Nat) : Reader Cell := do
  match (← get).cells[number]? with
  | some c => return c
  | none => throw (.noCell number)

/-- The cell some cells ahead of the cursor, but none behind the last one. -/
def ahead (offset : Nat) : Reader Cell := do
  let tape ← get
  cell (min (tape.position + offset) (tape.cells.length - 1))

/-- The cell right before the cursor. There has to be one. -/
def before : Reader Cell := do
  match (← get).position with
  | 0 => throw (.noCell 0)
  | number + 1 => cell number

/-- The kind of the cell under the cursor. -/
def kind : Reader Token.Kind :=
  return (← ahead 0).kind

/-- To move on to the next cell, if there is one. -/
def advance : Reader Unit :=
  modify fun tape =>
    if tape.position < tape.cells.length - 1 then { tape with position := tape.position + 1 }
    else tape

/-- To stop at a cell. -/
def refuseAt {α : Type} (c : Cell) (reason : Option Reason) : Reader α :=
  throw (.refused (c.fault reason))

/-- To stop at the cell under the cursor. -/
def refuse {α : Type} (reason : Option Reason) : Reader α := do
  refuseAt (← ahead 0) reason

/-- To move on from a given symbol, which has to be under the cursor. -/
def expect (s : Symbol) : Reader Unit := do
  if (← kind) = .symbol s then advance else refuse none

/-- To move on from a name of either kind, which has to be under the cursor. -/
def expectName : Reader Unit := do
  match ← kind with
  | .quoted | .name => advance
  | _ => refuse none

/-- To go a level deeper. -/
def descend : Reader Unit := do
  modify fun tape => { tape with depth := tape.depth + 1 }
  if Grammar.maxNesting < (← get).depth then refuse (some .tooDeep)

/-- To go back to the levels that were open before. -/
def ascend (depth : Nat) : Reader Unit :=
  modify fun tape => { tape with depth := depth }

/-- The number under the cursor. -/
def number : Reader Int := do
  let c ← ahead 0
  match c.value with
  | .number n =>
    match n.signed? with
    | some i => return i
    | none => refuseAt c none
  | _ => refuseAt c none

/-! ### Loops -/

/-- To be cut off. -/
def cutOff {α : Type} : Reader α := fun _ => (none : Option (Except Halt (α × Tape)))

/-- Rounds of a loop until one of them is the last. -/
def loop {α : Type} (round : α → Reader (Turn α)) : Nat → α → Reader α
  | 0, _ => cutOff
  | fuel + 1, a => do
    match ← round a with
    | .again a => loop round fuel a
    | .done a => return a

/-! ### Slices -/

/-- The **parts** of a slice, as far as they were read. -/
structure Parts where
  /-- The number of the part that is read. -/
  current : Nat
  /-- The bounds. -/
  bounds : List (Option Int)

/-- A bound of a slice. -/
def part (s : Parts) (number : Nat) : Reader (Option Int) :=
  match s.bounds[number]? with
  | some bound => return bound
  | none => throw (.noPart number)

/-- A colon, or a number where none was given yet. -/
def sliceRound (s : Parts) : Reader (Turn Parts) := do
  match ← kind with
  | .symbol .rightBracket => return .done s
  | .symbol .colon =>
    if s.current + 1 = 3 then refuse none
    else
      advance
      return .again { s with current := s.current + 1 }
  | .number =>
    match ← part s s.current with
    | none =>
      let n ← number
      advance
      return .again { s with bounds := s.bounds.set s.current (some n) }
    | some _ => refuse none
  | _ => refuse none

/-- What stands between the brackets of a slice, and the closing bracket. -/
def slice (fuel : Nat) : Reader Expr := do
  let s ← loop sliceRound fuel ⟨0, [none, none, none]⟩
  expect .rightBracket
  return .slice (← part s 0) (← part s 1) (← part s 2)

/-- What stands between brackets that a number or a colon comes first in, and the closing
bracket. -/
def indexOrSlice (fuel : Nat) : Reader Expr := do
  if (← ahead 0).kind = .symbol .colon then slice fuel
  else if (← ahead 1).kind = .symbol .colon then slice fuel
  else
    let n ← number
    advance
    expect .rightBracket
    return .index n

/-! ### Lists between commas -/

/-- An argument, and the comma behind it if there is one. -/
def argumentRound (read : Nat → Reader Expr) (args : List Expr) :
    Reader (Turn (List Expr)) := do
  if (← kind) = .symbol .rightParen then return .done args
  else
    let e ← read 0
    match ← kind with
    | .symbol .comma =>
      advance
      return .again (args ++ [e])
    | .symbol .rightParen => return .again (args ++ [e])
    | _ => refuse none

/-- The arguments of a call, and the closing parenthesis. The cursor is behind the opening one;
if no name stands before that, it is the token before it that is refused. -/
def call (fuel : Nat) (read : Nat → Reader Expr) (left : Expr) : Reader Expr := do
  match left with
  | .field name =>
    let args ← loop (argumentRound read) fuel []
    expect .rightParen
    return .call name args
  | _ =>
    let previous ← cell ((← get).position - 2)
    refuseAt previous (some (.notFunctionName previous.shown))

/-- An item of a list, and the comma behind it if there is one. -/
def listRound (read : Nat → Reader Expr) (items : List Expr) : Reader (Turn (List Expr)) := do
  let e ← read 0
  if (← kind) = .symbol .rightBracket then return .done (items ++ [e])
  else
    expect .comma
    return .again (items ++ [e])

/-- The items of a list of expressions, and the closing bracket. -/
def list (fuel : Nat) (read : Nat → Reader Expr) : Reader Expr := do
  let items ← loop (listRound read) fuel []
  expect .rightBracket
  return .list items

/-- A key of either kind, a colon and an expression. -/
def hashEntry (read : Nat → Reader Expr) : Reader (String × Expr) := do
  let key ← ahead 0
  expectName
  expect .colon
  let e ← read 0
  return (key.shown, e)

/-- An entry of a keyed list, and the comma or the closing brace behind it. -/
def hashRound (read : Nat → Reader Expr) (entries : List (String × Expr)) :
    Reader (Turn (List (String × Expr))) := do
  let entry ← hashEntry read
  match ← kind with
  | .symbol .comma =>
    advance
    return .again (entries ++ [entry])
  | .symbol .rightBrace =>
    advance
    return .done (entries ++ [entry])
  | _ => refuse none

/-- The entries of a keyed list of expressions, and the closing brace. -/
def hash (fuel : Nat) (read : Nat → Reader Expr) : Reader Expr :=
  return .hash (← loop (hashRound read) fuel [])

/-! ### Parts of expressions -/

/-- What may stand behind a dot. -/
def afterDot (fuel : Nat) (read : Nat → Reader Expr) (power : Nat) : Reader Expr := do
  match ← kind with
  | .name | .quoted | .symbol .star => read power
  | .symbol .leftBracket =>
    advance
    list fuel read
  | .symbol .leftBrace =>
    advance
    hash fuel read
  | _ => refuse none

/-- **The right side of a projection.** -/
def projected (fuel : Nat) (read : Nat → Reader Expr) (power : Nat) : Reader Expr := do
  let next ← kind
  if next.power < Grammar.projectionStop then return .identity
  else
    match next with
    | .symbol .leftBracket | .symbol .filter => read power
    | .symbol .dot =>
      expect .dot
      afterDot fuel read power
    | _ => refuse none

/-- The condition of a filter, its closing bracket and the right side of the projection. -/
def filtered (fuel : Nat) (read : Nat → Reader Expr) (left : Expr) : Reader Expr := do
  let condition ← read 0
  expect .rightBracket
  if (← kind) = .symbol .flatten then return .projectWhere left .identity condition
  else return .projectWhere left (← projected fuel read Symbol.filter.power) condition

/-- A position or a slice applied to what is on its left; a slice is projected onto. -/
def projectIfSlice (fuel : Nat) (read : Nat → Reader Expr) (left right : Expr) :
    Reader Expr := do
  match right with
  | .slice .. =>
    return .project (left.indexed right) (← projected fuel read Symbol.star.power)
  | _ => return left.indexed right

/-- **An operand**: what a token that nothing stands before can start. The cursor is behind
it. -/
def operand (fuel : Nat) (read : Nat → Reader Expr) (first : Cell) : Reader Expr := do
  match first.kind with
  | .literal => return .literal first.value
  | .name => return .field first.shown
  | .quoted =>
    let next ← ahead 0
    if next.kind = .symbol .leftParen then
      throw (.refused (.badSyntax first.start next.shown next.kind (some .quotedFunctionName)))
    else return .field first.shown
  | .symbol .star =>
    if (← kind) = .symbol .rightBracket then return .projectValues .identity .identity
    else return .projectValues .identity (← projected fuel read Symbol.star.power)
  | .symbol .filter => filtered fuel read .identity
  | .symbol .leftBrace => hash fuel read
  | .symbol .leftParen =>
    let e ← read 0
    expect .rightParen
    return e
  | .symbol .flatten =>
    return .project (.flatten .identity) (← projected fuel read Symbol.flatten.power)
  | .symbol .not => return .not (← read Symbol.not.power)
  | .symbol .leftBracket =>
    match ← kind with
    | .number | .symbol .colon =>
      projectIfSlice fuel read .identity (← indexOrSlice fuel)
    | .symbol .star =>
      if (← ahead 1).kind = .symbol .rightBracket then
        advance
        advance
        return .project .identity (← projected fuel read Symbol.star.power)
      else list fuel read
    | _ => list fuel read
  | .symbol .current => return .current
  | .symbol .reference => return .reference (← read Symbol.reference.power)
  | _ => refuseAt first none

/-- **What a token makes of the operand on its left.** The cursor is behind it. -/
def following (fuel : Nat) (read : Nat → Reader Expr) (k : Token.Kind) (left : Expr) :
    Reader Expr := do
  match k with
  | .symbol .dot =>
    if (← kind) = .symbol .star then
      advance
      return .projectValues left (← projected fuel read Symbol.dot.power)
    else return left.dotted (← afterDot fuel read Symbol.dot.power)
  | .symbol .pipe => return .pipe left (← read Symbol.pipe.power)
  | .symbol .or => return .or left (← read Symbol.or.power)
  | .symbol .and => return .and left (← read Symbol.and.power)
  | .symbol (.comparison op) =>
    return .compare op left (← read (Symbol.comparison op).power)
  | .symbol .leftParen => call fuel read left
  | .symbol .filter => filtered fuel read left
  | .symbol .flatten =>
    return .project (.flatten left) (← projected fuel read Symbol.flatten.power)
  | .symbol .leftBracket =>
    match ← kind with
    | .number | .symbol .colon => projectIfSlice fuel read left (← indexOrSlice fuel)
    | _ =>
      expect .star
      expect .rightBracket
      return .project left (← projected fuel read Symbol.star.power)
  | _ => refuseAt (← before) none

/-! ### Expressions -/

/-- Whether a kind of token can take the operand before it as its left side. -/
def canFollow : Token.Kind → Bool
  | .symbol s => Grammar.canFollow s
  | _ => false

/-- A symbol that binds more tightly than `power`, with an operand before it. -/
def climbRound (fuel : Nat) (read : Nat → Reader Expr) (power : Nat) (left : Expr) :
    Reader (Turn Expr) := do
  let next ← kind
  if power < next.power then
    if canFollow next then
      descend
      advance
      return .again (← following fuel read next left)
    else refuse none
  else return .done left

/-- An operand and the symbols behind it that bind more tightly than `power`. -/
def nested (fuel : Nat) (read : Nat → Reader Expr) (power : Nat) : Reader Expr := do
  descend
  let first ← ahead 0
  advance
  let left ← operand fuel read first
  loop (climbRound fuel read power) fuel left

/-- **An expression.** The levels it took are given back. -/
def expression : Nat → Nat → Reader Expr
  | 0, _ => cutOff
  | fuel + 1, power => do
    let depth := (← get).depth
    let e ← nested fuel (expression fuel) power
    ascend depth
    return e

/-- **An expression that goes to the end of the tape.** -/
def root (fuel : Nat) : Reader Expr := do
  let e ← expression fuel 0
  if (← kind) = .ended then return e else refuse none

end Tape

end JsonQuery
