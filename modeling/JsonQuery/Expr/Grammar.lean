import JsonQuery.Expr.Basic
import JsonQuery.Fault

/-!
# From tokens to expressions

The grammar is one of **binding powers**. `JsonQuery.Grammar.expression` first reads an
operand (`JsonQuery.Grammar.leading`), and then goes on for as long as the next symbol
binds more tightly than the power it was called with: each such symbol takes the operand
read so far as its left side and makes a larger operand of it
(`JsonQuery.Grammar.following`). A right side is read by the same function at the power
of its own symbol, which is what makes operators of one power group to the left.

Two things are settled by more than the powers. The right side of a **projection** may
be missing; it is there unless the next token has a power below
`JsonQuery.Grammar.projectionStop`, and then it starts with a dot, a bracket or a filter
(`JsonQuery.Grammar.projected`). And lists of things between commas, of which there are
three, are all read by `JsonQuery.Grammar.separated`; of the three, only the arguments of
a call may end in a comma.

## Nesting

An expression may nest `JsonQuery.Grammar.maxNesting` deep, and the recursion is on what is
left of that: reading an operand takes one level, and each symbol that follows takes one
more. So the functions below never see the recursion. They are handed a reader of
expressions that may go as deep as is still allowed, under the name `read`, and the two
functions at the end of the file tie the knot.

Every function gives back the tokens that it left. The end of the expression is not a
token but the empty list, and a **refusal** says at which token reading had to stop or
that the tokens ran out.
-/

namespace JsonQuery

namespace Grammar

/-- Tokens whose power is below this one end the right side of a projection. -/
def projectionStop : Nat :=
  10

/-- How deep expressions may nest. -/
def maxNesting : Nat :=
  128

/-- Why reading stopped. -/
inductive Refusal where
  /-- The tokens ran out. -/
  | ended
  /-- A token cannot stand where it does. -/
  | token (position : Nat) (shown : String) (kind : Token.Kind) (reason : Option Reason)
  deriving Repr

/-! ### Looking at tokens -/

/-- The kind of the next token. -/
def headKind : List Token → Token.Kind
  | [] => .ended
  | t :: _ => t.kind

/-- Whether the next token is a given symbol. -/
def startsWith (s : Symbol) (ts : List Token) : Bool :=
  headKind ts == .symbol s

/-- To stop at the next token. -/
def refuse (reason : Option Reason) : List Token → Refusal
  | [] => .ended
  | t :: _ => .token t.start t.shown t.kind reason

/-- The tokens behind a given symbol, which has to come next. -/
def expect (s : Symbol) (ts : List Token) : Except Refusal (List Token) :=
  if startsWith s ts then .ok ts.tail else .error (refuse none ts)

/-- The token right before the last tokens of a list. -/
def tokenBefore (whole rest : List Token) : Option Token :=
  whole[whole.length - rest.length - 1]?

/-! ### Lists between commas -/

/-- At least one item, a comma between two of them, up to a closing symbol, which is taken
too. If a `trailing` comma is allowed there may be one before the closing symbol. The
tokens have to grow fewer with every item. -/
def separated {α : Type} (trailing : Bool) (close : Symbol)
    (item : List Token → Except Refusal (α × List Token)) (ts : List Token) :
    Except Refusal (List α × List Token) :=
  match item ts with
  | .error r => .error r
  | .ok (first, rest) =>
    if startsWith close rest then .ok ([first], rest.tail)
    else if startsWith .comma rest then
      if trailing && startsWith close rest.tail then .ok ([first], rest.tail.tail)
      else if rest.tail.length < ts.length then
        match separated trailing close item rest.tail with
        | .error r => .error r
        | .ok (more, rest) => .ok (first :: more, rest)
      else .error (refuse none rest)
    else .error (refuse none rest)
termination_by ts.length
decreasing_by assumption

/-! ### Parts of expressions -/

/-- A number, if one comes next. -/
def bound : List Token → Option Int × List Token
  | ⟨.number n, _, _⟩ :: rest => (some n, rest)
  | ts => (none, ts)

/-- What stands between the brackets of a slice, and the closing bracket: two or three
bounds, none of which has to be given, with colons between them. -/
def slice (ts : List Token) : Except Refusal (Expr × List Token) := do
  let (start, ts) := bound ts
  let ts ← expect .colon ts
  let (stop, ts) := bound ts
  if startsWith .colon ts then
    let (step, ts) := bound ts.tail
    let ts ← expect .rightBracket ts
    return (.slice start stop step, ts)
  else
    let ts ← expect .rightBracket ts
    return (.slice start stop none, ts)

/-- What stands between brackets that a number or a colon comes first in, and the closing
bracket: a position, or the bounds of a slice. -/
def indexOrSlice (ts : List Token) : Except Refusal (Expr × List Token) :=
  match ts with
  | ⟨.number n, start, stop⟩ :: rest =>
    if startsWith .colon rest then slice (⟨.number n, start, stop⟩ :: rest)
    else do
      let rest ← expect .rightBracket rest
      return (.index n, rest)
  | ts => slice ts

section Parts

variable (read : Nat → List Token → Except Refusal (Expr × List Token))

/-- The items of a list of expressions, and the closing bracket. -/
def listItems (ts : List Token) : Except Refusal (Expr × List Token) := do
  let (items, ts) ← separated false .rightBracket (read 0) ts
  return (.list items, ts)

/-- A key of either kind, a colon and an expression. -/
def hashEntry (ts : List Token) : Except Refusal ((String × Expr) × List Token) :=
  match ts with
  | [] => .error .ended
  | t :: rest =>
    match t.lexeme with
    | .name key | .quoted key => do
      let rest ← expect .colon rest
      let (e, rest) ← read 0 rest
      return ((key, e), rest)
    | _ => .error (refuse none ts)

/-- The entries of a keyed list of expressions, and the closing brace. -/
def hashEntries (ts : List Token) : Except Refusal (Expr × List Token) := do
  let (entries, ts) ← separated false .rightBrace (hashEntry read) ts
  return (.hash entries, ts)

/-- The arguments of a call, and the closing parenthesis. -/
def arguments (ts : List Token) : Except Refusal (List Expr × List Token) :=
  if startsWith .rightParen ts then .ok ([], ts.tail)
  else separated true .rightParen (read 0) ts

/-- What may stand behind a dot: something that starts with a name or a star, or a list
of expressions of either kind. -/
def afterDot (power : Nat) (ts : List Token) : Except Refusal (Expr × List Token) :=
  match headKind ts with
  | .name | .quoted | .symbol .star => read power ts
  | .symbol .leftBracket => listItems read ts.tail
  | .symbol .leftBrace => hashEntries read ts.tail
  | _ => .error (refuse none ts)

/-- **The right side of a projection**: nothing before a token of low power, and otherwise
what a dot, a bracket or a filter starts. -/
def projected (power : Nat) (ts : List Token) : Except Refusal (Expr × List Token) :=
  if (headKind ts).power < projectionStop then .ok (.identity, ts)
  else
    match headKind ts with
    | .symbol .leftBracket | .symbol .filter => read power ts
    | .symbol .dot => afterDot read power ts.tail
    | _ => .error (refuse none ts)

/-- The array that is flattened, and the right side of the projection onto its items. -/
def flattened (left : Expr) (ts : List Token) : Except Refusal (Expr × List Token) := do
  let (right, ts) ← projected read Symbol.flatten.power ts
  return (.project (.flatten left) right, ts)

/-- The condition of a filter up to its closing bracket, and the right side of the
projection onto the items that fulfil it. An empty pair of brackets starts no right
side. -/
def filtered (left : Expr) (ts : List Token) : Except Refusal (Expr × List Token) := do
  let (condition, ts) ← read 0 ts
  let ts ← expect .rightBracket ts
  if startsWith .flatten ts then return (.projectWhere left .identity condition, ts)
  else
    let (right, ts) ← projected read Symbol.filter.power ts
    return (.projectWhere left right condition, ts)

/-- A position or a slice applied to what is on its left; a slice is projected onto. -/
def bracketed (left : Expr) (ts : List Token) : Except Refusal (Expr × List Token) := do
  let (right, ts) ← indexOrSlice ts
  match right with
  | .slice .. =>
    let (onto, ts) ← projected read Symbol.star.power ts
    return (.project (left.indexed right) onto, ts)
  | _ => return (left.indexed right, ts)

/-- The right side of a projection onto all items. -/
def everyItem (left : Expr) (ts : List Token) : Except Refusal (Expr × List Token) := do
  let (right, ts) ← projected read Symbol.star.power ts
  return (.project left right, ts)

/-! ### Operands and what follows them -/

/-- Whether a number or a colon comes next. -/
def startsPosition (ts : List Token) : Bool :=
  headKind ts == .number || startsWith .colon ts

/-- **An operand**: what a token that nothing stands before can start. -/
def leading (ts : List Token) : Except Refusal (Expr × List Token) :=
  match ts with
  | [] => .error .ended
  | t :: rest =>
    match t.lexeme with
    | .literal value => .ok (.literal value, rest)
    | .name name => .ok (.field name, rest)
    | .quoted name =>
      match rest with
      | next :: _ =>
        if next.kind = .symbol .leftParen then
          .error (.token t.start next.shown next.kind (some .quotedFunctionName))
        else .ok (.field name, rest)
      | [] => .ok (.field name, rest)
    | .symbol .star =>
      if startsWith .rightBracket rest then .ok (.projectValues .identity .identity, rest)
      else do
        let (right, rest) ← projected read Symbol.star.power rest
        return (.projectValues .identity right, rest)
    | .symbol .filter => filtered read .identity rest
    | .symbol .leftBrace => hashEntries read rest
    | .symbol .leftParen => do
      let (e, rest) ← read 0 rest
      let rest ← expect .rightParen rest
      return (e, rest)
    | .symbol .flatten => flattened read .identity rest
    | .symbol .not => do
      let (e, rest) ← read Symbol.not.power rest
      return (.not e, rest)
    | .symbol .leftBracket =>
      if startsPosition rest then bracketed read .identity rest
      else if startsWith .star rest && startsWith .rightBracket rest.tail then
        everyItem read .identity rest.tail.tail
      else listItems read rest
    | .symbol .current => .ok (.current, rest)
    | .symbol .reference => do
      let (e, rest) ← read Symbol.reference.power rest
      return (.reference e, rest)
    | _ => .error (refuse none ts)

/-- Whether a symbol can take the operand before it as its left side. -/
def canFollow : Symbol → Bool
  | .dot | .pipe | .or | .and | .leftParen | .filter | .comparison _ | .flatten
  | .leftBracket => true
  | _ => false

/-- A binary operator and its right side. -/
def binary (make : Expr → Expr → Expr) (power : Nat) (left : Expr) (ts : List Token) :
    Except Refusal (Expr × List Token) := do
  let (right, ts) ← read power ts
  return (make left right, ts)

/-- **What a symbol makes of the operand on its left.** The operand was read from `whole`,
and the symbol is the first of `ts`. -/
def following (s : Symbol) (whole : List Token) (left : Expr) (ts : List Token) :
    Except Refusal (Expr × List Token) :=
  let rest := ts.tail
  match s with
  | .dot =>
    if startsWith .star rest then do
      let (right, rest) ← projected read s.power rest.tail
      return (.projectValues left right, rest)
    else do
      let (right, rest) ← afterDot read s.power rest
      return (left.dotted right, rest)
  | .pipe => binary read .pipe s.power left rest
  | .or => binary read .or s.power left rest
  | .and => binary read .and s.power left rest
  | .comparison op => binary read (.compare op) s.power left rest
  | .leftParen =>
    match left with
    | .field name => do
      let (args, rest) ← arguments read rest
      return (.call name args, rest)
    | _ =>
      match tokenBefore whole ts with
      | some t => .error (.token t.start t.shown t.kind (some (.notFunctionName t.shown)))
      | none => .error (refuse none ts)
  | .filter => filtered read left rest
  | .flatten => flattened read left rest
  | .leftBracket =>
    if startsPosition rest then bracketed read left rest
    else do
      let rest ← expect .star rest
      let rest ← expect .rightBracket rest
      everyItem read left rest
  | _ => .error (refuse none ts)

end Parts

/-! ### The knot -/

mutual

/-- **An expression** that may nest a given number of levels: an operand, and all the
symbols behind it that bind more tightly than `power`. -/
def expression : Nat → Nat → List Token → Except Refusal (Expr × List Token)
  | 0, _, ts => .error (refuse (some .tooDeep) ts)
  | levels + 1, power, ts =>
    match leading (expression levels) ts with
    | .error r => .error r
    | .ok (left, rest) => climb levels power ts left rest

/-- The symbols behind an operand that bind more tightly than `power`, each of which takes
a level. The operand was read from `whole`. -/
def climb : Nat → Nat → List Token → Expr → List Token → Except Refusal (Expr × List Token)
  | levels, power, whole, left, ts =>
    match headKind ts with
    | .symbol s =>
      if power < s.power then
        if canFollow s then
          match levels with
          | 0 => .error (refuse (some .tooDeep) ts)
          | levels + 1 =>
            match following (expression levels) s whole left ts with
            | .error r => .error r
            | .ok (larger, rest) => climb levels power whole larger rest
        else .error (refuse none ts)
      else .ok (left, ts)
    | _ => .ok (left, ts)

end

end Grammar

/-- **The expression that some tokens are the text of**, if no token is left behind it. -/
def Expr.ofTokens (ts : List Token) : Except Grammar.Refusal Expr :=
  match Grammar.expression Grammar.maxNesting 0 ts with
  | .error r => .error r
  | .ok (e, []) => .ok e
  | .ok (_, rest) => .error (Grammar.refuse none rest)

end JsonQuery
