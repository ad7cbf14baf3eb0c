import JsonQuery.Expr.Grammar
import JsonQuery.Token.Scan

/-!
# Queries

A **query** is an expression with the text that it was read from, for every error that
evaluating it may meet is reported with that text. `JsonQuery.Query.compile` reads it. A
text of blanks alone is refused before anything else; then the text is split into tokens
to its end; then the tokens are read. So a character that cannot be part of any token is
reported even where the tokens before it make no sense.
-/

namespace JsonQuery

/-- An expression and its text. -/
structure Query where
  /-- The text that the expression was read from. -/
  text : String
  /-- The expression. -/
  expr : Expr

/-- A refusal as a fault in an expression of a given length. -/
def Grammar.Refusal.fault (length : Nat) : Grammar.Refusal → Fault
  | ended => .unfinished length
  | token position shown kind reason => .badSyntax position shown kind reason

namespace Query

/-- The tokens of a text, unless it is blank. -/
def scan (text : String) : Except Error Scan :=
  if text.toList.all Text.isBlank then .error .emptyExpression
  else .ok (Scan.ofChars text.toList)

/-- The expression that a scan holds. -/
def exprOfScan (scan : Scan) : Except Fault Expr :=
  match scan.ending with
  | .failed position shown => .error (.badToken position shown)
  | .finished length =>
    match Expr.ofTokens scan.tokens with
    | .ok e => .ok e
    | .error r => .error (r.fault length)

/-- **The query that a text holds.** -/
def compile (text : String) : Except Error Query := do
  let scan ← scan text
  match exprOfScan scan with
  | .ok e => return ⟨text, e⟩
  | .error f => .error (.fault f (some text))

end Query

end JsonQuery
