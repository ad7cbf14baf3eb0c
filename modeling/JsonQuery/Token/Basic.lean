import JsonQuery.Json.Writer

/-!
# Tokens

The words of an expression. A **lexeme** is what a word says: a name, a quoted name, a
literal value, a number, or one of the symbols of the language. A **token** is a lexeme
with its **span**, the positions of its first character and of the one behind its last,
counted in characters from the start of the expression.

What the grammar asks of a token is mostly its **kind**, the lexeme without what it
carries. Kinds have a name, which error messages show, and a **binding power**
(`JsonQuery.Token.Kind.power`): how tightly a token of this kind holds on to the operand
before it. The end of an expression is a kind without being a lexeme.
-/

namespace JsonQuery

/-- The six comparisons. -/
inductive Comparison where
  /-- Equal. -/
  | eq
  /-- Not equal. -/
  | ne
  /-- Less than. -/
  | lt
  /-- At most. -/
  | lte
  /-- Greater than. -/
  | gt
  /-- At least. -/
  | gte
  deriving DecidableEq, Repr

namespace Comparison

/-- The name of a comparison. -/
def name : Comparison → String
  | eq => "eq"
  | ne => "ne"
  | lt => "lt"
  | lte => "lte"
  | gt => "gt"
  | gte => "gte"

/-- A comparison as it is written. -/
def text : Comparison → String
  | eq => "=="
  | ne => "!="
  | lt => "<"
  | lte => "<="
  | gt => ">"
  | gte => ">="

end Comparison

/-- The **symbols** of the language. -/
inductive Symbol where
  /-- A closing bracket. -/
  | rightBracket
  /-- A closing parenthesis. -/
  | rightParen
  /-- A comma. -/
  | comma
  /-- A closing brace. -/
  | rightBrace
  /-- An at sign: the value at hand. -/
  | current
  /-- An ampersand: an expression that is not evaluated yet. -/
  | reference
  /-- A colon. -/
  | colon
  /-- A bar. -/
  | pipe
  /-- Two bars. -/
  | or
  /-- Two ampersands. -/
  | and
  /-- A comparison sign. -/
  | comparison (op : Comparison)
  /-- An empty pair of brackets. -/
  | flatten
  /-- A star. -/
  | star
  /-- An opening bracket with a question mark. -/
  | filter
  /-- A dot. -/
  | dot
  /-- An exclamation mark. -/
  | not
  /-- An opening brace. -/
  | leftBrace
  /-- An opening bracket. -/
  | leftBracket
  /-- An opening parenthesis. -/
  | leftParen
  deriving DecidableEq, Repr

namespace Symbol

/-- The name of a symbol. -/
def name : Symbol → String
  | rightBracket => "rbracket"
  | rightParen => "rparen"
  | comma => "comma"
  | rightBrace => "rbrace"
  | current => "current"
  | reference => "expref"
  | colon => "colon"
  | pipe => "pipe"
  | or => "or"
  | and => "and"
  | comparison op => op.name
  | flatten => "flatten"
  | star => "star"
  | filter => "filter"
  | dot => "dot"
  | not => "not"
  | leftBrace => "lbrace"
  | leftBracket => "lbracket"
  | leftParen => "lparen"

/-- A symbol as it is written. -/
def text : Symbol → String
  | rightBracket => "]"
  | rightParen => ")"
  | comma => ","
  | rightBrace => "\x7d"
  | current => "@"
  | reference => "&"
  | colon => ":"
  | pipe => "|"
  | or => "||"
  | and => "&&"
  | comparison op => op.text
  | flatten => "[]"
  | star => "*"
  | filter => "[?"
  | dot => "."
  | not => "!"
  | leftBrace => "\x7b"
  | leftBracket => "["
  | leftParen => "("

/-- The **binding power** of a symbol: how tightly it holds on to the operand before it.
Symbols that cannot stand behind an operand have none. -/
def power : Symbol → Nat
  | rightBracket | rightParen | comma | rightBrace | current | reference | colon => 0
  | pipe => 1
  | or => 2
  | and => 3
  | comparison _ => 5
  | flatten => 9
  | star => 10
  | filter => 21
  | dot => 40
  | not => 45
  | leftBrace => 50
  | leftBracket => 55
  | leftParen => 60

end Symbol

namespace Token

/-- The **kind** of a token: a lexeme without what it carries, or the end of the
expression. -/
inductive Kind where
  /-- The end of the expression. -/
  | ended
  /-- A name. -/
  | name
  /-- A name between quotation marks. -/
  | quoted
  /-- A literal value. -/
  | literal
  /-- A number. -/
  | number
  /-- A symbol. -/
  | symbol (s : Symbol)
  deriving DecidableEq, Repr

namespace Kind

/-- The name of a kind. -/
def label : Kind → String
  | ended => "eof"
  | name => "unquoted_identifier"
  | quoted => "quoted_identifier"
  | literal => "literal"
  | number => "number"
  | symbol s => s.name

/-- The binding power of a kind; only symbols have any. -/
def power : Kind → Nat
  | symbol s => s.power
  | _ => 0

end Kind

/-- What a token says. -/
inductive Lexeme where
  /-- A name. -/
  | name (text : String)
  /-- A name between quotation marks, decoded. -/
  | quoted (text : String)
  /-- A literal value. -/
  | literal (value : Json)
  /-- A number. -/
  | number (n : Int)
  /-- A symbol. -/
  | symbol (s : Symbol)
  deriving Repr

namespace Lexeme

/-- The kind of a lexeme. -/
def kind : Lexeme → Kind
  | name _ => .name
  | quoted _ => .quoted
  | literal _ => .literal
  | number _ => .number
  | symbol s => .symbol s

/-- What a lexeme carries, as a value; a symbol carries its own text. -/
def value : Lexeme → Json
  | name text => .string text
  | quoted text => .string text
  | literal value => value
  | number n => .int n
  | symbol s => .string s.text

end Lexeme

end Token

/-- A **token**: a lexeme and its span. -/
structure Token where
  /-- What the token says. -/
  lexeme : Token.Lexeme
  /-- The position of its first character. -/
  start : Nat
  /-- The position behind its last character. -/
  stop : Nat
  deriving Repr

namespace Token

/-- The kind of a token. -/
def kind (t : Token) : Kind :=
  t.lexeme.kind

/-- A token as error messages show it. -/
def shown (t : Token) : String :=
  t.lexeme.value.shown

end Token

end JsonQuery
