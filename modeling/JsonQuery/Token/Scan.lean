import JsonQuery.Token.Basic
import JsonQuery.Json.Reader

/-!
# Splitting an expression into tokens

`JsonQuery.Scan.ofChars` goes through an expression from left to right. Spaces are passed
over, and from any other character on `JsonQuery.Scan.lexeme?` takes the longest lexeme
that starts there, answering with the lexeme and its **width** in characters. The width
is all that the scan needs to know about it: the next token is looked for that many
characters on, so spans cannot overlap and cannot leave the text.

Three lexemes are written between delimiters, and share one way of finding their end
(`JsonQuery.Scan.delimited?`): a backslash takes the character behind it along, whatever
that is, and the first delimiter that is not taken along closes the lexeme. What the
characters in between mean is a second question. In a raw string only an escaped
delimiter is replaced (`JsonQuery.Scan.unescape`); in a literal the same is done and the
result is read as a JSON text; a quoted name is read as a JSON string.

A scan that meets a character from which no lexeme can be taken **fails** there and ends.
It tells the position of that character and shows what it could make nothing of.
-/

namespace JsonQuery

/-- How a scan ends. -/
inductive Scan.Ending where
  /-- The expression is used up; its length. -/
  | finished (length : Nat)
  /-- No lexeme can be taken from a position on; what stands there. -/
  | failed (position : Nat) (shown : String)
  deriving DecidableEq, Repr

/-- The tokens of an expression, and how the scan ended. -/
structure Scan where
  /-- The tokens, in order. -/
  tokens : List Token
  /-- What came after the last of them. -/
  ending : Scan.Ending
  deriving Repr

namespace Scan

/-! ### Names and numbers -/

/-- Whether a name may start with a character. -/
def isNameStart (c : Char) : Bool :=
  c.isAlpha || c == '_'

/-- Whether a name may go on with a character. -/
def isNamePart (c : Char) : Bool :=
  c.isAlphanum || c == '_'

/-- The number that digits under a sign stand for, if it fits sixty-four signed bits;
otherwise the text is shown. -/
def numberLexeme (negative : Bool) (digits : List Char) : Except String (Token.Lexeme × Nat) :=
  let text := if negative then '-' :: digits else digits
  let magnitude := numberOfDigits digits
  let n : Int := if negative then -magnitude else magnitude
  if Number.fitsSigned n then .ok (.number n, text.length) else .error (String.ofList text)

/-! ### Delimited lexemes -/

/-- The characters up to the first delimiter that no backslash takes along. -/
def delimited? (delimiter : Char) : List Char → Option (List Char)
  | [] => none
  | c :: rest =>
    if c = delimiter then some []
    else if c = '\\' then
      match rest with
      | [] => none
      | e :: rest => (delimited? delimiter rest).map fun body => c :: e :: body
    else (delimited? delimiter rest).map fun body => c :: body

/-- A text with every escaped delimiter replaced by the delimiter, from left to right. -/
def unescape (delimiter : Char) : List Char → List Char
  | [] => []
  | [c] => [c]
  | c :: e :: rest =>
    if c = '\\' ∧ e = delimiter then delimiter :: unescape delimiter rest
    else c :: unescape delimiter (e :: rest)

/-- A raw string, from behind its opening quotation mark on. -/
def rawString (rest : List Char) : Except String (Token.Lexeme × Nat) :=
  match delimited? '\'' rest with
  | none => .error (String.ofList ('\'' :: rest))
  | some body => .ok (.literal (.string (String.ofList (unescape '\'' body))), body.length + 2)

/-- A literal, from behind its opening backtick on. -/
def literal (rest : List Char) : Except String (Token.Lexeme × Nat) :=
  match delimited? '\x60' rest with
  | none => .error (String.ofList ('\x60' :: rest))
  | some body =>
    let text := unescape '\x60' body
    match Json.read text with
    | none => .error (String.ofList text)
    | some value => .ok (.literal value, body.length + 2)

/-- A quoted name, from behind its opening quotation mark on. -/
def quotedName (rest : List Char) : Except String (Token.Lexeme × Nat) :=
  match delimited? '"' rest with
  | none => .error (String.ofList ('"' :: rest))
  | some body =>
    let text := '"' :: (body ++ ['"'])
    match Json.readString text with
    | none => .error (String.ofList text)
    | some name => .ok (.quoted name, body.length + 2)

/-! ### Symbols -/

/-- The symbols that one character settles. -/
def single? (c : Char) : Option Symbol :=
  match c with
  | '.' => some .dot
  | '*' => some .star
  | ':' => some .colon
  | ']' => some .rightBracket
  | ',' => some .comma
  | '@' => some .current
  | '(' => some .leftParen
  | ')' => some .rightParen
  | '{' => some .leftBrace
  | '}' => some .rightBrace
  | _ => none

/-- A symbol of two characters if the second one follows, and of one otherwise. -/
def longer (second : Char) (long short : Symbol) (rest : List Char) : Token.Lexeme × Nat :=
  if rest.head? = some second then (.symbol long, 2) else (.symbol short, 1)

/-- The symbols that start with a character that is none by itself. -/
def symbolLexeme (c : Char) (rest : List Char) : Except String (Token.Lexeme × Nat) :=
  match c with
  | '[' =>
    if rest.head? = some ']' then .ok (.symbol .flatten, 2)
    else .ok (longer '?' .filter .leftBracket rest)
  | '|' => .ok (longer '|' .or .pipe rest)
  | '&' => .ok (longer '&' .and .reference rest)
  | '<' => .ok (longer '=' (.comparison .lte) (.comparison .lt) rest)
  | '>' => .ok (longer '=' (.comparison .gte) (.comparison .gt) rest)
  | '!' => .ok (longer '=' (.comparison .ne) .not rest)
  | '=' => if rest.head? = some '=' then .ok (.symbol (.comparison .eq), 2) else .error "="
  | c => .error (String.singleton c)

/-! ### Lexemes -/

/-- **The lexeme at the front of a text** and its width, or what stands there instead. The
first character is not a space. -/
def lexeme? (c : Char) (rest : List Char) : Except String (Token.Lexeme × Nat) :=
  match single? c with
  | some s => .ok (.symbol s, 1)
  | none =>
    if isNameStart c then
      let text := c :: rest.takeWhile isNamePart
      .ok (.name (String.ofList text), text.length)
    else if c.isDigit then numberLexeme false (c :: rest.takeWhile Char.isDigit)
    else if c = '-' then
      if (rest.takeWhile Char.isDigit).isEmpty then .error "-"
      else numberLexeme true (rest.takeWhile Char.isDigit)
    else if c = '\'' then rawString rest
    else if c = '\x60' then literal rest
    else if c = '"' then quotedName rest
    else symbolLexeme c rest

/-! ### The scan -/

/-- A scan with one more token in front. -/
def cons (t : Token) (scan : Scan) : Scan :=
  { scan with tokens := t :: scan.tokens }

/-- The scan of a text that starts at a given position. -/
def startingAt (position : Nat) (cs : List Char) : Scan :=
  match cs with
  | [] => ⟨[], .finished position⟩
  | c :: rest =>
    if Text.isSpace c then startingAt (position + 1) rest
    else
      match lexeme? c rest with
      | .error shown => ⟨[], .failed position shown⟩
      | .ok (lexeme, width) =>
        cons ⟨lexeme, position, position + width⟩
          (startingAt (position + width) (rest.drop (width - 1)))
termination_by cs.length
decreasing_by
  all_goals simp only [List.length_cons, List.length_drop]
  all_goals omega

/-- **The scan of an expression.** -/
def ofChars (cs : List Char) : Scan :=
  startingAt 0 cs

end Scan

end JsonQuery
