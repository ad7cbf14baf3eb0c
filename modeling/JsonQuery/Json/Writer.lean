import JsonQuery.Json.Basic
import JsonQuery.Number.Layout
import JsonQuery.Number.Shortest

/-!
# Writing values

A value has one **compact** text, without any space (`JsonQuery.Json.compact`), and one
**indented** text, a line to each item and two spaces to each level
(`JsonQuery.Json.indented`); an empty array or object stays on its line in both. Keys are
written in their order, integers in decimal, and a double with the fewest digits that
read back as it, laid out by `JsonQuery.Json.layout`.

In a string only what has to be escaped is: the quotation mark, the backslash and the
control characters below the space, five of which have a letter of their own.
-/

namespace JsonQuery.Json

/-- Numbers are written out as long as their leading digit counts a power of ten from
`-5` to `15`. -/
def layout : Layout :=
  ⟨-5, 15⟩

/-- A number as it is written. -/
def numberText : Number → List Char
  | .int n => if n < 0 then '-' :: Nat.toDigits 10 n.natAbs else Nat.toDigits 10 n.natAbs
  | .float x => layout.text x.shortest

/-- A character as it is written inside a string. -/
def escape (c : Char) : List Char :=
  if c = '"' then ['\\', '"']
  else if c = '\\' then ['\\', '\\']
  else if c = '\x08' then ['\\', 'b']
  else if c = '\t' then ['\\', 't']
  else if c = '\n' then ['\\', 'n']
  else if c = '\x0c' then ['\\', 'f']
  else if c = '\r' then ['\\', 'r']
  else if c.toNat < 0x20 then
    ['\\', 'u', '0', '0', Nat.digitChar (c.toNat / 16), Nat.digitChar (c.toNat % 16)]
  else [c]

/-- A string as it is written, between its quotation marks. -/
def quoted (text : String) : List Char :=
  '"' :: (text.toList.flatMap escape ++ ['"'])

mutual

/-- The text of a value without any space. -/
def compact : Json → List Char
  | null => ['n', 'u', 'l', 'l']
  | bool true => ['t', 'r', 'u', 'e']
  | bool false => ['f', 'a', 'l', 's', 'e']
  | number n => numberText n
  | string text => quoted text
  | array items => '[' :: (compactItems items ++ [']'])
  | object entries => '{' :: (compactEntries entries ++ ['}'])

/-- Some values without any space, a comma between two of them. -/
def compactItems : List Json → List Char
  | [] => []
  | [item] => compact item
  | item :: rest => compact item ++ ',' :: compactItems rest

/-- Some entries without any space, a comma between two of them. -/
def compactEntries : List (String × Json) → List Char
  | [] => []
  | [(key, value)] => quoted key ++ ':' :: compact value
  | (key, value) :: rest => quoted key ++ ':' :: (compact value ++ ',' :: compactEntries rest)

end

/-- A line break and the spaces of a level. -/
def newline (level : Nat) : List Char :=
  '\n' :: List.replicate (2 * level) ' '

mutual

/-- The text of a value with a line to each item, from a given level on. -/
def indentedAt (level : Nat) : Json → List Char
  | array [] => ['[', ']']
  | object [] => ['{', '}']
  | array items => '[' :: (indentedItems (level + 1) items ++ newline level ++ [']'])
  | object entries => '{' :: (indentedEntries (level + 1) entries ++ newline level ++ ['}'])
  | value => compact value

/-- Some values, each on a line of its own. -/
def indentedItems (level : Nat) : List Json → List Char
  | [] => []
  | [item] => newline level ++ indentedAt level item
  | item :: rest => newline level ++ indentedAt level item ++ ',' :: indentedItems level rest

/-- Some entries, each on a line of its own. -/
def indentedEntries (level : Nat) : List (String × Json) → List Char
  | [] => []
  | [(key, value)] => newline level ++ quoted key ++ ':' :: ' ' :: indentedAt level value
  | (key, value) :: rest =>
    newline level ++ quoted key ++ ':' :: ' ' :: indentedAt level value ++
      ',' :: indentedEntries level rest

end

/-- The compact text of a value, as a string. -/
def text (value : Json) : String :=
  String.ofList value.compact

/-- The indented text of a value, as a string. -/
def indentedText (value : Json) : String :=
  String.ofList (indentedAt 0 value)

/-- A value as it is shown among words: a string without its quotation marks, anything
else by its compact text. -/
def shown : Json → String
  | string text => text
  | value => value.text

end JsonQuery.Json
