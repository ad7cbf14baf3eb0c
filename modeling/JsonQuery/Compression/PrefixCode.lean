/-!
# Prefix codes

A **prefix code** gives symbols words of bits so that no word begins another; it is a binary
tree with the symbols at its leaves, and reading a symbol is walking down from the root. A
code is agreed on by the *lengths* of its words alone. The words are then fixed by the rule
that shorter words come before longer ones, and among words of one length smaller symbols
before larger ones, all in the order of binary numbers.

So the tree can be built from its deepest level upwards
(`JsonQuery.Compression.CodeTree.level`): the nodes of a level are first the leaves whose
words end there, and behind them the parents of the nodes one level below, which are paired
in order. The lengths are those of a code if one node is left at the top and the tree
has no gap. There are two exceptions. A code of a single symbol has a word of one bit, and
the other bit stands for nothing; a longer word would be of no use there, and it is refused.
And there may be no symbol at all, if none is ever read.
-/

namespace JsonQuery.Compression

/-- The tree of a prefix code. -/
inductive CodeTree where
  /-- No word begins like this. -/
  | gap
  /-- The end of the word of a symbol. -/
  | leaf (symbol : Nat)
  /-- Where a word goes on with either bit. -/
  | branch (zero one : CodeTree)
  deriving DecidableEq, Repr

namespace CodeTree

/-- Whether every sequence of bits begins with a word. -/
def isComplete : CodeTree → Bool
  | gap => false
  | leaf _ => true
  | branch zero one => zero.isComplete && one.isComplete

/-- The symbol whose word comes first, with the bits behind it. -/
def take? : CodeTree → List Bool → Option (Nat × List Bool)
  | gap, _ => none
  | leaf symbol, bits => some (symbol, bits)
  | branch _ _, [] => none
  | branch zero one, bit :: bits => if bit then one.take? bits else zero.take? bits

/-- The parents of some nodes. -/
def parents : List CodeTree → List CodeTree
  | [] => []
  | [last] => [branch last gap]
  | zero :: one :: rest => branch zero one :: parents rest

/-- The leaves for the words of a given length, if the lengths are listed by symbol. -/
def leaves (lengths : List Nat) (length : Nat) : List CodeTree :=
  (lengths.zipIdx.filter fun entry => entry.1 = length).map fun entry => leaf entry.2

/-- The nodes of a level, with a given number of levels below it. -/
def level (lengths : List Nat) (depth : Nat) : Nat → List CodeTree
  | 0 => leaves lengths depth
  | below + 1 => leaves lengths depth ++ parents (level lengths (depth + 1) below)

/-- The length of the longest words. -/
def maxLength : Nat := 15

/-- **The code whose words have given lengths**, listed by symbol; a symbol of length zero
has no word. -/
def ofLengths? (lengths : List Nat) : Option CodeTree :=
  match parents (level lengths 1 (maxLength - 1)) with
  | [] => some gap
  | [branch (leaf symbol) gap] => some (branch (leaf symbol) gap)
  | [root] => if root.isComplete then some root else none
  | _ => none

end CodeTree

end JsonQuery.Compression
