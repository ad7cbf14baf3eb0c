import JsonQuery.Token.Scan

/-!
# Handing out tokens one by one

The tokens of an expression need not be looked for all at once. A **cursor** stands in an
expression and hands out an **item** whenever it is asked, a token as long as there are
any and then, once, how it ended. After that it has **ended** and hands out nothing.

Asked again and again, a cursor at the start of an expression hands out what the scan of
the expression holds, one item after the other (`JsonQuery.Scan.Cursor.nth_start`).
-/

namespace JsonQuery

namespace Scan

/-- What is handed out at a time. -/
inductive Item where
  /-- A token. -/
  | token (t : Token)
  /-- There are no more tokens. -/
  | ending (e : Ending)
  deriving Repr

/-- What a scan holds: its tokens, and how it ended. -/
def items (scan : Scan) : List Item :=
  scan.tokens.map .token ++ [.ending scan.ending]

/-- A place in an expression. -/
structure Cursor where
  /-- The characters that are left. -/
  rest : List Char
  /-- The position of the first of them. -/
  position : Nat
  /-- Whether the last item was handed out. -/
  ended : Bool

namespace Cursor

/-- A cursor at the start of an expression. -/
def start (cs : List Char) : Cursor :=
  ⟨cs, 0, false⟩

/-- The item behind the spaces at a place, and the cursor behind it. -/
def item (position : Nat) : List Char → Item × Cursor
  | [] => (.ending (.finished position), ⟨[], position, true⟩)
  | c :: rest =>
    if Text.isSpace c then item (position + 1) rest
    else
      match lexeme? c rest with
      | .error shown => (.ending (.failed position shown), ⟨c :: rest, position, true⟩)
      | .ok (lexeme, width) =>
        (.token ⟨lexeme, position, position + width⟩,
          ⟨rest.drop (width - 1), position + width, false⟩)

/-- **The next item**, if there is one, and the cursor from then on. -/
def next (c : Cursor) : Option Item × Cursor :=
  if c.ended then (none, c) else (some (item c.position c.rest).1, (item c.position c.rest).2)

/-- What a cursor hands out when it is asked for the `n`-th time, counted from zero. -/
def nth : Nat → Cursor → Option Item
  | 0, c => c.next.1
  | n + 1, c => nth n c.next.2

theorem nth_of_ended (n : Nat) {c : Cursor} (h : c.ended = true) : c.nth n = none := by
  have hnext : c.next = (none, c) := if_pos h
  induction n with
  | zero => rw [nth, hnext]
  | succ n ih => rw [nth, hnext, ih]

theorem nth_congr {c d : Cursor} (h : c.next = d.next) (n : Nat) : c.nth n = d.nth n := by
  cases n <;> rw [nth, nth, h]

/-- After an ending nothing is handed out. -/
theorem nth_eq_of_ending {c d : Cursor} {e : Ending} (h : c.next = (some (.ending e), d))
    (hended : d.ended = true) (n : Nat) : c.nth n = [Item.ending e][n]? := by
  cases n with
  | zero => rw [nth, h]; rfl
  | succ n => rw [nth, h, nth_of_ended n hended]; rfl

/-- **A cursor hands out the items of a scan**, in order, and nothing after them. -/
theorem nth_eq_items (n position : Nat) (cs : List Char) :
    nth n ⟨cs, position, false⟩ = (startingAt position cs).items[n]? := by
  fun_induction startingAt position cs generalizing n with
  | case1 position => exact nth_eq_of_ending rfl rfl n
  | case2 position c rest hc ih =>
    rw [← ih]
    refine nth_congr ?_ n
    simp only [next, item, if_pos hc]
    rfl
  | case3 position c rest hc shown hl =>
    refine nth_eq_of_ending (d := ⟨c :: rest, position, true⟩) ?_ rfl n
    simp only [next, item, if_neg hc, hl]
    rfl
  | case4 position c rest hc lexeme width hl ih =>
    have hnext : next ⟨c :: rest, position, false⟩ =
        (some (.token ⟨lexeme, position, position + width⟩),
          ⟨rest.drop (width - 1), position + width, false⟩) := by
      simp only [next, item, if_neg hc, hl]
      rfl
    cases n with
    | zero => rw [nth, hnext]; rfl
    | succ n => rw [nth, hnext, ih]; rfl

/-- What a cursor at the start of an expression hands out. -/
theorem nth_start (n : Nat) (cs : List Char) : (start cs).nth n = (ofChars cs).items[n]? :=
  nth_eq_items n 0 cs

end Cursor

end Scan

end JsonQuery
