import JsonQuery.Proofs.Compilation

/-!
# Nothing is lost, doubled or moved

What a query says apart from its symbols are names, literal values, numbers and at signs,
its **leaves** (`JsonQuery.Leaf`). They can be read off the text, lexeme by lexeme
(`JsonQuery.leavesOf`), and off the expression, from left to right
(`JsonQuery.Expr.leaves`). The two agree for every query that compiles.

The order of the text is the order of the children with one exception, the condition of a
projection, which stands between its left and its right side. The invariant that carries
the proof is about a part of an expression and the operand on its left: the leaves of that
operand, which were read before, and those of the lexemes that follow are together the
leaves of what the part yields and of the lexemes behind it
(`JsonQuery.Grammar.Derivable.leaves_eq`).
-/

namespace JsonQuery

open Token (Lexeme)

/-- What an expression says at its **leaves**. -/
inductive Leaf where
  /-- A name, of a field, of a function or of an entry. -/
  | name (text : String)
  /-- A literal value. -/
  | literal (value : Json)
  /-- A number, a position or a bound of a slice. -/
  | number (n : Int)
  /-- An at sign. -/
  | current

/-- The leaf that a lexeme is, if it is one. -/
def Token.Lexeme.leaf? : Lexeme → Option Leaf
  | .name text => some (.name text)
  | .quoted text => some (.name text)
  | .literal value => some (.literal value)
  | .number n => some (.number n)
  | .symbol .current => some .current
  | .symbol _ => none

/-- The leaves among some lexemes, in their order. -/
def leavesOf (ls : List Lexeme) : List Leaf :=
  ls.filterMap Lexeme.leaf?

namespace Expr

mutual

/-- **The leaves of an expression** from left to right. The name of a function comes before
its arguments, a key before its value and a condition before the right side of its
projection; of a slice there are the bounds that are given. -/
def leaves : Expr → List Leaf
  | identity => []
  | current => [.current]
  | field name => [.name name]
  | literal value => [.literal value]
  | path steps => leavesAll steps
  | indexing steps => leavesAll steps
  | index n => [.number n]
  | slice start stop step => (start.toList ++ stop.toList ++ step.toList).map .number
  | pipe l r => leaves l ++ leaves r
  | compare _ l r => leaves l ++ leaves r
  | or l r => leaves l ++ leaves r
  | and l r => leaves l ++ leaves r
  | not e => leaves e
  | flatten e => leaves e
  | project l r => leaves l ++ leaves r
  | projectValues l r => leaves l ++ leaves r
  | projectWhere l r c => leaves l ++ leaves c ++ leaves r
  | list items => leavesAll items
  | hash entries => leavesEntries entries
  | call name args => .name name :: leavesAll args
  | reference e => leaves e

/-- The leaves of some expressions. -/
def leavesAll : List Expr → List Leaf
  | [] => []
  | e :: es => leaves e ++ leavesAll es

/-- The leaves of some keyed expressions. -/
def leavesEntries : List (String × Expr) → List Leaf
  | [] => []
  | (key, e) :: es => .name key :: leaves e ++ leavesEntries es

end

theorem leavesAll_append (es es' : List Expr) :
    leavesAll (es ++ es') = leavesAll es ++ leavesAll es' := by
  induction es with
  | nil => rfl
  | cons e es ih => rw [List.cons_append, leavesAll, leavesAll, ih, List.append_assoc]

@[simp] theorem leaves_dotted (left right : Expr) :
    (left.dotted right).leaves = left.leaves ++ right.leaves := by
  unfold dotted
  split <;> simp [leaves, leavesAll, leavesAll_append]

@[simp] theorem leaves_indexed (left right : Expr) :
    (left.indexed right).leaves = left.leaves ++ right.leaves := by
  unfold indexed
  split <;> simp [leaves, leavesAll, leavesAll_append]

end Expr

/-! ### Leaves of lexemes -/

@[simp] theorem leavesOf_nil : leavesOf [] = [] := rfl

@[simp] theorem leavesOf_name (text : String) (ls : List Lexeme) :
    leavesOf (.name text :: ls) = .name text :: leavesOf ls := rfl

@[simp] theorem leavesOf_quoted (text : String) (ls : List Lexeme) :
    leavesOf (.quoted text :: ls) = .name text :: leavesOf ls := rfl

@[simp] theorem leavesOf_literal (value : Json) (ls : List Lexeme) :
    leavesOf (.literal value :: ls) = .literal value :: leavesOf ls := rfl

@[simp] theorem leavesOf_number (n : Int) (ls : List Lexeme) :
    leavesOf (.number n :: ls) = .number n :: leavesOf ls := rfl

@[simp] theorem leavesOf_current (ls : List Lexeme) :
    leavesOf (.symbol .current :: ls) = .current :: leavesOf ls := rfl

@[simp] theorem leavesOf_symbol {s : Symbol} (hs : s ≠ .current) (ls : List Lexeme) :
    leavesOf (.symbol s :: ls) = leavesOf ls := by
  cases s <;> first
    | rfl
    | exact absurd rfl hs

theorem leavesOf_lexemes (ts : List Token) :
    leavesOf (Grammar.lexemes ts) = ts.filterMap fun t => t.lexeme.leaf? := by
  rw [leavesOf, Grammar.lexemes, List.filterMap_map]
  rfl

theorem leavesOf_withBound (b : Option Int) (ls : List Lexeme) :
    leavesOf (Grammar.withBound b ls) = b.toList.map .number ++ leavesOf ls := by
  cases b <;> rfl

/-- The leaves of a slice are its bounds. -/
theorem leavesOf_sliceText (start stop : Option Int) (step : Option (Option Int))
    (rest : List Lexeme) : leavesOf (Grammar.sliceText start stop step rest) =
      (Expr.slice start stop step.join).leaves ++ leavesOf rest := by
  cases step <;> simp [Grammar.sliceText, leavesOf_withBound, Expr.leaves]

namespace Grammar

/-! ### Leaves of readings -/

/-- The leaves of the operand that a part is told about. -/
def Part.leavesBefore : Part → List Leaf
  | .climb _ left _ | .step _ left _ | .filtered left _ | .bracketed left _ => left.leaves
  | _ => []

/-- The leaves of what a part yields. -/
def Part.leaves : Part → List Leaf
  | .expression _ e | .operand e | .climb _ _ e | .step _ _ e | .projected _ e | .afterDot _ e
  | .filtered _ e | .bracketed _ e => e.leaves
  | .items es | .arguments es => Expr.leavesAll es
  | .entries es => Expr.leavesEntries es

/-- **A reading moves leaves from the lexemes to the expression**, and keeps their order. -/
theorem Derivable.leaves_eq {r : Reading} (h : Derivable r) :
    r.part.leavesBefore ++ leavesOf r.before = r.part.leaves ++ leavesOf r.after := by
  induction h with
  | rule hr _ ih =>
    cases hr with
    | literal | name | quoted | current | stop | unprojected | index | noArgument =>
      simp [Part.leavesBefore, Part.leaves, Expr.leaves, Expr.leavesAll]
    | expression =>
      rw [List.forall_mem_cons, List.forall_mem_singleton] at ih
      exact ih.1.trans ih.2
    | @climb _ _ s _ _ _ _ _ _ hp =>
      rw [List.forall_mem_cons, List.forall_mem_singleton] at ih
      have hs : s ≠ .current := by
        rintro rfl
        exact Nat.not_lt_zero _ hp
      simp only [leavesOf_symbol hs]
      exact ih.1.trans ih.2
    | slice =>
      rw [List.forall_mem_singleton] at ih
      simp only [Part.leavesBefore, Part.leaves, List.nil_append] at ih
      simp [Part.leavesBefore, Part.leaves, leavesOf_sliceText, ih, Expr.leaves]
    | filtered =>
      -- the condition is read before the right side, and so it comes first
      rw [List.forall_mem_cons, List.forall_mem_singleton] at ih
      obtain ⟨hcondition, hright⟩ := ih
      simp only [Part.leavesBefore, Part.leaves, List.nil_append] at hcondition hright ⊢
      rw [hcondition, leavesOf_symbol (by decide), hright]
      simp [Expr.leaves]
    | item | argument =>
      rw [List.forall_mem_cons, List.forall_mem_singleton] at ih
      obtain ⟨hfirst, hmore⟩ := ih
      simp only [Part.leavesBefore, Part.leaves, List.nil_append] at hfirst hmore ⊢
      rw [hfirst, leavesOf_symbol (by decide), hmore]
      simp [Expr.leavesAll]
    | lastEntry hk =>
      rw [List.forall_mem_singleton] at ih
      simp only [Part.leavesBefore, Part.leaves, List.nil_append] at ih ⊢
      rcases hk with rfl | rfl <;> simp [Expr.leavesEntries, ih]
    | entry hk =>
      rw [List.forall_mem_cons, List.forall_mem_singleton] at ih
      obtain ⟨hfirst, hmore⟩ := ih
      simp only [Part.leavesBefore, Part.leaves, List.nil_append] at hfirst hmore ⊢
      rcases hk with rfl | rfl <;> simp [Expr.leavesEntries, hfirst, hmore]
    | _ =>
      -- one premise, behind symbols that are no leaves
      rw [List.forall_mem_singleton] at ih
      simpa [Part.leavesBefore, Part.leaves, Expr.leaves, Expr.leavesAll] using ih

end Grammar

/-- **The leaves of a query are those of its text**, in the same order. -/
theorem Query.leaves_eq_of_compile {text : String} {q : Query} (h : Query.compile text = .ok q) :
    q.expr.leaves = (Scan.ofChars text.toList).tokens.filterMap fun t => t.lexeme.leaf? := by
  obtain ⟨rfl, hd⟩ := Query.derivable_reading h
  have hleaves := hd.leaves_eq
  simp only [Query.reading, Grammar.Part.leavesBefore, Grammar.Part.leaves, List.nil_append,
    leavesOf_nil, List.append_nil] at hleaves
  rw [← hleaves, leavesOf_lexemes]

/-- A query with a projection, a condition and a call. -/
theorem Query.leaves_of_filtered_call :
    ∃ q, Query.compile "a[?b].max(@, 'c')" = .ok q ∧
      q.expr.leaves =
        [.name "a", .name "b", .name "max", .current, .literal (.string "c")] := by
  obtain ⟨q, hq⟩ := Query.exists_of_isOk
    (show (Query.compile "a[?b].max(@, 'c')").isOk = true by decide +kernel)
  have htext : "a[?b].max(@, 'c')".toList = ['a', '[', '?', 'b', ']', '.', 'm', 'a', 'x', '(',
      '@', ',', ' ', '\'', 'c', '\'', ')'] := by decide
  have hsplits : Scan.Splits "a[?b].max(@, 'c')".toList
      [.name "a", .symbol .filter, .name "b", .symbol .rightBracket, .symbol .dot, .name "max",
        .symbol .leftParen, .symbol .current, .symbol .comma, .literal (.string "c"),
        .symbol .rightParen] := by
    rw [htext]
    exact .lexeme rfl rfl <| .lexeme rfl rfl <| .lexeme rfl rfl <| .lexeme rfl rfl <|
      .lexeme rfl rfl <| .lexeme rfl rfl <| .lexeme rfl rfl <| .lexeme rfl rfl <|
      .lexeme rfl rfl <| .space rfl <| .lexeme rfl rfl <| .lexeme rfl rfl .nil
  refine ⟨q, hq, ?_⟩
  rw [Query.leaves_eq_of_compile hq, ← leavesOf_lexemes, Scan.lexemes_tokens_of_splits hsplits]
  rfl

end JsonQuery
