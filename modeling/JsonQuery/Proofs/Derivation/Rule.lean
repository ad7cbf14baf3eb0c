import JsonQuery.Expr.Grammar

/-!
# The grammar as a system of rules

The functions of `JsonQuery.Expr.Grammar` say how an expression is read. This file says
*what* they read, as a system of rules, so that a fact about every expression that can be
read is proved by one case for each rule and never by following the functions.

A **reading** (`JsonQuery.Grammar.Reading`) is a claim of the kind “from these lexemes up
to those, there stands this part of an expression, and so many levels are enough for it”.
Parts come in the shapes of the functions: an expression of a power, an operand, the
symbols behind an operand, the right side of a projection, and so on
(`JsonQuery.Grammar.Part`). Positions in the text play no role, so a reading is about
lexemes and not about tokens.

A **rule** (`JsonQuery.Grammar.Rule`) derives a reading from other readings, its
*premises*, which it lists. Keeping the premises in a list instead of in a recursive
definition is what allows to talk about the derivation itself: a reading is derivable if
some rule derives it from derivable ones (`JsonQuery.Grammar.Derivable`), and it *occurs*
in a derivation if one can get to it from premise to premise
(`JsonQuery.Grammar.Occurs`).

That the rules are those of the functions is proved elsewhere: whatever the functions
accept is derivable, and whatever is derivable they accept if they are given enough
levels.
-/

namespace JsonQuery

open Token (Lexeme Kind)

namespace Grammar

/-! ### Lexemes -/

/-- The kind of the first of some lexemes. -/
def front : List Lexeme → Kind
  | [] => .ended
  | l :: _ => l.kind

@[simp] theorem front_nil : front [] = .ended := rfl

@[simp] theorem front_cons (l : Lexeme) (ls : List Lexeme) : front (l :: ls) = l.kind := rfl

@[simp] theorem kind_symbol (s : Symbol) : (Lexeme.symbol s).kind = .symbol s := rfl

theorem kind_eq_symbol_iff {l : Lexeme} {s : Symbol} : l.kind = .symbol s ↔ l = .symbol s := by
  cases l <;> simp [Lexeme.kind]

/-- The lexemes of some tokens. -/
def lexemes (ts : List Token) : List Lexeme :=
  ts.map Token.lexeme

@[simp] theorem lexemes_nil : lexemes [] = [] := rfl

@[simp] theorem lexemes_cons (t : Token) (ts : List Token) :
    lexemes (t :: ts) = t.lexeme :: lexemes ts := rfl

theorem headKind_eq_front (ts : List Token) : headKind ts = front (lexemes ts) := by
  cases ts <;> rfl

/-- A bound of a slice in front of some lexemes; a bound that is not given leaves no
lexeme. -/
def withBound : Option Int → List Lexeme → List Lexeme
  | none, ls => ls
  | some n, ls => .number n :: ls

/-- The lexemes of a slice behind its opening bracket. The step is left out either alone
or together with the colon before it. -/
def sliceText (start stop : Option Int) (step : Option (Option Int)) (rest : List Lexeme) :
    List Lexeme :=
  let closed := .symbol .rightBracket :: rest
  let stepped := step.elim closed fun bound => .symbol .colon :: withBound bound closed
  withBound start (.symbol .colon :: withBound stop stepped)

/-! ### Readings -/

/-- The **forms of a projection**, by what is written before its right side. -/
inductive Form where
  /-- A star between brackets. -/
  | items
  /-- A star with no operand before it. -/
  | values
  /-- A star behind a dot. -/
  | fieldValues
  /-- An empty pair of brackets. -/
  | flattened
  /-- A slice. -/
  | slice
  /-- A condition between the brackets of a filter. -/
  | filter
  deriving DecidableEq, Repr

/-- The power that the right side of a projection is read with. -/
def Form.power : Form → Nat
  | items | values | slice => Symbol.star.power
  | fieldValues => Symbol.dot.power
  | flattened => Symbol.flatten.power
  | filter => Symbol.filter.power

/-- The **parts** of expressions that have a reader of their own, with what each reader
yields and what it is told about the operand on the left. -/
inductive Part where
  /-- An expression, read with a power. -/
  | expression (power : Nat) (e : Expr)
  /-- An operand. -/
  | operand (e : Expr)
  /-- The symbols behind an operand that bind more tightly than a power. -/
  | climb (power : Nat) (left e : Expr)
  /-- What stands behind a symbol that took an operand as its left side. -/
  | step (s : Symbol) (left e : Expr)
  /-- The right side of a projection. -/
  | projected (form : Form) (right : Expr)
  /-- What stands behind a dot. -/
  | afterDot (power : Nat) (e : Expr)
  /-- What stands behind the opening bracket of a filter, its right side included. -/
  | filtered (left e : Expr)
  /-- What stands behind a bracket that a position or a slice follows, the right side of a
  slice included. -/
  | bracketed (left e : Expr)
  /-- The items of a list, and the closing bracket. -/
  | items (es : List Expr)
  /-- The entries of a keyed list, and the closing brace. -/
  | entries (es : List (String × Expr))
  /-- The arguments of a call, and the closing parenthesis. -/
  | arguments (es : List Expr)

/-- A **reading**: that a part stands between two places, and that a number of levels is
enough to read it. -/
structure Reading where
  /-- How many levels there are. -/
  levels : Nat
  /-- What is read. -/
  part : Part
  /-- The lexemes from the beginning of the part on. -/
  before : List Lexeme
  /-- The lexemes behind the part. -/
  after : List Lexeme

/-! ### Rules -/

/-- **The rules of the grammar**: a reading, and the readings that it is derived from. -/
inductive Rule : Reading → List Reading → Prop
  /-- An operand, and the symbols behind it. -/
  | expression {L p : Nat} {left e : Expr} {ls mid rest : List Lexeme} :
      Rule ⟨L + 1, .expression p e, ls, rest⟩
        [⟨L, .operand left, ls, mid⟩, ⟨L, .climb p left e, mid, rest⟩]
  /-- A literal is an operand. -/
  | literal {L : Nat} {v : Json} {rest : List Lexeme} :
      Rule ⟨L, .operand (.literal v), .literal v :: rest, rest⟩ []
  /-- A name is an operand. -/
  | name {L : Nat} {name : String} {rest : List Lexeme} :
      Rule ⟨L, .operand (.field name), .name name :: rest, rest⟩ []
  /-- A quoted name is an operand unless it stands where the name of a function should. -/
  | quoted {L : Nat} {name : String} {rest : List Lexeme}
      (h : front rest ≠ .symbol .leftParen) :
      Rule ⟨L, .operand (.field name), .quoted name :: rest, rest⟩ []
  /-- An at sign is an operand. -/
  | current {L : Nat} {rest : List Lexeme} :
      Rule ⟨L, .operand .current, .symbol .current :: rest, rest⟩ []
  /-- A star that nothing stands before. -/
  | values {L : Nat} {right : Expr} {ls rest : List Lexeme} :
      Rule ⟨L, .operand (.projectValues .identity right), .symbol .star :: ls, rest⟩
        [⟨L, .projected .values right, ls, rest⟩]
  /-- A filter that nothing stands before. -/
  | filter {L : Nat} {e : Expr} {ls rest : List Lexeme} :
      Rule ⟨L, .operand e, .symbol .filter :: ls, rest⟩ [⟨L, .filtered .identity e, ls, rest⟩]
  /-- A keyed list. -/
  | hash {L : Nat} {es : List (String × Expr)} {ls rest : List Lexeme} :
      Rule ⟨L, .operand (.hash es), .symbol .leftBrace :: ls, rest⟩ [⟨L, .entries es, ls, rest⟩]
  /-- An expression between parentheses. -/
  | group {L : Nat} {e : Expr} {ls rest : List Lexeme} :
      Rule ⟨L, .operand e, .symbol .leftParen :: ls, rest⟩
        [⟨L, .expression 0 e, ls, .symbol .rightParen :: rest⟩]
  /-- An empty pair of brackets that nothing stands before. -/
  | flatten {L : Nat} {right : Expr} {ls rest : List Lexeme} :
      Rule ⟨L, .operand (.project (.flatten .identity) right), .symbol .flatten :: ls, rest⟩
        [⟨L, .projected .flattened right, ls, rest⟩]
  /-- A negation. -/
  | not {L : Nat} {e : Expr} {ls rest : List Lexeme} :
      Rule ⟨L, .operand (.not e), .symbol .not :: ls, rest⟩
        [⟨L, .expression Symbol.not.power e, ls, rest⟩]
  /-- A reference to an expression. -/
  | reference {L : Nat} {e : Expr} {ls rest : List Lexeme} :
      Rule ⟨L, .operand (.reference e), .symbol .reference :: ls, rest⟩
        [⟨L, .expression Symbol.reference.power e, ls, rest⟩]
  /-- A position or a slice that nothing stands before. -/
  | position {L : Nat} {e : Expr} {ls rest : List Lexeme} :
      Rule ⟨L, .operand e, .symbol .leftBracket :: ls, rest⟩
        [⟨L, .bracketed .identity e, ls, rest⟩]
  /-- A star between brackets that nothing stands before. -/
  | everyItem {L : Nat} {right : Expr} {ls rest : List Lexeme} :
      Rule ⟨L, .operand (.project .identity right),
          .symbol .leftBracket :: .symbol .star :: .symbol .rightBracket :: ls, rest⟩
        [⟨L, .projected .items right, ls, rest⟩]
  /-- A list; a star alone between brackets is none. -/
  | list {L : Nat} {es : List Expr} {ls rest : List Lexeme}
      (h : ∀ more, ls ≠ .symbol .star :: .symbol .rightBracket :: more) :
      Rule ⟨L, .operand (.list es), .symbol .leftBracket :: ls, rest⟩ [⟨L, .items es, ls, rest⟩]
  /-- Nothing more belongs to the operand. -/
  | stop {L p : Nat} {e : Expr} {rest : List Lexeme} (h : (front rest).power ≤ p) :
      Rule ⟨L, .climb p e e, rest, rest⟩ []
  /-- A symbol takes the operand as its left side. -/
  | climb {L p : Nat} {s : Symbol} {left larger e : Expr} {ls mid rest : List Lexeme}
      (h : p < s.power) :
      Rule ⟨L + 1, .climb p left e, .symbol s :: ls, rest⟩
        [⟨L, .step s left larger, ls, mid⟩, ⟨L, .climb p larger e, mid, rest⟩]
  /-- A star behind a dot. -/
  | dotStar {L : Nat} {left right : Expr} {ls rest : List Lexeme} :
      Rule ⟨L, .step .dot left (.projectValues left right), .symbol .star :: ls, rest⟩
        [⟨L, .projected .fieldValues right, ls, rest⟩]
  /-- A step behind a dot. -/
  | dot {L : Nat} {left right : Expr} {ls rest : List Lexeme}
      (h : front ls ≠ .symbol .star) :
      Rule ⟨L, .step .dot left (left.dotted right), ls, rest⟩
        [⟨L, .afterDot Symbol.dot.power right, ls, rest⟩]
  /-- A pipe. -/
  | pipe {L : Nat} {left right : Expr} {ls rest : List Lexeme} :
      Rule ⟨L, .step .pipe left (.pipe left right), ls, rest⟩
        [⟨L, .expression Symbol.pipe.power right, ls, rest⟩]
  /-- An alternative. -/
  | or {L : Nat} {left right : Expr} {ls rest : List Lexeme} :
      Rule ⟨L, .step .or left (.or left right), ls, rest⟩
        [⟨L, .expression Symbol.or.power right, ls, rest⟩]
  /-- A conjunction. -/
  | and {L : Nat} {left right : Expr} {ls rest : List Lexeme} :
      Rule ⟨L, .step .and left (.and left right), ls, rest⟩
        [⟨L, .expression Symbol.and.power right, ls, rest⟩]
  /-- A comparison. -/
  | compare {L : Nat} {op : Comparison} {left right : Expr} {ls rest : List Lexeme} :
      Rule ⟨L, .step (.comparison op) left (.compare op left right), ls, rest⟩
        [⟨L, .expression (Symbol.comparison op).power right, ls, rest⟩]
  /-- The call of a function. -/
  | call {L : Nat} {name : String} {args : List Expr} {ls rest : List Lexeme} :
      Rule ⟨L, .step .leftParen (.field name) (.call name args), ls, rest⟩
        [⟨L, .arguments args, ls, rest⟩]
  /-- A filter behind an operand. -/
  | filterOf {L : Nat} {left e : Expr} {ls rest : List Lexeme} :
      Rule ⟨L, .step .filter left e, ls, rest⟩ [⟨L, .filtered left e, ls, rest⟩]
  /-- An empty pair of brackets behind an operand. -/
  | flattenOf {L : Nat} {left right : Expr} {ls rest : List Lexeme} :
      Rule ⟨L, .step .flatten left (.project (.flatten left) right), ls, rest⟩
        [⟨L, .projected .flattened right, ls, rest⟩]
  /-- A position or a slice behind an operand. -/
  | positionOf {L : Nat} {left e : Expr} {ls rest : List Lexeme} :
      Rule ⟨L, .step .leftBracket left e, ls, rest⟩ [⟨L, .bracketed left e, ls, rest⟩]
  /-- A star between brackets behind an operand. -/
  | everyItemOf {L : Nat} {left right : Expr} {ls rest : List Lexeme} :
      Rule ⟨L, .step .leftBracket left (.project left right),
          .symbol .star :: .symbol .rightBracket :: ls, rest⟩
        [⟨L, .projected .items right, ls, rest⟩]
  /-- A projection whose right side is missing. -/
  | unprojected {L : Nat} {form : Form} {rest : List Lexeme}
      (h : (front rest).power < projectionStop) :
      Rule ⟨L, .projected form .identity, rest, rest⟩ []
  /-- A right side that starts with a bracket. -/
  | projectedBracket {L : Nat} {form : Form} {right : Expr} {ls rest : List Lexeme} :
      Rule ⟨L, .projected form right, .symbol .leftBracket :: ls, rest⟩
        [⟨L, .expression form.power right, .symbol .leftBracket :: ls, rest⟩]
  /-- A right side that starts with a filter. -/
  | projectedFilter {L : Nat} {form : Form} {right : Expr} {ls rest : List Lexeme} :
      Rule ⟨L, .projected form right, .symbol .filter :: ls, rest⟩
        [⟨L, .expression form.power right, .symbol .filter :: ls, rest⟩]
  /-- A right side that starts with a dot. -/
  | projectedDot {L : Nat} {form : Form} {right : Expr} {ls rest : List Lexeme} :
      Rule ⟨L, .projected form right, .symbol .dot :: ls, rest⟩
        [⟨L, .afterDot form.power right, ls, rest⟩]
  /-- An expression that starts with a name or a star, behind a dot. -/
  | afterDot {L p : Nat} {e : Expr} {ls rest : List Lexeme}
      (h : front ls = .name ∨ front ls = .quoted ∨ front ls = .symbol .star) :
      Rule ⟨L, .afterDot p e, ls, rest⟩ [⟨L, .expression p e, ls, rest⟩]
  /-- A list behind a dot. -/
  | listAfterDot {L p : Nat} {es : List Expr} {ls rest : List Lexeme} :
      Rule ⟨L, .afterDot p (.list es), .symbol .leftBracket :: ls, rest⟩
        [⟨L, .items es, ls, rest⟩]
  /-- A keyed list behind a dot. -/
  | hashAfterDot {L p : Nat} {es : List (String × Expr)} {ls rest : List Lexeme} :
      Rule ⟨L, .afterDot p (.hash es), .symbol .leftBrace :: ls, rest⟩
        [⟨L, .entries es, ls, rest⟩]
  /-- A condition, and the right side of the projection. -/
  | filtered {L : Nat} {left right condition : Expr} {ls mid rest : List Lexeme} :
      Rule ⟨L, .filtered left (.projectWhere left right condition), ls, rest⟩
        [⟨L, .expression 0 condition, ls, .symbol .rightBracket :: mid⟩,
          ⟨L, .projected .filter right, mid, rest⟩]
  /-- A position. -/
  | index {L : Nat} {left : Expr} {n : Int} {rest : List Lexeme} :
      Rule ⟨L, .bracketed left (left.indexed (.index n)),
        .number n :: .symbol .rightBracket :: rest, rest⟩ []
  /-- A slice, and the right side of the projection. -/
  | slice {L : Nat} {left right : Expr} {start stop : Option Int} {step : Option (Option Int)}
      {mid rest : List Lexeme} :
      Rule ⟨L, .bracketed left (.project (left.indexed (.slice start stop step.join)) right),
          sliceText start stop step mid, rest⟩
        [⟨L, .projected .slice right, mid, rest⟩]
  /-- The last item of a list. -/
  | lastItem {L : Nat} {e : Expr} {ls rest : List Lexeme} :
      Rule ⟨L, .items [e], ls, rest⟩ [⟨L, .expression 0 e, ls, .symbol .rightBracket :: rest⟩]
  /-- An item of a list before others. -/
  | item {L : Nat} {e : Expr} {es : List Expr} {ls mid rest : List Lexeme} :
      Rule ⟨L, .items (e :: es), ls, rest⟩
        [⟨L, .expression 0 e, ls, .symbol .comma :: mid⟩, ⟨L, .items es, mid, rest⟩]
  /-- The last entry of a keyed list. -/
  | lastEntry {L : Nat} {key : String} {k : Lexeme} {e : Expr} {ls rest : List Lexeme}
      (h : k = .name key ∨ k = .quoted key) :
      Rule ⟨L, .entries [(key, e)], k :: .symbol .colon :: ls, rest⟩
        [⟨L, .expression 0 e, ls, .symbol .rightBrace :: rest⟩]
  /-- An entry of a keyed list before others. -/
  | entry {L : Nat} {key : String} {k : Lexeme} {e : Expr} {es : List (String × Expr)}
      {ls mid rest : List Lexeme} (h : k = .name key ∨ k = .quoted key) :
      Rule ⟨L, .entries ((key, e) :: es), k :: .symbol .colon :: ls, rest⟩
        [⟨L, .expression 0 e, ls, .symbol .comma :: mid⟩, ⟨L, .entries es, mid, rest⟩]
  /-- No more arguments. -/
  | noArgument {L : Nat} {rest : List Lexeme} :
      Rule ⟨L, .arguments [], .symbol .rightParen :: rest, rest⟩ []
  /-- The last argument of a call. -/
  | lastArgument {L : Nat} {e : Expr} {ls rest : List Lexeme} :
      Rule ⟨L, .arguments [e], ls, rest⟩
        [⟨L, .expression 0 e, ls, .symbol .rightParen :: rest⟩]
  /-- An argument of a call before a comma; there may be no other one behind the comma. -/
  | argument {L : Nat} {e : Expr} {es : List Expr} {ls mid rest : List Lexeme} :
      Rule ⟨L, .arguments (e :: es), ls, rest⟩
        [⟨L, .expression 0 e, ls, .symbol .comma :: mid⟩, ⟨L, .arguments es, mid, rest⟩]

/-! ### Derivations -/

/-- A reading is **derivable** if a rule derives it from derivable ones. -/
inductive Derivable : Reading → Prop
  /-- The application of a rule. -/
  | rule {r : Reading} {premises : List Reading} (hr : Rule r premises)
      (hpremises : ∀ q ∈ premises, Derivable q) : Derivable r

/-- A reading **occurs** in a derivation of another one if it is that one or occurs in the
derivation of a premise. -/
inductive Occurs (q : Reading) : Reading → Prop
  /-- The reading itself. -/
  | refl (h : Derivable q) : Occurs q q
  /-- A reading that occurs in a premise. -/
  | premise {r p : Reading} {premises : List Reading} (hr : Rule r premises)
      (hpremises : ∀ p ∈ premises, Derivable p) (hp : p ∈ premises) (h : Occurs q p) :
      Occurs q r

section Application

variable {r p q : Reading}

theorem Rule.derivable_nil (hr : Rule r []) : Derivable r :=
  .rule hr (by simp)

theorem Rule.derivable_singleton (hr : Rule r [p]) (hp : Derivable p) : Derivable r :=
  .rule hr (by simpa using hp)

theorem Rule.derivable_pair (hr : Rule r [p, q]) (hp : Derivable p) (hq : Derivable q) :
    Derivable r :=
  .rule hr (by simpa using ⟨hp, hq⟩)

end Application

/-- What occurs in a derivation is derivable itself. -/
theorem Occurs.derivable {q r : Reading} (h : Occurs q r) : Derivable q := by
  induction h with
  | refl h => exact h
  | premise _ _ _ _ ih => exact ih

theorem Occurs.derivable_whole {q r : Reading} (h : Occurs q r) : Derivable r := by
  cases h with
  | refl h => exact h
  | premise hr hpremises => exact .rule hr hpremises

section Occurrence

variable {r p q o : Reading}

theorem Rule.occurs_singleton (hr : Rule r [p]) (h : Occurs o p) : Occurs o r :=
  .premise hr (by simpa using h.derivable_whole) (List.mem_singleton_self p) h

theorem Rule.occurs_left (hr : Rule r [p, q]) (hp : Occurs o p) (hq : Derivable q) :
    Occurs o r :=
  .premise hr (by simpa using ⟨hp.derivable_whole, hq⟩) List.mem_cons_self hp

theorem Rule.occurs_right (hr : Rule r [p, q]) (hp : Derivable p) (hq : Occurs o q) :
    Occurs o r :=
  .premise hr (by simpa using ⟨hp, hq.derivable_whole⟩)
    (List.mem_cons_of_mem p (List.mem_singleton_self q)) hq

end Occurrence

end Grammar

end JsonQuery
