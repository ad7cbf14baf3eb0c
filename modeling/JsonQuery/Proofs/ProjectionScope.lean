import JsonQuery.Proofs.Chains
import JsonQuery.Proofs.Compilation
import JsonQuery.Query.Search

/-!
# Where the right side of a projection ends

The grammar means a projection to take as much as it can: its right side should end only
before a token whose power is below `JsonQuery.Grammar.projectionStop`. It does so in all
but three cases, which `JsonQuery.Grammar.Form.Omits` lists. The right side of a filter is
read with the power of a filter, and so it leaves the next filter out; the one of a star
behind a dot is read with the power of a dot, and so it leaves out the next dot as well as
the next filter; and a list behind a dot is taken as it is, whatever follows it. All other
tokens of high power are taken, or else the query does not compile.

That a query compiles is what makes the statement true, for a reading by itself may well
end before a star or a brace. Such a symbol **strays**
(`JsonQuery.Grammar.Reading.Strays`): nothing can be done with it behind an operand, and so
it is handed on from the right side of the projection to the part that this is the end of
(`JsonQuery.Grammar.Rule.strays`), and on and on up to the whole query, behind which there
is no symbol.

What this comes to for a row of identifiers behind a projection is part of the main
result, `JsonQuery.Query.projection_scope`: all of them are applied to each element,
except behind a dot and a star, where it is the first one alone.
-/

namespace JsonQuery

open Token (Lexeme Kind)

namespace Grammar

/-! ### Symbols that the right side leaves out -/

/-- **The symbols of high power that the right side of a projection leaves out**, by the
form of the projection and by what its right side starts with. -/
inductive Form.Omits : Form → List Lexeme → Kind → Prop
  /-- The right side of a filter leaves out a filter. -/
  | filter {before : List Lexeme} : Omits .filter before (.symbol .filter)
  /-- The right side of a star behind a dot leaves out a dot and a filter. -/
  | fieldValues {before : List Lexeme} {s : Symbol} (hs : s = .dot ∨ s = .filter) :
      Omits .fieldValues before (.symbol s)
  /-- A list behind a dot leaves out a dot, a filter and a bracket. -/
  | selection {form : Form} {opening s : Symbol} {before : List Lexeme}
      (hopening : opening = .leftBracket ∨ opening = .leftBrace)
      (hs : s = .dot ∨ s = .filter ∨ s = .leftBracket) :
      Omits form (.symbol .dot :: .symbol opening :: before) (.symbol s)

theorem Form.Omits.projectionStop_le {form : Form} {before : List Lexeme} {k : Kind}
    (h : form.Omits before k) : projectionStop ≤ k.power := by
  cases h with
  | filter => decide
  | fieldValues hs => rcases hs with rfl | rfl <;> decide
  | selection _ hs => rcases hs with rfl | rfl | rfl <;> decide

/-! ### Symbols that stray -/

/-- That a part yields a bare name, which the arguments of a call may follow. -/
def Part.YieldsName : Part → Prop
  | .operand e | .step _ _ e | .filtered _ e | .bracketed _ e => ∃ name, e = .field name
  | _ => False

/-- The symbols of high power that nothing can be done with behind an operand. An opening
parenthesis is one of them unless a bare name is on its left. -/
inductive Stray (named : Prop) : Kind → Prop
  | star : Stray named (.symbol .star)
  | not : Stray named (.symbol .not)
  | leftBrace : Stray named (.symbol .leftBrace)
  | leftParen (h : ¬named) : Stray named (.symbol .leftParen)

/-- That the symbol behind a part **strays**. -/
def Reading.Strays (r : Reading) : Prop :=
  Stray r.part.YieldsName (front r.after)

theorem Stray.imp {a b : Prop} {k : Kind} (h : Stray a k) (hba : b → a) : Stray b k := by
  cases h with
  | star => exact .star
  | not => exact .not
  | leftBrace => exact .leftBrace
  | leftParen ha => exact .leftParen fun hb => ha (hba hb)

/-- No symbol behind an operand is dealt with if it strays. -/
theorem Derivable.eq_of_stray {L p : Nat} {left e : Expr} {mid rest : List Lexeme}
    (h : Derivable ⟨L, .climb p left e, mid, rest⟩)
    (hstray : Stray (∃ name, left = .field name) (front mid)) : mid = rest := by
  obtain ⟨hr, hpremises⟩ := h
  cases hr with
  | stop => rfl
  | climb =>
    obtain ⟨⟨hstep, -⟩, -⟩ := List.forall_mem_cons.mp hpremises
    cases hstray with
    | leftParen hname =>
      cases hstep with
      | call => exact absurd ⟨_, rfl⟩ hname
    | _ => cases hstep

/-- **What strays behind a premise strays behind the conclusion**, at the very same
place. -/
theorem Rule.strays {r p : Reading} {premises : List Reading} (hr : Rule r premises)
    (hpremises : ∀ p ∈ premises, Derivable p) (hp : p ∈ premises) (h : p.Strays) :
    p.after = r.after ∧ r.Strays := by
  cases hr with
  | expression | climb =>
    -- what is read behind the first premise starts with the symbol that strays
    obtain ⟨-, hclimb⟩ := List.forall_mem_cons.mp hpremises
    rw [List.forall_mem_singleton] at hclimb
    rcases List.mem_cons.mp hp with rfl | hp
    · obtain rfl := hclimb.eq_of_stray h
      exact ⟨rfl, h.imp False.elim⟩
    · obtain rfl := List.mem_singleton.mp hp
      exact ⟨rfl, h⟩
  | filtered =>
    rcases List.mem_cons.mp hp with rfl | hp
    · cases h
    · obtain rfl := List.mem_singleton.mp hp
      exact ⟨rfl, h.imp nofun⟩
  | item | entry | argument =>
    rcases List.mem_cons.mp hp with rfl | hp
    · cases h
    · obtain rfl := List.mem_singleton.mp hp
      exact ⟨rfl, h⟩
  | group | lastItem | lastEntry | lastArgument =>
    -- the premise is closed by a symbol that does not stray
    obtain rfl := List.mem_singleton.mp hp
    cases h
  | filter | position | filterOf | positionOf =>
    obtain rfl := List.mem_singleton.mp hp
    exact ⟨rfl, h⟩
  | literal | name | quoted | current | stop | unprojected | index | noArgument =>
    exact absurd hp List.not_mem_nil
  | dot =>
    obtain rfl := List.mem_singleton.mp hp
    refine ⟨rfl, h.imp ?_⟩
    rintro ⟨name, hname⟩
    unfold Expr.dotted at hname
    split at hname <;> cases hname
  | _ =>
    obtain rfl := List.mem_singleton.mp hp
    exact ⟨rfl, h.imp nofun⟩

/-! ### Where right sides end -/

/-- The tokens of high power: those that stray, and the symbols that can follow any
operand. -/
theorem cases_of_projectionStop_le {k : Kind} (h : projectionStop ≤ k.power) :
    Stray False k ∨ ∃ s, k = .symbol s ∧ (s = .dot ∨ s = .filter ∨ s = .leftBracket) := by
  cases k with
  | symbol s =>
    cases s with
    | dot | filter | leftBracket => exact Or.inr ⟨_, rfl, by decide⟩
    | star => exact Or.inl .star
    | not => exact Or.inl .not
    | leftBrace => exact Or.inl .leftBrace
    | leftParen => exact Or.inl (.leftParen not_false)
    | _ => simp [Kind.power, Symbol.power, projectionStop] at h
  | _ => simp [Kind.power, projectionStop] at h

/-- An expression of the power of a form ends before symbols that the form leaves out. -/
theorem omits_of_power_le {form : Form} {before : List Lexeme} {s : Symbol}
    (hs : s = .dot ∨ s = .filter ∨ s = .leftBracket) (h : (Kind.symbol s).power ≤ form.power) :
    form.Omits before (.symbol s) := by
  rcases hs with rfl | rfl | rfl <;> cases form with
  | fieldValues =>
    first
      | exact .fieldValues (Or.inl rfl)
      | exact .fieldValues (Or.inr rfl)
      | exact absurd h (by decide)
  | filter =>
    first
      | exact .filter
      | exact absurd h (by decide)
  | _ => exact absurd h (by decide)

/-- A right side ends before a token of low power, before one that it leaves out or before
one that strays. -/
theorem Derivable.omits_or_strays {L : Nat} {form : Form} {right : Expr}
    {before after : List Lexeme} (h : Derivable ⟨L, .projected form right, before, after⟩)
    (hstop : projectionStop ≤ (front after).power) :
    form.Omits before (front after) ∨ Stray False (front after) := by
  rcases cases_of_projectionStop_le hstop with hstray | ⟨s, hafter, hs⟩
  · exact Or.inr hstray
  rw [hafter]
  refine Or.inl ?_
  obtain ⟨hr, hpremises⟩ := h
  cases hr with
  | unprojected hlow => exact absurd hstop (Nat.not_le.mpr hlow)
  | projectedBracket | projectedFilter =>
    rw [List.forall_mem_singleton] at hpremises
    exact omits_of_power_le hs (hafter ▸ hpremises.power_front_le)
  | projectedDot =>
    rw [List.forall_mem_singleton] at hpremises
    obtain ⟨hr, hpremises⟩ := hpremises
    cases hr with
    | afterDot =>
      rw [List.forall_mem_singleton] at hpremises
      exact omits_of_power_le hs (hafter ▸ hpremises.power_front_le)
    | listAfterDot => exact .selection (Or.inl rfl) hs
    | hashAfterDot => exact .selection (Or.inr rfl) hs

/-- **Wherever a projection occurs**, its right side ends before a token of low power or
before one that it leaves out, or else what is behind it strays to the end. -/
theorem Occurs.omits_or_strays {q r : Reading} (h : Occurs q r) {form : Form} {right : Expr}
    (hq : q.part = .projected form right) (hstop : projectionStop ≤ (front q.after).power) :
    form.Omits q.before (front q.after) ∨ q.after = r.after ∧ r.Strays := by
  induction h with
  | refl hd =>
    obtain ⟨L, part, before, after⟩ := q
    obtain rfl : part = .projected form right := hq
    exact (hd.omits_or_strays hstop).imp id fun hstray => ⟨rfl, hstray⟩
  | premise hr hpremises hp _ ih =>
    rcases ih with homits | ⟨hafter, hstrays⟩
    · exact Or.inl homits
    · obtain ⟨hafter', hstrays'⟩ := hr.strays hpremises hp hstrays
      exact Or.inr ⟨hafter.trans hafter', hstrays'⟩

/-! ### Rows of identifiers -/

/-- The lexemes of a **row of identifiers**, with a dot before each of them. -/
def row (ks : List Identifier) : List Lexeme :=
  ks.flatMap fun k => [.symbol .dot, k.lexeme]

/-- What a row of identifiers leads to. -/
def follow (ks : List Identifier) (v : Json) : Json :=
  ks.foldl (fun v k => Expr.fieldOf k.text v) v

/-- A row of identifiers behind an expression. -/
def dottedRow (ks : List Identifier) (left : Expr) : Expr :=
  ks.foldl (fun left k => left.dotted (.field k.text)) left

theorem Derivable.operand_identifier {L : Nat} {k : Identifier} {e : Expr}
    {ls rest : List Lexeme} (h : Derivable ⟨L, .operand e, k.lexeme :: ls, rest⟩) :
    e = .field k.text ∧ rest = ls := by
  obtain ⟨hr, -⟩ := h
  obtain ⟨quoted, text⟩ := k
  cases quoted <;> cases hr <;> exact ⟨rfl, rfl⟩

/-- An expression that starts with an identifier goes on behind it. -/
theorem Derivable.afterDot_identifier {L p : Nat} {k : Identifier} {e : Expr}
    {ls rest : List Lexeme} (h : Derivable ⟨L, .afterDot p e, k.lexeme :: ls, rest⟩) :
    ∃ K, Derivable ⟨K, .climb p (.field k.text) e, ls, rest⟩ := by
  have hexpression : Derivable ⟨L, .expression p e, k.lexeme :: ls, rest⟩ := by
    obtain ⟨hr, hpremises⟩ := h
    obtain ⟨quoted, text⟩ := k
    cases quoted <;> cases hr <;> exact hpremises _ (List.mem_singleton_self _)
  obtain ⟨K, left, mid, -, hleft, hclimb⟩ := hexpression.expression_cases
  obtain ⟨rfl, rfl⟩ := hleft.operand_identifier
  exact ⟨K, hclimb⟩

/-- A dot and an identifier behind an operand, read with a lower power than a dot. -/
theorem Derivable.climb_dot_identifier {L p : Nat} (hp : p < Symbol.dot.power) {k : Identifier}
    {left e : Expr} {ls rest : List Lexeme} (hls : (front ls).power ≤ Symbol.dot.power)
    (h : Derivable ⟨L, .climb p left e, .symbol .dot :: k.lexeme :: ls, rest⟩) :
    ∃ K, Derivable ⟨K, .climb p (left.dotted (.field k.text)) e, ls, rest⟩ := by
  obtain ⟨hr, hpremises⟩ := h
  cases hr with
  | stop hlow => exact absurd hlow (Nat.not_le.mpr hp)
  | @climb K _ _ _ larger _ _ mid =>
    obtain ⟨hstep, hmore⟩ := List.forall_mem_cons.mp hpremises
    rw [List.forall_mem_singleton] at hmore
    suffices hlarger : larger = left.dotted (.field k.text) ∧ mid = ls by
      obtain ⟨rfl, rfl⟩ := hlarger
      exact ⟨K, hmore⟩
    have hkind : k.lexeme.kind ≠ .symbol .star := by
      rcases k.lexeme_eq_or with h | h <;> rw [h] <;> exact nofun
    generalize hk : k.lexeme = l at hstep hkind
    obtain ⟨hr, hpremises⟩ := hstep
    cases hr with
    | dotStar => exact absurd rfl hkind
    | dot =>
      rw [List.forall_mem_singleton] at hpremises
      subst hk
      obtain ⟨_, hclimb⟩ := hpremises.afterDot_identifier
      obtain ⟨rfl, rfl⟩ := hclimb.climb_of_power_le hls
      exact ⟨rfl, rfl⟩

theorem power_front_row_le (ks : List Identifier) {rest : List Lexeme}
    (hrest : (front rest).power < projectionStop) :
    (front (row ks ++ rest)).power ≤ Symbol.dot.power := by
  cases ks with
  | nil => exact Nat.le_of_lt (Nat.lt_trans hrest (by decide))
  | cons => exact Nat.le_refl _

/-- **A row of identifiers is taken to its end** by an expression of a lower power than a
dot. -/
theorem Derivable.climb_row {p : Nat} (hp : p < Symbol.dot.power) {e : Expr}
    {rest after : List Lexeme} (hrest : (front rest).power < projectionStop)
    (hlow : (front rest).power ≤ p) {ks : List Identifier} {L : Nat} {left : Expr}
    (h : Derivable ⟨L, .climb p left e, row ks ++ rest, after⟩) :
    e = dottedRow ks left ∧ after = rest := by
  induction ks generalizing L left with
  | nil => exact h.climb_of_power_le hlow
  | cons k ks ih =>
    obtain ⟨_, hmore⟩ := h.climb_dot_identifier hp (power_front_row_le ks hrest)
    exact ih hmore

/-- The right side of a projection in front of a row of identifiers. -/
theorem Derivable.projected_row {L : Nat} {form : Form} {k : Identifier} {ks : List Identifier}
    {right : Expr} {rest after : List Lexeme} (hrest : (front rest).power < projectionStop)
    (h : Derivable ⟨L, .projected form right, row (k :: ks) ++ rest, after⟩) :
    (form ≠ .fieldValues → right = dottedRow ks (.field k.text) ∧ after = rest) ∧
      (form = .fieldValues → right = .field k.text ∧ after = row ks ++ rest) := by
  obtain ⟨K, hclimb⟩ : ∃ K, Derivable ⟨K, .climb form.power (.field k.text) right,
      row ks ++ rest, after⟩ := by
    obtain ⟨hr, hpremises⟩ := h
    cases hr with
    | unprojected hlow => exact absurd hlow (Nat.not_lt.mpr (show 10 ≤ 40 by decide))
    | projectedDot => exact (hpremises _ (List.mem_singleton_self _)).afterDot_identifier
  constructor
  · intro hform
    refine hclimb.climb_row ?_ hrest ?_
    · cases form with
      | fieldValues => exact absurd rfl hform
      | _ => decide
    · have hstop : projectionStop ≤ form.power + 1 := by cases form <;> decide
      omega
  · rintro rfl
    exact hclimb.climb_of_power_le (power_front_row_le ks hrest)

end Grammar

/-! ### What a row of identifiers evaluates to -/

namespace Expr

open Grammar (Identifier follow dottedRow)

variable (table : Registry)

theorem evaluate_dottedRow (ks : List Identifier) {left : Expr} {v w : Json}
    (h : evaluate table left v = .ok w) :
    evaluate table (dottedRow ks left) v = .ok (follow ks w) := by
  induction ks generalizing left w with
  | nil => exact h
  | cons k ks ih =>
    refine ih ?_
    rw [evaluate_dotted, h]
    rfl

end Expr

/-! ### The scope of a projection -/

namespace Grammar

/-- **How far the right side of a projection reaches.** -/
structure Scope (form : Form) (right : Expr) (before after : List Lexeme) : Prop where
  /-- It ends before a token of high power only if it leaves that token out. -/
  stop : projectionStop ≤ (front after).power ↔ form.Omits before (front after)
  /-- A row of identifiers is applied as a whole. -/
  takesRow (k : Identifier) (ks : List Identifier) (rest : List Lexeme)
    (hform : form ≠ .fieldValues) (hbefore : before = row (k :: ks) ++ rest)
    (hrest : (front rest).power < projectionStop) :
    after = rest ∧ ∀ table v, right.evaluate table v = .ok (follow (k :: ks) v)
  /-- Of a row of identifiers behind a dot and a star it is the first one that is applied. -/
  takesFirst (k : Identifier) (ks : List Identifier) (rest : List Lexeme)
    (hform : form = .fieldValues) (hbefore : before = row (k :: ks) ++ rest)
    (hrest : (front rest).power < projectionStop) :
    after = row ks ++ rest ∧ ∀ table v, right.evaluate table v = .ok (follow [k] v)

end Grammar

namespace Query

open Grammar (Scope Form Rule Derivable Occurs front lexemes projectionStop)

/-- **The scope of the projections of a query.** The right side of every projection in a
query that compiles ends before a token of low power or before one that its form leaves
out; and it takes a row of identifiers as a whole, except behind a dot and a star, where it
takes the first one. -/
theorem projection_scope {text : String} {q : Query} (h : compile text = .ok q) :
    Derivable q.reading ∧ ∀ {L form right before after},
      Occurs ⟨L, .projected form right, before, after⟩ q.reading →
        Scope form right before after := by
  obtain ⟨-, hd⟩ := derivable_reading h
  refine ⟨hd, fun {L form right before after} hoccurs => ?_⟩
  have hright := hoccurs.derivable
  constructor
  · refine ⟨fun hstop => ?_, Form.Omits.projectionStop_le⟩
    -- behind the query there is no symbol that could stray
    exact (hoccurs.omits_or_strays rfl hstop).resolve_right fun hstrays => nomatch hstrays.2
  · rintro k ks rest hform rfl hrest
    obtain ⟨rfl, hafter⟩ := (hright.projected_row hrest).1 hform
    exact ⟨hafter, fun table v => Expr.evaluate_dottedRow table ks rfl⟩
  · rintro k ks rest hform rfl hrest
    obtain ⟨rfl, hafter⟩ := (hright.projected_row hrest).2 hform
    exact ⟨hafter, fun table v => rfl⟩

/-! ### A right side that ends before a dot -/

/-- Two steps behind a dot and a star. -/
def stepsBehindValues : Query :=
  ⟨"a.*.b.c", .path [.projectValues (.field "a") (.field "b"), .field "c"]⟩

theorem splits_stepsBehindValues : Scan.Splits stepsBehindValues.text.toList
    [.name "a", .symbol .dot, .symbol .star, .symbol .dot, .name "b", .symbol .dot,
      .name "c"] := by
  have htext : stepsBehindValues.text.toList = ['a', '.', '*', '.', 'b', '.', 'c'] := by decide
  rw [htext]
  exact .lexeme rfl rfl <| .lexeme rfl rfl <| .lexeme rfl rfl <| .lexeme rfl rfl <|
    .lexeme rfl rfl <| .lexeme rfl rfl <| .lexeme rfl rfl .nil

/-- The first step is the whole right side of the projection. -/
theorem occurs_stepsBehindValues :
    Occurs ⟨126, .projected .fieldValues (.field "b"),
      [.symbol .dot, .name "b", .symbol .dot, .name "c"], [.symbol .dot, .name "c"]⟩
      stepsBehindValues.reading := by
  have hright : Derivable ⟨126, .projected .fieldValues (.field "b"),
      [.symbol .dot, .name "b", .symbol .dot, .name "c"], [.symbol .dot, .name "c"]⟩ :=
    Rule.projectedDot.derivable_singleton <|
      (Rule.afterDot (Or.inl rfl)).derivable_singleton <|
        Rule.expression.derivable_pair Rule.name.derivable_nil
          (Rule.stop (Nat.le_refl 40)).derivable_nil
  have hmore : Derivable ⟨126, .climb 0 (.projectValues (.field "a") (.field "b"))
      stepsBehindValues.expr, [.symbol .dot, .name "c"], []⟩ :=
    (Rule.climb (by decide)).derivable_pair
      ((Rule.dot (by decide)).derivable_singleton <|
        (Rule.afterDot (Or.inl rfl)).derivable_singleton <|
          Rule.expression.derivable_pair Rule.name.derivable_nil
            (Rule.stop (Nat.zero_le 40)).derivable_nil)
      (Rule.stop (Nat.le_refl 0)).derivable_nil
  rw [reading, Scan.lexemes_tokens_of_splits splits_stepsBehindValues]
  exact Rule.expression.occurs_right Rule.name.derivable_nil <|
    (Rule.climb (by decide)).occurs_left (Rule.dotStar.occurs_singleton (.refl hright)) hmore

theorem compile_stepsBehindValues : compile "a.*.b.c" = .ok stepsBehindValues := by
  have hd := occurs_stepsBehindValues.derivable_whole
  rw [reading, Scan.lexemes_tokens_of_splits splits_stepsBehindValues] at hd
  exact compile_eq_ok_iff.mpr ⟨rfl, _, splits_stepsBehindValues, hd⟩

/-- **Not every right side is as large as it can be**: the one behind a dot and a star ends
before a dot, and the second step is not applied to each value. -/
theorem not_projection_stop : ¬∀ {text q L form right before after}, compile text = .ok q →
    Occurs ⟨L, .projected form right, before, after⟩ q.reading →
      (front after).power < projectionStop := by
  intro h
  exact absurd (h compile_stepsBehindValues occurs_stepsBehindValues) (by decide)

/-- What that query yields, and the scope of its projection. -/
theorem scope_stepsBehindValues :
    compile "a.*.b.c" = .ok stepsBehindValues ∧
      Scope .fieldValues (.field "b") [.symbol .dot, .name "b", .symbol .dot, .name "c"]
        [.symbol .dot, .name "c"] ∧
      ∀ table, stepsBehindValues.search table
        (.object [("a", .object [("x", .object [("b", .object [("c", .int 1)])])])]) =
          .ok .null :=
  ⟨compile_stepsBehindValues,
    (projection_scope compile_stepsBehindValues).2 occurs_stepsBehindValues, fun _ => rfl⟩

end Query

end JsonQuery
