import JsonQuery.Proofs.BracketComposition

/-!
# Rows of binary operators

What `a || !b && c == d | e` is read as. A **row** (`JsonQuery.OperatorRow`) is written with
binary operators between operands, and an operand is a name, a literal value, an at sign or a
query between parentheses, with any number of negations before it. There are many
**operator trees** (`JsonQuery.OperatorTree`) over a row, and the powers of the operators
select one of them: a tree is **grouped** (`JsonQuery.OperatorTree.Grouped`) if the operator on
top of a left side binds at least as tightly as the one above it, and the operator on top of
a right side more tightly. So operators of one power group to the left.

That there is exactly one grouped tree over a row can be seen without any grammar. It is
built from the left: the next operator takes as its left side whatever binds at least as
tightly on the right edge of the tree so far (`JsonQuery.OperatorTree.push`), and no other
tree is grouped (`JsonQuery.OperatorTree.Grouped.eq_tree`).

The reader finds this tree (`JsonQuery.Query.compiles_row`). The proof goes along the tree
and not along the row. What carries it through the left sides is that an expression which
starts with the lexemes of a tree is read as if the tree were an operand that is there
already (`JsonQuery.Grammar.Derivable.expression_of_tree`).
-/

namespace JsonQuery

open Token (Lexeme)
open Grammar (Derivable Rule Identifier front lexemes)

/-! ### Operators and operands -/

/-- A **binary operator**. -/
inductive Operator where
  /-- A pipe. -/
  | pipe
  /-- An alternative. -/
  | or
  /-- A conjunction. -/
  | and
  /-- A comparison. -/
  | comparison (op : Comparison)
  deriving DecidableEq, Repr

namespace Operator

/-- The symbol of an operator. -/
def symbol : Operator → Symbol
  | pipe => .pipe
  | or => .or
  | and => .and
  | comparison op => .comparison op

/-- How tightly an operator binds. -/
def power (o : Operator) : Nat :=
  o.symbol.power

/-- The expression that an operator makes of its two sides. -/
def apply : Operator → Expr → Expr → Expr
  | pipe => .pipe
  | or => .or
  | and => .and
  | comparison op => .compare op

/-- No operator binds more tightly than a comparison. -/
theorem power_le (o : Operator) : o.power ≤ 5 := by
  cases o with
  | comparison => exact Nat.le_refl 5
  | _ => decide

theorem one_le_power (o : Operator) : 1 ≤ o.power := by
  cases o with
  | comparison => exact Nat.le_add_left 1 4
  | _ => decide

/-- The right side of an operator is read with its power. -/
theorem rule_step (o : Operator) {L : Nat} {left right : Expr} {ls rest : List Lexeme} :
    Rule ⟨L, .step o.symbol left (o.apply left right), ls, rest⟩
      [⟨L, .expression o.power right, ls, rest⟩] := by
  cases o <;> constructor

end Operator

/-- An **operand** of a binary operator. -/
inductive Operand where
  /-- A name, with or without quotation marks. -/
  | identifier (k : Identifier)
  /-- A literal value. -/
  | literal (value : Json)
  /-- The value at hand. -/
  | current
  /-- A query between parentheses. -/
  | group (q : Query)
  /-- The negation of an operand. -/
  | not (body : Operand)

namespace Operand

/-- The lexemes of an operand. -/
def lexemes : Operand → List Lexeme
  | identifier k => [k.lexeme]
  | literal value => [.literal value]
  | current => [.symbol .current]
  | group q =>
    .symbol .leftParen :: (Grammar.lexemes (Scan.ofChars q.text.toList).tokens ++
      [.symbol .rightParen])
  | not body => .symbol .not :: body.lexemes

/-- The expression that an operand is. -/
def expr : Operand → Expr
  | identifier k => .field k.text
  | literal value => .literal value
  | current => .current
  | group q => q.expr
  | not body => .not body.expr

/-- That a query which stands between parentheses **compiles**. -/
def Compiles : Operand → Prop
  | group q => Query.compile q.text = .ok q
  | not body => body.Compiles
  | _ => True

/-- An operand is read in front of anything that binds no more tightly than a comparison. -/
theorem Compiles.exists_derivable {x : Operand} (h : x.Compiles) {mid : List Lexeme}
    (hmid : (front mid).power ≤ 5) :
    ∃ K, Derivable ⟨K, .operand x.expr, x.lexemes ++ mid, mid⟩ := by
  induction x with
  | identifier k =>
    obtain ⟨quoted, text⟩ := k
    cases quoted with
    | false => exact ⟨0, Rule.name.derivable_nil⟩
    | true =>
      refine ⟨0, (Rule.quoted fun hparen => ?_).derivable_nil⟩
      have hpower : (front mid).power = 60 := congrArg Token.Kind.power hparen
      omega
  | literal value => exact ⟨0, Rule.literal.derivable_nil⟩
  | current => exact ⟨0, Rule.current.derivable_nil⟩
  | group q =>
    obtain ⟨ls, hs, hd⟩ := Query.exists_splits_before h
    have hgroup := Rule.group.derivable_singleton (hd (s := .rightParen) rfl mid)
    refine ⟨Grammar.maxNesting, ?_⟩
    rw [lexemes, Scan.lexemes_tokens_of_splits hs, List.cons_append, List.append_assoc]
    exact hgroup
  | not body ih =>
    obtain ⟨K, hK⟩ := ih h
    have hstop : (front mid).power ≤ Symbol.not.power := Nat.le_trans hmid (by decide)
    exact ⟨K + 1, Rule.not.derivable_singleton
      (Rule.expression.derivable_pair hK (Rule.stop hstop).derivable_nil)⟩

end Operand

/-! ### Rows and trees -/

/-- A **row**: operands with operators between them. -/
structure OperatorRow where
  /-- The first operand. -/
  first : Operand
  /-- The operators and the operands behind them. -/
  rest : List (Operator × Operand)

namespace OperatorRow

/-- The operands of a row. -/
def operands (r : OperatorRow) : List Operand :=
  r.first :: r.rest.map Prod.snd

/-- The lexemes of a row. -/
def lexemes (r : OperatorRow) : List Lexeme :=
  r.first.lexemes ++ r.rest.flatMap fun p => .symbol p.1.symbol :: p.2.lexemes

/-- Two rows with an operator between them. -/
def join (l : OperatorRow) (o : Operator) (r : OperatorRow) : OperatorRow :=
  ⟨l.first, l.rest ++ (o, r.first) :: r.rest⟩

theorem lexemes_join (l : OperatorRow) (o : Operator) (r : OperatorRow) :
    (l.join o r).lexemes = l.lexemes ++ .symbol o.symbol :: r.lexemes := by
  simp [lexemes, join]

theorem mem_operands_join {l r : OperatorRow} {o : Operator} {x : Operand} :
    x ∈ (l.join o r).operands ↔ x ∈ l.operands ∨ x ∈ r.operands := by
  simp [operands, join, or_assoc]

end OperatorRow

/-- An **operator tree**: operands under binary operators. -/
inductive OperatorTree where
  /-- An operand alone. -/
  | operand (x : Operand)
  /-- An operator and its two sides. -/
  | node (o : Operator) (left right : OperatorTree)

namespace OperatorTree

/-- The operands and operators of a tree from left to right. -/
def row : OperatorTree → OperatorRow
  | operand x => ⟨x, []⟩
  | node o left right => left.row.join o right.row

/-- The expression that a tree is. -/
def expr : OperatorTree → Expr
  | operand x => x.expr
  | node o left right => o.apply left.expr right.expr

/-- That the operator of a tree binds **at least** as tightly as a power says; an operand
does in any case. -/
def BindsAtLeast (n : Nat) : OperatorTree → Prop
  | operand _ => True
  | node o _ _ => n ≤ o.power

/-- That a tree is **grouped by the powers** of its operators. -/
def Grouped : OperatorTree → Prop
  | operand _ => True
  | node o left right =>
    left.BindsAtLeast o.power ∧ right.BindsAtLeast (o.power + 1) ∧ left.Grouped ∧ right.Grouped

theorem BindsAtLeast.mono {n m : Nat} {t : OperatorTree} (h : t.BindsAtLeast n) (hle : m ≤ n) :
    t.BindsAtLeast m := by
  cases t with
  | operand => trivial
  | node => exact Nat.le_trans hle h

theorem bindsAtLeast_one (t : OperatorTree) : t.BindsAtLeast 1 := by
  cases t with
  | operand => trivial
  | node o => exact o.one_le_power

/-! ### The grouped tree over a row -/

/-- One more operator and operand on the right of a tree: the operator takes as its left
side what binds at least as tightly on the right edge. -/
def push : OperatorTree → Operator × Operand → OperatorTree
  | operand x, (o, y) => node o (operand x) (operand y)
  | node o left right, (o', y) =>
    if o.power < o'.power then node o left (right.push (o', y))
    else node o' (node o left right) (operand y)

theorem row_push (t : OperatorTree) (p : Operator × Operand) :
    (t.push p).row = ⟨t.row.first, t.row.rest ++ [p]⟩ := by
  induction t with
  | operand x => rfl
  | node o left right _ ih =>
    rw [push]
    split
    · simp [row, OperatorRow.join, ih]
    · rfl

theorem bindsAtLeast_push {n : Nat} {t : OperatorTree} (h : t.BindsAtLeast n)
    {p : Operator × Operand} (hp : n ≤ p.1.power) : (t.push p).BindsAtLeast n := by
  cases t with
  | operand x => exact hp
  | node o left right =>
    rw [push]
    split
    · exact h
    · exact hp

theorem grouped_push {t : OperatorTree} (h : t.Grouped) (p : Operator × Operand) :
    (t.push p).Grouped := by
  induction t with
  | operand x => exact ⟨trivial, trivial, trivial, trivial⟩
  | node o left right _ ih =>
    obtain ⟨hleft, hright, hgleft, hgright⟩ := h
    rw [push]
    split
    case isTrue hlt => exact ⟨hleft, bindsAtLeast_push hright hlt, hgleft, ih hgright⟩
    case isFalse hge =>
      exact ⟨Nat.le_of_not_lt hge, trivial, ⟨hleft, hright, hgleft, hgright⟩, trivial⟩

/-- An operator that binds no more tightly than a tree takes all of it. -/
theorem BindsAtLeast.push_eq {t : OperatorTree} {o : Operator} (h : t.BindsAtLeast o.power)
    (x : Operand) : t.push (o, x) = node o t (operand x) := by
  cases t with
  | operand => rfl
  | node => exact if_neg (Nat.not_lt.mpr h)

/-- Operators that bind more tightly all go to the right side. -/
theorem foldl_push_node {o : Operator} (left right : OperatorTree)
    {ps : List (Operator × Operand)} (h : ∀ p ∈ ps, o.power < p.1.power) :
    ps.foldl push (node o left right) = node o left (ps.foldl push right) := by
  induction ps generalizing right with
  | nil => rfl
  | cons p ps ih =>
    obtain ⟨hp, hps⟩ := List.forall_mem_cons.mp h
    rw [List.foldl_cons, List.foldl_cons, ← ih (right.push p) hps]
    exact congrArg (ps.foldl push) (if_pos hp)

/-- In a grouped tree no operator binds less tightly than the topmost one. -/
theorem Grouped.le_power {t : OperatorTree} (h : t.Grouped) {n : Nat} (hn : t.BindsAtLeast n) :
    ∀ p ∈ t.row.rest, n ≤ p.1.power := by
  induction t generalizing n with
  | operand => exact List.forall_mem_nil _
  | node o left right ihleft ihright =>
    obtain ⟨hleft, hright, hgleft, hgright⟩ := h
    refine List.forall_mem_append.mpr ⟨ihleft hgleft (hleft.mono hn), ?_⟩
    exact List.forall_mem_cons.mpr ⟨hn, ihright hgright (hright.mono (Nat.le_succ_of_le hn))⟩

end OperatorTree

/-- **The tree over a row**, built from the left. -/
def OperatorRow.tree (r : OperatorRow) : OperatorTree :=
  r.rest.foldl OperatorTree.push (.operand r.first)

namespace OperatorTree

theorem row_foldl_push (t : OperatorTree) (ps : List (Operator × Operand)) :
    (ps.foldl push t).row = ⟨t.row.first, t.row.rest ++ ps⟩ := by
  induction ps generalizing t with
  | nil => simp
  | cons p ps ih => rw [List.foldl_cons, ih, row_push, List.append_assoc, List.singleton_append]

@[simp] theorem row_tree (r : OperatorRow) : r.tree.row = r :=
  row_foldl_push _ _

theorem grouped_tree (r : OperatorRow) : r.tree.Grouped := by
  refine List.foldlRecOn (motive := Grouped) r.rest push (b := .operand r.first) trivial ?_
  exact fun t h p _ => grouped_push h p

/-- **No other tree over a row is grouped.** -/
theorem Grouped.eq_tree {t : OperatorTree} (h : t.Grouped) : t = t.row.tree := by
  induction t with
  | operand => rfl
  | node o left right ihleft ihright =>
    obtain ⟨hleft, hright, hgleft, hgright⟩ := h
    calc node o left right
      _ = node o left.row.tree right.row.tree := by rw [← ihleft hgleft, ← ihright hgright]
      _ = right.row.rest.foldl push (node o left.row.tree (operand right.row.first)) :=
        (foldl_push_node _ _ (hgright.le_power hright)).symm
      _ = right.row.rest.foldl push (left.row.tree.push (o, right.row.first)) := by
        rw [← ihleft hgleft, hleft.push_eq]
      _ = (node o left right).row.tree := by
        rw [row, OperatorRow.join, OperatorRow.tree, OperatorRow.tree, List.foldl_append,
          List.foldl_cons]

end OperatorTree

/-! ### Reading a tree -/

/-- **An expression that starts with a tree** is read as if the tree were an operand. -/
theorem Grammar.Derivable.expression_of_tree {t : OperatorTree} (hgrouped : t.Grouped)
    (hcompiles : ∀ x ∈ t.row.operands, x.Compiles) {p : Nat} (hp : t.BindsAtLeast (p + 1))
    {mid : List Lexeme} (hmid : t.BindsAtLeast (front mid).power) (hlow : (front mid).power ≤ 5)
    {L : Nat} {e : Expr} {rest : List Lexeme}
    (h : Derivable ⟨L, .climb p t.expr e, mid, rest⟩) :
    ∃ K, Derivable ⟨K, .expression p e, t.row.lexemes ++ mid, rest⟩ := by
  induction t generalizing p mid L e rest with
  | operand x =>
    obtain ⟨K, hK⟩ := (hcompiles x List.mem_cons_self).exists_derivable hlow
    rw [OperatorTree.row, OperatorRow.lexemes, List.flatMap_nil, List.append_nil]
    exact ⟨max K L + 1, Rule.expression.derivable_pair (hK.mono (Nat.le_max_left K L))
      (h.mono (Nat.le_max_right K L))⟩
  | node o left right ihleft ihright =>
    obtain ⟨hleft, hright, hgleft, hgright⟩ := hgrouped
    have hcleft (x : Operand) (hx : x ∈ left.row.operands) : x.Compiles :=
      hcompiles x (OperatorRow.mem_operands_join.mpr (.inl hx))
    have hcright (x : Operand) (hx : x ∈ right.row.operands) : x.Compiles :=
      hcompiles x (OperatorRow.mem_operands_join.mpr (.inr hx))
    -- the right side ends before what is behind the tree
    have hstop : Derivable ⟨0, .climb o.power right.expr right.expr, mid, mid⟩ :=
      (Rule.stop hmid).derivable_nil
    obtain ⟨M, hM⟩ := ihright hgright hcright hright
      (hright.mono (Nat.le_succ_of_le hmid)) hlow hstop
    -- and the operator takes the left side, which is there already
    have hclimb : Derivable ⟨max M L + 1, .climb p left.expr e,
        .symbol o.symbol :: (right.row.lexemes ++ mid), rest⟩ :=
      (Rule.climb hp).derivable_pair
        (o.rule_step.derivable_singleton (hM.mono (Nat.le_max_left M L)))
        (h.mono (Nat.le_max_right M L))
    rw [OperatorTree.row, OperatorRow.lexemes_join, List.append_assoc]
    refine ihleft hgleft hcleft (hleft.mono hp) ?_ ?_ hclimb
    · exact hleft
    · exact o.power_le

namespace Query

open Scan (Splits)

/-- **A row is read as the grouped tree over it**, unless it nests too deeply. -/
theorem compiles_row {r : OperatorRow} (hcompiles : ∀ x ∈ r.operands, x.Compiles) {text : String}
    (hs : Splits text.toList r.lexemes) :
    ∃ t : OperatorTree, t.row = r ∧ t.Grouped ∧ CompilesUpToDepth text t.expr := by
  have hrow := OperatorTree.row_tree r
  have hgrouped := OperatorTree.grouped_tree r
  have hone := r.tree.bindsAtLeast_one
  have hend : Derivable ⟨0, .climb 0 r.tree.expr r.tree.expr, [], []⟩ :=
    (Rule.stop (Nat.le_refl 0)).derivable_nil
  have hfront : r.tree.BindsAtLeast (front []).power := hone.mono (Nat.zero_le 1)
  obtain ⟨K, hK⟩ := Derivable.expression_of_tree hgrouped (by rwa [hrow]) hone hfront
    (Nat.zero_le 5) hend
  rw [hrow, List.append_nil] at hK
  exact ⟨r.tree, hrow, hgrouped, compilesUpToDepth_of_derivable hs hK⟩

/-- A row of operators of four powers, with a negation and a query between parentheses. -/
def rowOfFive (q : Query) : OperatorRow :=
  ⟨.identifier ⟨false, "a"⟩, [(.or, .not (.identifier ⟨false, "b"⟩)), (.and, .group q),
    (.comparison .eq, .current), (.pipe, .literal (.string "x"))]⟩

/-- The grouped tree over that row. -/
def treeOfFive (q : Query) : OperatorTree :=
  .node .pipe
    (.node .or (.operand (.identifier ⟨false, "a"⟩))
      (.node .and (.operand (.not (.identifier ⟨false, "b"⟩)))
        (.node (.comparison .eq) (.operand (.group q)) (.operand .current))))
    (.operand (.literal (.string "x")))

theorem splits_rowOfFive {q : Query} (hq : q.text = "c | d") :
    Splits "a || !b && (c | d) == @ | 'x'".toList (rowOfFive q).lexemes := by
  have hgroup : lexemes (Scan.ofChars q.text.toList).tokens =
      [.name "c", .symbol .pipe, .name "d"] := by
    have hchars : "c | d".toList = ['c', ' ', '|', ' ', 'd'] := by decide
    rw [hq, hchars]
    refine Scan.lexemes_tokens_of_splits ?_
    exact .lexeme rfl rfl <| .space rfl <| .lexeme rfl rfl <| .space rfl <| .lexeme rfl rfl .nil
  have hlexemes : (rowOfFive q).lexemes = [.name "a", .symbol .or, .symbol .not, .name "b",
      .symbol .and, .symbol .leftParen, .name "c", .symbol .pipe, .name "d", .symbol .rightParen,
      .symbol (.comparison .eq), .symbol .current, .symbol .pipe, .literal (.string "x")] := by
    simp [rowOfFive, OperatorRow.lexemes, Operand.lexemes, Identifier.lexeme, Operator.symbol,
      hgroup]
  have hchars : "a || !b && (c | d) == @ | 'x'".toList =
      ['a', ' ', '|', '|', ' ', '!', 'b', ' ', '&', '&', ' ', '(', 'c', ' ', '|', ' ', 'd', ')',
        ' ', '=', '=', ' ', '@', ' ', '|', ' ', '\'', 'x', '\''] := by decide
  rw [hlexemes, hchars]
  exact .lexeme rfl rfl <| .space rfl <| .lexeme rfl rfl <| .space rfl <| .lexeme rfl rfl <|
    .lexeme rfl rfl <| .space rfl <| .lexeme rfl rfl <| .space rfl <| .lexeme rfl rfl <|
    .lexeme rfl rfl <| .space rfl <| .lexeme rfl rfl <| .space rfl <| .lexeme rfl rfl <|
    .lexeme rfl rfl <| .space rfl <| .lexeme rfl rfl <| .space rfl <| .lexeme rfl rfl <|
    .space rfl <| .lexeme rfl rfl <| .space rfl <| .lexeme rfl rfl .nil

/-- What that row is read as. -/
theorem compiles_rowOfFive : ∃ q, compile "c | d" = .ok q ∧
    compile "a || !b && (c | d) == @ | 'x'" = .ok ⟨"a || !b && (c | d) == @ | 'x'",
      .pipe (.or (.field "a") (.and (.not (.field "b")) (.compare .eq q.expr .current)))
        (.literal (.string "x"))⟩ := by
  obtain ⟨q, hq⟩ := exists_of_isOk (show (compile "c | d").isOk = true by decide +kernel)
  have htext := (derivable_of_compile hq).1
  have hcompiles : ∀ x ∈ (rowOfFive q).operands, x.Compiles := by
    simp [rowOfFive, OperatorRow.operands, Operand.Compiles, htext, hq]
  obtain ⟨t, hrow, hgrouped, hcompile⟩ := compiles_row hcompiles (splits_rowOfFive htext)
  have ht : t = treeOfFive q := by
    rw [hgrouped.eq_tree, hrow]
    rfl
  rw [ht] at hcompile
  exact ⟨q, hq, hcompile.eq_ok (by decide +kernel)⟩

end Query

end JsonQuery
