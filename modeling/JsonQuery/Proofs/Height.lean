import JsonQuery.Proofs.Compilation
import Mathlib.Order.Bounds.Defs

/-!
# How high an expression gets

The limit on nesting is a limit on levels and not on the height of expressions. A level is
used up by an expression inside an expression and by a symbol behind an operand, and the two
differ from the height in opposite ways. A step behind a dot uses up a level and often makes
no expression higher, since it goes to the end of a chain. An empty pair of brackets uses up
a level and makes the expression higher by two, for it is a projection of an array that is
made flat. And the levels that the operand in front used up are there again for the symbols
behind it, while the operand keeps its height.

Two bounds come out of this for whatever can be read (`JsonQuery.Grammar.Derivable.bounded`).
What is read with `L` levels is at most `JsonQuery.Grammar.ceiling L` high, a number that grows
with the square of `L`; and no lexeme is worth more than two. The first bound is reached by a
list inside a list inside a list with a row of empty brackets behind each
(`JsonQuery.Grammar.derivable_tower`), the second one by a row of empty brackets alone. For
queries they say that the limit on nesting is no bound on the height, but that there is one,
and for which queries the limit is one all the same (`JsonQuery.Query.height_bounds`).
-/

namespace JsonQuery

open Token (Lexeme)
open Scan (Splits)

/-! ### Heights -/

theorem Tree.heightAll_le_iff {α : Type} {ts : List (Tree α)} {n : Nat} :
    heightAll ts ≤ n ↔ ∀ t ∈ ts, t.height ≤ n := by
  induction ts with
  | nil => simp [heightAll]
  | cons t ts ih => rw [heightAll, Nat.max_le, ih, List.forall_mem_cons]

namespace Expr

theorem height_eq (e : Expr) : e.height = Tree.heightAll (e.children.map tree) + 1 := by
  rw [height, tree_eq, Tree.height]

/-- An expression is one higher than the highest of its children. -/
theorem height_le_succ_iff {e : Expr} {n : Nat} :
    e.height ≤ n + 1 ↔ ∀ c ∈ e.children, c.height ≤ n := by
  rw [height_eq, Nat.succ_le_succ_iff, Tree.heightAll_le_iff, List.forall_mem_map]
  rfl

theorem one_le_height (e : Expr) : 1 ≤ e.height := by
  rw [height_eq]
  exact Nat.le_add_left _ _

@[simp] theorem height_identity : identity.height = 1 := rfl

/-- The height of an expression with one child. -/
theorem height_of_children_singleton {e c : Expr} (h : e.children = [c]) :
    e.height = c.height + 1 := by
  rw [height_eq, h]
  exact congrArg (· + 1) (Nat.max_zero _)

/-- The height of an expression with two children. -/
theorem height_of_children_pair {e l r : Expr} (h : e.children = [l, r]) :
    e.height = max l.height r.height + 1 := by
  rw [height_eq, h]
  exact congrArg (max l.height · + 1) (Nat.max_zero _)

@[simp] theorem height_flatten (e : Expr) : (flatten e).height = e.height + 1 :=
  height_of_children_singleton rfl

/-- An expression keeps two bounds that its children stay below. -/
theorem height_le_of_children {e : Expr} {m n k : Nat} (hm : 1 ≤ m) (hn : 1 + k ≤ n)
    (h : ∀ c ∈ e.children, c.height + 1 ≤ m ∧ c.height + 1 + k ≤ n) :
    e.height ≤ m ∧ e.height + k ≤ n := by
  have hle : e.height ≤ min (m - 1) (n - k - 1) + 1 := by
    rw [height_le_succ_iff]
    intro c hc
    have hc := h c hc
    omega
  omega

section Chains

variable {e left right : Expr}

theorem children_dotted (left right : Expr) :
    (left.dotted right).children = left.children ++ [right] ∨
      (left.dotted right).children = [left, right] := by
  unfold dotted
  split
  · exact Or.inl rfl
  · exact Or.inr rfl

theorem children_indexed (left right : Expr) :
    (left.indexed right).children = left.children ++ [right] ∨
      (left.indexed right).children = [left, right] := by
  unfold indexed
  split
  · exact Or.inl rfl
  · exact Or.inr rfl

/-- Whether a step goes to the end of a chain or starts one, the result is no higher than a
new node would be. -/
theorem height_le_of_chain
    (h : e.children = left.children ++ [right] ∨ e.children = [left, right]) :
    e.height ≤ max left.height right.height + 1 := by
  rw [height_le_succ_iff]
  rcases h with h | h
  · rw [h, List.forall_mem_append, List.forall_mem_singleton]
    exact ⟨height_le_succ_iff.mp (Nat.le_succ_of_le (Nat.le_max_left ..)), Nat.le_max_right ..⟩
  · rw [h, List.forall_mem_cons, List.forall_mem_singleton]
    exact ⟨Nat.le_max_left .., Nat.le_max_right ..⟩

theorem height_dotted_le (left right : Expr) :
    (left.dotted right).height ≤ max left.height right.height + 1 :=
  height_le_of_chain (children_dotted left right)

theorem height_indexed_le (left right : Expr) :
    (left.indexed right).height ≤ max left.height right.height + 1 :=
  height_le_of_chain (children_indexed left right)

end Chains

end Expr

namespace Grammar

/-- The greatest height of an expression that `L` levels are enough for. -/
def ceiling (L : Nat) : Nat :=
  L * (L + 1) + 1

theorem ceiling_succ (L : Nat) : ceiling (L + 1) = ceiling L + 2 * (L + 1) := by
  simp only [ceiling, Nat.add_mul, Nat.mul_add]
  omega

theorem ceiling_mono {K L : Nat} (h : K ≤ L) : ceiling K ≤ ceiling L :=
  Nat.succ_le_succ (Nat.mul_le_mul h (Nat.succ_le_succ h))

theorem one_le_ceiling (L : Nat) : 1 ≤ ceiling L :=
  Nat.le_add_left _ _

/-- **The bounds on the height** of what a reading yields. One of them comes from the levels
that there are for it, the other one from the lexemes that are read, each of which is worth two;
both start from the operand on the left if there is one. -/
def Reading.Bounded (r : Reading) : Prop :=
  let L := r.levels
  let before := 2 * r.before.length
  let after := 2 * r.after.length
  match r.part with
  | .expression _ e => e.height ≤ ceiling L ∧ e.height + after ≤ before + 1
  | .operand e => e.height ≤ ceiling L + 2 ∧ e.height + after ≤ before + 1
  | .climb _ left e =>
    e.height ≤ max left.height (ceiling L) + 2 * L ∧ e.height + after ≤ left.height + before
  | .step _ left e | .filtered left e | .bracketed left e =>
    e.height ≤ max left.height (ceiling L) + 2 ∧ e.height + after ≤ left.height + before + 2
  | .projected _ e | .afterDot _ e =>
    e.height ≤ ceiling L + 1 ∧ e.height + after ≤ before + 1
  | .items es | .arguments es =>
    ∀ e ∈ es, e.height ≤ ceiling L ∧ e.height + after ≤ before + 1
  | .entries es =>
    ∀ entry ∈ es, entry.2.height ≤ ceiling L ∧ entry.2.height + after ≤ before + 1

/-- **How high a part is.** One case for each rule: a rule that takes a level may add to the
height, and one that takes none hands on what its premise yields or puts it below one node. -/
theorem Derivable.bounded {r : Reading} (h : Derivable r) : r.Bounded := by
  induction h with
  | rule hr hpremises ih =>
    have hforward := fun p hp => Nat.le_of_add_right_le (hpremises p hp).length_le
    cases hr with
    | @literal L | @name L | @quoted L | @current L | @unprojected L =>
      have hceiling := one_le_ceiling L
      simp only [Reading.Bounded, List.length_cons]
      exact Expr.height_le_of_children (by omega) (by omega) (List.forall_mem_nil _)
    | stop => exact ⟨Nat.le_trans (Nat.le_max_left ..) (Nat.le_add_right ..), Nat.le_refl _⟩
    | @expression L | @climb L | @group L | @filter L | @position L | @projectedBracket L
    | @projectedFilter L | @projectedDot L | @afterDot L | @filterOf L | @positionOf L =>
      -- what a premise yields is handed on as it is
      have hceiling := one_le_ceiling L
      simp only [List.mem_cons, List.not_mem_nil, or_false, forall_eq_or_imp, forall_eq,
        Reading.Bounded, Expr.height_identity, ceiling_succ, List.length_cons] at ih ⊢
      omega
    | @values L | @flatten L | @not L | @reference L | @everyItem L | @dotStar L | @pipe L | @or L
    | @and L | @compare L | @flattenOf L | @everyItemOf L | @filtered L =>
      have hceiling := one_le_ceiling L
      simp only [List.mem_cons, List.not_mem_nil, or_false, forall_eq_or_imp, forall_eq,
        Reading.Bounded, List.length_cons] at ih hforward ⊢
      refine Expr.height_le_of_children (by omega) (by omega) ?_
      simp only [Expr.children, List.mem_cons, List.not_mem_nil, or_false, forall_eq_or_imp,
        forall_eq, Expr.height_identity, Expr.height_flatten]
      omega
    | @list L es | @listAfterDot L p es | @call L name es =>
      have hceiling := one_le_ceiling L
      simp only [List.mem_singleton, forall_eq, Reading.Bounded, List.length_cons] at ih hforward ⊢
      refine Expr.height_le_of_children (by omega) (by omega) fun e he => ?_
      have hitem := ih e he
      omega
    | @hash L es | @hashAfterDot L p es =>
      have hceiling := one_le_ceiling L
      simp only [List.mem_singleton, forall_eq, Reading.Bounded, List.length_cons] at ih hforward ⊢
      refine Expr.height_le_of_children (by omega) (by omega) (List.forall_mem_map.mpr ?_)
      intro entry hentry
      have hvalue := ih entry hentry
      omega
    | @index L left n =>
      have hceiling := one_le_ceiling L
      have hchain := Expr.height_indexed_le left (.index n)
      have hindex : (Expr.index n).height = 1 := rfl
      have hleft := Expr.one_le_height left
      simp only [Reading.Bounded, List.length_cons]
      omega
    | @slice L left right start stop step mid =>
      have hchain := Expr.height_indexed_le left (.slice start stop step.join)
      have hslice : (Expr.slice start stop step.join).height = 1 := rfl
      have hleft := Expr.one_le_height left
      have htext := length_sliceText start stop step mid
      simp only [List.mem_singleton, forall_eq, Reading.Bounded] at ih hforward ⊢
      refine Expr.height_le_of_children (by omega) (by omega) ?_
      simp only [Expr.children, List.mem_cons, List.not_mem_nil, or_false, forall_eq_or_imp,
        forall_eq]
      omega
    | @dot L left right =>
      have hchain := Expr.height_dotted_le left right
      simp only [List.mem_singleton, forall_eq, Reading.Bounded] at ih hforward ⊢
      omega
    | noArgument => exact List.forall_mem_nil _
    | lastItem | lastEntry | lastArgument =>
      simp only [List.mem_singleton, forall_eq, Reading.Bounded, List.length_cons] at ih ⊢
      omega
    | item | entry | argument =>
      simp only [List.mem_cons, List.not_mem_nil, or_false, forall_eq_or_imp, forall_eq,
        Reading.Bounded, List.length_cons] at ih hforward ⊢
      refine ⟨by omega, fun e he => ?_⟩
      have hmore := ih.2 e he
      omega

/-! ### Rows of brackets -/

/-- A row of `n` empty pairs of brackets. -/
def bracketRow : Nat → List Char
  | 0 => []
  | n + 1 => '[' :: ']' :: bracketRow n

/-- An expression with a row of `n` empty pairs of brackets behind it. -/
def flattenedTimes : Nat → Expr → Expr
  | 0, e => e
  | n + 1, e => flattenedTimes n (.project (.flatten e) .identity)

theorem splits_bracketRow (n : Nat) :
    Splits (bracketRow n) (List.replicate n (.symbol .flatten)) := by
  induction n with
  | zero => exact .nil
  | succ n ih => exact .lexeme rfl rfl ih

/-- **Each pair of brackets is worth two.** -/
theorem height_flattenedTimes (n : Nat) (e : Expr) :
    (flattenedTimes n e).height = e.height + 2 * n := by
  induction n generalizing e with
  | zero => rfl
  | succ n ih =>
    have hproject := Expr.height_of_children_pair (e := .project (.flatten e) .identity) rfl
    rw [Expr.height_flatten, Expr.height_identity] at hproject
    rw [flattenedTimes, ih, hproject]
    omega

theorem power_front_bracketRow_lt (n : Nat) (rest : List Lexeme)
    (hrest : (front rest).power < projectionStop) :
    (front (List.replicate n (.symbol .flatten) ++ rest)).power < projectionStop := by
  cases n with
  | zero => exact hrest
  | succ n => exact show 9 < 10 by decide

/-- A row of brackets is read with one level for each pair. -/
theorem derivable_bracketRow (K n : Nat) (e : Expr) (rest : List Lexeme)
    (hrest : (front rest).power = 0) :
    Derivable ⟨K + n, .climb 0 e (flattenedTimes n e),
      List.replicate n (.symbol .flatten) ++ rest, rest⟩ := by
  induction n generalizing e with
  | zero => exact (Rule.stop (Nat.le_of_eq hrest)).derivable_nil
  | succ n ih =>
    have hlow : (front rest).power < projectionStop := by
      rw [hrest]
      decide
    refine (Rule.climb (by decide)).derivable_pair ?_ (ih (.project (.flatten e) .identity))
    exact Rule.flattenOf.derivable_singleton
      (Rule.unprojected (power_front_bracketRow_lt n rest hlow)).derivable_nil

/-! ### Towers -/

/-- The **tower** of `L` stories: the next smaller one in a list, with a row of brackets
behind it. -/
def tower : Nat → Expr
  | 0 => .project (.flatten .identity) .identity
  | L + 1 => flattenedTimes (L + 1) (.projectValues .identity (.list [tower L]))

/-- The text of a tower. -/
def towerText : Nat → List Char
  | 0 => bracketRow 1
  | L + 1 => '*' :: '.' :: '[' :: ' ' :: (towerText L ++ ' ' :: ']' :: bracketRow (L + 1))

/-- The lexemes of a tower. -/
def towerLexemes : Nat → List Lexeme
  | 0 => [.symbol .flatten]
  | L + 1 => .symbol .star :: .symbol .dot :: .symbol .leftBracket ::
      (towerLexemes L ++ .symbol .rightBracket :: List.replicate (L + 1) (.symbol .flatten))

theorem splits_towerText (L : Nat) : Splits (towerText L) (towerLexemes L) := by
  induction L with
  | zero => exact splits_bracketRow 1
  | succ L ih =>
    have hrow := splits_bracketRow (L + 1)
    exact .lexeme rfl rfl <| .lexeme rfl rfl <| .lexeme rfl rfl <| .space rfl <|
      ih.append (Scan.breaks_cons rfl _) (.space rfl (.lexeme rfl rfl hrow))

theorem height_tower (L : Nat) : (tower L).height = ceiling (L + 1) := by
  induction L with
  | zero => rfl
  | succ L ih =>
    have hlist := Expr.height_of_children_singleton (e := .list [tower L]) rfl
    have hvalues := Expr.height_of_children_pair
      (e := .projectValues .identity (.list [tower L])) rfl
    rw [hlist, ih, Expr.height_identity] at hvalues
    rw [tower, height_flattenedTimes, hvalues, ceiling_succ (L + 1)]
    omega

/-- **A tower can be read with one level more than it has stories.** -/
theorem derivable_tower (L : Nat) (rest : List Lexeme) (hrest : (front rest).power = 0) :
    Derivable ⟨L + 1, .expression 0 (tower L), towerLexemes L ++ rest, rest⟩ := by
  induction L generalizing rest with
  | zero =>
    have hlow : (front rest).power < projectionStop := by
      rw [hrest]
      decide
    exact Rule.expression.derivable_pair
      (Rule.flatten.derivable_singleton (Rule.unprojected hlow).derivable_nil)
      (Rule.stop (Nat.le_of_eq hrest)).derivable_nil
  | succ L ih =>
    have hitems : Derivable ⟨L + 1, .items [tower L], towerLexemes L ++ .symbol .rightBracket ::
        (List.replicate (L + 1) (.symbol .flatten) ++ rest),
        List.replicate (L + 1) (.symbol .flatten) ++ rest⟩ :=
      Rule.lastItem.derivable_singleton (ih _ rfl)
    have hrow := derivable_bracketRow 0 (L + 1) (.projectValues .identity (.list [tower L])) rest
      hrest
    rw [Nat.zero_add] at hrow
    simp only [towerLexemes, List.cons_append, List.append_assoc]
    refine Rule.expression.derivable_pair ?_ hrow
    exact Rule.values.derivable_singleton <| Rule.projectedDot.derivable_singleton <|
      Rule.listAfterDot.derivable_singleton hitems

end Grammar

namespace Query

open Grammar (Derivable ceiling ceiling_mono maxNesting flattenedTimes bracketRow tower)

/-- A text that is only read with fewer levels than there are compiles. -/
theorem compile_ofList {cs : List Char} {ls : List Lexeme} {e : Expr} (hs : Splits cs ls)
    (hd : Derivable ⟨maxNesting, .expression 0 e, ls, []⟩) :
    compile (String.ofList cs) = .ok ⟨String.ofList cs, e⟩ := by
  refine compile_eq_ok_iff.mpr ⟨rfl, ls, ?_, hd⟩
  rwa [String.toList_ofList]

/-- **How high a query is that compiles.** The limit on nesting bounds its height by a number
that grows with the square of the limit; and the limit itself is a bound if ten levels are
enough for the query, or if it has no more than sixty-three lexemes. -/
theorem height_bounds {text : String} {q : Query} (h : compile text = .ok q) :
    q.expr.height ≤ ceiling maxNesting ∧
    (∀ L, L ≤ 10 → Derivable { q.reading with levels := L } → q.expr.height ≤ maxNesting) ∧
    (q.reading.before.length ≤ 63 → q.expr.height ≤ maxNesting) := by
  obtain ⟨-, hd⟩ := derivable_reading h
  refine ⟨hd.bounded.1, fun L hL hlow => ?_, fun hshort => ?_⟩
  · exact Nat.le_trans hlow.bounded.1 (Nat.le_trans (ceiling_mono hL) (by decide))
  · have hlexemes : q.expr.height + 2 * 0 ≤ 2 * q.reading.before.length + 1 := hd.bounded.2
    have hlimit : maxNesting = 128 := rfl
    omega

/-- The compiled row of empty brackets. -/
theorem compile_bracketRow {n : Nat} (hn : n < maxNesting) :
    compile (String.ofList (bracketRow (n + 1))) =
      .ok ⟨String.ofList (bracketRow (n + 1)), flattenedTimes n (tower 0)⟩ := by
  have hrow := Grammar.derivable_bracketRow (127 - n) n (tower 0) [] rfl
  have hlow := Grammar.power_front_bracketRow_lt n [] (by decide)
  rw [List.append_nil] at hrow hlow
  have hlevels : 127 - n + n = 127 := Nat.sub_add_cancel (Nat.le_of_lt_succ hn)
  rw [hlevels] at hrow
  have hoperand : Derivable ⟨127, .operand (tower 0), List.replicate (n + 1) (.symbol .flatten),
      List.replicate n (.symbol .flatten)⟩ :=
    Grammar.Rule.flatten.derivable_singleton (Grammar.Rule.unprojected hlow).derivable_nil
  exact compile_ofList (Grammar.splits_bracketRow (n + 1))
    (Grammar.Rule.expression.derivable_pair hoperand hrow)

/-- Sixty-three empty pairs of brackets. -/
theorem height_of_bracketRow : ∃ q, compile (String.ofList (bracketRow 63)) = .ok q ∧
    q.reading.before.length ≤ 63 ∧ q.expr.height ≤ maxNesting := by
  have hcompile := compile_bracketRow (show 62 < maxNesting by decide)
  have hlexemes : (reading ⟨String.ofList (bracketRow 63), flattenedTimes 62 (tower 0)⟩).before =
      List.replicate 63 (.symbol .flatten) := by
    rw [reading, String.toList_ofList]
    exact Scan.lexemes_tokens_of_splits (Grammar.splits_bracketRow 63)
  have hlength : (reading ⟨String.ofList (bracketRow 63),
      flattenedTimes 62 (tower 0)⟩).before.length ≤ 63 :=
    Nat.le_of_eq ((congrArg List.length hlexemes).trans List.length_replicate)
  exact ⟨_, hcompile, hlength, (height_bounds hcompile).2.2 hlength⟩

/-- **The limit on nesting does not bound the height**: sixty-four empty pairs of brackets
compile to an expression that is one higher. -/
theorem not_height_le_maxNesting :
    ¬∀ {text q}, compile text = .ok q → q.expr.height ≤ maxNesting := by
  intro h
  have hheight := h (compile_bracketRow (show 63 < maxNesting by decide))
  rw [Grammar.height_flattenedTimes, Grammar.height_tower] at hheight
  exact absurd hheight (by decide)

/-- The bound by the limit is reached. -/
theorem isGreatest_height :
    IsGreatest {h | ∃ text q, compile text = .ok q ∧ q.expr.height = h} (ceiling maxNesting) := by
  constructor
  · have hd := Grammar.derivable_tower 127 [] rfl
    rw [List.append_nil] at hd
    exact ⟨_, _, compile_ofList (Grammar.splits_towerText 127) hd, Grammar.height_tower 127⟩
  · rintro h ⟨text, q, hq, rfl⟩
    exact (derivable_reading hq).2.bounded.1

end Query

end JsonQuery
