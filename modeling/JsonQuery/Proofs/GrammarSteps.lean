import JsonQuery.Expr.Grammar

/-!
# The grammar step by step

The functions of `JsonQuery.Expr.Grammar` that recurse, each as one step and what is done with
the result. Written with bind, such an equation can be gone through together with another
program, or with the same one on other tokens, by what is known of bind there.
-/

namespace JsonQuery

namespace Grammar

theorem startsWith_iff_headKind {s : Symbol} {ts : List Token} :
    startsWith s ts = true ↔ headKind ts = .symbol s := by
  rw [startsWith, beq_iff_eq]

/-- That a number or a colon comes next. -/
theorem startsPosition_iff {ts : List Token} :
    startsPosition ts = true ↔ headKind ts = .number ∨ headKind ts = .symbol .colon := by
  rw [startsPosition, Bool.or_eq_true, beq_iff_eq, startsWith_iff_headKind]

/-! ### Lists between commas -/

/-- What is made of the tokens behind the first item of a list between commas. -/
def separatedRest {α : Type} (trailing : Bool) (close : Symbol)
    (item : List Token → Except Refusal (α × List Token)) (ts : List Token) (first : α)
    (rest : List Token) : Except Refusal (List α × List Token) :=
  if startsWith close rest then .ok ([first], rest.tail)
  else if startsWith .comma rest then
    if trailing && startsWith close rest.tail then .ok ([first], rest.tail.tail)
    else if rest.tail.length < ts.length then
      separated trailing close item rest.tail >>= fun x => .ok (first :: x.1, x.2)
    else .error (refuse none rest)
  else .error (refuse none rest)

theorem separated_eq {α : Type} (trailing : Bool) (close : Symbol)
    (item : List Token → Except Refusal (α × List Token)) (ts : List Token) :
    separated trailing close item ts = item ts >>= fun x =>
      separatedRest trailing close item ts x.1 x.2 := by
  rw [separated]
  match item ts with
  | .error _ => rfl
  | .ok (first, rest) =>
    simp only [bind, Except.bind, separatedRest]
    cases separated trailing close item rest.tail <;> rfl

/-- What is made of the tokens behind a key: a colon and an expression. -/
def entryBehind (read : Nat → List Token → Except Refusal (Expr × List Token)) (key : String)
    (ts : List Token) : Except Refusal ((String × Expr) × List Token) := do
  let rest ← expect .colon ts
  let (e, rest) ← read 0 rest
  return ((key, e), rest)

/-! ### Levels -/

section Levels

variable {L power : Nat} {whole ts : List Token} {left : Expr} {s : Symbol}

theorem expression_succ_eq : expression (L + 1) power ts =
    leading (expression L) ts >>= fun x => climb L power ts x.1 x.2 := by
  rw [expression]
  cases leading (expression L) ts <;> rfl

/-- Only symbols have a power. -/
theorem exists_symbol_of_power (h : power < (headKind ts).power) :
    ∃ s, headKind ts = .symbol s := by
  cases hk : headKind ts with
  | symbol s => exact ⟨s, rfl⟩
  | _ => exact absurd (hk ▸ h) (Nat.not_lt_zero _)

theorem climb_of_power_le (h : ¬power < (headKind ts).power) :
    climb L power whole left ts = .ok (left, ts) := by
  rw [climb.eq_def]
  dsimp only
  split
  · next s hs =>
    rw [hs] at h
    exact if_neg h
  · rfl

variable (hs : headKind ts = .symbol s) (hpower : power < s.power)
include hs hpower

theorem climb_of_not_canFollow (h : canFollow s = false) :
    climb L power whole left ts = .error (refuse none ts) := by
  rw [climb.eq_def]
  simp only [hs, if_pos hpower, h]
  rfl

variable (h : canFollow s = true)
include h

theorem climb_zero_eq : climb 0 power whole left ts = .error (refuse (some .tooDeep) ts) := by
  rw [climb]
  simp only [hs, if_pos hpower, if_pos h]

theorem climb_succ_eq : climb (L + 1) power whole left ts =
    following (expression L) s whole left ts >>= fun x => climb L power whole x.1 x.2 := by
  rw [climb]
  simp only [hs, if_pos hpower, if_pos h]
  cases following (expression L) s whole left ts <;> rfl

end Levels

end Grammar

end JsonQuery
