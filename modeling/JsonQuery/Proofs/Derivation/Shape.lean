import JsonQuery.Proofs.Derivation.Rule

/-!
# The shape of derivations

Facts about derivable readings that say nothing about the expression that is read. A
reading goes forward (`JsonQuery.Grammar.Derivable.length_le`), an expression starts with a
lexeme that an operand may start with (`JsonQuery.Grammar.Derivable.startsOperand`) and
ends in front of a lexeme that does not bind more tightly than its power
(`JsonQuery.Grammar.Derivable.power_front_le`), and more levels than are needed do no harm
(`JsonQuery.Grammar.Derivable.mono`).
-/

namespace JsonQuery

open Token (Lexeme Kind)

namespace Grammar

/-! ### Taking derivations apart -/

/-- An expression is an operand and the symbols behind it. -/
theorem Derivable.expression_cases {L p : Nat} {e : Expr} {ls rest : List Lexeme}
    (h : Derivable ⟨L, .expression p e, ls, rest⟩) : ∃ K left mid, L = K + 1 ∧
      Derivable ⟨K, .operand left, ls, mid⟩ ∧ Derivable ⟨K, .climb p left e, mid, rest⟩ := by
  obtain ⟨hr, hpremises⟩ := h
  cases hr with
  | @expression K _ left _ _ mid _ =>
    obtain ⟨hleft, hclimb⟩ := List.forall_mem_cons.mp hpremises
    exact ⟨K, left, mid, rfl, hleft, List.forall_mem_singleton.mp hclimb⟩

/-- **Induction on the symbols behind an operand.** -/
theorem Derivable.climb_induction {p : Nat} {e : Expr} {rest : List Lexeme}
    {P : Nat → Expr → List Lexeme → Prop}
    (stop : ∀ {L}, (front rest).power ≤ p → P L e rest)
    (climb : ∀ {L s left larger ls mid}, p < s.power →
      Derivable ⟨L, .step s left larger, ls, mid⟩ →
      Derivable ⟨L, .climb p larger e, mid, rest⟩ → P L larger mid →
      P (L + 1) left (.symbol s :: ls))
    {L : Nat} {left : Expr} {ls : List Lexeme}
    (h : Derivable ⟨L, .climb p left e, ls, rest⟩) : P L left ls := by
  generalize hr : (⟨L, .climb p left e, ls, rest⟩ : Reading) = r at h
  induction h generalizing L left ls with
  | rule hrule hpremises ih =>
    subst hr
    cases hrule with
    | stop hlow => exact stop hlow
    | climb hp =>
      obtain ⟨hstep, hmore⟩ := List.forall_mem_cons.mp hpremises
      rw [List.forall_mem_cons, List.forall_mem_singleton] at ih
      exact climb hp hstep (List.forall_mem_singleton.mp hmore) (ih.2 rfl)

/-! ### Going forward -/

/-- How many lexemes a part has at least. -/
def Part.gain : Part → Nat
  | .climb .. | .step .. | .projected .. => 0
  | _ => 1

theorem length_sliceText (start stop : Option Int) (step : Option (Option Int))
    (rest : List Lexeme) : rest.length < (sliceText start stop step rest).length := by
  cases start <;> cases stop <;> rcases step with _ | _ | _ <;>
    simp [sliceText, withBound] <;> omega

/-- **A reading goes forward**, by as many lexemes as its part has at least. -/
theorem Derivable.length_le {r : Reading} (h : Derivable r) :
    r.after.length + r.part.gain ≤ r.before.length := by
  induction h with
  | rule hr _ ih =>
    cases hr with
    | @slice L left right start stop step mid rest =>
      have hmid := length_sliceText start stop step mid
      simp only [List.mem_singleton, forall_eq, Part.gain] at ih ⊢
      omega
    | _ =>
      simp only [List.mem_cons, List.not_mem_nil, or_false, forall_eq_or_imp, forall_eq,
        Part.gain, List.length_cons] at ih ⊢
      omega

/-! ### Where expressions start and end -/

/-- The kinds that an operand may start with. -/
def startsOperand : Kind → Bool
  | .name | .quoted | .literal => true
  | .symbol s =>
    match s with
    | .star | .filter | .leftBrace | .leftParen | .flatten | .not | .leftBracket | .current
    | .reference => true
    | _ => false
  | _ => false

theorem Derivable.startsOperand {L p : Nat} {e : Expr} {ls rest : List Lexeme}
    (h : Derivable ⟨L, .expression p e, ls, rest⟩) : startsOperand (front ls) = true := by
  obtain ⟨K, left, mid, -, ⟨hr, -⟩, -⟩ := h.expression_cases
  cases hr <;> rfl

/-- Behind an expression there is no symbol of a higher power than its own. -/
theorem Derivable.power_front_le {L p : Nat} {e : Expr} {ls rest : List Lexeme}
    (h : Derivable ⟨L, .expression p e, ls, rest⟩) : (front rest).power ≤ p := by
  obtain ⟨K, left, mid, -, -, hclimb⟩ := h.expression_cases
  exact hclimb.climb_induction (P := fun _ _ _ => (front rest).power ≤ p) id
    fun _ _ _ hlow => hlow

/-- Before a symbol of no higher power an operand is all that there is. -/
theorem Derivable.climb_of_power_le {L p : Nat} {left e : Expr} {ls rest : List Lexeme}
    (h : Derivable ⟨L, .climb p left e, ls, rest⟩) (hlow : (front ls).power ≤ p) :
    e = left ∧ rest = ls := by
  obtain ⟨hr, -⟩ := h
  cases hr with
  | stop => exact ⟨rfl, rfl⟩
  | climb hp => exact absurd hlow (Nat.not_le.mpr hp)

/-! ### Identifiers -/

/-- An **identifier**, with or without quotation marks. -/
structure Identifier where
  /-- Whether it stands between quotation marks. -/
  quoted : Bool
  /-- What it says. -/
  text : String

/-- The lexeme of an identifier. -/
def Identifier.lexeme (k : Identifier) : Lexeme :=
  if k.quoted then .quoted k.text else .name k.text

theorem Identifier.lexeme_eq_or (k : Identifier) :
    k.lexeme = .name k.text ∨ k.lexeme = .quoted k.text := by
  obtain ⟨quoted, text⟩ := k
  cases quoted
  · exact Or.inl rfl
  · exact Or.inr rfl

/-! ### Levels -/

/-- A reading with some more levels. -/
def Reading.lift (k : Nat) (r : Reading) : Reading :=
  { r with levels := r.levels + k }

theorem Rule.lift {r : Reading} {premises : List Reading} (hr : Rule r premises) (k : Nat) :
    Rule (r.lift k) (premises.map (Reading.lift k)) := by
  cases hr with
  | expression =>
    simp only [Reading.lift, Nat.add_right_comm _ 1 k, List.map]
    exact .expression
  | climb h =>
    simp only [Reading.lift, Nat.add_right_comm _ 1 k, List.map]
    exact .climb h
  | _ => constructor <;> assumption

/-- **More levels do no harm.** -/
theorem Derivable.lift {r : Reading} (h : Derivable r) (k : Nat) : Derivable (r.lift k) := by
  induction h with
  | rule hr _ ih =>
    refine .rule (hr.lift k) fun q hq => ?_
    obtain ⟨p, hp, rfl⟩ := List.mem_map.mp hq
    exact ih p hp

theorem Derivable.mono {L M : Nat} {part : Part} {ls rest : List Lexeme}
    (h : Derivable ⟨L, part, ls, rest⟩) (hle : L ≤ M) : Derivable ⟨M, part, ls, rest⟩ := by
  obtain ⟨k, rfl⟩ := Nat.exists_eq_add_of_le hle
  exact h.lift k

end Grammar

end JsonQuery
