import JsonQuery.Proofs.TapeProgress

/-!
# Readers do not notice their fuel

With more fuel a reader comes to the same, unless it was cut off. One reader **approximates**
another (`JsonQuery.Tape.Approximates`) if the two come to the same from every tape that the
first one is not cut off from. Readers that are put together from readers that approximate
others approximate what is put together from those (`JsonQuery.Tape.Approximates.bind`), and a
loop approximates the same loop with more fuel (`JsonQuery.Tape.approximates_loop`), so reading
an expression approximates reading it with more fuel (`JsonQuery.Tape.approximates_expression`).

Nothing is asked of the tape here. What a reader comes to with enough fuel is what it comes to.
-/

namespace JsonQuery

namespace Tape

/-- That a reader comes to the same as another one from every tape that it is not cut off
from. -/
def Approximates {α : Type} (x y : Reader α) : Prop :=
  ∀ t, x.outcome t = none ∨ x.outcome t = y.outcome t

section Composition

variable {α β : Type}

theorem Approximates.refl (x : Reader α) : Approximates x x := fun _ => Or.inr rfl

theorem approximates_cutOff (x : Reader α) : Approximates cutOff x := fun _ => Or.inl rfl

theorem Approximates.bind {x y : Reader α} {f g : α → Reader β} (hx : Approximates x y)
    (hf : ∀ a, Approximates (f a) (g a)) : Approximates (x >>= f) (y >>= g) := by
  intro t
  rw [outcome_bind, outcome_bind]
  rcases hx t with h | h
  · rw [h]
    exact Or.inl rfl
  · rw [h]
    match y.outcome t with
    | none => exact Or.inl rfl
    | some (.error _) => exact Or.inr rfl
    | some (.ok (a, t')) => exact hf a t'

theorem Approximates.map {x y : Reader α} (hx : Approximates x y) (f : α → β) :
    Approximates (do return f (← x)) (do return f (← y)) :=
  hx.bind fun _ => .refl _

/-- What comes behind one and the same reader. -/
theorem approximates_behind {x : Reader α} {f g : α → Reader β}
    (hf : ∀ a, Approximates (f a) (g a)) : Approximates (x >>= f) (x >>= g) :=
  (Approximates.refl x).bind hf

/-- A loop with more fuel. -/
theorem approximates_loop {round round' : α → Reader (Turn α)}
    (hround : ∀ a, Approximates (round a) (round' a)) {fuel fuel' : Nat} (hfuel : fuel ≤ fuel')
    (a : α) : Approximates (loop round fuel a) (loop round' fuel' a) := by
  induction fuel generalizing fuel' a with
  | zero => exact approximates_cutOff _
  | succ fuel ih =>
    obtain ⟨fuel', rfl⟩ := Nat.exists_eq_add_of_lt hfuel
    rw [loop, loop]
    refine (hround a).bind fun turn => ?_
    cases turn with
    | again a => exact ih (Nat.le_add_right _ _) a
    | done a => exact .refl _

end Composition

section Parts

variable {fuel fuel' : Nat} (hfuel : fuel ≤ fuel')

include hfuel in
theorem approximates_slice : Approximates (slice fuel) (slice fuel') :=
  (approximates_loop (fun s => .refl (sliceRound s)) hfuel _).bind fun _ => .refl _

include hfuel in
theorem approximates_indexOrSlice : Approximates (indexOrSlice fuel) (indexOrSlice fuel') := by
  refine approximates_behind fun first => ?_
  split
  · exact approximates_slice hfuel
  · refine approximates_behind fun second => ?_
    split
    · exact approximates_slice hfuel
    · exact .refl _

variable {read read' : Nat → Reader Expr}
  (hread : ∀ power, Approximates (read power) (read' power))
include hread

/-! ### Lists between commas -/

theorem approximates_argumentRound (args : List Expr) :
    Approximates (argumentRound read args) (argumentRound read' args) := by
  refine approximates_behind fun k => ?_
  split
  · exact .refl _
  · exact (hread 0).bind fun _ => .refl _

theorem approximates_listRound (items : List Expr) :
    Approximates (listRound read items) (listRound read' items) :=
  (hread 0).bind fun _ => .refl _

theorem approximates_hashRound (entries : List (String × Expr)) :
    Approximates (hashRound read entries) (hashRound read' entries) := by
  have hentry : Approximates (hashEntry read) (hashEntry read') :=
    approximates_behind fun key => approximates_behind fun _ => approximates_behind fun _ =>
      (hread 0).map fun e => (key.shown, e)
  exact hentry.bind fun _ => .refl _

include hfuel

theorem approximates_call (left : Expr) :
    Approximates (call fuel read left) (call fuel' read' left) := by
  rw [call.eq_def, call.eq_def]
  cases left with
  | field name =>
    exact (approximates_loop (approximates_argumentRound hread) hfuel []).bind fun _ => .refl _
  | _ => exact .refl _

theorem approximates_list : Approximates (list fuel read) (list fuel' read') :=
  (approximates_loop (approximates_listRound hread) hfuel []).bind fun _ => .refl _

theorem approximates_hash : Approximates (hash fuel read) (hash fuel' read') :=
  (approximates_loop (approximates_hashRound hread) hfuel []).map Expr.hash

/-! ### Parts of expressions -/

theorem approximates_afterDot (power : Nat) :
    Approximates (afterDot fuel read power) (afterDot fuel' read' power) := by
  refine approximates_behind fun k => ?_
  cases k with
  | name => exact hread power
  | quoted => exact hread power
  | symbol s =>
    cases s with
    | star => exact hread power
    | leftBracket => exact approximates_behind fun _ => approximates_list hfuel hread
    | leftBrace => exact approximates_behind fun _ => approximates_hash hfuel hread
    | _ => exact .refl _
  | _ => exact .refl _

theorem approximates_projected (power : Nat) :
    Approximates (projected fuel read power) (projected fuel' read' power) := by
  refine approximates_behind fun k => ?_
  split
  · exact .refl _
  · cases k with
    | symbol s =>
      cases s with
      | leftBracket => exact hread power
      | filter => exact hread power
      | dot => exact approximates_behind fun _ => approximates_afterDot hfuel hread power
      | _ => exact .refl _
    | _ => exact .refl _

theorem approximates_filtered (left : Expr) :
    Approximates (filtered fuel read left) (filtered fuel' read' left) := by
  refine (hread 0).bind fun condition => ?_
  refine approximates_behind fun _ => approximates_behind fun k => ?_
  split
  · exact .refl _
  · exact (approximates_projected hfuel hread _).bind fun _ => .refl _

/-- A position or a slice, and what is made of it. -/
theorem approximates_bracketed (left : Expr) :
    Approximates (indexOrSlice fuel >>= projectIfSlice fuel read left)
      (indexOrSlice fuel' >>= projectIfSlice fuel' read' left) := by
  refine (approximates_indexOrSlice hfuel).bind fun right => ?_
  rw [projectIfSlice.eq_def, projectIfSlice.eq_def]
  cases right with
  | slice => exact (approximates_projected hfuel hread _).map _
  | _ => exact .refl _

theorem approximates_operand (first : Cell) :
    Approximates (operand fuel read first) (operand fuel' read' first) := by
  have hprojected := approximates_projected hfuel hread
  rw [operand, operand]
  cases first.kind with
  | symbol s =>
    cases s with
    | star =>
      refine approximates_behind fun k => ?_
      split
      · exact .refl _
      · exact (hprojected _).map _
    | filter => exact approximates_filtered hfuel hread _
    | leftBrace => exact approximates_hash hfuel hread
    | leftParen => exact (hread 0).bind fun _ => .refl _
    | flatten => exact (hprojected _).map _
    | not => exact (hread _).map _
    | leftBracket =>
      refine approximates_behind fun k => ?_
      cases k with
      | number => exact approximates_bracketed hfuel hread _
      | symbol s =>
        cases s with
        | colon => exact approximates_bracketed hfuel hread _
        | star =>
          refine approximates_behind fun second => ?_
          split
          · exact approximates_behind fun _ => approximates_behind fun _ => (hprojected _).map _
          · exact approximates_list hfuel hread
        | _ => exact approximates_list hfuel hread
      | _ => exact approximates_list hfuel hread
    | reference => exact (hread _).map _
    | _ => exact .refl _
  | _ => exact .refl _

theorem approximates_following (k : Token.Kind) (left : Expr) :
    Approximates (following fuel read k left) (following fuel' read' k left) := by
  have hprojected := approximates_projected hfuel hread
  rw [following.eq_def, following.eq_def]
  cases k with
  | symbol s =>
    cases s with
    | dot =>
      refine approximates_behind fun k => ?_
      split
      · exact approximates_behind fun _ => (hprojected _).map _
      · exact (approximates_afterDot hfuel hread _).map _
    | pipe => exact (hread _).map _
    | or => exact (hread _).map _
    | and => exact (hread _).map _
    | comparison op => exact (hread _).map _
    | leftParen => exact approximates_call hfuel hread left
    | filter => exact approximates_filtered hfuel hread left
    | flatten => exact (hprojected _).map _
    | leftBracket =>
      refine approximates_behind fun k => ?_
      have hevery : Approximates
          (expect .star >>= fun _ => expect .rightBracket >>= fun _ => do
            return Expr.project left (← projected fuel read Symbol.star.power))
          (expect .star >>= fun _ => expect .rightBracket >>= fun _ => do
            return Expr.project left (← projected fuel' read' Symbol.star.power)) :=
        approximates_behind fun _ => approximates_behind fun _ => (hprojected _).map _
      cases k with
      | number => exact approximates_bracketed hfuel hread left
      | symbol s =>
        cases s with
        | colon => exact approximates_bracketed hfuel hread left
        | _ => exact hevery
      | _ => exact hevery
    | _ => exact .refl _
  | _ => exact .refl _

/-! ### Expressions -/

theorem approximates_climbRound (power : Nat) (left : Expr) :
    Approximates (climbRound fuel read power left) (climbRound fuel' read' power left) := by
  refine approximates_behind fun next => ?_
  split
  · split
    · exact approximates_behind fun _ => approximates_behind fun _ =>
        (approximates_following hfuel hread next left).map Turn.again
    · exact .refl _
  · exact .refl _

theorem approximates_nested (power : Nat) :
    Approximates (nested fuel read power) (nested fuel' read' power) :=
  approximates_behind fun _ => approximates_behind fun first => approximates_behind fun _ =>
    (approximates_operand hfuel hread first).bind
      (approximates_loop (approximates_climbRound hfuel hread power) hfuel)

end Parts

/-- **Reading an expression with more fuel** comes to the same, unless it was cut off. -/
theorem approximates_expression {fuel fuel' : Nat} (hfuel : fuel ≤ fuel') (power : Nat) :
    Approximates (expression fuel power) (expression fuel' power) := by
  induction fuel generalizing fuel' power with
  | zero => exact approximates_cutOff _
  | succ fuel ih =>
    obtain ⟨more, rfl⟩ := Nat.exists_eq_add_of_lt hfuel
    have hle := Nat.le_add_right fuel more
    rw [expression, expression]
    exact approximates_behind fun _ =>
      (approximates_nested hle (ih hle) power).bind fun _ => .refl _

theorem approximates_root {fuel fuel' : Nat} (hfuel : fuel ≤ fuel') :
    Approximates (root fuel) (root fuel') :=
  (approximates_expression hfuel 0).bind fun _ => .refl _

end Tape

end JsonQuery
