import JsonQuery.Proofs.TapeFuel
import JsonQuery.Proofs.TapeReading

/-!
# A tape is read as its tokens are

Reading from a tape comes to what the grammar comes to on the tokens of the tape: the same
expression, with the cursor at the end, or the same refusal (`JsonQuery.Tape.root_ofTokens`).
So what is shown of the reader with the cursor is not about some other program than the one that
compiles queries.

There is one lemma for each part of an expression, about an arbitrary reader of expressions that
mirrors an arbitrary one of the grammar (`JsonQuery.Tape.Reads`). The two sides measure levels
in opposite ways. The tape counts the levels that are open and gives up above the limit, and the
grammar counts those that are left and gives up at none, so the invariant is that the two add up
to the limit (`JsonQuery.Tape.mirrors_expression`). A symbol behind an operand opens a level, and
all of them are given back behind the last one, which is why the lemma about their loop is about
what the whole expression makes of the tape (`JsonQuery.Tape.mirrors_climb`).

On the tape the operand of a call without a name is looked for by its number, two cells before
the cursor, and the grammar finds it by the lengths of what was left before and behind it. These
are the same as long as the operand was read from somewhere before the parenthesis
(`JsonQuery.Tape.tokenBefore_drop`).
-/

namespace JsonQuery

namespace Tape

open Grammar (Refusal headKind startsPosition_iff startsWith startsWith_iff_headKind)

/-! ### Loops of items -/

section Loops

variable {ts : List Token} {n d : Nat} {read : Nat → Reader Expr}

/-- What is left of a list behind some of its items. -/
def listRest (read : Nat → Reader Expr) (fuel : Nat) (items : List Expr) :
    Reader (List Expr) := do
  let items ← loop (listRound read) fuel items
  expect .rightBracket
  return items

/-- What is left of a list behind one of its items. -/
def listNext (read : Nat → Reader Expr) (fuel : Nat) (items : List Expr) (e : Expr) :
    Reader (List Expr) := do
  if (← kind) = .symbol .rightBracket then
    expect .rightBracket
    return items ++ [e]
  else
    expect .comma
    listRest read fuel (items ++ [e])

theorem listRest_goesThrough :
    GoesThrough ts n d false .rightBracket (read 0) (listNext read) (listRest read) where
  closed h := absurd h Bool.false_ne_true
  item _ fuel items := by
    congr 1
    rw [listRest, loop, listRound, bind_assoc, bind_assoc]
    congr
    funext e
    rw [listNext, bind_assoc]
    congr
    funext k
    split
    · simp only [pure_bind]
    · simp only [bind_assoc, pure_bind, listRest]
  last h fuel items e := by
    rw [listNext, outcome_bind_ok outcome_kind, if_pos h, outcome_bind_ok (outcome_expect h)]
    rfl
  comma h fuel items e := by
    rw [listNext, outcome_bind_ok outcome_kind, if_neg (by simp [h]),
      outcome_bind_ok (outcome_expect h)]
  other h h' fuel items e := by
    rw [listNext, outcome_bind_ok outcome_kind, if_neg h,
      outcome_bind_error (outcome_expect_of_ne h')]

/-- What is left of a keyed list behind one of its entries. -/
def hashNext (read : Nat → Reader Expr) (fuel : Nat) (entries : List (String × Expr))
    (entry : String × Expr) : Reader (List (String × Expr)) := do
  match ← kind with
  | .symbol .comma =>
    advance
    loop (hashRound read) fuel (entries ++ [entry])
  | .symbol .rightBrace =>
    advance
    return entries ++ [entry]
  | _ => refuse none

theorem hashRound_goesThrough :
    GoesThrough ts n d false .rightBrace (hashEntry read) (hashNext read)
      (loop (hashRound read)) where
  closed h := absurd h Bool.false_ne_true
  item _ fuel entries := by
    congr 1
    rw [loop, hashRound, bind_assoc]
    congr
    funext entry
    rw [hashNext, bind_assoc]
    congr
    funext k
    cases k with
    | symbol s =>
      cases s with
      | comma => simp only [bind_assoc, pure_bind]
      | rightBrace => simp only [bind_assoc, pure_bind]
      | _ => exact refuse_bind _ _
    | _ => exact refuse_bind _ _
  last h fuel entries entry := by
    rw [hashNext, outcome_bind_ok outcome_kind, h]
    exact outcome_bind_ok (outcome_advance (lt_length_of_headKind h (by simp)))
  comma h fuel entries entry := by
    rw [hashNext, outcome_bind_ok outcome_kind, h]
    exact outcome_bind_ok (outcome_advance (lt_length_of_headKind h (by simp)))
  other h h' fuel entries entry := by
    rw [hashNext, outcome_bind_ok outcome_kind]
    split
    · next hcomma => exact absurd hcomma h'
    · next hclose => exact absurd hclose h
    · exact outcome_refuse none

/-- What is left of the arguments of a call behind some of them. -/
def argumentsRest (read : Nat → Reader Expr) (fuel : Nat) (args : List Expr) :
    Reader (List Expr) := do
  let args ← loop (argumentRound read) fuel args
  expect .rightParen
  return args

/-- What is left of the arguments of a call behind one of them. -/
def argumentNext (read : Nat → Reader Expr) (fuel : Nat) (args : List Expr) (e : Expr) :
    Reader (List Expr) := do
  match ← kind with
  | .symbol .comma =>
    advance
    argumentsRest read fuel (args ++ [e])
  | .symbol .rightParen => argumentsRest read fuel (args ++ [e])
  | _ => refuse none

theorem outcome_argumentsRest {p : Nat} (h : headKind (ts.drop p) = .symbol .rightParen)
    (fuel : Nat) (args : List Expr) :
    (argumentsRest read (fuel + 1) args).outcome (on ts n p d) =
      some (.ok (args, on ts n (p + 1) d)) := by
  have hround : (argumentRound read args).outcome (on ts n p d) =
      some (.ok (.done args, on ts n p d)) := by
    rw [argumentRound, outcome_bind_ok outcome_kind, if_pos h]
    rfl
  rw [argumentsRest, loop, bind_assoc, outcome_bind_ok hround]
  simp only [pure_bind]
  exact outcome_bind_ok (outcome_expect h)

theorem argumentsRest_goesThrough :
    GoesThrough ts n d true .rightParen (read 0) (argumentNext read) (argumentsRest read) where
  closed _ h fuel args := outcome_argumentsRest h fuel args
  item {p} h fuel args := by
    have hopen : headKind (ts.drop p) ≠ .symbol .rightParen := fun hclose => h ⟨rfl, hclose⟩
    rw [argumentsRest, loop, argumentRound, bind_assoc, bind_assoc,
      outcome_bind_ok outcome_kind, if_neg hopen, bind_assoc]
    congr
    funext e
    rw [argumentNext, bind_assoc]
    congr
    funext k
    cases k with
    | symbol s =>
      cases s with
      | comma => simp only [bind_assoc, pure_bind, argumentsRest]
      | rightParen => simp only [pure_bind, argumentsRest]
      | _ => exact refuse_bind _ _
    | _ => exact refuse_bind _ _
  last h fuel args e := by
    rw [argumentNext, outcome_bind_ok outcome_kind, h]
    exact outcome_argumentsRest h fuel _
  comma h fuel args e := by
    rw [argumentNext, outcome_bind_ok outcome_kind, h]
    exact outcome_bind_ok (outcome_advance (lt_length_of_headKind h (by simp)))
  other h h' fuel args e := by
    rw [argumentNext, outcome_bind_ok outcome_kind]
    split
    · next hcomma => exact absurd hcomma h'
    · next hclose => exact absurd hclose h
    · exact outcome_refuse none

end Loops

/-! ### Parts of expressions -/

/-- That two readers of expressions, one of a tape and one of the grammar, mirror one another
wherever there is fuel, and that an expression moves the cursor on. -/
def Reads (ts : List Token) (n d fuel : Nat) (read : Nat → Reader Expr)
    (g : Nat → List Token → Except Refusal (Expr × List Token)) : Prop :=
  ∀ power p, InReach ts fuel p →
    Mirrors ts n d (p + 1) ((read power).outcome (on ts n p d)) (g power (ts.drop p))

section Parts

variable {ts : List Token} {n d fuel : Nat} {read : Nat → Reader Expr}
  {g : Nat → List Token → Except Refusal (Expr × List Token)} (hread : Reads ts n d fuel read g)
  {p : Nat} (hp : InReach ts fuel p)
include hread hp

theorem mirrors_list :
    Mirrors ts n d p ((list fuel read).outcome (on ts n p d))
      (Grammar.listItems g (ts.drop p)) := by
  have hitems := listRest_goesThrough.mirrors_nil
    (fun q hpq hq => hread 0 q (hp.mono hpq hq)) hp (by simp)
  have hlist : list fuel read = listRest read fuel [] >>= fun items => return .list items := by
    rw [list, listRest]
    simp only [bind_assoc, pure_bind]
  rw [hlist]
  exact hitems.bind fun items q hpq hq => mirrors_pure hpq hq _

theorem mirrors_hashEntry :
    Mirrors ts n d (p + 1) ((hashEntry read).outcome (on ts n p d))
      (Grammar.hashEntry g (ts.drop p)) := by
  have hkey : ∀ key, Mirrors ts n d (p + 1) ((do
      expect .colon
      let e ← read 0
      return (key, e) : Reader (String × Expr)).outcome (on ts n (p + 1) d))
      (Grammar.entryBehind g key (ts.drop (p + 1))) := fun key =>
    mirrors_expect _ fun hlt => (hread 0 _ (hp.mono (Nat.le_add_right p 2) hlt)).bind
      fun e q hmoved hq => mirrors_pure (by omega) hq (key, e)
  have hrefuse : (refuse none : Reader Unit).outcome (on ts n p d) = _ := outcome_refuse none
  rw [hashEntry, outcome_bind_ok (outcome_ahead 0), Nat.add_zero, outcome_bind, expectName,
    outcome_bind_ok outcome_kind]
  rcases h : ts.drop p with _ | ⟨⟨l, a, b⟩, us⟩
  · rw [h] at hrefuse
    dsimp only [headKind]
    rw [hrefuse]
    exact .refusal _
  · obtain ⟨hhere, rfl⟩ := Scan.drop_eq_cons h
    have hlt : p < ts.length := Scan.lt_length_of_drop_eq_cons h
    rw [h] at hrefuse
    cases l with
    | name key =>
      dsimp only [headKind, Token.kind, Token.Lexeme.kind]
      rw [outcome_advance hlt]
      exact hkey key
    | quoted key =>
      dsimp only [headKind, Token.kind, Token.Lexeme.kind]
      rw [outcome_advance hlt]
      exact hkey key
    | literal | number | symbol =>
      dsimp only [headKind, Token.kind, Token.Lexeme.kind]
      rw [hrefuse]
      exact .refusal _

theorem mirrors_hash :
    Mirrors ts n d p ((Tape.hash fuel read).outcome (on ts n p d))
      (Grammar.hashEntries g (ts.drop p)) := by
  rw [Tape.hash]
  refine (hashRound_goesThrough.mirrors_nil
    (fun q hpq hq => mirrors_hashEntry hread (hp.mono hpq hq)) hp (by simp)).bind ?_
  exact fun entries q hpq hq => mirrors_pure hpq hq _

theorem mirrors_arguments :
    Mirrors ts n d p ((argumentsRest read fuel []).outcome (on ts n p d))
      (Grammar.arguments g (ts.drop p)) := by
  obtain ⟨fuel, rfl⟩ := hp.exists_fuel
  rw [Grammar.arguments]
  split
  · next h =>
    have hclose := startsWith_iff_headKind.mp h
    rw [outcome_argumentsRest hclose, List.tail_drop]
    exact .value _ (Nat.le_succ p) (lt_length_of_headKind hclose (by simp))
  · next h =>
    exact argumentsRest_goesThrough.mirrors_nil
      (fun q hpq hq => hread 0 q (hp.mono hpq hq)) hp
      fun hclose => h (startsWith_iff_headKind.mpr hclose.2)

theorem mirrors_afterDot (power : Nat) :
    Mirrors ts n d p ((afterDot fuel read power).outcome (on ts n p d))
      (Grammar.afterDot g power (ts.drop p)) := by
  have hexpression := (hread power p hp).mono (Nat.le_succ p)
  rw [afterDot, outcome_bind_ok outcome_kind, Grammar.afterDot]
  cases h : headKind (ts.drop p) with
  | name => exact hexpression
  | quoted => exact hexpression
  | ended => exact mirrors_refuse none
  | literal => exact mirrors_refuse none
  | number => exact mirrors_refuse none
  | symbol s =>
    have hlt := lt_length_of_headKind h (by simp)
    have hp' := hp.mono (Nat.le_succ p) hlt
    cases s with
    | star => exact hexpression
    | leftBracket =>
      simp only [outcome_bind_ok (outcome_advance hlt), List.tail_drop]
      exact (mirrors_list hread hp').mono (Nat.le_succ p)
    | leftBrace =>
      simp only [outcome_bind_ok (outcome_advance hlt), List.tail_drop]
      exact (mirrors_hash hread hp').mono (Nat.le_succ p)
    | _ => exact mirrors_refuse none

theorem mirrors_projected (power : Nat) :
    Mirrors ts n d p ((projected fuel read power).outcome (on ts n p d))
      (Grammar.projected g power (ts.drop p)) := by
  have hexpression := (hread power p hp).mono (Nat.le_succ p)
  rw [projected, outcome_bind_ok outcome_kind, Grammar.projected]
  split
  · exact mirrors_pure (Nat.le_refl p) hp.le_length _
  · cases h : headKind (ts.drop p) with
    | symbol s =>
      cases s with
      | leftBracket => exact hexpression
      | filter => exact hexpression
      | dot =>
        have hlt := lt_length_of_headKind h (by simp)
        simp only [outcome_bind_ok (outcome_expect h), List.tail_drop]
        exact (mirrors_afterDot hread (hp.mono (Nat.le_succ p) hlt) power).mono (Nat.le_succ p)
      | _ => exact mirrors_refuse none
    | _ => exact mirrors_refuse none

/-- A right side, and what is made of it. -/
theorem mirrors_projection (power : Nat) (make : Expr → Expr) :
    Mirrors ts n d p ((do return make (← projected fuel read power) : Reader Expr).outcome
      (on ts n p d)) (do
        let (right, us) ← Grammar.projected g power (ts.drop p)
        return (make right, us)) :=
  (mirrors_projected hread hp power).bind fun _ _ hpq hq => mirrors_pure hpq hq _

/-- An expression, and what is made of it. -/
theorem mirrors_wrapped (power : Nat) (make : Expr → Expr) :
    Mirrors ts n d p ((do return make (← read power) : Reader Expr).outcome (on ts n p d)) (do
      let (e, us) ← g power (ts.drop p)
      return (make e, us)) :=
  (hread power p hp).bind fun _ _ hmoved hq => mirrors_pure (Nat.le_of_succ_le hmoved) hq _

theorem mirrors_filtered (left : Expr) :
    Mirrors ts n d p ((filtered fuel read left).outcome (on ts n p d))
      (Grammar.filtered g left (ts.drop p)) := by
  rw [filtered]
  refine (hread 0 p hp).bind fun condition q hmoved hq => mirrors_expect _ fun hlt => ?_
  have hpq : p ≤ q + 1 := by omega
  refine mirrors_if (fun _ => mirrors_pure hpq hlt _) fun _ => ?_
  exact (mirrors_projected hread (hp.mono hpq hlt) _).bind fun right u hqu hu =>
    mirrors_pure (Nat.le_trans hpq hqu) hu _

/-- A position or a slice, and what is made of it. -/
theorem mirrors_bracketed (hfits : NumbersFit ts)
    (hposition : Grammar.startsPosition (ts.drop p) = true) (left : Expr) :
    Mirrors ts n d p
      ((indexOrSlice fuel >>= projectIfSlice fuel read left).outcome (on ts n p d))
      (Grammar.bracketed g left (ts.drop p)) := by
  refine (mirrors_indexOrSlice hfits hp hposition).bind fun right q hpq hq => ?_
  rw [projectIfSlice.eq_def]
  cases right with
  | slice start stop step =>
    exact (mirrors_projection hread (hp.mono hpq hq) _ _).mono hpq
  | _ => exact mirrors_pure hpq hq _

/-- Behind an opening bracket, where a position or a slice may come and be made something of. -/
theorem mirrors_position (hfits : NumbersFit ts) (left : Expr) {f : Token.Kind → Reader Expr}
    (hnumber : f .number = indexOrSlice fuel >>= projectIfSlice fuel read left)
    (hcolon : f (.symbol .colon) = indexOrSlice fuel >>= projectIfSlice fuel read left)
    {o : Except Refusal (Expr × List Token)}
    (hother : headKind (ts.drop p) ≠ .number → headKind (ts.drop p) ≠ .symbol .colon →
      Mirrors ts n d p ((f (headKind (ts.drop p))).outcome (on ts n p d)) o) :
    Mirrors ts n d p ((kind >>= f).outcome (on ts n p d))
      (if Grammar.startsPosition (ts.drop p) then Grammar.bracketed g left (ts.drop p)
      else o) := by
  rw [outcome_bind_ok outcome_kind]
  by_cases hposition : Grammar.startsPosition (ts.drop p) = true
  · have hbracketed := mirrors_bracketed hread hp hfits hposition left
    rw [if_pos hposition]
    rcases startsPosition_iff.mp hposition with hk | hk
    · rwa [hk, hnumber]
    · rwa [hk, hcolon]
  · rw [if_neg hposition]
    rw [startsPosition_iff, not_or] at hposition
    exact hother hposition.1 hposition.2

/-- What an opening bracket starts. -/
theorem mirrors_operand_bracket (hfits : NumbersFit ts) :
    Mirrors ts n d p ((do
      match ← kind with
      | .number | .symbol .colon => projectIfSlice fuel read .identity (← indexOrSlice fuel)
      | .symbol .star =>
        if (← ahead 1).kind = .symbol .rightBracket then
          advance
          advance
          return .project .identity (← projected fuel read Symbol.star.power)
        else list fuel read
      | _ => list fuel read : Reader Expr).outcome (on ts n p d))
      (if Grammar.startsPosition (ts.drop p) then Grammar.bracketed g .identity (ts.drop p)
      else if startsWith .star (ts.drop p) && startsWith .rightBracket (ts.drop p).tail then
        Grammar.everyItem g .identity (ts.drop p).tail.tail
      else Grammar.listItems g (ts.drop p)) := by
  have hlist := mirrors_list hread hp
  refine mirrors_position hread hp hfits .identity rfl rfl fun hnumber hcolon => ?_
  by_cases hstar : headKind (ts.drop p) = .symbol .star
  · have hlt := lt_length_of_headKind hstar (by simp)
    rw [hstar, startsWith_iff_headKind.mpr hstar, Bool.true_and, List.tail_drop]
    simp only [outcome_bind_ok (outcome_ahead 1), kind_firstCell, startsWith_iff_headKind]
    by_cases hclose : headKind (ts.drop (p + 1)) = .symbol .rightBracket
    · have hlt' := lt_length_of_headKind hclose (by simp)
      have hpq := Nat.le_add_right p 2
      rw [if_pos hclose, if_pos hclose, outcome_bind_ok (outcome_advance hlt),
        outcome_bind_ok (outcome_advance hlt'), List.tail_drop]
      exact (mirrors_projection hread (hp.mono hpq hlt') _ _).mono hpq
    · rw [if_neg hclose, if_neg hclose]
      exact hlist
  · have hnot : ¬startsWith .star (ts.drop p) = true := mt startsWith_iff_headKind.mp hstar
    rw [if_neg (by simp [hnot])]
    split
    · next hk => exact absurd hk hnumber
    · next hk => exact absurd hk hcolon
    · next hk => exact absurd hk hstar
    · exact hlist

omit hp in
theorem mirrors_operand (hfits : NumbersFit ts) {t : Token} {us : List Token}
    (h : ts.drop p = t :: us) (hp : InReach ts fuel (p + 1)) :
    Mirrors ts n d (p + 1) ((operand fuel read (cellOf t)).outcome (on ts n (p + 1) d))
      (Grammar.leading g (t :: us)) := by
  obtain ⟨hhere, rfl⟩ := Scan.drop_eq_cons h
  have hpure : ∀ e : Expr, Mirrors ts n d (p + 1)
      ((return e : Reader Expr).outcome (on ts n (p + 1) d)) (.ok (e, ts.drop (p + 1))) :=
    mirrors_pure (Nat.le_refl _) hp.le_length
  obtain ⟨l, a, b⟩ := t
  rw [operand]
  cases l with
  | literal value => exact hpure _
  | name name => exact hpure _
  | quoted name =>
    have hfield := hpure (Expr.field name)
    dsimp only [cellOf, Token.kind, Token.Lexeme.kind]
    rw [outcome_bind_ok (outcome_ahead 0), Nat.add_zero]
    rcases hnext : ts.drop (p + 1) with _ | ⟨next, vs⟩
    · rw [hnext] at hfield
      exact hfield
    · rw [hnext] at hfield
      simp only [Grammar.leading]
      by_cases hopen : next.kind = .symbol .leftParen
      · have hcell : (firstCell n (next :: vs)).kind = .symbol .leftParen := hopen
        rw [if_pos hopen, if_pos hcell]
        exact .refusal (.token a next.shown next.kind (some .quotedFunctionName))
      · have hcell : (firstCell n (next :: vs)).kind ≠ .symbol .leftParen := hopen
        rw [if_neg hopen, if_neg hcell]
        exact hfield
  | number k => exact mirrors_refuseAt (_ :: _) _ none
  | symbol s =>
    cases s with
    | star => exact mirrors_if (fun _ => hpure _) fun _ => mirrors_projection hread hp _ _
    | filter => exact mirrors_filtered hread hp _
    | leftBrace => exact mirrors_hash hread hp
    | leftParen =>
      exact (hread 0 _ hp).bind fun e q hmoved hq => mirrors_expect _ fun hlt =>
        mirrors_pure (by omega) hlt _
    | flatten => exact mirrors_projection hread hp _ _
    | not => exact mirrors_wrapped hread hp _ _
    | leftBracket => exact mirrors_operand_bracket hread hp hfits
    | current => exact hpure _
    | reference => exact mirrors_wrapped hread hp _ _
    | _ => exact mirrors_refuseAt (_ :: _) _ none

/-- What has to follow an opening bracket behind an operand. -/
theorem mirrors_following_bracket (hfits : NumbersFit ts) (left : Expr) :
    Mirrors ts n d p ((do
      match ← kind with
      | .number | .symbol .colon => projectIfSlice fuel read left (← indexOrSlice fuel)
      | _ =>
        expect .star
        expect .rightBracket
        return .project left (← projected fuel read Symbol.star.power) : Reader Expr).outcome
          (on ts n p d))
      (if Grammar.startsPosition (ts.drop p) then Grammar.bracketed g left (ts.drop p)
      else do
        let us ← Grammar.expect .star (ts.drop p)
        let us ← Grammar.expect .rightBracket us
        Grammar.everyItem g left us) := by
  refine mirrors_position hread hp hfits left rfl rfl fun hnumber hcolon => ?_
  split
  · next hk => exact absurd hk hnumber
  · next hk => exact absurd hk hcolon
  · have hpq := Nat.le_add_right p 2
    exact mirrors_expect _ fun _ => mirrors_expect _ fun hlt =>
      (mirrors_projection hread (hp.mono hpq hlt) _ _).mono hpq

omit hread hp in
theorem tokenBefore_drop {q : Nat} (hq : q < p) (hp : p ≤ ts.length) :
    Grammar.tokenBefore (ts.drop q) (ts.drop p) = ts[p - 1]? := by
  rw [Grammar.tokenBefore, List.getElem?_drop, List.length_drop, List.length_drop]
  congr 1
  omega

omit hp in
/-- A call. The cursor is behind the opening parenthesis, and the operand was read from some
of the tokens before it. -/
theorem mirrors_call (hp : InReach ts fuel (p + 1)) {q : Nat} (hq : q < p) (left : Expr) :
    Mirrors ts n d (p + 1) ((call fuel read left).outcome (on ts n (p + 1) d)) (match left with
      | .field name => do
        let (args, rest) ← Grammar.arguments g (ts.drop (p + 1))
        return (.call name args, rest)
      | _ => match Grammar.tokenBefore (ts.drop q) (ts.drop p) with
        | some t => .error (.token t.start t.shown t.kind (some (.notFunctionName t.shown)))
        | none => .error (Grammar.refuse none (ts.drop p))) := by
  have hlt : p < ts.length := hp.le_length
  have hrefused : Mirrors ts n d (p + 1) ((do
      let previous ← cell ((← get).position - 2)
      refuseAt previous (some (.notFunctionName previous.shown)) : Reader Expr).outcome
        (on ts n (p + 1) d)) (match Grammar.tokenBefore (ts.drop q) (ts.drop p) with
      | some t => .error (.token t.start t.shown t.kind (some (.notFunctionName t.shown)))
      | none => .error (Grammar.refuse none (ts.drop p))) := by
    have hbefore : ts[p - 1]? = some ts[p - 1] := List.getElem?_eq_getElem (by omega)
    have hdrop : ts.drop (p - 1) = ts[p - 1] :: ts.drop (p - 1 + 1) :=
      List.drop_eq_getElem_cons (by omega)
    rw [tokenBefore_drop hq (Nat.le_of_lt hlt), hbefore, outcome_bind_ok (outcome_get _),
      show (on ts n (p + 1) d).position - 2 = p - 1 from rfl,
      outcome_bind_ok (outcome_cell (by omega)), hdrop]
    exact mirrors_refuseAt (_ :: _) _ _
  rw [call.eq_def]
  cases left with
  | field name =>
    have hcall : (do
        let args ← loop (argumentRound read) fuel []
        expect .rightParen
        return Expr.call name args) =
          argumentsRest read fuel [] >>= fun args => return Expr.call name args := by
      simp only [argumentsRest, bind_assoc, pure_bind]
    dsimp only
    rw [hcall]
    exact (mirrors_arguments hread hp).bind fun args u hpu hu => mirrors_pure hpu hu _
  | _ => exact hrefused

omit hp in
/-- What a symbol makes of the operand on its left. The cursor is behind the symbol, and the
operand was read from some of the tokens before it. -/
theorem mirrors_following (hfits : NumbersFit ts) (hp : InReach ts fuel (p + 1)) {q : Nat}
    (hq : q < p) (s : Symbol) (left : Expr) :
    Mirrors ts n d (p + 1) ((following fuel read (.symbol s) left).outcome (on ts n (p + 1) d))
      (Grammar.following g s (ts.drop q) left (ts.drop p)) := by
  have hlt : p < ts.length := hp.le_length
  simp only [Grammar.following, List.tail_drop]
  rw [following.eq_def]
  cases s with
  | dot =>
    refine mirrors_if (fun hstar => ?_) fun _ => ?_
    · have hlt' := lt_length_of_headKind hstar (by simp)
      have hpq := Nat.le_succ (p + 1)
      rw [outcome_bind_ok (outcome_advance hlt')]
      exact (mirrors_projection hread (hp.mono hpq hlt') _ _).mono hpq
    · exact (mirrors_afterDot hread hp _).bind fun _ _ hpu hu => mirrors_pure hpu hu _
  | pipe => exact mirrors_wrapped hread hp _ _
  | or => exact mirrors_wrapped hread hp _ _
  | and => exact mirrors_wrapped hread hp _ _
  | comparison op => exact mirrors_wrapped hread hp _ _
  | leftParen => exact mirrors_call hread hp hq left
  | filter => exact mirrors_filtered hread hp _
  | flatten => exact mirrors_projection hread hp _ _
  | leftBracket => exact mirrors_following_bracket hread hp hfits left
  | _ =>
    have hbefore : before.outcome (on ts n (p + 1) d) =
        some (.ok (firstCell n (ts.drop p), on ts n (p + 1) d)) := by
      rw [before, outcome_bind_ok (outcome_get _)]
      exact outcome_cell (Nat.le_of_lt hlt)
    dsimp only
    rw [outcome_bind_ok hbefore]
    exact mirrors_refuseAt _ _ none

end Parts

/-! ### Expressions -/

section Expressions

variable {ts : List Token} {n d p fuel : Nat}

/-- That expressions are read as the grammar reads them, with some levels open and as many
levels left, if there are fewer than a given number of them. -/
def ReadsBelow (ts : List Token) (n L fuel : Nat) (read : Nat → Reader Expr) : Prop :=
  ∀ K < L, ∀ d, K + d = Grammar.maxNesting → Reads ts n d fuel read (Grammar.expression K)

/-- What stands behind an operand. The levels that it takes are given back behind it. -/
theorem mirrors_climb (hfits : NumbersFit ts) {read : Nat → Reader Expr} {L : Nat}
    (hread : ReadsBelow ts n L fuel read) (hL : L + d = Grammar.maxNesting)
    (hp : InReach ts fuel p) {rounds : Nat} (hrounds : InReach ts rounds p) {q : Nat} (hq : q < p)
    (power depth : Nat) (left : Expr) :
    Mirrors ts n depth p ((do
      let e ← loop (climbRound fuel read power) rounds left
      ascend depth
      return e : Reader Expr).outcome (on ts n p d))
      (Grammar.climb L power (ts.drop q) left (ts.drop p)) := by
  -- On the rounds: each opens a level, and none is given back before the end.
  induction rounds generalizing L d p left with
  | zero => exact absurd hrounds.exists_fuel (by simp)
  | succ rounds ih =>
    rw [loop, bind_assoc, climbRound, bind_assoc, outcome_bind_ok outcome_kind]
    by_cases hpower : power < (headKind (ts.drop p)).power
    · obtain ⟨s, hs⟩ := Grammar.exists_symbol_of_power hpower
      have hlt := lt_length_of_headKind hs (by simp)
      rw [hs] at hpower
      simp only [hs, if_pos hpower, canFollow]
      cases hfollow : Grammar.canFollow s with
      | false =>
        rw [Grammar.climb_of_not_canFollow hs hpower hfollow, if_neg Bool.false_ne_true,
          refuse_bind]
        exact mirrors_refuse none
      | true =>
        simp only [if_pos, bind_assoc]
        cases L with
        | zero =>
          rw [outcome_bind_error (outcome_descend_of_tooDeep (by omega)),
            Grammar.climb_zero_eq hs hpower hfollow]
          exact .refusal _
        | succ L =>
          rw [outcome_bind_ok (outcome_descend (by omega)), outcome_bind_ok (outcome_advance hlt),
            Grammar.climb_succ_eq hs hpower hfollow]
          have hread' := hread L L.lt_succ_self (d + 1) (by omega)
          have hp' := hp.mono (Nat.le_succ p) hlt
          refine (mirrors_following hread' hfits hp' hq s left).bind ?_
          intro larger u hmoved hu
          rw [pure_bind]
          exact (ih (fun K hK => hread K (Nat.lt_succ_of_lt hK)) (by omega)
            (hp.mono (by omega) hu) (hrounds.next hmoved hu) (by omega) larger).mono (by omega)
    · rw [Grammar.climb_of_power_le hpower, if_neg hpower, pure_bind, pure_bind,
        outcome_bind_ok (outcome_ascend depth)]
      exact mirrors_pure (Nat.le_refl p) hp.le_length left

/-- **An expression is read from a tape as the grammar reads it**, with as many levels as are
left. -/
theorem mirrors_expression (hfits : NumbersFit ts) {L : Nat} (hL : L + d = Grammar.maxNesting) :
    Reads ts n d fuel (expression fuel) (Grammar.expression L) := by
  intro power p hp
  induction fuel generalizing L d power p with
  | zero => exact absurd hp.exists_fuel (by simp)
  | succ fuel ih =>
    -- There is a level and a token less for the expressions in this one.
    have hread : ReadsBelow ts n L fuel (expression fuel) := fun K _ e he power q hq =>
      ih he power q hq
    rw [expression, outcome_bind_ok (outcome_get _), nested]
    simp only [bind_assoc]
    cases L with
    | zero =>
      rw [outcome_bind_error (outcome_descend_of_tooDeep (by omega)), Grammar.expression]
      exact .refusal _
    | succ L =>
      rw [outcome_bind_ok (outcome_descend (by omega)), outcome_bind_ok (outcome_ahead 0),
        Nat.add_zero, Grammar.expression_succ_eq]
      rcases h : ts.drop p with _ | ⟨t, us⟩
      · rw [outcome_bind_ok (outcome_advance_of_nil h)]
        have hoperand : (operand fuel (expression fuel) (lastCell n)).outcome (on ts n p (d + 1)) =
            some (.error (.refused (.unfinished n))) := by
          rw [operand]
          rfl
        rw [firstCell, outcome_bind_error hoperand]
        exact .refusal .ended
      · have hlt : p < ts.length := Scan.lt_length_of_drop_eq_cons h
        have hp' := hp.next (Nat.le_refl _) hlt
        rw [outcome_bind_ok (outcome_advance hlt)]
        refine (mirrors_operand (hread L L.lt_succ_self (d + 1) (by omega)) hfits h hp').bind ?_
        intro left u hmoved hu
        rw [← h]
        exact (mirrors_climb hfits (fun K hK => hread K (Nat.lt_succ_of_lt hK)) (by omega)
          (hp'.mono hmoved hu) (hp'.mono hmoved hu) hmoved power d left).mono hmoved

/-- **A tape is read as the grammar reads its tokens**: to the same expression, or to the same
refusal. -/
theorem root_ofTokens (hfits : NumbersFit ts) (hfuel : ts.length < fuel) :
    (root fuel).outcome (ofTokens ts n) = some (match Expr.ofTokens ts with
      | .ok e => .ok (e, on ts n ts.length 0)
      | .error r => .error (.refused (r.fault n))) := by
  have hreach : InReach ts fuel 0 := ⟨Nat.zero_le _, by rwa [Nat.zero_add]⟩
  have hmirrors : Mirrors ts n 0 1 _ (Grammar.expression Grammar.maxNesting 0 ts) :=
    mirrors_expression hfits rfl 0 0 hreach
  rw [root, show ofTokens ts n = on ts n 0 0 from rfl, Expr.ofTokens, outcome_bind]
  revert hmirrors
  generalize (expression fuel 0).outcome (on ts n 0 0) = o,
    Grammar.expression Grammar.maxNesting 0 ts = r
  rintro (⟨e, -, hq⟩ | r)
  · rename_i q
    dsimp only
    rw [outcome_bind_ok outcome_kind]
    rcases h : ts.drop q with _ | ⟨t, us⟩
    · obtain rfl : q = ts.length := Nat.le_antisymm hq (List.drop_eq_nil_iff.mp h)
      rfl
    · rw [headKind, if_neg (kind_ne_ended t), outcome_refuse, h]
  · rfl

end Expressions

end Tape

/-! ### Texts -/

namespace Scan

open Token (Lexeme)

/-- A number that is a lexeme fits sixty-four signed bits. -/
theorem fitsSigned_of_lexeme? {c : Char} {rest : List Char} {k : Int} {width : Nat}
    (h : lexeme? c rest = .ok (.number k, width)) : Number.fitsSigned k = true := by
  have hnumber : ∀ {negative digits},
      numberLexeme negative digits = .ok (.number k, width) → Number.fitsSigned k = true := by
    intro negative digits h
    rw [numberLexeme] at h
    generalize (if negative = true then -(numberOfDigits digits : Int) else _) = m at h
    split at h
    · next hfits =>
      obtain ⟨hk, -⟩ := Prod.mk.inj (Except.ok.inj h)
      rwa [← Lexeme.number.inj hk]
    · simp at h
  have hdelimited : ∀ {d : Char} {scanner : List Char → Except String (Lexeme × Nat)},
      GoesByDelimiter d scanner → scanner rest ≠ .ok (.number k, width) :=
    fun hscanner h => (hscanner rest _ width h).1 k rfl
  unfold lexeme? at h
  split at h
  · simp at h
  · revert h
    refine of_ite_eq_ok (fun _ h => by simp at h) (of_ite_eq_ok (fun _ => hnumber)
      (of_ite_eq_ok (fun _ => of_ite_eq_ok (fun _ h => by simp at h) hnumber)
        (of_ite_eq_ok (fun _ h => absurd h (hdelimited rawString_goesByDelimiter))
          (of_ite_eq_ok (fun _ h => absurd h (hdelimited literal_goesByDelimiter))
            (of_ite_eq_ok (fun _ h => absurd h (hdelimited quotedName_goesByDelimiter))
              fun h => ?_)))))
    obtain ⟨-, s, hs⟩ := symbol_of_symbolLexeme h
    exact absurd hs (by simp)

/-- The numbers that a scan finds fit sixty-four signed bits. -/
theorem numbersFit_ofChars (cs : List Char) : Tape.NumbersFit (ofChars cs).tokens := by
  intro t ht k hk
  obtain ⟨c, -, -, hl⟩ := (covers_ofChars cs).holds t ht
  rw [hk] at hl
  exact fitsSigned_of_lexeme? hl

end Scan

namespace Tape

/-- **Reading from a tape makes progress and stays on it**, wherever the cursor is, if there is
fuel for the cells that are left; with more fuel it comes to the same; and the tape of a text
that splits into tokens is read as the text is compiled. -/
theorem reading_progresses :
    (∀ (t : Tape) (fuel : Nat), t.Valid → t.left ≤ fuel → t.MakesProgress fuel) ∧
    (∀ {fuel more : Nat}, fuel ≤ more → Approximates (root fuel) (root more) ∧
      ∀ power, Approximates (expression fuel power) (expression more power)) ∧
    ∀ {text : String} {s : Scan} {n : Nat}, Query.scan text = .ok s → s.ending = .finished n →
      (ofTokens s.tokens n).Valid ∧ ∀ fuel, (ofTokens s.tokens n).left ≤ fuel →
        (root fuel).outcome (ofTokens s.tokens n) = some (match Query.exprOfScan s with
          | .ok e => .ok (e, on s.tokens n s.tokens.length 0)
          | .error f => .error (.refused f)) := by
  refine ⟨fun t fuel => makesProgress, fun hfuel => ⟨approximates_root hfuel,
    approximates_expression hfuel⟩, fun {text s n} h hend => ?_⟩
  have hscan : Scan.ofChars text.toList = s := by
    rw [Query.scan] at h
    split at h
    · simp at h
    · exact Except.ok.inj h
  have hfits : NumbersFit s.tokens := hscan ▸ Scan.numbersFit_ofChars text.toList
  refine ⟨valid_on (Nat.zero_le _), fun fuel hfuel => ?_⟩
  rw [left, length_cells] at hfuel
  rw [root_ofTokens hfits hfuel, Query.exprOfScan, hend]
  dsimp only
  cases Expr.ofTokens s.tokens <;> rfl

/-- A tape with more colons than a slice has parts and no closing bracket, the cursor on one of
the colons, and the tape of a text with a slice, a call and lists of both kinds. -/
theorem reading_progresses_of_slice :
    (∃ t : Tape, t.Valid ∧ t.cells.map Cell.kind =
        [.symbol .leftBracket, .symbol .colon, .symbol .colon, .symbol .colon, .ended] ∧
      t.position = 1 ∧ t.left ≤ 4 ∧ t.MakesProgress 4) ∧
    (4 ≤ 5 ∧ Approximates (root 4) (root 5)) ∧
    ∃ s, Query.scan "a[:2] | f(b, [c], \x7bd: e\x7d,)" = .ok s ∧ s.ending = .finished 26 ∧
      (ofTokens s.tokens 26).Valid ∧ (ofTokens s.tokens 26).left ≤ 22 ∧
      (root 22).outcome (ofTokens s.tokens 26) = some (match Query.exprOfScan s with
        | .ok e => .ok (e, on s.tokens 26 s.tokens.length 0)
        | .error f => .error (.refused f)) := by
  obtain ⟨hprogress, hmore, hagree⟩ := reading_progresses
  refine ⟨?_, ⟨by decide, (hmore (by decide)).1⟩, ?_⟩
  · let colon (start : Nat) : Cell := ⟨.symbol .colon, .string ":", start⟩
    have hvalid : Valid ⟨[⟨.symbol .leftBracket, .string "[", 0⟩, colon 1, colon 2, colon 3] ++
        [lastCell 4], 1, 0⟩ := valid_append rfl (by simp [colon]) (by decide) 0
    exact ⟨_, hvalid, rfl, rfl, Nat.le_refl 4, hprogress _ 4 hvalid (Nat.le_refl 4)⟩
  · have hscan : Query.scan "a[:2] | f(b, [c], \x7bd: e\x7d,)" =
        .ok (Scan.ofChars "a[:2] | f(b, [c], \x7bd: e\x7d,)".toList) := if_neg (by decide +kernel)
    have hend : (Scan.ofChars "a[:2] | f(b, [c], \x7bd: e\x7d,)".toList).ending =
        .finished 26 := by decide +kernel
    have hleft : (ofTokens (Scan.ofChars
        "a[:2] | f(b, [c], \x7bd: e\x7d,)".toList).tokens 26).left ≤ 22 := by
      rw [left, length_cells]
      decide +kernel
    obtain ⟨hvalid, hread⟩ := hagree hscan hend
    exact ⟨_, hscan, hend, hvalid, hleft, hread 22 hleft⟩

end Tape

end JsonQuery
