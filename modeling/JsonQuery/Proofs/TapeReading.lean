import JsonQuery.Proofs.GrammarSteps
import JsonQuery.Proofs.TapeProgress
import JsonQuery.Proofs.TokenSpans

/-!
# The tape of some tokens

What the readers of a tape see when the tape is that of some tokens. The cursor stands on one of
the tokens or behind all of them (`JsonQuery.Tape.on`), so under it is the first of the tokens
that are left, and what a function of the grammar is handed as a list is here a place.

A reader **mirrors** a function of the grammar (`JsonQuery.Tape.Mirrors`) if from such a place
it comes to the same value, with the cursor where the list that the function leaves starts, or
to the same refusal. It is a relation between two results, so that the steps of a reader and
those of a function can be gone through side by side and need not be of one form. Beside the
result it says how far the cursor has moved, since a reader goes only as far as there is fuel
for the tokens that are left (`JsonQuery.Tape.InReach`).

There are two places where the steps are not of one form, and both are dealt with here. A slice
is read in rounds, one for each number and each colon, while the grammar takes its three parts
one after the other (`JsonQuery.Tape.mirrors_indexOrSlice`). And the items of a list are gathered
in a loop that goes on with the items so far, while the grammar puts an item in front of what
comes of the rest (`JsonQuery.Tape.GoesThrough.mirrors`).
-/

namespace JsonQuery

namespace Tape

open Grammar (Refusal headKind separatedRest separated_eq startsPosition_iff startsWith
  startsWith_iff_headKind)

/-! ### The tape of some tokens -/

/-- The tape of some tokens with the cursor on one of them, and some levels open. -/
def on (ts : List Token) (length position depth : Nat) : Tape :=
  ⟨(ofTokens ts length).cells, position, depth⟩

/-- The first cell of what is left of some tokens. -/
def firstCell (length : Nat) : List Token → Cell
  | [] => lastCell length
  | t :: _ => cellOf t

theorem kind_ne_ended (t : Token) : t.kind ≠ .ended := by
  rw [Token.kind]
  cases t.lexeme <;> exact Token.Kind.noConfusion

theorem kind_firstCell (length : Nat) (us : List Token) :
    (firstCell length us).kind = headKind us := by
  cases us <;> rfl

/-- The first cell is refused as the first token is. -/
theorem fault_firstCell (length : Nat) (reason : Option Reason) (us : List Token) :
    (firstCell length us).fault reason = (Grammar.refuse reason us).fault length := by
  cases us with
  | nil => rfl
  | cons t us => exact if_neg (kind_ne_ended t)

section

variable {ts : List Token} {n p d : Nat}

theorem length_cells : (ofTokens ts n).cells.length = ts.length + 1 := by
  rw [ofTokens, List.length_append, List.length_map, List.length_singleton]

theorem length_cells_sub_one : (on ts n p d).cells.length - 1 = ts.length := by
  rw [on, length_cells]
  rfl

theorem getElem?_cells (hp : p ≤ ts.length) :
    (ofTokens ts n).cells[p]? = some (firstCell n (ts.drop p)) := by
  simp only [ofTokens]
  induction ts generalizing p with
  | nil =>
    obtain rfl : p = 0 := Nat.le_zero.mp hp
    rfl
  | cons t ts ih =>
    cases p with
    | zero => rfl
    | succ p => exact ih (Nat.le_of_succ_le_succ hp)

/-- The tape of some tokens is valid. -/
theorem valid_on (hp : p ≤ ts.length) : (on ts n p d).Valid := by
  refine valid_append rfl (fun c hc => ?_) (by rwa [List.length_map]) d
  obtain ⟨t, -, rfl⟩ := List.mem_map.mp hc
  exact kind_ne_ended t

/-! ### Looking and moving -/

theorem outcome_bind_ok {α β : Type} {x : Reader α} {f : α → Reader β} {t t' : Tape} {a : α}
    (h : x.outcome t = some (.ok (a, t'))) : (x >>= f).outcome t = (f a).outcome t' := by
  rw [outcome_bind, h]

theorem outcome_bind_error {α β : Type} {x : Reader α} {f : α → Reader β} {t : Tape} {e : Halt}
    (h : x.outcome t = some (.error e)) : (x >>= f).outcome t = some (.error e) := by
  rw [outcome_bind, h]

theorem refuse_bind {α β : Type} (reason : Option Reason) (f : α → Reader β) :
    (refuse reason >>= f) = refuse reason := by
  rw [refuse, bind_assoc, refuse]
  congr

theorem outcome_get (t : Tape) : (get : Reader Tape).outcome t = some (.ok (t, t)) := rfl

theorem outcome_cell (hp : p ≤ ts.length) {q : Nat} :
    (cell p).outcome (on ts n q d) = some (.ok (firstCell n (ts.drop p), on ts n q d)) := by
  have hcell : (on ts n q d).cells[p]? = some (firstCell n (ts.drop p)) := getElem?_cells hp
  rw [cell, outcome_bind_ok (outcome_get _)]
  simp only [hcell]
  rfl

theorem outcome_ahead (offset : Nat) :
    (ahead offset).outcome (on ts n p d) =
      some (.ok (firstCell n (ts.drop (p + offset)), on ts n p d)) := by
  rw [ahead, outcome_bind_ok (outcome_get _)]
  have hdrop : ts.drop (min (p + offset) ts.length) = ts.drop (p + offset) := by
    rcases Nat.le_total (p + offset) ts.length with h | h
    · rw [Nat.min_eq_left h]
    · rw [Nat.min_eq_right h, List.drop_length, List.drop_of_length_le h]
  rw [length_cells_sub_one, show (on ts n p d).position = p from rfl,
    outcome_cell (Nat.min_le_right _ _), hdrop]

theorem outcome_kind :
    kind.outcome (on ts n p d) = some (.ok (headKind (ts.drop p), on ts n p d)) := by
  rw [kind, outcome_bind_ok (outcome_ahead 0), kind_firstCell]
  rfl

theorem outcome_advance_eq : advance.outcome (on ts n p d) =
    some (.ok ((), if p < ts.length then on ts n (p + 1) d else on ts n p d)) := by
  have hlast : (on ts n p d).cells.length - 1 = ts.length := length_cells_sub_one
  rw [← hlast]
  rfl

theorem outcome_advance (hp : p < ts.length) :
    advance.outcome (on ts n p d) = some (.ok ((), on ts n (p + 1) d)) := by
  rw [outcome_advance_eq, if_pos hp]

theorem outcome_advance_of_nil (h : ts.drop p = []) :
    advance.outcome (on ts n p d) = some (.ok ((), on ts n p d)) := by
  rw [outcome_advance_eq, if_neg (Nat.not_lt.mpr (List.drop_eq_nil_iff.mp h))]

theorem outcome_refuse {α : Type} (reason : Option Reason) :
    (refuse reason : Reader α).outcome (on ts n p d) =
      some (.error (.refused ((Grammar.refuse reason (ts.drop p)).fault n))) := by
  rw [refuse, outcome_bind_ok (outcome_ahead 0), ← fault_firstCell]
  rfl

theorem outcome_descend_eq : descend.outcome (on ts n p d) =
    (if Grammar.maxNesting < d + 1 then refuse (some .tooDeep) else pure () : Reader Unit).outcome
      (on ts n p (d + 1)) := rfl

/-- There is a level left. -/
theorem outcome_descend (h : d < Grammar.maxNesting) :
    descend.outcome (on ts n p d) = some (.ok ((), on ts n p (d + 1))) := by
  rw [outcome_descend_eq, if_neg (Nat.not_lt.mpr h)]
  rfl

/-- There is no level left. -/
theorem outcome_descend_of_tooDeep (h : Grammar.maxNesting ≤ d) :
    descend.outcome (on ts n p d) =
      some (.error (.refused ((Grammar.refuse (some .tooDeep) (ts.drop p)).fault n))) := by
  rw [outcome_descend_eq, if_pos (Nat.lt_succ_of_le h)]
  exact outcome_refuse _

/-- The levels that reading took are given back. -/
theorem outcome_ascend (depth : Nat) :
    (ascend depth).outcome (on ts n p d) = some (.ok ((), on ts n p depth)) := rfl

end

/-! ### Readings that mirror one another -/

/-- That a reader comes to the same on a tape as a function of the grammar on the tokens that
are left: to the same value, with the cursor where what is left then starts, or to the same
refusal. The cursor does not stand before a given place then. -/
inductive Mirrors (ts : List Token) (n d m : Nat) {α : Type} :
    Option (Except Halt (α × Tape)) → Except Refusal (α × List Token) → Prop
  /-- There is a value. -/
  | value (a : α) {p : Nat} (hm : m ≤ p) (hp : p ≤ ts.length) :
      Mirrors ts n d m (some (.ok (a, on ts n p d))) (.ok (a, ts.drop p))
  /-- The expression is refused. -/
  | refusal (r : Refusal) : Mirrors ts n d m (some (.error (.refused (r.fault n)))) (.error r)

section Mirrors

variable {ts : List Token} {n p d m m' : Nat} {α β : Type}

theorem Mirrors.mono {o : Option (Except Halt (α × Tape))} {g : Except Refusal (α × List Token)}
    (h : Mirrors ts n d m o g) (hle : m' ≤ m) : Mirrors ts n d m' o g := by
  cases h with
  | value a hm hp => exact .value a (Nat.le_trans hle hm) hp
  | refusal r => exact .refusal r

theorem mirrors_pure (hm : m ≤ p) (hp : p ≤ ts.length) (a : α) :
    Mirrors ts n d m ((pure a : Reader α).outcome (on ts n p d)) (.ok (a, ts.drop p)) :=
  .value a hm hp

theorem mirrors_refuse {d' : Nat} (reason : Option Reason) :
    Mirrors ts n d' m ((refuse reason : Reader α).outcome (on ts n p d))
      (.error (Grammar.refuse reason (ts.drop p))) := by
  rw [outcome_refuse]
  exact .refusal _

theorem Mirrors.bind {d' : Nat} {x : Reader α} {f : α → Reader β} {t : Tape}
    {g : Except Refusal (α × List Token)} {k : α × List Token → Except Refusal (β × List Token)}
    (hx : Mirrors ts n d m (x.outcome t) g)
    (hf : ∀ a q, m ≤ q → q ≤ ts.length →
      Mirrors ts n d' m' ((f a).outcome (on ts n q d)) (k (a, ts.drop q))) :
    Mirrors ts n d' m' ((x >>= f).outcome t) (g >>= k) := by
  rw [outcome_bind]
  revert hx
  generalize x.outcome t = o
  rintro (⟨a, hm, hq⟩ | r)
  · exact hf a _ hm hq
  · exact .refusal r

/-- There is a token if something is known of its kind. -/
theorem lt_length_of_headKind {k : Token.Kind} (h : headKind (ts.drop p) = k) (hk : k ≠ .ended) :
    p < ts.length := by
  refine Nat.lt_of_not_le fun hle => hk ?_
  rw [← h, List.drop_of_length_le hle]
  rfl

theorem outcome_expect {s : Symbol} (h : headKind (ts.drop p) = .symbol s) :
    (expect s).outcome (on ts n p d) = some (.ok ((), on ts n (p + 1) d)) := by
  rw [expect, outcome_bind_ok outcome_kind, if_pos h]
  exact outcome_advance (lt_length_of_headKind h (by simp))

theorem outcome_expect_of_ne {s : Symbol} (h : headKind (ts.drop p) ≠ .symbol s) :
    (expect s).outcome (on ts n p d) =
      some (.error (.refused ((Grammar.refuse none (ts.drop p)).fault n))) := by
  rw [expect, outcome_bind_ok outcome_kind, if_neg h, outcome_refuse]

theorem mirrors_expect (s : Symbol) {f : Unit → Reader α}
    {k : List Token → Except Refusal (α × List Token)}
    (hf : p < ts.length →
      Mirrors ts n d m ((f ()).outcome (on ts n (p + 1) d)) (k (ts.drop (p + 1)))) :
    Mirrors ts n d m ((expect s >>= f).outcome (on ts n p d))
      (Grammar.expect s (ts.drop p) >>= k) := by
  rw [Grammar.expect]
  by_cases hs : headKind (ts.drop p) = .symbol s
  · rw [outcome_bind_ok (outcome_expect hs), if_pos (startsWith_iff_headKind.mpr hs),
      List.tail_drop]
    exact hf (lt_length_of_headKind hs (by simp))
  · rw [outcome_bind_error (outcome_expect_of_ne hs), if_neg (mt startsWith_iff_headKind.mp hs)]
    exact .refusal _

/-- A cell is refused as its token is. -/
theorem mirrors_refuseAt (us : List Token) (tape : Tape) (reason : Option Reason) :
    Mirrors ts n d m ((refuseAt (firstCell n us) reason : Reader α).outcome tape)
      (.error (Grammar.refuse reason us)) := by
  have houtcome : (refuseAt (firstCell n us) reason : Reader α).outcome tape =
      some (.error (.refused ((firstCell n us).fault reason))) := rfl
  rw [houtcome, fault_firstCell]
  exact .refusal _

/-- Behind a test for the symbol under the cursor. -/
theorem mirrors_if {s : Symbol} {x y : Reader α} {g h : Except Refusal (α × List Token)}
    (hpos : headKind (ts.drop p) = .symbol s → Mirrors ts n d m (x.outcome (on ts n p d)) g)
    (hneg : headKind (ts.drop p) ≠ .symbol s → Mirrors ts n d m (y.outcome (on ts n p d)) h) :
    Mirrors ts n d m
      ((do if (← kind) = .symbol s then x else y : Reader α).outcome (on ts n p d))
      (if startsWith s (ts.drop p) then g else h) := by
  rw [outcome_bind_ok outcome_kind]
  by_cases hs : headKind (ts.drop p) = .symbol s
  · rw [if_pos hs, if_pos (startsWith_iff_headKind.mpr hs)]
    exact hpos hs
  · rw [if_neg hs, if_neg (mt startsWith_iff_headKind.mp hs)]
    exact hneg hs

end Mirrors

/-! ### Places in reach -/

/-- That the cursor can stand at a place, and that there is fuel for the cells from there on. -/
structure InReach (ts : List Token) (fuel p : Nat) : Prop where
  /-- The place is on the tape. -/
  le_length : p ≤ ts.length
  /-- There is fuel for the tokens that are left and for the end of the expression. -/
  lt_fuel : ts.length < p + fuel

section InReach

variable {ts : List Token} {fuel p q : Nat}

/-- Places further on are in reach. -/
theorem InReach.mono (h : InReach ts fuel p) (hpq : p ≤ q) (hq : q ≤ ts.length) :
    InReach ts fuel q :=
  ⟨hq, Nat.lt_of_lt_of_le h.lt_fuel (Nat.add_le_add_right hpq fuel)⟩

/-- With less fuel the next place is still in reach. -/
theorem InReach.next (h : InReach ts (fuel + 1) p) (hpq : p + 1 ≤ q) (hq : q ≤ ts.length) :
    InReach ts fuel q :=
  ⟨hq, by have hlt := h.lt_fuel; omega⟩

/-- A place in reach comes with fuel. -/
theorem InReach.exists_fuel (h : InReach ts fuel p) : ∃ less, fuel = less + 1 :=
  Nat.exists_eq_add_one.mpr (by have hlt := h.lt_fuel; have hle := h.le_length; omega)

end InReach

/-! ### Slices -/

/-- That the numbers among some tokens are such as a scan finds. -/
def NumbersFit (ts : List Token) : Prop :=
  ∀ t ∈ ts, ∀ k, t.lexeme = .number k → Number.fitsSigned k = true

/-- What is left of a slice behind some of its parts. -/
def sliceRest (fuel : Nat) (s : Parts) : Reader Expr := do
  let s ← loop sliceRound fuel s
  expect .rightBracket
  return .slice (← part s 0) (← part s 1) (← part s 2)

section Slice

variable {ts : List Token} {n p d fuel : Nat}

theorem outcome_sliceRest_again {s s' : Parts} {t t' : Tape}
    (h : (sliceRound s).outcome t = some (.ok (.again s', t'))) :
    (sliceRest (fuel + 1) s).outcome t = (sliceRest fuel s').outcome t' := by
  rw [sliceRest, sliceRest, outcome_bind, outcome_bind, loop, outcome_bind_ok h]

theorem outcome_sliceRest_done {s s' : Parts} {t t' : Tape}
    (h : (sliceRound s).outcome t = some (.ok (.done s', t'))) :
    (sliceRest (fuel + 1) s).outcome t = (do
      expect .rightBracket
      return .slice (← part s' 0) (← part s' 1) (← part s' 2) : Reader Expr).outcome t' := by
  rw [sliceRest, outcome_bind, loop, outcome_bind_ok h]
  rfl

theorem outcome_sliceRest_error {s : Parts} {t : Tape} {e : Halt}
    (h : (sliceRound s).outcome t = some (.error e)) :
    (sliceRest (fuel + 1) s).outcome t = some (.error e) := by
  rw [sliceRest, outcome_bind, loop, outcome_bind_error h]

theorem outcome_number {k : Int} {a b : Nat} {us : List Token}
    (h : ts.drop p = ⟨.number k, a, b⟩ :: us) (hk : Number.fitsSigned k = true) :
    number.outcome (on ts n p d) = some (.ok (k, on ts n p d)) := by
  have hsigned : (Number.int k).signed? = some k := if_pos hk
  rw [number, outcome_bind_ok (outcome_ahead 0), Nat.add_zero, h]
  simp only [firstCell, cellOf, Token.Lexeme.value, Json.int, hsigned]
  rfl

theorem outcome_part {s : Parts} {i : Nat} {bound : Option Int} (h : s.bounds[i]? = some bound)
    (t : Tape) : (part s i).outcome t = some (.ok (bound, t)) := by
  rw [part, h]
  rfl

/-- A part is taken if it is given, and otherwise left out. -/
theorem exists_bound (hfits : NumbersFit ts) (hp : InReach ts fuel p) (i : Nat)
    {bounds : List (Option Int)} (hnone : bounds[i]? = some none) : ∃ k q fuel', p ≤ q ∧
      InReach ts fuel' q ∧ Grammar.bound (ts.drop p) = (k, ts.drop q) ∧
      (sliceRest fuel ⟨i, bounds⟩).outcome (on ts n p d) =
        (sliceRest fuel' ⟨i, bounds.set i k⟩).outcome (on ts n q d) ∧
      (headKind (ts.drop q) = .number → ∃ m, (bounds.set i k)[i]? = some (some m)) := by
  obtain ⟨hi, hget⟩ := List.getElem?_eq_some_iff.mp hnone
  have hset : bounds.set i none = bounds := by
    rw [← hget]
    exact List.set_getElem_self hi
  have hmissing : Grammar.bound (ts.drop p) = (none, ts.drop p) → headKind (ts.drop p) ≠ .number →
      ∃ k q fuel', p ≤ q ∧ InReach ts fuel' q ∧ Grammar.bound (ts.drop p) = (k, ts.drop q) ∧
        (sliceRest fuel ⟨i, bounds⟩).outcome (on ts n p d) =
          (sliceRest fuel' ⟨i, bounds.set i k⟩).outcome (on ts n q d) ∧
        (headKind (ts.drop q) = .number → ∃ m, (bounds.set i k)[i]? = some (some m)) :=
    fun hbound hkind => ⟨none, p, fuel, Nat.le_refl p, hp, hbound, by rw [hset],
      fun h => absurd h hkind⟩
  rcases h : ts.drop p with _ | ⟨⟨l, a, b⟩, us⟩
  · rw [h] at hmissing
    exact hmissing rfl (by simp [headKind])
  · cases l with
    | number m =>
      obtain ⟨hhere, hus⟩ := Scan.drop_eq_cons h
      have hlt : p < ts.length := Scan.lt_length_of_drop_eq_cons h
      have hm := hfits _ (List.mem_of_getElem? hhere) m rfl
      obtain ⟨fuel, rfl⟩ := hp.exists_fuel
      have hround : (sliceRound ⟨i, bounds⟩).outcome (on ts n p d) =
          some (.ok (.again ⟨i, bounds.set i (some m)⟩, on ts n (p + 1) d)) := by
        rw [sliceRound, outcome_bind_ok outcome_kind, h]
        dsimp only [headKind, Token.kind, Token.Lexeme.kind]
        rw [outcome_bind_ok (outcome_part hnone _)]
        dsimp only
        rw [outcome_bind_ok (outcome_number h hm), outcome_bind_ok (outcome_advance hlt)]
        rfl
      refine ⟨some m, p + 1, fuel, Nat.le_succ p, hp.next (Nat.le_refl _) hlt, by rw [hus]; rfl,
        outcome_sliceRest_again hround, fun _ => ⟨m, List.getElem?_set_self hi⟩⟩
    | name | quoted | literal | symbol =>
      rw [h] at hmissing
      exact hmissing rfl (by simp [headKind, Token.kind, Token.Lexeme.kind])

/-- Behind a part there may be a colon, which starts the next part. -/
theorem outcome_sliceRest_colon {i : Nat} {bounds : List (Option Int)} (hi : i + 1 ≠ 3)
    (hcolon : headKind (ts.drop p) = .symbol .colon) :
    (sliceRest (fuel + 1) ⟨i, bounds⟩).outcome (on ts n p d) =
      (sliceRest fuel ⟨i + 1, bounds⟩).outcome (on ts n (p + 1) d) := by
  refine outcome_sliceRest_again ?_
  rw [sliceRound, outcome_bind_ok outcome_kind, hcolon]
  dsimp only
  rw [if_neg hi, outcome_bind_ok (outcome_advance (lt_length_of_headKind hcolon (by simp)))]
  rfl

/-- Where neither a part nor a colon can follow, the closing bracket has to. -/
theorem mirrors_sliceRest {m i : Nat} (hp : InReach ts fuel p) (hm : m ≤ p + 1)
    {start stop step : Option Int} (hcolon : headKind (ts.drop p) = .symbol .colon → i + 1 = 3)
    (hnumber : headKind (ts.drop p) = .number →
      ∃ m, [start, stop, step][i]? = some (some m)) :
    Mirrors ts n d m ((sliceRest fuel ⟨i, [start, stop, step]⟩).outcome (on ts n p d)) (do
      let us ← Grammar.expect .rightBracket (ts.drop p)
      return (.slice start stop step, us)) := by
  obtain ⟨fuel, rfl⟩ := hp.exists_fuel
  by_cases hclose : headKind (ts.drop p) = .symbol .rightBracket
  · have hround : (sliceRound ⟨i, [start, stop, step]⟩).outcome (on ts n p d) =
        some (.ok (.done ⟨i, [start, stop, step]⟩, on ts n p d)) := by
      rw [sliceRound, outcome_bind_ok outcome_kind, hclose]
      rfl
    rw [outcome_sliceRest_done hround]
    refine mirrors_expect _ fun hlt => ?_
    rw [outcome_bind_ok (outcome_part rfl _), outcome_bind_ok (outcome_part rfl _),
      outcome_bind_ok (outcome_part rfl _)]
    exact mirrors_pure hm hlt _
  · have hround : (sliceRound ⟨i, [start, stop, step]⟩).outcome (on ts n p d) =
        some (.error (.refused ((Grammar.refuse none (ts.drop p)).fault n))) := by
      rw [sliceRound, outcome_bind_ok outcome_kind]
      split
      · next h => exact absurd h hclose
      · next h => rw [if_pos (hcolon h), outcome_refuse]
      · next h =>
        obtain ⟨m, hm⟩ := hnumber h
        rw [outcome_bind_ok (outcome_part hm _)]
        exact outcome_refuse none
      · exact outcome_refuse none
    rw [outcome_sliceRest_error hround, Grammar.expect,
      if_neg (mt startsWith_iff_headKind.mp hclose)]
    exact .refusal _

/-- A slice is read as the grammar reads it if there is a colon behind its first part. -/
theorem mirrors_slice (hfits : NumbersFit ts) (hp : InReach ts fuel p)
    (hcolon : headKind (Grammar.bound (ts.drop p)).2 = .symbol .colon) :
    Mirrors ts n d p ((slice fuel).outcome (on ts n p d)) (Grammar.slice (ts.drop p)) := by
  obtain ⟨start, q, fuel₁, hpq, hq, hbound, hstart, -⟩ :=
    exists_bound (n := n) (d := d) hfits hp 0 (show [none, none, none][0]? = some none from rfl)
  rw [hbound] at hcolon
  have hlt := lt_length_of_headKind hcolon (by simp)
  obtain ⟨fuel₁, rfl⟩ := hq.exists_fuel
  have hexpect : Grammar.expect .colon (ts.drop q) = .ok (ts.drop (q + 1)) := by
    rw [Grammar.expect, if_pos (startsWith_iff_headKind.mpr hcolon), List.tail_drop]
  obtain ⟨stop, u, fuel₂, hqu, hu, hbound', hstop, hnumber⟩ :=
    exists_bound (n := n) (d := d) hfits (hq.next (Nat.le_refl _) hlt) 1
      (show [start, none, none][1]? = some none from rfl)
  have houtcome : (slice fuel).outcome (on ts n p d) =
      (sliceRest fuel₂ ⟨1, [start, stop, none]⟩).outcome (on ts n u d) :=
    hstart.trans ((outcome_sliceRest_colon (by decide) hcolon).trans hstop)
  rw [houtcome, Grammar.slice, hbound]
  simp only [hexpect, bind, Except.bind, hbound']
  split
  · next h =>
    have hmore := startsWith_iff_headKind.mp h
    have hlt' := lt_length_of_headKind hmore (by simp)
    obtain ⟨fuel₂, rfl⟩ := hu.exists_fuel
    obtain ⟨step, v, fuel₃, huv, hv, hbound'', hstep, hnumber'⟩ :=
      exists_bound (n := n) (d := d) hfits (hu.next (Nat.le_refl _) hlt') 2
        (show [start, stop, none][2]? = some none from rfl)
    rw [outcome_sliceRest_colon (by decide) hmore, hstep, List.tail_drop, hbound'']
    exact mirrors_sliceRest hv (by omega) (fun _ => rfl) hnumber'
  · next h =>
    exact mirrors_sliceRest hu (by omega)
      (fun hmore => absurd (startsWith_iff_headKind.mpr hmore) h) hnumber

theorem mirrors_indexOrSlice (hfits : NumbersFit ts) (hp : InReach ts fuel p)
    (hposition : Grammar.startsPosition (ts.drop p) = true) :
    Mirrors ts n d p ((indexOrSlice fuel).outcome (on ts n p d))
      (Grammar.indexOrSlice (ts.drop p)) := by
  have hslice := mirrors_slice (n := n) (d := d) hfits hp
  rw [indexOrSlice, outcome_bind_ok (outcome_ahead 0), Nat.add_zero, kind_firstCell]
  rcases h : ts.drop p with _ | ⟨⟨l, a, b⟩, us⟩
  · simp [h, startsPosition_iff, headKind] at hposition
  · obtain ⟨hhere, rfl⟩ := Scan.drop_eq_cons h
    rw [h] at hslice hposition
    cases l with
    | symbol s =>
      rw [startsPosition_iff] at hposition
      have hcolon : headKind (⟨.symbol s, a, b⟩ :: ts.drop (p + 1)) = .symbol .colon :=
        hposition.resolve_left (by simp [headKind, Token.kind, Token.Lexeme.kind])
      rw [if_pos hcolon]
      exact hslice hcolon
    | number k =>
      have hk := hfits _ (List.mem_of_getElem? hhere) k rfl
      have hlt : p < ts.length := Scan.lt_length_of_drop_eq_cons h
      rw [if_neg (by simp [headKind, Token.kind, Token.Lexeme.kind]),
        outcome_bind_ok (outcome_ahead 1), kind_firstCell, Grammar.indexOrSlice]
      by_cases hcolon : headKind (ts.drop (p + 1)) = .symbol .colon
      · rw [if_pos hcolon, if_pos (startsWith_iff_headKind.mpr hcolon)]
        exact hslice hcolon
      · rw [if_neg hcolon, if_neg (mt startsWith_iff_headKind.mp hcolon),
          outcome_bind_ok (outcome_number h hk), outcome_bind_ok (outcome_advance hlt)]
        exact mirrors_expect _ fun hlt' => mirrors_pure (by omega) hlt' _
    | name | quoted | literal =>
      simp [startsPosition_iff, headKind, Token.kind, Token.Lexeme.kind] at hposition

end Slice

/-! ### Lists between commas -/

/-- That a loop on the tape of some tokens goes through a list between commas: an item, and
then what comes next. -/
structure GoesThrough (ts : List Token) (n d : Nat) {α : Type} (trailing : Bool)
    (close : Symbol) (item : Reader α) (next : Nat → List α → α → Reader (List α))
    (rest : Nat → List α → Reader (List α)) : Prop where
  /-- A list whose last comma may be a trailing one may end before an item. -/
  closed : ∀ {p}, trailing = true → headKind (ts.drop p) = .symbol close → ∀ fuel as,
    (rest (fuel + 1) as).outcome (on ts n p d) = some (.ok (as, on ts n (p + 1) d))
  /-- Otherwise there is an item. -/
  item : ∀ {p}, ¬(trailing = true ∧ headKind (ts.drop p) = .symbol close) → ∀ fuel as,
    (rest (fuel + 1) as).outcome (on ts n p d) = (item >>= next fuel as).outcome (on ts n p d)
  /-- The closing symbol comes behind the last item. -/
  last : ∀ {p}, headKind (ts.drop p) = .symbol close → ∀ fuel as a,
    (next (fuel + 1) as a).outcome (on ts n p d) = some (.ok (as ++ [a], on ts n (p + 1) d))
  /-- A comma comes behind any other item. -/
  comma : ∀ {p}, headKind (ts.drop p) = .symbol .comma → ∀ fuel as a,
    (next fuel as a).outcome (on ts n p d) = (rest fuel (as ++ [a])).outcome (on ts n (p + 1) d)
  /-- Nothing else comes behind an item. -/
  other : ∀ {p}, headKind (ts.drop p) ≠ .symbol close → headKind (ts.drop p) ≠ .symbol .comma →
    ∀ fuel as a, (next fuel as a).outcome (on ts n p d) =
      some (.error (.refused ((Grammar.refuse none (ts.drop p)).fault n)))

section Lists

variable {ts : List Token} {n d : Nat} {α : Type} {trailing : Bool} {close : Symbol}
  {item : Reader α} {next : Nat → List α → α → Reader (List α)}
  {rest : Nat → List α → Reader (List α)} {g : List Token → Except Refusal (α × List Token)}
  (h : GoesThrough ts n d trailing close item next rest)
include h

/-- Behind an item, if the rest of the list is gone through. -/
theorem GoesThrough.mirrors_next {fuel p q : Nat} (hmoved : p + 1 ≤ q) (hq : InReach ts fuel q)
    (hmore : q + 1 ≤ ts.length → ¬(trailing = true ∧ headKind (ts.drop (q + 1)) = .symbol close) →
      ∀ as, Mirrors ts n d (q + 1) ((rest fuel as).outcome (on ts n (q + 1) d))
        (Grammar.separated trailing close g (ts.drop (q + 1)) >>= fun x =>
          .ok (as ++ x.1, x.2))) (as : List α) (a : α) :
    Mirrors ts n d q ((next fuel as a).outcome (on ts n q d))
      (separatedRest trailing close g (ts.drop p) a (ts.drop q) >>= fun x =>
        .ok (as ++ x.1, x.2)) := by
  obtain ⟨fuel, rfl⟩ := hq.exists_fuel
  rw [separatedRest]
  by_cases hlast : headKind (ts.drop q) = .symbol close
  · have hlt := lt_length_of_headKind hlast (by simp)
    rw [h.last hlast, if_pos (startsWith_iff_headKind.mpr hlast), List.tail_drop]
    exact .value _ (Nat.le_succ q) hlt
  rw [if_neg (mt startsWith_iff_headKind.mp hlast)]
  by_cases hcomma : headKind (ts.drop q) = .symbol .comma
  · have hlt := lt_length_of_headKind hcomma (by simp)
    rw [h.comma hcomma, if_pos (startsWith_iff_headKind.mpr hcomma), List.tail_drop,
      List.tail_drop]
    -- The grammar tells a trailing comma by the token behind it, the loop by its next round.
    by_cases hend : trailing = true ∧ headKind (ts.drop (q + 1)) = .symbol close
    · have hlt' := lt_length_of_headKind hend.2 (by simp)
      rw [h.closed hend.1 hend.2, if_pos]
      · exact .value _ (Nat.le_add_right q 2) hlt'
      · rw [hend.1, startsWith_iff_headKind.mpr hend.2]
        rfl
    · -- The grammar makes sure that there are fewer tokens left, and the cursor has moved.
      have hfewer : (ts.drop (q + 1)).length < (ts.drop p).length := by
        rw [List.length_drop, List.length_drop]
        omega
      have hgather := (hmore hlt hend (as ++ [a])).mono (Nat.le_succ q)
      rw [if_neg (by rwa [Bool.and_eq_true, startsWith_iff_headKind]), if_pos hfewer, bind_assoc]
      simp only [List.append_assoc, List.singleton_append] at hgather
      exact hgather
  · rw [h.other hlast hcomma, if_neg (mt startsWith_iff_headKind.mp hcomma)]
    exact .refusal _

variable {fuel p : Nat}
  (hitem : ∀ q, p ≤ q → q ≤ ts.length →
    Mirrors ts n d (q + 1) (item.outcome (on ts n q d)) (g (ts.drop q)))
  (hp : InReach ts fuel p)
  (hopen : ¬(trailing = true ∧ headKind (ts.drop p) = .symbol close))
include hitem hp hopen

/-- **A loop reads a list as the grammar does**, and puts what it reads behind the items so
far. -/
theorem GoesThrough.mirrors (as : List α) :
    Mirrors ts n d p ((rest fuel as).outcome (on ts n p d))
      (Grammar.separated trailing close g (ts.drop p) >>= fun x => .ok (as ++ x.1, x.2)) := by
  induction fuel generalizing p as with
  | zero => exact absurd hp.exists_fuel (by simp)
  | succ fuel ih =>
    rw [h.item hopen, separated_eq, bind_assoc]
    refine (hitem p (Nat.le_refl p) hp.le_length).bind fun a q hmoved hq => ?_
    refine (h.mirrors_next hmoved (hp.next hmoved hq) (fun hlt hend as => ?_) as a).mono
      (Nat.le_of_succ_le hmoved)
    exact ih (fun u hu => hitem u (by omega)) (hp.next (by omega) hlt) hend as

/-- From before the first item on. -/
theorem GoesThrough.mirrors_nil :
    Mirrors ts n d p ((rest fuel []).outcome (on ts n p d))
      (Grammar.separated trailing close g (ts.drop p)) := by
  have hmirrors := h.mirrors hitem hp hopen []
  have hnil : (Grammar.separated trailing close g (ts.drop p) >>= fun x =>
      .ok ([] ++ x.1, x.2)) = Grammar.separated trailing close g (ts.drop p) := bind_pure _
  rwa [hnil] at hmirrors

end Lists

end Tape

end JsonQuery
