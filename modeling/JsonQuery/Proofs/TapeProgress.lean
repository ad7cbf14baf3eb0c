import JsonQuery.Expr.Tape

/-!
# Reading from a tape makes progress

The readers of `JsonQuery.Expr.Tape` are never cut off if they have as much fuel as there are
cells left, and they look for nothing that is not there (`JsonQuery.Tape.makesProgress`). What
has to be known of a tape is that the cursor is on it and that the end of the expression is its
last cell and no other (`JsonQuery.Tape.Valid`).

Everything is put as a statement about what a reader **yields** from a tape
(`JsonQuery.Tape.Yields`): a value and a tape of which something is known, or a refusal. A
reader that crashes or is cut off yields nothing. Such statements go through the steps of a
reader one by one (`JsonQuery.Tape.Yields.bind`). What is known of the tape behind a reader is
how far the cursor has moved (`JsonQuery.Tape.Leads`).

A reader that moves on at the last cell stays where it is, so a loop, or an expression inside an
expression, could find itself where it was before, and no fuel would last. But a round that
another one follows has moved the cursor, because it read an expression, or because it moved on
from a cell that is not the end of the expression. So fuel for the cells that are left is fuel
for the rounds (`JsonQuery.Tape.yields_loop`). And an expression moves the cursor because no
operand starts with the end: an expression that starts with the last cell is refused before any
other is read, and behind an earlier cell there is fuel for the cells that are left then
(`JsonQuery.Tape.yields_nested`).
-/

namespace JsonQuery

namespace Tape

/-! ### Places on a tape -/

/-- That the cursor is on the tape, and that the last cell of the tape is the only one that
ends the expression. -/
structure Valid (t : Tape) : Prop where
  /-- The cursor is on the tape. -/
  position_lt : t.position < t.cells.length
  /-- Only the last cell ends the expression. -/
  ended_iff : ∀ (i : Nat) c, t.cells[i]? = some c → (c.kind = .ended ↔ i + 1 = t.cells.length)

/-- That the cursor is on the last cell. -/
def AtEnd (t : Tape) : Prop :=
  t.position + 1 = t.cells.length

/-- That a tape is another one with the cursor at least some cells further on, and still on
it. -/
structure Leads (t : Tape) (n : Nat) (t' : Tape) : Prop where
  /-- The cells are the same. -/
  cells_eq : t'.cells = t.cells
  /-- The cursor has moved on. -/
  le_position : t.position + n ≤ t'.position
  /-- The cursor is on the tape. -/
  position_lt : t'.position < t.cells.length

/-- How many cells there are from the cursor on. -/
def left (t : Tape) : Nat :=
  t.cells.length - t.position

section Places

variable {t t' t'' : Tape} {m n k : Nat}

theorem Valid.left_pos (ht : t.Valid) : 0 < t.left :=
  Nat.sub_pos_of_lt ht.position_lt

/-- A cursor that has moved on has fewer cells before it. -/
theorem Leads.left_le (h : t.Leads n t') : t'.left + n ≤ t.left := by
  have hmoved := h.le_position
  have hon := h.position_lt
  rw [left, left, h.cells_eq]
  omega

theorem Leads.valid (h : t.Leads n t') (ht : t.Valid) : t'.Valid where
  position_lt := by
    rw [h.cells_eq]
    exact h.position_lt
  ended_iff := by
    rw [h.cells_eq]
    exact ht.ended_iff

theorem Valid.leads (ht : t.Valid) : t.Leads 0 t :=
  ⟨rfl, Nat.le_refl _, ht.position_lt⟩

/-- Cells that do not end the expression with one behind them that does. -/
theorem valid_append {body : List Cell} {last : Cell} (hlast : last.kind = .ended)
    (hbody : ∀ c ∈ body, c.kind ≠ .ended) {position : Nat} (hposition : position ≤ body.length)
    (depth : Nat) : Valid ⟨body ++ [last], position, depth⟩ where
  position_lt := by
    rw [List.length_append, List.length_singleton]
    exact Nat.lt_succ_of_le hposition
  ended_iff := by
    intro i c hc
    rw [List.length_append, List.length_singleton]
    by_cases hi : i < body.length
    · rw [List.getElem?_append_left hi] at hc
      have hne := hbody c (List.mem_of_getElem? hc)
      exact ⟨fun h => absurd h hne, fun h => by omega⟩
    · have hle := Nat.le_of_not_lt hi
      rw [List.getElem?_append_right hle, List.getElem?_singleton] at hc
      split at hc
      · next hzero =>
        obtain rfl := Option.some.inj hc
        exact ⟨fun _ => by omega, fun _ => hlast⟩
      · simp at hc

theorem Leads.trans (h : t.Leads m t') (h' : t'.Leads n t'') : t.Leads (m + n) t'' where
  cells_eq := h'.cells_eq.trans h.cells_eq
  le_position := by
    have hfirst := h.le_position
    have hsecond := h'.le_position
    omega
  position_lt := by
    rw [← h.cells_eq]
    exact h'.position_lt

theorem Leads.mono (h : t.Leads n t') (hm : m ≤ n) : t.Leads m t' :=
  ⟨h.cells_eq, Nat.le_trans (Nat.add_le_add_left hm _) h.le_position, h.position_lt⟩

end Places

/-! ### What a reader yields -/

/-- That a reader comes to an end from a tape, and either refuses the expression or has a
value and a tape of which something is known. It does not crash. -/
inductive Yields {α : Type} (x : Reader α) (t : Tape) (P : α → Tape → Prop) : Prop
  /-- There is a value. -/
  | value {a : α} {t' : Tape} (h : x.outcome t = some (.ok (a, t'))) (hP : P a t')
  /-- The expression is refused. -/
  | refusal {f : Fault} (h : x.outcome t = some (.error (.refused f)))

section Outcome

variable {α β : Type} {t : Tape}

theorem outcome_bind (x : Reader α) (f : α → Reader β) (t : Tape) :
    (x >>= f).outcome t = match x.outcome t with
      | none => none
      | some (.error h) => some (.error h)
      | some (.ok (a, t')) => (f a).outcome t' := by
  simp only [Reader.outcome, StateT.run_bind, ExceptT.run_bind]
  match (x.run t).run with
  | none => rfl
  | some (.error _) => rfl
  | some (.ok _) => rfl

variable {P : α → Tape → Prop} {Q : β → Tape → Prop}

theorem yields_pure {a : α} (h : P a t) : Yields (pure a) t P :=
  .value rfl h

theorem Yields.bind {x : Reader α} {f : α → Reader β} (hx : Yields x t P)
    (hf : ∀ a t', P a t' → Yields (f a) t' Q) : Yields (x >>= f) t Q := by
  cases hx with
  | value h hP =>
    have houtcome := outcome_bind x f t
    rw [h] at houtcome
    cases hf _ _ hP with
    | value h' hQ => exact .value (houtcome.trans h') hQ
    | refusal h' => exact .refusal (houtcome.trans h')
  | refusal h =>
    have houtcome := outcome_bind x f t
    rw [h] at houtcome
    exact .refusal houtcome

theorem Yields.imp {x : Reader α} {P' : α → Tape → Prop} (h : Yields x t P)
    (himp : ∀ a t', P a t' → P' a t') : Yields x t P' := by
  cases h with
  | value h hP => exact .value h (himp _ _ hP)
  | refusal h => exact .refusal h

end Outcome

/-! ### Looking and moving -/

section Primitive

variable {t : Tape}

theorem yields_get : Yields get t fun s t' => t = s ∧ t = t' :=
  .value rfl ⟨rfl, rfl⟩

theorem yields_modify {f : Tape → Tape} {P : Unit → Tape → Prop} (h : P () (f t)) :
    Yields (modify f) t P :=
  .value rfl h

theorem yields_cell {number : Nat} (h : number < t.cells.length) :
    Yields (cell number) t fun c t' => t = t' ∧ t.cells[number]? = some c := by
  refine yields_get.bind ?_
  rintro _ _ ⟨rfl, rfl⟩
  split
  · next c hc => exact yields_pure ⟨rfl, hc⟩
  · next hnone => exact absurd (List.getElem?_eq_none_iff.mp hnone) (Nat.not_le.mpr h)

theorem yields_refuseAt {α : Type} {P : α → Tape → Prop} (c : Cell) (reason : Option Reason) :
    Yields (refuseAt c reason) t P :=
  .refusal rfl

variable (ht : t.Valid)
include ht

theorem yields_ahead (offset : Nat) : Yields (ahead offset) t fun c t' =>
    t = t' ∧ (c.kind = .ended ↔ t.cells.length ≤ t.position + offset + 1) := by
  have hlt := ht.position_lt
  refine yields_get.bind ?_
  rintro _ _ ⟨rfl, rfl⟩
  refine (yields_cell (by omega)).imp ?_
  rintro c _ ⟨rfl, hc⟩
  refine ⟨rfl, (ht.ended_iff _ c hc).trans ?_⟩
  omega

theorem yields_before (hpos : 0 < t.position) : Yields before t fun _ t' => t = t' := by
  have hlt := ht.position_lt
  refine yields_get.bind ?_
  rintro _ _ ⟨rfl, rfl⟩
  split
  · next hzero => exact absurd hzero (Nat.ne_of_gt hpos)
  · next number hnumber => exact (yields_cell (by omega)).imp fun _ _ h => h.1

theorem yields_kind : Yields kind t fun k t' => t = t' ∧ (k = .ended ↔ t.AtEnd) := by
  have hlt := ht.position_lt
  refine (yields_ahead ht 0).bind ?_
  rintro c _ ⟨rfl, hc⟩
  refine yields_pure ⟨rfl, hc.trans ?_⟩
  rw [AtEnd]
  omega

theorem yields_refuse {α : Type} {P : α → Tape → Prop} (reason : Option Reason) :
    Yields (refuse reason) t P :=
  (yields_ahead ht 0).bind fun c _ _ => yields_refuseAt c reason

/-- The cursor moves on unless it is on the last cell. -/
theorem yields_advance (hend : ¬t.AtEnd) : Yields advance t fun _ t' => t.Leads 1 t' := by
  have hlt := ht.position_lt
  rw [AtEnd] at hend
  have hmove : t.position < t.cells.length - 1 := by omega
  refine yields_modify ?_
  rw [if_pos hmove]
  exact ⟨rfl, Nat.le_refl _, Nat.add_lt_of_lt_sub hmove⟩

/-- The cursor never leaves the tape. -/
theorem yields_advance_or_stay : Yields advance t fun _ t' => t.Leads 0 t' := by
  by_cases hend : t.AtEnd
  · refine yields_modify ?_
    rw [if_neg (by rw [AtEnd] at hend; omega)]
    exact ht.leads
  · exact (yields_advance ht hend).imp fun _ _ h => h.mono (Nat.zero_le _)

theorem yields_expect (s : Symbol) : Yields (expect s) t fun _ t' => t.Leads 1 t' := by
  refine (yields_kind ht).bind ?_
  rintro k _ ⟨rfl, hk⟩
  split
  · next hs => exact yields_advance ht fun hend => by simp [hk.mpr hend] at hs
  · exact yields_refuse ht none

theorem yields_expectName : Yields expectName t fun _ t' => t.Leads 1 t' := by
  refine (yields_kind ht).bind ?_
  rintro k _ ⟨rfl, hk⟩
  split
  · exact yields_advance ht (by simpa using hk)
  · exact yields_advance ht (by simpa using hk)
  · exact yields_refuse ht none

theorem leads_deeper : t.Leads 0 { t with depth := t.depth + 1 } :=
  ⟨rfl, Nat.le_refl _, ht.position_lt⟩

theorem yields_descend : Yields descend t fun _ t' => { t with depth := t.depth + 1 } = t' := by
  refine (yields_modify (P := fun _ t' => { t with depth := t.depth + 1 } = t') rfl).bind ?_
  rintro _ _ rfl
  refine yields_get.bind ?_
  rintro _ _ ⟨rfl, rfl⟩
  split
  · exact yields_refuse ((leads_deeper ht).valid ht) _
  · exact yields_pure rfl

theorem yields_number : Yields number t fun _ t' => t = t' := by
  refine (yields_ahead ht 0).bind ?_
  rintro c _ ⟨rfl, -⟩
  split
  · split
    · exact yields_pure rfl
    · exact yields_refuseAt c none
  · exact yields_refuseAt c none

end Primitive

/-! ### Loops -/

/-- What a round of a loop leads to if there is to be progress: if there is another one then
the cursor has moved on. -/
def Turn.Leads {α : Type} (I : α → Prop) (t t' : Tape) : Turn α → Prop
  | .again a => I a ∧ t.Leads 1 t'
  | .done a => I a ∧ t.Leads 0 t'

/-- **A loop comes to an end if each of its rounds makes progress** and there is fuel for the
cells that are left, and what its rounds keep up holds of its value. -/
theorem yields_loop {α : Type} {round : α → Reader (Turn α)} {I : α → Prop} {t : Tape}
    (ht : t.Valid)
    (hround : ∀ a t', I a → t.Leads 0 t' → Yields (round a) t' fun turn t'' => turn.Leads I t' t'')
    {fuel : Nat} (hfuel : t.left ≤ fuel) {a : α} (ha : I a) :
    Yields (loop round fuel a) t fun a t' => I a ∧ t.Leads 0 t' := by
  induction fuel generalizing t a with
  | zero => exact absurd hfuel (Nat.not_le.mpr ht.left_pos)
  | succ fuel ih =>
    rw [loop]
    refine (hround a t ha ht.leads).bind fun turn t' hturn => ?_
    match turn, hturn with
    | .done a, ⟨ha, hleads⟩ => exact yields_pure ⟨ha, hleads⟩
    | .again a, ⟨ha, hleads⟩ =>
      -- Another round follows, so there are fewer cells left.
      have hfewer : t'.left ≤ fuel := Nat.le_of_succ_le_succ (Nat.le_trans hleads.left_le hfuel)
      refine (ih (hleads.valid ht) (fun a t'' ha h => hround a t'' ha ?_) hfewer ha).imp ?_
      · exact (hleads.trans h).mono (Nat.zero_le _)
      · exact fun a t'' h => ⟨h.1, (hleads.trans h.2).mono (Nat.zero_le _)⟩

/-- What a round that moves on leads to, be there another one or not. -/
theorem Turn.leads_of_leads {α : Type} {t t' : Tape} (turn : Turn α) (h : t.Leads 1 t') :
    turn.Leads (fun _ => True) t t' :=
  match turn with
  | .again _ => ⟨trivial, h⟩
  | .done _ => ⟨trivial, h.mono (Nat.zero_le _)⟩

/-! ### Slices -/

/-- That the number of the part that is read is one of three. -/
structure Parts.Fits (s : Parts) : Prop where
  /-- The part is there. -/
  current_lt : s.current < 3
  /-- There are three parts. -/
  length_bounds : s.bounds.length = 3

theorem yields_part {t : Tape} {s : Parts} {number : Nat} (h : number < s.bounds.length) :
    Yields (part s number) t fun _ t' => t = t' := by
  rw [part]
  split
  · exact yields_pure rfl
  · next hnone => exact absurd (List.getElem?_eq_none_iff.mp hnone) (Nat.not_le.mpr h)

section Slice

variable {t : Tape} (ht : t.Valid)
include ht

theorem yields_sliceRound {s : Parts} (hs : s.Fits) :
    Yields (sliceRound s) t fun turn t' => turn.Leads Parts.Fits t t' := by
  have hcurrent := hs.current_lt
  have hlength := hs.length_bounds
  refine (yields_kind ht).bind ?_
  rintro k _ ⟨rfl, hk⟩
  split
  · exact yields_pure ⟨hs, ht.leads⟩
  · split
    · exact yields_refuse ht none
    · refine (yields_advance ht (by simpa using hk)).bind fun _ t' hleads => ?_
      exact yields_pure ⟨⟨by dsimp only; omega, hlength⟩, hleads⟩
  · refine (yields_part (hlength ▸ hcurrent)).bind ?_
    rintro bound _ rfl
    split
    · refine (yields_number ht).bind ?_
      rintro n _ rfl
      refine (yields_advance ht (by simpa using hk)).bind fun _ t' hleads => ?_
      exact yields_pure ⟨⟨hcurrent, List.length_set.trans hlength⟩, hleads⟩
    · exact yields_refuse ht none
  · exact yields_refuse ht none

variable {fuel : Nat} (hfuel : t.left ≤ fuel)
include hfuel

theorem yields_slice : Yields (slice fuel) t fun _ t' => t.Leads 1 t' := by
  have hfits : Parts.Fits ⟨0, [none, none, none]⟩ := ⟨by decide, rfl⟩
  refine (yields_loop ht (fun s t' hs h => yields_sliceRound (h.valid ht) hs) hfuel hfits).bind
    fun s t' h => ?_
  obtain ⟨hs, hleads⟩ := h
  have hpart : ∀ {t'' number}, number < 3 → Yields (part s number) t'' fun _ u => t'' = u :=
    fun hlt => yields_part (hs.length_bounds ▸ hlt)
  refine (yields_expect (hleads.valid ht) _).bind fun _ t'' hclosed => ?_
  refine (hpart (by decide)).bind ?_
  rintro start _ rfl
  refine (hpart (by decide)).bind ?_
  rintro stop _ rfl
  refine (hpart (by decide)).bind ?_
  rintro step _ rfl
  exact yields_pure ((hleads.trans hclosed).mono (Nat.le_refl _))

theorem yields_indexOrSlice : Yields (indexOrSlice fuel) t fun _ t' => t.Leads 1 t' := by
  refine (yields_ahead ht 0).bind ?_
  rintro c _ ⟨rfl, -⟩
  split
  · exact yields_slice ht hfuel
  · refine (yields_ahead ht 1).bind ?_
    rintro d _ ⟨rfl, -⟩
    split
    · exact yields_slice ht hfuel
    · refine (yields_number ht).bind ?_
      rintro n _ rfl
      refine (yields_advance_or_stay ht).bind fun _ t' h => ?_
      exact (yields_expect (h.valid ht) _).bind fun _ t'' h' =>
        yields_pure ((h.trans h').mono (Nat.le_refl _))

end Slice

/-! ### Parts of expressions -/

/-- That parts of expressions can be read from a tape on: there is fuel for the cells that are
left, and expressions are read by a reader that makes progress. -/
structure Supplied (fuel : Nat) (read : Nat → Reader Expr) (t : Tape) : Prop where
  /-- The tape is valid. -/
  valid : t.Valid
  /-- There is fuel for the cells that are left. -/
  left_le : t.left ≤ fuel
  /-- An expression moves the cursor on. -/
  moves : ∀ power t', t.Leads 0 t' → Yields (read power) t' fun _ t'' => t'.Leads 1 t''

section Parts

variable {fuel n : Nat} {read : Nat → Reader Expr} {t t' : Tape}

theorem Supplied.mono (hs : Supplied fuel read t) (h : t.Leads n t') :
    Supplied fuel read t' where
  valid := h.valid hs.valid
  left_le := Nat.le_trans (Nat.le_of_add_right_le h.left_le) hs.left_le
  moves power t'' h' := hs.moves power t'' ((h.trans h').mono (Nat.zero_le _))

variable (hs : Supplied fuel read t)
include hs

theorem Supplied.yields (power : Nat) : Yields (read power) t fun _ t' => t.Leads 1 t' :=
  hs.moves power t hs.valid.leads

/-! #### Lists between commas -/

theorem yields_argumentRound (args : List Expr) : Yields (argumentRound read args) t
    fun turn t' => turn.Leads (fun _ => True) t t' := by
  refine (yields_kind hs.valid).bind ?_
  rintro k _ ⟨rfl, -⟩
  split
  · exact yields_pure ⟨trivial, hs.valid.leads⟩
  · refine (hs.yields 0).bind fun e t' he => ?_
    have ht' := he.valid hs.valid
    refine (yields_kind ht').bind ?_
    rintro k _ ⟨rfl, -⟩
    split
    · exact (yields_advance_or_stay ht').bind fun _ t'' h => yields_pure ⟨trivial, he.trans h⟩
    · exact yields_pure ⟨trivial, he⟩
    · exact yields_refuse ht' none

theorem yields_listRound (items : List Expr) :
    Yields (listRound read items) t fun _ t' => t.Leads 1 t' := by
  refine (hs.yields 0).bind fun e t' he => ?_
  have ht' := he.valid hs.valid
  refine (yields_kind ht').bind ?_
  rintro k _ ⟨rfl, -⟩
  split
  · exact yields_pure he
  · exact (yields_expect ht' _).bind fun _ t'' h =>
      yields_pure ((he.trans h).mono (Nat.le_succ _))

theorem yields_hashEntry : Yields (hashEntry read) t fun _ t' => t.Leads 1 t' := by
  refine (yields_ahead hs.valid 0).bind ?_
  rintro key _ ⟨rfl, -⟩
  refine (yields_expectName hs.valid).bind fun _ t₁ hname => ?_
  refine (yields_expect (hname.valid hs.valid) _).bind fun _ t₂ hcolon => ?_
  have hbefore := hname.trans hcolon
  exact ((hs.mono hbefore).yields 0).bind fun e t₃ he =>
    yields_pure ((hbefore.trans he).mono (by decide))

theorem yields_hashRound (entries : List (String × Expr)) :
    Yields (hashRound read entries) t fun _ t' => t.Leads 1 t' := by
  refine (yields_hashEntry hs).bind fun entry t' hentry => ?_
  have ht' := hentry.valid hs.valid
  refine (yields_kind ht').bind ?_
  rintro k _ ⟨rfl, -⟩
  split
  · exact (yields_advance_or_stay ht').bind fun _ t'' h => yields_pure (hentry.trans h)
  · exact (yields_advance_or_stay ht').bind fun _ t'' h => yields_pure (hentry.trans h)
  · exact yields_refuse ht' none

theorem yields_list : Yields (list fuel read) t fun _ t' => t.Leads 1 t' := by
  refine (yields_loop hs.valid (fun items t' _ h =>
    (yields_listRound (hs.mono h) items).imp fun turn _ h => turn.leads_of_leads h)
      hs.left_le trivial).bind fun items t' h => ?_
  exact (yields_expect (h.2.valid hs.valid) _).bind fun _ t'' h' =>
    yields_pure ((h.2.trans h').mono (by decide))

theorem yields_hash : Yields (hash fuel read) t fun _ t' => t.Leads 0 t' :=
  (yields_loop hs.valid (fun entries _ _ h =>
    (yields_hashRound (hs.mono h) entries).imp fun turn _ h => turn.leads_of_leads h)
      hs.left_le trivial).bind fun _ _ h => yields_pure h.2

/-! #### What stands behind an operand -/

theorem yields_call (left : Expr) : Yields (call fuel read left) t fun _ t' => t.Leads 0 t' := by
  have hlt := hs.valid.position_lt
  rw [call.eq_def]
  split
  · refine (yields_loop hs.valid (fun args t' _ h => yields_argumentRound (hs.mono h) args)
      hs.left_le trivial).bind fun args t' h => ?_
    exact (yields_expect (h.2.valid hs.valid) _).bind fun _ t'' h' =>
      yields_pure ((h.2.trans h').mono (Nat.zero_le _))
  · refine yields_get.bind ?_
    rintro _ _ ⟨rfl, rfl⟩
    exact (yields_cell (by omega)).bind fun c _ _ => yields_refuseAt c _

theorem yields_afterDot (power : Nat) :
    Yields (afterDot fuel read power) t fun _ t' => t.Leads 0 t' := by
  have hexpression := (hs.yields power).imp fun _ _ h => h.mono (Nat.zero_le _)
  refine (yields_kind hs.valid).bind ?_
  rintro k _ ⟨rfl, -⟩
  split
  · exact hexpression
  · exact hexpression
  · exact hexpression
  · refine (yields_advance_or_stay hs.valid).bind fun _ t' h => ?_
    exact (yields_list (hs.mono h)).imp fun _ _ h' => (h.trans h').mono (Nat.zero_le _)
  · refine (yields_advance_or_stay hs.valid).bind fun _ t' h => ?_
    exact (yields_hash (hs.mono h)).imp fun _ _ h' => h.trans h'
  · exact yields_refuse hs.valid none

theorem yields_projected (power : Nat) :
    Yields (projected fuel read power) t fun _ t' => t.Leads 0 t' := by
  have hexpression := (hs.yields power).imp fun _ _ h => h.mono (Nat.zero_le _)
  refine (yields_kind hs.valid).bind ?_
  rintro k _ ⟨rfl, -⟩
  split
  · exact yields_pure hs.valid.leads
  · split
    · exact hexpression
    · exact hexpression
    · refine (yields_expect hs.valid _).bind fun _ t' h => ?_
      exact (yields_afterDot (hs.mono h) power).imp fun _ _ h' =>
        (h.trans h').mono (Nat.zero_le _)
    · exact yields_refuse hs.valid none

theorem yields_filtered (left : Expr) :
    Yields (filtered fuel read left) t fun _ t' => t.Leads 0 t' := by
  refine (hs.yields 0).bind fun condition t₁ hcondition => ?_
  refine (yields_expect (hcondition.valid hs.valid) _).bind fun _ t₂ hclosed => ?_
  have hbefore := (hcondition.trans hclosed).mono (Nat.zero_le _)
  have hs₂ := hs.mono hbefore
  refine (yields_kind hs₂.valid).bind ?_
  rintro k _ ⟨rfl, -⟩
  split
  · exact yields_pure hbefore
  · exact (yields_projected hs₂ _).bind fun _ _ h => yields_pure (hbefore.trans h)

/-- A right side, and what is made of it. -/
theorem yields_projection (power : Nat) (make : Expr → Expr) :
    Yields (do return make (← projected fuel read power)) t fun _ t' => t.Leads 0 t' :=
  (yields_projected hs power).bind fun _ _ h => yields_pure h

theorem yields_projectIfSlice (left right : Expr) :
    Yields (projectIfSlice fuel read left right) t fun _ t' => t.Leads 0 t' := by
  rw [projectIfSlice.eq_def]
  split
  · exact yields_projection hs _ _
  · exact yields_pure hs.valid.leads

/-- A position or a slice, and what is made of it. -/
theorem yields_bracketed (left : Expr) :
    Yields (indexOrSlice fuel >>= projectIfSlice fuel read left) t fun _ t' => t.Leads 0 t' :=
  (yields_indexOrSlice hs.valid hs.left_le).bind fun right _ h =>
    (yields_projectIfSlice (hs.mono h) left right).imp fun _ _ h' =>
      (h.trans h').mono (Nat.zero_le _)

/-- An expression, and what is made of it. -/
theorem yields_wrapped (power : Nat) (make : Expr → Expr) :
    Yields (do return make (← read power)) t fun _ t' => t.Leads 0 t' :=
  (hs.yields power).bind fun _ _ h => yields_pure (h.mono (Nat.zero_le _))

/-! #### Operands and what follows them -/

theorem yields_operand (first : Cell) :
    Yields (operand fuel read first) t fun _ t' => t.Leads 0 t' := by
  have hlist := (yields_list hs).imp fun _ _ h => h.mono (Nat.zero_le _)
  rw [operand]
  split
  · exact yields_pure hs.valid.leads
  · exact yields_pure hs.valid.leads
  · refine (yields_ahead hs.valid 0).bind ?_
    rintro next _ ⟨rfl, -⟩
    split
    · exact .refusal rfl
    · exact yields_pure hs.valid.leads
  · refine (yields_kind hs.valid).bind ?_
    rintro k _ ⟨rfl, -⟩
    split
    · exact yields_pure hs.valid.leads
    · exact yields_projection hs _ _
  · exact yields_filtered hs _
  · exact yields_hash hs
  · refine (hs.yields 0).bind fun e t' he => ?_
    exact (yields_expect (he.valid hs.valid) _).bind fun _ t'' h =>
      yields_pure ((he.trans h).mono (Nat.zero_le _))
  · exact yields_projection hs _ _
  · exact yields_wrapped hs _ _
  · refine (yields_kind hs.valid).bind ?_
    rintro k _ ⟨rfl, -⟩
    split
    · exact yields_bracketed hs _
    · exact yields_bracketed hs _
    · refine (yields_ahead hs.valid 1).bind ?_
      rintro second _ ⟨rfl, -⟩
      split
      · refine (yields_advance_or_stay hs.valid).bind fun _ t' h => ?_
        refine (yields_advance_or_stay (h.valid hs.valid)).bind fun _ t'' h' => ?_
        have hboth := h.trans h'
        exact (yields_projection (hs.mono hboth) _ _).imp fun _ _ h'' => hboth.trans h''
      · exact hlist
    · exact hlist
  · exact yields_pure hs.valid.leads
  · exact yields_wrapped hs _ _
  · exact yields_refuseAt first none

theorem yields_following (hpos : 0 < t.position) (k : Token.Kind) (left : Expr) :
    Yields (following fuel read k left) t fun _ t' => t.Leads 0 t' := by
  rw [following.eq_def]
  split
  · refine (yields_kind hs.valid).bind ?_
    rintro next _ ⟨rfl, -⟩
    split
    · refine (yields_advance_or_stay hs.valid).bind fun _ t' h => ?_
      exact (yields_projection (hs.mono h) _ _).imp fun _ _ h' => h.trans h'
    · exact (yields_afterDot hs _).bind fun _ _ h => yields_pure h
  · exact yields_wrapped hs _ _
  · exact yields_wrapped hs _ _
  · exact yields_wrapped hs _ _
  · exact yields_wrapped hs _ _
  · exact yields_call hs left
  · exact yields_filtered hs left
  · exact yields_projection hs _ _
  · refine (yields_kind hs.valid).bind ?_
    rintro next _ ⟨rfl, -⟩
    split
    · exact yields_bracketed hs left
    · exact yields_bracketed hs left
    · refine (yields_expect hs.valid _).bind fun _ t' h => ?_
      refine (yields_expect (h.valid hs.valid) _).bind fun _ t'' h' => ?_
      have hboth := h.trans h'
      exact (yields_projection (hs.mono hboth) _ _).imp fun _ _ h'' =>
        (hboth.trans h'').mono (Nat.zero_le _)
  · refine (yields_before hs.valid hpos).bind ?_
    rintro c _ rfl
    exact yields_refuseAt c none

theorem yields_climbRound (power : Nat) (left : Expr) :
    Yields (climbRound fuel read power left) t fun turn t' =>
      turn.Leads (fun _ => True) t t' := by
  refine (yields_kind hs.valid).bind ?_
  rintro k _ ⟨rfl, hk⟩
  split
  · next hpower =>
    -- Only tokens of no power end the expression, so there is a cell to move on to.
    have hend : ¬t.AtEnd := fun hend => by
      rw [hk.mpr hend] at hpower
      exact Nat.not_lt_zero power hpower
    split
    · refine (yields_descend hs.valid).bind ?_
      rintro _ _ rfl
      have hdeeper := leads_deeper hs.valid
      refine (yields_advance (hdeeper.valid hs.valid) hend).bind fun _ t' h => ?_
      have hmoved := hdeeper.trans h
      have hpos : 0 < t'.position := Nat.lt_of_lt_of_le (Nat.succ_pos _) h.le_position
      exact (yields_following (hs.mono hmoved) hpos k left).bind fun larger t'' h' =>
        yields_pure ⟨trivial, hmoved.trans h'⟩
    · exact yields_refuse hs.valid none
  · exact yields_pure ⟨trivial, hs.valid.leads⟩

end Parts

/-! ### Expressions -/

/-- The end of the expression is no operand. -/
theorem yields_operand_of_ended {fuel : Nat} {read : Nat → Reader Expr} {t : Tape} {first : Cell}
    (h : first.kind = .ended) {P : Expr → Tape → Prop} : Yields (operand fuel read first) t P := by
  rw [operand, h]
  exact yields_refuseAt first none

/-- An operand and what follows it move the cursor on, if parts of expressions can be read
behind the next token. -/
theorem yields_nested {fuel : Nat} {read : Nat → Reader Expr} {t : Tape} (ht : t.Valid)
    (hs : ∀ t', t.Leads 1 t' → Supplied fuel read t') (power : Nat) :
    Yields (nested fuel read power) t fun _ t' => t.Leads 1 t' := by
  refine (yields_descend ht).bind ?_
  rintro _ _ rfl
  have hdeeper := leads_deeper ht
  have ht₁ := hdeeper.valid ht
  refine (yields_ahead ht₁ 0).bind ?_
  rintro first _ ⟨rfl, hfirst⟩
  by_cases hend : t.AtEnd
  · refine (yields_advance_or_stay ht₁).bind fun _ t' _ => ?_
    have hended : first.kind = .ended := hfirst.mpr (Nat.le_of_eq hend.symm)
    exact (yields_operand_of_ended hended (P := fun _ _ => False)).bind fun _ _ h => h.elim
  · refine (yields_advance ht₁ hend).bind fun _ t' h => ?_
    have hmoved := hdeeper.trans h
    have hs' := hs t' hmoved
    refine (yields_operand hs' first).bind fun left t'' h' => ?_
    have hs'' := hs'.mono h'
    refine (yields_loop hs''.valid (fun left _ _ h => yields_climbRound (hs''.mono h) power left)
      hs''.left_le trivial).imp fun _ _ h'' => (hmoved.trans h').trans h''.2

/-- **Reading an expression makes progress** if there is fuel for the cells that are left. -/
theorem yields_expression {fuel : Nat} {t : Tape} (ht : t.Valid) (hfuel : t.left ≤ fuel)
    (power : Nat) : Yields (expression fuel power) t fun _ t' => t.Leads 1 t' := by
  induction fuel generalizing t power with
  | zero => exact absurd hfuel (Nat.not_le.mpr ht.left_pos)
  | succ fuel ih =>
    -- What an expression needs of the expressions in it is about fewer cells.
    have hs : ∀ t', t.Leads 1 t' → Supplied fuel (expression fuel) t' := fun t' h => by
      have hfewer : t'.left ≤ fuel := Nat.le_of_succ_le_succ (Nat.le_trans h.left_le hfuel)
      exact ⟨h.valid ht, hfewer, fun power t'' h' =>
        ih (h'.valid (h.valid ht)) (Nat.le_trans h'.left_le hfewer) power⟩
    rw [expression]
    refine yields_get.bind ?_
    rintro _ _ ⟨rfl, rfl⟩
    refine (yields_nested ht hs power).bind fun e t' h => ?_
    have hascend : Yields (ascend t.depth) t' fun _ t'' => t.Leads 1 t'' :=
      yields_modify ⟨h.cells_eq, h.le_position, h.position_lt⟩
    exact hascend.bind fun _ _ h => yields_pure h

/-- Parts of expressions can be read with the reader of expressions. -/
theorem supplied {fuel : Nat} {t : Tape} (ht : t.Valid) (hfuel : t.left ≤ fuel) :
    Supplied fuel (expression fuel) t :=
  ⟨ht, hfuel, fun power _ h => yields_expression (h.valid ht) (Nat.le_trans h.left_le hfuel) power⟩

theorem yields_root {fuel : Nat} {t : Tape} (ht : t.Valid) (hfuel : t.left ≤ fuel) :
    Yields (root fuel) t fun _ t' => t.Leads 1 t' ∧ t'.AtEnd := by
  refine (yields_expression ht hfuel 0).bind fun e t' h => ?_
  have ht' := h.valid ht
  refine (yields_kind ht').bind ?_
  rintro k _ ⟨rfl, hk⟩
  split
  · next hended => exact yields_pure ⟨h, hk.mp hended⟩
  · exact yields_refuse ht' none

/-- That reading from a tape with some fuel **makes progress** and stays on the tape. None of the
readers is cut off: they refuse the expression or have a value. And none of them looks for a cell
or for a part of a slice that is not there. -/
structure MakesProgress (t : Tape) (fuel : Nat) : Prop where
  /-- A whole expression goes to the end of the tape. -/
  root_ends : Yields (root fuel) t fun _ t' => t.Leads 1 t' ∧ t'.AtEnd
  /-- An expression moves the cursor on. -/
  expression_moves : ∀ power, Yields (expression fuel power) t fun _ t' => t.Leads 1 t'
  /-- A symbol behind an operand moves the cursor on. -/
  climb_moves : ∀ power left, Yields (climbRound fuel (expression fuel) power left) t
    fun turn t' => turn.Leads (fun _ => True) t t'
  /-- An argument of a call moves the cursor on. -/
  argument_moves : ∀ args, Yields (argumentRound (expression fuel) args) t
    fun turn t' => turn.Leads (fun _ => True) t t'
  /-- A part of a slice moves the cursor on, and there are never more than three. -/
  slice_moves : ∀ s : Parts, s.Fits → Yields (sliceRound s) t
    fun turn t' => turn.Leads Parts.Fits t t'
  /-- An item of a list moves the cursor on. -/
  list_moves : ∀ items, Yields (listRound (expression fuel) items) t fun _ t' => t.Leads 1 t'
  /-- An entry of a keyed list moves the cursor on. -/
  hash_moves : ∀ entries, Yields (hashRound (expression fuel) entries) t
    fun _ t' => t.Leads 1 t'

/-- **Reading makes progress** from every valid tape, with as much fuel as there are cells left
or more. -/
theorem makesProgress {fuel : Nat} {t : Tape} (ht : t.Valid) (hfuel : t.left ≤ fuel) :
    t.MakesProgress fuel where
  root_ends := yields_root ht hfuel
  expression_moves := yields_expression ht hfuel
  climb_moves := yields_climbRound (supplied ht hfuel)
  argument_moves := yields_argumentRound (supplied ht hfuel)
  slice_moves _ := yields_sliceRound ht
  list_moves := yields_listRound (supplied ht hfuel)
  hash_moves := yields_hashRound (supplied ht hfuel)

end Tape

end JsonQuery
