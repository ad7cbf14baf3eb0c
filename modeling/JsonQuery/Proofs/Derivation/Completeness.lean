import JsonQuery.Proofs.Derivation.Shape
import JsonQuery.Proofs.Derivation.Soundness

/-!
# What is derivable is read

The converse of soundness, and a little more. The functions of `JsonQuery.Expr.Grammar`
accept whatever is derivable if they are given as many levels as the derivation has. If
they are given fewer they may run out of levels, and that is *all* that can happen: either
they accept, with the very expression that is derived, or they refuse a token because
the expression nests too deeply (`JsonQuery.Grammar.Settled`). So to know how a text is
read it is enough to find one derivation, whatever its levels.

There is one lemma for each part, about a rule whose premises run
(`JsonQuery.Grammar.Reading.Runs`), and `JsonQuery.Grammar.Derivable.runs` is the induction
over them.
-/

namespace JsonQuery

open Token (Lexeme Kind)

namespace Grammar

/-! ### Results up to a lack of levels -/

section Settled

variable {α β : Type} {short : Prop}

/-- A refusal for want of levels. -/
def Refusal.IsTooDeep : Refusal → Prop
  | .token _ _ _ (some .tooDeep) => True
  | _ => False

/-- A computation **settles on** a result if it yields that result or, when there may be a
lack of levels, is refused for that lack. -/
def Settled (short : Prop) (x : Except Refusal α) (a : α) : Prop :=
  x = .ok a ∨ short ∧ ∃ r, x = .error r ∧ r.IsTooDeep

theorem Settled.ok (a : α) : Settled short (.ok a) a :=
  Or.inl rfl

theorem Settled.bind {x : Except Refusal α} {f : α → Except Refusal β} {a : α} {b : β}
    (hx : Settled short x a) (hf : Settled short (f a) b) : Settled short (x >>= f) b := by
  rcases hx with rfl | ⟨hs, r, rfl, hr⟩
  · exact hf
  · exact Or.inr ⟨hs, r, rfl, hr⟩

theorem Settled.map {x : Except Refusal α} {a : α} (hx : Settled short x a) (g : α → β) :
    Settled short (x >>= fun a => pure (g a)) (g a) :=
  hx.bind (.ok _)

theorem Settled.mono {short' : Prop} {x : Except Refusal α} {a : α} (h : short → short')
    (hx : Settled short x a) : Settled short' x a :=
  hx.imp id fun hx => ⟨h hx.1, hx.2⟩

end Settled

/-! ### Tokens with given lexemes -/

theorem exists_cons_of_lexemes {ts : List Token} {l : Lexeme} {ls : List Lexeme}
    (h : lexemes ts = l :: ls) : ∃ t us, ts = t :: us ∧ t.lexeme = l ∧ lexemes us = ls :=
  List.map_eq_cons_iff.mp h

theorem startsWith_of_lexemes {s : Symbol} {ts : List Token} {ls : List Lexeme}
    (h : lexemes ts = .symbol s :: ls) : startsWith s ts = true := by
  rw [startsWith_iff, h]
  rfl

theorem startsWith_eq_false {s : Symbol} {ts : List Token}
    (h : front (lexemes ts) ≠ .symbol s) : startsWith s ts = false := by
  rw [← Bool.not_eq_true, startsWith_iff]
  exact h

theorem lexemes_tail {ts : List Token} {l : Lexeme} {ls : List Lexeme}
    (h : lexemes ts = l :: ls) : lexemes ts.tail = ls := by
  obtain ⟨t, us, rfl, -, hus⟩ := exists_cons_of_lexemes h
  exact hus

theorem expect_of_lexemes {s : Symbol} {ts : List Token} {ls : List Lexeme}
    (h : lexemes ts = .symbol s :: ls) : expect s ts = .ok ts.tail := by
  rw [expect, if_pos (startsWith_of_lexemes h)]

/-! ### Bounds, positions and slices -/

theorem bound_of_number {ts : List Token} {n : Int} {ls : List Lexeme}
    (h : lexemes ts = .number n :: ls) : bound ts = (some n, ts.tail) := by
  obtain ⟨⟨_, i, j⟩, us, rfl, rfl, -⟩ := exists_cons_of_lexemes h
  rfl

theorem bound_of_symbol {ts : List Token} {s : Symbol} {ls : List Lexeme}
    (h : lexemes ts = .symbol s :: ls) : bound ts = (none, ts) := by
  obtain ⟨⟨_, i, j⟩, us, rfl, rfl, -⟩ := exists_cons_of_lexemes h
  rfl

/-- A bound in front of a symbol is read as it is written. -/
theorem bound_of_withBound {ts : List Token} {b : Option Int} {s : Symbol} {ls : List Lexeme}
    (h : lexemes ts = withBound b (.symbol s :: ls)) :
    ∃ us, bound ts = (b, us) ∧ lexemes us = .symbol s :: ls := by
  cases b with
  | none => exact ⟨ts, bound_of_symbol h, h⟩
  | some n => exact ⟨ts.tail, bound_of_number h, lexemes_tail h⟩

theorem slice_of_sliceText {ts : List Token} {start stop : Option Int}
    {step : Option (Option Int)} {rest : List Lexeme}
    (h : lexemes ts = sliceText start stop step rest) :
    ∃ us, lexemes us = rest ∧ slice ts = .ok (.slice start stop step.join, us) := by
  obtain ⟨ts₁, hstart, h₁⟩ := bound_of_withBound h
  have h₂ := lexemes_tail h₁
  simp only [slice, hstart, expect_of_lexemes h₁]
  cases step with
  | none =>
    obtain ⟨ts₃, hstop, h₃⟩ := bound_of_withBound h₂
    have hcolon : startsWith .colon ts₃ = false :=
      startsWith_eq_false (by rw [h₃]; simp)
    refine ⟨ts₃.tail, lexemes_tail h₃, ?_⟩
    simp [bind, Except.bind, hstop, hcolon, expect_of_lexemes h₃, pure, Except.pure]
  | some step =>
    obtain ⟨ts₃, hstop, h₃⟩ := bound_of_withBound h₂
    obtain ⟨ts₄, hstep, h₄⟩ := bound_of_withBound (lexemes_tail h₃)
    refine ⟨ts₄.tail, lexemes_tail h₄, ?_⟩
    simp [bind, Except.bind, hstop, startsWith_of_lexemes h₃, hstep, expect_of_lexemes h₄, pure,
      Except.pure]

theorem indexOrSlice_of_index {ts : List Token} {n : Int} {rest : List Lexeme}
    (h : lexemes ts = .number n :: .symbol .rightBracket :: rest) :
    ∃ us, lexemes us = rest ∧ indexOrSlice ts = .ok (.index n, us) := by
  obtain ⟨⟨_, i, j⟩, us, rfl, rfl, hus⟩ := exists_cons_of_lexemes h
  have hcolon : startsWith .colon us = false := startsWith_eq_false (by rw [hus]; simp)
  refine ⟨us.tail, lexemes_tail hus, ?_⟩
  simp [indexOrSlice, hcolon, expect_of_lexemes hus, bind, Except.bind, pure, Except.pure]

theorem indexOrSlice_of_sliceText {ts : List Token} {start stop : Option Int}
    {step : Option (Option Int)} {rest : List Lexeme}
    (h : lexemes ts = sliceText start stop step rest) :
    ∃ us, lexemes us = rest ∧ indexOrSlice ts = .ok (.slice start stop step.join, us) := by
  obtain ⟨us, hus, hslice⟩ := slice_of_sliceText h
  refine ⟨us, hus, ?_⟩
  cases start with
  | none =>
    obtain ⟨⟨_, i, j⟩, vs, rfl, rfl, -⟩ := exists_cons_of_lexemes h
    exact hslice
  | some n =>
    obtain ⟨⟨_, i, j⟩, vs, rfl, rfl, hvs⟩ := exists_cons_of_lexemes h
    rw [indexOrSlice, if_pos (startsWith_of_lexemes hvs), hslice]

/-! ### Running a part -/

/-- **What the reader of a part yields** from some tokens on, with a number of levels: the
expression of the part and the tokens behind it, unless the levels may run out. -/
def Part.RunsFrom (K : Nat) (short : Prop) : Part → List Token → List Token → Prop
  | .expression p e, ts, us => Settled short (Grammar.expression K p ts) (e, us)
  | .operand e, ts, us => Settled short (leading (Grammar.expression K) ts) (e, us)
  | .climb p left e, ts, us => ∀ whole, Settled short (Grammar.climb K p whole left ts) (e, us)
  | .step s left e, ts, us => ∀ whole t,
      Settled short (following (Grammar.expression K) s whole left (t :: ts)) (e, us)
  | .projected form e, ts, us =>
      Settled short (Grammar.projected (Grammar.expression K) form.power ts) (e, us)
  | .afterDot p e, ts, us => Settled short (Grammar.afterDot (Grammar.expression K) p ts) (e, us)
  | .filtered left e, ts, us =>
      Settled short (Grammar.filtered (Grammar.expression K) left ts) (e, us)
  | .bracketed left e, ts, us =>
      Settled short (Grammar.bracketed (Grammar.expression K) left ts) (e, us)
  | .items es, ts, us =>
      Settled short (separated false .rightBracket (Grammar.expression K 0) ts) (es, us)
  | .entries es, ts, us =>
      Settled short (separated false .rightBrace (hashEntry (Grammar.expression K)) ts) (es, us)
  | .arguments es, ts, us =>
      Settled short (Grammar.arguments (Grammar.expression K) ts) (es, us)

/-- A reading **runs** if its part is read from any tokens with its lexemes, up to tokens
with the lexemes behind it. -/
def Reading.Runs (r : Reading) : Prop :=
  ∀ K ts, lexemes ts = r.before →
    ∃ us, lexemes us = r.after ∧ r.part.RunsFrom K (K < r.levels) ts us

/-! ### Lists between commas -/

section Separated

variable {α : Type} {short : Prop} {trailing : Bool} {close : Symbol}
  {item : List Token → Except Refusal (α × List Token)} {ts mid us : List Token} {a : α}
  {as : List α} (hitem : Settled short (item ts) (a, mid))
include hitem

/-- The last item of a list. -/
theorem settled_separated_last (hclose : startsWith close mid = true) :
    Settled short (separated trailing close item ts) ([a], mid.tail) := by
  rw [separated]
  rcases hitem with hitem | ⟨hs, r, hitem, hr⟩
  · simp only [hitem, if_pos hclose]
    exact .ok _
  · simp only [hitem]
    exact Or.inr ⟨hs, r, rfl, hr⟩

/-- The last item of a list in front of a comma. -/
theorem settled_separated_trail (hclose : startsWith close mid = false)
    (hcomma : startsWith .comma mid = true) (hend : startsWith close mid.tail = true) :
    Settled short (separated true close item ts) ([a], mid.tail.tail) := by
  rw [separated]
  rcases hitem with hitem | ⟨hs, r, hitem, hr⟩
  · simp only [hitem, hclose, hcomma, hend, Bool.and_self, if_true, Bool.false_eq_true, if_false]
    exact .ok _
  · simp only [hitem]
    exact Or.inr ⟨hs, r, rfl, hr⟩

/-- An item of a list in front of a comma and other items. -/
theorem settled_separated_more (hclose : startsWith close mid = false)
    (hcomma : startsWith .comma mid = true)
    (htrail : (trailing && startsWith close mid.tail) = false) (hlt : mid.length ≤ ts.length)
    (hmore : Settled short (separated trailing close item mid.tail) (as, us)) :
    Settled short (separated trailing close item ts) (a :: as, us) := by
  have hfew : mid.tail.length < ts.length := by
    rw [startsWith, beq_iff_eq] at hcomma
    cases mid with
    | nil => simp [headKind] at hcomma
    | cons t mid => exact hlt
  rw [separated]
  rcases hitem with hitem | ⟨hs, r, hitem, hr⟩
  · simp only [hitem, hclose, hcomma, htrail, hfew, if_true, Bool.false_eq_true, if_false]
    rcases hmore with hmore | ⟨hs, r, hmore, hr⟩
    · simp only [hmore]
      exact .ok _
    · simp only [hmore]
      exact Or.inr ⟨hs, r, rfl, hr⟩
  · simp only [hitem]
    exact Or.inr ⟨hs, r, rfl, hr⟩

end Separated

section Runs

variable {L : Nat} {premises : List Reading} {ls rest : List Lexeme}

@[simp] theorem length_lexemes (ts : List Token) : (lexemes ts).length = ts.length :=
  List.length_map _

/-- What is read is not longer than what it is read from. -/
theorem length_le_of_derivable {r : Reading} (h : Derivable r) {ts us : List Token}
    (hts : lexemes ts = r.before) (hus : lexemes us = r.after) : us.length ≤ ts.length := by
  have hle := h.length_le
  rw [← hts, ← hus, length_lexemes, length_lexemes] at hle
  omega

theorem runs_items {es : List Expr} (hr : Rule ⟨L, .items es, ls, rest⟩ premises)
    (hd : ∀ q ∈ premises, Derivable q) (h : ∀ q ∈ premises, q.Runs) :
    Reading.Runs ⟨L, .items es, ls, rest⟩ := by
  intro K ts hts
  cases hr with
  | lastItem =>
    obtain ⟨mid, hmid, he⟩ := List.forall_mem_singleton.mp h K ts hts
    exact ⟨mid.tail, lexemes_tail hmid, settled_separated_last he (startsWith_of_lexemes hmid)⟩
  | item =>
    rw [List.forall_mem_cons, List.forall_mem_singleton] at h
    obtain ⟨mid, hmid, he⟩ := h.1 K ts hts
    obtain ⟨us, hus, hes⟩ := h.2 K mid.tail (lexemes_tail hmid)
    have hle := length_le_of_derivable (hd _ (List.mem_cons_self ..)) hts hmid
    refine ⟨us, hus, settled_separated_more he (startsWith_eq_false ?_)
      (startsWith_of_lexemes hmid) rfl hle hes⟩
    rw [hmid]
    simp

theorem settled_hashEntry {K : Nat} {short : Prop} {key : String} {k : Lexeme} {e : Expr}
    {ts us : List Token} {ls : List Lexeme} (hk : k = .name key ∨ k = .quoted key)
    (hts : lexemes ts = k :: .symbol .colon :: ls)
    (he : Settled short (Grammar.expression K 0 ts.tail.tail) (e, us)) :
    Settled short (hashEntry (Grammar.expression K) ts) ((key, e), us) := by
  obtain ⟨t, more, rfl, ht, hmore⟩ := exists_cons_of_lexemes hts
  have hcolon := expect_of_lexemes hmore
  rcases hk with rfl | rfl
  · simp only [hashEntry, ht, hcolon]
    exact he.map fun r => ((key, r.1), r.2)
  · simp only [hashEntry, ht, hcolon]
    exact he.map fun r => ((key, r.1), r.2)

theorem runs_entries {es : List (String × Expr)}
    (hr : Rule ⟨L, .entries es, ls, rest⟩ premises)
    (hd : ∀ q ∈ premises, Derivable q) (h : ∀ q ∈ premises, q.Runs) :
    Reading.Runs ⟨L, .entries es, ls, rest⟩ := by
  intro K ts hts
  cases hr with
  | lastEntry hk =>
    have hvalue := lexemes_tail (lexemes_tail hts)
    obtain ⟨mid, hmid, he⟩ := List.forall_mem_singleton.mp h K ts.tail.tail hvalue
    exact ⟨mid.tail, lexemes_tail hmid,
      settled_separated_last (settled_hashEntry hk hts he) (startsWith_of_lexemes hmid)⟩
  | entry hk =>
    have hvalue := lexemes_tail (lexemes_tail hts)
    rw [List.forall_mem_cons, List.forall_mem_singleton] at h
    obtain ⟨mid, hmid, he⟩ := h.1 K ts.tail.tail hvalue
    obtain ⟨us, hus, hes⟩ := h.2 K mid.tail (lexemes_tail hmid)
    have hle := length_le_of_derivable (hd _ (List.mem_cons_self ..)) hvalue hmid
    refine ⟨us, hus, settled_separated_more (settled_hashEntry hk hts he) (startsWith_eq_false ?_)
      (startsWith_of_lexemes hmid) rfl ?_ hes⟩
    · rw [hmid]
      simp
    · rw [List.length_tail, List.length_tail] at hle
      omega

/-- An expression does not start with a closing parenthesis. -/
theorem startsWith_rightParen_eq_false {p : Nat} {e : Expr} {ts : List Token}
    {ls rest : List Lexeme} (h : Derivable ⟨L, .expression p e, ls, rest⟩)
    (hts : lexemes ts = ls) : startsWith .rightParen ts = false := by
  refine startsWith_eq_false fun hf => ?_
  have hstart := h.startsOperand
  rw [← hts, hf] at hstart
  simp [startsOperand] at hstart

theorem runs_arguments {es : List Expr} (hr : Rule ⟨L, .arguments es, ls, rest⟩ premises)
    (hd : ∀ q ∈ premises, Derivable q) (h : ∀ q ∈ premises, q.Runs) :
    Reading.Runs ⟨L, .arguments es, ls, rest⟩ := by
  intro K ts hts
  simp only [Part.RunsFrom, arguments]
  cases hr with
  | noArgument =>
    refine ⟨ts.tail, lexemes_tail hts, ?_⟩
    rw [if_pos (startsWith_of_lexemes hts)]
    exact .ok _
  | lastArgument =>
    obtain ⟨mid, hmid, he⟩ := List.forall_mem_singleton.mp h K ts hts
    refine ⟨mid.tail, lexemes_tail hmid, ?_⟩
    rw [startsWith_rightParen_eq_false (List.forall_mem_singleton.mp hd) hts]
    exact settled_separated_last he (startsWith_of_lexemes hmid)
  | argument =>
    rw [List.forall_mem_cons, List.forall_mem_singleton] at h
    have hfirst := hd _ (List.mem_cons_self ..)
    obtain ⟨mid, hmid, he⟩ := h.1 K ts hts
    obtain ⟨us, hus, hes⟩ := h.2 K mid.tail (lexemes_tail hmid)
    refine ⟨us, hus, ?_⟩
    have hclose : startsWith .rightParen mid = false := startsWith_eq_false (by rw [hmid]; simp)
    have hcomma := startsWith_of_lexemes hmid
    rw [startsWith_rightParen_eq_false hfirst hts]
    simp only [Part.RunsFrom, arguments] at hes
    split at hes
    · next hend =>
      -- the comma is the last one, and there is no argument behind it
      rcases hes with hes | ⟨-, r, hes, -⟩
      · obtain ⟨rfl, rfl⟩ := eq_of_pure_eq_ok hes
        exact settled_separated_trail he hclose hcomma hend
      · simp at hes
    · next hend =>
      exact settled_separated_more he hclose hcomma (by simpa using hend)
        (length_le_of_derivable hfirst hts hmid) hes

/-! ### Parts of expressions -/

theorem runs_afterDot {p : Nat} {e : Expr} (hr : Rule ⟨L, .afterDot p e, ls, rest⟩ premises)
    (h : ∀ q ∈ premises, q.Runs) : Reading.Runs ⟨L, .afterDot p e, ls, rest⟩ := by
  intro K ts hts
  simp only [Part.RunsFrom, afterDot, headKind_eq_front]
  cases hr with
  | afterDot hf =>
    obtain ⟨us, hus, he⟩ := List.forall_mem_singleton.mp h K ts hts
    refine ⟨us, hus, ?_⟩
    simp only at hts
    rw [hts]
    rcases hf with hf | hf | hf <;> rw [hf] <;> exact he
  | listAfterDot =>
    obtain ⟨us, hus, hes⟩ := List.forall_mem_singleton.mp h K ts.tail (lexemes_tail hts)
    refine ⟨us, hus, ?_⟩
    simp only at hts
    rw [hts]
    exact hes.map fun r => (Expr.list r.1, r.2)
  | hashAfterDot =>
    obtain ⟨us, hus, hes⟩ := List.forall_mem_singleton.mp h K ts.tail (lexemes_tail hts)
    refine ⟨us, hus, ?_⟩
    simp only at hts
    rw [hts]
    exact hes.map fun r => (Expr.hash r.1, r.2)

theorem runs_projected {form : Form} {e : Expr}
    (hr : Rule ⟨L, .projected form e, ls, rest⟩ premises) (h : ∀ q ∈ premises, q.Runs) :
    Reading.Runs ⟨L, .projected form e, ls, rest⟩ := by
  intro K ts hts
  simp only [Part.RunsFrom, projected, headKind_eq_front]
  cases hr with
  | unprojected hlow =>
    refine ⟨ts, hts, ?_⟩
    simp only at hts
    rw [hts, if_pos hlow]
    exact .ok _
  | projectedBracket =>
    obtain ⟨us, hus, he⟩ := List.forall_mem_singleton.mp h K ts hts
    refine ⟨us, hus, ?_⟩
    simp only at hts
    rw [hts]
    exact he
  | projectedFilter =>
    obtain ⟨us, hus, he⟩ := List.forall_mem_singleton.mp h K ts hts
    refine ⟨us, hus, ?_⟩
    simp only at hts
    rw [hts]
    exact he
  | projectedDot =>
    obtain ⟨us, hus, he⟩ := List.forall_mem_singleton.mp h K ts.tail (lexemes_tail hts)
    refine ⟨us, hus, ?_⟩
    simp only at hts
    rw [hts]
    exact he

/-- In front of a token of low power the right side of a projection is missing. -/
theorem eq_of_settled_projected {K p : Nat} {short : Prop} {e : Expr} {ts us : List Token}
    (hlow : (headKind ts).power < projectionStop)
    (h : Settled short (projected (Grammar.expression K) p ts) (e, us)) :
    e = .identity ∧ us = ts := by
  rw [projected, if_pos hlow] at h
  rcases h with h | ⟨-, r, h, -⟩
  · obtain ⟨rfl, rfl⟩ := eq_of_pure_eq_ok h
    exact ⟨rfl, rfl⟩
  · simp at h

theorem runs_filtered {left e : Expr} (hr : Rule ⟨L, .filtered left e, ls, rest⟩ premises)
    (h : ∀ q ∈ premises, q.Runs) : Reading.Runs ⟨L, .filtered left e, ls, rest⟩ := by
  intro K ts hts
  simp only [Part.RunsFrom, filtered]
  cases hr with
  | filtered =>
    rw [List.forall_mem_cons, List.forall_mem_singleton] at h
    obtain ⟨mid, hmid, hcondition⟩ := h.1 K ts hts
    obtain ⟨us, hus, hright⟩ := h.2 K mid.tail (lexemes_tail hmid)
    refine ⟨us, hus, hcondition.bind ?_⟩
    simp only [expect_of_lexemes hmid]
    refine Settled.bind (.ok mid.tail) ?_
    split
    · next hs =>
      -- an empty pair of brackets has a low power, so the right side is missing anyway
      obtain ⟨rfl, rfl⟩ := eq_of_settled_projected (by rw [beq_iff_eq.mp hs]; decide) hright
      exact .ok _
    · exact hright.map fun r => (Expr.projectWhere left r.1 _, r.2)

theorem runs_bracketed {left e : Expr} (hr : Rule ⟨L, .bracketed left e, ls, rest⟩ premises)
    (h : ∀ q ∈ premises, q.Runs) : Reading.Runs ⟨L, .bracketed left e, ls, rest⟩ := by
  intro K ts hts
  simp only [Part.RunsFrom, bracketed]
  cases hr with
  | index =>
    obtain ⟨us, hus, hindex⟩ := indexOrSlice_of_index hts
    refine ⟨us, hus, ?_⟩
    rw [hindex]
    exact .ok _
  | slice =>
    obtain ⟨mid, hmid, hslice⟩ := indexOrSlice_of_sliceText hts
    obtain ⟨us, hus, hright⟩ := List.forall_mem_singleton.mp h K mid hmid
    refine ⟨us, hus, ?_⟩
    rw [hslice]
    exact hright.map fun r => (Expr.project _ r.1, r.2)

/-! ### Operands -/

theorem startsPosition_of_bracketed {left e : Expr}
    (h : Derivable ⟨L, .bracketed left e, ls, rest⟩) {ts : List Token} (hts : lexemes ts = ls) :
    startsPosition ts = true := by
  obtain ⟨hr, -⟩ := h
  rw [startsPosition, startsWith, headKind_eq_front, hts]
  cases hr with
  | index => rfl
  | @slice _ _ _ start => cases start <;> rfl

/-- A list does not start like a position, nor with a star alone between brackets. -/
theorem startsPosition_of_items {es : List Expr} (h : Derivable ⟨L, .items es, ls, rest⟩)
    {ts : List Token} (hts : lexemes ts = ls) : startsPosition ts = false := by
  have hstart : startsOperand (front ls) = true := by
    obtain ⟨hr, hpremises⟩ := h
    cases hr with
    | lastItem => exact (List.forall_mem_singleton.mp hpremises).startsOperand
    | item => exact (hpremises _ (List.mem_cons_self ..)).startsOperand
  rw [startsPosition, startsWith, headKind_eq_front, hts]
  cases hf : front ls with
  | symbol s => cases s <;> simp_all [startsOperand]
  | _ => simp_all [startsOperand]

/-- A star between brackets is no position. -/
theorem startsPosition_of_star {ts : List Token} (hts : lexemes ts = .symbol .star :: ls) :
    startsPosition ts = false := by
  rw [startsPosition, startsWith, headKind_eq_front, hts]
  rfl

/-- An operand that starts with a lexeme and goes on with a part of its own runs if that
part does. -/
theorem runs_operand_of_premise {l : Lexeme} {e : Expr} {part : Part}
    (h : Reading.Runs ⟨L, part, ls, rest⟩)
    (hlead : ∀ {K t us vs}, t.lexeme = l → lexemes us = ls →
      part.RunsFrom K (K < L) us vs →
        Settled (K < L) (leading (Grammar.expression K) (t :: us)) (e, vs)) :
    Reading.Runs ⟨L, .operand e, l :: ls, rest⟩ := by
  intro K ts hts
  obtain ⟨t, us, rfl, ht, hus⟩ := exists_cons_of_lexemes hts
  obtain ⟨vs, hvs, hpart⟩ := h K us hus
  exact ⟨vs, hvs, hlead ht hus hpart⟩

theorem runs_operand {e : Expr} (hr : Rule ⟨L, .operand e, ls, rest⟩ premises)
    (hd : ∀ q ∈ premises, Derivable q) (h : ∀ q ∈ premises, q.Runs) :
    Reading.Runs ⟨L, .operand e, ls, rest⟩ := by
  cases hr with
  | literal | name | current =>
    intro K ts hts
    obtain ⟨t, us, rfl, ht, hus⟩ := exists_cons_of_lexemes hts
    refine ⟨us, hus, ?_⟩
    simp only [Part.RunsFrom, leading, ht]
    exact .ok _
  | quoted hne =>
    intro K ts hts
    obtain ⟨t, us, rfl, ht, hus⟩ := exists_cons_of_lexemes hts
    refine ⟨us, hus, ?_⟩
    simp only [Part.RunsFrom, leading, ht]
    rw [← hus] at hne
    cases us with
    | nil => exact .ok _
    | cons next us =>
      have hkind : ¬next.kind = .symbol .leftParen := hne
      simp only
      rw [if_neg hkind]
      exact .ok _
  | values =>
    refine runs_operand_of_premise (List.forall_mem_singleton.mp h) fun ht _ hright => ?_
    simp only [leading, ht]
    split
    · next hs =>
      -- a closing bracket has a low power, so the right side is missing anyway
      obtain ⟨rfl, rfl⟩ := eq_of_settled_projected (by rw [beq_iff_eq.mp hs]; decide) hright
      exact .ok _
    · exact hright.map fun r => (Expr.projectValues .identity r.1, r.2)
  | filter =>
    refine runs_operand_of_premise (List.forall_mem_singleton.mp h) fun ht _ he => ?_
    simp only [leading, ht]
    exact he
  | hash =>
    refine runs_operand_of_premise (List.forall_mem_singleton.mp h) fun ht _ hes => ?_
    simp only [leading, ht]
    exact hes.map fun r => (Expr.hash r.1, r.2)
  | group =>
    intro K ts hts
    obtain ⟨t, us, rfl, ht, hus⟩ := exists_cons_of_lexemes hts
    obtain ⟨mid, hmid, he⟩ := List.forall_mem_singleton.mp h K us hus
    refine ⟨mid.tail, lexemes_tail hmid, ?_⟩
    simp only [Part.RunsFrom, leading, ht]
    refine he.bind ?_
    simp only [expect_of_lexemes hmid]
    exact .ok _
  | flatten =>
    refine runs_operand_of_premise (List.forall_mem_singleton.mp h) fun ht _ hright => ?_
    simp only [leading, ht]
    exact hright.map fun r => (Expr.project (.flatten .identity) r.1, r.2)
  | not =>
    refine runs_operand_of_premise (List.forall_mem_singleton.mp h) fun ht _ he => ?_
    simp only [leading, ht]
    exact he.map fun r => (Expr.not r.1, r.2)
  | reference =>
    refine runs_operand_of_premise (List.forall_mem_singleton.mp h) fun ht _ he => ?_
    simp only [leading, ht]
    exact he.map fun r => (Expr.reference r.1, r.2)
  | position =>
    refine runs_operand_of_premise (List.forall_mem_singleton.mp h) fun ht hus he => ?_
    simp only [leading, ht]
    rw [startsPosition_of_bracketed (List.forall_mem_singleton.mp hd) hus]
    exact he
  | everyItem =>
    intro K ts hts
    obtain ⟨t, us, rfl, ht, hus⟩ := exists_cons_of_lexemes hts
    have hclose := lexemes_tail hus
    obtain ⟨vs, hvs, hright⟩ :=
      List.forall_mem_singleton.mp h K us.tail.tail (lexemes_tail hclose)
    refine ⟨vs, hvs, ?_⟩
    simp only [Part.RunsFrom, leading, ht]
    rw [startsPosition_of_star hus, startsWith_of_lexemes hus, startsWith_of_lexemes hclose]
    exact hright.map fun r => (Expr.project .identity r.1, r.2)
  | list hne =>
    refine runs_operand_of_premise (List.forall_mem_singleton.mp h) fun {K t us vs} ht hus hes => ?_
    have hstar : ¬(startsWith .star us && startsWith .rightBracket us.tail) = true := by
      rw [Bool.and_eq_true]
      rintro ⟨h₁, h₂⟩
      apply hne (lexemes us.tail.tail)
      rw [← hus, lexemes_of_startsWith h₁, lexemes_of_startsWith h₂]
    simp only [leading, ht]
    rw [startsPosition_of_items (List.forall_mem_singleton.mp hd) hus, if_neg (by simp),
      if_neg hstar]
    exact hes.map fun r => (Expr.list r.1, r.2)

/-! ### What follows an operand -/

/-- What a symbol makes of the operand on its left runs if the part behind the symbol
does. -/
theorem runs_step_of_premise {s : Symbol} {left e : Expr} {part : Part}
    (h : Reading.Runs ⟨L, part, ls, rest⟩)
    (hfollow : ∀ {K ts us}, lexemes ts = ls → part.RunsFrom K (K < L) ts us → ∀ whole t,
      Settled (K < L) (following (Grammar.expression K) s whole left (t :: ts)) (e, us)) :
    Reading.Runs ⟨L, .step s left e, ls, rest⟩ := by
  intro K ts hts
  obtain ⟨us, hus, hpart⟩ := h K ts hts
  exact ⟨us, hus, hfollow hts hpart⟩

theorem runs_step {s : Symbol} {left e : Expr} (hr : Rule ⟨L, .step s left e, ls, rest⟩ premises)
    (hd : ∀ q ∈ premises, Derivable q) (h : ∀ q ∈ premises, q.Runs) :
    Reading.Runs ⟨L, .step s left e, ls, rest⟩ := by
  cases hr with
  | dotStar =>
    intro K ts hts
    obtain ⟨us, hus, hright⟩ := List.forall_mem_singleton.mp h K ts.tail (lexemes_tail hts)
    refine ⟨us, hus, fun _ _ => ?_⟩
    simp only [following, List.tail_cons, startsWith_of_lexemes hts, if_true]
    exact hright.map fun r => (Expr.projectValues left r.1, r.2)
  | dot hne =>
    refine runs_step_of_premise (List.forall_mem_singleton.mp h) fun {K ts us} hts hright _ _ => ?_
    have hstar : startsWith .star ts = false := startsWith_eq_false (by rw [hts]; exact hne)
    simp only [following, List.tail_cons, hstar, Bool.false_eq_true, if_false]
    exact hright.map fun r => (left.dotted r.1, r.2)
  | pipe =>
    refine runs_step_of_premise (List.forall_mem_singleton.mp h) fun _ hright _ _ => ?_
    exact hright.map fun r => (Expr.pipe left r.1, r.2)
  | or =>
    refine runs_step_of_premise (List.forall_mem_singleton.mp h) fun _ hright _ _ => ?_
    exact hright.map fun r => (Expr.or left r.1, r.2)
  | and =>
    refine runs_step_of_premise (List.forall_mem_singleton.mp h) fun _ hright _ _ => ?_
    exact hright.map fun r => (Expr.and left r.1, r.2)
  | @compare _ op =>
    refine runs_step_of_premise (List.forall_mem_singleton.mp h) fun _ hright _ _ => ?_
    exact hright.map fun r => (Expr.compare op left r.1, r.2)
  | @call _ name =>
    refine runs_step_of_premise (List.forall_mem_singleton.mp h) fun _ hargs _ _ => ?_
    exact hargs.map fun r => (Expr.call name r.1, r.2)
  | filterOf =>
    exact runs_step_of_premise (List.forall_mem_singleton.mp h) fun _ he _ _ => he
  | flattenOf =>
    refine runs_step_of_premise (List.forall_mem_singleton.mp h) fun _ hright _ _ => ?_
    exact hright.map fun r => (Expr.project (.flatten left) r.1, r.2)
  | positionOf =>
    refine runs_step_of_premise (List.forall_mem_singleton.mp h) fun hts he _ _ => ?_
    have hposition := startsPosition_of_bracketed (List.forall_mem_singleton.mp hd) hts
    simp only [following, List.tail_cons, hposition, if_true]
    exact he
  | everyItemOf =>
    intro K ts hts
    have hclose := lexemes_tail hts
    obtain ⟨us, hus, hright⟩ :=
      List.forall_mem_singleton.mp h K ts.tail.tail (lexemes_tail hclose)
    refine ⟨us, hus, fun _ _ => ?_⟩
    simp only [following, List.tail_cons, startsPosition_of_star hts, Bool.false_eq_true, if_false,
      expect_of_lexemes hts]
    refine Settled.bind (.ok ts.tail) ?_
    rw [expect_of_lexemes hclose]
    exact hright.map fun r => (Expr.project left r.1, r.2)

/-- A symbol that a rule reads something behind can follow an operand. -/
theorem canFollow_of_step {s : Symbol} {left e : Expr}
    (h : Derivable ⟨L, .step s left e, ls, rest⟩) : canFollow s = true := by
  obtain ⟨hr, -⟩ := h
  cases hr <;> rfl

/-- A refusal for want of levels in front of a token. -/
theorem settled_of_refuse {α : Type} {short : Prop} {a : α} {ts : List Token} {l : Lexeme}
    (hs : short) (hts : lexemes ts = l :: ls) :
    Settled short (.error (refuse (some .tooDeep) ts)) a := by
  obtain ⟨t, us, rfl, -, -⟩ := exists_cons_of_lexemes hts
  exact Or.inr ⟨hs, _, rfl, trivial⟩

theorem runs_climb {p : Nat} {left e : Expr} (hr : Rule ⟨L, .climb p left e, ls, rest⟩ premises)
    (hd : ∀ q ∈ premises, Derivable q) (h : ∀ q ∈ premises, q.Runs) :
    Reading.Runs ⟨L, .climb p left e, ls, rest⟩ := by
  intro K ts hts
  simp only [Part.RunsFrom]
  cases hr with
  | stop hlow =>
    refine ⟨ts, hts, fun whole => ?_⟩
    simp only at hts
    rw [← hts, ← headKind_eq_front] at hlow
    rw [climb]
    split
    · next s hs =>
      rw [hs] at hlow
      have hnot : ¬p < s.power := Nat.not_lt.mpr hlow
      rw [if_neg hnot]
      exact .ok _
    · exact .ok _
  | @climb L _ s _ _ _ _ _ _ hp =>
    rw [List.forall_mem_cons, List.forall_mem_singleton] at h
    obtain ⟨t, us, rfl, ht, hus⟩ := exists_cons_of_lexemes hts
    have hkind : headKind (t :: us) = .symbol s := by rw [headKind_eq_front, hts]; rfl
    have hfollow := canFollow_of_step (hd _ (List.mem_cons_self ..))
    cases K with
    | zero =>
      -- there is no level left for the symbol, so its token is refused
      obtain ⟨mid, hmid, -⟩ := h.1 0 us hus
      obtain ⟨vs, hvs, -⟩ := h.2 0 mid hmid
      refine ⟨vs, hvs, fun whole => ?_⟩
      rw [climb]
      simp only [hkind, hp, hfollow, if_true]
      exact settled_of_refuse L.succ_pos hts
    | succ K =>
      obtain ⟨mid, hmid, hstep⟩ := h.1 K us hus
      obtain ⟨vs, hvs, hmore⟩ := h.2 K mid hmid
      refine ⟨vs, hvs, fun whole => ?_⟩
      rw [climb]
      simp only [hkind, hp, hfollow, if_true]
      rcases (hstep whole t).mono Nat.succ_lt_succ with hstep | ⟨hs, r, hstep, hr⟩
      · rw [hstep]
        exact (hmore whole).mono Nat.succ_lt_succ
      · rw [hstep]
        exact Or.inr ⟨hs, r, rfl, hr⟩

theorem runs_expression {p : Nat} {e : Expr}
    (hr : Rule ⟨L, .expression p e, ls, rest⟩ premises)
    (hd : ∀ q ∈ premises, Derivable q) (h : ∀ q ∈ premises, q.Runs) :
    Reading.Runs ⟨L, .expression p e, ls, rest⟩ := by
  intro K ts hts
  simp only [Part.RunsFrom]
  cases hr with
  | @expression L =>
    rw [List.forall_mem_cons, List.forall_mem_singleton] at h
    cases K with
    | zero =>
      -- there is no level left for the operand, and it does start with some token
      obtain ⟨mid, hmid, -⟩ := h.1 0 ts hts
      obtain ⟨vs, hvs, -⟩ := h.2 0 mid hmid
      refine ⟨vs, hvs, ?_⟩
      rw [expression]
      have hgain := (hd _ (List.mem_cons_self ..)).length_le
      simp only at hts hgain
      cases ts with
      | nil =>
        rw [← hts] at hgain
        simp [Part.gain] at hgain
      | cons t ts => exact Or.inr ⟨L.succ_pos, _, rfl, trivial⟩
    | succ K =>
      obtain ⟨mid, hmid, hleft⟩ := h.1 K ts hts
      obtain ⟨vs, hvs, hclimb⟩ := h.2 K mid hmid
      refine ⟨vs, hvs, ?_⟩
      rw [expression]
      rcases hleft.mono Nat.succ_lt_succ with hleft | ⟨hs, r, hleft, hr⟩
      · rw [hleft]
        exact (hclimb ts).mono Nat.succ_lt_succ
      · rw [hleft]
        exact Or.inr ⟨hs, r, rfl, hr⟩

end Runs

/-- **What is derivable is read**, unless there are fewer levels than the derivation has and
they run out. -/
theorem Derivable.runs {r : Reading} (h : Derivable r) : r.Runs := by
  induction h with
  | @rule r premises hr hpremises ih =>
    obtain ⟨L, part, ls, rest⟩ := r
    cases part with
    | expression => exact runs_expression hr hpremises ih
    | operand => exact runs_operand hr hpremises ih
    | climb => exact runs_climb hr hpremises ih
    | step => exact runs_step hr hpremises ih
    | projected => exact runs_projected hr ih
    | afterDot => exact runs_afterDot hr ih
    | filtered => exact runs_filtered hr ih
    | bracketed => exact runs_bracketed hr ih
    | items => exact runs_items hr hpremises ih
    | entries => exact runs_entries hr hpremises ih
    | arguments => exact runs_arguments hr hpremises ih

/-- **Soundness and completeness**: an expression is read with a number of levels exactly if
it is derivable with them. -/
theorem expression_eq_ok_iff {L p : Nat} {ts : List Token} {e : Expr} {rest : List Lexeme} :
    (∃ us, lexemes us = rest ∧ expression L p ts = .ok (e, us)) ↔
      Derivable ⟨L, .expression p e, lexemes ts, rest⟩ := by
  constructor
  · rintro ⟨us, rfl, h⟩
    exact derivable_of_expression h
  · intro h
    obtain ⟨us, hus, hrun | ⟨hlt, -⟩⟩ := h.runs L ts rfl
    · exact ⟨us, hus, hrun⟩
    · exact absurd hlt (Nat.lt_irrefl L)

/-- **Some tokens that an expression is derivable from are its text**, unless the derivation
has too many levels and they run out. -/
theorem settled_ofTokens {L : Nat} {ts : List Token} {e : Expr}
    (h : Derivable ⟨L, .expression 0 e, lexemes ts, []⟩) :
    Settled (maxNesting < L) (Expr.ofTokens ts) e := by
  obtain ⟨us, hus, hrun⟩ := h.runs maxNesting ts rfl
  obtain rfl : us = [] := by simpa [lexemes] using hus
  rw [Expr.ofTokens]
  rcases hrun with hrun | ⟨hlt, r, hrun, hr⟩
  · rw [hrun]
    exact .ok e
  · rw [hrun]
    exact Or.inr ⟨hlt, r, rfl, hr⟩

end Grammar

end JsonQuery
