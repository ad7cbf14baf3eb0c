import JsonQuery.Proofs.Derivation.Shape

/-!
# Reading on in a longer text

An expression that was read up to the end of a text is read in the same way if the text
goes on behind it, provided that what comes next does not bind to it. This file says when
that is so (`JsonQuery.Grammar.Derivable.extend`). Closing symbols and commas have no power
at all, so nothing is asked then. A pipe has the least power that there is, and only one
kind of operand lets it in: the **reference**, for what stands behind an ampersand is read
with no power. So what is asked is that no reference reaches to the end of the text.

That is a condition on derivations. It is turned into one on lexemes by counting brackets
(`JsonQuery.Grammar.nesting`): a derivation keeps them balanced
(`JsonQuery.Grammar.Derivable.nesting_eq`), so a reference that reaches to the end of the
text starts outside all of them (`JsonQuery.Grammar.Occurs.exposed`).
-/

namespace JsonQuery

open Token (Lexeme Kind)

namespace Grammar

/-! ### Suffixes -/

theorem suffix_withBound (b : Option Int) (ls : List Lexeme) : ls <:+ withBound b ls := by
  cases b with
  | none => exact List.suffix_rfl
  | some => exact List.suffix_cons ..

theorem suffix_sliceText (start stop : Option Int) (step : Option (Option Int))
    (rest : List Lexeme) : rest <:+ sliceText start stop step rest := by
  have hcons (l : Lexeme) {ls ms : List Lexeme} (h : ls <:+ ms) : ls <:+ l :: ms :=
    h.trans (List.suffix_cons l ms)
  refine .trans (hcons _ ?_) (suffix_withBound ..)
  refine .trans ?_ (suffix_withBound ..)
  cases step with
  | none => exact List.suffix_cons ..
  | some => exact hcons _ ((List.suffix_cons ..).trans (suffix_withBound ..))

/-- What is behind a part is a suffix of what the part starts with. -/
theorem Derivable.after_suffix {r : Reading} (h : Derivable r) : r.after <:+ r.before := by
  induction h with
  | rule hr _ ih =>
    cases hr with
    | slice =>
      rw [List.forall_mem_singleton] at ih
      exact ih.trans (suffix_sliceText ..)
    | _ =>
      simp only [List.mem_cons, List.not_mem_nil, or_false, forall_eq_or_imp, forall_eq] at ih ⊢
      grind [List.IsSuffix.trans, List.suffix_cons]

/-- A premise starts somewhere in its conclusion. -/
theorem Rule.before_suffix {r p : Reading} {premises : List Reading} (hr : Rule r premises)
    (hpremises : ∀ p ∈ premises, Derivable p) (hp : p ∈ premises) : p.before <:+ r.before := by
  have hsuffix : ∀ p ∈ premises, p.after <:+ p.before := fun p hp =>
    (hpremises p hp).after_suffix
  cases hr with
  | slice =>
    obtain rfl := List.mem_singleton.mp hp
    exact suffix_sliceText ..
  | literal | name | quoted | current | stop | unprojected | index | noArgument =>
    exact absurd hp List.not_mem_nil
  | _ =>
    simp only [List.mem_cons, List.not_mem_nil, or_false, forall_eq_or_imp, forall_eq]
      at hp hsuffix ⊢
    grind [List.IsSuffix.trans, List.suffix_cons]

theorem Occurs.before_suffix {o r : Reading} (h : Occurs o r) : o.before <:+ r.before := by
  induction h with
  | refl => exact List.suffix_rfl
  | premise hr hpremises hp _ ih => exact ih.trans (hr.before_suffix hpremises hp)

/-! ### Brackets -/

/-- What a lexeme adds to the number of brackets that are open. -/
def bracket : Lexeme → Int
  | .symbol .leftParen | .symbol .leftBracket | .symbol .leftBrace | .symbol .filter => 1
  | .symbol .rightParen | .symbol .rightBracket | .symbol .rightBrace => -1
  | _ => 0

/-- **How many brackets some lexemes open**, less those that they close. -/
def nesting : List Lexeme → Int
  | [] => 0
  | l :: ls => bracket l + nesting ls

@[simp] theorem nesting_nil : nesting [] = 0 := rfl

@[simp] theorem nesting_cons (l : Lexeme) (ls : List Lexeme) :
    nesting (l :: ls) = bracket l + nesting ls := rfl

@[simp] theorem nesting_append (ls ms : List Lexeme) :
    nesting (ls ++ ms) = nesting ls + nesting ms := by
  induction ls with
  | nil => rw [List.nil_append, nesting_nil, Int.zero_add]
  | cons l ls ih => rw [List.cons_append, nesting_cons, nesting_cons, ih, Int.add_assoc]

@[simp] theorem nesting_withBound (b : Option Int) (ls : List Lexeme) :
    nesting (withBound b ls) = nesting ls := by
  cases b <;> simp [withBound, bracket]

@[simp] theorem nesting_sliceText (start stop : Option Int) (step : Option (Option Int))
    (rest : List Lexeme) : nesting (sliceText start stop step rest) = nesting rest - 1 := by
  cases step <;> simp [sliceText, bracket] <;> omega

/-- How many brackets a part closes that were opened before it. -/
def Part.inside : Part → Int
  | .step s _ _ => bracket (.symbol s)
  | .filtered .. | .bracketed .. | .items _ | .entries _ | .arguments _ => 1
  | _ => 0

/-- **Brackets are balanced**: a part closes those that it opens, and the ones that it is
inside of. -/
theorem Derivable.nesting_eq {r : Reading} (h : Derivable r) :
    nesting r.before + r.part.inside = nesting r.after := by
  induction h with
  | rule hr _ ih =>
    cases hr with
    | lastEntry hk | entry hk =>
      rcases hk with rfl | rfl <;>
        simp only [List.mem_cons, List.not_mem_nil, or_false, forall_eq_or_imp, forall_eq,
          Part.inside, nesting_cons, bracket] at ih ⊢ <;>
        omega
    | _ =>
      simp only [List.mem_cons, List.not_mem_nil, or_false, forall_eq_or_imp, forall_eq,
        Part.inside, nesting_cons, nesting_sliceText, bracket] at ih ⊢
      omega

/-- That an ampersand is among some lexemes **outside of every pair of brackets**. -/
def Exposed (ls : List Lexeme) : Prop :=
  ∃ left right, ls = left ++ .symbol .reference :: right ∧ nesting left = 0

/-- Whether an ampersand is among some lexemes where as many brackets are closed as were
open before them. -/
def exposes (n : Int) : List Lexeme → Bool
  | [] => false
  | l :: ls => l.kind == .symbol .reference && n == 0 || exposes (n + bracket l) ls

theorem exposes_iff (n : Int) (ls : List Lexeme) : exposes n ls = true ↔
    ∃ left right, ls = left ++ .symbol .reference :: right ∧ n + nesting left = 0 := by
  induction ls generalizing n with
  | nil => simp [exposes]
  | cons l ls ih =>
    rw [exposes, Bool.or_eq_true, ih, Bool.and_eq_true, beq_iff_eq, beq_iff_eq,
      kind_eq_symbol_iff]
    constructor
    · rintro (⟨rfl, rfl⟩ | ⟨left, right, rfl, h⟩)
      · exact ⟨[], ls, rfl, rfl⟩
      · exact ⟨l :: left, right, rfl, by rw [nesting_cons, ← Int.add_assoc, h]⟩
    · rintro ⟨_ | ⟨k, left⟩, right, heq, h⟩
      · obtain ⟨rfl, -⟩ := List.cons.inj heq
        exact Or.inl ⟨rfl, by simpa using h⟩
      · obtain ⟨rfl, rfl⟩ := List.cons.inj heq
        exact Or.inr ⟨left, right, rfl, by rw [Int.add_assoc, ← nesting_cons, h]⟩

instance (ls : List Lexeme) : Decidable (Exposed ls) :=
  decidable_of_iff (exposes 0 ls = true) <| by simp [exposes_iff, Exposed]

/-- The reading of a **reference that reaches to the end** of the text. -/
structure Reading.IsOpenReference (r : Reading) : Prop where
  operand : ∃ e, r.part = .operand e
  ampersand : ∃ ls, r.before = .symbol .reference :: ls
  ended : r.after = []

/-- A reference that reaches to the end of the text is exposed in it. -/
theorem Occurs.exposed {o : Reading} {L p : Nat} {e : Expr} {ls : List Lexeme}
    (h : Occurs o ⟨L, .expression p e, ls, []⟩) (ho : o.IsOpenReference) : Exposed ls := by
  obtain ⟨⟨operand, hpart⟩, ⟨right, hright⟩, hended⟩ := ho
  obtain ⟨left, hleft⟩ := h.before_suffix
  obtain rfl : left ++ o.before = ls := hleft
  have houter := h.derivable_whole.nesting_eq
  have hinner := h.derivable.nesting_eq
  refine ⟨left, right, by rw [hright], ?_⟩
  -- nothing is open where the reference starts, for nothing is open at the end
  rw [hpart, hended] at hinner
  simp only [nesting_append, nesting_nil, Part.inside] at houter hinner
  omega

/-! ### Extension -/

/-- A reading in a text that goes on behind it. -/
def Reading.extend (tail : List Lexeme) (r : Reading) : Reading :=
  { r with before := r.before ++ tail, after := r.after ++ tail }

/-- That a part may end before a symbol of a power. -/
def Part.Admits (n : Nat) : Part → Prop
  | .expression p _ | .climb p _ _ | .afterDot p _ => n ≤ p
  | _ => True

section Extend

variable {tail : List Lexeme}

theorem withBound_append (b : Option Int) (ls : List Lexeme) :
    withBound b ls ++ tail = withBound b (ls ++ tail) := by
  cases b <;> rfl

theorem sliceText_append (start stop : Option Int) (step : Option (Option Int))
    (rest : List Lexeme) :
    sliceText start stop step rest ++ tail = sliceText start stop step (rest ++ tail) := by
  cases step <;> simp [sliceText, withBound_append]

/-- What is behind a part keeps its first lexeme if there is one. -/
theorem power_front_append_le {rest : List Lexeme} {n : Nat} (h : (front rest).power ≤ n)
    (htail : rest = [] → (front tail).power ≤ n) : (front (rest ++ tail)).power ≤ n := by
  cases rest with
  | nil => exact htail rfl
  | cons => exact h

theorem front_append_ne {rest : List Lexeme} {s : Symbol} (h : front rest ≠ .symbol s)
    (htail : (front tail).power < s.power) : front (rest ++ tail) ≠ .symbol s := by
  cases rest with
  | nil =>
    intro heq
    rw [List.nil_append] at heq
    rw [heq] at htail
    exact Nat.lt_irrefl _ htail
  | cons => exact h

/-- A list has an item and a closing bracket. -/
theorem Derivable.length_items {L : Nat} {es : List Expr} {ls rest : List Lexeme}
    (h : Derivable ⟨L, .items es, ls, rest⟩) : 2 ≤ ls.length := by
  obtain ⟨hr, hpremises⟩ := h
  cases hr with
  | lastItem | item =>
    have hlength := (hpremises _ List.mem_cons_self).length_le
    simp only [List.length_cons, Part.gain] at hlength
    omega

/-- **The rules in a longer text.** -/
theorem Rule.extend {r : Reading} {premises : List Reading} (hr : Rule r premises)
    (hpremises : ∀ p ∈ premises, Derivable p) (htail : (front tail).power ≤ 1)
    (hadmits : r.after = [] → r.part.Admits (front tail).power) :
    Rule (r.extend tail) (premises.map (Reading.extend tail)) := by
  cases hr with
  | quoted h => exact .quoted (front_append_ne h (Nat.lt_of_le_of_lt htail (by decide)))
  | stop h => exact .stop (power_front_append_le h hadmits)
  | unprojected h =>
    refine .unprojected (Nat.lt_succ_of_le (power_front_append_le (Nat.le_of_lt_succ h) ?_))
    exact fun _ => Nat.le_trans htail (by decide)
  | dot h => exact .dot (front_append_ne h (Nat.lt_of_le_of_lt htail (by decide)))
  | slice =>
    rw [Reading.extend, sliceText_append]
    exact .slice
  | @list L es ls rest h =>
    -- two lexemes of the list are there before the text goes on
    refine .list fun more heq => ?_
    have hlong := (hpremises _ (List.mem_singleton_self _)).length_items
    obtain ⟨l, k, ks, rfl⟩ : ∃ l k ks, ls = l :: k :: ks := by
      match ls, hlong with
      | l :: k :: ks, _ => exact ⟨l, k, ks, rfl⟩
    obtain ⟨rfl, rfl, -⟩ : l = .symbol .star ∧ k = .symbol .rightBracket ∧ ks ++ tail = more := by
      simpa using heq
    exact h ks rfl
  | @afterDot L p e ls rest h =>
    -- something starts with a name, so the front is not that of what is behind
    refine .afterDot ?_
    cases ls with
    | nil => simp at h
    | cons => exact h
  | _ => constructor <;> assumption

theorem Form.one_le_power (form : Form) : 1 ≤ form.power := by
  cases form <;> decide

/-- Every part but a reference hands on that it may end before a symbol of the least
power. -/
theorem Rule.admits {r p : Reading} {premises : List Reading} {n : Nat} (hr : Rule r premises)
    (hn : n ≤ 1) (hadmits : r.after = [] → r.part.Admits n)
    (hopen : r.IsOpenReference → n = 0) (hp : p ∈ premises) :
    p.after = [] → p.part.Admits n := by
  intro hafter
  cases hr with
  | reference =>
    obtain rfl := List.mem_singleton.mp hp
    exact Nat.le_of_eq (hopen ⟨⟨_, rfl⟩, ⟨_, rfl⟩, hafter⟩)
  | literal | name | quoted | current | stop | unprojected | index | noArgument =>
    exact absurd hp List.not_mem_nil
  | expression | climb =>
    rcases List.mem_cons.mp hp with rfl | hp
    · trivial
    · obtain rfl := List.mem_singleton.mp hp
      exact hadmits hafter
  | afterDot =>
    obtain rfl := List.mem_singleton.mp hp
    exact hadmits hafter
  | not | pipe | or | and | compare | dot =>
    -- the power of the symbol is at least that of a pipe
    obtain rfl := List.mem_singleton.mp hp
    exact Nat.le_trans hn (Nat.le_add_left ..)
  | projectedBracket | projectedFilter | projectedDot =>
    obtain rfl := List.mem_singleton.mp hp
    exact Nat.le_trans hn (Form.one_le_power _)
  | group | lastItem | lastEntry | lastArgument =>
    -- the premise is closed by a symbol, and so it does not reach to the end
    obtain rfl := List.mem_singleton.mp hp
    cases hafter
  | filtered | item | entry | argument =>
    rcases List.mem_cons.mp hp with rfl | hp
    · cases hafter
    · obtain rfl := List.mem_singleton.mp hp
      trivial
  | _ =>
    obtain rfl := List.mem_singleton.mp hp
    trivial

/-- **Reading on in a longer text.** -/
theorem Derivable.extend {r : Reading} (h : Derivable r) (tail : List Lexeme)
    (htail : (front tail).power ≤ 1)
    (hadmits : r.after = [] → r.part.Admits (front tail).power)
    (hopen : ∀ o, Occurs o r → o.IsOpenReference → (front tail).power = 0) :
    Derivable (r.extend tail) := by
  induction h with
  | rule hr hpremises ih =>
    refine .rule (hr.extend hpremises htail hadmits) fun q hq => ?_
    obtain ⟨p, hp, rfl⟩ := List.mem_map.mp hq
    refine ih p hp (hr.admits htail hadmits ?_ hp) fun o ho => ?_
    · exact hopen _ (.refl (.rule hr hpremises))
    · exact hopen o (.premise hr hpremises hp ho)

end Extend

end Grammar

end JsonQuery
