import JsonQuery.Proofs.Derivation.Rule

/-!
# What is read is derivable

Whatever the functions of `JsonQuery.Expr.Grammar` accept has a derivation. There is one
lemma for each function, about an arbitrary reader of expressions that yields derivable
readings only; the functions are handed such a reader, and
`JsonQuery.Grammar.derivable_of_expression` ties the knot by recursion on the levels.
-/

namespace JsonQuery

open Token (Lexeme Kind)

namespace Grammar

/-! ### Looking at tokens -/

/-- A computation and what follows succeed exactly if both do. -/
theorem bind_eq_ok_iff {ε α β : Type} {x : Except ε α} {f : α → Except ε β} {b : β} :
    x >>= f = .ok b ↔ ∃ a, x = .ok a ∧ f a = .ok b := by
  cases x <;> simp [bind, Except.bind]

theorem eq_of_pure_eq_ok {ε α β : Type} {a c : α} {b d : β}
    (h : (pure (a, b) : Except ε (α × β)) = .ok (c, d)) : a = c ∧ b = d := by
  simpa [pure, Except.pure] using h

theorem startsWith_iff {s : Symbol} {ts : List Token} :
    startsWith s ts = true ↔ front (lexemes ts) = .symbol s := by
  rw [startsWith, headKind_eq_front, beq_iff_eq]

theorem lexemes_of_startsWith {s : Symbol} {ts : List Token} (h : startsWith s ts = true) :
    lexemes ts = .symbol s :: lexemes ts.tail := by
  cases ts with
  | nil => simp [startsWith_iff] at h
  | cons t ts => simpa [startsWith_iff, kind_eq_symbol_iff] using h

theorem lexemes_of_expect {s : Symbol} {ts rest : List Token} (h : expect s ts = .ok rest) :
    lexemes ts = .symbol s :: lexemes rest := by
  rw [expect] at h
  split at h
  · next hs =>
    obtain rfl : ts.tail = rest := by simpa using h
    exact lexemes_of_startsWith hs
  · simp at h

theorem lexemes_of_bound {b : Option Int} {ts rest : List Token} (h : bound ts = (b, rest)) :
    lexemes ts = withBound b (lexemes rest) := by
  unfold bound at h
  split at h <;> obtain ⟨rfl, rfl⟩ := Prod.mk.inj h <;> rfl

/-- What is read as a slice is one. -/
theorem exists_sliceText_of_slice {ts rest : List Token} {e : Expr}
    (h : slice ts = .ok (e, rest)) : ∃ start stop step,
      e = .slice start stop step.join ∧ lexemes ts = sliceText start stop step (lexemes rest) := by
  rw [slice] at h
  obtain ⟨start, ts₁, hstart⟩ : ∃ b us, bound ts = (b, us) := ⟨_, _, rfl⟩
  simp only [hstart, bind_eq_ok_iff] at h
  obtain ⟨ts₂, hcolon, h⟩ := h
  obtain ⟨stop, ts₃, hstop⟩ : ∃ b us, bound ts₂ = (b, us) := ⟨_, _, rfl⟩
  have hts : lexemes ts = withBound start (.symbol .colon :: withBound stop (lexemes ts₃)) := by
    rw [lexemes_of_bound hstart, lexemes_of_expect hcolon, lexemes_of_bound hstop]
  simp only [hstop] at h
  split at h
  · next hs =>
    obtain ⟨step, ts₄, hstep⟩ : ∃ b us, bound ts₃.tail = (b, us) := ⟨_, _, rfl⟩
    simp only [hstep, bind_eq_ok_iff] at h
    obtain ⟨ts₅, hclose, h⟩ := h
    obtain ⟨rfl, rfl⟩ := eq_of_pure_eq_ok h
    refine ⟨start, stop, some step, rfl, ?_⟩
    rw [hts, lexemes_of_startsWith hs, lexemes_of_bound hstep, lexemes_of_expect hclose]
    rfl
  · simp only [bind_eq_ok_iff] at h
    obtain ⟨ts₄, hclose, h⟩ := h
    obtain ⟨rfl, rfl⟩ := eq_of_pure_eq_ok h
    refine ⟨start, stop, none, rfl, ?_⟩
    rw [hts, lexemes_of_expect hclose]
    rfl

/-- What is read between brackets that a number or a colon comes first in is a position or
a slice. -/
theorem indexOrSlice_cases {ts rest : List Token} {e : Expr}
    (h : indexOrSlice ts = .ok (e, rest)) :
    (∃ n, e = .index n ∧ lexemes ts = .number n :: .symbol .rightBracket :: lexemes rest) ∨
      ∃ start stop step, e = .slice start stop step.join ∧
        lexemes ts = sliceText start stop step (lexemes rest) := by
  unfold indexOrSlice at h
  split at h
  · next n _ _ more =>
    split at h
    · exact Or.inr (exists_sliceText_of_slice h)
    · simp only [bind_eq_ok_iff] at h
      obtain ⟨us, hclose, h⟩ := h
      obtain ⟨rfl, rfl⟩ := eq_of_pure_eq_ok h
      exact Or.inl ⟨n, rfl, by rw [lexemes_cons, lexemes_of_expect hclose]⟩
  · exact Or.inr (exists_sliceText_of_slice h)

/-! ### Lists between commas -/

/-- **Induction on a list between commas**: what holds of a last item, of an item in front
of a comma that nothing follows, and of an item in front of a list of which it holds, holds
of every list that is read. -/
theorem separated_induction {α : Type} {trailing : Bool} {close : Symbol}
    {item : List Token → Except Refusal (α × List Token)}
    {P : List Token → List α → List Token → Prop}
    (last : ∀ {ts mid a}, item ts = .ok (a, mid) → startsWith close mid = true →
      P ts [a] mid.tail)
    (trail : trailing = true → ∀ {ts mid a}, item ts = .ok (a, mid) →
      startsWith .comma mid = true → startsWith close mid.tail = true →
      P ts [a] mid.tail.tail)
    (more : ∀ {ts mid rest a as}, item ts = .ok (a, mid) → startsWith .comma mid = true →
      P mid.tail as rest → P ts (a :: as) rest)
    {ts rest : List Token} {as : List α} (h : separated trailing close item ts = .ok (as, rest)) :
    P ts as rest := by
  fun_induction separated trailing close item ts generalizing as rest with
  | case1 => simp at h
  | case2 ts a mid hitem hclose =>
    obtain ⟨rfl, rfl⟩ : [a] = as ∧ mid.tail = rest := by simpa using h
    exact last hitem hclose
  | case3 ts a mid hitem hclose hcomma htrail =>
    obtain ⟨rfl, rfl⟩ : [a] = as ∧ mid.tail.tail = rest := by simpa using h
    rw [Bool.and_eq_true] at htrail
    exact trail htrail.1 hitem hcomma htrail.2
  | case4 => simp at h
  | case5 ts a mid hitem hclose hcomma htrail hlt as' rest' hmore ih =>
    obtain ⟨rfl, rfl⟩ : a :: as' = as ∧ rest' = rest := by simpa using h
    exact more hitem hcomma (ih hmore)
  | case6 => simp at h
  | case7 => simp at h

section Parts

variable {L : Nat} {read : Nat → List Token → Except Refusal (Expr × List Token)}
  (hread : ∀ {p ts e rest}, read p ts = .ok (e, rest) →
    Derivable ⟨L, .expression p e, lexemes ts, lexemes rest⟩)
include hread

theorem derivable_items {ts rest : List Token} {es : List Expr}
    (h : separated false .rightBracket (read 0) ts = .ok (es, rest)) :
    Derivable ⟨L, .items es, lexemes ts, lexemes rest⟩ := by
  refine separated_induction
    (P := fun ts es rest => Derivable ⟨L, .items es, lexemes ts, lexemes rest⟩) ?_ ?_ ?_ h
  · intro ts mid e he hclose
    have hd := hread he
    rw [lexemes_of_startsWith hclose] at hd
    exact Rule.lastItem.derivable_singleton hd
  · simp
  · intro ts mid rest e es he hcomma hmore
    have hd := hread he
    rw [lexemes_of_startsWith hcomma] at hd
    exact Rule.item.derivable_pair hd hmore

theorem derivable_arguments {ts rest : List Token} {es : List Expr}
    (h : arguments read ts = .ok (es, rest)) :
    Derivable ⟨L, .arguments es, lexemes ts, lexemes rest⟩ := by
  rw [arguments] at h
  split at h
  · next hs =>
    obtain ⟨rfl, rfl⟩ : [] = es ∧ ts.tail = rest := by simpa using h
    rw [lexemes_of_startsWith hs]
    exact Rule.noArgument.derivable_nil
  · refine separated_induction
      (P := fun ts es rest => Derivable ⟨L, .arguments es, lexemes ts, lexemes rest⟩) ?_ ?_ ?_ h
    · intro ts mid e he hclose
      have hd := hread he
      rw [lexemes_of_startsWith hclose] at hd
      exact Rule.lastArgument.derivable_singleton hd
    · intro _ ts mid e he hcomma hclose
      have hd := hread he
      rw [lexemes_of_startsWith hcomma, lexemes_of_startsWith hclose] at hd
      exact Rule.argument.derivable_pair hd Rule.noArgument.derivable_nil
    · intro ts mid rest e es he hcomma hmore
      have hd := hread he
      rw [lexemes_of_startsWith hcomma] at hd
      exact Rule.argument.derivable_pair hd hmore

theorem exists_of_hashEntry {ts rest : List Token} {entry : String × Expr}
    (h : hashEntry read ts = .ok (entry, rest)) : ∃ k mid,
      (k = .name entry.1 ∨ k = .quoted entry.1) ∧
      lexemes ts = k :: .symbol .colon :: mid ∧
      Derivable ⟨L, .expression 0 entry.2, mid, lexemes rest⟩ := by
  unfold hashEntry at h
  split at h
  · simp at h
  · next t more =>
    split at h
    · next key hkey =>
      simp only [bind_eq_ok_iff] at h
      obtain ⟨us, hcolon, ⟨e, vs⟩, he, h⟩ := h
      obtain ⟨rfl, rfl⟩ := eq_of_pure_eq_ok h
      refine ⟨.name key, lexemes us, Or.inl rfl, ?_, hread he⟩
      rw [lexemes_cons, hkey, lexemes_of_expect hcolon]
    · next key hkey =>
      simp only [bind_eq_ok_iff] at h
      obtain ⟨us, hcolon, ⟨e, vs⟩, he, h⟩ := h
      obtain ⟨rfl, rfl⟩ := eq_of_pure_eq_ok h
      refine ⟨.quoted key, lexemes us, Or.inr rfl, ?_, hread he⟩
      rw [lexemes_cons, hkey, lexemes_of_expect hcolon]
    · simp at h

theorem derivable_entries {ts rest : List Token} {es : List (String × Expr)}
    (h : separated false .rightBrace (hashEntry read) ts = .ok (es, rest)) :
    Derivable ⟨L, .entries es, lexemes ts, lexemes rest⟩ := by
  refine separated_induction
    (P := fun ts es rest => Derivable ⟨L, .entries es, lexemes ts, lexemes rest⟩) ?_ ?_ ?_ h
  · intro ts mid entry hentry hclose
    obtain ⟨k, us, hk, hts, hd⟩ := exists_of_hashEntry hread hentry
    rw [lexemes_of_startsWith hclose] at hd
    rw [hts]
    exact (Rule.lastEntry hk).derivable_singleton hd
  · simp
  · intro ts mid rest entry es hentry hcomma hmore
    obtain ⟨k, us, hk, hts, hd⟩ := exists_of_hashEntry hread hentry
    rw [lexemes_of_startsWith hcomma] at hd
    rw [hts]
    exact (Rule.entry hk).derivable_pair hd hmore

/-! ### Parts of expressions -/

theorem derivable_afterDot {p : Nat} {ts rest : List Token} {e : Expr}
    (h : afterDot read p ts = .ok (e, rest)) :
    Derivable ⟨L, .afterDot p e, lexemes ts, lexemes rest⟩ := by
  unfold afterDot at h
  rw [headKind_eq_front] at h
  split at h
  · next hf => exact (Rule.afterDot (Or.inl hf)).derivable_singleton (hread h)
  · next hf => exact (Rule.afterDot (Or.inr (Or.inl hf))).derivable_singleton (hread h)
  · next hf => exact (Rule.afterDot (Or.inr (Or.inr hf))).derivable_singleton (hread h)
  · next hf =>
    simp only [listItems, bind_eq_ok_iff] at h
    obtain ⟨⟨es, us⟩, hes, h⟩ := h
    obtain ⟨rfl, rfl⟩ := eq_of_pure_eq_ok h
    rw [lexemes_of_startsWith (startsWith_iff.mpr hf)]
    exact Rule.listAfterDot.derivable_singleton (derivable_items hread hes)
  · next hf =>
    simp only [hashEntries, bind_eq_ok_iff] at h
    obtain ⟨⟨es, us⟩, hes, h⟩ := h
    obtain ⟨rfl, rfl⟩ := eq_of_pure_eq_ok h
    rw [lexemes_of_startsWith (startsWith_iff.mpr hf)]
    exact Rule.hashAfterDot.derivable_singleton (derivable_entries hread hes)
  · simp at h

theorem derivable_projected (form : Form) {ts rest : List Token} {e : Expr}
    (h : projected read form.power ts = .ok (e, rest)) :
    Derivable ⟨L, .projected form e, lexemes ts, lexemes rest⟩ := by
  rw [projected, headKind_eq_front] at h
  split at h
  · next hlow =>
    obtain ⟨rfl, rfl⟩ : Expr.identity = e ∧ ts = rest := by simpa using h
    exact (Rule.unprojected hlow).derivable_nil
  · split at h
    · next hf =>
      have hd := hread h
      rw [lexemes_of_startsWith (startsWith_iff.mpr hf)] at hd ⊢
      exact Rule.projectedBracket.derivable_singleton hd
    · next hf =>
      have hd := hread h
      rw [lexemes_of_startsWith (startsWith_iff.mpr hf)] at hd ⊢
      exact Rule.projectedFilter.derivable_singleton hd
    · next hf =>
      rw [lexemes_of_startsWith (startsWith_iff.mpr hf)]
      exact Rule.projectedDot.derivable_singleton (derivable_afterDot hread h)
    · simp at h

/-- The right side of a flattening projection. -/
theorem exists_of_flattened {left : Expr} {ts rest : List Token} {e : Expr}
    (h : flattened read left ts = .ok (e, rest)) : ∃ right, e = .project (.flatten left) right ∧
      Derivable ⟨L, .projected .flattened right, lexemes ts, lexemes rest⟩ := by
  simp only [flattened, bind_eq_ok_iff] at h
  obtain ⟨⟨right, us⟩, hright, h⟩ := h
  obtain ⟨rfl, rfl⟩ := eq_of_pure_eq_ok h
  exact ⟨right, rfl, derivable_projected hread .flattened hright⟩

/-- The right side of a projection onto all items. -/
theorem exists_of_everyItem {left : Expr} {ts rest : List Token} {e : Expr}
    (h : everyItem read left ts = .ok (e, rest)) : ∃ right, e = .project left right ∧
      Derivable ⟨L, .projected .items right, lexemes ts, lexemes rest⟩ := by
  simp only [everyItem, bind_eq_ok_iff] at h
  obtain ⟨⟨right, us⟩, hright, h⟩ := h
  obtain ⟨rfl, rfl⟩ := eq_of_pure_eq_ok h
  exact ⟨right, rfl, derivable_projected hread .items hright⟩

theorem derivable_filtered {left : Expr} {ts rest : List Token} {e : Expr}
    (h : filtered read left ts = .ok (e, rest)) :
    Derivable ⟨L, .filtered left e, lexemes ts, lexemes rest⟩ := by
  simp only [filtered, bind_eq_ok_iff] at h
  obtain ⟨⟨condition, us⟩, hcondition, vs, hclose, h⟩ := h
  have hd := hread hcondition
  rw [lexemes_of_expect hclose] at hd
  split at h
  · next hs =>
    obtain ⟨rfl, rfl⟩ := eq_of_pure_eq_ok h
    -- an empty pair of brackets has a low power, so the right side is missing anyway
    refine Rule.filtered.derivable_pair hd (Rule.unprojected ?_).derivable_nil
    rw [startsWith_iff.mp hs]
    decide
  · simp only [bind_eq_ok_iff] at h
    obtain ⟨⟨right, ws⟩, hright, h⟩ := h
    obtain ⟨rfl, rfl⟩ := eq_of_pure_eq_ok h
    exact Rule.filtered.derivable_pair hd (derivable_projected hread .filter hright)

theorem derivable_bracketed {left : Expr} {ts rest : List Token} {e : Expr}
    (h : bracketed read left ts = .ok (e, rest)) :
    Derivable ⟨L, .bracketed left e, lexemes ts, lexemes rest⟩ := by
  simp only [bracketed, bind_eq_ok_iff] at h
  obtain ⟨⟨right, us⟩, hright, h⟩ := h
  rcases indexOrSlice_cases hright with ⟨n, rfl, hts⟩ | ⟨start, stop, step, rfl, hts⟩
  · obtain ⟨rfl, rfl⟩ := eq_of_pure_eq_ok h
    rw [hts]
    exact Rule.index.derivable_nil
  · simp only [bind_eq_ok_iff] at h
    obtain ⟨⟨onto, vs⟩, honto, h⟩ := h
    obtain ⟨rfl, rfl⟩ := eq_of_pure_eq_ok h
    rw [hts]
    exact Rule.slice.derivable_singleton (derivable_projected hread .slice honto)

/-! ### Operands and what follows them -/

theorem derivable_leading {ts rest : List Token} {e : Expr}
    (h : leading read ts = .ok (e, rest)) :
    Derivable ⟨L, .operand e, lexemes ts, lexemes rest⟩ := by
  unfold leading at h
  split at h
  · simp at h
  · next t more =>
    rw [lexemes_cons]
    split at h
    · next v hv =>
      obtain ⟨rfl, rfl⟩ := eq_of_pure_eq_ok h
      rw [hv]
      exact Rule.literal.derivable_nil
    · next name hname =>
      obtain ⟨rfl, rfl⟩ := eq_of_pure_eq_ok h
      rw [hname]
      exact Rule.name.derivable_nil
    · next name hname =>
      rw [hname]
      split at h
      · next next us =>
        split at h
        · simp at h
        · next hne =>
          obtain ⟨rfl, rfl⟩ := eq_of_pure_eq_ok h
          have hfront : front (lexemes (next :: us)) ≠ .symbol .leftParen := hne
          exact (Rule.quoted hfront).derivable_nil
      · obtain ⟨rfl, rfl⟩ := eq_of_pure_eq_ok h
        exact (Rule.quoted (by simp)).derivable_nil
    · next hs =>
      rw [hs]
      split at h
      · next hclose =>
        obtain ⟨rfl, rfl⟩ := eq_of_pure_eq_ok h
        -- a closing bracket has a low power, so the right side is missing anyway
        refine Rule.values.derivable_singleton (Rule.unprojected ?_).derivable_nil
        rw [startsWith_iff.mp hclose]
        decide
      · simp only [bind_eq_ok_iff] at h
        obtain ⟨⟨right, us⟩, hright, h⟩ := h
        obtain ⟨rfl, rfl⟩ := eq_of_pure_eq_ok h
        exact Rule.values.derivable_singleton (derivable_projected hread .values hright)
    · next hs =>
      rw [hs]
      exact Rule.filter.derivable_singleton (derivable_filtered hread h)
    · next hs =>
      simp only [hashEntries, bind_eq_ok_iff] at h
      obtain ⟨⟨es, us⟩, hes, h⟩ := h
      obtain ⟨rfl, rfl⟩ := eq_of_pure_eq_ok h
      rw [hs]
      exact Rule.hash.derivable_singleton (derivable_entries hread hes)
    · next hs =>
      simp only [bind_eq_ok_iff] at h
      obtain ⟨⟨inner, us⟩, hinner, vs, hclose, h⟩ := h
      obtain ⟨rfl, rfl⟩ := eq_of_pure_eq_ok h
      have hd := hread hinner
      rw [lexemes_of_expect hclose] at hd
      rw [hs]
      exact Rule.group.derivable_singleton hd
    · next hs =>
      obtain ⟨right, rfl, hright⟩ := exists_of_flattened hread h
      rw [hs]
      exact Rule.flatten.derivable_singleton hright
    · next hs =>
      simp only [bind_eq_ok_iff] at h
      obtain ⟨⟨inner, us⟩, hinner, h⟩ := h
      obtain ⟨rfl, rfl⟩ := eq_of_pure_eq_ok h
      rw [hs]
      exact Rule.not.derivable_singleton (hread hinner)
    · next hs =>
      rw [hs]
      split at h
      · exact Rule.position.derivable_singleton (derivable_bracketed hread h)
      · split at h
        · next hstar =>
          rw [Bool.and_eq_true] at hstar
          obtain ⟨right, rfl, hright⟩ := exists_of_everyItem hread h
          rw [lexemes_of_startsWith hstar.1, lexemes_of_startsWith hstar.2]
          exact Rule.everyItem.derivable_singleton hright
        · next hstar =>
          simp only [listItems, bind_eq_ok_iff] at h
          obtain ⟨⟨es, us⟩, hes, h⟩ := h
          obtain ⟨rfl, rfl⟩ := eq_of_pure_eq_ok h
          -- a star alone between brackets would have been taken by the case before
          refine (Rule.list fun us hus => hstar ?_).derivable_singleton (derivable_items hread hes)
          have h₁ : startsWith .star more = true := startsWith_iff.mpr (by rw [hus]; rfl)
          have h₂ := lexemes_of_startsWith h₁
          rw [hus] at h₂
          have h₃ : startsWith .rightBracket more.tail = true :=
            startsWith_iff.mpr (by rw [← (List.cons.inj h₂).2]; rfl)
          rw [h₁, h₃]
          rfl
    · next hs =>
      obtain ⟨rfl, rfl⟩ := eq_of_pure_eq_ok h
      rw [hs]
      exact Rule.current.derivable_nil
    · next hs =>
      simp only [bind_eq_ok_iff] at h
      obtain ⟨⟨inner, us⟩, hinner, h⟩ := h
      obtain ⟨rfl, rfl⟩ := eq_of_pure_eq_ok h
      rw [hs]
      exact Rule.reference.derivable_singleton (hread hinner)
    · simp at h

/-- The right side of a binary operator. -/
theorem exists_of_binary {make : Expr → Expr → Expr} {p : Nat} {left : Expr}
    {ts rest : List Token} {e : Expr} (h : binary read make p left ts = .ok (e, rest)) :
    ∃ right, e = make left right ∧
      Derivable ⟨L, .expression p right, lexemes ts, lexemes rest⟩ := by
  simp only [binary, bind_eq_ok_iff] at h
  obtain ⟨⟨right, us⟩, hright, h⟩ := h
  obtain ⟨rfl, rfl⟩ := eq_of_pure_eq_ok h
  exact ⟨right, rfl, hread hright⟩

theorem derivable_following {s : Symbol} {whole ts rest : List Token} {left e : Expr}
    (h : following read s whole left ts = .ok (e, rest)) :
    Derivable ⟨L, .step s left e, lexemes ts.tail, lexemes rest⟩ := by
  unfold following at h
  cases s with
  | dot =>
    simp only at h
    split at h
    · next hs =>
      simp only [bind_eq_ok_iff] at h
      obtain ⟨⟨right, us⟩, hright, h⟩ := h
      obtain ⟨rfl, rfl⟩ := eq_of_pure_eq_ok h
      rw [lexemes_of_startsWith hs]
      exact Rule.dotStar.derivable_singleton (derivable_projected hread .fieldValues hright)
    · next hs =>
      simp only [bind_eq_ok_iff] at h
      obtain ⟨⟨right, us⟩, hright, h⟩ := h
      obtain ⟨rfl, rfl⟩ := eq_of_pure_eq_ok h
      exact (Rule.dot fun hf => hs (startsWith_iff.mpr hf)).derivable_singleton
        (derivable_afterDot hread hright)
  | pipe =>
    obtain ⟨right, rfl, hright⟩ := exists_of_binary hread h
    exact Rule.pipe.derivable_singleton hright
  | or =>
    obtain ⟨right, rfl, hright⟩ := exists_of_binary hread h
    exact Rule.or.derivable_singleton hright
  | and =>
    obtain ⟨right, rfl, hright⟩ := exists_of_binary hread h
    exact Rule.and.derivable_singleton hright
  | comparison op =>
    obtain ⟨right, rfl, hright⟩ := exists_of_binary hread h
    exact Rule.compare.derivable_singleton hright
  | leftParen =>
    simp only at h
    split at h
    · simp only [bind_eq_ok_iff] at h
      obtain ⟨⟨args, us⟩, hargs, h⟩ := h
      obtain ⟨rfl, rfl⟩ := eq_of_pure_eq_ok h
      exact Rule.call.derivable_singleton (derivable_arguments hread hargs)
    · split at h <;> simp at h
  | filter => exact Rule.filterOf.derivable_singleton (derivable_filtered hread h)
  | flatten =>
    obtain ⟨right, rfl, hright⟩ := exists_of_flattened hread h
    exact Rule.flattenOf.derivable_singleton hright
  | leftBracket =>
    simp only at h
    split at h
    · exact Rule.positionOf.derivable_singleton (derivable_bracketed hread h)
    · simp only [bind_eq_ok_iff] at h
      obtain ⟨us, hstar, vs, hclose, h⟩ := h
      obtain ⟨right, rfl, hright⟩ := exists_of_everyItem hread h
      rw [lexemes_of_expect hstar, lexemes_of_expect hclose]
      exact Rule.everyItemOf.derivable_singleton hright
  | _ => simp at h

end Parts

/-! ### The knot -/

theorem power_le_of_forall_ne_symbol {ls : List Lexeme} {p : Nat}
    (h : ∀ s, front ls = .symbol s → s.power ≤ p) : (front ls).power ≤ p := by
  cases hf : front ls with
  | symbol s => exact h s hf
  | _ => exact Nat.zero_le p

/-- What is read behind an operand is nothing, or what a symbol makes of the operand and
what is read behind that. -/
theorem climb_cases {L p : Nat} {whole ts rest : List Token} {left e : Expr}
    (h : climb L p whole left ts = .ok (e, rest)) :
    ((front (lexemes ts)).power ≤ p ∧ left = e ∧ ts = rest) ∨
      ∃ K s larger mid, L = K + 1 ∧ startsWith s ts = true ∧ p < s.power ∧
        following (expression K) s whole left ts = .ok (larger, mid) ∧
        climb K p whole larger mid = .ok (e, rest) := by
  rw [climb, headKind_eq_front] at h
  split at h
  · next s hs =>
    split at h
    · next hp =>
      split at h
      · cases L with
        | zero => simp at h
        | succ K =>
          simp only at h
          split at h
          · simp at h
          · next larger mid hstep =>
            exact Or.inr ⟨K, s, larger, mid, rfl, startsWith_iff.mpr hs, hp, hstep, h⟩
      · simp at h
    · next hp =>
      refine Or.inl ⟨?_, eq_of_pure_eq_ok h⟩
      rw [hs]
      exact Nat.le_of_not_lt hp
  · next hs =>
    exact Or.inl ⟨power_le_of_forall_ne_symbol fun s hf => absurd hf (hs s), eq_of_pure_eq_ok h⟩

/-- What is read behind an operand is derivable, if the readers of expressions with fewer
levels yield derivable readings. -/
theorem derivable_of_climb {L : Nat}
    (hread : ∀ K < L, ∀ {p ts e rest}, expression K p ts = .ok (e, rest) →
      Derivable ⟨K, .expression p e, lexemes ts, lexemes rest⟩)
    {p : Nat} {whole : List Token} {left e : Expr} {ts rest : List Token}
    (h : climb L p whole left ts = .ok (e, rest)) :
    Derivable ⟨L, .climb p left e, lexemes ts, lexemes rest⟩ := by
  induction L generalizing left ts with
  | zero =>
    rcases climb_cases h with ⟨hlow, rfl, rfl⟩ | ⟨K, _, _, _, hK, -⟩
    · exact (Rule.stop hlow).derivable_nil
    · simp at hK
  | succ L ih =>
    rcases climb_cases h with ⟨hlow, rfl, rfl⟩ | ⟨K, s, larger, mid, hK, hs, hp, hstep, hclimb⟩
    · exact (Rule.stop hlow).derivable_nil
    · obtain rfl : L = K := by simpa using hK
      rw [lexemes_of_startsWith hs]
      exact (Rule.climb hp).derivable_pair (derivable_following (hread L L.lt_succ_self) hstep)
        (ih (fun K hK => hread K (Nat.lt_succ_of_lt hK)) hclimb)

/-- **What is read is derivable.** -/
theorem derivable_of_expression {L p : Nat} {ts rest : List Token} {e : Expr}
    (h : expression L p ts = .ok (e, rest)) :
    Derivable ⟨L, .expression p e, lexemes ts, lexemes rest⟩ := by
  induction L using Nat.strongRecOn generalizing p ts rest e with
  | ind L ih =>
    cases L with
    | zero => simp [expression] at h
    | succ L =>
      rw [expression] at h
      split at h
      · simp at h
      · next left mid hleft =>
        exact Rule.expression.derivable_pair (derivable_leading (ih L L.lt_succ_self) hleft)
          (derivable_of_climb (fun K hK => ih K (Nat.lt_succ_of_lt hK)) h)

/-- **What some tokens are the text of is derivable from them**, and nothing is left. -/
theorem derivable_of_ofTokens {ts : List Token} {e : Expr} (h : Expr.ofTokens ts = .ok e) :
    Derivable ⟨maxNesting, .expression 0 e, lexemes ts, []⟩ := by
  rw [Expr.ofTokens] at h
  split at h
  · simp at h
  · next e' he =>
    obtain rfl : e' = e := by simpa using h
    exact derivable_of_expression he
  · simp at h

end Grammar

end JsonQuery
