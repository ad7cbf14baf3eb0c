import JsonQuery.Proofs.GrammarSteps

/-!
# What reading depends on

Reading looks at what tokens say and not at where they stand: two lists of tokens that say
the same, one by one, are read as the same expression, or they are refused in the same way
and at tokens that have the same place in their lists. A refusal does tell where its token
stands, so this cannot be put as an equation. It is put as a relation between two results
(`JsonQuery.Grammar.Agree`), over the list of the **pairs** of tokens that correspond to one
another.

Together with the refusals the relation has to say what is left, for a reader that goes on
from where an earlier one stopped can only agree with another if both go on from the same
place: what is left on the two sides are the two halves of one suffix of the pairs. A reader
is **uniform** over some pairs (`JsonQuery.Grammar.Uniform`) if its results on the two halves
of every suffix agree.

There is one lemma for each function of `JsonQuery.Expr.Grammar`, about an arbitrary reader
of expressions that is uniform, and the knot is tied by recursion on the levels
(`JsonQuery.Grammar.uniform_expression`). Pairs of a token with itself give what is known of
one list alone: a refusal is about one of its tokens (`JsonQuery.Grammar.isAbout_of_ofTokens`).
-/

namespace JsonQuery

namespace Grammar

/-- That two refusals are both about the end, or about the two tokens of one of some pairs,
and otherwise the same. -/
inductive Refusal.Alike (ps : List (Token × Token)) : Refusal → Refusal → Prop
  /-- The tokens ran out on both sides. -/
  | ended : Alike ps .ended .ended
  /-- The tokens of a pair cannot stand where they do. -/
  | token {p : Token × Token} (hp : p ∈ ps) (shown : String) (kind : Token.Kind)
      (reason : Option Reason) :
      Alike ps (.token p.1.start shown kind reason) (.token p.2.start shown kind reason)

/-- That two results **agree**: they are the same and leave the two halves of a suffix of
some pairs, or they are refusals that are alike. -/
inductive Agree (ps : List (Token × Token)) {α : Type} :
    Except Refusal (α × List Token) → Except Refusal (α × List Token) → Prop
  /-- The same was read on both sides. -/
  | ok (a : α) {qs : List (Token × Token)} (hqs : qs <:+ ps) :
      Agree ps (.ok (a, qs.map Prod.fst)) (.ok (a, qs.map Prod.snd))
  /-- Both sides were refused. -/
  | error {r r' : Refusal} (h : r.Alike ps r') : Agree ps (.error r) (.error r')

/-- That a reader is **uniform** over some pairs of tokens. -/
def Uniform (ps : List (Token × Token)) {α : Type}
    (reader : List Token → Except Refusal (α × List Token)) : Prop :=
  ∀ qs, qs <:+ ps → Agree ps (reader (qs.map Prod.fst)) (reader (qs.map Prod.snd))

/-- That the tokens of every pair say the same. -/
def SayTheSame (ps : List (Token × Token)) : Prop :=
  ∀ p ∈ ps, p.1.lexeme = p.2.lexeme

variable {ps : List (Token × Token)}

section Composition

variable {α β : Type}

theorem Agree.bind {x x' : Except Refusal (α × List Token)}
    {f f' : α × List Token → Except Refusal (β × List Token)} (hx : Agree ps x x')
    (hf : ∀ a qs, qs <:+ ps → Agree ps (f (a, qs.map Prod.fst)) (f' (a, qs.map Prod.snd))) :
    Agree ps (x >>= f) (x' >>= f') := by
  cases hx with
  | ok a hqs => exact hf a _ hqs
  | error h => exact .error h

end Composition

section Looking

variable (hps : SayTheSame ps) {qs : List (Token × Token)} (hqs : qs <:+ ps)

omit hps in
theorem tail_suffix {qs : List (Token × Token)} (hqs : qs <:+ ps) : qs.tail <:+ ps :=
  (List.tail_suffix qs).trans hqs

include hps hqs

theorem headKind_snd : headKind (qs.map Prod.snd) = headKind (qs.map Prod.fst) := by
  cases qs with
  | nil => rfl
  | cons p qs =>
    have hp : p.1.lexeme = p.2.lexeme := hps p (hqs.subset List.mem_cons_self)
    simp only [List.map_cons, headKind, Token.kind, hp]

theorem startsWith_snd (s : Symbol) :
    startsWith s (qs.map Prod.snd) = startsWith s (qs.map Prod.fst) := by
  rw [startsWith, headKind_snd hps hqs, startsWith]

theorem startsPosition_snd :
    startsPosition (qs.map Prod.snd) = startsPosition (qs.map Prod.fst) := by
  rw [startsPosition, headKind_snd hps hqs, startsWith_snd hps hqs, startsPosition]

theorem alike_refuse (reason : Option Reason) :
    (refuse reason (qs.map Prod.fst)).Alike ps (refuse reason (qs.map Prod.snd)) := by
  cases qs with
  | nil => exact .ended
  | cons p qs =>
    have hmem : p ∈ ps := hqs.subset List.mem_cons_self
    have hp : p.1.lexeme = p.2.lexeme := hps p hmem
    simp only [List.map_cons, refuse, Token.kind, Token.shown, hp]
    exact .token hmem _ _ reason

theorem agree_refuse {α : Type} (reason : Option Reason) :
    Agree ps (α := α) (.error (refuse reason (qs.map Prod.fst)))
      (.error (refuse reason (qs.map Prod.snd))) :=
  .error (alike_refuse hps hqs reason)

theorem agree_expect {α : Type} (s : Symbol)
    {f f' : List Token → Except Refusal (α × List Token)}
    (hf : ∀ qs, qs <:+ ps → Agree ps (f (qs.map Prod.fst)) (f' (qs.map Prod.snd))) :
    Agree ps (expect s (qs.map Prod.fst) >>= f) (expect s (qs.map Prod.snd) >>= f') := by
  rw [expect, expect, startsWith_snd hps hqs]
  split
  · rw [← List.map_tail, ← List.map_tail]
    exact hf _ (tail_suffix hqs)
  · exact agree_refuse hps hqs none

/-- The number that may come next is the same, and so is what comes behind it. -/
theorem exists_bound : ∃ n rs, rs <:+ ps ∧
    bound (qs.map Prod.fst) = (n, rs.map Prod.fst) ∧
    bound (qs.map Prod.snd) = (n, rs.map Prod.snd) := by
  match qs with
  | [] => exact ⟨none, [], hqs, rfl, rfl⟩
  | (⟨l, a, b⟩, ⟨m, c, d⟩) :: rs =>
    obtain rfl : l = m := hps _ (hqs.subset List.mem_cons_self)
    cases l with
    | number n => exact ⟨some n, rs, tail_suffix hqs, rfl, rfl⟩
    | name | quoted | literal | symbol => exact ⟨none, _, hqs, rfl, rfl⟩

omit hps hqs in
/-- The token before the last ones of a list is one of a pair, if there is any. -/
theorem tokenBefore_map (qs : List (Token × Token)) {gs : List (Token × Token)} (hgs : gs <:+ ps) :
    tokenBefore (gs.map Prod.fst) (qs.map Prod.fst) = none ∧
        tokenBefore (gs.map Prod.snd) (qs.map Prod.snd) = none ∨
      ∃ p ∈ ps, tokenBefore (gs.map Prod.fst) (qs.map Prod.fst) = some p.1 ∧
        tokenBefore (gs.map Prod.snd) (qs.map Prod.snd) = some p.2 := by
  simp only [tokenBefore, List.length_map, List.getElem?_map]
  cases h : gs[gs.length - qs.length - 1]? with
  | none => exact Or.inl ⟨rfl, rfl⟩
  | some p => exact Or.inr ⟨p, hgs.subset (List.mem_of_getElem? h), rfl, rfl⟩

end Looking

section Uniform

variable (hps : SayTheSame ps)
include hps

/-! ### Lists between commas -/

theorem uniform_separated {α : Type} {trailing : Bool} {close : Symbol}
    {item : List Token → Except Refusal (α × List Token)} (hitem : Uniform ps item) :
    Uniform ps (separated trailing close item) := by
  intro qs hqs
  induction hn : qs.length using Nat.strongRecOn generalizing qs with
  | ind n ih =>
    subst hn
    rw [separated_eq, separated_eq]
    refine (hitem qs hqs).bind fun a rs hrs => ?_
    have htail := tail_suffix hrs
    simp only [separatedRest, ← List.map_tail, startsWith_snd hps hrs, startsWith_snd hps htail,
      List.length_map]
    split
    · exact .ok [a] htail
    · split
      · split
        · exact .ok [a] (tail_suffix htail)
        · split
          · next hlt =>
            exact (ih rs.tail.length hlt rs.tail htail rfl).bind fun as us hus =>
              .ok (a :: as) hus
          · exact agree_refuse hps hrs none
      · exact agree_refuse hps hrs none

/-! ### Parts of expressions -/

theorem uniform_slice : Uniform ps slice := by
  intro qs hqs
  obtain ⟨start, qs, hqs, hfst, hsnd⟩ := exists_bound hps hqs
  simp only [slice, hfst, hsnd]
  refine agree_expect hps hqs _ fun rs hrs => ?_
  obtain ⟨stop, rs, hrs, hfst, hsnd⟩ := exists_bound hps hrs
  simp only [hfst, hsnd, startsWith_snd hps hrs]
  split
  · obtain ⟨step, us, hus, hfst, hsnd⟩ := exists_bound hps (tail_suffix hrs)
    simp only [← List.map_tail, hfst, hsnd]
    exact agree_expect hps hus _ fun vs hvs => .ok _ hvs
  · exact agree_expect hps hrs _ fun vs hvs => .ok _ hvs

theorem uniform_indexOrSlice : Uniform ps indexOrSlice := by
  intro qs hqs
  have hslice := uniform_slice hps qs hqs
  match qs with
  | [] => exact hslice
  | (⟨l, a, b⟩, ⟨m, c, d⟩) :: rs =>
    obtain rfl : l = m := hps _ (hqs.subset List.mem_cons_self)
    cases l with
    | number n =>
      have hrs := tail_suffix hqs
      rw [List.tail_cons] at hrs
      simp only [List.map_cons, indexOrSlice, startsWith_snd hps hrs]
      split
      · exact hslice
      · exact agree_expect hps hrs _ fun us hus => .ok _ hus
    | name | quoted | literal | symbol => exact hslice

section Parts

variable {read : Nat → List Token → Except Refusal (Expr × List Token)}
  (hread : ∀ p, Uniform ps (read p))
include hread

theorem uniform_listItems : Uniform ps (listItems read) := fun qs hqs =>
  (uniform_separated hps (hread 0) qs hqs).bind fun _ _ hrs => .ok _ hrs

theorem uniform_hashEntry : Uniform ps (hashEntry read) := by
  intro qs hqs
  have hrefuse := agree_refuse (α := String × Expr) hps hqs none
  match qs with
  | [] => exact .error .ended
  | (⟨l, a, b⟩, ⟨m, c, d⟩) :: rs =>
    obtain rfl : l = m := hps _ (hqs.subset List.mem_cons_self)
    have hentry : ∀ key, Agree ps (entryBehind read key (rs.map Prod.fst))
        (entryBehind read key (rs.map Prod.snd)) := fun key =>
      agree_expect hps (tail_suffix hqs) _ fun us hus =>
        (hread 0 us hus).bind fun e _ hvs => .ok (key, e) hvs
    cases l with
    | name key => exact hentry key
    | quoted key => exact hentry key
    | literal | number | symbol => exact hrefuse

theorem uniform_hashEntries : Uniform ps (hashEntries read) := fun qs hqs =>
  (uniform_separated hps (uniform_hashEntry hps hread) qs hqs).bind fun _ _ hrs => .ok _ hrs

theorem uniform_arguments : Uniform ps (arguments read) := by
  intro qs hqs
  rw [arguments, arguments, startsWith_snd hps hqs]
  split
  · rw [← List.map_tail, ← List.map_tail]
    exact .ok [] (tail_suffix hqs)
  · exact uniform_separated hps (hread 0) qs hqs

theorem uniform_afterDot (p : Nat) : Uniform ps (afterDot read p) := by
  intro qs hqs
  have htail := tail_suffix hqs
  have hrefuse := agree_refuse (α := Expr) hps hqs none
  rw [afterDot, afterDot, headKind_snd hps hqs, ← List.map_tail, ← List.map_tail]
  match headKind (qs.map Prod.fst) with
  | .name | .quoted => exact hread p qs hqs
  | .ended | .literal | .number => exact hrefuse
  | .symbol s =>
    cases s with
    | star => exact hread p qs hqs
    | leftBracket => exact uniform_listItems hps hread _ htail
    | leftBrace => exact uniform_hashEntries hps hread _ htail
    | _ => exact hrefuse

theorem uniform_projected (p : Nat) : Uniform ps (projected read p) := by
  intro qs hqs
  have hrefuse := agree_refuse (α := Expr) hps hqs none
  rw [projected, projected, headKind_snd hps hqs, ← List.map_tail, ← List.map_tail]
  split
  · exact .ok _ hqs
  · match headKind (qs.map Prod.fst) with
    | .ended | .name | .quoted | .literal | .number => exact hrefuse
    | .symbol s =>
      cases s with
      | leftBracket => exact hread p qs hqs
      | filter => exact hread p qs hqs
      | dot => exact uniform_afterDot hps hread p _ (tail_suffix hqs)
      | _ => exact hrefuse

theorem uniform_flattened (left : Expr) : Uniform ps (flattened read left) := fun qs hqs =>
  (uniform_projected hps hread _ qs hqs).bind fun _ _ hrs => .ok _ hrs

theorem uniform_everyItem (left : Expr) : Uniform ps (everyItem read left) := fun qs hqs =>
  (uniform_projected hps hread _ qs hqs).bind fun _ _ hrs => .ok _ hrs

theorem uniform_filtered (left : Expr) : Uniform ps (filtered read left) := by
  intro qs hqs
  refine (hread 0 qs hqs).bind fun condition rs hrs => agree_expect hps hrs _ fun us hus => ?_
  simp only [startsWith_snd hps hus]
  split
  · exact .ok _ hus
  · exact (uniform_projected hps hread _ us hus).bind fun _ _ hvs => .ok _ hvs

theorem uniform_bracketed (left : Expr) : Uniform ps (bracketed read left) := by
  intro qs hqs
  refine (uniform_indexOrSlice hps qs hqs).bind fun right rs hrs => ?_
  dsimp only
  split
  · exact (uniform_projected hps hread _ rs hrs).bind fun _ _ hus => .ok _ hus
  · exact .ok _ hrs

omit hps in
theorem uniform_binary (make : Expr → Expr → Expr) (p : Nat) (left : Expr) :
    Uniform ps (binary read make p left) := fun qs hqs =>
  (hread p qs hqs).bind fun _ _ hrs => .ok _ hrs

/-! ### Operands and what follows them -/

theorem uniform_leading : Uniform ps (leading read) := by
  intro qs hqs
  have hrefuse := agree_refuse (α := Expr) hps hqs none
  match qs with
  | [] => exact .error .ended
  | (⟨l, a, b⟩, ⟨m, c, d⟩) :: rs =>
    have hhere : (⟨l, a, b⟩, ⟨m, c, d⟩) ∈ ps := hqs.subset List.mem_cons_self
    obtain rfl : l = m := hps _ hhere
    have hrs : rs <:+ ps := tail_suffix hqs
    cases l with
    | literal value => exact .ok _ hrs
    | name name => exact .ok _ hrs
    | quoted name =>
      match rs with
      | [] => exact .ok _ hrs
      | (t, u) :: us =>
        have hnext : t.lexeme = u.lexeme := hps _ (hrs.subset List.mem_cons_self)
        have hkind : t.kind = u.kind := congrArg Token.Lexeme.kind hnext
        simp only [List.map_cons, leading, hkind]
        split
        · simp only [Token.shown, hnext]
          exact .error (.token hhere _ _ _)
        · exact .ok _ hrs
    | number => exact hrefuse
    | symbol s =>
      cases s with
      | star =>
        simp only [List.map_cons, leading, startsWith_snd hps hrs]
        split
        · exact .ok _ hrs
        · exact (uniform_projected hps hread _ rs hrs).bind fun _ _ hus => .ok _ hus
      | filter => exact uniform_filtered hps hread _ rs hrs
      | leftBrace => exact uniform_hashEntries hps hread rs hrs
      | leftParen =>
        exact (hread 0 rs hrs).bind fun _ us hus => agree_expect hps hus _ fun _ hvs => .ok _ hvs
      | flatten => exact uniform_flattened hps hread _ rs hrs
      | not => exact (hread _ rs hrs).bind fun _ _ hus => .ok _ hus
      | leftBracket =>
        simp only [List.map_cons, leading, startsPosition_snd hps hrs, startsWith_snd hps hrs,
          ← List.map_tail, startsWith_snd hps (tail_suffix hrs)]
        split
        · exact uniform_bracketed hps hread _ rs hrs
        · split
          · exact uniform_everyItem hps hread _ _ (tail_suffix (tail_suffix hrs))
          · exact uniform_listItems hps hread rs hrs
      | current => exact .ok _ hrs
      | reference => exact (hread _ rs hrs).bind fun _ _ hus => .ok _ hus
      | _ => exact hrefuse

theorem agree_following (s : Symbol) {gs qs : List (Token × Token)} (hgs : gs <:+ ps)
    (hqs : qs <:+ ps) (left : Expr) :
    Agree ps (following read s (gs.map Prod.fst) left (qs.map Prod.fst))
      (following read s (gs.map Prod.snd) left (qs.map Prod.snd)) := by
  have hrefuse := agree_refuse (α := Expr) hps hqs none
  have hrs := tail_suffix hqs
  simp only [following, ← List.map_tail]
  cases s with
  | dot =>
    simp only [startsWith_snd hps hrs]
    split
    · exact (uniform_projected hps hread _ _ (tail_suffix hrs)).bind fun _ _ hus => .ok _ hus
    · exact (uniform_afterDot hps hread _ _ hrs).bind fun _ _ hus => .ok _ hus
  | pipe => exact uniform_binary hread _ _ _ _ hrs
  | or => exact uniform_binary hread _ _ _ _ hrs
  | and => exact uniform_binary hread _ _ _ _ hrs
  | comparison op => exact uniform_binary hread _ _ _ _ hrs
  | leftParen =>
    dsimp only
    split
    · exact (uniform_arguments hps hread _ hrs).bind fun _ _ hus => .ok _ hus
    · obtain ⟨hfst, hsnd⟩ | ⟨p, hp, hfst, hsnd⟩ := tokenBefore_map qs hgs
      · simp only [hfst, hsnd]
        exact hrefuse
      · simp only [hfst, hsnd, Token.kind, Token.shown, hps p hp]
        exact .error (.token hp _ _ _)
  | filter => exact uniform_filtered hps hread _ _ hrs
  | flatten => exact uniform_flattened hps hread _ _ hrs
  | leftBracket =>
    simp only [startsPosition_snd hps hrs]
    split
    · exact uniform_bracketed hps hread _ _ hrs
    · exact agree_expect hps hrs _ fun _ hus => agree_expect hps hus _ fun _ hvs =>
        uniform_everyItem hps hread _ _ hvs
  | _ => exact hrefuse

end Parts

/-! ### The knot -/

theorem agree_climb {L : Nat} (hread : ∀ K < L, ∀ p, Uniform ps (expression K p)) (p : Nat)
    {gs qs : List (Token × Token)} (hgs : gs <:+ ps) (hqs : qs <:+ ps) (left : Expr) :
    Agree ps (climb L p (gs.map Prod.fst) left (qs.map Prod.fst))
      (climb L p (gs.map Prod.snd) left (qs.map Prod.snd)) := by
  induction L using Nat.strongRecOn generalizing left qs with
  | ind L ih =>
    have hkind := headKind_snd hps hqs
    by_cases hpower : p < (headKind (qs.map Prod.fst)).power
    · obtain ⟨s, hs⟩ := exists_symbol_of_power hpower
      rw [hs] at hpower hkind
      cases hfollow : canFollow s with
      | false =>
        rw [climb_of_not_canFollow hs hpower hfollow, climb_of_not_canFollow hkind hpower hfollow]
        exact agree_refuse hps hqs none
      | true =>
        cases L with
        | zero =>
          rw [climb_zero_eq hs hpower hfollow, climb_zero_eq hkind hpower hfollow]
          exact agree_refuse hps hqs _
        | succ L =>
          rw [climb_succ_eq hs hpower hfollow, climb_succ_eq hkind hpower hfollow]
          refine (agree_following hps (hread L L.lt_succ_self) s hgs hqs left).bind ?_
          exact fun larger rs hrs =>
            ih L L.lt_succ_self (fun K hK => hread K (Nat.lt_succ_of_lt hK)) hrs larger
    · rw [climb_of_power_le hpower, climb_of_power_le (by rwa [hkind])]
      exact .ok left hqs

/-- **Reading an expression is uniform** over tokens that say the same. -/
theorem uniform_expression (L p : Nat) : Uniform ps (expression L p) := by
  induction L using Nat.strongRecOn generalizing p with
  | ind L ih =>
    intro qs hqs
    cases L with
    | zero => exact agree_refuse hps hqs _
    | succ L =>
      rw [expression_succ_eq, expression_succ_eq]
      exact (uniform_leading hps (ih L L.lt_succ_self) qs hqs).bind fun left rs hrs =>
        agree_climb hps (fun K hK => ih K (Nat.lt_succ_of_lt hK)) p hqs hrs left

/-- **Tokens that say the same are read alike**: as the same expression, or they are refused
in the same way and at the tokens of one pair. -/
theorem ofTokens_alike :
    (∃ e, Expr.ofTokens (ps.map Prod.fst) = .ok e ∧ Expr.ofTokens (ps.map Prod.snd) = .ok e) ∨
      ∃ r r', Expr.ofTokens (ps.map Prod.fst) = .error r ∧
        Expr.ofTokens (ps.map Prod.snd) = .error r' ∧ r.Alike ps r' := by
  have hread := uniform_expression hps maxNesting 0 ps List.suffix_rfl
  rw [Expr.ofTokens, Expr.ofTokens]
  revert hread
  generalize expression maxNesting 0 (ps.map Prod.fst) = x,
    expression maxNesting 0 (ps.map Prod.snd) = x'
  rintro (⟨e, hqs⟩ | h)
  · next qs =>
    cases qs with
    | nil => exact Or.inl ⟨e, rfl, rfl⟩
    | cons p qs => exact Or.inr ⟨_, _, rfl, rfl, alike_refuse hps hqs none⟩
  · exact Or.inr ⟨_, _, rfl, rfl, h⟩

end Uniform

/-! ### One list of tokens -/

/-- That a refusal is about one of some tokens, or about their end. -/
def Refusal.IsAbout (ts : List Token) : Refusal → Prop
  | ended => True
  | token position _ _ _ => ∃ t ∈ ts, t.start = position

/-- **Tokens that are no expression are refused at one of them**, or at their end. -/
theorem isAbout_of_ofTokens {ts : List Token} {r : Refusal} (h : Expr.ofTokens ts = .error r) :
    r.IsAbout ts := by
  have hps : SayTheSame (ts.map fun t => (t, t)) := by
    intro p hp
    obtain ⟨t, -, rfl⟩ := List.mem_map.mp hp
    rfl
  have hfst : (ts.map fun t => (t, t)).map Prod.fst = ts := by
    rw [List.map_map]
    exact List.map_id ts
  obtain ⟨e, he, -⟩ | ⟨r', r'', hr, -, halike⟩ := ofTokens_alike hps
  · rw [hfst, h] at he
    exact absurd he (by simp)
  · rw [hfst, h] at hr
    obtain rfl := Except.error.inj hr
    cases halike with
    | ended => trivial
    | token hp =>
      obtain ⟨t, ht, rfl⟩ := List.mem_map.mp hp
      exact ⟨t, ht, rfl⟩

end Grammar

end JsonQuery
