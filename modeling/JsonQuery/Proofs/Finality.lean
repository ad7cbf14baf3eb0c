import JsonQuery.Proofs.FaultOrigins
import JsonQuery.Proofs.Respacing

/-!
# Final refusals

A text that is refused at one of its tokens cannot be mended by going on writing: with more
text behind it, if that leaves its tokens as they are, it is refused at the same token and in
the same way (`JsonQuery.Query.compile_append`). Only what is refused at its end can still
become a query.

Two runs of the grammar are compared here, on some tokens and on the same tokens with more
behind them. Where the first run ends before the last token, the second one ends at the same
place and with the same result. The only thing to be careful about is the end of the first
list, for there the second run sees more. Results that come about there are **open**
(`JsonQuery.Grammar.IsOpen`), and nothing has to be known about what the second run makes of
them; all other results **persist** (`JsonQuery.Grammar.Persists`). What makes this go through
bind is that a reader that was given no tokens has an open result again, whatever was read
before it; that is the second half of a reader's being **persistent**
(`JsonQuery.Grammar.Persistent`).

There is one lemma for each function of `JsonQuery.Expr.Grammar`, as in
`JsonQuery.Proofs.Uniformity`. Almost all of them look at one token before they decide what
to do. What an opening bracket starts depends on two (`JsonQuery.Grammar.starOrItems`), and
here the end of the tokens does make a difference: a star that a closing bracket stands behind
takes no level of its own, while a star at the end of the tokens is read as an expression and
may be refused for want of levels. That is why such refusals count as open.
-/

namespace JsonQuery

namespace Grammar

/-! ### Results with more tokens behind -/

/-- That a result is **open**: all tokens were read, or they ran out, or the levels did. -/
inductive IsOpen {α : Type} : Except Refusal (α × List Token) → Prop
  /-- All tokens were read. -/
  | read (a : α) : IsOpen (.ok (a, []))
  /-- The tokens ran out. -/
  | ended : IsOpen (.error .ended)
  /-- The levels ran out. -/
  | tooDeep {r : Refusal} (h : r.IsTooDeep) : IsOpen (.error r)

/-- That a result **persists** with some tokens behind: unless it is open, the same was read
and some more is left, or the same token was refused. -/
inductive Persists (us : List Token) {α : Type} :
    Except Refusal (α × List Token) → Except Refusal (α × List Token) → Prop
  /-- Nothing is said of a result that is open. -/
  | opened {x x' : Except Refusal (α × List Token)} (h : IsOpen x) : Persists us x x'
  /-- Something was read up to the same token. -/
  | read (a : α) (t : Token) (ts : List Token) :
    Persists us (.ok (a, t :: ts)) (.ok (a, t :: (ts ++ us)))
  /-- The same was refused. -/
  | refused (r : Refusal) : Persists us (.error r) (.error r)

/-- That a reader is **persistent**: with another reader for the tokens with some more behind,
its results persist, and without tokens they are open. -/
structure Persistent (us : List Token) {α : Type}
    (f f' : List Token → Except Refusal (α × List Token)) : Prop where
  /-- Without tokens the result is open. -/
  opened : IsOpen (f [])
  /-- With tokens it persists. -/
  persists (t : Token) (ts : List Token) : Persists us (f (t :: ts)) (f' (t :: (ts ++ us)))

theorem startsWith_append (s : Symbol) (t : Token) (ts us : List Token) :
    startsWith s (t :: (ts ++ us)) = startsWith s (t :: ts) := rfl

theorem headKind_append (t : Token) (ts us : List Token) :
    headKind (t :: (ts ++ us)) = headKind (t :: ts) := rfl

variable {us : List Token}

/-- The token before what is left is found at the same place. -/
theorem tokenBefore_append {whole : List Token} (h : whole ≠ []) (rest : List Token) :
    tokenBefore (whole ++ us) (rest ++ us) = tokenBefore whole rest := by
  have hlength := List.length_pos_iff.mpr h
  have hindex : (whole ++ us).length - (rest ++ us).length - 1 =
      whole.length - rest.length - 1 := by
    rw [List.length_append, List.length_append, Nat.add_sub_add_right]
  rw [tokenBefore, tokenBefore, hindex, List.getElem?_append_left (by omega)]

section Composition

variable {α β : Type}

theorem IsOpen.bind {x : Except Refusal (α × List Token)}
    {k : α × List Token → Except Refusal (β × List Token)} (hx : IsOpen x)
    (hk : ∀ a, IsOpen (k (a, []))) : IsOpen (x >>= k) := by
  cases hx with
  | read a => exact hk a
  | ended => exact .ended
  | tooDeep h => exact .tooDeep h

/-- A persistent reader on any tokens, none included. -/
theorem Persistent.apply {f f' : List Token → Except Refusal (α × List Token)}
    (h : Persistent us f f') (ts : List Token) : Persists us (f ts) (f' (ts ++ us)) := by
  cases ts with
  | nil => exact .opened h.opened
  | cons t ts => exact h.persists t ts

theorem Persists.bind {x x' : Except Refusal (α × List Token)}
    {k k' : α × List Token → Except Refusal (β × List Token)} (hx : Persists us x x')
    (hk : ∀ a, Persistent us (fun ts => k (a, ts)) fun ts => k' (a, ts)) :
    Persists us (x >>= k) (x' >>= k') := by
  cases hx with
  | opened h => exact .opened (h.bind fun a => (hk a).opened)
  | read a t ts => exact (hk a).persists t ts
  | refused r => exact .refused r

theorem Persists.ite {c c' : Prop} [Decidable c] [Decidable c']
    {x x' y y' : Except Refusal (α × List Token)} (hc : c' ↔ c) (hx : c → Persists us x x')
    (hy : ¬c → Persists us y y') :
    Persists us (if c then x else y) (if c' then x' else y') := by
  by_cases h : c
  · rw [if_pos h, if_pos (hc.mpr h)]
    exact hx h
  · rw [if_neg h, if_neg (mt hc.mp h)]
    exact hy h

theorem persistent_ok (a : α) :
    Persistent us (fun ts => .ok (a, ts)) fun ts => .ok (a, ts) where
  opened := .read a
  persists := .read a

theorem persistent_refuse (reason : Option Reason) :
    Persistent us (α := α) (fun ts => .error (refuse reason ts))
      fun ts => .error (refuse reason ts) where
  opened := .ended
  persists _ _ := .refused _

theorem Persistent.bind {f f' : List Token → Except Refusal (α × List Token)}
    {k k' : α × List Token → Except Refusal (β × List Token)} (hf : Persistent us f f')
    (hk : ∀ a, Persistent us (fun ts => k (a, ts)) fun ts => k' (a, ts)) :
    Persistent us (fun ts => f ts >>= k) fun ts => f' ts >>= k' where
  opened := hf.opened.bind fun a => (hk a).opened
  persists t ts := (hf.persists t ts).bind hk

theorem Persistent.map {f f' : List Token → Except Refusal (α × List Token)}
    (hf : Persistent us f f') (g : α → β) :
    Persistent us (fun ts => f ts >>= fun x => .ok (g x.1, x.2))
      fun ts => f' ts >>= fun x => .ok (g x.1, x.2) :=
  hf.bind fun a => persistent_ok (g a)

theorem Persistent.tail {f f' : List Token → Except Refusal (α × List Token)}
    (hf : Persistent us f f') : Persistent us (fun ts => f ts.tail) fun ts => f' ts.tail where
  opened := hf.opened
  persists _ ts := hf.apply ts

/-- A symbol that has to come next, and what is read behind it. -/
theorem persistent_expect (s : Symbol) {f f' : List Token → Except Refusal (α × List Token)}
    (h : Persistent us f f') :
    Persistent us (fun ts => expect s ts >>= f) fun ts => expect s ts >>= f' where
  opened := .ended
  persists t ts := by
    rw [expect, expect, startsWith_append]
    split
    · exact h.apply ts
    · exact .refused _

/-- One of two readers, by a look at the next token. -/
theorem persistent_look {c : List Token → Bool} (hc : ∀ t ts, c (t :: (ts ++ us)) = c (t :: ts))
    {f f' g g' : List Token → Except Refusal (α × List Token)} (hf : Persistent us f f')
    (hg : Persistent us g g') :
    Persistent us (fun ts => if c ts then f ts else g ts)
      fun ts => if c ts then f' ts else g' ts where
  opened := by
    split
    · exact hf.opened
    · exact hg.opened
  persists t ts := .ite (by rw [hc]) (fun _ => hf.persists t ts) fun _ => hg.persists t ts

theorem persistent_startsWith (s : Symbol)
    {f f' g g' : List Token → Except Refusal (α × List Token)} (hf : Persistent us f f')
    (hg : Persistent us g g') :
    Persistent us (fun ts => if startsWith s ts then f ts else g ts)
      fun ts => if startsWith s ts then f' ts else g' ts :=
  persistent_look (fun _ _ => rfl) hf hg

/-- A number that may come next, and what is read behind it. -/
theorem persistent_bound {f f' : Option Int → List Token → Except Refusal (α × List Token)}
    (h : ∀ n, Persistent us (f n) (f' n)) :
    Persistent us (fun ts => f (bound ts).1 (bound ts).2)
      fun ts => f' (bound ts).1 (bound ts).2 where
  opened := (h none).opened
  persists t ts := by
    obtain ⟨l, start, stop⟩ := t
    cases l with
    | number n => exact (h (some n)).apply ts
    | name | quoted | literal | symbol => exact (h none).persists _ ts

end Composition

/-! ### Lists between commas -/

section Separated

variable {α : Type} {trailing : Bool} {close : Symbol}
  {item : List Token → Except Refusal (α × List Token)} (hitem : Persistent us item item)
include hitem

theorem isOpen_separated_nil : IsOpen (separated trailing close item []) := by
  rw [separated_eq]
  exact hitem.opened.bind fun _ => .ended

/-- What is behind an item, if shorter lists between commas are read persistently. -/
theorem persistent_separatedRest {ts : List Token} (hts : 0 < ts.length)
    (ih : ∀ rest : List Token, rest.length < ts.length →
      Persists us (separated trailing close item rest) (separated trailing close item (rest ++ us)))
    (a : α) :
    Persistent us (separatedRest trailing close item ts a)
      (separatedRest trailing close item (ts ++ us) a) where
  opened := .ended
  persists u rest := by
    refine .ite Iff.rfl (fun _ => (persistent_ok [a]).apply rest) fun _ =>
      .ite Iff.rfl (fun _ => ?_) fun _ => .refused _
    cases rest with
    | nil =>
      -- Behind the last comma an item is missing, even where none has to come.
      have hclose : ¬(trailing && startsWith close []) = true := by
        rw [Bool.and_eq_true]
        exact fun h => Bool.false_ne_true h.2
      refine .opened ?_
      rw [List.tail_cons, if_neg hclose, List.length_nil, if_pos hts]
      exact (isOpen_separated_nil hitem).bind fun more => .read (a :: more)
    | cons v rest =>
      have hlength : (v :: rest ++ us).length < (ts ++ us).length ↔
          (v :: rest).length < ts.length := by
        rw [List.length_append, List.length_append, Nat.add_lt_add_iff_right]
      exact .ite Iff.rfl (fun _ => (persistent_ok [a]).apply rest) fun _ =>
        .ite hlength (fun hlt => (ih _ hlt).bind fun more => persistent_ok (a :: more)) fun _ =>
          .refused _

theorem persistent_separated :
    Persistent us (separated trailing close item) (separated trailing close item) := by
  -- The list behind a comma is shorter on both sides, by the same number of tokens.
  have hall (n : Nat) : ∀ ts : List Token, ts.length = n →
      Persists us (separated trailing close item ts) (separated trailing close item (ts ++ us)) := by
    induction n using Nat.strongRecOn with
    | ind n ih =>
      rintro ts rfl
      cases ts with
      | nil => exact .opened (isOpen_separated_nil hitem)
      | cons t ts =>
        rw [separated_eq, separated_eq]
        exact (hitem.persists t ts).bind
          (persistent_separatedRest hitem (Nat.zero_lt_succ _) fun rest hlt => ih _ hlt rest rfl)
  exact ⟨isOpen_separated_nil hitem, fun t ts => hall _ (t :: ts) rfl⟩

end Separated

/-! ### Parts of expressions -/

theorem persistent_slice : Persistent us slice slice :=
  persistent_bound fun start => persistent_expect .colon <| persistent_bound fun stop =>
    persistent_startsWith .colon
      (Persistent.tail <| persistent_bound fun step =>
        persistent_expect .rightBracket (persistent_ok (Expr.slice start stop step)))
      (persistent_expect .rightBracket (persistent_ok (Expr.slice start stop none)))

theorem persistent_indexOrSlice : Persistent us indexOrSlice indexOrSlice where
  opened := .ended
  persists t ts := by
    have hslice : Persists us _ _ := persistent_slice.persists t ts
    obtain ⟨l, start, stop⟩ := t
    cases l with
    | number n =>
      cases ts with
      | nil => exact .opened .ended
      | cons t ts =>
        rw [indexOrSlice, indexOrSlice, List.cons_append, startsWith_append]
        split
        · exact hslice
        · exact (persistent_expect .rightBracket (persistent_ok (Expr.index n))).persists t ts
    | name | quoted | literal | symbol => exact hslice

section Parts

variable {read : Nat → List Token → Except Refusal (Expr × List Token)}
  (hread : ∀ p, Persistent us (read p) (read p))
include hread

theorem persistent_listItems : Persistent us (listItems read) (listItems read) :=
  (persistent_separated (hread 0)).map Expr.list

theorem persistent_hashEntry : Persistent us (hashEntry read) (hashEntry read) where
  opened := .ended
  persists t ts := by
    have hentry (key : String) : Persistent us (entryBehind read key) (entryBehind read key) :=
      persistent_expect .colon ((hread 0).map fun e => (key, e))
    obtain ⟨l, start, stop⟩ := t
    cases l with
    | name key => exact (hentry key).apply ts
    | quoted key => exact (hentry key).apply ts
    | literal | number | symbol => exact .refused _

theorem persistent_hashEntries : Persistent us (hashEntries read) (hashEntries read) :=
  (persistent_separated (persistent_hashEntry hread)).map Expr.hash

theorem persistent_arguments : Persistent us (arguments read) (arguments read) :=
  persistent_startsWith .rightParen (persistent_ok []).tail (persistent_separated (hread 0))

theorem persistent_afterDot (p : Nat) : Persistent us (afterDot read p) (afterDot read p) where
  opened := .ended
  persists t ts := by
    have hname := (hread p).persists t ts
    obtain ⟨l, start, stop⟩ := t
    cases l with
    | name | quoted => exact hname
    | literal | number => exact .refused _
    | symbol s =>
      cases s with
      | star => exact hname
      | leftBracket => exact (persistent_listItems hread).apply ts
      | leftBrace => exact (persistent_hashEntries hread).apply ts
      | _ => exact .refused _

theorem persistent_projected (p : Nat) : Persistent us (projected read p) (projected read p) where
  opened := .read Expr.identity
  persists t ts := by
    have hright := (hread p).persists t ts
    rw [projected, projected, headKind_append]
    split
    · exact .read Expr.identity t ts
    · obtain ⟨l, start, stop⟩ := t
      cases l with
      | name | quoted | literal | number => exact .refused _
      | symbol s =>
        cases s with
        | leftBracket => exact hright
        | filter => exact hright
        | dot => exact (persistent_afterDot hread p).apply ts
        | _ => exact .refused _

theorem persistent_flattened (left : Expr) :
    Persistent us (flattened read left) (flattened read left) :=
  (persistent_projected hread _).map fun right => Expr.project (.flatten left) right

theorem persistent_everyItem (left : Expr) :
    Persistent us (everyItem read left) (everyItem read left) :=
  (persistent_projected hread _).map fun right => Expr.project left right

theorem persistent_filtered (left : Expr) :
    Persistent us (filtered read left) (filtered read left) :=
  (hread 0).bind fun condition => persistent_expect .rightBracket <|
    persistent_startsWith .flatten (persistent_ok (Expr.projectWhere left .identity condition))
      ((persistent_projected hread _).map fun right => Expr.projectWhere left right condition)

theorem persistent_bracketed (left : Expr) :
    Persistent us (bracketed read left) (bracketed read left) := by
  refine persistent_indexOrSlice.bind fun right => ?_
  cases right with
  | slice start stop step =>
    exact (persistent_projected hread _).map fun onto =>
      Expr.project (left.indexed (.slice start stop step)) onto
  | _ => exact persistent_ok _

theorem persistent_binary (make : Expr → Expr → Expr) (p : Nat) (left : Expr) :
    Persistent us (binary read make p left) (binary read make p left) :=
  (hread p).map fun right => make left right

/-! ### Operands and what follows them -/

/-- What an opening bracket starts if no number and no colon comes next. -/
def starOrItems (read : Nat → List Token → Except Refusal (Expr × List Token))
    (ts : List Token) : Except Refusal (Expr × List Token) :=
  if startsWith .star ts && startsWith .rightBracket ts.tail then
    everyItem read .identity ts.tail.tail
  else listItems read ts

omit hread in
/-- One item without a closing symbol. -/
theorem isOpen_listItems {ts : List Token} (h : IsOpen (read 0 ts)) :
    IsOpen (listItems read ts) := by
  rw [listItems, separated_eq]
  exact (h.bind fun _ => .ended).bind fun items => .read (Expr.list items)

/-- After an opening bracket it takes two tokens to decide. The case that matters is a star at the
end of the tokens, which `hstar` is about. -/
theorem persistent_starOrItems (hstar : ∀ p t, t.kind = .symbol .star → IsOpen (read p [t])) :
    Persistent us (starOrItems read) (starOrItems read) where
  opened := (persistent_listItems hread).opened
  persists t ts := by
    have hitems : Persists us _ _ := (persistent_listItems hread).persists t ts
    cases ts with
    | nil =>
      -- The first run reads the items of a list; the second one may see a bracket behind the star.
      have hnil : starOrItems read [t] = listItems read [t] :=
        if_neg (by rw [Bool.and_eq_true]; exact fun h => Bool.false_ne_true h.2)
      by_cases ht : t.kind = .symbol .star
      · rw [hnil]
        exact .opened (isOpen_listItems (hstar 0 t ht))
      · have hstart : starOrItems read (t :: us) = listItems read (t :: us) :=
          if_neg (by rw [Bool.and_eq_true, startsWith_iff_headKind]; exact fun h => ht h.1)
        rw [hnil, List.nil_append, hstart]
        exact hitems
    | cons u ts =>
      exact .ite Iff.rfl (fun _ => (persistent_everyItem hread _).apply ts) fun _ => hitems

theorem persistent_leading (hstar : ∀ p t, t.kind = .symbol .star → IsOpen (read p [t])) :
    Persistent us (leading read) (leading read) where
  opened := .ended
  persists t ts := by
    obtain ⟨l, start, stop⟩ := t
    cases l with
    | name name => exact (persistent_ok (Expr.field name)).apply ts
    | literal value => exact (persistent_ok (Expr.literal value)).apply ts
    | number => exact .refused _
    | quoted name =>
      cases ts with
      | nil => exact .opened (.read _)
      | cons t ts =>
        rw [leading, leading, List.cons_append]
        dsimp only
        split
        · exact .refused _
        · exact .read (Expr.field name) t ts
    | symbol s =>
      cases s with
      | star =>
        exact (persistent_startsWith .rightBracket
          (persistent_ok (Expr.projectValues .identity .identity))
          ((persistent_projected hread _).map fun right =>
            Expr.projectValues .identity right)).apply ts
      | filter => exact (persistent_filtered hread _).apply ts
      | leftBrace => exact (persistent_hashEntries hread).apply ts
      | leftParen =>
        exact ((hread 0).bind fun e =>
          persistent_expect .rightParen (persistent_ok e)).apply ts
      | flatten => exact (persistent_flattened hread _).apply ts
      | not => exact ((hread _).map fun e => Expr.not e).apply ts
      | current => exact (persistent_ok Expr.current).apply ts
      | reference => exact ((hread _).map fun e => Expr.reference e).apply ts
      | leftBracket =>
        exact (persistent_look (fun _ _ => rfl) (persistent_bracketed hread _)
          (persistent_starOrItems hread hstar)).apply ts
      | _ => exact .refused _

theorem persists_following (s : Symbol) {whole : List Token} (h : whole ≠ []) (left : Expr)
    (t : Token) (ts : List Token) :
    Persists us (following read s whole left (t :: ts))
      (following read s (whole ++ us) left (t :: (ts ++ us))) := by
  cases s with
  | dot =>
    exact (persistent_startsWith .star
      ((persistent_projected hread _).map fun right => Expr.projectValues left right).tail
      ((persistent_afterDot hread _).map fun right => left.dotted right)).apply ts
  | pipe => exact (persistent_binary hread _ _ _).apply ts
  | or => exact (persistent_binary hread _ _ _).apply ts
  | and => exact (persistent_binary hread _ _ _).apply ts
  | comparison op => exact (persistent_binary hread _ _ _).apply ts
  | leftParen =>
    have hbefore : tokenBefore (whole ++ us) (t :: (ts ++ us)) = tokenBefore whole (t :: ts) :=
      tokenBefore_append h (t :: ts)
    cases left with
    | field name => exact ((persistent_arguments hread).map fun args => Expr.call name args).apply ts
    | _ =>
      simp only [following, hbefore]
      cases tokenBefore whole (t :: ts) with
      | none => exact .refused _
      | some u => exact .refused _
  | filter => exact (persistent_filtered hread _).apply ts
  | flatten => exact (persistent_flattened hread _).apply ts
  | leftBracket =>
    exact (persistent_look (fun _ _ => rfl) (persistent_bracketed hread left)
      (persistent_expect .star <| persistent_expect .rightBracket <|
        persistent_everyItem hread left)).apply ts
  | _ => exact .refused _

end Parts

/-! ### The knot -/

variable {L : Nat}

/-- A star at the end of the tokens is read, if there is a level left. -/
theorem isOpen_expression_star (p : Nat) (t : Token) (ht : t.kind = .symbol .star) :
    IsOpen (expression L p [t]) := by
  obtain ⟨l, start, stop⟩ := t
  cases l with
  | symbol s =>
    obtain rfl := Token.Kind.symbol.inj ht
    cases L with
    | zero => exact .tooDeep trivial
    | succ L =>
      have hstar : leading (expression L) [⟨.symbol .star, start, stop⟩] =
          .ok (.projectValues .identity .identity, []) := rfl
      rw [expression_succ_eq, hstar]
      exact IsOpen.bind (.read (Expr.projectValues .identity .identity)) fun left => by
        rw [climb_of_power_le (Nat.not_lt_zero p)]
        exact .read left
  | name | quoted | literal | number => exact absurd ht (by simp [Token.kind, Token.Lexeme.kind])

theorem persistent_climb (hread : ∀ K < L, ∀ p, Persistent us (expression K p) (expression K p))
    (p : Nat) {whole : List Token} (h : whole ≠ []) (left : Expr) :
    Persistent us (climb L p whole left) (climb L p (whole ++ us) left) := by
  -- On the levels: each symbol takes one, and makes another operand of the one on its left.
  induction L using Nat.strongRecOn generalizing left with
  | ind L ih =>
    constructor
    · rw [climb_of_power_le (Nat.not_lt_zero p)]
      exact .read left
    · intro t ts
      have hkind := headKind_append t ts us
      by_cases hpower : p < (headKind (t :: ts)).power
      · obtain ⟨s, hs⟩ := exists_symbol_of_power hpower
        rw [hs] at hpower hkind
        cases hfollow : canFollow s with
        | false =>
          rw [climb_of_not_canFollow hs hpower hfollow, climb_of_not_canFollow hkind hpower hfollow]
          exact .refused _
        | true =>
          cases L with
          | zero =>
            rw [climb_zero_eq hs hpower hfollow, climb_zero_eq hkind hpower hfollow]
            exact .refused _
          | succ L =>
            rw [climb_succ_eq hs hpower hfollow, climb_succ_eq hkind hpower hfollow]
            exact (persists_following (hread L L.lt_succ_self) s h left t ts).bind
              (ih L L.lt_succ_self fun K hK => hread K (Nat.lt_succ_of_lt hK))
      · rw [climb_of_power_le hpower, climb_of_power_le (by rwa [hkind])]
        exact .read left t ts

/-- **Expressions of any number of levels are read persistently.** -/
theorem persistent_expression (us : List Token) (L p : Nat) :
    Persistent us (expression L p) (expression L p) := by
  induction L using Nat.strongRecOn generalizing p with
  | ind L ih =>
    cases L with
    | zero => exact persistent_refuse (some .tooDeep)
    | succ L =>
      constructor
      · exact .ended
      · intro t ts
        rw [expression_succ_eq, expression_succ_eq]
        exact ((persistent_leading (ih L L.lt_succ_self) isOpen_expression_star).persists t ts).bind
          (persistent_climb (fun K hK => ih K (Nat.lt_succ_of_lt hK)) p (List.cons_ne_nil t ts))

/-- **Refusals are final**: tokens that are refused at one of them are refused in the same way
with more tokens behind, if it was not for want of levels. -/
theorem ofTokens_append {ts : List Token} {r : Refusal} (us : List Token)
    (h : Expr.ofTokens ts = .error r) :
    r = .ended ∨ r.IsTooDeep ∨ Expr.ofTokens (ts ++ us) = .error r := by
  have hread := (persistent_expression us maxNesting 0).apply ts
  rw [Expr.ofTokens] at h ⊢
  revert h hread
  generalize expression maxNesting 0 ts = x, expression maxNesting 0 (ts ++ us) = x'
  rintro h (hopen | ⟨e, t, rest⟩ | r')
  · -- An expression that takes all tokens is no refusal.
    cases hopen with
    | read e => exact absurd h (by simp)
    | ended => exact Or.inl (Except.error.inj h).symm
    | tooDeep hdeep => exact Or.inr (Or.inl (Except.error.inj h ▸ hdeep))
  · exact Or.inr (Or.inr h)
  · exact Or.inr (Or.inr h)

end Grammar

/-! ### Texts -/

namespace Query

section Refusals

variable {text : String} {s : Scan} {n : Nat} (h : scan text = .ok s)
  (hend : s.ending = .finished n)
include h hend

/-- How a text that was scanned to its end compiles. -/
theorem compile_of_finished : compile text = match Expr.ofTokens s.tokens with
    | .ok e => .ok ⟨text, e⟩
    | .error r => .error (.fault (r.fault n) (some text)) := by
  obtain ⟨hblank, hscan⟩ := scan_eq_ok_iff.mp h
  refine compile_of_scan hblank (hscan.trans ?_)
  rw [← hend]

theorem compile_of_refusal {r : Grammar.Refusal} (hr : Expr.ofTokens s.tokens = .error r) :
    compile text = .error (.fault (r.fault n) (some text)) := by
  rw [compile_of_finished h hend, hr]

/-- If such a text does not compile, that is because its tokens are refused. -/
theorem exists_refusal_of_compile {err : Error} (herr : compile text = .error err) :
    ∃ r, Expr.ofTokens s.tokens = .error r ∧ err = .fault (r.fault n) (some text) := by
  rw [compile_of_finished h hend] at herr
  split at herr
  · exact absurd herr (by simp)
  · next r hr => exact ⟨r, hr, (Except.error.inj herr).symm⟩

end Refusals

/-- A text that ends too early is refused at its end. -/
theorem position_of_unfinished {text : String} {position : Nat}
    (h : compile text = .error (.fault (.unfinished position) (some text))) :
    position = text.length := by
  rcases fault_of_compile h with hempty | ⟨f, hf, hin⟩
  · exact absurd hempty (by simp)
  · obtain ⟨rfl, -⟩ := Error.fault.inj hf
    exact hin

section Append

variable {text more : String} {s s' : Scan} {n n' : Nat} (h : scan text = .ok s)
  (hend : s.ending = .finished n) (h' : scan (text ++ more) = .ok s')
  (hend' : s'.ending = .finished n') (htokens : s.tokens <+: s'.tokens)
include h hend h' hend' htokens

/-- What becomes of an error when a text goes on with more tokens: it stays, unless the text was
refused at its end or for its depth. -/
theorem error_append {err : Error} (herr : compile text = .error err) :
    err = .fault (.unfinished text.length) (some text) ∨ IsTooDeep text ∨
      ∃ position shown kind reason,
        err = .fault (.badSyntax position shown kind reason) (some text) ∧
        compile (text ++ more) =
          .error (.fault (.badSyntax position shown kind reason) (some (text ++ more))) := by
  obtain ⟨us, hus⟩ := htokens
  obtain ⟨r, hr, rfl⟩ := exists_refusal_of_compile h hend herr
  cases r with
  | ended =>
    obtain rfl : n = text.length := position_of_unfinished herr
    exact Or.inl rfl
  | token position shown kind reason =>
    rcases Grammar.ofTokens_append us hr with hended | hdeep | hfinal
    · exact absurd hended (by simp)
    · obtain ⟨position', shown', kind', hfault⟩ := hdeep.fault_eq n
      rw [hfault] at herr
      exact Or.inr (Or.inl ⟨position', shown', kind', herr⟩)
    · rw [hus] at hfinal
      exact Or.inr (Or.inr ⟨position, shown, kind, reason, rfl, compile_of_refusal h' hend' hfinal⟩)

/-- **Refusals at a token are final.** If more text behind a text leaves its tokens as they are,
then a text that is refused at one of them, and not for its depth, is refused in the same way
with more text behind; and a text that has more text behind it to make it a query, and was not
refused for its depth, was refused at its end. -/
theorem compile_append :
    (∀ position shown kind reason, reason ≠ some .tooDeep →
      compile text = .error (.fault (.badSyntax position shown kind reason) (some text)) →
      compile (text ++ more) =
        .error (.fault (.badSyntax position shown kind reason) (some (text ++ more)))) ∧
    (∀ position, compile text = .error (.fault (.unfinished position) (some text)) →
      position = text.length) ∧
    ((compile (text ++ more)).isOk = true → ∀ err, compile text = .error err →
      ¬IsTooDeep text → err = .fault (.unfinished text.length) (some text)) := by
  refine ⟨fun position shown kind reason hreason herr => ?_,
    fun position => position_of_unfinished, fun hok err herr hlevels => ?_⟩
  · rcases error_append h hend h' hend' htokens herr with hunfinished | hdeep | hfinal
    · exact absurd hunfinished (by simp)
    · obtain ⟨_, _, _, hdeep⟩ := hdeep
      rw [herr] at hdeep
      simp only [Except.error.injEq, Error.fault.injEq, Fault.badSyntax.injEq] at hdeep
      exact absurd hdeep.1.2.2.2 hreason
    · obtain ⟨_, _, _, _, herr, hfinal⟩ := hfinal
      simp only [Error.fault.injEq, Fault.badSyntax.injEq] at herr
      obtain ⟨⟨rfl, rfl, rfl, rfl⟩, -⟩ := herr
      exact hfinal
  · rcases error_append h hend h' hend' htokens herr with hunfinished | hdeep | hfinal
    · exact hunfinished
    · exact absurd hdeep hlevels
    · obtain ⟨_, _, _, _, -, hfinal⟩ := hfinal
      rw [hfinal] at hok
      exact absurd hok Bool.false_ne_true

end Append

/-- Two names next to each other in parentheses, to which the closing one is added. -/
theorem compile_append_of_parentheses :
    ∃ s s', scan "(a b" = .ok s ∧ s.ending = .finished 4 ∧ scan ("(a b" ++ ")") = .ok s' ∧
      s'.ending = .finished 5 ∧ s.tokens <+: s'.tokens ∧
      compile "(a b" = .error (.fault (.badSyntax 3 "b" .name none) (some "(a b")) ∧
      compile ("(a b" ++ ")") =
        .error (.fault (.badSyntax 3 "b" .name none) (some ("(a b" ++ ")"))) := by
  have hchars : "(a b".toList = ['(', 'a', ' ', 'b'] := by decide
  have hchars' : ("(a b" ++ ")").toList = ['(', 'a', ' ', 'b', ')'] := by decide
  have hscan : scan "(a b" = .ok ⟨[⟨.symbol .leftParen, 0, 1⟩, ⟨.name "a", 1, 2⟩,
      ⟨.name "b", 3, 4⟩], .finished 4⟩ := by
    rw [scan_eq_ok_iff, hchars]
    exact ⟨rfl, by with_unfolding_all rfl⟩
  have hscan' : scan ("(a b" ++ ")") = .ok ⟨[⟨.symbol .leftParen, 0, 1⟩, ⟨.name "a", 1, 2⟩,
      ⟨.name "b", 3, 4⟩, ⟨.symbol .rightParen, 4, 5⟩], .finished 5⟩ := by
    rw [scan_eq_ok_iff, hchars']
    exact ⟨rfl, by with_unfolding_all rfl⟩
  have hcompile : compile "(a b" =
      .error (.fault (.badSyntax 3 "b" .name none) (some "(a b")) :=
    compile_of_refusal hscan rfl (show Expr.ofTokens _ = .error (.token 3 "b" .name none) from rfl)
  have htokens := List.prefix_append [⟨.symbol .leftParen, 0, 1⟩, ⟨.name "a", 1, 2⟩,
    ⟨.name "b", 3, 4⟩] [(⟨.symbol .rightParen, 4, 5⟩ : Token)]
  exact ⟨_, _, hscan, rfl, hscan', rfl, htokens, hcompile,
    (compile_append hscan rfl hscan' rfl htokens).1 3 "b" .name none (by simp) hcompile⟩

end Query

end JsonQuery
