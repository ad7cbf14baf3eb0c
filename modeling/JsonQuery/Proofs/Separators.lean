import Mathlib.Data.List.Forall2
import JsonQuery.Proofs.Compilation
import JsonQuery.Proofs.Derivation.Extension

/-!
# Commas between things

Three **forms of lists** are written between brackets and with commas in them: the arguments of
a call, the items of a list and the entries of a keyed list. They can be read off the
expression, each with how many things are in it (`JsonQuery.Expr.lists`), and off the text, each
with what stands directly inside of its brackets (`JsonQuery.Grammar.enclosures`). To tell a
bracket that opens a list from one that does not it is enough to look at the lexeme in front of
it and at the one or two behind it (`JsonQuery.Grammar.opens?`).

The lists of a query that compiles are those of its text, one by one, and there is one comma
between any two things that follow each other. No other comma stands there, with one exception:
behind the last argument of a call there may be one
(`JsonQuery.Query.separators_of_compile`).

The proof takes two inductions over derivations. In the first one brackets are counted, to see
that the commas directly inside of a pair of brackets are none of those of the things in it
(`JsonQuery.Grammar.Derivable.passes`). With it, the second one goes through the text from one
list to the next (`JsonQuery.Grammar.Derivable.findsLists`).
-/

namespace JsonQuery

open Token (Lexeme Kind)

/-- The **forms of a list** between brackets. -/
inductive ListForm where
  /-- The arguments of a call. -/
  | arguments
  /-- The items of a list. -/
  | items
  /-- The entries of a keyed list. -/
  | entries
  deriving DecidableEq, Repr

namespace Expr

mutual

/-- **The lists in an expression** from left to right, each with how many things are in it. A
list comes before those in its things, and a condition before the right side of its
projection. -/
def lists : Expr → List (ListForm × Nat)
  | identity | current | field _ | literal _ | index _ | slice .. => []
  | path steps | indexing steps => listsAll steps
  | pipe l r | compare _ l r | or l r | and l r | project l r | projectValues l r =>
    lists l ++ lists r
  | not e | flatten e | reference e => lists e
  | projectWhere l r c => lists l ++ (lists c ++ lists r)
  | list items => (.items, items.length) :: listsAll items
  | hash entries => (.entries, entries.length) :: listsEntries entries
  | call _ args => (.arguments, args.length) :: listsAll args

/-- The lists in some expressions. -/
def listsAll : List Expr → List (ListForm × Nat)
  | [] => []
  | e :: es => lists e ++ listsAll es

/-- The lists in some keyed expressions. -/
def listsEntries : List (String × Expr) → List (ListForm × Nat)
  | [] => []
  | (_, e) :: es => lists e ++ listsEntries es

end

theorem listsAll_append (es es' : List Expr) :
    listsAll (es ++ es') = listsAll es ++ listsAll es' := by
  induction es with
  | nil => rfl
  | cons e es ih => rw [List.cons_append, listsAll, listsAll, ih, List.append_assoc]

@[simp] theorem lists_dotted (left right : Expr) :
    (left.dotted right).lists = left.lists ++ right.lists := by
  unfold dotted
  split <;> simp [lists, listsAll, listsAll_append]

@[simp] theorem lists_indexed (left right : Expr) :
    (left.indexed right).lists = left.lists ++ right.lists := by
  unfold indexed
  split <;> simp [lists, listsAll, listsAll_append]

end Expr

namespace Grammar

/-! ### What brackets enclose -/

/-- The **places** in front of a lexeme. -/
inductive Place where
  /-- Where an operand starts. -/
  | start
  /-- Directly behind a dot. -/
  | dot
  /-- Behind an operand. -/
  | operand
  deriving DecidableEq, Repr

/-- The place behind a lexeme. -/
def placeBehind : Lexeme → Place
  | .name _ | .quoted _ | .literal _ => .operand
  | .symbol .current | .symbol .star | .symbol .flatten => .operand
  | .symbol .rightParen | .symbol .rightBracket | .symbol .rightBrace => .operand
  | .symbol .dot => .dot
  | _ => .start

/-- Whether a bracket **selects** by a position, a slice or a star, which can be seen on the
lexemes behind it. -/
def selects : List Lexeme → Bool
  | .number _ :: _ | .symbol .colon :: _ => true
  | .symbol .star :: .symbol .rightBracket :: _ => true
  | _ => false

/-- The form of the list that a lexeme **opens**, if it opens one. A parenthesis opens the
arguments of a call behind an operand only. A bracket opens a list directly behind a dot, and
elsewhere unless it selects. -/
def opens? : Lexeme → Place → List Lexeme → Option ListForm
  | .symbol .leftBrace, _, _ => some .entries
  | .symbol .leftParen, .operand, _ => some .arguments
  | .symbol .leftBracket, .dot, _ => some .items
  | .symbol .leftBracket, _, ls => if selects ls then none else some .items
  | _, _, _ => none

/-- The kinds of the lexemes **directly inside** of a pair of brackets, up to where it is closed.
What is inside of deeper brackets is left out, of which so many are open at the beginning. -/
def inside : Nat → List Lexeme → List Kind
  | _, [] => []
  | 0, l :: ls => if bracket l < 0 then [] else l.kind :: inside (bracket l).toNat ls
  | n + 1, l :: ls => inside (n + 1 + bracket l).toNat ls

/-- A list in a text: its form, and what stands directly inside of its brackets. -/
structure Enclosure where
  /-- The form of the list. -/
  form : ListForm
  /-- The kinds of the lexemes directly inside of the brackets. -/
  inside : List Kind

/-- **The lists in a text** that starts at a place, from left to right. -/
def enclosures : Place → List Lexeme → List Enclosure
  | _, [] => []
  | place, l :: ls =>
    (opens? l place ls).toList.map (⟨·, inside 0 ls⟩) ++ enclosures (placeBehind l) ls

/-- That commas **separate** things, of which there are so many: one stands between any two that
follow each other, and none elsewhere. -/
structure Separated (n : Nat) (ks : List Kind) : Prop where
  /-- There is something unless there are no things. -/
  nil_iff : ks = [] ↔ n = 0
  /-- There is one comma less than there are things. -/
  count_eq : ks.count (.symbol .comma) = n - 1
  /-- There is no comma in front of the first thing. -/
  head_ne : ks.head? ≠ some (.symbol .comma)
  /-- There are no two commas next to each other. -/
  not_doubled : ¬[.symbol .comma, .symbol .comma] <:+: ks
  /-- There is no comma behind the last thing. -/
  last_ne : ks.getLast? ≠ some (.symbol .comma)

/-- That there is **one more comma** behind the last thing. -/
def Trailed (n : Nat) (ks : List Kind) : Prop :=
  0 < n ∧ ∃ separated, ks = separated ++ [.symbol .comma] ∧ Separated n separated

/-- That a list in an expression is **written** as one in a text, with the same form and commas
that separate the things in it. -/
structure Written (list : ListForm × Nat) (E : Enclosure) : Prop where
  /-- The forms are the same. -/
  form_eq : E.form = list.1
  /-- Commas separate the things. -/
  separated : Separated list.2 E.inside

/-- That a list in an expression is written as one in a text, where there **may be one more
comma** behind the last argument of a call. -/
structure WrittenLoosely (list : ListForm × Nat) (E : Enclosure) : Prop where
  /-- The forms are the same. -/
  form_eq : E.form = list.1
  /-- Commas separate the things, with or without one more. -/
  separated : Separated list.2 E.inside ∨ list.1 = .arguments ∧ Trailed list.2 E.inside

/-! ### Lexemes inside of brackets -/

section Inside

variable {l : Lexeme} {ls ms rest : List Lexeme} {k : Nat}

theorem inside_closing (hl : bracket l = -1) (n : Nat) (ls : List Lexeme) :
    inside (n + 1) (l :: ls) = inside n ls := by
  rw [inside, hl]
  exact congrArg (inside · ls) (by omega)

theorem inside_zero_closing (hl : bracket l = -1) (ls : List Lexeme) :
    inside 0 (l :: ls) = [] := by
  rw [inside, hl]
  rfl

theorem inside_zero_cons (hl : 0 ≤ bracket l) (ls : List Lexeme) :
    inside 0 (l :: ls) = l.kind :: inside (bracket l).toNat ls := by
  rw [inside, if_neg (Int.not_lt.mpr hl)]

/-- A lexeme that is no comma and closes no bracket stands directly inside of the brackets or
inside of deeper ones. -/
theorem exists_inside_cons {j : Nat} (hl : bracket l = j) (hcomma : l.kind ≠ .symbol .comma)
    (n : Nat) (ls : List Lexeme) :
    ∃ seen, .symbol .comma ∉ seen ∧ inside n (l :: ls) = seen ++ inside (n + j) ls := by
  cases n with
  | zero =>
    refine ⟨[l.kind], fun h => hcomma (List.mem_singleton.mp h).symm, ?_⟩
    rw [inside_zero_cons (by omega), hl, Nat.zero_add]
    rfl
  | succ n =>
    refine ⟨[], List.not_mem_nil, ?_⟩
    rw [inside, hl, List.nil_append]
    exact congrArg (inside · ls) (by omega)

/-- That one gets from some lexemes to others behind them by **passing** no comma but those
inside of deeper brackets, and that some brackets are closed on the way. -/
def Passes (ls : List Lexeme) (k : Nat) (rest : List Lexeme) : Prop :=
  ∀ n, ∃ seen, .symbol .comma ∉ seen ∧ inside (n + k) ls = seen ++ inside n rest

theorem Passes.refl (ls : List Lexeme) : Passes ls 0 ls :=
  fun _ => ⟨[], List.not_mem_nil, rfl⟩

theorem Passes.trans {j : Nat} (h : Passes ls k ms) (h' : Passes ms j rest) :
    Passes ls (j + k) rest := by
  intro n
  obtain ⟨first, hfirst, heq⟩ := h (n + j)
  obtain ⟨second, hsecond, heq'⟩ := h' n
  refine ⟨first ++ second, List.not_mem_append hfirst hsecond, ?_⟩
  rw [← Nat.add_assoc, heq, heq', List.append_assoc]

theorem Passes.cons {j : Nat} (hl : bracket l = j) (hcomma : l.kind ≠ .symbol .comma)
    (h : Passes ls (k + j) rest) : Passes (l :: ls) k rest := by
  intro n
  obtain ⟨first, hfirst, heq⟩ := exists_inside_cons hl hcomma (n + k) ls
  obtain ⟨second, hsecond, heq'⟩ := h n
  refine ⟨first ++ second, List.not_mem_append hfirst hsecond, ?_⟩
  rw [heq, Nat.add_assoc, heq', List.append_assoc]

theorem Passes.plain (hl : bracket l = 0) (hcomma : l.kind ≠ .symbol .comma)
    (h : Passes ls k rest) : Passes (l :: ls) k rest :=
  .cons (j := 0) hl hcomma h

theorem Passes.opening (hl : bracket l = 1) (h : Passes ls (k + 1) rest) :
    Passes (l :: ls) k rest := by
  refine .cons (j := 1) hl (fun hcomma => ?_) h
  rw [kind_eq_symbol_iff.mp hcomma] at hl
  cases hl

theorem Passes.closing (hl : bracket l = -1) (h : Passes ls k rest) :
    Passes (l :: ls) (k + 1) rest := by
  intro n
  obtain ⟨seen, hseen, heq⟩ := h n
  exact ⟨seen, hseen, by rw [← Nat.add_assoc, inside_closing hl, heq]⟩

/-- A comma inside of a bracket that is closed later on is none that is passed. -/
theorem Passes.comma (h : Passes ls (k + 1) rest) :
    Passes (.symbol .comma :: ls) (k + 1) rest :=
  h

theorem Passes.symbol {s : Symbol} (hs : 0 < s.power)
    (h : Passes ls (k + (bracket (.symbol s)).toNat) rest) : Passes (.symbol s :: ls) k rest := by
  cases s with
  | filter | leftParen | leftBracket | leftBrace => exact .opening rfl h
  | comma | rightParen | rightBracket | rightBrace => exact absurd hs (Nat.lt_irrefl 0)
  | _ => exact .plain rfl nofun h

theorem Passes.withBound (b : Option Int) (h : Passes ls k rest) :
    Passes (withBound b ls) k rest := by
  cases b with
  | none => exact h
  | some n => exact .plain rfl nofun h

theorem Passes.sliceText (start stop : Option Int) (step : Option (Option Int))
    (h : Passes ls k rest) : Passes (sliceText start stop step ls) (k + 1) rest := by
  refine .withBound _ (.plain rfl nofun (.withBound _ ?_))
  cases step with
  | none => exact .closing rfl h
  | some b => exact .plain rfl nofun (.withBound _ (.closing rfl h))

/-- **A reading passes no comma** outside of the brackets that it opens and of those that it is
inside of. -/
theorem Derivable.passes {r : Reading} (h : Derivable r) :
    Passes r.before r.part.inside.toNat r.after := by
  induction h with
  | rule hr _ ih =>
    cases hr with
    | stop | unprojected => exact .refl _
    | literal | name | quoted | current => exact .plain rfl nofun (.refl _)
    | index => exact .plain rfl nofun (.closing rfl (.refl _))
    | noArgument => exact .closing rfl (.refl _)
    | expression =>
      rw [List.forall_mem_cons, List.forall_mem_singleton] at ih
      exact ih.1.trans ih.2
    | climb hp =>
      rw [List.forall_mem_cons, List.forall_mem_singleton] at ih
      exact .symbol (Nat.zero_lt_of_lt hp) (ih.1.trans ih.2)
    | filtered =>
      rw [List.forall_mem_cons, List.forall_mem_singleton] at ih
      exact ih.1.trans (.closing rfl ih.2)
    | item | argument =>
      rw [List.forall_mem_cons, List.forall_mem_singleton] at ih
      exact ih.1.trans ih.2.comma
    | entry hk =>
      rw [List.forall_mem_cons, List.forall_mem_singleton] at ih
      have hvalue := ih.1.trans ih.2.comma
      rcases hk with rfl | rfl <;> exact .plain rfl nofun (.plain rfl nofun hvalue)
    | lastEntry hk =>
      rw [List.forall_mem_singleton] at ih
      have hvalue := ih.trans (.closing rfl (.refl _))
      rcases hk with rfl | rfl <;> exact .plain rfl nofun (.plain rfl nofun hvalue)
    | group =>
      rw [List.forall_mem_singleton] at ih
      exact .opening rfl (ih.trans (.closing rfl (.refl _)))
    | lastItem | lastArgument =>
      rw [List.forall_mem_singleton] at ih
      exact ih.trans (.closing rfl (.refl _))
    | filter | hash | position | list | listAfterDot | hashAfterDot =>
      rw [List.forall_mem_singleton] at ih
      exact .opening rfl ih
    | values | flatten | not | reference | dotStar | projectedDot =>
      rw [List.forall_mem_singleton] at ih
      exact .plain rfl nofun ih
    | everyItem =>
      rw [List.forall_mem_singleton] at ih
      exact .opening rfl (.plain rfl nofun (.closing rfl ih))
    | everyItemOf =>
      rw [List.forall_mem_singleton] at ih
      exact .plain rfl nofun (.closing rfl ih)
    | slice =>
      rw [List.forall_mem_singleton] at ih
      exact ih.sliceText _ _ _
    | _ =>
      -- the premise starts at the same lexeme and closes the same brackets
      rw [List.forall_mem_singleton] at ih
      exact ih

end Inside

/-! ### Things between commas -/

section Things

variable {n : Nat} {ks thing : List Kind}

theorem Separated.nil : Separated 0 [] :=
  ⟨by decide, rfl, nofun, by decide, nofun⟩

theorem Separated.ne_nil (h : Separated n ks) (hn : 0 < n) : ks ≠ [] :=
  fun hnil => Nat.ne_of_gt hn (h.nil_iff.mp hnil)

/-- There is no comma next to one that stands between two things. -/
theorem not_doubled_append {c : Kind} (hthing : c ∉ thing) (hhead : ks.head? ≠ some c)
    (h : ¬[c, c] <:+: ks) : ¬[c, c] <:+: thing ++ c :: ks := by
  induction thing with
  | nil =>
    rw [List.nil_append, List.infix_cons_iff, List.cons_prefix_cons]
    rintro (⟨-, hprefix⟩ | hmore)
    · cases ks with
      | nil => cases List.prefix_nil.mp hprefix
      | cons k ks => exact hhead (congrArg some (List.cons_prefix_cons.mp hprefix).1.symm)
    · exact h hmore
  | cons k thing ih =>
    obtain ⟨hne, hthing⟩ := List.ne_and_not_mem_of_not_mem_cons hthing
    rw [List.cons_append, List.infix_cons_iff, List.cons_prefix_cons]
    exact not_or.mpr ⟨fun hprefix => hne hprefix.1, ih hthing⟩

theorem Separated.last (hne : thing ≠ []) (hthing : .symbol .comma ∉ thing) :
    Separated 1 thing where
  nil_iff := iff_of_false hne Nat.one_ne_zero
  count_eq := List.count_eq_zero_of_not_mem hthing
  head_ne h := hthing (List.mem_of_head? h)
  not_doubled h := hthing (h.subset List.mem_cons_self)
  last_ne h := hthing (List.mem_of_getLast? h)

theorem Separated.more (hne : thing ≠ []) (hthing : .symbol .comma ∉ thing) (hn : 0 < n)
    (h : Separated n ks) : Separated (n + 1) (thing ++ .symbol .comma :: ks) where
  nil_iff := iff_of_false (by simp) n.succ_ne_zero
  count_eq := by
    rw [List.count_append, List.count_cons_self, List.count_eq_zero_of_not_mem hthing, h.count_eq]
    omega
  head_ne := by
    rw [List.head?_append_of_ne_nil _ hne]
    exact fun hhead => hthing (List.mem_of_head? hhead)
  not_doubled := not_doubled_append hthing h.head_ne h.not_doubled
  last_ne := by
    rw [List.getLast?_append_of_ne_nil _ (List.cons_ne_nil _ ks),
      List.getLast?_cons_of_ne_nil (h.ne_nil hn)]
    exact h.last_ne

theorem Trailed.head_ne (h : Trailed n ks) : ks.head? ≠ some (.symbol .comma) := by
  obtain ⟨hn, separated, rfl, hseparated⟩ := h
  rw [List.head?_append_of_ne_nil _ (hseparated.ne_nil hn)]
  exact hseparated.head_ne

theorem Trailed.not_doubled (h : Trailed n ks) :
    ¬[.symbol .comma, .symbol .comma] <:+: ks := by
  obtain ⟨-, separated, rfl, hseparated⟩ := h
  rw [List.infix_concat_iff, List.suffix_concat_iff]
  rintro ((hnil | ⟨first, heq, hsuffix⟩) | hmore)
  · cases hnil
  -- the first one of two commas at the end would be the last of what is separated
  · obtain ⟨rfl, -⟩ : [.symbol .comma] = first ∧ _ := List.append_inj' heq rfl
    obtain ⟨init, rfl⟩ := hsuffix
    exact hseparated.last_ne List.getLast?_concat
  · exact hseparated.not_doubled hmore

theorem Trailed.last_eq (h : Trailed n ks) : ks.getLast? = some (.symbol .comma) := by
  obtain ⟨-, separated, rfl, -⟩ := h
  exact List.getLast?_concat

theorem WrittenLoosely.written {list : ListForm × Nat} {E : Enclosure}
    (h : WrittenLoosely list E) (hlast : E.inside.getLast? ≠ some (.symbol .comma)) :
    Written list E := by
  obtain ⟨hform, hseparated | ⟨-, htrailed⟩⟩ := h
  · exact ⟨hform, hseparated⟩
  · exact absurd htrailed.last_eq hlast

/-- Wherever a list is written, commas stand neither in front of it nor next to each other, and
behind it only if its things are arguments. -/
theorem WrittenLoosely.rejects {list : ListForm × Nat} {E : Enclosure}
    (h : WrittenLoosely list E) : E.inside.head? ≠ some (.symbol .comma) ∧
      ¬[.symbol .comma, .symbol .comma] <:+: E.inside ∧
      (E.form ≠ .arguments → E.inside.getLast? ≠ some (.symbol .comma)) := by
  obtain ⟨hform, hseparated | ⟨harguments, htrailed⟩⟩ := h
  · exact ⟨hseparated.head_ne, hseparated.not_doubled, fun _ => hseparated.last_ne⟩
  · refine ⟨htrailed.head_ne, htrailed.not_doubled, fun hne => ?_⟩
    exact absurd (hform.trans harguments) hne

end Things

/-! ### Lists are separated -/

section Lists

variable {L n : Nat} {e : Expr} {l : Lexeme} {ls rest : List Lexeme} {tail : List Kind}

/-- That some lexemes inside of brackets start with a **thing**, with other kinds behind it. -/
def StartsThing (ls : List Lexeme) (tail : List Kind) : Prop :=
  ∃ thing, thing ≠ [] ∧ .symbol .comma ∉ thing ∧ inside 0 ls = thing ++ tail

theorem head?_inside_of_startsOperand (h : startsOperand (front ls) = true) :
    (inside 0 ls).head? = some (front ls) ∧ front ls ≠ .symbol .comma := by
  cases ls with
  | nil => cases h
  | cons l ls =>
    have hl : 0 ≤ bracket l ∧ l.kind ≠ .symbol .comma := by
      cases l with
      | symbol s =>
        cases s <;> first
          | exact ⟨by decide, by decide⟩
          | cases h
      | _ => exact ⟨Int.le_refl 0, nofun⟩
    rw [inside_zero_cons hl.1]
    exact ⟨rfl, hl.2⟩

/-- **An expression in a list** is a thing. -/
theorem Derivable.startsThing (h : Derivable ⟨L, .expression 0 e, ls, l :: rest⟩)
    (hl : bracket l = -1 ∨ l = .symbol .comma) : StartsThing ls (inside 0 (l :: rest)) := by
  obtain ⟨thing, hthing, heq⟩ := h.passes 0
  refine ⟨thing, ?_, hthing, heq⟩
  -- an operand shows its first lexeme, which neither closes a bracket nor is a comma
  rintro rfl
  obtain ⟨hhead, hne⟩ := head?_inside_of_startsOperand h.startsOperand
  have heq : inside 0 ls = inside 0 (l :: rest) := heq
  rw [heq] at hhead
  rcases hl with hl | rfl
  · rw [inside_zero_closing hl] at hhead
    cases hhead
  · exact hne (Option.some.inj hhead).symm

theorem Derivable.startsThing_last (h : Derivable ⟨L, .expression 0 e, ls, l :: rest⟩)
    (hl : bracket l = -1) : StartsThing ls [] := by
  have hthing := h.startsThing (.inl hl)
  rwa [inside_zero_closing hl] at hthing

theorem Derivable.startsThing_comma
    (h : Derivable ⟨L, .expression 0 e, ls, .symbol .comma :: rest⟩) :
    StartsThing ls (.symbol .comma :: inside 0 rest) :=
  h.startsThing (.inr rfl)

/-- With its key in front, an expression is a thing as well. -/
theorem StartsThing.keyed {k : Lexeme} {key : String} (hk : k = .name key ∨ k = .quoted key)
    (h : StartsThing ls tail) : StartsThing (k :: .symbol .colon :: ls) tail := by
  obtain ⟨thing, -, hthing, heq⟩ := h
  refine ⟨k.kind :: .symbol .colon :: thing, List.cons_ne_nil _ _, ?_, ?_⟩
  · rcases hk with rfl | rfl <;> simp [hthing, Lexeme.kind]
  · rcases hk with rfl | rfl <;> exact congrArg (fun ks => _ :: _ :: ks) heq

theorem StartsThing.last (h : StartsThing ls []) : Separated 1 (inside 0 ls) := by
  obtain ⟨thing, hne, hthing, heq⟩ := h
  rw [heq, List.append_nil]
  exact .last hne hthing

theorem StartsThing.more (h : StartsThing ls (.symbol .comma :: tail)) (hn : 0 < n)
    (hmore : Separated n tail) : Separated (n + 1) (inside 0 ls) := by
  obtain ⟨thing, hne, hthing, heq⟩ := h
  rw [heq]
  exact .more hne hthing hn hmore

/-- A comma that nothing stands behind is one more. -/
theorem StartsThing.trailed (h : StartsThing ls [.symbol .comma]) :
    Trailed 1 (inside 0 ls) := by
  obtain ⟨thing, hne, hthing, heq⟩ := h
  exact ⟨Nat.one_pos, thing, heq, .last hne hthing⟩

theorem StartsThing.trailed_more (h : StartsThing ls (.symbol .comma :: tail))
    (hmore : Trailed n tail) : Trailed (n + 1) (inside 0 ls) := by
  obtain ⟨thing, hne, hthing, heq⟩ := h
  obtain ⟨hn, separated, rfl, hseparated⟩ := hmore
  refine ⟨n.succ_pos, thing ++ .symbol .comma :: separated, ?_, .more hne hthing hn hseparated⟩
  rw [heq, List.append_assoc, List.cons_append]

theorem Derivable.separated_items {es : List Expr} (h : Derivable ⟨L, .items es, ls, rest⟩) :
    0 < es.length ∧ Separated es.length (inside 0 ls) := by
  induction es generalizing ls with
  | nil =>
    obtain ⟨hr, -⟩ := h
    cases hr
  | cons e es ih =>
    obtain ⟨hr, hpremises⟩ := h
    refine ⟨Nat.succ_pos _, ?_⟩
    cases hr with
    | lastItem => exact ((List.forall_mem_singleton.mp hpremises).startsThing_last rfl).last
    | item =>
      rw [List.forall_mem_cons, List.forall_mem_singleton] at hpremises
      obtain ⟨hpos, hmore⟩ := ih hpremises.2
      exact hpremises.1.startsThing_comma.more hpos hmore

theorem Derivable.separated_entries {es : List (String × Expr)}
    (h : Derivable ⟨L, .entries es, ls, rest⟩) :
    0 < es.length ∧ Separated es.length (inside 0 ls) := by
  induction es generalizing ls with
  | nil =>
    obtain ⟨hr, -⟩ := h
    cases hr
  | cons e es ih =>
    obtain ⟨hr, hpremises⟩ := h
    refine ⟨Nat.succ_pos _, ?_⟩
    cases hr with
    | lastEntry hk =>
      exact (((List.forall_mem_singleton.mp hpremises).startsThing_last rfl).keyed hk).last
    | entry hk =>
      rw [List.forall_mem_cons, List.forall_mem_singleton] at hpremises
      obtain ⟨hpos, hmore⟩ := ih hpremises.2
      exact (hpremises.1.startsThing_comma.keyed hk).more hpos hmore

/-- The loop that reads arguments looks for the closing parenthesis behind each comma, and so
it takes one behind the last argument. -/
theorem Derivable.separated_arguments {es : List Expr}
    (h : Derivable ⟨L, .arguments es, ls, rest⟩) :
    Separated es.length (inside 0 ls) ∨ Trailed es.length (inside 0 ls) := by
  induction es generalizing ls with
  | nil =>
    obtain ⟨hr, -⟩ := h
    cases hr with
    | noArgument => exact .inl .nil
  | cons e es ih =>
    obtain ⟨hr, hpremises⟩ := h
    cases hr with
    | lastArgument =>
      exact .inl ((List.forall_mem_singleton.mp hpremises).startsThing_last rfl).last
    | argument =>
      rw [List.forall_mem_cons, List.forall_mem_singleton] at hpremises
      have hthing := hpremises.1.startsThing_comma
      rcases ih hpremises.2 with hmore | hmore
      · cases es with
        | nil =>
          -- nothing but the closing parenthesis stands behind the comma
          rw [hmore.nil_iff.mpr rfl] at hthing
          exact .inr hthing.trailed
        | cons => exact .inl (hthing.more (Nat.succ_pos _) hmore)
      · exact .inr (hthing.trailed_more hmore)

end Lists

/-! ### Lists in a text -/

/-- That one **finds lists** on the way from some lexemes, at a place, to others that stand
behind an operand: those that there are in front and more of them. -/
def Finds (found : List (ListForm × Nat)) (place : Place) (ls : List Lexeme)
    (all : List (ListForm × Nat)) (rest : List Lexeme) : Prop :=
  ∃ rows Es, all = found ++ rows ∧ enclosures place ls = Es ++ enclosures .operand rest ∧
    List.Forall₂ WrittenLoosely rows Es

section Finds

variable {found more all : List (ListForm × Nat)} {place : Place} {l : Lexeme}
  {ls mid rest : List Lexeme}

theorem Finds.refl (found : List (ListForm × Nat)) (ls : List Lexeme) :
    Finds found .operand ls found ls :=
  ⟨[], [], (List.append_nil found).symm, rfl, .nil⟩

theorem Finds.trans (h : Finds found place ls more mid) (h' : Finds more .operand mid all rest) :
    Finds found place ls all rest := by
  obtain ⟨rows, Es, rfl, hEs, hrows⟩ := h
  obtain ⟨rows', Es', rfl, hEs', hrows'⟩ := h'
  refine ⟨rows ++ rows', Es ++ Es', List.append_assoc .., ?_, List.rel_append hrows hrows'⟩
  rw [hEs, hEs', List.append_assoc]

/-- What is found is found behind any lists that were found before. -/
theorem Finds.behind (h : Finds [] place ls more rest) (found : List (ListForm × Nat)) :
    Finds found place ls (found ++ more) rest := by
  obtain ⟨rows, Es, hall, hEs, hrows⟩ := h
  exact ⟨rows, Es, congrArg (found ++ ·) hall, hEs, hrows⟩

theorem Finds.plain (hl : opens? l place ls = none)
    (h : Finds found (placeBehind l) ls all rest) : Finds found place (l :: ls) all rest := by
  obtain ⟨rows, Es, hall, hEs, hrows⟩ := h
  refine ⟨rows, Es, hall, ?_, hrows⟩
  rw [enclosures, hl, hEs]
  rfl

theorem Finds.list {form : ListForm} {n : Nat} (hl : opens? l place ls = some form)
    (hlist : WrittenLoosely (form, n) ⟨form, inside 0 ls⟩)
    (h : Finds [] (placeBehind l) ls all rest) :
    Finds [] place (l :: ls) ((form, n) :: all) rest := by
  obtain ⟨rows, Es, hall, hEs, hrows⟩ := h
  refine ⟨_, ⟨form, inside 0 ls⟩ :: Es, congrArg ((form, n) :: ·) hall, ?_, .cons hlist hrows⟩
  rw [enclosures, hl, hEs]
  rfl

end Finds

/-- That an operand whose first lexeme is of a kind can **start** at a place. A parenthesis
behind an operand opens the arguments of a call, and a bracket behind a dot opens a list. -/
structure Place.Starts (place : Place) (k : Kind) : Prop where
  /-- No parenthesis stands behind an operand. -/
  leftParen : k = .symbol .leftParen → place ≠ .operand
  /-- No bracket stands behind a dot. -/
  leftBracket : k = .symbol .leftBracket → place ≠ .dot

theorem Place.start_starts (k : Kind) : Place.start.Starts k :=
  ⟨nofun, nofun⟩

theorem opens?_leftParen {place : Place} (h : place ≠ .operand) (ls : List Lexeme) :
    opens? (.symbol .leftParen) place ls = none := by
  cases place with
  | operand => exact absurd rfl h
  | _ => rfl

theorem opens?_leftBracket_of_selects {place : Place} (h : place ≠ .dot) {ls : List Lexeme}
    (hls : selects ls = true) : opens? (.symbol .leftBracket) place ls = none := by
  cases place with
  | dot => exact absurd rfl h
  | _ => exact if_pos hls

theorem opens?_leftBracket {ls : List Lexeme} (hls : selects ls = false) (place : Place) :
    opens? (.symbol .leftBracket) place ls = some .items := by
  cases place with
  | dot => rfl
  | _ => exact if_neg (Bool.eq_false_iff.mp hls)

theorem selects_of_bracketed {L : Nat} {left e : Expr} {ls rest : List Lexeme}
    (h : Derivable ⟨L, .bracketed left e, ls, rest⟩) : selects ls = true := by
  obtain ⟨hr, -⟩ := h
  cases hr with
  | index => rfl
  | @slice _ _ _ start => cases start <;> rfl

theorem Derivable.startsOperand_items {L : Nat} {es : List Expr} {ls rest : List Lexeme}
    (h : Derivable ⟨L, .items es, ls, rest⟩) : Grammar.startsOperand (front ls) = true := by
  obtain ⟨hr, hpremises⟩ := h
  cases hr with
  | lastItem | item => exact (hpremises _ List.mem_cons_self).startsOperand

theorem selects_of_items {L : Nat} {es : List Expr} {ls rest : List Lexeme}
    (h : Derivable ⟨L, .items es, ls, rest⟩)
    (hstar : ∀ more, ls ≠ .symbol .star :: .symbol .rightBracket :: more) :
    selects ls = false := by
  have hstart := h.startsOperand_items
  unfold selects
  split
  · cases hstart
  · cases hstart
  · exact absurd rfl (hstar _)
  · rfl

theorem Finds.sliceText {found all : List (ListForm × Nat)} {mid rest : List Lexeme}
    (h : Finds found .operand mid all rest) (start stop : Option Int)
    (step : Option (Option Int)) :
    Finds found .start (sliceText start stop step mid) all rest := by
  have hbound (b : Option Int) {ls : List Lexeme} (h : Finds found .start ls all rest) :
      Finds found .start (withBound b ls) all rest := by
    cases b with
    | none => exact h
    | some => exact .plain rfl h
  refine hbound _ (.plain rfl (hbound _ ?_))
  cases step with
  | none => exact .plain rfl h
  | some => exact .plain rfl (hbound _ (.plain rfl h))

/-- That a reading **finds the lists** of what it yields, in front of which there are those of the
operand on its left. A step is taken together with the symbol that it stands behind, for that can
be the parenthesis of a call. -/
def Reading.FindsLists (r : Reading) : Prop :=
  match r.part with
  | .expression _ e | .operand e =>
    ∀ place : Place, place.Starts (front r.before) → Finds [] place r.before e.lists r.after
  | .climb _ left e => Finds left.lists .operand r.before e.lists r.after
  | .step s left e => Finds left.lists .operand (.symbol s :: r.before) e.lists r.after
  | .projected _ e => Finds [] .operand r.before e.lists r.after
  | .afterDot _ e => Finds [] .dot r.before e.lists r.after
  | .filtered left e | .bracketed left e => Finds left.lists .start r.before e.lists r.after
  | .items es | .arguments es => Finds [] .start r.before (Expr.listsAll es) r.after
  | .entries es => Finds [] .start r.before (Expr.listsEntries es) r.after

/-- **The lists that are found** on the way of a reading are those of what it yields. -/
theorem Derivable.findsLists {r : Reading} (h : Derivable r) : r.FindsLists := by
  induction h with
  | @rule r _ hr hpremises ih =>
    cases hr with
    | literal | name | quoted | current => exact fun _ _ => .plain rfl (.refl _ _)
    | stop | unprojected => exact .refl _ _
    | noArgument => exact .plain rfl (.refl _ _)
    | expression =>
      rw [List.forall_mem_cons, List.forall_mem_singleton] at ih
      exact fun place hplace => (ih.1 place hplace).trans ih.2
    | climb =>
      rw [List.forall_mem_cons, List.forall_mem_singleton] at ih
      exact ih.1.trans ih.2
    | values | flatten | filter =>
      rw [List.forall_mem_singleton] at ih
      exact fun _ _ => .plain rfl ih
    | not | reference =>
      rw [List.forall_mem_singleton] at ih
      exact fun _ _ => .plain rfl (ih .start (Place.start_starts _))
    | group =>
      rw [List.forall_mem_singleton] at ih
      intro place hplace
      have hinner := ih .start (Place.start_starts _)
      exact .plain (opens?_leftParen (hplace.leftParen rfl) _)
        (hinner.trans (.plain rfl (.refl _ _)))
    | position =>
      rw [List.forall_mem_singleton] at ih hpremises
      intro place hplace
      exact .plain (opens?_leftBracket_of_selects (hplace.leftBracket rfl)
        (selects_of_bracketed hpremises)) ih
    | everyItem =>
      rw [List.forall_mem_singleton] at ih
      intro place hplace
      exact .plain (opens?_leftBracket_of_selects (hplace.leftBracket rfl) rfl)
        (.plain rfl (.plain rfl ih))
    | list hstar =>
      rw [List.forall_mem_singleton] at ih hpremises
      intro place _
      exact .list (opens?_leftBracket (selects_of_items hpremises hstar) place)
        ⟨rfl, .inl hpremises.separated_items.2⟩ ih
    | hash =>
      rw [List.forall_mem_singleton] at ih hpremises
      exact fun _ _ => .list rfl ⟨rfl, .inl hpremises.separated_entries.2⟩ ih
    | listAfterDot =>
      rw [List.forall_mem_singleton] at ih hpremises
      exact .list rfl ⟨rfl, .inl hpremises.separated_items.2⟩ ih
    | hashAfterDot =>
      rw [List.forall_mem_singleton] at ih hpremises
      exact .list rfl ⟨rfl, .inl hpremises.separated_entries.2⟩ ih
    | call =>
      -- a field has no lists, and so none stand in front of the arguments
      rw [List.forall_mem_singleton] at ih hpremises
      exact .list rfl ⟨rfl, hpremises.separated_arguments.imp id (⟨rfl, ·⟩)⟩ ih
    | pipe | or | and | compare =>
      rw [List.forall_mem_singleton] at ih
      exact .plain rfl ((ih .start (Place.start_starts _)).behind _)
    | dotStar =>
      rw [List.forall_mem_singleton] at ih
      exact .plain rfl (.plain rfl (ih.behind _))
    | dot =>
      rw [List.forall_mem_singleton] at ih
      simp only [Reading.FindsLists, Expr.lists_dotted]
      exact .plain rfl (ih.behind _)
    | filterOf =>
      rw [List.forall_mem_singleton] at ih
      exact .plain rfl ih
    | flattenOf =>
      rw [List.forall_mem_singleton] at ih
      exact .plain rfl (ih.behind _)
    | positionOf =>
      rw [List.forall_mem_singleton] at ih hpremises
      have hplace : Place.operand ≠ .dot := nofun
      exact .plain (opens?_leftBracket_of_selects hplace (selects_of_bracketed hpremises)) ih
    | everyItemOf =>
      rw [List.forall_mem_singleton] at ih
      exact .plain rfl (.plain rfl (.plain rfl (ih.behind _)))
    | projectedBracket | projectedFilter =>
      rw [List.forall_mem_singleton] at ih
      exact ih .operand ⟨nofun, nofun⟩
    | projectedDot =>
      rw [List.forall_mem_singleton] at ih
      exact .plain rfl ih
    | afterDot hfront =>
      rw [List.forall_mem_singleton] at ih
      refine ih .dot ⟨nofun, fun hbracket => ?_⟩
      rcases hfront with hfront | hfront | hfront <;> cases hfront.symm.trans hbracket
    | filtered =>
      -- the condition is read before the right side, and its lists come first
      rw [List.forall_mem_cons, List.forall_mem_singleton] at ih
      have hcondition := ih.1 .start (Place.start_starts _)
      exact (hcondition.trans (.plain rfl (ih.2.behind _))).behind _
    | index =>
      simp only [Reading.FindsLists, Expr.lists_indexed, Expr.lists, List.append_nil]
      exact .plain rfl (.plain rfl (.refl _ _))
    | slice =>
      rw [List.forall_mem_singleton] at ih
      simp only [Reading.FindsLists, Expr.lists_indexed, Expr.lists, List.append_nil]
      exact (ih.behind _).sliceText _ _ _
    | lastItem | lastArgument =>
      rw [List.forall_mem_singleton] at ih
      simp only [Reading.FindsLists, Expr.listsAll, List.append_nil]
      exact (ih .start (Place.start_starts _)).trans (.plain rfl (.refl _ _))
    | item | argument =>
      rw [List.forall_mem_cons, List.forall_mem_singleton] at ih
      have hfirst := ih.1 .start (Place.start_starts _)
      exact hfirst.trans (.plain rfl (ih.2.behind _))
    | lastEntry hk =>
      rw [List.forall_mem_singleton] at ih
      have hlast := (ih .start (Place.start_starts _)).trans (.plain rfl (.refl _ _))
      simp only [Reading.FindsLists, Expr.listsEntries, List.append_nil]
      rcases hk with rfl | rfl <;> exact .plain rfl (.plain rfl hlast)
    | entry hk =>
      rw [List.forall_mem_cons, List.forall_mem_singleton] at ih
      have hfirst := ih.1 .start (Place.start_starts _)
      have hvalue := hfirst.trans (.plain rfl (ih.2.behind _))
      rcases hk with rfl | rfl <;> exact .plain rfl (.plain rfl hvalue)

end Grammar

namespace Query

open Grammar (Enclosure Written WrittenLoosely enclosures lexemes)
open Scan (Splits)

/-- The lists in the text of a query. -/
def writtenLists (text : String) : List Enclosure :=
  enclosures .start (lexemes (Scan.ofChars text.toList).tokens)

/-- The lists of a query are those of its text. -/
theorem lists_writtenLoosely {text : String} {q : Query} (h : compile text = .ok q) :
    List.Forall₂ WrittenLoosely q.expr.lists (writtenLists text) := by
  obtain ⟨rfl, hd⟩ := derivable_reading h
  obtain ⟨rows, Es, hrows, hEs, hwritten⟩ := hd.findsLists .start (Grammar.Place.start_starts _)
  have hlists : q.expr.lists = rows := hrows
  have henclosures : writtenLists q.text = Es ++ [] := hEs
  rwa [hlists, henclosures, List.append_nil]

/-- **Commas match the things in lists.** The calls, lists and keyed lists of a query are those of
its text, one by one. In each of them there is one comma less directly inside of the brackets
than there are things, none of them at the front, next to another or at the end, except that one
more may stand behind the last argument of a call. -/
theorem separators_of_compile {text : String} {q : Query} (h : compile text = .ok q) :
    List.Forall₂ WrittenLoosely q.expr.lists (writtenLists text) ∧
      ((∀ E ∈ writtenLists text, E.inside.getLast? ≠ some (.symbol .comma)) →
        List.Forall₂ Written q.expr.lists (writtenLists text)) ∧
      ∀ E ∈ writtenLists text, E.inside.head? ≠ some (.symbol .comma) ∧
        ¬[.symbol .comma, .symbol .comma] <:+: E.inside ∧
        (E.form ≠ .arguments → E.inside.getLast? ≠ some (.symbol .comma)) := by
  have hall := lists_writtenLoosely h
  refine ⟨hall, fun hlast => ?_, ?_⟩
  · have hboth := (List.forall₂_and_left (writtenLists text) q.expr.lists).mpr ⟨hlast, hall.flip⟩
    exact (hboth.imp fun E list hwritten => hwritten.2.written hwritten.1).flip
  · have hboth := hall.flip.imp fun E list hwritten => And.intro hwritten.rejects hwritten
    exact ((List.forall₂_and_left _ _).mp hboth).1

theorem splits_nestedLists : Splits "f([a,b],\x7bk:g(c)\x7d)".toList
    [.name "f", .symbol .leftParen, .symbol .leftBracket, .name "a", .symbol .comma, .name "b",
      .symbol .rightBracket, .symbol .comma, .symbol .leftBrace, .name "k", .symbol .colon,
      .name "g", .symbol .leftParen, .name "c", .symbol .rightParen, .symbol .rightBrace,
      .symbol .rightParen] := by
  have hchars : "f([a,b],\x7bk:g(c)\x7d)".toList = ['f', '(', '[', 'a', ',', 'b', ']', ',',
      '\x7b', 'k', ':', 'g', '(', 'c', ')', '\x7d', ')'] := by decide
  rw [hchars]
  exact .lexeme rfl rfl <| .lexeme rfl rfl <| .lexeme rfl rfl <| .lexeme rfl rfl <|
    .lexeme rfl rfl <| .lexeme rfl rfl <| .lexeme rfl rfl <| .lexeme rfl rfl <|
    .lexeme rfl rfl <| .lexeme rfl rfl <| .lexeme rfl rfl <| .lexeme rfl rfl <|
    .lexeme rfl rfl <| .lexeme rfl rfl <| .lexeme rfl rfl <| .lexeme rfl rfl <|
    .lexeme rfl rfl .nil

theorem splits_trailedCall : Splits "f(a,)".toList
    [.name "f", .symbol .leftParen, .name "a", .symbol .comma, .symbol .rightParen] := by
  have hchars : "f(a,)".toList = ['f', '(', 'a', ',', ')'] := by decide
  rw [hchars]
  exact .lexeme rfl rfl <| .lexeme rfl rfl <| .lexeme rfl rfl <| .lexeme rfl rfl <|
    .lexeme rfl rfl .nil

/-- Lists of all forms inside of each other, and a call with one more comma. -/
theorem separators_of_nestedLists :
    (∃ q, compile "f([a,b],\x7bk:g(c)\x7d)" = .ok q ∧ List.Forall₂ Written q.expr.lists
      [⟨.arguments, [.symbol .leftBracket, .symbol .comma, .symbol .leftBrace]⟩,
        ⟨.items, [.name, .symbol .comma, .name]⟩,
        ⟨.entries, [.name, .symbol .colon, .name, .symbol .leftParen]⟩,
        ⟨.arguments, [.name]⟩]) ∧
    ∃ q, compile "f(a,)" = .ok q ∧
      List.Forall₂ WrittenLoosely q.expr.lists [⟨.arguments, [.name, .symbol .comma]⟩] := by
  obtain ⟨q, hq⟩ := exists_of_isOk
    (show (compile "f([a,b],\x7bk:g(c)\x7d)").isOk = true by decide +kernel)
  obtain ⟨r, hr⟩ := exists_of_isOk (show (compile "f(a,)").isOk = true by decide +kernel)
  have hexactly := (separators_of_compile hq).2.1
  have hloosely := (separators_of_compile hr).1
  rw [writtenLists, Scan.lexemes_tokens_of_splits splits_nestedLists] at hexactly
  rw [writtenLists, Scan.lexemes_tokens_of_splits splits_trailedCall] at hloosely
  refine ⟨⟨q, hq, hexactly ?_⟩, r, hr, hloosely⟩
  decide +kernel

/-- **Not every comma stands between two things**: behind the last argument of a call there may be
one. -/
theorem not_written_exactly : ¬∀ {text : String} {q : Query}, compile text = .ok q →
    List.Forall₂ Written q.expr.lists (writtenLists text) := by
  intro h
  obtain ⟨q, hq⟩ := exists_of_isOk (show (compile "f(a,)").isOk = true by decide +kernel)
  have hlists := h hq
  rw [writtenLists, Scan.lexemes_tokens_of_splits splits_trailedCall] at hlists
  have hlast : ∀ list E, Written list E → E.inside.getLast? ≠ some (.symbol .comma) :=
    fun _ _ hwritten => hwritten.separated.last_ne
  obtain ⟨list, -, hwritten, -, -⟩ := List.forall₂_cons_right_iff.mp hlists
  exact hlast _ _ hwritten rfl

end Query

end JsonQuery
