import JsonQuery.Proofs.ReadingBack
import JsonQuery.Proofs.TableAgreement

/-!
# What is called

A call takes the name of its function from the operand on its left, which has to be a field.
That can be a name directly in front of the parenthesis, but it need not be: parentheses
around a field leave no trace, and so `(f)(@)` calls `f`. A name with quotation marks is
refused in front of a parenthesis, and accepted in parentheses.

Which identifiers are called can be seen on the lexemes alone. They are the **callees**
(`JsonQuery.Grammar.callees`): each of them stands in parentheses of its own or in none, and
behind these another parenthesis is opened. A query calls exactly its callees
(`JsonQuery.Query.callees_of_compile`).

Two inductions over derivations lead there. The first one says of an expression in
parentheses that it is a field if and only if its lexemes look like a callee
(`JsonQuery.Grammar.Reading.FindsCallee`). With it, the second one moves callees from the
lexemes to the calls of what is read (`JsonQuery.Grammar.Reading.KeepsCallees`). A field that
a parenthesis is opened behind is no call yet, though its lexemes have been read, and so it
is kept apart (`JsonQuery.Grammar.calleeBefore`).
-/

namespace JsonQuery

open Token (Lexeme)

namespace Expr

/-- The name of a field, if an expression is a field. -/
def fieldName? : Expr → Option String
  | field name => some name
  | _ => none

@[simp] theorem fieldName?_dotted (left right : Expr) : (left.dotted right).fieldName? = none := by
  unfold dotted
  split <;> rfl

@[simp] theorem fieldName?_indexed (left right : Expr) :
    (left.indexed right).fieldName? = none := by
  unfold indexed
  split <;> rfl

theorem calledNames_eq (e : Expr) :
    e.calledNames = e.calledName?.toList ++ e.children.flatMap calledNames := by
  rw [calledNames, nodes_eq, List.filterMap_cons, List.filterMap_flatMap]
  cases e.calledName? <;> rfl

section CalledNames

variable (e l r c : Expr)

@[simp] theorem calledNames_identity : identity.calledNames = [] := rfl

@[simp] theorem calledNames_current : current.calledNames = [] := rfl

@[simp] theorem calledNames_field (name : String) : (field name).calledNames = [] := rfl

@[simp] theorem calledNames_literal (value : Json) : (literal value).calledNames = [] := rfl

@[simp] theorem calledNames_index (n : Int) : (index n).calledNames = [] := rfl

@[simp] theorem calledNames_slice (start stop step : Option Int) :
    (slice start stop step).calledNames = [] := rfl

@[simp] theorem calledNames_not : (not e).calledNames = e.calledNames := by
  simp [calledNames_eq (not e), children, calledName?]

@[simp] theorem calledNames_flatten : (flatten e).calledNames = e.calledNames := by
  simp [calledNames_eq (flatten e), children, calledName?]

@[simp] theorem calledNames_reference : (reference e).calledNames = e.calledNames := by
  simp [calledNames_eq (reference e), children, calledName?]

@[simp] theorem calledNames_pipe : (pipe l r).calledNames = l.calledNames ++ r.calledNames := by
  simp [calledNames_eq (pipe l r), children, calledName?]

@[simp] theorem calledNames_or : (or l r).calledNames = l.calledNames ++ r.calledNames := by
  simp [calledNames_eq (or l r), children, calledName?]

@[simp] theorem calledNames_and : (and l r).calledNames = l.calledNames ++ r.calledNames := by
  simp [calledNames_eq (and l r), children, calledName?]

@[simp] theorem calledNames_compare (op : Comparison) :
    (compare op l r).calledNames = l.calledNames ++ r.calledNames := by
  simp [calledNames_eq (compare op l r), children, calledName?]

@[simp] theorem calledNames_project :
    (project l r).calledNames = l.calledNames ++ r.calledNames := by
  simp [calledNames_eq (project l r), children, calledName?]

@[simp] theorem calledNames_projectValues :
    (projectValues l r).calledNames = l.calledNames ++ r.calledNames := by
  simp [calledNames_eq (projectValues l r), children, calledName?]

@[simp] theorem calledNames_projectWhere : (projectWhere l r c).calledNames =
    l.calledNames ++ (r.calledNames ++ c.calledNames) := by
  simp [calledNames_eq (projectWhere l r c), children, calledName?]

@[simp] theorem calledNames_list (es : List Expr) :
    (list es).calledNames = es.flatMap calledNames := by
  simp [calledNames_eq (list es), children, calledName?]

@[simp] theorem calledNames_hash (es : List (String × Expr)) :
    (hash es).calledNames = (es.map Prod.snd).flatMap calledNames := by
  simp [calledNames_eq (hash es), children, calledName?]

@[simp] theorem calledNames_call (name : String) (es : List Expr) :
    (call name es).calledNames = name :: es.flatMap calledNames := by
  simp [calledNames_eq (call name es), children, calledName?]

@[simp] theorem calledNames_dotted :
    (l.dotted r).calledNames = l.calledNames ++ r.calledNames := by
  unfold dotted
  split
  · rw [calledNames_eq, calledNames_eq (path _)]
    simp [children, calledName?]
  · rw [calledNames_eq]
    simp [children, calledName?]

@[simp] theorem calledNames_indexed :
    (l.indexed r).calledNames = l.calledNames ++ r.calledNames := by
  unfold indexed
  split
  · rw [calledNames_eq, calledNames_eq (indexing _)]
    simp [children, calledName?]
  · rw [calledNames_eq]
    simp [children, calledName?]

end CalledNames

end Expr

namespace Grammar

/-! ### Callees -/

/-- Whether some parentheses are closed one after the other and another one is opened
then. -/
def closes : Nat → List Lexeme → Bool
  | 0, .symbol .leftParen :: _ => true
  | k + 1, .symbol .rightParen :: ls => closes k ls
  | _, _ => false

/-- The identifier at the front of some lexemes, if it stands in parentheses of its own, some
of which are open already, and another one is opened behind them. An identifier with quotation
marks has to stand in parentheses. -/
def calleeIn : Nat → List Lexeme → Option String
  | k, .symbol .leftParen :: ls => calleeIn (k + 1) ls
  | k, .name name :: ls => if closes k ls then some name else none
  | k + 1, .quoted name :: ls => if closes (k + 1) ls then some name else none
  | _, _ => none

/-- **The callees among some lexemes**: the identifiers in front of an opening parenthesis,
be they in parentheses of their own or not. -/
def callees : List Lexeme → List String
  | [] => []
  | l :: ls => (calleeIn 0 (l :: ls)).toList ++ callees ls

/-- The names **directly** in front of an opening parenthesis. -/
def directCallees : List Lexeme → List String
  | [] => []
  | .name name :: ls =>
    if front ls = .symbol .leftParen then name :: directCallees ls else directCallees ls
  | _ :: ls => directCallees ls

/-- The name that is called by an expression in some parentheses, of which the lexemes are
those behind it. -/
def calleeBefore (k : Nat) (e : Expr) (ls : List Lexeme) : Option String :=
  if closes k ls then e.fieldName? else none

@[simp] theorem callees_nil : callees [] = [] := rfl

@[simp] theorem callees_name (name : String) (ls : List Lexeme) :
    callees (.name name :: ls) = (calleeBefore 0 (.field name) ls).toList ++ callees ls := rfl

@[simp] theorem callees_quoted (name : String) (ls : List Lexeme) :
    callees (.quoted name :: ls) = callees ls := rfl

@[simp] theorem callees_literal (value : Json) (ls : List Lexeme) :
    callees (.literal value :: ls) = callees ls := rfl

@[simp] theorem callees_number (n : Int) (ls : List Lexeme) :
    callees (.number n :: ls) = callees ls := rfl

theorem callees_leftParen (ls : List Lexeme) :
    callees (.symbol .leftParen :: ls) = (calleeIn 1 ls).toList ++ callees ls := rfl

@[simp] theorem callees_symbol {s : Symbol} (hs : s ≠ .leftParen) (ls : List Lexeme) :
    callees (.symbol s :: ls) = callees ls := by
  cases s <;> first
    | rfl
    | exact absurd rfl hs

theorem callees_withBound (b : Option Int) (ls : List Lexeme) :
    callees (withBound b ls) = callees ls := by
  cases b <;> rfl

theorem callees_sliceText (start stop : Option Int) (step : Option (Option Int))
    (rest : List Lexeme) : callees (sliceText start stop step rest) = callees rest := by
  cases step <;> simp [sliceText, callees_withBound]

theorem closes_zero_eq_false_iff {ls : List Lexeme} :
    closes 0 ls = false ↔ front ls ≠ .symbol .leftParen := by
  rcases ls with _ | ⟨_ | _ | _ | _ | s, ls⟩ <;> try simp [closes, Lexeme.kind]
  cases s <;> simp [closes]

@[simp] theorem closes_zero_symbol {s : Symbol} (hs : s ≠ .leftParen) (ls : List Lexeme) :
    closes 0 (.symbol s :: ls) = false := by
  cases s <;> first
    | rfl
    | exact absurd rfl hs

@[simp] theorem calleeBefore_of_fieldName? {k : Nat} {e : Expr} {ls : List Lexeme}
    (h : e.fieldName? = none) : calleeBefore k e ls = none := by
  simp [calleeBefore, h]

@[simp] theorem calleeBefore_of_closes {k : Nat} {e : Expr} {ls : List Lexeme}
    (h : closes k ls = false) : calleeBefore k e ls = none := by
  simp [calleeBefore, h]

/-! ### Where callees stand -/

theorem eq_append_of_closes {k : Nat} {ls : List Lexeme} (h : closes k ls = true) :
    ∃ rest, ls = List.replicate k (.symbol .rightParen) ++ .symbol .leftParen :: rest := by
  fun_induction closes k ls with
  | case1 rest => exact ⟨rest, rfl⟩
  | case2 k ls ih =>
    obtain ⟨rest, rfl⟩ := ih h
    exact ⟨rest, rfl⟩
  | case3 => simp at h

/-- An identifier in parentheses of its own, as many as are open already and some more. -/
theorem eq_append_of_calleeIn {k : Nat} {ls : List Lexeme} {name : String}
    (h : calleeIn k ls = some name) : ∃ (j : Nat) (id : Identifier) (rest : List Lexeme),
      ls = List.replicate j (.symbol .leftParen) ++ id.lexeme ::
        (List.replicate (j + k) (.symbol .rightParen) ++ .symbol .leftParen :: rest) ∧
      id.text = name ∧ (id.quoted = true → 0 < j + k) := by
  fun_induction calleeIn k ls with
  | case1 k ls ih =>
    obtain ⟨j, id, rest, rfl, hname, hquoted⟩ := ih h
    refine ⟨j + 1, id, rest, ?_, hname, fun _ => by omega⟩
    rw [Nat.add_assoc, Nat.add_comm 1 k]
    rfl
  | case2 k name' ls hcloses =>
    obtain ⟨rest, rfl⟩ := eq_append_of_closes hcloses
    obtain rfl := Option.some.inj h
    exact ⟨0, ⟨false, name'⟩, rest, by rw [Nat.zero_add]; rfl, rfl, fun h => by cases h⟩
  | case3 => simp at h
  | case4 k name' ls hcloses =>
    obtain ⟨rest, rfl⟩ := eq_append_of_closes hcloses
    obtain rfl := Option.some.inj h
    exact ⟨0, ⟨true, name'⟩, rest, by rw [Nat.zero_add]; rfl, rfl, fun _ => by omega⟩
  | case5 => simp at h
  | case6 => simp at h

/-- That an identifier stands among some lexemes **in parentheses of its own** directly in
front of another opening parenthesis; one with quotation marks stands in parentheses indeed. -/
def IsCallee (ls : List Lexeme) (name : String) : Prop :=
  ∃ (k : Nat) (id : Identifier), id.text = name ∧ (id.quoted = true → 0 < k) ∧
    List.replicate k (.symbol .leftParen) ++ id.lexeme ::
      (List.replicate k (.symbol .rightParen) ++ [.symbol .leftParen]) <:+: ls

theorem isCallee_of_mem_callees {ls : List Lexeme} {name : String} (h : name ∈ callees ls) :
    IsCallee ls name := by
  induction ls with
  | nil => simp at h
  | cons l ls ih =>
    rw [callees, List.mem_append, Option.mem_toList] at h
    rcases h with h | h
    · obtain ⟨j, id, rest, heq, hname, hquoted⟩ := eq_append_of_calleeIn h
      exact ⟨j, id, hname, hquoted, [], rest, by simp [heq]⟩
    · obtain ⟨k, id, hname, hquoted, hwithin⟩ := ih h
      exact ⟨k, id, hname, hquoted, hwithin.trans (List.infix_cons (List.infix_refl ls))⟩

/-- Behind the callee in parentheses, one is opened directly behind another that is closed. -/
theorem infix_of_calleeIn {k : Nat} {ls : List Lexeme} {name : String}
    (h : calleeIn (k + 1) ls = some name) :
    [.symbol .rightParen, .symbol .leftParen] <:+: ls := by
  obtain ⟨j, id, rest, rfl, -, -⟩ := eq_append_of_calleeIn h
  refine ⟨List.replicate j (.symbol .leftParen) ++ id.lexeme ::
    List.replicate (j + k) (.symbol .rightParen), rest, ?_⟩
  simp [← Nat.add_assoc, List.replicate_succ']

/-- Unless a parenthesis is opened directly behind another that is closed, all callees are
names directly in front of a parenthesis. -/
theorem callees_eq_directCallees {ls : List Lexeme}
    (h : ¬[.symbol .rightParen, .symbol .leftParen] <:+: ls) : callees ls = directCallees ls := by
  induction ls with
  | nil => rfl
  | cons l ls ih =>
    have ih := ih fun hwithin => h (hwithin.trans (List.infix_cons (List.infix_refl ls)))
    cases l with
    | name name =>
      rw [callees_name, directCallees, ih]
      by_cases hfront : front ls = .symbol .leftParen
      · have hcloses : closes 0 ls = true := by
          rw [← Bool.not_eq_false, closes_zero_eq_false_iff]
          exact not_not_intro hfront
        simp [calleeBefore, hcloses, hfront, Expr.fieldName?]
      · simp [calleeBefore_of_closes (closes_zero_eq_false_iff.mpr hfront), hfront]
    | symbol s =>
      rw [directCallees.eq_def]
      by_cases hs : s = .leftParen
      · subst hs
        have hnone : calleeIn 1 ls = none := by
          rw [Option.eq_none_iff_forall_ne_some]
          intro name hname
          exact h ((infix_of_calleeIn hname).trans (List.infix_cons (List.infix_refl ls)))
        rw [callees_leftParen, hnone]
        exact ih
      · rw [callees_symbol hs]
        exact ih
    | _ => exact ih

/-! ### Names in parentheses -/

/-- That a reading **finds the callee** in parentheses: what it yields is a field that is
called if and only if its lexemes start with a callee, and what a symbol makes of its left
side is no field. -/
def Reading.FindsCallee (r : Reading) : Prop :=
  match r.part with
  | .expression _ e | .operand e =>
    ∀ k, calleeIn (k + 1) r.before = calleeBefore (k + 1) e r.after
  | .climb _ left e =>
    ∀ k, calleeBefore (k + 1) left r.before = calleeBefore (k + 1) e r.after
  | .step _ _ e | .filtered _ e | .bracketed _ e => e.fieldName? = none
  | _ => True

theorem closes_of_power_pos {s : Symbol} (hs : 0 < s.power) (k : Nat) (ls : List Lexeme) :
    closes (k + 1) (.symbol s :: ls) = false := by
  cases s with
  | rightParen => exact absurd hs (Nat.lt_irrefl 0)
  | _ => rfl

theorem Derivable.findsCallee {r : Reading} (h : Derivable r) : r.FindsCallee := by
  induction h with
  | rule hr _ ih =>
    cases hr with
    | name | quoted | stop => exact fun k => rfl
    | expression =>
      rw [List.forall_mem_cons, List.forall_mem_singleton] at ih
      exact fun k => (ih.1 k).trans (ih.2 k)
    | group =>
      rw [List.forall_mem_singleton] at ih
      exact fun k => ih (k + 1)
    | filter | position =>
      rw [List.forall_mem_singleton] at ih
      exact fun k => (calleeBefore_of_fieldName? ih).symm
    | climb hp =>
      -- what the symbol makes of the operand is no field, and it stays none
      rw [List.forall_mem_cons, List.forall_mem_singleton] at ih
      intro k
      rw [calleeBefore_of_closes (closes_of_power_pos (Nat.zero_lt_of_lt hp) k _)]
      exact (calleeBefore_of_fieldName? ih.1).symm.trans (ih.2 k)
    | filterOf | positionOf =>
      rw [List.forall_mem_singleton] at ih
      exact ih
    | dot => exact Expr.fieldName?_dotted _ _
    | index => exact Expr.fieldName?_indexed _ _
    | literal | current | values | hash | flatten | not | reference | everyItem | list =>
      exact fun k => (calleeBefore_of_fieldName? rfl).symm
    | dotStar | pipe | or | and | compare | call | flattenOf | everyItemOf | filtered | slice => rfl
    | _ => trivial

/-! ### Callees of readings -/

/-- Behind what a symbol made of an operand, no call is opened. -/
theorem Derivable.closes_eq_false {L p : Nat} {left e : Expr} {ls rest : List Lexeme}
    (h : Derivable ⟨L, .climb p left e, ls, rest⟩) (hp : p < Symbol.leftParen.power)
    (hleft : left.fieldName? = none) : closes 0 ls = false := by
  rw [closes_zero_eq_false_iff]
  intro hfront
  obtain ⟨hr, hpremises⟩ := h
  cases hr with
  | stop hlow =>
    rw [hfront] at hlow
    exact Nat.not_lt.mpr hlow hp
  | climb =>
    obtain rfl := Token.Kind.symbol.inj hfront
    obtain ⟨hstep, -⟩ := hpremises _ List.mem_cons_self
    cases hstep with
    | call => simp [Expr.fieldName?] at hleft

/-- The parenthesis that opens the arguments of a call is not that of a callee. -/
theorem Derivable.calleeIn_arguments {L : Nat} {es : List Expr} {ls rest : List Lexeme}
    (h : Derivable ⟨L, .arguments es, ls, rest⟩) (hrest : closes 0 rest = false) :
    calleeIn 1 ls = none := by
  obtain ⟨hr, hpremises⟩ := h
  cases hr with
  | noArgument => rfl
  | lastArgument =>
    exact ((hpremises _ List.mem_cons_self).findsCallee 0).trans (calleeBefore_of_closes hrest)
  | argument =>
    exact ((hpremises _ List.mem_cons_self).findsCallee 0).trans (calleeBefore_of_closes rfl)

/-- The symbol that takes an operand as its left side is no callee. -/
theorem Derivable.callees_step {L : Nat} {s : Symbol} {left e : Expr} {ls rest : List Lexeme}
    (h : Derivable ⟨L, .step s left e, ls, rest⟩) (hrest : closes 0 rest = false) :
    callees (.symbol s :: ls) = callees ls := by
  by_cases hs : s = .leftParen
  · subst hs
    obtain ⟨hr, hpremises⟩ := h
    cases hr with
    | call =>
      rw [callees_leftParen, (hpremises _ List.mem_cons_self).calleeIn_arguments hrest]
      rfl
  · exact callees_symbol hs ls

open List (Perm)

/-- That a reading **keeps callees**: those of the lexemes in front of it and of the operand
on its left are together those of what it yields and of the lexemes behind it. An expression
of less power than a parenthesis does not end in front of one. -/
def Reading.KeepsCallees (r : Reading) : Prop :=
  match r.part with
  | .expression p e | .afterDot p e => p < Symbol.leftParen.power →
    Perm (callees r.before) (e.calledNames ++ callees r.after)
  | .operand e =>
    Perm (callees r.before)
      ((calleeBefore 0 e r.after).toList ++ (e.calledNames ++ callees r.after))
  | .climb _ left e =>
    Perm ((calleeBefore 0 left r.before).toList ++ (left.calledNames ++ callees r.before))
      ((calleeBefore 0 e r.after).toList ++ (e.calledNames ++ callees r.after))
  | .step s left e =>
    Perm ((calleeBefore 0 left (.symbol s :: r.before)).toList ++
        (left.calledNames ++ callees r.before))
      (e.calledNames ++ callees r.after)
  | .projected _ e => Perm (callees r.before) (e.calledNames ++ callees r.after)
  | .filtered left e | .bracketed left e =>
    Perm (left.calledNames ++ callees r.before) (e.calledNames ++ callees r.after)
  | .items es | .arguments es =>
    Perm (callees r.before) (es.flatMap Expr.calledNames ++ callees r.after)
  | .entries es =>
    Perm (callees r.before) ((es.map Prod.snd).flatMap Expr.calledNames ++ callees r.after)

theorem Form.power_lt (form : Form) : form.power < Symbol.leftParen.power := by
  cases form <;> decide

theorem lt_of_lt_power {s : Symbol} {p : Nat} (h : p < s.power) : p < Symbol.leftParen.power :=
  Nat.lt_of_lt_of_le h (by cases s <;> first | decide | exact Nat.le_add_left 5 55)

theorem Derivable.keepsCallees {r : Reading} (h : Derivable r) : r.KeepsCallees := by
  induction h with
  | @rule r _ hr hpremises ih =>
    cases hr with
    | literal | name | current | stop | unprojected | noArgument | index =>
      simp [Reading.KeepsCallees, calleeBefore, Expr.fieldName?]
    | quoted h =>
      have hrest := closes_zero_eq_false_iff.mpr h
      simp [Reading.KeepsCallees, hrest]
    | @expression L p left e ls mid rest =>
      rw [List.forall_mem_cons, List.forall_mem_singleton] at ih
      obtain ⟨hleft, hclimb⟩ := List.forall_mem_cons.mp hpremises
      intro hp
      have hrest : closes 0 rest = false := by
        rw [closes_zero_eq_false_iff]
        intro hfront
        have hlow := (Rule.expression.derivable_pair hleft
          (List.forall_mem_singleton.mp hclimb)).power_front_le
        rw [hfront] at hlow
        exact Nat.not_lt.mpr hlow hp
      have hall := ih.1.trans ih.2
      simpa only [calleeBefore_of_closes hrest, Option.toList_none, List.nil_append] using hall
    | @climb L p s left larger e ls mid rest hp =>
      rw [List.forall_mem_cons, List.forall_mem_singleton] at ih
      rw [List.forall_mem_cons, List.forall_mem_singleton] at hpremises
      obtain ⟨hstep, hmore⟩ := hpremises
      have hlarger : larger.fieldName? = none := hstep.findsCallee
      have hmid := hmore.closes_eq_false (lt_of_lt_power hp) hlarger
      rw [Reading.KeepsCallees, hstep.callees_step hmid]
      refine ih.1.trans ?_
      simpa [Reading.KeepsCallees, hlarger] using ih.2
    | @filtered L left right condition ls mid rest =>
      -- the condition is read before the right side, and comes behind it among the nodes
      rw [List.forall_mem_cons, List.forall_mem_singleton] at ih
      have hcondition : Perm (callees ls) (condition.calledNames ++ callees mid) :=
        ih.1 (by decide)
      have hright : Perm (callees mid) (right.calledNames ++ callees rest) := ih.2
      have hboth := hcondition.trans (hright.append_left condition.calledNames)
      simpa [Reading.KeepsCallees, List.perm_append_left_iff] using
        hboth.trans (List.perm_append_comm_assoc ..)
    | item | argument =>
      rw [List.forall_mem_cons, List.forall_mem_singleton] at ih
      have hall := (ih.1 (by decide)).trans (ih.2.append_left _)
      simpa [Reading.KeepsCallees] using hall
    | lastEntry hk =>
      rw [List.forall_mem_singleton] at ih
      have ih := ih (by decide)
      rcases hk with rfl | rfl <;> simpa [Reading.KeepsCallees] using ih
    | entry hk =>
      rw [List.forall_mem_cons, List.forall_mem_singleton] at ih
      have hall := (ih.1 (by decide)).trans (ih.2.append_left _)
      rcases hk with rfl | rfl <;> simpa [Reading.KeepsCallees] using hall
    | call =>
      rw [List.forall_mem_singleton] at ih
      simp only [Reading.KeepsCallees] at ih
      simpa [Reading.KeepsCallees, calleeBefore, closes, Expr.fieldName?] using ih
    | @group L e ls rest =>
      rw [List.forall_mem_singleton] at ih hpremises
      have hcallee : calleeIn 1 ls = calleeBefore 0 e rest := hpremises.findsCallee 0
      have ih := ih (by decide)
      rw [Reading.KeepsCallees, callees_leftParen, hcallee]
      simpa [List.perm_append_left_iff] using ih
    | projectedBracket | projectedFilter | projectedDot =>
      rw [List.forall_mem_singleton] at ih
      exact ih (Form.power_lt _)
    | afterDot =>
      rw [List.forall_mem_singleton] at ih
      exact ih
    | not | reference | pipe | or | and | compare | dot | lastItem | lastArgument =>
      rw [List.forall_mem_singleton] at ih
      have ih := ih (Nat.lt_of_sub_pos (Nat.zero_lt_succ _))
      simpa [Reading.KeepsCallees, calleeBefore, Expr.fieldName?, List.perm_append_left_iff] using ih
    | slice =>
      rw [List.forall_mem_singleton] at ih
      simp only [Reading.KeepsCallees] at ih
      simpa [Reading.KeepsCallees, callees_sliceText, List.perm_append_left_iff] using ih
    | listAfterDot | hashAfterDot =>
      rw [List.forall_mem_singleton] at ih
      simp only [Reading.KeepsCallees] at ih
      simpa [Reading.KeepsCallees] using fun _ => ih
    | filter | position =>
      rw [List.forall_mem_singleton] at ih hpremises
      have hcallee : Expr.fieldName? _ = none := hpremises.findsCallee
      simpa [Reading.KeepsCallees, hcallee] using ih
    | _ =>
      rw [List.forall_mem_singleton] at ih
      simp only [Reading.KeepsCallees] at ih
      simpa [Reading.KeepsCallees, calleeBefore, Expr.fieldName?, List.perm_append_left_iff] using ih

end Grammar

namespace Query

open Grammar (lexemes callees directCallees IsCallee)
open Scan (Splits)

/-- The functions that a query calls are the callees of its text. -/
theorem calledNames_perm {text : String} {q : Query} (h : compile text = .ok q) :
    q.expr.calledNames.Perm (callees (lexemes (Scan.ofChars text.toList).tokens)) := by
  obtain ⟨rfl, hd⟩ := derivable_reading h
  have hkeeps := hd.keepsCallees (by decide)
  simpa [reading] using hkeeps.symm

/-- **What a query calls**: for each of its calls there is an identifier of that name in its
text, in parentheses of its own or in none, directly in front of an opening parenthesis. As
long as no parenthesis is opened directly behind another one that is closed, these are the
names directly in front of a parenthesis. -/
theorem callees_of_compile {text : String} {q : Query} (h : compile text = .ok q) :
    q.expr.calledNames.Perm (callees (lexemes (Scan.ofChars text.toList).tokens)) ∧
      (∀ name ∈ q.expr.calledNames,
        IsCallee (lexemes (Scan.ofChars text.toList).tokens) name) ∧
      (¬[.symbol .rightParen, .symbol .leftParen] <:+: lexemes (Scan.ofChars text.toList).tokens →
        q.expr.calledNames.Perm (directCallees (lexemes (Scan.ofChars text.toList).tokens))) := by
  have hperm := calledNames_perm h
  refine ⟨hperm, fun name hname => ?_, fun hwithin => ?_⟩
  · exact Grammar.isCallee_of_mem_callees (hperm.mem_iff.mp hname)
  · rwa [← Grammar.callees_eq_directCallees hwithin]

theorem splits_keys : Splits "sort((keys)(@))".toList
    [.name "sort", .symbol .leftParen, .symbol .leftParen, .name "keys", .symbol .rightParen,
      .symbol .leftParen, .symbol .current, .symbol .rightParen, .symbol .rightParen] := by
  have hchars : "sort((keys)(@))".toList =
      ['s', 'o', 'r', 't', '(', '(', 'k', 'e', 'y', 's', ')', '(', '@', ')', ')'] := by decide
  rw [hchars]
  exact .lexeme rfl rfl <| .lexeme rfl rfl <| .lexeme rfl rfl <| .lexeme rfl rfl <|
    .lexeme rfl rfl <| .lexeme rfl rfl <| .lexeme rfl rfl <| .lexeme rfl rfl <|
    .lexeme rfl rfl .nil

theorem splits_type : Splits "type(@)".toList
    [.name "type", .symbol .leftParen, .symbol .current, .symbol .rightParen] := by
  have hchars : "type(@)".toList = ['t', 'y', 'p', 'e', '(', '@', ')'] := by decide
  rw [hchars]
  exact .lexeme rfl rfl <| .lexeme rfl rfl <| .lexeme rfl rfl <| .lexeme rfl rfl .nil

/-- A call by a name in parentheses inside of another call, and a call alone. -/
theorem callees_of_keys :
    (∃ q, compile "sort((keys)(@))" = .ok q ∧ q.expr.calledNames.Perm ["sort", "keys"]) ∧
      ∃ q, compile "type(@)" = .ok q ∧ q.expr.calledNames.Perm ["type"] := by
  obtain ⟨q, hq⟩ := exists_of_isOk
    (show (compile "sort((keys)(@))").isOk = true by decide +kernel)
  obtain ⟨r, hr⟩ := exists_of_isOk (show (compile "type(@)").isOk = true by decide +kernel)
  have hcallees := (callees_of_compile hq).1
  have hdirect := (callees_of_compile hr).2.2
  rw [Scan.lexemes_tokens_of_splits splits_keys] at hcallees
  rw [Scan.lexemes_tokens_of_splits splits_type] at hdirect
  exact ⟨⟨q, hq, hcallees⟩, r, hr, hdirect (by simp [List.infix_cons_iff])⟩

theorem splits_quotedCallee : Splits "(\"length\")(@)".toList
    [.symbol .leftParen, .quoted "length", .symbol .rightParen, .symbol .leftParen,
      .symbol .current, .symbol .rightParen] := by
  have hchars : "(\"length\")(@)".toList =
      ['(', '"', 'l', 'e', 'n', 'g', 't', 'h', '"', ')', '(', '@', ')'] := by decide
  have hescape : "length".toList.flatMap Json.escape = ['l', 'e', 'n', 'g', 't', 'h'] := by decide
  have hquoted := Scan.quotedName_escape "length" [')', '(', '@', ')']
  rw [hescape] at hquoted
  rw [hchars]
  exact .lexeme rfl rfl <| .lexeme rfl hquoted <| .lexeme rfl rfl <| .lexeme rfl rfl <|
    .lexeme rfl rfl <| .lexeme rfl rfl .nil

/-- **Not every call is by a name directly in front of a parenthesis**: a name with quotation
marks can be called in parentheses. -/
theorem not_called_directly : ¬∀ {text : String} {q : Query}, compile text = .ok q →
    ∀ name ∈ q.expr.calledNames,
      [.name name, .symbol .leftParen] <:+: lexemes (Scan.ofChars text.toList).tokens := by
  intro h
  obtain ⟨q, hq⟩ := exists_of_isOk
    (show (compile "(\"length\")(@)").isOk = true by decide +kernel)
  have hperm := calledNames_perm hq
  have hdirect := h hq
  rw [Scan.lexemes_tokens_of_splits splits_quotedCallee] at hperm hdirect
  have hname : "length" ∈ q.expr.calledNames := hperm.mem_iff.mpr (List.mem_singleton_self _)
  exact absurd (hdirect _ hname) (by simp [List.infix_cons_iff])

end Query

end JsonQuery
