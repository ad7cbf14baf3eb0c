import JsonQuery.Proofs.Compilation
import JsonQuery.Proofs.Nodes
import JsonQuery.Proofs.Uniformity
import JsonQuery.Proofs.Relaying
import JsonQuery.Proofs.Slicing
import JsonQuery.Proofs.TokenSpans
import JsonQuery.Query.Search

/-!
# Where faults come from

Compiling and searching fail in different ways. A text that does not compile is blank, or it
has a fault **in the text** (`JsonQuery.Fault.IsInText`): at one of its characters, or at its
end. A query that fails on a value has a fault that **arises in** its expression
(`JsonQuery.Fault.ArisesIn`): somewhere in it there is a slice that does not move, a call of
a function that the table does not have, or a call of the function that complains. There is
one other way for it to end without a value: a slice in it may **overflow**
(`JsonQuery.Fault.OverflowsIn`), if its step is so long that words do not reach from an item
to where it leads.

In the second half it must not matter how a fault got from the place where it arose to the
top. Most of the way it is handed on by expressions, from what they are made of. But a fault
may also come out of a function that was given a reference, and then it arises in the body of
the reference, which is an argument of the call and so a node of the expression as well. The
condition on the functions of the table is that they relay such faults as they are. The step
of the induction (`JsonQuery.Expr.failsBy_evaluate_of_children`) therefore asks for two
things, about the children of an expression and about the bodies of those children that are
references.
-/

namespace JsonQuery

/-! ### Faults of an evaluation -/

/-- That a fault **arises in** an expression that is evaluated with a table. -/
def Fault.ArisesIn (table : Registry) (e : Expr) : Fault → Prop
  | call name _ => (table.get? name).isSome = true ∧ ∃ args, .call name args ∈ e.nodes
  | unknownFunction name => table.get? name = none ∧ ∃ args, .call name args ∈ e.nodes
  | zeroStep => ∃ start stop, .slice start stop (some 0) ∈ e.nodes
  | badToken .. | badSyntax .. | unfinished _ | overflow .. => False

/-- That a fault is the **overflow of a slice in** an expression: from a place of an array its
step, which is more than one place, leads to where words do not reach. -/
def Fault.OverflowsIn (e : Expr) : Fault → Prop
  | overflow place step => 0 ≤ place ∧ 1 < step ∧ Number.fitsSigned (place + step) = false ∧
      ∃ start stop, .slice start stop (some step) ∈ e.nodes
  | _ => False

/-- That a fault **comes from** an expression, in one of the two ways. -/
def Fault.ComesFrom (table : Registry) (e : Expr) (f : Fault) : Prop :=
  f.ArisesIn table e ∨ f.OverflowsIn e

theorem Fault.ArisesIn.of_mem_nodes {table : Registry} {c e : Expr} {f : Fault}
    (h : f.ArisesIn table c) (hnodes : ∀ x ∈ c.nodes, x ∈ e.nodes) : f.ArisesIn table e := by
  cases f with
  | call name complaint =>
    obtain ⟨hsome, args, hargs⟩ := h
    exact ⟨hsome, args, hnodes _ hargs⟩
  | unknownFunction name =>
    obtain ⟨hnone, args, hargs⟩ := h
    exact ⟨hnone, args, hnodes _ hargs⟩
  | zeroStep =>
    obtain ⟨start, stop, hslice⟩ := h
    exact ⟨start, stop, hnodes _ hslice⟩
  | badToken | badSyntax | unfinished | overflow => exact h

theorem Fault.OverflowsIn.of_mem_nodes {c e : Expr} {f : Fault} (h : f.OverflowsIn c)
    (hnodes : ∀ x ∈ c.nodes, x ∈ e.nodes) : f.OverflowsIn e := by
  cases f with
  | overflow place step =>
    obtain ⟨hplace, hstep, hword, start, stop, hslice⟩ := h
    exact ⟨hplace, hstep, hword, start, stop, hnodes _ hslice⟩
  | _ => exact h

theorem Fault.OverflowsIn.exists_eq {e : Expr} {f : Fault} (h : f.OverflowsIn e) :
    ∃ place step, f = .overflow place step := by
  cases f with
  | overflow place step => exact ⟨place, step, rfl⟩
  | _ => exact h.elim

theorem Fault.ComesFrom.of_mem_nodes {table : Registry} {c e : Expr} {f : Fault}
    (h : f.ComesFrom table c) (hnodes : ∀ x ∈ c.nodes, x ∈ e.nodes) : f.ComesFrom table e :=
  h.imp (fun h => h.of_mem_nodes hnodes) fun h => h.of_mem_nodes hnodes

namespace Registry

/-- That all functions of a table relay. -/
def Relays (table : Registry) : Prop :=
  ∀ f ∈ table.functions, f.Relays

/-- That a table is made of standard functions and functions that open payloads. -/
def IsOfLibrary (table : Registry) : Prop :=
  ∀ f ∈ table.functions, f ∈ Library.standardFunctions ++ Library.payload

theorem IsOfLibrary.relays {table : Registry} (h : table.IsOfLibrary) : table.Relays :=
  fun f hf => Library.relays_of_mem (h f hf)

theorem IsOfLibrary.registerAll {table : Registry} (h : table.IsOfLibrary) {fs : List Function}
    (hfs : ∀ f ∈ fs, f ∈ Library.standardFunctions ++ Library.payload) :
    (table.registerAll fs).IsOfLibrary := by
  induction fs generalizing table with
  | nil => exact h
  | cons f fs ih =>
    obtain ⟨hfirst, hrest⟩ := List.forall_mem_cons.mp hfs
    have hregister : (table.register f).IsOfLibrary := by
      intro g hg
      rcases List.mem_append.mp hg with hg | hg
      · exact h g (List.mem_filter.mp hg).1
      · rw [List.mem_singleton.mp hg]
        exact hfirst
    exact ih hregister hrest

theorem isOfLibrary_standard : standard.IsOfLibrary :=
  IsOfLibrary.registerAll (fun _ hf => absurd hf List.not_mem_nil) fun _ hf =>
    List.mem_append_left _ hf

theorem isOfLibrary_withPayload : withPayload.IsOfLibrary :=
  isOfLibrary_standard.registerAll fun _ hf => List.mem_append_right _ hf

end Registry

namespace Expr

section Parts

variable {P : Fault → Prop} {table : Registry}

theorem failsBy_gather {right : Json → Except Fault Json} (h : ∀ v, FailsBy P (right v))
    (vs : List Json) : FailsBy P (gather right vs) :=
  (failsBy_mapM fun v _ => h v).bind fun _ _ => failsBy_pure _

theorem failsBy_keep {condition : Json → Except Fault Json} (h : ∀ v, FailsBy P (condition v))
    (vs : List Json) : FailsBy P (keep condition vs) := by
  induction vs with
  | nil => exact failsBy_pure []
  | cons v vs ih => exact (h v).bind fun _ _ => ih.bind fun _ _ => failsBy_pure _

section Lists

variable {es : List Expr}

theorem failsBy_evaluateSteps (h : ∀ e ∈ es, ∀ v, FailsBy P (evaluate table e v)) (v : Json) :
    FailsBy P (evaluateSteps table es v) := by
  induction es generalizing v with
  | nil => exact failsBy_pure v
  | cons e es ih =>
    obtain ⟨hfirst, hrest⟩ := List.forall_mem_cons.mp h
    exact (hfirst v).bind fun w _ => ih hrest w

theorem failsBy_evaluateAll (h : ∀ e ∈ es, ∀ v, FailsBy P (evaluate table e v)) (v : Json) :
    FailsBy P (evaluateAll table es v) := by
  induction es with
  | nil => exact failsBy_pure []
  | cons e es ih =>
    obtain ⟨hfirst, hrest⟩ := List.forall_mem_cons.mp h
    exact (hfirst v).bind fun _ _ => (ih hrest).bind fun _ _ => failsBy_pure _

theorem failsBy_evaluateArguments (h : ∀ e ∈ es, ∀ v, FailsBy P (evaluate table e v)) (v : Json) :
    FailsBy P (evaluateArguments table es v) := by
  induction es with
  | nil => exact failsBy_pure []
  | cons e es ih =>
    obtain ⟨hfirst, hrest⟩ := List.forall_mem_cons.mp h
    unfold evaluateArguments
    split
    · exact failsBy_pure []
    · next heq =>
      obtain ⟨rfl, rfl⟩ := List.cons.inj heq
      exact (ih hrest).bind fun _ _ => failsBy_pure _
    · next heq =>
      obtain ⟨rfl, rfl⟩ := List.cons.inj heq
      exact (hfirst _).bind fun _ _ => (ih hrest).bind fun _ _ => failsBy_pure _

/-- A reference that a function is given is what one of the written ones evaluates to. -/
theorem exists_of_mem_evaluateArguments {args : List Argument} {r : Reference} {v : Json}
    (h : evaluateArguments table es v = .ok args) (hr : .reference r ∈ args) :
    ∃ body, reference body ∈ es ∧ r = ⟨body, evaluate table body⟩ := by
  induction es generalizing args with
  | nil =>
    obtain rfl := Except.ok.inj h
    exact absurd hr List.not_mem_nil
  | cons e es ih =>
    unfold evaluateArguments at h
    split at h
    · obtain rfl := Except.ok.inj h
      exact absurd hr List.not_mem_nil
    · next body rest heq =>
      obtain ⟨rfl, rfl⟩ := List.cons.inj heq
      obtain ⟨others, hothers, hargs⟩ := Grammar.bind_eq_ok_iff.mp h
      obtain rfl := Except.ok.inj hargs
      rcases List.mem_cons.mp hr with heq | hr
      · exact ⟨body, List.mem_cons_self, Argument.reference.inj heq⟩
      · obtain ⟨body', hbody', hr'⟩ := ih hothers hr
        exact ⟨body', List.mem_cons_of_mem _ hbody', hr'⟩
    · next heq =>
      obtain ⟨rfl, rfl⟩ := List.cons.inj heq
      obtain ⟨first, -, hargs⟩ := Grammar.bind_eq_ok_iff.mp h
      obtain ⟨others, hothers, hargs⟩ := Grammar.bind_eq_ok_iff.mp hargs
      obtain rfl := Except.ok.inj hargs
      rcases List.mem_cons.mp hr with heq | hr
      · exact absurd heq (by simp)
      · obtain ⟨body', hbody', hr'⟩ := ih hothers hr
        exact ⟨body', List.mem_cons_of_mem _ hbody', hr'⟩

end Lists

theorem failsBy_evaluateEntries {entries : List (String × Expr)}
    (h : ∀ e ∈ entries.map Prod.snd, ∀ v, FailsBy P (evaluate table e v)) (v : Json) :
    FailsBy P (evaluateEntries table entries v) := by
  induction entries with
  | nil => exact failsBy_pure []
  | cons entry entries ih =>
    obtain ⟨key, e⟩ := entry
    obtain ⟨hfirst, hrest⟩ := List.forall_mem_cons.mp h
    exact (hfirst v).bind fun _ _ => (ih hrest).bind fun _ _ => failsBy_pure _

end Parts

/-- **A slice** goes wrong only if its step is given, and is zero or leads too far. -/
theorem failsBy_sliceOf {table : Registry} {e : Expr} {start stop step : Option Int}
    (hslice : slice start stop step ∈ e.nodes) (v : Json) :
    FailsBy (Fault.ComesFrom table e) (sliceOf start stop step v) := by
  have hgiven {n : Int} (hn : n ≠ 1) (h : step.getD 1 = n) : step = some n :=
    (Option.getD_eq_iff.mp h).resolve_right fun hnone => hn hnone.2.symm
  unfold sliceOf
  split
  · next items =>
    by_cases hstep : step.getD 1 = 0
    · simp only [if_pos hstep]
      obtain rfl := hgiven (by decide) hstep
      exact failsBy_error (Or.inl ⟨start, stop, hslice⟩)
    · simp only [if_neg hstep]
      cases hover : Positions.overflow? items.length start stop (step.getD 1) with
      | none => exact failsBy_pure _
      | some place =>
        obtain ⟨⟨hplace, -⟩, hlong, hword⟩ := Positions.of_overflow?_eq_some hstep hover
        rw [hgiven (by omega) rfl] at hslice
        exact failsBy_error (Or.inr ⟨hplace, hlong, hword, start, stop, hslice⟩)
  · exact failsBy_pure _

theorem forall_mem_pair {l r : Expr} {p : Expr → Prop} : (∀ c ∈ [l, r], p c) ↔ p l ∧ p r := by
  rw [List.forall_mem_cons, List.forall_mem_singleton]

section Step

variable {table : Registry} {e : Expr}

/-- A call whose arguments are known: the function is missing, or it complains, or it relays
what a reference yields. -/
theorem failsBy_callIn (htable : table.Relays) {name : String} {es : List Expr}
    (hcall : call name es ∈ e.nodes) {args : List Argument}
    (hargs : ∀ r, .reference r ∈ args → ∀ v,
      FailsBy (Fault.ComesFrom table e) (r.evaluate v)) :
    FailsBy (Fault.ComesFrom table e) (callIn table name args) := by
  rw [callIn]
  cases hget : table.get? name with
  | none => exact failsBy_error (Or.inl ⟨hget, es, hcall⟩)
  | some function =>
    have hrelays := htable function (List.mem_of_find?_eq_some hget) args
    simp only
    cases hinvoke : function.invoke args with
    | ok w => exact failsBy_pure w
    | error failure =>
      refine failsBy_error ?_
      cases failure with
      | complaint c => exact Or.inl ⟨by rw [hget]; rfl, es, hcall⟩
      | evaluation f =>
        obtain ⟨r, hr, v, hv⟩ := hrelays (.evaluation f) hinvoke
        exact hargs r hr v f hv

/-- **One expression**: what goes wrong in it comes from it, if that is so for its children
and for the bodies of the references among them. -/
theorem failsBy_evaluate_of_children (htable : table.Relays)
    (hchildren : ∀ c ∈ e.children, ∀ v, FailsBy (Fault.ComesFrom table e) (evaluate table c v))
    (hbodies : ∀ body, reference body ∈ e.children → ∀ v,
      FailsBy (Fault.ComesFrom table e) (evaluate table body v))
    (v : Json) : FailsBy (Fault.ComesFrom table e) (evaluate table e v) := by
  have hself : e ∈ e.nodes := mem_nodes_self e
  cases e with
  | identity | current | field | literal | index | reference => exact failsBy_pure _
  | path steps | indexing steps => exact failsBy_evaluateSteps hchildren v
  | slice start stop step => exact failsBy_sliceOf hself v
  | pipe l r =>
    obtain ⟨hl, hr⟩ := forall_mem_pair.mp hchildren
    exact (hl v).bind fun w _ => hr w
  | compare op l r =>
    obtain ⟨hl, hr⟩ := forall_mem_pair.mp hchildren
    exact (hl v).bind fun _ _ => (hr v).bind fun _ _ => failsBy_pure _
  | or l r =>
    obtain ⟨hl, hr⟩ := forall_mem_pair.mp hchildren
    refine (hl v).bind fun w _ => ?_
    split
    · exact failsBy_pure w
    · exact hr v
  | and l r =>
    obtain ⟨hl, hr⟩ := forall_mem_pair.mp hchildren
    refine (hl v).bind fun w _ => ?_
    split
    · exact hr v
    · exact failsBy_pure w
  | not body =>
    exact (hchildren body List.mem_cons_self v).bind fun _ _ => failsBy_pure _
  | flatten body =>
    refine (hchildren body List.mem_cons_self v).bind fun w _ => ?_
    split
    · exact failsBy_pure _
    · exact failsBy_pure _
  | project l r =>
    obtain ⟨hl, hr⟩ := forall_mem_pair.mp hchildren
    refine (hl v).bind fun w _ => ?_
    split
    · exact failsBy_gather hr _
    · exact failsBy_pure _
  | projectValues l r =>
    obtain ⟨hl, hr⟩ := forall_mem_pair.mp hchildren
    refine (hl v).bind fun w _ => ?_
    split
    · exact failsBy_gather hr _
    · exact failsBy_pure _
  | projectWhere l r c =>
    obtain ⟨hl, hrest⟩ := List.forall_mem_cons.mp hchildren
    obtain ⟨hr, hc⟩ := forall_mem_pair.mp hrest
    refine (hl v).bind fun w _ => ?_
    split
    · exact (failsBy_keep hc _).bind fun kept _ => failsBy_gather hr kept
    · exact failsBy_pure _
  | list items =>
    rw [evaluate]
    split
    · exact failsBy_pure _
    · exact (failsBy_evaluateAll hchildren v).bind fun _ _ => failsBy_pure _
  | hash entries =>
    rw [evaluate]
    split
    · exact failsBy_pure _
    · exact (failsBy_evaluateEntries hchildren v).bind fun _ _ => failsBy_pure _
  | call name es =>
    refine (failsBy_evaluateArguments hchildren v).bind fun args hargs => ?_
    refine failsBy_callIn htable hself fun r hr w => ?_
    obtain ⟨body, hbody, rfl⟩ := exists_of_mem_evaluateArguments hargs hr
    exact hbodies body hbody w

end Step

/-- **What goes wrong in the evaluation of a node comes from the expression.** -/
theorem failsBy_evaluate_of_mem_nodes {table : Registry} (htable : table.Relays) (e : Expr) :
    ∀ x ∈ e.nodes, ∀ v, FailsBy (Fault.ComesFrom table e) (evaluate table x v) := by
  induction e using children_induction with
  | h e ih =>
    have hbelow : ∀ c ∈ e.children, ∀ x ∈ c.nodes, ∀ v,
        FailsBy (Fault.ComesFrom table e) (evaluate table x v) := fun c hc x hx v =>
      (ih c hc x hx v).mono fun f hf =>
        hf.of_mem_nodes fun y hy => mem_nodes_of_mem_children hc hy
    intro x hx
    rcases mem_nodes_iff.mp hx with rfl | ⟨c, hc, hx⟩
    · refine failsBy_evaluate_of_children htable (fun c hc => hbelow c hc c (mem_nodes_self c)) ?_
      intro body hbody
      exact hbelow _ hbody body (mem_nodes_of_mem_children List.mem_cons_self (mem_nodes_self body))
    · exact hbelow c hc x hx

end Expr

/-! ### Faults of a text -/

/-- That a fault is **in a text** of some length: at a character, or at the end. -/
def Fault.IsInText (length : Nat) : Fault → Prop
  | badToken position _ => position < length
  | badSyntax position .. => position < length
  | unfinished position => position = length
  | call .. | unknownFunction _ | zeroStep | overflow .. => False

namespace Query

theorem isInText_of_exprOfScan {cs : List Char} {f : Fault}
    (h : exprOfScan (Scan.ofChars cs) = .error f) : f.IsInText cs.length := by
  have hcovers := Scan.covers_ofChars cs
  have hle := hcovers.ending_position_le
  have hending := hcovers.ending
  rw [exprOfScan] at h
  split at h
  · next position shown hfailed =>
    obtain rfl := Except.error.inj h
    rw [hfailed] at hending
    obtain ⟨c, hc, -⟩ := hending
    exact (List.getElem?_eq_some_iff.mp hc).1
  · next length hfinished =>
    rw [hfinished] at hending
    obtain rfl : length = cs.length := hending
    split at h
    · exact absurd h (by simp)
    · next r hr =>
      obtain rfl := Except.error.inj h
      have habout := Grammar.isAbout_of_ofTokens hr
      cases r with
      | ended => rfl
      | token position shown kind reason =>
        obtain ⟨t, ht, rfl⟩ := habout
        have hstop := hcovers.stop_le t ht
        exact Nat.lt_of_lt_of_le (hcovers.start_lt_stop t ht) (Nat.le_trans hstop hle)

/-- A text is **empty** for the reader if all of it is blank, and only then. -/
theorem compile_eq_emptyExpression_iff {text : String} :
    compile text = .error .emptyExpression ↔ text.toList.all Text.isBlank = true := by
  refine ⟨fun h => ?_, fun h => ?_⟩
  · refine Decidable.byContradiction fun hblank => ?_
    rw [compile, scan, if_neg hblank] at h
    simp only [bind, Except.bind] at h
    split at h
    · exact absurd h (by simp [pure, Except.pure])
    · exact absurd (Except.error.inj h) (by simp)
  · rw [compile, scan, if_pos h]
    rfl

/-- A text that does not compile is blank, or it has a fault that is in the text. -/
theorem fault_of_compile {text : String} {err : Error} (h : compile text = .error err) :
    err = .emptyExpression ∨ ∃ f, err = .fault f (some text) ∧ f.IsInText text.length := by
  by_cases hblank : text.toList.all Text.isBlank = true
  · left
    rw [compile_eq_emptyExpression_iff.mpr hblank] at h
    exact (Except.error.inj h).symm
  · right
    rw [compile, scan, if_neg hblank] at h
    simp only [bind, Except.bind] at h
    split at h
    · exact absurd h (by simp [pure, Except.pure])
    · next f hf =>
      obtain rfl := Except.error.inj h
      refine ⟨f, rfl, ?_⟩
      rw [← String.length_toList]
      exact isInText_of_exprOfScan hf

/-- A query that fails on a value has a fault that comes from its expression. -/
theorem fault_of_search {table : Registry} (htable : table.Relays) {q : Query} {v : Json}
    {err : Error} (h : q.search table v = .error err) :
    ∃ f, err = .fault f (some q.text) ∧ f.ComesFrom table q.expr := by
  rw [search] at h
  split at h
  · exact absurd h (by simp)
  · next f hf =>
    obtain rfl := Except.error.inj h
    have hself : q.expr ∈ q.expr.nodes := Expr.mem_nodes_self q.expr
    exact ⟨f, rfl, Expr.failsBy_evaluate_of_mem_nodes htable q.expr q.expr hself v f hf⟩

/-- **Errors tell where they come from.** A text is refused as empty if all of it is blank,
and otherwise for a fault that is in the text. What makes its query fail on a value is a fault
that arises in its expression, among functions of the library, or the overflow of a slice in
it. All faults are reported with the text. -/
theorem error_origins {table : Registry} (htable : table.IsOfLibrary) (text : String) :
    (compile text = .error .emptyExpression ↔ text.toList.all Text.isBlank = true) ∧
      (∀ err, compile text = .error err → err = .emptyExpression ∨
        ∃ f, err = .fault f (some text) ∧ f.IsInText text.length) ∧
      ∀ q v err, compile text = .ok q → q.search table v = .error err →
        ∃ f, err = .fault f (some text) ∧ (f.ArisesIn table q.expr ∨ f.OverflowsIn q.expr) := by
  refine ⟨compile_eq_emptyExpression_iff, fun _ => fault_of_compile, ?_⟩
  intro q v err hcompile hsearch
  obtain ⟨rfl, -⟩ := derivable_of_compile hcompile
  exact fault_of_search htable.relays hsearch

/-- A function complains in a reference that is inside another reference; the error names
that function and none of those around it. -/
theorem error_origin_in_references :
    Registry.withPayload.IsOfLibrary ∧
      ∃ q err f, compile "map(&sort_by(@, &abs(k)), @)" = .ok q ∧
        q.search .withPayload (.array [.array [.object [("k", .string "x")]]]) = .error err ∧
        err.message = "Invalid argument type for function abs(), expected \"number\" " ++
          "but found \"string\" in expression: map(&sort_by(@, &abs(k)), @)" ∧
        err = .fault f (some "map(&sort_by(@, &abs(k)), @)") ∧ f.ArisesIn .withPayload q.expr := by
  obtain ⟨-, -, hsearches⟩ :=
    error_origins Registry.isOfLibrary_withPayload "map(&sort_by(@, &abs(k)), @)"
  obtain ⟨q, hq⟩ : ∃ q, compile "map(&sort_by(@, &abs(k)), @)" = .ok q :=
    exists_of_isOk (by decide +kernel)
  have hmessage : (match run .withPayload "map(&sort_by(@, &abs(k)), @)"
        (.array [.array [.object [("k", .string "x")]]]) with
      | .ok _ => ""
      | .error err => err.message) =
      "Invalid argument type for function abs(), expected \"number\" " ++
        "but found \"string\" in expression: map(&sort_by(@, &abs(k)), @)" := by decide +kernel
  rw [run, hq] at hmessage
  simp only [bind, Except.bind] at hmessage
  cases hsearch : q.search .withPayload (.array [.array [.object [("k", .string "x")]]]) with
  | ok w =>
    rw [hsearch] at hmessage
    exact absurd hmessage (by simp)
  | error err =>
    rw [hsearch] at hmessage
    obtain ⟨f, herr, hf⟩ := hsearches q _ err hq hsearch
    refine ⟨Registry.isOfLibrary_withPayload, q, err, f, hq, hsearch, hmessage, herr, ?_⟩
    refine hf.resolve_right fun hover => ?_
    -- no overflow has this message, whatever its place and its step are
    obtain ⟨place, step, rfl⟩ := hover.exists_eq
    rw [herr] at hmessage
    have hother : (Error.fault (.overflow 0 0) (some "map(&sort_by(@, &abs(k)), @)")).message ≠
        "Invalid argument type for function abs(), expected \"number\" " ++
          "but found \"string\" in expression: map(&sort_by(@, &abs(k)), @)" := by decide +kernel
    exact hother hmessage

/-- **Not all that goes wrong arises in the expression**: the step of a slice may be too long
for a word, and then the run is broken off. -/
theorem not_arisesIn_of_search :
    ¬∀ {table : Registry}, table.IsOfLibrary → ∀ text q v err, compile text = .ok q →
      q.search table v = .error err →
        ∃ f, err = .fault f (some text) ∧ f.ArisesIn table q.expr := by
  intro h
  obtain ⟨q, hq⟩ : ∃ q, compile "[1::9223372036854775807]" = .ok q :=
    exists_of_isOk (by decide +kernel)
  have hrun : run .withPayload "[1::9223372036854775807]" (.array [.int 10, .int 20]) =
      .error (.fault (.overflow 1 9223372036854775807) (some "[1::9223372036854775807]")) := by
    with_unfolding_all rfl
  rw [run, hq] at hrun
  obtain ⟨f, hf, harises⟩ := h Registry.isOfLibrary_withPayload _ q _ _ hq hrun
  obtain ⟨rfl, -⟩ := Error.fault.inj hf
  exact harises

end Query

end JsonQuery
