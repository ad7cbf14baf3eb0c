import JsonQuery.Library
import JsonQuery.Expr.Evaluation
import JsonQuery.Proofs.Compilation
import JsonQuery.Proofs.Nodes

/-!
# Tables that agree on what is called

What an expression yields depends on the table of functions only through the functions that
it calls. Their names can be read off the expression (`JsonQuery.Expr.calledNames`), and two
tables are interchangeable for it if they **agree on** these names
(`JsonQuery.Registry.AgreeOn`): under each of them they hold the same function, or both hold
none. In particular a table may be extended at will by functions that the expression does not
call (`JsonQuery.Expr.evaluate_table`).

The names inside a reference count, and it is there that something has to be shown. A
function that is given a reference is given what the body evaluates to *under the table of
the call*, and may run it on any values that it likes. So the induction compares evaluations
as functions on all values (`JsonQuery.Expr.evaluate_congr_of_children`). Two calls then hand
the same arguments to the same function, whatever that does with them.
-/

namespace JsonQuery

/-! ### The functions that are called -/

namespace Expr

/-- The name of the function that is called, if an expression is a call. -/
def calledName? : Expr → Option String
  | call name _ => some name
  | _ => none

/-- **The names of the functions that are called** in an expression, inside references and
everywhere else. -/
def calledNames (e : Expr) : List String :=
  e.nodes.filterMap calledName?

theorem mem_calledNames_call (name : String) (args : List Expr) :
    name ∈ (call name args).calledNames :=
  List.mem_filterMap.mpr ⟨call name args, mem_nodes_self _, rfl⟩

theorem calledNames_subset_of_mem_children {c e : Expr} (h : c ∈ e.children) :
    c.calledNames ⊆ e.calledNames := by
  intro name hname
  obtain ⟨x, hx, hcall⟩ := List.mem_filterMap.mp hname
  exact List.mem_filterMap.mpr ⟨x, mem_nodes_of_mem_children h hx, hcall⟩

end Expr

namespace Registry

/-- That two tables **agree on** some names: under each of them they hold the same function,
or both hold none. -/
def AgreeOn (names : List String) (table table' : Registry) : Prop :=
  ∀ name ∈ names, table.get? name = table'.get? name

variable {names : List String} {table table' : Registry}

theorem AgreeOn.subset {names' : List String} (h : AgreeOn names table table')
    (hsubset : names' ⊆ names) : AgreeOn names' table table' :=
  fun name hname => h name (hsubset hname)

/-- A table agrees with what it is extended to on all names that are not added. -/
theorem agreeOn_registerAll {fs : List Function} (h : ∀ f ∈ fs, f.name ∉ names) :
    AgreeOn names (table.registerAll fs) table := by
  induction fs generalizing table with
  | nil => exact fun _ _ => rfl
  | cons f fs ih =>
    obtain ⟨hf, hfs⟩ := List.forall_mem_cons.mp h
    intro name hname
    have hne : name ≠ f.name := fun heq => hf (heq ▸ hname)
    rw [← table.get?_register_of_ne f hne]
    exact ih hfs name hname

end Registry

/-! ### Evaluation under two tables -/

namespace Expr

open Registry (AgreeOn)

section Lists

variable {table table' : Registry} {es : List Expr}

theorem evaluateSteps_congr (h : ∀ e ∈ es, evaluate table e = evaluate table' e) :
    evaluateSteps table es = evaluateSteps table' es := by
  induction es with
  | nil => rfl
  | cons e es ih =>
    obtain ⟨he, hes⟩ := List.forall_mem_cons.mp h
    funext v
    simp only [evaluateSteps, he, ih hes]

theorem evaluateAll_congr (h : ∀ e ∈ es, evaluate table e = evaluate table' e) :
    evaluateAll table es = evaluateAll table' es := by
  induction es with
  | nil => rfl
  | cons e es ih =>
    obtain ⟨he, hes⟩ := List.forall_mem_cons.mp h
    funext v
    simp only [evaluateAll, he, ih hes]

theorem evaluateEntries_congr {entries : List (String × Expr)}
    (h : ∀ e ∈ entries.map Prod.snd, evaluate table e = evaluate table' e) :
    evaluateEntries table entries = evaluateEntries table' entries := by
  induction entries with
  | nil => rfl
  | cons entry entries ih =>
    obtain ⟨he, hes⟩ := List.forall_mem_cons.mp h
    funext v
    simp only [evaluateEntries, he, ih hes]

/-- A reference among the arguments is handed on as what its body evaluates to, so the bodies
have to be asked for as well. -/
theorem evaluateArguments_congr (h : ∀ e ∈ es, evaluate table e = evaluate table' e)
    (hbodies : ∀ body, reference body ∈ es → evaluate table body = evaluate table' body) :
    evaluateArguments table es = evaluateArguments table' es := by
  induction es with
  | nil => rfl
  | cons e es ih =>
    obtain ⟨he, hes⟩ := List.forall_mem_cons.mp h
    have hrest := ih hes fun body hbody => hbodies body (List.mem_cons_of_mem e hbody)
    funext v
    cases e with
    | reference body =>
      simp only [evaluateArguments, hrest, hbodies body List.mem_cons_self]
    | _ => simp only [evaluateArguments, hrest, he]

end Lists

section Congruence

variable {table table' : Registry} {e : Expr}

theorem callIn_congr {name : String} (h : table.get? name = table'.get? name) :
    callIn table name = callIn table' name := by
  funext args
  rw [callIn, callIn, h]

/-- **One expression**: it evaluates alike if its children do, the bodies of the references
among them do, and the function that it may call is the same. -/
theorem evaluate_congr_of_children
    (hchildren : ∀ c ∈ e.children, evaluate table c = evaluate table' c)
    (hbodies : ∀ body, reference body ∈ e.children → evaluate table body = evaluate table' body)
    (hcall : ∀ name args, e = call name args → table.get? name = table'.get? name) :
    evaluate table e = evaluate table' e := by
  funext v
  cases e with
  | identity | current | field | literal | index | slice | reference => rfl
  | path steps | indexing steps => exact congrFun (evaluateSteps_congr hchildren) v
  | pipe l r | compare op l r | or l r | and l r | project l r | projectValues l r =>
    obtain ⟨hl, hr⟩ : evaluate table l = evaluate table' l ∧
        evaluate table r = evaluate table' r := by simpa [children] using hchildren
    simp only [evaluate, hl, hr]
  | projectWhere l r c =>
    obtain ⟨hl, hr, hc⟩ : evaluate table l = evaluate table' l ∧
        evaluate table r = evaluate table' r ∧ evaluate table c = evaluate table' c := by
      simpa [children] using hchildren
    simp only [evaluate, hl, hr, hc]
  | not body | flatten body =>
    simp only [evaluate, hchildren body List.mem_cons_self]
  | list items =>
    have hitems : evaluateAll table items = evaluateAll table' items :=
      evaluateAll_congr hchildren
    simp only [evaluate, hitems]
  | hash entries =>
    have hentries : evaluateEntries table entries = evaluateEntries table' entries :=
      evaluateEntries_congr hchildren
    simp only [evaluate, hentries]
  | call name args =>
    have hargs : evaluateArguments table args = evaluateArguments table' args :=
      evaluateArguments_congr hchildren hbodies
    simp only [evaluate, hargs, callIn_congr (hcall name args rfl)]

end Congruence

/-- **Tables that agree on the functions that are called evaluate alike**, at every node of the
expression. -/
theorem evaluate_congr_of_mem_nodes {table table' : Registry} {e : Expr}
    (h : AgreeOn e.calledNames table table') :
    ∀ x ∈ e.nodes, evaluate table x = evaluate table' x := by
  induction e using children_induction with
  | h e ih =>
    have hbelow : ∀ c ∈ e.children, ∀ x ∈ c.nodes, evaluate table x = evaluate table' x :=
      fun c hc => ih c hc (h.subset (calledNames_subset_of_mem_children hc))
    intro x hx
    rcases mem_nodes_iff.mp hx with rfl | ⟨c, hc, hx⟩
    · refine evaluate_congr_of_children (fun c hc => hbelow c hc c (mem_nodes_self c)) ?_ ?_
      · -- the body of a reference is no child, but it is a node of one
        intro body hbody
        exact hbelow _ hbody body
          (mem_nodes_of_mem_children List.mem_cons_self (mem_nodes_self body))
      · rintro name args rfl
        exact h name (mem_calledNames_call name args)
    · exact hbelow c hc x hx

/-- **An expression depends on a table through the functions that it calls.** Under two tables
that agree on these it yields the same value or the same fault, and no extension by other
functions makes a difference. -/
theorem evaluate_table (e : Expr) :
    (∀ table table', AgreeOn e.calledNames table table' →
      ∀ v, e.evaluate table v = e.evaluate table' v) ∧
    ∀ table fs, (∀ f ∈ fs, f.name ∉ e.calledNames) →
      ∀ v, e.evaluate (table.registerAll fs) v = e.evaluate table v := by
  have hagree : ∀ table table', AgreeOn e.calledNames table table' →
      ∀ v, e.evaluate table v = e.evaluate table' v := fun _ _ h =>
    congrFun (evaluate_congr_of_mem_nodes h e (mem_nodes_self e))
  exact ⟨hagree, fun table fs hfs => hagree _ table (Registry.agreeOn_registerAll hfs)⟩

/-- A query with a reference inside a reference. It calls nothing of what two tables extend the
standard one by, nor the function that a third one replaces. -/
theorem evaluate_table_of_nested :
    ∃ q, Query.compile "map(&sort_by(@, &abs(k)), @)" = .ok q ∧
      q.expr.calledNames = ["map", "sort_by", "abs"] ∧
      AgreeOn q.expr.calledNames .withPayload .withExtension ∧
      (∀ v, q.expr.evaluate .withPayload v = q.expr.evaluate .withExtension v) ∧
      (∀ f ∈ [Library.overridden], f.name ∉ q.expr.calledNames) ∧
      ∀ v, q.expr.evaluate (Registry.standard.registerAll [Library.overridden]) v =
        q.expr.evaluate .standard v := by
  obtain ⟨q, hq⟩ : ∃ q, Query.compile "map(&sort_by(@, &abs(k)), @)" = .ok q :=
    Query.exists_of_isOk (by decide +kernel)
  have hcompiled : (match Query.compile "map(&sort_by(@, &abs(k)), @)" with
      | .ok q => q.expr.calledNames
      | .error _ => []) = ["map", "sort_by", "abs"] := by decide +kernel
  rw [hq] at hcompiled
  have hnames : q.expr.calledNames = ["map", "sort_by", "abs"] := hcompiled
  have hadded : ∀ f ∈ Library.overridden :: (Library.payload ++ Library.extension),
      f.name ∉ q.expr.calledNames := by
    rw [hnames]
    decide
  obtain ⟨hoverridden, hrest⟩ := List.forall_mem_cons.mp hadded
  obtain ⟨hpayload, hextension⟩ := List.forall_mem_append.mp hrest
  have hagree : AgreeOn q.expr.calledNames .withPayload .withExtension := fun name hname =>
    (Registry.agreeOn_registerAll hpayload name hname).trans
      (Registry.agreeOn_registerAll hextension name hname).symm
  have hreplaced : ∀ f ∈ [Library.overridden], f.name ∉ q.expr.calledNames :=
    List.forall_mem_singleton.mpr hoverridden
  exact ⟨q, hq, hnames, hagree, (evaluate_table q.expr).1 _ _ hagree, hreplaced,
    (evaluate_table q.expr).2 .standard _ hreplaced⟩

end Expr

end JsonQuery
