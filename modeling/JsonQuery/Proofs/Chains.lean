import JsonQuery.Expr.Evaluation

/-!
# What chains mean

A step is put at the end of a chain if there is one on the left, and otherwise a chain is
started. Either way the step is taken from where the left side led. So what a chain means
does not depend on how the steps in it came together.

That goes for pipes as well, and for dots, brackets and pipes in any mixture. An **assembly**
(`JsonQuery.Expr.Assembly`) is a tree that says in which order some steps are joined and by
what. Assemblies of the same steps yield expressions of different shapes, for a chain takes
in what is joined to it on the right, but a chain on the right stays whole. Each of these
expressions means the steps alone, taken from left to right until one fails
(`JsonQuery.Expr.evaluate_built`).
-/

namespace JsonQuery.Expr

variable (table : Registry)

theorem evaluateSteps_append (es es' : List Expr) (v : Json) :
    evaluateSteps table (es ++ es') v = evaluateSteps table es v >>= evaluateSteps table es' := by
  induction es generalizing v with
  | nil => rfl
  | cons e es ih =>
    simp only [List.cons_append, evaluateSteps, bind, Except.bind] at ih ⊢
    cases evaluate table e v with
    | error => rfl
    | ok v => exact ih v

theorem evaluateSteps_singleton (e : Expr) (v : Json) :
    evaluateSteps table [e] v = evaluate table e v := by
  simp only [evaluateSteps, bind, Except.bind]
  cases evaluate table e v <;> rfl

/-- The last of some steps is taken from where the others led. -/
theorem evaluateSteps_concat (es : List Expr) (e : Expr) (v : Json) :
    evaluateSteps table (es ++ [e]) v = evaluateSteps table es v >>= evaluate table e := by
  rw [evaluateSteps_append]
  congr 1
  funext w
  exact evaluateSteps_singleton table e w

/-- A step behind a dot is taken from where the left side led. -/
theorem evaluate_dotted (left right : Expr) (v : Json) :
    evaluate table (left.dotted right) v = evaluate table left v >>= evaluate table right := by
  unfold dotted
  split
  · exact evaluateSteps_concat table _ right v
  · rw [← evaluateSteps_singleton table left]
    exact evaluateSteps_concat table [left] right v

/-- An index is taken from where the left side led. -/
theorem evaluate_indexed (left right : Expr) (v : Json) :
    evaluate table (left.indexed right) v = evaluate table left v >>= evaluate table right := by
  unfold indexed
  split
  · exact evaluateSteps_concat table _ right v
  · rw [← evaluateSteps_singleton table left]
    exact evaluateSteps_concat table [left] right v

/-! ### Steps put together in any way -/

/-- The three **links** by which an expression is joined to one on its left. -/
inductive Link where
  /-- A dot. -/
  | dot
  /-- Brackets. -/
  | bracket
  /-- A pipe. -/
  | pipe

/-- Two expressions joined by a link. -/
def Link.join : Link → Expr → Expr → Expr
  | .dot => dotted
  | .bracket => indexed
  | .pipe => Expr.pipe

/-- An **assembly** of steps: a tree with the steps at its leaves, in order, and with a link at
every place where two parts of it are joined. -/
inductive Assembly where
  /-- A single step. -/
  | step (e : Expr)
  /-- Two assemblies, and the link that joins them. -/
  | joined (link : Link) (left right : Assembly)

namespace Assembly

/-- The steps of an assembly, from left to right. -/
def steps : Assembly → List Expr
  | step e => [e]
  | joined _ left right => left.steps ++ right.steps

/-- The expression that an assembly of steps yields. -/
def built : Assembly → Expr
  | step e => e
  | joined link left right => link.join left.built right.built

end Assembly

/-- By whatever link it is joined, the right side is taken from where the left one led. -/
theorem evaluate_join (link : Link) (left right : Expr) (v : Json) :
    evaluate table (link.join left right) v =
      evaluate table left v >>= evaluate table right := by
  cases link with
  | dot => exact evaluate_dotted table left right v
  | bracket => exact evaluate_indexed table left right v
  | pipe => rfl

/-- **Every assembly means its steps one after the other**, each taken from where the one
before it led, until one of them fails. -/
theorem evaluate_built (a : Assembly) (v : Json) :
    evaluate table a.built v = a.steps.foldlM (fun w e => evaluate table e w) v := by
  induction a generalizing v with
  | step e =>
    rw [Assembly.built, Assembly.steps, List.foldlM_cons]
    exact (bind_pure _).symm
  | joined link left right ihl ihr =>
    have hright : evaluate table right.built =
        right.steps.foldlM fun w e => evaluate table e w := by
      funext w
      exact ihr w
    rw [Assembly.built, evaluate_join, ihl, hright, Assembly.steps, List.foldlM_append]

/-- A chain on the left takes a step in, and one on the right stays a chain of its own. -/
example (a b c : String) :
    (Assembly.joined .dot (.joined .dot (.step (field a)) (.step (field b)))
        (.step (field c))).built = path [field a, field b, field c] ∧
      (Assembly.joined .dot (.step (field a))
        (.joined .dot (.step (field b)) (.step (field c)))).built =
          path [field a, path [field b, field c]] :=
  ⟨rfl, rfl⟩

end JsonQuery.Expr
