import JsonQuery.Function.Signature

/-!
# Functions

A function has a name, a signature and a body. `JsonQuery.Function.invoke` checks the
arguments against the signature before the body runs, so a body may count on what its
signature promises. The ways to get at an argument, `JsonQuery.Argument.number?` and its
likes, complain all the same if the argument is not what is asked for; what can be left to
complain about behind a signature is only an expression where anything is accepted.

A body does not know by which name it was called. What goes wrong in it is a **failure**: a
complaint, which `JsonQuery.Failure.named` puts a name to, or a fault from an expression
that the body evaluated, which has all the names it needs.
-/

namespace JsonQuery

/-! ### Failures -/

/-- How a function can fail. -/
inductive Failure where
  /-- The function complains. -/
  | complaint (c : Complaint)
  /-- An expression that the function evaluated fails. -/
  | evaluation (f : Fault)
  deriving Repr

namespace Failure

/-- A failure in words. -/
def message : Failure → String
  | complaint c => c.message
  | evaluation f => f.message

/-- The fault that a failure of a given function is. -/
def named (function : String) : Failure → Fault
  | complaint c => .call function c
  | evaluation f => f

end Failure

/-! ### Getting at arguments -/

namespace Argument

/-- That a value is of none of some types. -/
def mismatch (expected : List String) (v : Json) : Failure :=
  .complaint (.type v expected v.typeName)

/-- The argument at an index. -/
def at? (args : List Argument) (index : Nat) : Except Failure Argument :=
  match args[index]? with
  | some arg => .ok arg
  | none => .error (.complaint (.arity (index + 1) args.length))

/-- The value at an index. -/
def value? (args : List Argument) (index : Nat) : Except Failure Json := do
  match ← at? args index with
  | .value v => return v
  | .reference _ => .error (.complaint (.type .null ["any"] "expression"))

/-- The number at an index. -/
def number? (args : List Argument) (index : Nat) : Except Failure Number := do
  match ← value? args index with
  | .number n => return n
  | v => .error (mismatch ["number"] v)

/-- The string at an index. -/
def string? (args : List Argument) (index : Nat) : Except Failure String := do
  match ← value? args index with
  | .string text => return text
  | v => .error (mismatch ["string"] v)

/-- The items of the array at an index. -/
def array? (args : List Argument) (index : Nat) : Except Failure (List Json) := do
  match ← value? args index with
  | .array items => return items
  | v => .error (mismatch ["array"] v)

/-- The entries of the object at an index. -/
def object? (args : List Argument) (index : Nat) : Except Failure (List (String × Json)) := do
  match ← value? args index with
  | .object entries => return entries
  | v => .error (mismatch ["object"] v)

/-- The expression at an index. -/
def reference? (args : List Argument) (index : Nat) : Except Failure Reference := do
  match ← at? args index with
  | .reference r => return r
  | .value v => .error (mismatch ["expression"] v)

/-- The value of an expression, as part of a body. -/
def run (evaluate : Json → Except Fault Json) (v : Json) : Except Failure Json :=
  match evaluate v with
  | .ok w => .ok w
  | .error f => .error (.evaluation f)

end Argument

/-! ### Functions and tables of them -/

/-- A **function** of the query language. -/
structure Function where
  /-- The name that it is called by. -/
  name : String
  /-- What it accepts. -/
  signature : Signature
  /-- What it does with arguments that it accepts. -/
  body : List Argument → Except Failure Json

/-- **A call**: the body, if the signature has nothing against the arguments. -/
def Function.invoke (f : Function) (args : List Argument) : Except Failure Json :=
  match f.signature.checkArity args.length with
  | .error c => .error (.complaint c)
  | .ok () =>
    match f.signature.checkTypes args with
    | .error c => .error (.complaint c)
    | .ok () => f.body args

/-- A **table** of functions, each under its name. -/
structure Registry where
  /-- The functions. -/
  functions : List Function

namespace Registry

/-- The table without functions. -/
def empty : Registry :=
  ⟨[]⟩

/-- The function of a name. -/
def get? (r : Registry) (name : String) : Option Function :=
  r.functions.find? fun f => f.name == name

/-- Add a function, in place of the one that has its name. -/
def register (r : Registry) (f : Function) : Registry :=
  ⟨(r.functions.filter fun g => g.name != f.name) ++ [f]⟩

/-- Add functions one after another. -/
def registerAll (r : Registry) (fs : List Function) : Registry :=
  fs.foldl register r

/-- How many functions there are. -/
def size (r : Registry) : Nat :=
  r.functions.length

/-- The names of the functions, sorted. -/
def names (r : Registry) : List String :=
  (r.functions.map Function.name).mergeSort fun a b => Ord.compare a b != .gt

/-- A function that was added is found under its name. -/
theorem get?_register_self (r : Registry) (f : Function) : (r.register f).get? f.name = some f := by
  have hnone : (r.functions.filter fun g => g.name != f.name).find? (fun g => g.name == f.name)
      = none := by
    rw [List.find?_eq_none]
    intro g hg
    simpa using (List.mem_filter.mp hg).2
  simp [get?, register, List.find?_append, hnone]

/-- Adding a function changes nothing under other names. -/
theorem get?_register_of_ne (r : Registry) (f : Function) {name : String} (h : name ≠ f.name) :
    (r.register f).get? name = r.get? name := by
  have hf : (f.name == name) = false := by simpa using fun he : f.name = name => h he.symm
  have hfilter : (r.functions.filter fun g => g.name != f.name).find? (fun g => g.name == name)
      = r.functions.find? fun g => g.name == name := by
    rw [List.find?_filter]
    congr 1
    funext g
    by_cases hg : g.name = name
    · have hne : ¬g.name = f.name := fun he => h (hg.symm.trans he)
      simp [hg, h]
    · simp [hg]
  simp [get?, register, List.find?_append, hfilter, hf]

end Registry

end JsonQuery
