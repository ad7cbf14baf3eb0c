import JsonQuery.Library
import JsonQuery.Proofs.Relaying
import JsonQuery.Proofs.TypeChecking

/-!
# What signatures guard

The body of a function asks again for what its signature has already checked, and complains
if it is not there. Behind the signature almost none of these complaints can be reached.
This file says which ones can, for every function of the library and all arguments that its
signature **accepts** (`JsonQuery.Signature.Accepts`).

There are five ways for a function to behave behind its signature, its **conduct**
(`JsonQuery.Conduct`). Most functions succeed. Those that take any value are given a
reference sooner or later, for nothing keeps it out, and then they complain. A function
that evaluates an expression can meet a fault of that expression, and one that compares the
results as keys can complain about a key as well. What opens a payload finds it damaged. The
table of conducts is `JsonQuery.Conduct.ofName`, and a failure is **allowed** by a conduct
under the conditions of `JsonQuery.Failure.IsAllowed`.

A function is taken apart along its signature: each position settles the constructor of its
argument (`JsonQuery.ArgumentType.admits_array` and its likes), and once the constructors are
there the body can be run.
-/

namespace JsonQuery

/-! ### Types of arguments -/

namespace ArgumentType

variable {arg : Argument}

theorem admits_number : number.admits arg = true ↔ ∃ n, arg = .value (.number n) := by
  rcases arg with (_ | _ | _ | _ | _ | _) | _ <;> simp [admits, hasValue]

theorem admits_string : string.admits arg = true ↔ ∃ text, arg = .value (.string text) := by
  rcases arg with (_ | _ | _ | _ | _ | _) | _ <;> simp [admits, hasValue]

theorem admits_array : array.admits arg = true ↔ ∃ items, arg = .value (.array items) := by
  rcases arg with (_ | _ | _ | _ | _ | _) | _ <;> simp [admits, hasValue]

theorem admits_object : object.admits arg = true ↔ ∃ entries, arg = .value (.object entries) := by
  rcases arg with (_ | _ | _ | _ | _ | _) | _ <;> simp [admits, hasValue]

theorem admits_expression : expression.admits arg = true ↔ ∃ r, arg = .reference r := by
  rcases arg with (_ | _ | _ | _ | _ | _) | _ <;> simp [admits, hasValue]

theorem admits_arrayOf {item : ArgumentType} : (arrayOf item).admits arg = true ↔
    ∃ items, arg = .value (.array items) ∧ ∀ v ∈ items, item.hasValue v = true := by
  rcases arg with (_ | _ | _ | _ | _ | _) | _ <;> simp [admits, hasValue]

end ArgumentType

namespace Signature

theorem admits_singleton {t : ArgumentType} {arg : Argument} :
    admits [t] arg = t.admits arg := by
  simp [admits]

theorem admits_cons_cons {t u : ArgumentType} {ts : List ArgumentType} {arg : Argument} :
    admits (t :: u :: ts) arg = (t.admits arg || admits (u :: ts) arg) := by
  simp [admits]

/-! ### Arguments that are accepted -/

/-- That a signature **accepts** some arguments: their number is right, and each of them is
of one of the types of its position. -/
def Accepts (s : Signature) (args : List Argument) : Prop :=
  s.checkArity args.length = .ok () ∧ s.checkTypes args = .ok ()

/-- **A signature of fixed positions** accepts one argument at each position. -/
theorem Accepts.forall₂ {positions : List (List ArgumentType)} {args : List Argument}
    (h : (fixed positions).Accepts args) :
    List.Forall₂ (fun types arg => admits types arg = true) positions args := by
  obtain ⟨harity, htypes⟩ := h
  have hlength : positions.length = args.length := by
    by_contra hne
    simp [checkArity, fixed, Ne.symm hne] at harity
  simp only [admits_iff_takes]
  exact (checkTypes_eq_ok_iff.mp htypes).forall₂ hlength

/-- A signature of one position that can be filled any number of times accepts arguments of
the types of that position only. -/
theorem Accepts.forall_admits {types : List ArgumentType} {args : List Argument}
    (h : (variadicOf [types]).Accepts args) : ∀ arg ∈ args, admits types arg = true := by
  simp only [admits_iff_takes]
  exact suits_variadicOf_iff.mp (checkTypes_eq_ok_iff.mp h.2)

/-- That a **reference** is given at a position where anything is accepted. -/
def GivenReference (s : Signature) (args : List Argument) : Prop :=
  ∃ index r, s.typesAt? index = some [.any] ∧ args[index]? = some (.reference r)

end Signature

/-! ### Conducts -/

/-- How a function **behaves behind its signature**. -/
inductive Conduct where
  /-- It succeeds. -/
  | succeeds
  /-- It takes any value, but no reference. -/
  | takesValues
  /-- It evaluates an expression on the items of an array. -/
  | evaluates
  /-- It evaluates an expression on the items of an array and compares the results. -/
  | compares
  /-- It opens a payload. -/
  | opens
  deriving DecidableEq, Repr

/-- The conduct of the function of a name. -/
def Conduct.ofName (name : String) : Conduct :=
  if name ∈ ["contains", "to_array", "to_number", "to_string", "type"] then takesValues
  else if name = "map" then evaluates
  else if name ∈ ["max_by", "min_by", "sort_by"] then compares
  else if name ∈ ["powertools_base64", "powertools_base64_gzip", "powertools_json"] then opens
  else succeeds

namespace Failure

/-- That a failure is a fault that an expression meets on one of some items. -/
def IsMetOn (evaluate : Json → Except Fault Json) (items : List Json) (e : Failure) : Prop :=
  ∃ item ∈ items, ∃ f, evaluate item = .error f ∧ e = .evaluation f

/-- That a failure is a complaint about a **stray key**, one that an expression yields on one
of some items: it is neither a number nor a string, or it is not of the type of the first
key. -/
def IsAboutKey (evaluate : Json → Except Fault Json) (items : List Json) (e : Failure) : Prop :=
  ∃ first, (items.head?.map evaluate) = some (.ok first) ∧
    ∃ item ∈ items, ∃ key, evaluate item = .ok key ∧
      (Library.isKeyType key.typeName = false ∨ key.typeName ≠ first.typeName) ∧
      e = Argument.mismatch
        [if Library.isKeyType first.typeName then first.typeName else "string"] key

/-- That a failure is about the number of arguments. -/
def IsAboutArity (e : Failure) : Prop :=
  ∃ expected actual,
    e = .complaint (.arity expected actual) ∨ e = .complaint (.variadicArity expected actual)

/-- That a failure is **allowed** by a conduct, on arguments that a signature accepts. -/
def IsAllowed (s : Signature) (args : List Argument) : Conduct → Failure → Prop
  | .succeeds, _ => False
  | .takesValues, e => s.GivenReference args ∧ e = .complaint (.type .null ["any"] "expression")
  | .evaluates, e => ∃ r items, args = [.reference r, .value (.array items)] ∧
      e.IsMetOn r.evaluate items
  | .compares, e => ∃ r items, args = [.value (.array items), .reference r] ∧
      (e.IsMetOn r.evaluate items ∨ e.IsAboutKey r.evaluate items)
  | .opens, e => ∃ text, e = .complaint (.custom text)

/-- No conduct allows a failure that is about the number of arguments. -/
theorem IsAllowed.not_isAboutArity {s : Signature} {args : List Argument} {c : Conduct}
    {e : Failure} (h : e.IsAllowed s args c) : ¬e.IsAboutArity := by
  rintro ⟨expected, actual, he⟩
  cases c with
  | succeeds => exact h
  | takesValues =>
    obtain ⟨-, rfl⟩ := h
    simp at he
  | evaluates =>
    obtain ⟨g, items, -, item, -, f, -, rfl⟩ := h
    simp at he
  | compares =>
    obtain ⟨g, items, -, h | h⟩ := h
    · obtain ⟨item, -, f, -, rfl⟩ := h
      simp at he
    · obtain ⟨first, -, item, -, key, -, -, rfl⟩ := h
      simp [Argument.mismatch] at he
  | opens =>
    obtain ⟨text, rfl⟩ := h
    simp at he

end Failure

/-- That a function **follows** a conduct: on all arguments that its signature accepts it
fails only as the conduct allows, and a reference that is given to it where it takes values
makes it fail. -/
structure Function.Follows (f : Function) (c : Conduct) : Prop where
  /-- Its failures are allowed. -/
  allowed {args : List Argument} (h : f.signature.Accepts args) :
    FailsBy (Failure.IsAllowed f.signature args c) (f.body args)
  /-- It takes no reference for a value. -/
  refuses {args : List Argument} (h : f.signature.Accepts args) (hc : c = .takesValues)
    (hgiven : f.signature.GivenReference args) :
    f.body args = .error (.complaint (.type .null ["any"] "expression"))

theorem Function.follows_succeeds {f : Function}
    (h : ∀ args, f.signature.Accepts args → ∃ v, f.body args = .ok v) : f.Follows .succeeds where
  allowed hargs e he := by
    obtain ⟨v, hv⟩ := h _ hargs
    rw [hv] at he
    exact absurd he (by simp)
  refuses _ hc := by cases hc

theorem Function.follows_takesValues {f : Function}
    (hgiven : ∀ args, f.signature.Accepts args → f.signature.GivenReference args →
      f.body args = .error (.complaint (.type .null ["any"] "expression")))
    (hfree : ∀ args, f.signature.Accepts args → ¬f.signature.GivenReference args →
      ∃ v, f.body args = .ok v) : f.Follows .takesValues where
  allowed {args} hargs e he := by
    by_cases href : f.signature.GivenReference args
    · obtain rfl := Except.error.inj ((hgiven args hargs href).symm.trans he)
      exact ⟨href, rfl⟩
    · obtain ⟨v, hv⟩ := hfree args hargs href
      rw [hv] at he
      exact absurd he (by simp)
  refuses {args} hargs _ href := hgiven args hargs href

namespace Library

open Signature ArgumentType

/-! ### Numbers and strings -/

theorem follows_numeric : ∀ f ∈ numeric, f.Follows (.ofName f.name) := by
  simp only [numeric, List.forall_mem_cons]
  refine ⟨?abs, ?avg, ?ceil, ?floor, ?sum, List.forall_mem_nil _⟩
  case abs | ceil | floor =>
    refine Function.follows_succeeds fun args hargs => ?_
    obtain _ | ⟨hvalue, ⟨⟩⟩ := hargs.forall₂
    obtain ⟨n, rfl⟩ := admits_number.mp (admits_singleton.symm.trans hvalue)
    exact ⟨_, rfl⟩
  case avg | sum =>
    refine Function.follows_succeeds fun args hargs => ?_
    obtain _ | ⟨hvalue, ⟨⟩⟩ := hargs.forall₂
    obtain ⟨items, rfl, -⟩ := admits_arrayOf.mp (admits_singleton.symm.trans hvalue)
    cases items <;> exact ⟨_, rfl⟩

theorem follows_textual : ∀ f ∈ textual, f.Follows (.ofName f.name) := by
  simp only [textual, List.forall_mem_cons]
  refine ⟨?endsWith, ?join, ?startsWith, List.forall_mem_nil _⟩
  case endsWith | startsWith =>
    refine Function.follows_succeeds fun args hargs => ?_
    obtain _ | ⟨hfirst, _ | ⟨hsecond, ⟨⟩⟩⟩ := hargs.forall₂
    obtain ⟨text, rfl⟩ := admits_string.mp (admits_singleton.symm.trans hfirst)
    obtain ⟨part, rfl⟩ := admits_string.mp (admits_singleton.symm.trans hsecond)
    exact ⟨_, rfl⟩
  case join =>
    refine Function.follows_succeeds fun args hargs => ?_
    obtain _ | ⟨hfirst, _ | ⟨hsecond, ⟨⟩⟩⟩ := hargs.forall₂
    obtain ⟨glue, rfl⟩ := admits_string.mp (admits_singleton.symm.trans hfirst)
    obtain ⟨items, rfl, -⟩ := admits_arrayOf.mp (admits_singleton.symm.trans hsecond)
    exact ⟨_, rfl⟩

/-! ### Collections -/

theorem mergeEntries_of_admits (entries : List (String × Json)) {args : List Argument}
    (h : ∀ arg ∈ args, admits [.object] arg = true) :
    ∃ merged, mergeEntries entries args = .ok merged := by
  induction args generalizing entries with
  | nil => exact ⟨entries, rfl⟩
  | cons arg args ih =>
    obtain ⟨hfirst, hrest⟩ := List.forall_mem_cons.mp h
    obtain ⟨more, rfl⟩ := admits_object.mp (admits_singleton.symm.trans hfirst)
    exact ih _ hrest

theorem follows_contains : contains.Follows .takesValues := by
  refine Function.follows_takesValues (fun args hargs href => ?_) fun args hargs hfree => ?_
  · obtain _ | ⟨-, _ | ⟨-, ⟨⟩⟩⟩ := hargs.forall₂
    -- only the second position accepts anything
    obtain ⟨_ | _ | index, r, htypes, hr⟩ := href
    · simp [typesAt?, contains, fixed] at htypes
    · obtain rfl := Option.some.inj hr
      rfl
    · simp at hr
  · obtain _ | @⟨-, collection, -, -, hcollection, _ | @⟨-, needle, -, -, -, ⟨⟩⟩⟩ := hargs.forall₂
    cases needle with
    | reference r => exact absurd ⟨1, r, rfl, rfl⟩ hfree
    | value needle =>
      rw [admits_cons_cons, admits_singleton, Bool.or_eq_true] at hcollection
      obtain harray | hstring := hcollection
      · obtain ⟨items, rfl⟩ := admits_array.mp harray
        exact ⟨_, rfl⟩
      · obtain ⟨text, rfl⟩ := admits_string.mp hstring
        cases needle <;> exact ⟨_, rfl⟩

/-- Evaluating an expression on some items. -/
theorem failsBy_run (g : Json → Except Fault Json) (items : List Json) :
    FailsBy (Failure.IsMetOn g items) (items.mapM (Argument.run g)) := by
  refine failsBy_mapM fun item hitem => ?_
  rw [Argument.run]
  cases hrun : g item with
  | ok v => exact failsBy_pure v
  | error f => exact failsBy_error ⟨item, hitem, f, hrun, rfl⟩

theorem follows_map : map.Follows .evaluates where
  allowed {args} hargs := by
    obtain _ | ⟨hfirst, _ | ⟨hsecond, ⟨⟩⟩⟩ := hargs.forall₂
    obtain ⟨r, rfl⟩ := admits_expression.mp (admits_singleton.symm.trans hfirst)
    obtain ⟨items, rfl⟩ := admits_array.mp (admits_singleton.symm.trans hsecond)
    exact ((failsBy_run r.evaluate items).mono fun e he => ⟨r, items, rfl, he⟩).bind fun _ _ =>
      failsBy_pure _
  refuses _ hc := by cases hc

theorem follows_length : length.Follows .succeeds := by
  refine Function.follows_succeeds fun args hargs => ?_
  obtain _ | ⟨hvalue, ⟨⟩⟩ := hargs.forall₂
  rw [admits_cons_cons, admits_cons_cons, admits_singleton, Bool.or_eq_true, Bool.or_eq_true]
    at hvalue
  obtain harray | hstring | hobject := hvalue
  · obtain ⟨items, rfl⟩ := admits_array.mp harray
    exact ⟨_, rfl⟩
  · obtain ⟨text, rfl⟩ := admits_string.mp hstring
    exact ⟨_, rfl⟩
  · obtain ⟨entries, rfl⟩ := admits_object.mp hobject
    exact ⟨_, rfl⟩

theorem follows_reverse : reverse.Follows .succeeds := by
  refine Function.follows_succeeds fun args hargs => ?_
  obtain _ | ⟨hvalue, ⟨⟩⟩ := hargs.forall₂
  rw [admits_cons_cons, admits_singleton, Bool.or_eq_true] at hvalue
  obtain hstring | harray := hvalue
  · obtain ⟨text, rfl⟩ := admits_string.mp hstring
    exact ⟨_, rfl⟩
  · obtain ⟨items, rfl⟩ := admits_array.mp harray
    exact ⟨_, rfl⟩

theorem follows_collection : ∀ f ∈ collection, f.Follows (.ofName f.name) := by
  simp only [collection, List.forall_mem_cons]
  refine ⟨follows_contains, ?keys, follows_length, follows_map, ?merge, ?notNull,
    follows_reverse, ?values, List.forall_mem_nil _⟩
  case keys | values =>
    refine Function.follows_succeeds fun args hargs => ?_
    obtain _ | ⟨hvalue, ⟨⟩⟩ := hargs.forall₂
    obtain ⟨entries, rfl⟩ := admits_object.mp (admits_singleton.symm.trans hvalue)
    exact ⟨_, rfl⟩
  case merge =>
    refine Function.follows_succeeds fun args hargs => ?_
    obtain ⟨merged, hmerged⟩ := mergeEntries_of_admits [] hargs.forall_admits
    exact ⟨_, congrArg (fun x => x >>= fun entries => pure (Json.object entries)) hmerged⟩
  case notNull => exact Function.follows_succeeds fun args _ => ⟨_, rfl⟩

/-! ### Keys -/

/-- Keys that are to be of the type of the first one. -/
theorem failsBy_keyedAs_some {g : Json → Except Fault Json} {items : List Json} {first : Json}
    (hfirst : items.head?.map g = some (.ok first)) {rest : List Json} (hsub : rest ⊆ items) :
    FailsBy (fun e => e.IsMetOn g items ∨ e.IsAboutKey g items)
      (keyedAs g (some first.typeName) rest) := by
  induction rest with
  | nil => exact failsBy_pure []
  | cons item rest ih =>
    obtain ⟨hitem, hrest⟩ := List.cons_subset.mp hsub
    rw [keyedAs, Argument.run]
    cases hrun : g item with
    | error f => exact failsBy_error (.inl ⟨item, hitem, f, hrun, rfl⟩)
    | ok key =>
      simp only [bind, Except.bind, Option.getD_some, Bool.and_eq_true, beq_iff_eq]
      split
      · exact (ih hrest).bind fun _ _ => failsBy_pure _
      case isFalse hkey =>
        refine failsBy_error (.inr ⟨first, hfirst, item, hitem, key, hrun, ?_, rfl⟩)
        rw [← Bool.not_eq_true]
        exact not_and_or.mp hkey

/-- The first key fixes the type of all keys. -/
theorem failsBy_keyedAs (g : Json → Except Fault Json) (items : List Json) :
    FailsBy (fun e => e.IsMetOn g items ∨ e.IsAboutKey g items) (keyedAs g none items) := by
  cases items with
  | nil => exact failsBy_pure []
  | cons item rest =>
    cases hrun : g item with
    | error f =>
      rw [keyedAs, Argument.run, hrun]
      exact failsBy_error (.inl ⟨item, List.mem_cons_self, f, hrun, rfl⟩)
    | ok first =>
      -- The first key has the type of the first key, so the type may as well be fixed already.
      have hsame : keyedAs g none (item :: rest) = keyedAs g (some first.typeName) (item :: rest) := by
        simp [keyedAs, Argument.run, hrun, bind, Except.bind]
      rw [hsame]
      exact failsBy_keyedAs_some (by simp [hrun]) (List.Subset.refl _)

/-- What pairs items with keys before anything else. -/
theorem follows_compares {f : Function} {k : List (Json × Json) → Json}
    (hsignature : f.signature = fixed [[.array], [.expression]])
    (hbody : ∀ args, f.body args = keyed args >>= fun pairs => .ok (k pairs)) :
    f.Follows .compares where
  allowed {args} hargs := by
    rw [hsignature] at hargs
    obtain _ | ⟨hfirst, _ | ⟨hsecond, ⟨⟩⟩⟩ := hargs.forall₂
    obtain ⟨items, rfl⟩ := admits_array.mp (admits_singleton.symm.trans hfirst)
    obtain ⟨r, rfl⟩ := admits_expression.mp (admits_singleton.symm.trans hsecond)
    rw [hbody]
    exact ((failsBy_keyedAs r.evaluate items).mono fun e he => ⟨r, items, rfl, he⟩).bind
      fun _ _ => failsBy_pure _
  refuses _ hc := by cases hc

/-- What picks or sorts items that are all numbers or all strings. -/
theorem follows_ordered {f : Function} {k : List Json → Json}
    (hsignature : f.signature = fixed [[.arrayOf .number, .arrayOf .string]])
    (hbody : ∀ items, f.body [.value (.array items)] = .ok (k items)) :
    f.Follows .succeeds := by
  refine Function.follows_succeeds fun args hargs => ?_
  rw [hsignature] at hargs
  obtain _ | ⟨hvalue, ⟨⟩⟩ := hargs.forall₂
  rw [admits_cons_cons, admits_singleton, Bool.or_eq_true] at hvalue
  obtain hnumbers | hstrings := hvalue
  · obtain ⟨items, rfl, -⟩ := admits_arrayOf.mp hnumbers
    exact ⟨_, hbody items⟩
  · obtain ⟨items, rfl, -⟩ := admits_arrayOf.mp hstrings
    exact ⟨_, hbody items⟩

theorem follows_sorting : ∀ f ∈ sorting, f.Follows (.ofName f.name) := by
  simp only [sorting, List.forall_mem_cons]
  refine ⟨?max, ?maxBy, ?min, ?minBy, ?sort, ?sortBy, List.forall_mem_nil _⟩
  case max | min | sort => exact follows_ordered rfl fun items => rfl
  case maxBy | minBy | sortBy => exact follows_compares rfl fun args => rfl

/-! ### Conversions -/

/-- What converts any value. -/
theorem follows_converts {f : Function} (hsignature : f.signature = fixed [[.any]])
    (hgiven : ∀ r, f.body [.reference r] = .error (.complaint (.type .null ["any"] "expression")))
    (hvalue : ∀ v, ∃ w, f.body [.value v] = .ok w) : f.Follows .takesValues := by
  refine Function.follows_takesValues (fun args hargs href => ?_) fun args hargs hfree => ?_
  · rw [hsignature] at hargs
    obtain _ | ⟨-, ⟨⟩⟩ := hargs.forall₂
    obtain ⟨_ | index, r, -, hr⟩ := href
    · obtain rfl := Option.some.inj hr
      exact hgiven r
    · simp at hr
  · rw [hsignature] at hargs hfree
    obtain _ | @⟨-, arg, -, -, -, ⟨⟩⟩ := hargs.forall₂
    cases arg with
    | reference r => exact absurd ⟨0, r, rfl, rfl⟩ hfree
    | value v => exact hvalue v

theorem follows_conversion : ∀ f ∈ conversion, f.Follows (.ofName f.name) := by
  simp only [conversion, List.forall_mem_cons]
  refine ⟨?toArray, ?toNumber, ?toText, ?type, List.forall_mem_nil _⟩
  case type => exact follows_converts rfl (fun r => rfl) fun v => ⟨_, rfl⟩
  case toArray | toNumber | toText =>
    exact follows_converts rfl (fun r => rfl) fun v => by cases v <;> exact ⟨_, rfl⟩

/-! ### Payloads -/

theorem failsBy_complain {α : Type} (text : String) :
    FailsBy (fun e => ∃ text, e = .complaint (.custom text)) (.error (complain text) : Except _ α) :=
  failsBy_error ⟨text, rfl⟩

theorem failsBy_bytesOf (text : String) :
    FailsBy (fun e => ∃ text, e = .complaint (.custom text)) (bytesOf text) := by
  rw [bytesOf]
  split
  · exact failsBy_pure _
  · exact failsBy_complain _

theorem failsBy_expand (bytes : List UInt8) :
    FailsBy (fun e => ∃ text, e = .complaint (.custom text)) (expand bytes) := by
  rw [expand]
  split
  · exact failsBy_pure _
  · exact failsBy_complain _

theorem failsBy_textOf (bytes : List UInt8) :
    FailsBy (fun e => ∃ text, e = .complaint (.custom text)) (textOf bytes) := by
  rw [textOf]
  split
  · exact failsBy_pure _
  · exact failsBy_complain _

/-- What opens a string. -/
theorem follows_opens {f : Function} {k : String → Except Failure Json}
    (hsignature : f.signature = fixed [[.string]])
    (hbody : ∀ args, f.body args = payloadOf args >>= k)
    (hk : ∀ text, FailsBy (fun e => ∃ text, e = .complaint (.custom text)) (k text)) :
    f.Follows .opens where
  allowed {args} hargs := by
    rw [hsignature] at hargs
    obtain _ | ⟨hvalue, ⟨⟩⟩ := hargs.forall₂
    obtain ⟨text, rfl⟩ := admits_string.mp (admits_singleton.symm.trans hvalue)
    rw [hbody]
    exact hk text
  refuses _ hc := by cases hc

theorem follows_payload : ∀ f ∈ payload, f.Follows (.ofName f.name) := by
  simp only [payload, List.forall_mem_cons]
  refine ⟨?json, ?base64, ?gzip, List.forall_mem_nil _⟩
  case json =>
    refine follows_opens rfl (fun args => rfl) fun text => ?_
    split
    · exact failsBy_pure _
    · exact failsBy_complain _
  case base64 =>
    exact follows_opens rfl (fun args => rfl) fun text => (failsBy_bytesOf text).bind fun bytes _ =>
      failsBy_textOf bytes
  case gzip =>
    exact follows_opens rfl (fun args => rfl) fun text => (failsBy_bytesOf text).bind
      fun packed _ => (failsBy_expand packed).bind fun bytes _ => failsBy_textOf bytes

/-! ### All functions -/

theorem follows_of_mem {f : Function} (h : f ∈ standardFunctions ++ payload) :
    f.Follows (.ofName f.name) := by
  simp only [standardFunctions, List.mem_append] at h
  rcases h with ((((h | h) | h) | h) | h) | h
  · exact follows_numeric f h
  · exact follows_textual f h
  · exact follows_collection f h
  · exact follows_sorting f h
  · exact follows_conversion f h
  · exact follows_payload f h

/-- **Signatures guard bodies.** On arguments that its signature accepts, a function fails
only as its conduct allows, and never about their number. One that takes values does fail if
a reference is given to it where anything is accepted. -/
theorem guarded_by_signature {f : Function} (hf : f ∈ standardFunctions ++ payload)
    {args : List Argument} (hargs : f.signature.Accepts args) :
    FailsBy (Failure.IsAllowed f.signature args (.ofName f.name)) (f.body args) ∧
      FailsBy (fun e => ¬e.IsAboutArity) (f.body args) ∧
      (Conduct.ofName f.name = .succeeds → ∃ v, f.body args = .ok v) ∧
      (Conduct.ofName f.name = .takesValues → f.signature.GivenReference args →
        f.body args = .error (.complaint (.type .null ["any"] "expression"))) := by
  have hfollows := follows_of_mem hf
  have hallowed := hfollows.allowed hargs
  refine ⟨hallowed, hallowed.mono fun _ he => he.not_isAboutArity, fun hc => ?_,
    fun hc => hfollows.refuses hargs hc⟩
  cases hbody : f.body args with
  | ok v => exact ⟨v, rfl⟩
  | error e =>
    rw [hc] at hallowed
    exact (hallowed e hbody).elim

/-- The second key of an array that is to be sorted is stray, and a conversion is given a
reference. -/
theorem guarded_sortBy_toArray :
    (Failure.IsAllowed sortBy.signature
        [.value (.array [.int 1, .string "a"]), .reference ⟨.current, .ok⟩] .compares
        (Argument.mismatch ["number"] (.string "a"))) ∧
      toArray.body [.reference ⟨.current, .ok⟩] =
        .error (.complaint (.type .null ["any"] "expression")) :=
  ⟨(guarded_by_signature (f := sortBy) (by simp [standardFunctions, sorting]) ⟨rfl, rfl⟩).1 _ rfl,
    (guarded_by_signature (f := toArray) (by simp [standardFunctions, conversion])
      ⟨rfl, rfl⟩).2.2.2 rfl ⟨0, _, rfl, rfl⟩⟩

end Library

end JsonQuery
