import JsonQuery.Library

/-!
# Functions that relay faults

A function may evaluate expressions that are among its arguments, and so it may meet faults
that it did not bring about. A function **relays** (`JsonQuery.Function.Relays`) if these are
the only faults that come out of it: every fault is what one of the expressions among its
arguments yields on some value, as it is. Everything else that goes wrong in such a function
is a complaint of its own.

This is shown of a body along the way it is put together. The ways to get at an argument
make complaints only, a body that runs an expression got it from the arguments, and what
follows on something that relays has to relay in its turn (`JsonQuery.FailsBy.bind`). All
functions of the standard table relay, and so do those that open payloads
(`JsonQuery.Library.relays_of_mem`).
-/

namespace JsonQuery

/-! ### Ways to fail -/

/-- That a result, if it is a failure, is one of a given kind. -/
def FailsBy {ε α : Type} (P : ε → Prop) (x : Except ε α) : Prop :=
  ∀ e, x = .error e → P e

section Composition

variable {ε α β : Type} {P : ε → Prop}

theorem failsBy_pure (a : α) : FailsBy P (pure a) :=
  fun _ h => by simp [pure, Except.pure] at h

theorem failsBy_error {e : ε} (h : P e) : FailsBy P (.error e : Except ε α) := by
  intro e' he
  obtain rfl : e = e' := Except.error.inj he
  exact h

theorem FailsBy.mono {Q : ε → Prop} {x : Except ε α} (h : FailsBy P x) (himp : ∀ e, P e → Q e) :
    FailsBy Q x :=
  fun e he => himp e (h e he)

/-- Something, and what follows on it. -/
theorem FailsBy.bind {x : Except ε α} {k : α → Except ε β} (hx : FailsBy P x)
    (hk : ∀ a, x = .ok a → FailsBy P (k a)) : FailsBy P (x >>= k) := by
  match x, hx, hk with
  | .ok a, _, hk => exact hk a rfl
  | .error e, hx, _ => exact failsBy_error (hx e rfl)

/-- One thing for each of some values. -/
theorem failsBy_mapM {k : α → Except ε β} {as : List α} (hk : ∀ a ∈ as, FailsBy P (k a)) :
    FailsBy P (as.mapM k) := by
  induction as with
  | nil => exact failsBy_pure []
  | cons a as ih =>
    obtain ⟨hfirst, hrest⟩ := List.forall_mem_cons.mp hk
    rw [List.mapM_cons]
    exact hfirst.bind fun b _ => (ih hrest).bind fun bs _ => failsBy_pure (b :: bs)

end Composition

/-! ### Relaying -/

/-- That a failure is a complaint, or a fault that an expression among the arguments
yields. -/
def Failure.IsRelayed (args : List Argument) : Failure → Prop
  | complaint _ => True
  | evaluation f => ∃ r, .reference r ∈ args ∧ ∃ v, r.evaluate v = .error f

/-- That a result **relays** faults of the arguments. -/
def Relays (args : List Argument) {α : Type} (x : Except Failure α) : Prop :=
  FailsBy (Failure.IsRelayed args) x

/-- That a function **relays**, whatever its arguments are. -/
def Function.Relays (f : Function) : Prop :=
  ∀ args, JsonQuery.Relays args (f.invoke args)

section Relays

variable {args : List Argument} {α : Type}

theorem relays_complaint (c : Complaint) :
    Relays args (.error (.complaint c) : Except Failure α) :=
  failsBy_error trivial

theorem relays_mismatch (expected : List String) (v : Json) :
    Relays args (.error (Argument.mismatch expected v) : Except Failure α) :=
  relays_complaint _

end Relays

/-! ### Getting at arguments -/

namespace Argument

variable (args : List Argument) (index : Nat)

theorem relays_at? : Relays args (at? args index) := by
  rw [at?]
  split
  · exact failsBy_pure _
  · exact relays_complaint _

theorem relays_value? : Relays args (value? args index) := by
  refine (relays_at? args index).bind fun arg _ => ?_
  cases arg with
  | value v => exact failsBy_pure v
  | reference r => exact relays_complaint _

theorem relays_number? : Relays args (number? args index) := by
  refine (relays_value? args index).bind fun v _ => ?_
  split
  · exact failsBy_pure _
  · exact relays_mismatch _ v

theorem relays_string? : Relays args (string? args index) := by
  refine (relays_value? args index).bind fun v _ => ?_
  split
  · exact failsBy_pure _
  · exact relays_mismatch _ v

theorem relays_array? : Relays args (array? args index) := by
  refine (relays_value? args index).bind fun v _ => ?_
  split
  · exact failsBy_pure _
  · exact relays_mismatch _ v

theorem relays_object? : Relays args (object? args index) := by
  refine (relays_value? args index).bind fun v _ => ?_
  split
  · exact failsBy_pure _
  · exact relays_mismatch _ v

theorem relays_reference? : Relays args (reference? args index) := by
  refine (relays_at? args index).bind fun arg _ => ?_
  cases arg with
  | value v => exact relays_mismatch _ v
  | reference r => exact failsBy_pure r

variable {args index} {r : Reference}

/-- An expression that is got at is one of the arguments. -/
theorem mem_of_reference? (h : reference? args index = .ok r) : .reference r ∈ args := by
  rw [reference?, at?] at h
  cases harg : args[index]? with
  | none =>
    rw [harg] at h
    exact absurd h (by simp [bind, Except.bind])
  | some arg =>
    rw [harg] at h
    cases arg with
    | value v => exact absurd h (by simp [bind, Except.bind])
    | reference r' =>
      obtain rfl : r' = r := Except.ok.inj h
      exact List.mem_of_getElem? harg

/-- Running one of the arguments relays it. -/
theorem relays_run (hr : .reference r ∈ args) (v : Json) : Relays args (run r.evaluate v) := by
  rw [run]
  cases hv : r.evaluate v with
  | ok w => exact failsBy_pure w
  | error f => exact failsBy_error ⟨r, hr, v, hv⟩

end Argument

/-- A function relays if its body does, for the signature can only complain. -/
theorem Function.relays_of_body {f : Function} (h : ∀ args, JsonQuery.Relays args (f.body args)) :
    f.Relays := by
  intro args
  rw [Function.invoke]
  split
  · exact relays_complaint _
  · split
    · exact relays_complaint _
    · exact h args

namespace Library

open Argument

/-! ### The standard functions -/

theorem relays_numeric : ∀ f ∈ numeric, f.Relays := by
  simp only [numeric, List.forall_mem_cons]
  refine ⟨?abs, ?avg, ?ceil, ?floor, ?sum, List.forall_mem_nil _⟩
  case abs | ceil | floor =>
    exact Function.relays_of_body fun args => (relays_number? args 0).bind fun _ _ => failsBy_pure _
  case sum =>
    exact Function.relays_of_body fun args => (relays_array? args 0).bind fun _ _ => failsBy_pure _
  case avg =>
    refine Function.relays_of_body fun args => (relays_array? args 0).bind fun items _ => ?_
    split
    · exact failsBy_pure _
    · exact failsBy_pure _

theorem relays_textual : ∀ f ∈ textual, f.Relays := by
  simp only [textual, List.forall_mem_cons]
  refine ⟨?endsWith, ?join, ?startsWith, List.forall_mem_nil _⟩
  case endsWith | startsWith =>
    exact Function.relays_of_body fun args => (relays_string? args 0).bind fun _ _ =>
      (relays_string? args 1).bind fun _ _ => failsBy_pure _
  case join =>
    exact Function.relays_of_body fun args => (relays_string? args 0).bind fun _ _ =>
      (relays_array? args 1).bind fun _ _ => failsBy_pure _

theorem relays_mergeEntries {args : List Argument} (entries : List (String × Json))
    (rest : List Argument) : Relays args (mergeEntries entries rest) := by
  induction rest generalizing entries with
  | nil => exact failsBy_pure entries
  | cons arg rest ih =>
    rw [mergeEntries]
    split
    · exact ih _
    · exact relays_mismatch _ _

theorem relays_map : map.Relays := by
  refine Function.relays_of_body fun args => (relays_reference? args 0).bind fun r hr => ?_
  refine (relays_array? args 1).bind fun items _ => ?_
  refine (failsBy_mapM fun item _ => ?_).bind fun _ _ => failsBy_pure _
  exact relays_run (mem_of_reference? hr) item

theorem relays_collection : ∀ f ∈ collection, f.Relays := by
  simp only [collection, List.forall_mem_cons]
  refine ⟨?contains, ?keys, ?length, relays_map, ?merge, ?notNull, ?reverse, ?values,
    List.forall_mem_nil _⟩
  case keys | values =>
    exact Function.relays_of_body fun args => (relays_object? args 0).bind fun _ _ => failsBy_pure _
  case merge =>
    exact Function.relays_of_body fun args =>
      (relays_mergeEntries [] args).bind fun _ _ => failsBy_pure _
  case notNull => exact Function.relays_of_body fun args => failsBy_pure _
  case contains =>
    refine Function.relays_of_body fun args => (relays_value? args 1).bind fun needle _ => ?_
    refine (relays_value? args 0).bind fun v _ => ?_
    split
    · exact failsBy_pure _
    · split
      · exact failsBy_pure _
      · exact failsBy_pure _
    · exact relays_mismatch _ _
  case length =>
    refine Function.relays_of_body fun args => (relays_value? args 0).bind fun v _ => ?_
    split
    · exact failsBy_pure _
    · exact failsBy_pure _
    · exact failsBy_pure _
    · exact relays_mismatch _ _
  case reverse =>
    refine Function.relays_of_body fun args => (relays_value? args 0).bind fun v _ => ?_
    split
    · exact failsBy_pure _
    · exact failsBy_pure _
    · exact relays_mismatch _ _

theorem relays_keyedAs {args : List Argument} {r : Reference} (hr : .reference r ∈ args)
    (type? : Option String) (items : List Json) :
    Relays args (keyedAs r.evaluate type? items) := by
  induction items generalizing type? with
  | nil => exact failsBy_pure []
  | cons item items ih =>
    refine (relays_run hr item).bind fun key _ => ?_
    simp only
    split
    · exact (ih _).bind fun _ _ => failsBy_pure _
    · exact relays_mismatch _ _

theorem relays_keyed (args : List Argument) : Relays args (keyed args) :=
  (relays_array? args 0).bind fun items _ => (relays_reference? args 1).bind fun _ hr =>
    relays_keyedAs (mem_of_reference? hr) none items

theorem relays_extreme (name : String) (wanted : Ordering) : (extreme name wanted).Relays :=
  Function.relays_of_body fun args => (relays_array? args 0).bind fun _ _ => failsBy_pure _

theorem relays_extremeBy (name : String) (wanted : Ordering) : (extremeBy name wanted).Relays :=
  Function.relays_of_body fun args => (relays_keyed args).bind fun _ _ => failsBy_pure _

theorem relays_sorting : ∀ f ∈ sorting, f.Relays := by
  simp only [sorting, List.forall_mem_cons]
  refine ⟨relays_extreme _ _, relays_extremeBy _ _, relays_extreme _ _, relays_extremeBy _ _,
    ?sort, ?sortBy, List.forall_mem_nil _⟩
  case sort =>
    exact Function.relays_of_body fun args => (relays_array? args 0).bind fun _ _ => failsBy_pure _
  case sortBy =>
    exact Function.relays_of_body fun args => (relays_keyed args).bind fun _ _ => failsBy_pure _

theorem relays_conversion : ∀ f ∈ conversion, f.Relays := by
  simp only [conversion, List.forall_mem_cons]
  refine ⟨?toArray, ?toNumber, ?toText, ?type, List.forall_mem_nil _⟩
  case type =>
    exact Function.relays_of_body fun args => (relays_value? args 0).bind fun _ _ => failsBy_pure _
  case toArray | toText =>
    refine Function.relays_of_body fun args => (relays_value? args 0).bind fun v _ => ?_
    split
    · exact failsBy_pure _
    · exact failsBy_pure _
  case toNumber =>
    refine Function.relays_of_body fun args => (relays_value? args 0).bind fun v _ => ?_
    split
    · exact failsBy_pure _
    · exact failsBy_pure _
    · exact failsBy_pure _

/-! ### The functions that open payloads -/

section Layers

variable {args : List Argument}

theorem relays_payloadOf : Relays args (payloadOf args) := by
  cases args with
  | nil => exact relays_complaint _
  | cons arg args =>
    rw [payloadOf]
    split
    · exact failsBy_pure _
    · exact relays_mismatch _ _

theorem relays_bytesOf (text : String) : Relays args (bytesOf text) := by
  rw [bytesOf]
  split
  · exact failsBy_pure _
  · exact relays_complaint _

theorem relays_expand (bytes : List UInt8) : Relays args (expand bytes) := by
  rw [expand]
  split
  · exact failsBy_pure _
  · exact relays_complaint _

theorem relays_textOf (bytes : List UInt8) : Relays args (textOf bytes) := by
  rw [textOf]
  split
  · exact failsBy_pure _
  · exact relays_complaint _

end Layers

theorem relays_payload : ∀ f ∈ payload, f.Relays := by
  simp only [payload, List.forall_mem_cons]
  refine ⟨?json, ?base64, ?gzip, List.forall_mem_nil _⟩
  case json =>
    refine Function.relays_of_body fun args => relays_payloadOf.bind fun text _ => ?_
    split
    · exact failsBy_pure _
    · exact relays_complaint _
  case base64 =>
    exact Function.relays_of_body fun args => relays_payloadOf.bind fun text _ =>
      (relays_bytesOf text).bind fun bytes _ => relays_textOf bytes
  case gzip =>
    exact Function.relays_of_body fun args => relays_payloadOf.bind fun text _ =>
      (relays_bytesOf text).bind fun packed _ => (relays_expand packed).bind fun bytes _ =>
        relays_textOf bytes

/-- **All functions relay**, the standard ones and those that open payloads. -/
theorem relays_of_mem {f : Function} (h : f ∈ standardFunctions ++ payload) : f.Relays := by
  simp only [standardFunctions, List.mem_append] at h
  rcases h with ((((h | h) | h) | h) | h) | h
  · exact relays_numeric f h
  · exact relays_textual f h
  · exact relays_collection f h
  · exact relays_sorting f h
  · exact relays_conversion f h
  · exact relays_payload f h

end Library

end JsonQuery
