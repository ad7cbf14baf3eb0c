import JsonQuery.CommandLine
import JsonQuery.Proofs.ValueTexts

/-!
# Expressions told by what shows them

An expression that is shown as a value can be recovered from it. The name under `type` says
which form it has, and with it how to take apart what is under `value`. There is a function that
does so, `JsonQuery.Expr.decode?`, and it undoes the encoding (`JsonQuery.Expr.decode?_encode`).

A **literal** is where one might be led astray, for what it stands for may be any value, that of
an expression included. But below the name of a literal nothing is taken apart any more: what is
found there is what it stands for, whatever it looks like.

Neither is anything lost when the value is printed, without blanks or with a line to each part
(`JsonQuery.Expr.encoding_determines`): the text of a value tells the value, down to the order of
its keys and the sign of a zero (`JsonQuery.Json.text_injective`).
-/

namespace JsonQuery

/-- The comparison of a name. -/
def Comparison.ofName? : String → Option Comparison
  | "eq" => some .eq
  | "ne" => some .ne
  | "lt" => some .lt
  | "lte" => some .lte
  | "gt" => some .gt
  | "gte" => some .gte
  | _ => none

theorem Comparison.ofName?_name (op : Comparison) : ofName? op.name = some op := by
  cases op <;> rfl

namespace Expr

/-! ### Decoding -/

/-- The bound of a slice that a value shows. -/
def decodeBound? : Json → Option (Option Int)
  | .null => some none
  | .number (.int n) => some (some n)
  | _ => none

theorem decodeBound?_encodeBound (bound : Option Int) :
    decodeBound? (encodeBound bound) = some bound := by
  cases bound <;> rfl

mutual

/-- **The expression that a value shows**, if it shows one. -/
def decode? : Json → Option Expr
  | .object [("type", .string "identity")] => some identity
  | .object [("type", .string "current")] => some current
  | .object [("type", .string kind), ("value", value)] => decodeAs? kind value
  | _ => none

/-- The expression of a form, of which a value shows what it is made of. -/
def decodeAs? : String → Json → Option Expr
  | "field", .string name => some (field name)
  | "literal", value => some (literal value)
  | "subexpression", .array steps => (decodeAll? steps).map path
  | "index_expression", .array steps => (decodeAll? steps).map indexing
  | "index", .number (.int position) => some (index position)
  | "slice", .object [("start", start), ("stop", stop), ("step", step)] => do
    return slice (← decodeBound? start) (← decodeBound? stop) (← decodeBound? step)
  | "pipe", .array [l, r] => do return pipe (← decode? l) (← decode? r)
  | "comparator", .object [("op", .string op), ("left", l), ("right", r)] => do
    return compare (← Comparison.ofName? op) (← decode? l) (← decode? r)
  | "or_expression", .array [l, r] => do return or (← decode? l) (← decode? r)
  | "and_expression", .array [l, r] => do return and (← decode? l) (← decode? r)
  | "not_expression", e => (decode? e).map not
  | "flatten", e => (decode? e).map flatten
  | "projection", .object [("left", l), ("right", r)] => do
    return project (← decode? l) (← decode? r)
  | "value_projection", .object [("left", l), ("right", r)] => do
    return projectValues (← decode? l) (← decode? r)
  | "filter_projection", .object [("left", l), ("right", r), ("condition", c)] => do
    return projectWhere (← decode? l) (← decode? r) (← decode? c)
  | "multi_select_list", .array items => (decodeAll? items).map list
  | "multi_select_dict", .array entries => (decodeEntries? entries).map hash
  | "function_expression", .object [("name", .string name), ("args", .array args)] =>
    (decodeAll? args).map (call name)
  | "expref", e => (decode? e).map reference
  | _, _ => none

/-- The expressions that some values show. -/
def decodeAll? : List Json → Option (List Expr)
  | [] => some []
  | v :: vs => do return (← decode? v) :: (← decodeAll? vs)

/-- The keyed expressions that some values show. -/
def decodeEntries? : List Json → Option (List (String × Expr))
  | [] => some []
  | .object [("key", .string key), ("value", v)] :: vs => do
    return (key, ← decode? v) :: (← decodeEntries? vs)
  | _ => none

end

theorem decode?_tagged (kind : String) (value : Json) :
    decode? (tagged kind value) = decodeAs? kind value := by
  rw [tagged, decode?]

mutual

/-- **An expression is recovered from the value that shows it.** -/
theorem decode?_encode : ∀ e : Expr, decode? (encode e) = some e
  | identity => by rw [encode, decode?]
  | current => by rw [encode, decode?]
  | field _ | literal _ => by rw [encode, decode?_tagged, decodeAs?]
  | index _ => by rw [encode, decode?_tagged, Json.int, decodeAs?]
  | slice start stop step => by
    rw [encode, decode?_tagged, decodeAs?, decodeBound?_encodeBound, decodeBound?_encodeBound,
      decodeBound?_encodeBound]
    rfl
  | path steps | indexing steps | list steps => by
    rw [encode, decode?_tagged, decodeAs?, decodeAll?_encodeAll steps]
    rfl
  | call _ args => by
    rw [encode, decode?_tagged, decodeAs?, decodeAll?_encodeAll args]
    rfl
  | hash entries => by
    rw [encode, decode?_tagged, decodeAs?, decodeEntries?_encodeEntries entries]
    rfl
  | not e | flatten e | reference e => by
    rw [encode, decode?_tagged, decodeAs?, decode?_encode e]
    rfl
  | pipe l r | or l r | and l r | project l r | projectValues l r => by
    rw [encode, decode?_tagged, decodeAs?, decode?_encode l, decode?_encode r]
    rfl
  | compare op l r => by
    rw [encode, decode?_tagged, decodeAs?, Comparison.ofName?_name, decode?_encode l,
      decode?_encode r]
    rfl
  | projectWhere l r c => by
    rw [encode, decode?_tagged, decodeAs?, decode?_encode l, decode?_encode r, decode?_encode c]
    rfl

theorem decodeAll?_encodeAll : ∀ es : List Expr, decodeAll? (encodeAll es) = some es
  | [] => by rw [encodeAll, decodeAll?]
  | e :: es => by
    rw [encodeAll, decodeAll?, decode?_encode e, decodeAll?_encodeAll es]
    rfl

theorem decodeEntries?_encodeEntries :
    ∀ entries : List (String × Expr), decodeEntries? (encodeEntries entries) = some entries
  | [] => by rw [encodeEntries, decodeEntries?]
  | (key, e) :: entries => by
    rw [encodeEntries, decodeEntries?, decode?_encode e, decodeEntries?_encodeEntries entries]
    rfl

end

/-! ### What tells an expression -/

theorem encode_injective : Function.Injective encode := by
  intro a b h
  have hdecode := decode?_encode a
  rw [h, decode?_encode] at hdecode
  exact (Option.some.inj hdecode).symm

theorem printed_true_injective : Function.Injective (CommandLine.printed true) :=
  fun _ _ h => Json.indentedText_injective ((String.append_left_inj "\n").mp h)

/-- **An expression is determined by its encoding**, as a value, as the compact text of it, and as
what is printed of it. From the value it can be computed. -/
theorem encoding_determines :
    (∀ e : Expr, decode? e.encode = some e) ∧
    Function.Injective encode ∧
    Function.Injective (fun e : Expr => e.encode.text) ∧
    Function.Injective (fun e : Expr => CommandLine.printed true e.encode) :=
  ⟨decode?_encode, encode_injective, Json.text_injective.comp encode_injective,
    printed_true_injective.comp encode_injective⟩

/-- A literal may look like another expression. -/
example : decode? (literal (field "a").encode).encode = some (literal (field "a").encode) ∧
    decode? (field "a").encode = some (field "a") :=
  ⟨decode?_encode _, decode?_encode _⟩

end Expr

end JsonQuery
