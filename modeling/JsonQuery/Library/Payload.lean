import JsonQuery.Function.Basic
import JsonQuery.Json.Reader
import JsonQuery.Text.Base64
import JsonQuery.Compression.Gzip

/-!
# Functions that open payloads

Events carry their payload as a string: a document as its text, bytes in base 64, and
compressed bytes in base 64 as well. The functions of this module open one such layer
each; what cannot be opened is a complaint. It begins with which layer was the wrong one, and
ends there: how whoever reads a layer describes what is wrong with it is left out.

They have a way of their own to get at their argument (`JsonQuery.Library.payloadOf`), by
which an expression is taken for `null`.
-/

namespace JsonQuery.Library

/-- A complaint in words. -/
def complain (text : String) : Failure :=
  .complaint (.custom text)

/-- The bytes that a string stands for in base 64; blanks around it do not count. -/
def bytesOf (text : String) : Except Failure (List UInt8) :=
  match Text.Base64.decode? (Text.trim text.toList) with
  | some bytes => .ok bytes
  | none => .error (complain "invalid base64")

/-- The bytes that compressed bytes stand for. -/
def expand (bytes : List UInt8) : Except Failure (List UInt8) :=
  match Compression.gunzip? bytes with
  | some bytes => .ok bytes
  | none => .error (complain "invalid gzip data")

/-- The characters that bytes stand for, as a value. -/
def textOf (bytes : List UInt8) : Except Failure Json :=
  match String.fromUTF8? ⟨bytes.toArray⟩ with
  | some text => .ok (.string text)
  | none => .error (complain "invalid UTF-8")

/-- The string that is the first argument. -/
def payloadOf : List Argument → Except Failure String
  | [] => .error (.complaint (.arity 1 0))
  | arg :: _ =>
    match arg.toJson with
    | .string text => .ok text
    | v => .error (Argument.mismatch ["string"] v)

/-- The document that a string is the text of. -/
def openJson : Function where
  name := "powertools_json"
  signature := .fixed [[.string]]
  body args := do
    let text ← payloadOf args
    match Json.ofText? text with
    | some v => return v
    | none => .error (complain "invalid JSON")

/-- The text whose bytes a string stands for in base 64. -/
def openBase64 : Function where
  name := "powertools_base64"
  signature := .fixed [[.string]]
  body args := do
    let text ← payloadOf args
    let bytes ← bytesOf text
    textOf bytes

/-- The text whose compressed bytes a string stands for in base 64. -/
def openGzip : Function where
  name := "powertools_base64_gzip"
  signature := .fixed [[.string]]
  body args := do
    let text ← payloadOf args
    let packed ← bytesOf text
    let bytes ← expand packed
    textOf bytes

/-- The functions that open payloads. -/
def payload : List Function :=
  [openJson, openBase64, openGzip]

end JsonQuery.Library
