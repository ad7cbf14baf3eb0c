import JsonQuery.Expr.Evaluation
import JsonQuery.Json.Reader
import JsonQuery.Library
import JsonQuery.Query

/-!
# Searching documents

A query is run on a value, with a table of functions. A fault that it meets becomes an error
with the text of the query, however deep inside the expression it came about.

A document is given as a text as often as not. It is read *before* the query, so of a
document and a query that are both wrong it is the document that is reported
(`JsonQuery.Query.runOnText`).
-/

namespace JsonQuery.Query

/-- **What a query yields on a value.** -/
def search (table : Registry) (q : Query) (v : Json) : Except Error Json :=
  match q.expr.evaluate table v with
  | .ok w => .ok w
  | .error f => .error (.fault f (some q.text))

/-- What the query that a text holds yields on a value. -/
def run (table : Registry) (text : String) (v : Json) : Except Error Json := do
  let q ← compile text
  q.search table v

/-- The value that a document is the text of. -/
def readDocument (document : String) : Except Error Json :=
  match Json.ofText? document with
  | some v => .ok v
  | none => .error (.badDocument none)

/-- What the query that a text holds yields on the value that a document is the text of. -/
def runOnText (table : Registry) (text document : String) : Except Error Json := do
  let v ← readDocument document
  run table text v

end JsonQuery.Query
