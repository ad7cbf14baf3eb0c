import JsonQuery.Library.Collection
import JsonQuery.Library.Conversion
import JsonQuery.Library.Extension
import JsonQuery.Library.Numeric
import JsonQuery.Library.Payload
import JsonQuery.Library.Sorting
import JsonQuery.Library.Textual

/-!
# Tables of functions

The tables that queries are evaluated with: the **standard** one, which every query can
count on, and two that extend it, by the functions that open payloads and by those of
`JsonQuery.Library.extension`.
-/

namespace JsonQuery

namespace Library

/-- The standard functions. -/
def standardFunctions : List Function :=
  numeric ++ textual ++ collection ++ sorting ++ conversion

end Library

namespace Registry

/-- **The standard functions.** -/
def standard : Registry :=
  empty.registerAll Library.standardFunctions

/-- The standard functions and those that open payloads. -/
def withPayload : Registry :=
  standard.registerAll Library.payload

/-- The standard functions and some more. -/
def withExtension : Registry :=
  standard.registerAll Library.extension

end Registry

end JsonQuery
