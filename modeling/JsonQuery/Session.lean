import JsonQuery.Query.Cache
import JsonQuery.Query.Search

/-!
# Sessions

A **session** is what a program that runs queries holds on to: a cache of queries, and tables
of functions under names of its choice. Tables are values, so a copy of one knows nothing
of the functions that are added to the other later.

A query that a session compiles may be for the session's own use, in a search, or it may be
handed out. The session knows which ones it has **handed out**, and a caller who asks for one
of them again is told that it is the same (`JsonQuery.Session.Answer.again`); a query
that was only searched with is handed out for the first time, cached or not.

A session that has more queries than its cache is for starts over with none
(`JsonQuery.Session.keeps`).
-/

namespace JsonQuery

/-- A cache of queries and tables of functions. -/
structure Session where
  /-- The cache. -/
  cache : Cache
  /-- The texts of the queries that were handed out since the cache was last purged. -/
  handedOut : List String
  /-- The tables, under their names. -/
  tables : List (String × Registry)

namespace Session

/-- A session with a cache of a given capacity and no tables. -/
def start (capacity : Nat) : Session :=
  ⟨.empty capacity, [], []⟩

/-! ### Queries -/

/-- The queries that stay when there are too many: none. -/
def keeps (_ : Query) : Bool := false

/-- What a caller gets who asks for a query. -/
structure Answer where
  /-- The query, or why there is none. -/
  result : Except Error Query
  /-- Whether the same query was handed out before. -/
  again : Bool
  /-- The session from then on. -/
  session : Session

/-- **Compile a text** for the caller. -/
def compile (s : Session) (text : String) : Answer :=
  let answer := s.cache.compile keeps text
  let handedOut := match answer.result with
    | .ok _ => text :: s.handedOut
    | .error _ => s.handedOut
  ⟨answer.result, answer.hit && s.handedOut.contains text, { s with cache := answer.cache, handedOut }⟩

/-- Forget all queries. -/
def purge (s : Session) : Session :=
  { s with cache := s.cache.purge, handedOut := [] }

/-- What the query that a text holds yields on the value that a document is the text of, and
the session from then on. The query is compiled first here, and it is kept even if the
document cannot be read. -/
def search (s : Session) (table : Registry) (text document : String) :
    Except Error Json × Session :=
  let answer := s.cache.compile keeps text
  let result := match answer.result with
    | .error e => .error e
    | .ok q =>
      match Query.readDocument document with
      | .error e => .error e
      | .ok v => q.search table v
  (result, { s with cache := answer.cache })

/-! ### Tables -/

/-- The table of a name. -/
def table? (s : Session) (name : String) : Option Registry :=
  s.tables.lookup name

/-- Keep a table under a name. -/
def setTable (s : Session) (name : String) (table : Registry) : Session :=
  { s with tables := Entries.insert name table s.tables }

/-- Keep a copy of a table under another name. -/
def copyTable (s : Session) (name copy : String) : Session :=
  match s.table? name with
  | some table => s.setTable copy table
  | none => s

/-- Add a function to a table. -/
def register (s : Session) (name : String) (f : Function) : Session :=
  match s.table? name with
  | some table => s.setTable name (table.register f)
  | none => s

end Session

end JsonQuery
