import JsonQuery.Query

/-!
# A cache of queries

Programs use the same few queries over and over, and a **cache** keeps those that were
compiled, each under its text. What is kept is what compiling the text would yield, so
nobody can tell a cached query from a fresh one, except by asking whether it was a
**hit**. A text that does not compile is not kept; it is refused anew each time.

A cache has a *capacity*. As soon as it holds more queries, some of them are dropped, and
no promise is made which: that choice is a parameter of `JsonQuery.Cache.insert`, a test for
the queries that stay.
-/

namespace JsonQuery

/-- A cache of queries. -/
structure Cache where
  /-- How many queries it holds at most without dropping some. -/
  capacity : Nat
  /-- The queries it holds. -/
  queries : List Query

namespace Cache

/-- How many queries a cache holds if nothing else is said. -/
def defaultCapacity : Nat := 128

/-- A cache of a given capacity that holds nothing. -/
def empty (capacity : Nat) : Cache :=
  ⟨capacity, []⟩

/-- How many queries a cache holds. -/
def size (c : Cache) : Nat :=
  c.queries.length

/-- The query that is kept under a text. -/
def find? (c : Cache) (text : String) : Option Query :=
  c.queries.find? fun q => q.text == text

/-- Forget all queries. -/
def purge (c : Cache) : Cache :=
  empty c.capacity

/-- Drop the queries that fail a test, if there are too many of them. -/
def shrink (keep : Query → Bool) (c : Cache) : Cache :=
  if c.capacity < c.size then ⟨c.capacity, c.queries.filter keep⟩ else c

/-- Keep a query, in place of the one with its text if there is one. If there are too many
then, the queries that fail a test are dropped. -/
def insert (keep : Query → Bool) (q : Query) (c : Cache) : Cache :=
  shrink keep ⟨c.capacity, q :: c.queries.filter fun p => p.text != q.text⟩

/-- What compiling a text through a cache comes to. -/
structure Answer where
  /-- The query, or why there is none. -/
  result : Except Error Query
  /-- Whether the query came from the cache. -/
  hit : Bool
  /-- The cache from now on. -/
  cache : Cache

/-- **Compile a text through a cache.** -/
def compile (keep : Query → Bool) (c : Cache) (text : String) : Answer :=
  match c.find? text with
  | some q => ⟨.ok q, true, c⟩
  | none =>
    match Query.compile text with
    | .ok q => ⟨.ok q, false, c.insert keep q⟩
    | .error e => ⟨.error e, false, c⟩

end Cache

end JsonQuery
