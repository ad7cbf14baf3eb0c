import JsonQuery.Query.Cache
import Mathlib.Data.Finset.Card

/-!
# A cache that is shared

Several **clients** may compile texts through the same cache. A client who does looks the
text up first, and if it is not there compiles it by himself and has the query kept. The
cache is in his hands twice, once for looking up and once for keeping, and in between other
clients may do to it what they like: look up and keep the same text, have queries dropped,
purge it. A query that is kept may be dropped at once if there are too many.

A **state** (`JsonQuery.SharedCache.State`) is the cache together with the texts that
clients are about to compile, and a **step** (`JsonQuery.SharedCache.Step`) is what one
client does to the cache at a time. Which client is next, and which queries are dropped,
is left open.

A client who has a cache for himself need not be looked at so closely. He makes one
**request** (`JsonQuery.Cache.Request`) after the other, and the cache answers each as a whole.
-/

namespace JsonQuery

/-! ### One client -/

namespace Cache

/-- What a single client asks of a cache. -/
inductive Request where
  /-- He has a text compiled. If there are too many queries then, those stay that pass a test. -/
  | compile (keep : Query → Bool) (text : String)
  /-- He purges the cache. -/
  | purge

/-- A cache after some requests, the latest one first. -/
def after (c : Cache) : List Request → Cache
  | [] => c
  | .compile keep text :: rs => ((c.after rs).compile keep text).cache
  | .purge :: rs => (c.after rs).purge

/-- The texts that queries were got for since the cache was last purged. -/
def compiledTexts : List Request → Finset String
  | [] => ∅
  | .purge :: _ => ∅
  | .compile _ text :: rs =>
    match Query.compile text with
    | .ok _ => Insert.insert text (compiledTexts rs)
    | .error _ => compiledTexts rs

end Cache

/-! ### Several clients -/

namespace SharedCache

/-- What a client does to the cache at a time. -/
inductive Event (ι : Type) where
  /-- He finds a query under a text, and is done with it. -/
  | found (client : ι) (text : String) (q : Query)
  /-- He finds none. -/
  | missed (client : ι) (text : String)
  /-- He is done with a text that he did not find, whatever compiling it came to. -/
  | compiled (client : ι) (text : String) (result : Except Error Query)
  /-- He purges the cache. -/
  | purged (client : ι)

namespace Event

variable {ι : Type}

/-- The text that a client compiles, if he does. -/
def text? : Event ι → Option String
  | found _ text _ | missed _ text | compiled _ text _ => some text
  | purged _ => none

/-- The text that a client is done with, and what he got for it. -/
def answer? : Event ι → Option (String × Except Error Query)
  | found _ text q => some (text, .ok q)
  | compiled _ text result => some (text, result)
  | missed .. | purged _ => none

end Event

/-- A **state**: the cache, and the text that each client missed and is about to compile. -/
structure State (ι : Type) where
  /-- The cache. -/
  cache : Cache
  /-- The texts that were missed, by client. -/
  pending : ι → Option String

/-- A cache that holds nothing, and no text that was missed. -/
def start (ι : Type) (capacity : Nat) : State ι :=
  ⟨.empty capacity, fun _ => none⟩

variable {ι : Type} [DecidableEq ι]

/-- **What can happen next.** Only a client who is not about to compile anything looks up a
text or purges the cache. -/
inductive Step : State ι → Event ι → State ι → Prop
  /-- A text is looked up and found. -/
  | found {s : State ι} {i : ι} {text : String} {q : Query} (hi : s.pending i = none)
      (h : s.cache.find? text = some q) : Step s (.found i text q) s
  /-- A text is looked up and not found. -/
  | missed {s : State ι} {i : ι} {text : String} (hi : s.pending i = none)
      (h : s.cache.find? text = none) :
      Step s (.missed i text) ⟨s.cache, Function.update s.pending i (some text)⟩
  /-- A text that was missed compiles, and its query is kept. -/
  | kept {s : State ι} {i : ι} {text : String} {q : Query} (hi : s.pending i = some text)
      (h : Query.compile text = .ok q) (keep : Query → Bool) :
      Step s (.compiled i text (.ok q))
        ⟨s.cache.insert keep q, Function.update s.pending i none⟩
  /-- A text that was missed does not compile. -/
  | refused {s : State ι} {i : ι} {text : String} {e : Error} (hi : s.pending i = some text)
      (h : Query.compile text = .error e) :
      Step s (.compiled i text (.error e)) ⟨s.cache, Function.update s.pending i none⟩
  /-- The cache is purged. -/
  | purged {s : State ι} {i : ι} (hi : s.pending i = none) :
      Step s (.purged i) ⟨s.cache.purge, s.pending⟩

/-- What can have happened up to a state, the latest event first. -/
inductive Run (capacity : Nat) : List (Event ι) → State ι → Prop
  /-- Nothing happened. -/
  | start : Run capacity [] (start ι capacity)
  /-- One more event. -/
  | step {es : List (Event ι)} {s t : State ι} {e : Event ι} (h : Run capacity es s)
      (hs : Step s e t) : Run capacity (e :: es) t

/-- The texts that clients got queries for since the cache was last purged. -/
def texts : List (Event ι) → Finset String
  | [] => ∅
  | .purged _ :: _ => ∅
  | .found _ text _ :: es => insert text (texts es)
  | .compiled _ text (.ok _) :: es => insert text (texts es)
  | .compiled _ _ (.error _) :: es => texts es
  | .missed .. :: es => texts es

end SharedCache

end JsonQuery
