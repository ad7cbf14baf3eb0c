import JsonQuery.Expr.Drawing
import JsonQuery.Expr.Encoding
import JsonQuery.Query.Search

/-!
# The command line

The program takes a query and a document, both as texts, and prints what the query yields on
the document; without a document it reads one from its input. **Flags** change that, and
they may stand anywhere: two of them show the query itself instead of running it, one
indents what is printed, one adds functions that open payloads. Two hyphens alone end the
flags, so that a query may begin with a hyphen.

Everything but reading and printing is settled here: `JsonQuery.CommandLine.start` says what
to do, which is to print and exit, or to read the input first
(`JsonQuery.CommandLine.Action`). The query is compiled before any document is looked at.
-/

namespace JsonQuery.CommandLine

/-! ### The arguments -/

/-- The flags. -/
inductive Flag where
  /-- Functions that open payloads are there. -/
  | payload
  /-- What is printed is indented. -/
  | indented
  /-- The query is shown as a document. -/
  | encoded
  /-- The query is shown as a drawing. -/
  | drawn
  /-- More is said about what goes on. -/
  | verbose
  deriving DecidableEq, Repr

/-- The flag of a long name. -/
def Flag.ofName? : String → Option Flag
  | "powertools" => some payload
  | "pretty" => some indented
  | "ast" => some encoded
  | "dot" => some drawn
  | "verbose" => some verbose
  | _ => none

/-- The flag of a letter. -/
def Flag.ofLetter? : Char → Option Flag
  | 'v' => some verbose
  | _ => none

/-- What the arguments say, in order. -/
structure Arguments where
  /-- The flags. -/
  flags : List Flag
  /-- The other arguments. -/
  operands : List String
  deriving DecidableEq, Repr

/-- What a single argument is by its look. Flags are written as a long name behind two
hyphens, or as letters behind one; a hyphen alone is no flag. -/
inductive Argument where
  /-- It stands for itself. -/
  | operand
  /-- It ends the flags. -/
  | separator
  /-- It stands for flags. -/
  | flags (flags : List Flag)
  /-- It begins like a flag and is none. -/
  | unknown
  deriving DecidableEq, Repr

/-- What an argument is. -/
def Argument.of (text : String) : Argument :=
  match text.toList with
  | ['-', '-'] => separator
  | '-' :: '-' :: name =>
    match Flag.ofName? (String.ofList name) with
    | some flag => flags [flag]
    | none => unknown
  | '-' :: letter :: letters =>
    match (letter :: letters).mapM Flag.ofLetter? with
    | some fs => flags fs
    | none => unknown
  | _ => operand

/-- The flags and the other arguments, unless there is one that begins like a flag and is
none. -/
def Arguments.of? : List String → Option Arguments
  | [] => some ⟨[], []⟩
  | text :: rest =>
    match Argument.of text with
    | .separator => some ⟨[], rest⟩
    | .unknown => none
    | .operand => (of? rest).map fun a => ⟨a.flags, text :: a.operands⟩
    | .flags fs => (of? rest).map fun a => ⟨fs ++ a.flags, a.operands⟩

/-- Whether flags go together: only one may come more than once, and a query is shown in
one way. -/
def isConsistent (flags : List Flag) : Bool :=
  (flags.filter fun flag => flag ≠ .verbose).Nodup && !(flags.contains .encoded && flags.contains .drawn)

/-- What the program is asked for. -/
structure Task where
  /-- The text of the query. -/
  query : String
  /-- The text of the document, if it is not to be read. -/
  document? : Option String
  /-- The flags. -/
  flags : List Flag
  deriving DecidableEq, Repr

/-- What the arguments ask for, if they are in order. -/
def Task.of? (arguments : List String) : Option Task :=
  match Arguments.of? arguments with
  | some ⟨flags, [query]⟩ => if isConsistent flags then some ⟨query, none, flags⟩ else none
  | some ⟨flags, [query, document]⟩ =>
    if isConsistent flags then some ⟨query, some document, flags⟩ else none
  | _ => none

/-! ### What comes of it -/

/-- What the program leaves behind. -/
structure Outcome where
  /-- The exit code. -/
  code : Nat
  /-- What is printed. -/
  output : String
  /-- What is printed about errors. -/
  errors : String
  deriving DecidableEq, Repr

/-- Print a text. -/
def Outcome.success (text : String) : Outcome :=
  ⟨0, text, ""⟩

/-- Fail with a message. -/
def Outcome.failure (message : String) : Outcome :=
  ⟨1, "", message ++ "\n"⟩

/-- Be broken off, for a reason. -/
def Outcome.brokenOff (reason : String) : Outcome :=
  ⟨101, "", reason ++ "\n"⟩

/-- Refuse the arguments. -/
def Outcome.misuse : Outcome :=
  ⟨2, "", "usage: [--powertools] [--pretty] [--ast | --dot] [-v] EXPRESSION [JSON]\n"⟩

/-- A value as it is printed. -/
def printed (indented : Bool) (v : Json) : String :=
  (if indented then v.indentedText else v.text) ++ "\n"

/-- The table that a task is done with. -/
def Task.table (task : Task) : Registry :=
  if task.flags.contains .payload then .withPayload else .standard

/-- Run the query of a task on a document. -/
def Task.search (task : Task) (q : Query) (document : String) : Outcome :=
  match Json.ofText? document with
  | none => .failure "Invalid JSON"
  | some v =>
    match q.search task.table v with
    | .error e => if e.breaksOff then .brokenOff e.message else .failure e.message
    | .ok w => .success (printed (task.flags.contains .indented) w)

/-- What to do next. -/
inductive Action where
  /-- Print and exit. -/
  | finish (outcome : Outcome)
  /-- Read the input, print what comes of it and exit. -/
  | read (next : String → Outcome)

/-- What comes of it if the input is a given text. -/
def Action.outcome (input : String) : Action → Outcome
  | finish outcome => outcome
  | read next => next input

/-- What comes of it if the input is not a text. -/
def Outcome.unreadable : Outcome :=
  .failure "Failed to read stdin: stream did not contain valid UTF-8"

/-- What to do for a task. -/
def Task.action (task : Task) : Action :=
  match Query.compile task.query with
  | .error e => .finish (.failure e.message)
  | .ok q =>
    if task.flags.contains .drawn then .finish (.success q.expr.drawing)
    else if task.flags.contains .encoded then .finish (.success (printed true q.expr.encode))
    else
      match task.document? with
      | some document => .finish (task.search q document)
      | none => .read (task.search q)

/-- **What to do for some arguments.** -/
def start (arguments : List String) : Action :=
  match Task.of? arguments with
  | some task => task.action
  | none => .finish .misuse

end JsonQuery.CommandLine
