import JsonQuery.CommandLine

/-!
# The program

Reading, printing and exiting, as `JsonQuery.CommandLine.start` says. Nothing is decided here.
-/

namespace JsonQuery.CommandLine

/-- Print what is left behind, and exit. -/
def report (outcome : Outcome) : IO UInt32 := do
  IO.print outcome.output
  IO.eprint outcome.errors
  return UInt32.ofNat outcome.code

/-- All of the input, if it is a text. -/
partial def readInput (input : IO.FS.Stream) (read : ByteArray) : IO (Option String) := do
  let chunk ← input.read 65536
  if chunk.isEmpty then return String.fromUTF8? read else readInput input (read ++ chunk)

end JsonQuery.CommandLine

open JsonQuery.CommandLine

/-- Do what the arguments say. -/
def main (arguments : List String) : IO UInt32 := do
  match start arguments with
  | .finish outcome => report outcome
  | .read next =>
    match ← readInput (← IO.getStdin) .empty with
    | some text => report (next text)
    | none => report .unreadable
