import Rollup.CommandLine

/-!
# The program

Reads the arguments and the files, runs the command and prints.
-/

namespace Rollup.CommandLine

/-- The reason why a file cannot be read, as the system words it. -/
def reason : IO.Error → String
  | .noFileOrDirectory .. => "No such file or directory (os error 2)"
  | .permissionDenied .. => "Permission denied (os error 13)"
  | .inappropriateType .. => "Is a directory (os error 21)"
  | e => toString e

/-- Reads a file. -/
def load (path : String) : IO Source := do
  match ← (IO.FS.readBinFile path).toBaseIO with
  | .error e => return ⟨path, .error (reason e)⟩
  | .ok bytes =>
    match String.fromUTF8? bytes with
    | some text => return ⟨path, .ok text⟩
    | none => return ⟨path, .error "stream did not contain valid UTF-8"⟩

/-- The values of the options `--name value` and `--name=value`. -/
def options : List String → Option (List (String × String))
  | [] => some []
  | arg :: rest =>
    match arg.splitOn "=", rest with
    | name :: value :: more, rest =>
      (options rest).map ((name, "=".intercalate (value :: more)) :: ·)
    | _, value :: rest => (options rest).map ((arg, value) :: ·)
    | _, [] => none

/-- The names of the options. -/
def optionNames : List String := ["--query", "--events", "--retract", "--config", "--index"]

/-- How to call the program. -/
def usage : String :=
  "usage: tally run --query <FILE> --events <FILE> [--retract <FILE>] [--config <FILE>] " ++
    "[--index <JSON>]"

/-- Runs the command with its options. -/
def runWith (given : List (String × String)) : IO UInt32 := do
  let some query := given.lookup "--query" | IO.eprintln usage; return 2
  let some events := given.lookup "--events" | IO.eprintln usage; return 2
  let request : Request :=
    { query := ← load query
      events := ← load events
      retract? := ← (given.lookup "--retract").mapM load
      config? := ← (given.lookup "--config").mapM load
      index? := given.lookup "--index" }
  match run request with
  | .ok rows =>
    let out ← IO.getStdout
    for row in rows do out.putStrLn (rowLine row)
    return 0
  | .error problem =>
    IO.eprintln problem.line
    return 1

end Rollup.CommandLine

open Rollup.CommandLine in
/-- Runs the command that the arguments name. -/
def main (args : List String) : IO UInt32 := do
  match args with
  | "run" :: rest =>
    match options rest with
    | some given =>
      if given.all fun o => optionNames.contains o.1 then runWith given
      else
        IO.eprintln usage
        return 2
    | none =>
      IO.eprintln usage
      return 2
  | _ =>
    IO.eprintln usage
    return 2
