import Formula.CommandLine.Run

/-!
# The program

Reads the arguments, carries out the command and ends with its exit code. Files, the clock and the
two output streams are touched only here.
-/

namespace Formula.CommandLine

/-- Why a file could not be read. -/
def reason : IO.Error → String
  | .noFileOrDirectory .. => "No such file or directory (os error 2)"
  | .permissionDenied .. => "Permission denied (os error 13)"
  | .inappropriateType .. => "Is a directory (os error 21)"
  | .userError _ => "stream did not contain valid UTF-8"
  | other => other.toString

/-- The text of a file. -/
def readFile (path : String) : IO (Except String String) := do
  try
    return .ok (← IO.FS.readFile path)
  catch error =>
    return .error (reason error)

/-- The clock, in ticks of a microsecond. -/
def ticks : IO Float := do
  return (← IO.monoNanosNow).toFloat / 1000.0

/-- Evaluates up to the first error: the last result, and the nanoseconds that went by. -/
def measure (ready : Ready) (count : Nat) : IO (Except RuntimeError Float × Nat) := do
  let start ← IO.monoNanosNow
  let mut result := .ok 0.0
  for _ in [0:count] do
    result := ready.eval (← ticks)
    if let .error _ := result then
      break
  return (result, (← IO.monoNanosNow) - start)

/-- Carries out a command. -/
def execute (invocation : Invocation) : IO Output := do
  match invocation.command with
  | .eval expression o =>
    let content ← match o.definitions with
      | some path => readFile path
      | none => pure (.ok "")
    match (prepare (fun _ => content) expression o).run #[] with
    | (.error message, written) =>
      return Work.output invocation.level do
        set written
        throw message
    | (.ok ready, written) =>
      let (result, nanoseconds) ← measure ready o.count
      return Work.output invocation.level do
        set written
        finish expression o ready result (.of o.count nanoseconds)
  | _ => return invocation.run (fun _ => .error "") 0.0 (.of 1 0)

end Formula.CommandLine

open Formula.CommandLine in
/-- The program. -/
def main (arguments : List String) : IO UInt32 := do
  match Invocation.ofArgs arguments with
  | .error error =>
    IO.eprintln error.text
    return 2
  | .ok invocation =>
    let output ← execute invocation
    IO.print output.stdout
    IO.eprint output.stderr
    return UInt32.ofNat output.code
