import Bytescript.CommandLine

/-!
# The program

Reads the script that the arguments name, and prints what running it prints.
-/

namespace Bytescript

/-- The text of a file, or why it cannot be read. -/
def readSource (file : String) : IO (Except String String) := do
  try
    return .ok (← IO.FS.readFile file)
  catch e =>
    match e with
    | .noFileOrDirectory _ code _ => return .error s!"No such file or directory (os error {code})"
    | e => return .error (toString e)

/-- More steps than any run takes. -/
def stepLimit : Nat := 1 <<< 62

end Bytescript

open Bytescript in
/-- Exits with zero if the script ran, one if something failed, and two if the arguments make no
sense. -/
def main (args : List String) : IO UInt32 := do
  match Arguments.parse args with
  | none =>
    IO.eprintln
      "error: expected [--dump-bytecode] [--log-disassembly] [--max-frames N] [--max-stack N] FILE"
    return 2
  | some a =>
    let report := a.run stepLimit (← readSource a.file)
    IO.print report.output
    if let some failure := report.failure then IO.eprintln failure.message
    return report.exitCode.toUInt32
