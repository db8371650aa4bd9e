import Bytescript.Engine
import Bytescript.Lowering.Declaration
import Bytescript.Tree.Json

/-!
# Command line

What the program does with its arguments: it reads a script, compiles it, and runs its top-level
code or lists what it was compiled to. Reading files and printing are left to the caller.
-/

namespace Bytescript

structure Arguments where
  file : String
  /-- List the code instead of running it. -/
  dump : Bool := false
  /-- Note the code of each routine in the journal. -/
  listings : Bool := false
  limits : Limits := {}
deriving DecidableEq, Repr

namespace Arguments

/-- What has been read of the arguments so far. -/
structure Parsed where
  file : Option String := none
  dump : Bool := false
  listings : Bool := false
  frames : Option Nat := none
  stack : Option Nat := none

/-- An unsigned number of 64 bits in decimal digits, which may have a plus sign. -/
def number? (s : String) : Option Nat := do
  let digits := match s.toList with
    | '+' :: rest => rest
    | cs => cs
  guard (!digits.isEmpty && digits.all Char.isDigit)
  let n := digits.foldl (fun n c => 10 * n + (c.toNat - '0'.toNat)) 0
  if n < UInt64.size then some n else none

def setFile (p : Parsed) (name : String) : Option Parsed :=
  if p.file.isSome then none else some { p with file := some name }

/-- An option without a value, which may be given once. -/
def setFlag (p : Parsed) (name : String) : Option Parsed :=
  match name with
  | "dump-bytecode" => if p.dump then none else some { p with dump := true }
  | "log-disassembly" => if p.listings then none else some { p with listings := true }
  | _ => none

/-- An option with a value, which may be given once. -/
def setLimit (p : Parsed) (name value : String) : Option Parsed := do
  let n ← number? value
  match name with
  | "max-frames" => if p.frames.isSome then none else some { p with frames := some n }
  | "max-stack" => if p.stack.isSome then none else some { p with stack := some n }
  | _ => none

def takesValue (name : String) : Bool := name = "max-frames" || name = "max-stack"

/-- Whether an argument is an option; a lone dash is none. -/
def isOption (arg : String) : Bool := arg.startsWith "-" && arg != "-"

/-- The name of a long option and the value behind an equals sign. -/
def long? (arg : String) : Option (String × Option String) :=
  match arg.toList with
  | '-' :: '-' :: cs =>
    let name := String.ofList (cs.takeWhile (· != '='))
    match cs.dropWhile (· != '=') with
    | _ :: value => some (name, some (.ofList value))
    | [] => some (name, none)
  | _ => none

/-- Reads arguments in any order; behind two dashes there are no options. -/
def collect : Parsed → List String → Option Parsed
  | p, [] => some p
  | p, "--" :: files => files.foldlM setFile p
  | p, arg :: rest =>
    if isOption arg then
      match long? arg, rest with
      | some (name, some value), rest => do collect (← setLimit p name value) rest
      | some (name, none), value :: rest' =>
        if takesValue name then
          if isOption value then none else do collect (← setLimit p name value) rest'
        else do collect (← setFlag p name) (value :: rest')
      | some (name, none), [] => setFlag p name
      | none, _ => none
    else do collect (← setFile p arg) rest

/-- The arguments, if they are well formed and name a file. -/
def parse (args : List String) : Option Arguments := do
  let p ← collect {} args
  let limits : Limits := {}
  return {
    file := ← p.file
    dump := p.dump
    listings := p.listings
    limits := ⟨p.frames.getD limits.frames, p.stack.getD limits.stack⟩ }

end Arguments

/-- Why the program did not succeed. -/
inductive Failure where
  | unreadable (file reason : String)
  | malformed (file : String)
  | uncompilable (file : String) (error : CompileError)
  | faulted (file : String) (fault : Option Fault)
deriving DecidableEq, Repr

def Failure.message : Failure → String
  | unreadable file reason => s!"Error reading file '{file}': {reason}"
  | malformed file => s!"Error parsing {file}"
  | uncompilable file error => s!"Error compiling {file}: {error.message}"
  | faulted file (some fault) => s!"Error executing {file}: {fault.message}"
  | faulted file none => s!"Error executing {file}"

/-- What the program prints, and why it failed if it did. -/
structure Report where
  output : String := ""
  failure : Option Failure := none

def Report.exitCode (r : Report) : UInt8 := if r.failure.isSome then 1 else 0

namespace Arguments

/-- Runs the top-level code of an image, for so many steps at most. -/
def execute (a : Arguments) (fuel : Nat) (image : Image) : Report :=
  let engine := Engine.load image Native.builtins a.limits {}
  let (id, engine) := engine.spawnMain
  match engine.execute fuel id with
  | .error _ => { failure := some (.faulted a.file none) }
  | .ok (status, engine) =>
    { output := engine.world.output
      failure :=
        if status = .halted then none
        else some (.faulted a.file ((engine.context? id).bind Context.fault)) }

/-- Does what the arguments say with the text of the file, or with the reason why there is none. -/
def run (a : Arguments) (fuel : Nat) (source : Except String String) : Report :=
  match source with
  | .error reason => { failure := some (.unreadable a.file reason) }
  | .ok text =>
    match Script.read? text with
    | none => { failure := some (.malformed a.file) }
    | some script =>
      let natives := Native.builtins.toList.map Native.signature
      match (script.compile { natives, listings := a.listings }).1 with
      | .error e => { failure := some (.uncompilable a.file e) }
      | .ok image =>
        if a.dump then { output := s!"== {a.file} ==\n" ++ image.listing }
        else a.execute fuel image

end Arguments

end Bytescript
