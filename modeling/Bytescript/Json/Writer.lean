import Bytescript.Json
import Bytescript.Text.Quoted

/-!
# Writing JSON

The text of a JSON value, without blanks. How floats are written is up to the caller, since JSON has
no spelling for some of them.
-/

namespace Bytescript.Json

/-- A character inside a quoted string. -/
def escaped (c : Char) : String :=
  if c = '"' then "\\\""
  else if c = '\\' then "\\\\"
  else if c.toNat < 32 then "\\u" ++ Text.padLeft '0' 4 (Text.hex c.toNat)
  else c.toString

/-- A string in quotes, appended to a text. -/
def writeString (out s : String) : String :=
  s.foldl (fun out c => out ++ escaped c) (out.push '"') |>.push '"'

mutual

/-- The text of a value, appended to a text. A part that is out of range leaves a null. -/
def write (float : Double → String) (out : String) : Json → String
  | .null | .outOfRange => out ++ "null"
  | .bool b => out ++ (if b then "true" else "false")
  | .int n => out ++ toString n
  | .float x => out ++ float x
  | .string s => writeString out s
  | .array [] => out ++ "[]"
  | .array (j :: js) => writeElements float (write float (out.push '[') j) js |>.push ']'
  | .object [] => out ++ "\x7b\x7d"
  | .object (m :: ms) =>
    writeMembers float (writeMember float (out.push '\x7b') m) ms |>.push '\x7d'

/-- Further elements of an array. -/
def writeElements (float : Double → String) (out : String) : List Json → String
  | [] => out
  | j :: js => writeElements float (write float (out.push ',') j) js

/-- One member of an object. -/
def writeMember (float : Double → String) (out : String) : String × Json → String
  | (name, j) => write float ((writeString out name).push ':') j

/-- Further members of an object. -/
def writeMembers (float : Double → String) (out : String) : List (String × Json) → String
  | [] => out
  | m :: ms => writeMembers float (writeMember float (out.push ',') m) ms

end

end Bytescript.Json
