import Bytescript.Double

/-!
# JSON values and their reader

Scripts arrive as JSON texts. `Json.read?` accepts exactly one value with blanks around it. Numbers
without fraction and exponent are integers as long as they fit 64 bits, signed or unsigned; all
others are doubles. The members of an object stay in order, repeated names included, so that a
reader of records can refuse repetitions.

A text can be well formed where it denotes nothing: a number beyond the largest double, or half of a
surrogate pair in a string. Such a part is `outOfRange`. It does no harm where nobody looks at it,
and whoever needs its value is refused.
-/

namespace Bytescript

inductive Json where
  | null
  | bool (value : Bool)
  | int (value : Int)
  | float (value : Double)
  | string (value : String)
  | array (elements : List Json)
  | object (members : List (String × Json))
  /-- A number that is no double, a string that is no text, or an object with such a name. -/
  | outOfRange

namespace Json

instance : Inhabited Json := ⟨null⟩

/-! ## Blanks and numbers -/

def isBlank (c : Char) : Bool := c == ' ' || c == '\n' || c == '\r' || c == '\t'

def skipBlanks (cs : List Char) : List Char := cs.dropWhile isBlank

/-- The number that a run of decimal digits denotes. -/
def numeral (digits : List Char) : Nat :=
  digits.foldl (fun n c => 10 * n + (c.toNat - '0'.toNat)) 0

/-- The double nearest to a decimal. -/
def ofDecimal (negative : Bool) (digits : Nat) (exponent : Int) : Json :=
  (Double.ofDecimal? negative digits exponent).elim outOfRange float

/-- An integer literal. A minus zero is the double of that name, as are integers of more than 64
bits. -/
def ofInteger (negative : Bool) (n : Nat) : Json :=
  if negative then
    if 0 < n ∧ n ≤ 1 <<< 63 then int (-n) else ofDecimal true n 0
  else
    if n < UInt64.size then int n else ofDecimal false n 0

/-- The digits after a decimal point: at least one. -/
def fraction? : List Char → Option (List Char × List Char)
  | '.' :: cs =>
    match cs.span Char.isDigit with
    | ([], _) => none
    | (digits, rest) => some (digits, rest)
  | cs => some ([], cs)

/-- The signed digits of an exponent: at least one digit. -/
def exponent? (cs : List Char) : Option (Option Int × List Char) :=
  match cs with
  | c :: rest =>
    if c = 'e' ∨ c = 'E' then
      let (negative, rest) :=
        match rest with
        | '-' :: rest => (true, rest)
        | '+' :: rest => (false, rest)
        | rest => (false, rest)
      match rest.span Char.isDigit with
      | ([], _) => none
      | (digits, rest) =>
        let n : Int := numeral digits
        some (some (if negative then -n else n), rest)
    else some (none, cs)
  | [] => some (none, cs)

/-- A number without its sign; a leading zero stands alone. -/
def unsigned? (negative : Bool) (cs : List Char) : Option (Json × List Char) := do
  let (whole, rest) := cs.span Char.isDigit
  guard (whole = ['0'] || whole.head?.any (· != '0'))
  let (fraction, rest) ← fraction? rest
  let (exponent, rest) ← exponent? rest
  if fraction.isEmpty && exponent.isNone then
    return (ofInteger negative (numeral whole), rest)
  else
    return (ofDecimal negative (numeral (whole ++ fraction)) (exponent.getD 0 - fraction.length),
      rest)

/-! ## Strings -/

def hexDigit? (c : Char) : Option Nat :=
  if '0' ≤ c ∧ c ≤ '9' then some (c.toNat - '0'.toNat)
  else if 'a' ≤ c ∧ c ≤ 'f' then some (c.toNat - 'a'.toNat + 10)
  else if 'A' ≤ c ∧ c ≤ 'F' then some (c.toNat - 'A'.toNat + 10)
  else none

/-- Four hexadecimal digits. -/
def unit? : List Char → Option (Nat × List Char)
  | a :: b :: c :: d :: rest => do
    let n := (← hexDigit? a) * 4096 + (← hexDigit? b) * 256 + (← hexDigit? c) * 16 + (← hexDigit? d)
    return (n, rest)
  | _ => none

/-- The escape of a low surrogate. -/
def lowSurrogate? : List Char → Option (Nat × List Char)
  | '\\' :: 'u' :: rest => (unit? rest).filter fun (n, _) => 0xdc00 ≤ n && n ≤ 0xdfff
  | _ => none

/-- The character of a `\u` escape: one unit, or a high and a low surrogate in two escapes. A
surrogate without its partner is no character. -/
def escapedUnit? (cs : List Char) : Option (Option Char × List Char) := do
  let (n, rest) ← unit? cs
  if n < 0xd800 ∨ 0xdfff < n then
    return (some (.ofNat n), rest)
  else if n < 0xdc00 then
    match lowSurrogate? rest with
    | some (low, rest) =>
      return (some (.ofNat (0x10000 + (n - 0xd800) * 1024 + (low - 0xdc00))), rest)
    | none => return (none, rest)
  else
    return (none, rest)

/-- The character that a backslash introduces, if it is one. -/
def escaped? : List Char → Option (Option Char × List Char)
  | '"' :: rest => some (some '"', rest)
  | '\\' :: rest => some (some '\\', rest)
  | '/' :: rest => some (some '/', rest)
  | 'b' :: rest => some (some '\x08', rest)
  | 'f' :: rest => some (some '\x0c', rest)
  | 'n' :: rest => some (some '\n', rest)
  | 'r' :: rest => some (some '\r', rest)
  | 't' :: rest => some (some '\t', rest)
  | 'u' :: rest => escapedUnit? rest
  | _ => none

/-- The rest of a string behind its opening quote; `read` holds what came before, reversed, as long
as it is a text. Every call uses up a character. -/
def stringTail? : (fuel : Nat) → (read : Option (List Char)) → List Char →
    Option (Option String × List Char)
  | 0, _, _ => none
  | _ + 1, _, [] => none
  | _ + 1, read, '"' :: rest => some (read.map fun cs => String.ofList cs.reverse, rest)
  | fuel + 1, read, '\\' :: rest => do
    let (c, rest) ← escaped? rest
    stringTail? fuel (do return (← c) :: (← read)) rest
  | fuel + 1, read, c :: rest =>
    if c.toNat < 32 then none else stringTail? fuel (read.map (c :: ·)) rest

/-! ## Values -/

mutual

/-- One value and what follows it. Every two levels of calls use up a character, so fuel of twice
the length of the text is enough. -/
def value? : (fuel : Nat) → List Char → Option (Json × List Char)
  | 0, _ => none
  | fuel + 1, cs =>
    match skipBlanks cs with
    | '\x7b' :: rest =>
      match skipBlanks rest with
      | '\x7d' :: rest => some (.object [], rest)
      | rest => members? fuel (some []) rest
    | '[' :: rest =>
      match skipBlanks rest with
      | ']' :: rest => some (.array [], rest)
      | rest => elements? fuel [] rest
    | '"' :: rest =>
      (stringTail? fuel (some []) rest).map fun (s, rest) => (s.elim outOfRange string, rest)
    | 't' :: 'r' :: 'u' :: 'e' :: rest => some (.bool true, rest)
    | 'f' :: 'a' :: 'l' :: 's' :: 'e' :: rest => some (.bool false, rest)
    | 'n' :: 'u' :: 'l' :: 'l' :: rest => some (.null, rest)
    | '-' :: rest => unsigned? true rest
    | rest => unsigned? false rest

/-- The elements of an array from the next one on; `read` holds the earlier ones, reversed. -/
def elements? : (fuel : Nat) → (read : List Json) → List Char → Option (Json × List Char)
  | 0, _, _ => none
  | fuel + 1, read, cs =>
    match value? fuel cs with
    | none => none
    | some (v, rest) =>
      match skipBlanks rest with
      | ',' :: rest => elements? fuel (v :: read) rest
      | ']' :: rest => some (.array (v :: read).reverse, rest)
      | _ => none

/-- The members of an object from the next one on; `read` holds the earlier ones, reversed, as long
as their names are texts. -/
def members? : (fuel : Nat) → (read : Option (List (String × Json))) → List Char →
    Option (Json × List Char)
  | 0, _, _ => none
  | fuel + 1, read, cs =>
    match skipBlanks cs with
    | '"' :: rest =>
      match stringTail? fuel (some []) rest with
      | none => none
      | some (name, rest) =>
        match skipBlanks rest with
        | ':' :: rest =>
          match value? fuel rest with
          | none => none
          | some (v, rest) =>
            let read := do return (← name, v) :: (← read)
            match skipBlanks rest with
            | ',' :: rest => members? fuel read rest
            | '\x7d' :: rest => some (read.elim outOfRange fun ms => object ms.reverse, rest)
            | _ => none
        | _ => none
    | _ => none

end

/-- The value that a text holds, or `none` if it is not one JSON value. -/
def read? (text : String) : Option Json :=
  let cs := text.toList
  match value? (2 * cs.length + 2) cs with
  | some (v, rest) => if (skipBlanks rest).isEmpty then some v else none
  | none => none

/-! ## Parts of values -/

def string? : Json → Option String
  | .string s => some s
  | _ => none

def bool? : Json → Option Bool
  | .bool b => some b
  | _ => none

def int? : Json → Option Int
  | .int n => some n
  | _ => none

/-- An integer of at least `low` and at most `high`. -/
def intIn? (low high : Int) (j : Json) : Option Int :=
  j.int?.filter fun n => low ≤ n && n ≤ high

def array? : Json → Option (List Json)
  | .array xs => some xs
  | _ => none

/-- A number as a double; integers are rounded to the nearest one. -/
def double? : Json → Option Double
  | .float x => some x
  | .int n => Double.ofDecimal? (n < 0) n.natAbs 0
  | _ => none

/-- The value of an absent or null optional part is `none`; any other value has to be readable. -/
def optional? {α : Type} (read : Json → Option α) : Option Json → Option (Option α)
  | none => some none
  | some .null => some none
  | some j => (read j).map some

/-- The named parts of a record, in the order of `names`. An object may hold further members but no
name twice. A record may also be an array of its parts in order, of which only the last `spare` ones
may be missing. -/
def record? (names : List String) (spare : Nat) : Json → Option (List (Option Json))
  | .object members =>
    names.mapM fun name =>
      match members.filter (·.1 = name) with
      | [] => some none
      | [m] => some (some m.2)
      | _ => none
  | .array parts =>
    if parts.length ≤ names.length ∧ names.length ≤ parts.length + spare then
      some (parts.map some ++ List.replicate (names.length - parts.length) none)
    else none
  | _ => none

/-- The name of a variant and its payload: a bare name, or an object with the name as its only
member. -/
def variant? : Json → Option (String × Option Json)
  | .string name => some (name, none)
  | .object [(name, payload)] => some (name, some payload)
  | _ => none

end Json

end Bytescript
