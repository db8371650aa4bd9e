import Bytescript.Text.Invisible

/-!
# Quoted text and numerals

A quoted text stands between double quotes. Quote and backslash are preceded by a backslash, four
control characters have a letter, and every other invisible character is written by its number.
-/

namespace Bytescript.Text

/-- The lower-case hexadecimal numeral of a number. -/
def hex (n : Nat) : String := String.ofList (Nat.toDigits 16 n)

/-- A text filled up with `fill` on the left to the given width. -/
def padLeft (fill : Char) (width : Nat) (s : String) : String :=
  String.ofList (List.replicate (width - s.length) fill) ++ s

/-- A text filled up with blanks on the right to the given width. -/
def padRight (width : Nat) (s : String) : String :=
  s ++ String.ofList (List.replicate (width - s.length) ' ')

/-- How one character stands in a quoted text. -/
def quotedChar (c : Char) : String :=
  match c with
  | '\n' => "\\n"
  | '\r' => "\\r"
  | '\t' => "\\t"
  | '\x00' => "\\0"
  | '\\' => "\\\\"
  | '"' => "\\\""
  | c => if isInvisible c then "\\u\x7b" ++ hex c.toNat ++ "\x7d" else String.singleton c

def quoted (s : String) : String :=
  "\"" ++ s.foldl (fun out c => out ++ quotedChar c) "" ++ "\""

end Bytescript.Text
