/-!
# Journals

What compiling and running report about themselves. A journal keeps the entries down to a level of
detail, each as a line with its level in front, and ignores the rest.
-/

namespace Bytescript

/-- How much an entry matters, from the most to the least. -/
inductive Level where
  | warn
  | debug
  | trace
deriving DecidableEq, Repr, Inhabited

namespace Level

def detail : Level → Nat
  | warn => 0
  | debug => 1
  | trace => 2

def name : Level → String
  | warn => "WARN"
  | debug => "DEBUG"
  | trace => "TRACE"

end Level

structure Journal where
  /-- The least level that is kept; nothing is kept without one. -/
  threshold : Option Level := none
  /-- The lines, last one first. -/
  lines : List String := []
deriving Inhabited

namespace Journal

def keeps (j : Journal) (level : Level) : Bool :=
  j.threshold.any (level.detail ≤ ·.detail)

/-- Adds an entry if its level is kept. -/
@[inline]
def note (j : Journal) (level : Level) (text : Unit → String) : Journal :=
  if j.keeps level then { j with lines := (level.name ++ " " ++ text ()) :: j.lines } else j

/-- The lines in order. -/
def toList (j : Journal) : List String := j.lines.reverse

end Journal

end Bytescript
