/-!
# Places in a script

A `Position` is one place in the text of a script and a `Span` the stretch between two of them.
A `Mark` is the short form that compiled code carries: line and column in 32 bits each, with line
zero standing for "unknown".
-/

namespace Bytescript

/-- One place in the text: how many units precede it, and its line and column counted from one. -/
structure Position where
  offset : Nat
  line : Nat
  column : Nat
deriving DecidableEq, Repr

namespace Position

/-- The beginning of every text. -/
def origin : Position := ⟨0, 1, 1⟩

instance : Inhabited Position := ⟨origin⟩

/-- Positions are shown as line and column. -/
def text (p : Position) : String := s!"{p.line}:{p.column}"

end Position

/-- The stretch of text from `start` to `stop`. -/
structure Span where
  start : Position
  stop : Position
deriving DecidableEq, Repr

namespace Span

/-- The empty stretch at one position. -/
def point (p : Position) : Span := ⟨p, p⟩

instance : Inhabited Span := ⟨point .origin⟩

/-- The least stretch that covers both; on equal offsets the end of the first one stays. -/
def merge (a b : Span) : Span where
  start := if a.start.offset ≤ b.start.offset then a.start else b.start
  stop := if b.stop.offset ≤ a.stop.offset then a.stop else b.stop

def text (s : Span) : String := s!"{s.start.text}-{s.stop.text}"

end Span

/-- A line and column as compiled code records them. -/
structure Mark where
  line : UInt32
  column : UInt32
deriving DecidableEq, Repr

namespace Mark

/-- The mark of code that stems from no place in particular. -/
def unknown : Mark := ⟨0, 0⟩

instance : Inhabited Mark := ⟨unknown⟩

def isKnown (m : Mark) : Bool := m.line != 0

def text (m : Mark) : String := s!"{m.line.toNat}:{m.column.toNat}"

end Mark

/-- Where a span begins, cut to 32 bits for line and column. -/
def Span.mark (s : Span) : Mark := ⟨s.start.line.toUInt32, s.start.column.toUInt32⟩

end Bytescript
