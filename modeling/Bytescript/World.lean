import Bytescript.Heap
import Bytescript.Journal

/-!
# What running scripts share

A `World` is the state outside any one running script: the heap, the text printed so far, the memory
of the natives, and the journal. Heap entries that come and go are noted in the journal.

The operations take the part they change out of the world before they change it, so that nothing
else holds on to it meanwhile and it can be changed in place.
-/

namespace Bytescript

structure World where
  heap : Heap := {}
  output : String := ""
  /-- One number for each native that has to remember something between calls. -/
  cells : Array Int64 := #[]
  journal : Journal := {}
deriving Inhabited

namespace World

variable (w : World)

@[inline]
def onHeap {α : Type} (w : World) (f : Heap → α × Heap) : α × World :=
  match w with
  | ⟨heap, output, cells, journal⟩ =>
    let (a, heap) := f heap
    (a, ⟨heap, output, cells, journal⟩)

@[inline]
def note (level : Level) (text : Unit → String) : World :=
  if w.journal.keeps level then { w with journal := w.journal.note level text } else w

/-- A new entry of the heap. -/
def allocate (p : Payload) : Except HeapError HeapId × World :=
  let tag := p.tag
  match w.onHeap (·.insert p) with
  | (.ok id, w) => (.ok id, w.note .trace fun _ => s!"heap: allocated {tag.name} {id.text}")
  | (.error e, w) => (.error e, w)

/-- Ends an entry of the heap. -/
def release (id : HeapId) : Except HeapError Payload × World :=
  match w.onHeap (·.delete id) with
  | (.ok p, w) => (.ok p, w.note .trace fun _ => s!"heap: freed {p.tag.name} {id.text}")
  | (.error e, w) => (.error e, w)

/-- A new string of the texts of two strings. -/
def concat (left right : HeapId) : Except HeapError HeapId × World :=
  match w.onHeap (·.concat left right) with
  | (.ok id, w) =>
    (.ok id, w.note .trace fun _ => s!"heap: allocated {HeapTag.string.name} {id.text}")
  | (.error e, w) => (.error e, w)

/-- Prints one line. -/
def printLine (line : String) : World :=
  match w with
  | ⟨heap, output, cells, journal⟩ => ⟨heap, output ++ line ++ "\n", cells, journal⟩

end World

end Bytescript
