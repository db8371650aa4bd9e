import Bytescript.Heap
import Mathlib.Data.Set.Card

/-!
# Heaps as maps

A heap stands for a map from references to what they name (`Store`). `Store.Answers` says what every
operation does to such a map, without slots, free lists or generations; the one thing it leaves open
is which unused reference a new entry gets. Heaps do what maps do (`Heap.perform_answers`), because
their slots, their free list and their counter agree with each other after whatever operations
(`Heap.Sound`).
-/

namespace Bytescript

/-! ## Operations -/

inductive HeapOp where
  | create (p : Payload)
  | concat (left right : HeapId)
  | delete (id : HeapId)
  | setElement (id : HeapId) (index : Nat) (v : Value)
  | setField (id : HeapId) (index : Nat) (v : Value)
  | contains (id : HeapId)
  | tag (id : HeapId)
  | string (id : HeapId)
  | stringsEqual (left right : HeapId)
  | layoutOf (id : HeapId)
  | field (id : HeapId) (index : Nat)
  | arraySize (id : HeapId)
  | element (id : HeapId) (index : Nat)
  | liveCount
deriving DecidableEq, Repr

inductive HeapAnswer where
  | done
  | id (id : HeapId)
  | payload (p : Payload)
  | flag (b : Bool)
  | tag (t : HeapTag)
  | text (s : String)
  | layout (c : UInt16)
  | value (v : Value)
  | count (n : Nat)
deriving DecidableEq, Repr

namespace Heap

def perform (h : Heap) : HeapOp → Except HeapError HeapAnswer × Heap
  | .create p => ((h.insert p).1.map .id, (h.insert p).2)
  | .concat left right => ((h.concat left right).1.map .id, (h.concat left right).2)
  | .delete id => ((h.delete id).1.map .payload, (h.delete id).2)
  | .setElement id index v =>
    ((h.setElement id index v).1.map fun _ => .done, (h.setElement id index v).2)
  | .setField id index v =>
    ((h.setField id index v).1.map fun _ => .done, (h.setField id index v).2)
  | .contains id => (.ok (.flag (h.contains id)), h)
  | .tag id => ((h.tag id).map .tag, h)
  | .string id => ((h.string id).map .text, h)
  | .stringsEqual left right => ((h.stringsEqual left right).map .flag, h)
  | .layoutOf id => ((h.layoutOf id).map .layout, h)
  | .field id index => ((h.field id index).map .value, h)
  | .arraySize id => ((h.arraySize id).map .count, h)
  | .element id index => ((h.element id index).map .value, h)
  | .liveCount => (.ok (.count h.live), h)

/-- The heap after some operations, whether they fail or not. -/
def after (h : Heap) (ops : List HeapOp) : Heap := ops.foldl (fun h op => (h.perform op).2) h

end Heap

/-! ## Maps -/

/-- What references name. -/
abbrev Store := HeapId → Option Payload

namespace Store

/-- How many references name something. -/
noncomputable def count (s : Store) : Nat := Set.ncard {id | s id ≠ none}

/-- The error that is met where a reference should name something of a sort and does not. -/
inductive Refuses (s : Store) (id : HeapId) (expected : HeapTag) : HeapError → Prop
  | freed : s id = none → Refuses s id expected (.freed id)
  | wrongKind {p} : s id = some p → p.tag ≠ expected →
    Refuses s id expected (.wrongKind id expected p.tag)

/-- What an operation answers and what it makes of a map of at most `limit` entries. -/
inductive Answers (limit : Nat) (s : Store) : HeapOp → Except HeapError HeapAnswer → Store → Prop
  | created {p id} : s.count < limit → s id = none →
    Answers limit s (.create p) (.ok (.id id)) (Function.update s id (some p))
  | full {p} : s.count = limit →
    Answers limit s (.create p) (.error (.exhausted limit)) s
  | joined {left right a b answer s'} :
    s left = some (.string a) → s right = some (.string b) →
    Answers limit s (.create (.string (a ++ b))) answer s' →
    Answers limit s (.concat left right) answer s'
  | joinedLeft {left right e} : s.Refuses left .string e →
    Answers limit s (.concat left right) (.error e) s
  | joinedRight {left right a e} : s left = some (.string a) →
    s.Refuses right .string e → Answers limit s (.concat left right) (.error e) s
  | deleted {id p} : s id = some p →
    Answers limit s (.delete id) (.ok (.payload p)) (Function.update s id none)
  | gone {id} : s id = none → Answers limit s (.delete id) (.error (.freed id)) s
  | elementSet {id vs index v} (h : index < vs.size) :
    s id = some (.array vs) → Answers limit s (.setElement id index v) (.ok .done)
      (Function.update s id (some (.array (vs.set index v))))
  | elementSetPast {id vs index v} : vs.size ≤ index →
    s id = some (.array vs) →
    Answers limit s (.setElement id index v) (.error (.outOfBounds id index vs.size)) s
  | elementSetRefused {id index v e} :
    s.Refuses id .array e → Answers limit s (.setElement id index v) (.error e) s
  | fieldSet {id c vs index v} (h : index < vs.size) : s id = some (.object c vs) →
    Answers limit s (.setField id index v) (.ok .done)
      (Function.update s id (some (.object c (vs.set index v))))
  | fieldSetPast {id c vs index v} :
    vs.size ≤ index → s id = some (.object c vs) →
    Answers limit s (.setField id index v) (.error (.outOfBounds id index vs.size)) s
  | fieldSetRefused {id index v e} :
    s.Refuses id .object e → Answers limit s (.setField id index v) (.error e) s
  | contains {id} : Answers limit s (.contains id) (.ok (.flag (s id).isSome)) s
  | tag {id p} : s id = some p → Answers limit s (.tag id) (.ok (.tag p.tag)) s
  | tagGone {id} : s id = none → Answers limit s (.tag id) (.error (.freed id)) s
  | string {id a} : s id = some (.string a) →
    Answers limit s (.string id) (.ok (.text a)) s
  | stringRefused {id e} : s.Refuses id .string e →
    Answers limit s (.string id) (.error e) s
  | compared {left right a b} : s left = some (.string a) →
    s right = some (.string b) → Answers limit s (.stringsEqual left right) (.ok (.flag (a = b))) s
  | comparedLeft {left right e} : s.Refuses left .string e →
    Answers limit s (.stringsEqual left right) (.error e) s
  | comparedRight {left right a e} : s left = some (.string a) →
    s.Refuses right .string e → Answers limit s (.stringsEqual left right) (.error e) s
  | layout {id c vs} : s id = some (.object c vs) →
    Answers limit s (.layoutOf id) (.ok (.layout c)) s
  | layoutRefused {id e} : s.Refuses id .object e →
    Answers limit s (.layoutOf id) (.error e) s
  | field {id c vs index} (h : index < vs.size) :
    s id = some (.object c vs) → Answers limit s (.field id index) (.ok (.value vs[index])) s
  | fieldPast {id c vs index} : vs.size ≤ index →
    s id = some (.object c vs) →
    Answers limit s (.field id index) (.error (.outOfBounds id index vs.size)) s
  | fieldRefused {id index e} : s.Refuses id .object e →
    Answers limit s (.field id index) (.error e) s
  | size {id vs} : s id = some (.array vs) →
    Answers limit s (.arraySize id) (.ok (.count vs.size)) s
  | sizeRefused {id e} : s.Refuses id .array e →
    Answers limit s (.arraySize id) (.error e) s
  | element {id vs index} (h : index < vs.size) :
    s id = some (.array vs) → Answers limit s (.element id index) (.ok (.value vs[index])) s
  | elementPast {id vs index} : vs.size ≤ index →
    s id = some (.array vs) →
    Answers limit s (.element id index) (.error (.outOfBounds id index vs.size)) s
  | elementRefused {id index e} : s.Refuses id .array e →
    Answers limit s (.element id index) (.error e) s
  | liveCount : Answers limit s .liveCount (.ok (.count s.count)) s

/-- An operation that fails changes nothing. -/
theorem Answers.unchanged {limit : Nat} {s s' : Store} {op : HeapOp} {e : HeapError}
    (h : Answers limit s op (.error e) s') : s' = s := by
  generalize hr : (.error e : Except HeapError HeapAnswer) = r at h
  induction h with
  | joined _ _ _ ih => exact ih hr
  | created | deleted | elementSet | fieldSet => cases hr
  | _ => rfl

end Store

/-! ## Sound heaps -/

namespace Heap

/-- The slots, the free list and the counter of a heap agree. -/
structure Sound (h : Heap) : Prop where
  live_eq : h.live = h.slots.countP (·.payload.isSome)
  free_nodup : h.free.Nodup
  mem_free : ∀ i, i ∈ h.free ↔ ∃ slot, h.slots[i]? = some slot ∧ slot.payload = none
  size_le : h.slots.size ≤ h.settings.maxEntries

theorem sound_empty (settings : HeapSettings) : Sound { settings } :=
  ⟨rfl, .nil, by simp, Nat.zero_le _⟩

end Heap

theorem HeapId.eq_iff_of_index {id id' : HeapId} (h : id'.index = id.index) :
    id' = id ↔ id'.generation = id.generation := by
  cases id
  cases id'
  rw [HeapId.mk.injEq]
  exact and_iff_right h

/-- What a slot holds for references of a generation. -/
def HeapSlot.at? (slot : HeapSlot) (generation : UInt32) : Option Payload :=
  if slot.generation = generation then slot.payload else none

namespace Heap

variable {h : Heap} {id : HeapId}

theorem find?_eq (h : Heap) (id : HeapId) :
    h.find? id = h.slots[id.index]?.bind (·.at? id.generation) := by
  unfold find?
  cases h.slots[id.index]? <;> rfl

variable {p : Payload} {slot : HeapSlot} {f : HeapSlot →
  HeapSlot} {slots : Array HeapSlot} {i live : Nat} {settings : HeapSettings}

theorem find?_eq_some : h.find? id = some p ↔
    h.slots[id.index]? = some ⟨id.generation, some p⟩ := by
  rw [find?_eq, Option.bind_eq_some_iff]
  constructor
  · rintro ⟨⟨g, q⟩, hslot, hat⟩
    rw [HeapSlot.at?] at hat
    split at hat
    next hg =>
      obtain rfl : g = id.generation := hg
      obtain rfl : q = some p := hat
      exact hslot
    · cases hat
  · intro hslot
    exact ⟨_, hslot, if_pos rfl⟩

/-- Of the references to a slot, one at most names something. -/
theorem find?_stale {id' : HeapId} (hslot : h.slots[id.index]? = some slot)
    (hgen : slot.generation = id.generation) (hindex : id.index = id'.index) (hne : id' ≠ id) :
    h.find? id' = none := by
  have hgen' : slot.generation ≠ id'.generation := fun h =>
    hne ((HeapId.eq_iff_of_index hindex.symm).mpr (h.symm.trans hgen))
  rw [find?_eq, ← hindex, hslot, Option.bind_some, HeapSlot.at?, if_neg hgen']

/-- A change to a slot shows in the one reference to it that counts. -/
theorem find?_modify {h' : Heap} {q : Option Payload}
    (hslots : h'.slots = h.slots.modify id.index f)
    (hslot : h.slots[id.index]? = some slot) (hgen : slot.generation = id.generation)
    (hq : ∀ g, (f slot).at? g = if slot.generation = g then q else none) :
    h'.find? = Function.update h.find? id q := by
  funext id'
  rw [find?_eq, hslots, Array.getElem?_modify, Function.update_apply]
  by_cases hindex : id.index = id'.index
  · rw [if_pos hindex, ← hindex, hslot, Option.map_some, Option.bind_some, hq, hgen]
    by_cases heq : id' = id
    · rw [if_pos heq, heq, if_pos rfl]
    · rw [if_neg heq, find?_stale hslot hgen hindex heq,
        if_neg fun hg => heq ((HeapId.eq_iff_of_index hindex.symm).mpr hg.symm)]
  · have hne : id' ≠ id := fun heq => hindex (heq ▸ rfl)
    rw [if_neg hindex, if_neg hne, find?_eq]

/-! ### Counting -/

theorem countP_modify {p : HeapSlot → Bool} (hslot : slots[i]? = some slot) :
    (slots.modify i f).countP p + (if p slot then 1 else 0) =
      slots.countP p + (if p (f slot) then 1 else 0) := by
  obtain ⟨hlt, rfl⟩ := getElem_of_getElem? hslot
  have hset : slots.modify i f = slots.set i (f slots[i]) := by
    refine Array.ext (by simp) fun j hj hj' => ?_
    simp only [Array.getElem_modify, Array.getElem_set]
    split
    next hij => subst hij; rfl
    · rfl
  have hpos : p slots[i] = true → 0 < slots.countP p := fun hp =>
    Array.countP_pos_iff.mpr ⟨_, Array.getElem_mem hlt, hp⟩
  rw [hset, Array.countP_set]
  by_cases hp : p slots[i] = true
  · have := hpos hp
    rw [if_pos hp]
    omega
  · rw [if_neg hp]
    omega

/-- The indices of the slots that hold something. -/
def occupied (slots : Array HeapSlot) : Set Nat :=
  {i : Nat | ∃ slot, slots[i]? = some slot ∧ slot.payload.isSome = true}

theorem ncard_occupied (slots : Array HeapSlot) : (occupied slots).Finite ∧
    (occupied slots).ncard = slots.countP (·.payload.isSome) := by
  rw [← slots.toArray_toList]
  generalize slots.toList = list
  induction list using List.reverseRecOn with
  | nil => simp [occupied]
  | append_singleton list slot ih =>
    rw [← List.push_toArray]
    generalize list.toArray = slots at ih ⊢
    obtain ⟨hfinite, hcard⟩ := ih
    have hnew : slots.size ∉ occupied slots := by simp [occupied]
    by_cases hp : slot.payload.isSome = true
    · have hset : occupied (slots.push slot) = Insert.insert slots.size (occupied slots) := by
        ext i
        simp only [occupied, Array.getElem?_push, Set.mem_ofPred_eq, Set.mem_insert_iff]
        split
        next hi => simp [hi, hp]
        next hi => simp [hi]
      rw [hset, Set.ncard_insert_of_notMem hnew hfinite, hcard, Array.countP_push, if_pos hp]
      exact ⟨hfinite.insert _, rfl⟩
    · have hset : occupied (slots.push slot) = occupied slots := by
        ext i
        simp only [occupied, Array.getElem?_push, Set.mem_ofPred_eq]
        split
        next hi => simp [hi, hp]
        · rfl
      rw [hset, hcard, Array.countP_push, if_neg hp]
      exact ⟨hfinite, rfl⟩

/-- The references that name something are as many as the slots that hold something. -/
theorem count_find? (h : Heap) : Store.count h.find? = h.slots.countP (·.payload.isSome) := by
  have himage : HeapId.index '' {id | h.find? id ≠ none} = occupied h.slots := by
    ext i
    constructor
    · rintro ⟨id, hid, rfl⟩
      obtain ⟨p, hp⟩ := Option.ne_none_iff_exists'.mp hid
      exact ⟨_, find?_eq_some.mp hp, rfl⟩
    · rintro ⟨⟨g, q⟩, hslot, hq⟩
      obtain ⟨p, rfl⟩ := Option.isSome_iff_exists.mp hq
      have hp : h.find? ⟨i, g⟩ = some p := find?_eq_some.mpr hslot
      refine ⟨⟨i, g⟩, ?_, rfl⟩
      change h.find? ⟨i, g⟩ ≠ none
      rw [hp]
      exact Option.some_ne_none p
  have hinj : Set.InjOn HeapId.index {id | h.find? id ≠ none} := by
    intro id hid id' hid' hindex
    obtain ⟨p, hp⟩ := Option.ne_none_iff_exists'.mp hid
    obtain ⟨p', hp'⟩ := Option.ne_none_iff_exists'.mp hid'
    have hslot := (find?_eq_some.mp hp).symm.trans (hindex ▸ find?_eq_some.mp hp')
    simp only [Option.some.injEq, HeapSlot.mk.injEq] at hslot
    cases id
    cases id'
    rw [HeapId.mk.injEq]
    exact ⟨hindex, hslot.1⟩
  rw [Store.count, ← hinj.ncard_image, himage, (ncard_occupied _).2]

/-! ### What operations do -/

theorem Sound.live_le (hs : h.Sound) : h.live ≤ h.settings.maxEntries :=
  hs.live_eq ▸ (Array.countP_le_size.trans hs.size_le)

theorem Sound.count (hs : h.Sound) : Store.count h.find? = h.live :=
  h.count_find?.trans hs.live_eq.symm

/-- A heap turns into a sound one that stands for a certain map. -/
structure Becomes (h h' : Heap) (s : Store) : Prop where
  sound : h'.Sound
  settings : h'.settings = h.settings
  find? : h'.find? = s

theorem Becomes.refl (hs : h.Sound) : Becomes h h h.find? := ⟨hs, rfl, rfl⟩

theorem insert_push (hs : Sound ⟨settings, slots, [], live⟩) (hroom : live < settings.maxEntries)
    (p : Payload) :
    find? ⟨settings, slots, [], live⟩ ⟨slots.size, 0⟩ = none ∧
      Becomes ⟨settings, slots, [], live⟩ ⟨settings, slots.push ⟨0, some p⟩, [], live + 1⟩
        (Function.update (find? ⟨settings, slots, [], live⟩) ⟨slots.size, 0⟩ (some p)) := by
  have hnone : ∀ g, find? ⟨settings, slots, [], live⟩ ⟨slots.size, g⟩ = none := by simp [find?]
  have hfull : slots.countP (·.payload.isSome) = slots.size := by
    refine Array.countP_eq_size.mpr fun slot hslot => ?_
    obtain ⟨i, hi, rfl⟩ := Array.mem_iff_getElem.mp hslot
    by_contra hempty
    have := (hs.mem_free i).mpr ⟨_, Array.getElem?_eq_getElem hi, by simpa using hempty⟩
    cases this
  have hlive : live = slots.size := hs.live_eq.trans hfull
  refine ⟨hnone 0, ⟨?_, hs.free_nodup, fun i => ?_, ?_⟩, rfl, ?_⟩
  · simp [hfull, hlive]
  · have hold := hs.mem_free i
    simp only [List.not_mem_nil, false_iff, not_exists, not_and, Array.getElem?_push] at hold ⊢
    intro slot hslot
    split at hslot
    · cases hslot
      exact Option.some_ne_none p
    · exact hold slot hslot
  · simp only [Array.size_push]
    omega
  · funext ⟨i, g⟩
    rw [Function.update_apply]
    split
    next heq =>
      obtain ⟨rfl, rfl⟩ := HeapId.mk.inj heq
      simp [find?]
    next hne =>
      by_cases hi : i = slots.size
      · subst hi
        rw [hnone]
        have hg : (0 : UInt32) ≠ g := fun h => hne (h ▸ rfl)
        simp [find?, hg]
      · simp [find?, Array.getElem?_push, hi]

theorem insert_fill {free : List Nat} (hs : Sound ⟨settings, slots, i :: free, live⟩)
    (p : Payload) :
    find? ⟨settings, slots, i :: free, live⟩ ⟨i, (slots.getD i default).generation⟩ = none ∧
      Becomes ⟨settings, slots, i :: free, live⟩
        ⟨settings, slots.modify i (HeapSlot.fill p), free, live + 1⟩
        (Function.update (find? ⟨settings, slots, i :: free, live⟩)
          ⟨i, (slots.getD i default).generation⟩ (some p)) := by
  obtain ⟨⟨g, q⟩, hslot, hq⟩ := (hs.mem_free i).mp (.head _)
  obtain rfl : q = none := hq
  have hgen : (slots.getD i default).generation = g := by
    rw [Array.getD_eq_getD_getElem?, hslot]
    rfl
  have hnone : ∀ g', find? ⟨settings, slots, i :: free, live⟩ ⟨i, g'⟩ = none := by
    intro g'
    simp [find?_eq, hslot, HeapSlot.at?]
  obtain ⟨hfresh, hnodup⟩ := List.nodup_cons.mp hs.free_nodup
  rw [hgen]
  refine ⟨hnone g, ⟨?_, hnodup, fun j => ?_, ?_⟩, rfl, ?_⟩
  · have := countP_modify (f := HeapSlot.fill p) (p := (·.payload.isSome)) hslot
    have := hs.live_eq
    simp [HeapSlot.fill] at *
    omega
  · have hold := hs.mem_free j
    rw [Array.getElem?_modify]
    split
    next hij =>
      subst hij
      simp only [hslot, Option.map_some, HeapSlot.fill]
      simp [hfresh]
    next hij => rw [← hold, List.mem_cons, or_iff_right (Ne.symm hij)]
  · simpa using hs.size_le
  · exact find?_modify rfl hslot rfl fun _ => rfl

theorem Sound.insert (hs : h.Sound) (p : Payload) :
    (h.live = h.settings.maxEntries ∧ h.insert p = (.error (.exhausted h.live), h)) ∨
      h.live < h.settings.maxEntries ∧ ∃ id h', h.insert p = (.ok id, h') ∧ h.find? id = none ∧
        Becomes h h' (Function.update h.find? id (some p)) := by
  unfold Heap.insert
  split
  next hfull => exact .inl ⟨le_antisymm hs.live_le hfull, rfl⟩
  next hroom =>
    have hroom := not_le.mp hroom
    refine .inr ⟨hroom, ?_⟩
    split
    · exact ⟨_, _, rfl, insert_push hs hroom p⟩
    · exact ⟨_, _, rfl, insert_fill hs p⟩

theorem Sound.delete (hs : h.Sound) (id : HeapId) :
    (h.find? id = none ∧ h.delete id = (.error (.freed id), h)) ∨
      ∃ p h', h.find? id = some p ∧ h.delete id = (.ok p, h') ∧
        Becomes h h' (Function.update h.find? id none) := by
  unfold Heap.delete
  split
  next hnone => exact .inl ⟨hnone, rfl⟩
  next p hp =>
    refine .inr ⟨p, _, hp, rfl, ?_⟩
    have hslot := find?_eq_some.mp hp
    obtain ⟨settings, slots, free, live⟩ := h
    have hcount := countP_modify (f := HeapSlot.clear) (p := (·.payload.isSome)) hslot
    simp only [HeapSlot.clear, Option.isSome_some, Option.isSome_none, if_true, Bool.false_eq_true,
      if_false] at hcount
    refine ⟨⟨?_, ?_, fun j => ?_, ?_⟩, rfl, ?_⟩
    · have := hs.live_eq
      simp only at this hcount ⊢
      omega
    · refine List.nodup_cons.mpr ⟨fun hmem => ?_, hs.free_nodup⟩
      obtain ⟨slot, hslot', hempty⟩ := (hs.mem_free _).mp hmem
      cases hslot.symm.trans hslot'
      cases hempty
    · have hold := hs.mem_free j
      simp only [List.mem_cons, Array.getElem?_modify]
      split
      next hij =>
        subst hij
        simp only at hslot
        simp [hslot, HeapSlot.clear]
      next hij => rw [hold, or_iff_right (Ne.symm hij)]
    · simpa using hs.size_le
    · exact find?_modify rfl hslot rfl fun _ => (ite_self _).trans (ite_self _).symm

theorem Sound.setAt (hs : h.Sound) (hp : h.find? id = some p) (index : Nat) (v : Value) :
    Becomes h (h.setAt id index v) (Function.update h.find? id (some (p.setAt index v))) := by
  have hslot := find?_eq_some.mp hp
  obtain ⟨settings, slots, free, live⟩ := h
  have hcount := countP_modify (f := HeapSlot.setAt index v) (p := (·.payload.isSome)) hslot
  simp only [HeapSlot.setAt, Option.map_some, Option.isSome_some, if_true] at hcount
  refine ⟨⟨?_, hs.free_nodup, fun j => ?_, ?_⟩, rfl, ?_⟩
  · have := hs.live_eq
    simp only [setAt] at this hcount ⊢
    omega
  · have hold := hs.mem_free j
    simp only [setAt, Array.getElem?_modify]
    split
    next hij =>
      subst hij
      simp only at hslot
      simp [hold, hslot, HeapSlot.setAt]
    · exact hold
  · simpa [setAt] using hs.size_le
  · exact find?_modify rfl hslot rfl fun _ => rfl

/-! ### Reading -/

theorem get_ok (hp : h.find? id = some p) : h.get id = .ok p := by
  rw [get, hp]

theorem get_freed (hp : h.find? id = none) : h.get id = .error (.freed id) := by
  rw [get, hp]

theorem string_cases (h : Heap) (id : HeapId) :
    (∃ a, h.find? id = some (.string a) ∧ h.string id = .ok a) ∨
      ∃ e, Store.Refuses h.find? id .string e ∧ h.string id = .error e := by
  unfold string
  cases hp : h.find? id with
  | none => exact .inr ⟨_, .freed hp, by rw [get_freed hp]; rfl⟩
  | some p =>
    rw [get_ok hp]
    cases p with
    | string a => exact .inl ⟨a, rfl, rfl⟩
    | _ => exact .inr ⟨_, .wrongKind hp nofun, rfl⟩

theorem array_cases (h : Heap) (id : HeapId) :
    (∃ vs, h.find? id = some (.array vs) ∧ h.array id = .ok vs) ∨
      ∃ e, Store.Refuses h.find? id .array e ∧ h.array id = .error e := by
  unfold array
  cases hp : h.find? id with
  | none => exact .inr ⟨_, .freed hp, by rw [get_freed hp]; rfl⟩
  | some p =>
    rw [get_ok hp]
    cases p with
    | array vs => exact .inl ⟨vs, rfl, rfl⟩
    | _ => exact .inr ⟨_, .wrongKind hp nofun, rfl⟩

theorem object_cases (h : Heap) (id : HeapId) :
    (∃ c vs, h.find? id = some (.object c vs) ∧ h.object id = .ok (c, vs)) ∨
      ∃ e, Store.Refuses h.find? id .object e ∧ h.object id = .error e := by
  unfold object
  cases hp : h.find? id with
  | none => exact .inr ⟨_, .freed hp, by rw [get_freed hp]; rfl⟩
  | some p =>
    rw [get_ok hp]
    cases p with
    | object c vs => exact .inl ⟨c, vs, rfl, rfl⟩
    | _ => exact .inr ⟨_, .wrongKind hp nofun, rfl⟩

theorem valueAt_cases (id : HeapId) (vs : Array Value) (index : Nat) :
    (∃ hlt : index < vs.size, valueAt id vs index = .ok vs[index]) ∨
      vs.size ≤ index ∧ valueAt id vs index = .error (.outOfBounds id index vs.size) := by
  unfold valueAt
  by_cases hlt : index < vs.size
  · exact .inl ⟨hlt, by rw [Array.getElem?_eq_getElem hlt]⟩
  · have hle := not_lt.mp hlt
    exact .inr ⟨hle, by rw [Array.getElem?_eq_none hle]⟩

/-! ## Heaps do what maps do -/

open Store (Answers)

/-- A heap does what an operation does to the map that it stands for, and stays sound. -/
def Performs (h : Heap) (op : HeapOp) (r : Except HeapError HeapAnswer × Heap) : Prop :=
  ∃ s, Becomes h r.2 s ∧ Answers h.settings.maxEntries h.find? op r.1 s

section

variable (hs : h.Sound)

include hs

theorem Sound.stays {op : HeapOp} {answer : Except HeapError HeapAnswer}
    (h' : Answers h.settings.maxEntries h.find? op answer h.find?) : h.Performs op (answer, h) :=
  ⟨_, .refl hs, h'⟩

theorem Sound.performs_create (p : Payload) :
    h.Performs (.create p) ((h.insert p).1.map .id, (h.insert p).2) := by
  rcases hs.insert p with ⟨hfull, heq⟩ | ⟨hroom, id, h', heq, hnone, hbecomes⟩
  · rw [heq]
    refine hs.stays ?_
    rw [hfull]
    exact .full (hs.count.trans hfull)
  · rw [heq]
    exact ⟨_, hbecomes, .created (hs.count ▸ hroom) hnone⟩

theorem Sound.performs_concat (left right : HeapId) :
    h.Performs (.concat left right) ((h.concat left right).1.map .id, (h.concat left right).2) := by
  rcases string_cases h left with ⟨a, ha, hleft⟩ | ⟨e, he, hleft⟩
  · rcases string_cases h right with ⟨b, hb, hright⟩ | ⟨e, he, hright⟩
    · have heq : h.concat left right = h.insert (.string (a ++ b)) := by
        simp [concat, hleft, hright, bind, Except.bind, pure, Except.pure]
      obtain ⟨s, hbecomes, hanswers⟩ := hs.performs_create (.string (a ++ b))
      rw [heq]
      exact ⟨s, hbecomes, .joined ha hb hanswers⟩
    · have heq : h.concat left right = (.error e, h) := by
        simp [concat, hleft, hright, bind, Except.bind]
      rw [heq]
      exact hs.stays (.joinedRight ha he)
  · have heq : h.concat left right = (.error e, h) := by
      simp [concat, hleft, bind, Except.bind]
    rw [heq]
    exact hs.stays (.joinedLeft he)

theorem Sound.performs_delete (id : HeapId) :
    h.Performs (.delete id) ((h.delete id).1.map .payload, (h.delete id).2) := by
  rcases hs.delete id with ⟨hnone, heq⟩ | ⟨p, h', hp, heq, hbecomes⟩
  · rw [heq]
    exact hs.stays (.gone hnone)
  · rw [heq]
    exact ⟨_, hbecomes, .deleted hp⟩

theorem Sound.performs_setElement (id : HeapId) (index : Nat) (v : Value) :
    h.Performs (.setElement id index v)
      ((h.setElement id index v).1.map fun _ => .done, (h.setElement id index v).2) := by
  simp only [setElement, store, arraySize]
  rcases array_cases h id with ⟨vs, hvs, heq⟩ | ⟨e, he, heq⟩
  · simp only [heq, bind, Except.bind, pure, Except.pure]
    by_cases hlt : index < vs.size
    · rw [if_pos hlt]
      have hbecomes := hs.setAt hvs index v
      rw [Payload.setAt, Array.setIfInBounds_def, dif_pos hlt] at hbecomes
      exact ⟨_, hbecomes, .elementSet hlt hvs⟩
    · rw [if_neg hlt]
      exact hs.stays (.elementSetPast (not_lt.mp hlt) hvs)
  · simp only [heq, bind, Except.bind]
    exact hs.stays (.elementSetRefused he)

theorem Sound.performs_setField (id : HeapId) (index : Nat) (v : Value) :
    h.Performs (.setField id index v)
      ((h.setField id index v).1.map fun _ => .done, (h.setField id index v).2) := by
  simp only [setField, store, fieldCount]
  rcases object_cases h id with ⟨c, vs, hvs, heq⟩ | ⟨e, he, heq⟩
  · simp only [heq, bind, Except.bind, pure, Except.pure]
    by_cases hlt : index < vs.size
    · rw [if_pos hlt]
      have hbecomes := hs.setAt hvs index v
      rw [Payload.setAt, Array.setIfInBounds_def, dif_pos hlt] at hbecomes
      exact ⟨_, hbecomes, .fieldSet hlt hvs⟩
    · rw [if_neg hlt]
      exact hs.stays (.fieldSetPast (not_lt.mp hlt) hvs)
  · simp only [heq, bind, Except.bind]
    exact hs.stays (.fieldSetRefused he)

theorem Sound.performs_stringsEqual (left right : HeapId) :
    h.Performs (.stringsEqual left right) ((h.stringsEqual left right).map .flag, h) := by
  simp only [stringsEqual]
  refine hs.stays ?_
  rcases string_cases h left with ⟨a, ha, hleft⟩ | ⟨e, he, hleft⟩
  · rcases string_cases h right with ⟨b, hb, hright⟩ | ⟨e, he, hright⟩
    · rw [hleft, hright]
      exact .compared ha hb
    · rw [hleft, hright]
      exact .comparedRight ha he
  · rw [hleft]
    exact .comparedLeft he

end

/-- Every operation of a sound heap does what it does to a map. -/
theorem Sound.performs (hs : h.Sound) (op : HeapOp) : h.Performs op (h.perform op) := by
  cases op with
  | create p => exact hs.performs_create p
  | concat left right => exact hs.performs_concat left right
  | delete id => exact hs.performs_delete id
  | setElement id index v => exact hs.performs_setElement id index v
  | setField id index v => exact hs.performs_setField id index v
  | contains id => exact hs.stays .contains
  | tag id =>
    simp only [perform, tag]
    refine hs.stays ?_
    cases hp : h.find? id with
    | none =>
      rw [get_freed hp]
      exact .tagGone hp
    | some p =>
      rw [get_ok hp]
      exact .tag hp
  | string id =>
    simp only [perform]
    refine hs.stays ?_
    rcases string_cases h id with ⟨a, ha, heq⟩ | ⟨e, he, heq⟩ <;> rw [heq]
    · exact .string ha
    · exact .stringRefused he
  | stringsEqual left right => exact hs.performs_stringsEqual left right
  | layoutOf id =>
    simp only [perform, layoutOf]
    refine hs.stays ?_
    rcases object_cases h id with ⟨c, vs, hvs, heq⟩ | ⟨e, he, heq⟩ <;> rw [heq]
    · exact .layout hvs
    · exact .layoutRefused he
  | field id index =>
    simp only [perform, field]
    refine hs.stays ?_
    rcases object_cases h id with ⟨c, vs, hvs, heq⟩ | ⟨e, he, heq⟩ <;> rw [heq]
    · simp only [bind, Except.bind]
      rcases valueAt_cases id vs index with ⟨hlt, hv⟩ | ⟨hle, hv⟩ <;> rw [hv]
      · exact .field hlt hvs
      · exact .fieldPast hle hvs
    · exact .fieldRefused he
  | arraySize id =>
    simp only [perform, arraySize]
    refine hs.stays ?_
    rcases array_cases h id with ⟨vs, hvs, heq⟩ | ⟨e, he, heq⟩ <;> rw [heq]
    · exact .size hvs
    · exact .sizeRefused he
  | element id index =>
    simp only [perform, element]
    refine hs.stays ?_
    rcases array_cases h id with ⟨vs, hvs, heq⟩ | ⟨e, he, heq⟩ <;> rw [heq]
    · simp only [bind, Except.bind]
      rcases valueAt_cases id vs index with ⟨hlt, hv⟩ | ⟨hle, hv⟩ <;> rw [hv]
      · exact .element hlt hvs
      · exact .elementPast hle hvs
    · exact .elementRefused he
  | liveCount =>
    simp only [perform]
    rw [← hs.count]
    exact hs.stays .liveCount

theorem Sound.after (hs : h.Sound) (ops : List HeapOp) :
    (h.after ops).Sound ∧ (h.after ops).settings = h.settings := by
  induction ops generalizing h with
  | nil => exact ⟨hs, rfl⟩
  | cons op ops ih =>
    obtain ⟨s, hbecomes, -⟩ := hs.performs op
    obtain ⟨hs', hsettings⟩ := ih hbecomes.sound
    exact ⟨hs', hsettings.trans hbecomes.settings⟩

/-- References that name something fit into 32 bits. -/
theorem Sound.index_lt (hs : h.Sound) (hmax : h.settings.maxEntries ≤ 2 ^ 32) {id : HeapId}
    (hid : h.find? id ≠ none) : id.index < 2 ^ 32 := by
  obtain ⟨p, hp⟩ := Option.ne_none_iff_exists'.mp hid
  obtain ⟨hlt, -⟩ := getElem_of_getElem? (find?_eq_some.mp hp)
  exact hlt.trans_le (hs.size_le.trans hmax)

/-- A heap of at most `limit` entries stands for a map from references of 32 bits to what they name,
and every operation does to the heap what it does to the map. -/
structure Refines (limit : Nat) (h : Heap) : Prop extends Sound h where
  limit_eq : h.settings.maxEntries = limit
  count_eq : Store.count h.find? = h.live
  index_lt : ∀ id, h.find? id ≠ none → id.index < 2 ^ 32
  answers : ∀ op, Answers limit h.find? op (h.perform op).1 (h.perform op).2.find?
  unchanged : ∀ op e, (h.perform op).1 = .error e → (h.perform op).2.find? = h.find?

theorem after_refines (settings : HeapSettings) (hmax : settings.maxEntries ≤ 2 ^ 32)
    (ops : List HeapOp) : Refines settings.maxEntries (after { settings } ops) := by
  obtain ⟨hs, hsettings⟩ := (sound_empty settings).after ops
  have hlimit : (after { settings } ops).settings.maxEntries = settings.maxEntries :=
    congrArg HeapSettings.maxEntries hsettings
  have hanswers : ∀ op, Answers settings.maxEntries (after { settings } ops).find? op
      ((after { settings } ops).perform op).1 ((after { settings } ops).perform op).2.find? := by
    intro op
    obtain ⟨s, hbecomes, hanswers⟩ := hs.performs op
    rwa [hlimit, ← hbecomes.find?] at hanswers
  exact ⟨hs, hlimit, hs.count, fun id hid => hs.index_lt (hlimit.trans_le hmax) hid, hanswers,
    fun op e he => (he ▸ hanswers op).unchanged⟩

/-- A full heap that takes another entry once one has been deleted. -/
theorem after_refines_reuse : (1 : Nat) ≤ 2 ^ 32 ∧
    Refines 1 (after { settings := { maxEntries := 1 } } [.create (.string "a"),
      .create (.array #[.void]), .delete ⟨0, 0⟩, .create (.object 3 #[.int 7, .void]),
      .setField ⟨0, 1⟩ 1 (.int 8), .string ⟨0, 0⟩]) :=
  ⟨by decide, after_refines { maxEntries := 1 } (by decide) _⟩

end Heap

end Bytescript
