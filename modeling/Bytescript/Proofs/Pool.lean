import Bytescript.Constant
import Mathlib.Data.List.Induction
import Mathlib.Data.List.Nodup

/-!
# Constant pools

A builder of a pool has a map from values to indexes for each kind of constant. Together they give
every index below the next free one to exactly one constant (`Pool.Builder.Sound`), whatever is
added. So each of the slots that the maps are inverted into gets filled once, and the pool holds
what was added, each constant once, and gives it back (`Pool.Builder.after_holds`).
-/

namespace Bytescript

namespace Pool.Builder

/-! ## Six maps as one -/

/-- The index of a constant, if it has one. -/
def place? (b : Builder) : Constant → Option UInt16
  | .integer value => b.integers[value]?
  | .float value => b.floats[value.bits]?
  | .string value => b.strings[value]?
  | .function name => b.functions[name]?
  | .method name => b.methods[name]?
  | .classRef name => b.classes[name]?

/-- Gives the next free index to a constant. -/
def put (b : Builder) (c : Constant) : Builder :=
  let b' := { b with next := b.next + 1 }
  let index := b.next.toUInt16
  match c with
  | .integer value => { b' with integers := b.integers.insert value index }
  | .float value => { b' with floats := b.floats.insert value.bits index }
  | .string value => { b' with strings := b.strings.insert value index }
  | .function name => { b' with functions := b.functions.insert name index }
  | .method name => { b' with methods := b.methods.insert name index }
  | .classRef name => { b' with classes := b.classes.insert name index }

variable {b : Builder} {c c' : Constant} {i : UInt16} {k : Nat}

theorem next_put : (b.put c).next = b.next + 1 := by cases c <;> rfl

theorem place?_put :
    (b.put c).place? c' = if c = c' then some b.next.toUInt16 else b.place? c' := by
  have hbits : ∀ v w : Double, v.bits = w.bits ↔ v = w := fun ⟨_⟩ ⟨_⟩ => by simp
  cases c <;> cases c' <;> simp [put, place?, Std.TreeMap.getElem?_insert, hbits]

theorem add_known (h : b.place? c = some i) : b.add c = (.ok i, b) := by
  cases c <;> simp only [place?] at h <;>
    simp only [add, addInteger, addFloat, addString, addFunction, addMethod, addClass, intern, h]

theorem add_new (h : b.place? c = none) : b.add c =
    if b.next < PoolError.capacity then (.ok b.next.toUInt16, b.put c) else (.error .full, b) := by
  cases c <;> simp only [place?] at h <;>
    simp only [add, addInteger, addFloat, addString, addFunction, addMethod, addClass, intern, h,
      put] <;>
    split <;> rfl

/-! ## Inverting the maps -/

/-- All constants with their indexes. -/
def pairs (b : Builder) : List (Constant × UInt16) :=
  b.integers.toList.map (fun p => (.integer p.1, p.2)) ++
    b.floats.toList.map (fun p => (.float ⟨p.1⟩, p.2)) ++
  b.strings.toList.map (fun p => (.string p.1, p.2)) ++
    b.functions.toList.map (fun p => (.function p.1, p.2)) ++
  b.methods.toList.map (fun p => (.method p.1, p.2)) ++
    b.classes.toList.map (fun p => (.classRef p.1, p.2))

theorem mem_pairs : (c, i) ∈ b.pairs ↔ b.place? c = some i := by
  rcases c with _ | ⟨⟨_⟩⟩ | _ | _ | _ | _ <;>
    simp [pairs, place?, Std.TreeMap.mem_toList_iff_getElem?_eq_some]

/-- Enters a constant at its index. -/
def enter (slots : Array (Option Constant)) (p : Constant × UInt16) : Array (Option Constant) :=
  slots.setIfInBounds p.2.toNat (some p.1)

theorem slots_eq : b.slots = b.pairs.foldl enter (.replicate b.next none) := by
  simp [slots, pairs, invert, enter, Std.TreeMap.foldl_eq_foldl_toList, List.foldl_append,
    List.foldl_map]

variable {pairs : List (Constant × UInt16)} {slots : Array (Option Constant)}

theorem size_foldl_enter : (pairs.foldl enter slots).size = slots.size := by
  induction pairs generalizing slots with
  | nil => rfl
  | cons p rest ih => rw [List.foldl_cons, ih, enter, Array.size_setIfInBounds]

/-- What is entered at an index stays there if nothing else is entered at it. -/
theorem foldl_enter (hc : ∀ p ∈ pairs, p.2 = i → p.1 = c) (hi : i.toNat < slots.size)
    (h : (c, i) ∈ pairs ∨ slots[i.toNat]? = some (some c)) :
    (pairs.foldl enter slots)[i.toNat]? = some (some c) := by
  induction pairs generalizing slots with
  | nil => exact h.resolve_left List.not_mem_nil
  | cons p rest ih =>
    refine ih (fun q hq => hc q (.tail _ hq)) (by rwa [enter, Array.size_setIfInBounds]) ?_
    rw [enter]
    by_cases hp : p.2 = i
    · right
      rw [hp, hc p List.mem_cons_self hp, Array.getElem?_setIfInBounds_self_of_lt hi]
    · rw [Array.getElem?_setIfInBounds_ne (fun heq => hp (UInt16.toNat_inj.mp heq))]
      refine h.imp_left fun hmem => (List.mem_cons.mp hmem).resolve_left ?_
      rintro rfl
      exact hp rfl

/-! ## Builders -/

/-- The indexes below the next free one are given to one constant each. -/
structure Sound (b : Builder) : Prop where
  room : b.next ≤ PoolError.capacity
  within : ∀ c i, b.place? c = some i → i.toNat < b.next
  apart : ∀ c c' i, b.place? c = some i → b.place? c' = some i → c = c'
  onto : ∀ k < b.next, ∃ c, b.place? c = some k.toUInt16

theorem empty_sound : ({} : Builder).Sound := by
  have hnone : ∀ c, ({} : Builder).place? c = none := fun c => by cases c <;> simp [place?]
  exact ⟨Nat.zero_le _, by simp [hnone], by simp [hnone], nofun⟩

theorem toNat_toUInt16 (h : k < PoolError.capacity) : k.toUInt16.toNat = k := by
  rw [Nat.toUInt16_eq, UInt16.toNat_ofNat']
  exact Nat.mod_eq_of_lt h

namespace Sound

variable (h : b.Sound)

include h

theorem put (hnew : b.place? c = none) (hroom : b.next < PoolError.capacity) :
    (b.put c).Sound := by
  have hnext := toNat_toUInt16 hroom
  refine ⟨next_put ▸ hroom, fun c' i hi => ?_, fun c' c'' i hi hi' => ?_, fun k hk => ?_⟩
  · rw [place?_put] at hi
    rw [next_put]
    split at hi
    · cases hi
      omega
    · have := h.within c' i hi
      omega
  · rw [place?_put] at hi hi'
    -- the new index is none of the old ones
    have hold : ∀ c, b.place? c ≠ some b.next.toUInt16 := fun c hc => by
      have := h.within c _ hc
      omega
    split at hi <;> split at hi'
    next heq heq' => exact heq.symm.trans heq'
    next => exact absurd (hi'.trans hi.symm) (by cases hi; exact hold c'')
    next => exact absurd (hi.trans hi'.symm) (by cases hi'; exact hold c')
    next => exact h.apart c' c'' i hi hi'
  · rw [next_put] at hk
    by_cases hlast : k = b.next
    · exact ⟨c, by rw [place?_put, if_pos rfl, hlast]⟩
    · obtain ⟨c', hc'⟩ := h.onto k (by omega)
      refine ⟨c', ?_⟩
      rw [place?_put, if_neg, hc']
      rintro rfl
      rw [hnew] at hc'
      cases hc'

theorem slots_of_place (hi : b.place? c = some i) : b.slots[i.toNat]? = some (some c) := by
  rw [slots_eq]
  refine foldl_enter (fun p hp heq => ?_) ?_ (.inl (mem_pairs.mpr hi))
  · exact h.apart p.1 c i (heq ▸ mem_pairs.mp hp) hi
  · rw [Array.size_replicate]
    exact h.within c i hi

/-- No slot is left empty. -/
theorem slots_eq_map : b.slots = b.entries.map some := by
  have hsize : b.slots.size = b.next := by rw [slots_eq, size_foldl_enter, Array.size_replicate]
  obtain ⟨list, hlist⟩ : ∃ list : Array Constant, b.slots = list.map some := by
    refine ⟨b.slots.map (·.getD default), Array.ext_getElem? fun k => ?_⟩
    by_cases hk : k < b.next
    · obtain ⟨c, hc⟩ := h.onto k hk
      have hslot := h.slots_of_place hc
      rw [toNat_toUInt16 (Nat.lt_of_lt_of_le hk h.room)] at hslot
      simp [hslot]
    · simp [hsize, hk]
  rw [entries, hlist, Array.filterMap_map]
  simp

theorem size_entries : b.entries.size = b.next := by
  have hsize := congrArg Array.size h.slots_eq_map
  rwa [slots_eq, size_foldl_enter, Array.size_replicate, Array.size_map, eq_comm] at hsize

theorem entries_of_place (hi : b.place? c = some i) : b.entries[i.toNat]? = some c := by
  have hslot := h.slots_of_place hi
  rw [h.slots_eq_map] at hslot
  simpa using hslot

theorem entries_iff : b.entries[k]? = some c ↔ k < b.next ∧ b.place? c = some k.toUInt16 := by
  constructor
  · intro hk
    have hlt := h.size_entries ▸ (getElem_of_getElem? hk).1
    obtain ⟨c', hc'⟩ := h.onto k hlt
    have hentry := h.entries_of_place hc'
    rw [toNat_toUInt16 (Nat.lt_of_lt_of_le hlt h.room), hk] at hentry
    cases hentry
    exact ⟨hlt, hc'⟩
  · rintro ⟨hlt, hc⟩
    have hentry := h.entries_of_place hc
    rwa [toNat_toUInt16 (Nat.lt_of_lt_of_le hlt h.room)] at hentry

theorem mem_entries : c ∈ b.entries ↔ b.place? c ≠ none := by
  constructor
  · intro hc
    obtain ⟨k, hk⟩ := Array.getElem?_of_mem hc
    rw [(h.entries_iff.mp hk).2]
    exact Option.some_ne_none _
  · intro hc
    obtain ⟨i, hi⟩ := Option.ne_none_iff_exists'.mp hc
    exact Array.mem_of_getElem? (h.entries_of_place hi)

/-- A new constant is appended. -/
theorem entries_put (hnew : b.place? c = none) (hroom : b.next < PoolError.capacity) :
    (b.put c).entries = b.entries.push c := by
  refine Array.ext_getElem? fun k => Option.ext fun c' => ?_
  rw [(h.put hnew hroom).entries_iff, next_put, place?_put, Array.getElem?_push, h.size_entries]
  by_cases hk : k = b.next
  · subst hk
    rw [if_pos rfl, Option.some.injEq]
    refine ⟨fun ⟨_, hc⟩ => ?_, fun heq => ⟨Nat.lt_succ_self _, if_pos heq⟩⟩
    split at hc
    next heq => exact heq
    next =>
      have := h.within c' _ hc
      rw [toNat_toUInt16 hroom] at this
      omega
  · rw [if_neg hk, h.entries_iff]
    split
    next heq =>
      subst heq
      refine ⟨fun ⟨hlt, hc⟩ => ?_, fun ⟨_, hc⟩ => ?_⟩
      · have := congrArg UInt16.toNat (Option.some.inj hc)
        rw [toNat_toUInt16 hroom, toNat_toUInt16 (by omega)] at this
        omega
      · rw [hnew] at hc
        cases hc
    next => exact and_congr_left fun _ => by omega

end Sound

def Grows (b b' : Builder) : Prop :=
  ∀ (i : Nat) c, b.entries[i]? = some c → b'.entries[i]? = some c

theorem add_ok {b' : Builder} (h : b.Sound) (hadd : b.add c = (.ok i, b')) :
    b'.Sound ∧ b.Grows b' ∧ b'.entries[i.toNat]? = some c := by
  cases hplace : b.place? c with
  | some j =>
    rw [add_known hplace] at hadd
    cases hadd
    exact ⟨h, fun _ _ => id, h.entries_of_place hplace⟩
  | none =>
    rw [add_new hplace] at hadd
    split at hadd
    next hroom =>
      cases hadd
      have hput := h.put hplace hroom
      refine ⟨hput, fun k c' hk => ?_, hput.entries_of_place (by rw [place?_put, if_pos rfl])⟩
      have := (getElem_of_getElem? hk).1
      rw [h.entries_put hplace hroom, Array.getElem?_push, if_neg (by omega), hk]
    · cases hadd

/-- Different places hold different constants. -/
theorem Sound.index_inj (h : b.Sound) {j : UInt16} (hi : b.entries[i.toNat]? = some c)
    (hj : b.entries[j.toNat]? = some c) : i = j := by
  have := Option.some.inj ((h.entries_iff.mp hi).2.symm.trans (h.entries_iff.mp hj).2)
  simpa using this

/-! ## Sequences of constants -/

/-- The builder after some constants were to be added, whether there was room for them or not. -/
def after (b : Builder) (cs : List Constant) : Builder := cs.foldl (fun b c => (b.add c).2) b

theorem Sound.add (h : b.Sound) (c : Constant) : (b.add c).2.Sound ∧ b.Grows (b.add c).2 := by
  cases hadd : b.add c with
  | mk r b' =>
    cases r with
    | ok i =>
      obtain ⟨hs, hgrows, -⟩ := add_ok h hadd
      exact ⟨hs, hgrows⟩
    | error e =>
      obtain rfl : b' = b := by
        cases hplace : b.place? c with
        | some i =>
          rw [add_known hplace] at hadd
          cases hadd
        | none =>
          rw [add_new hplace] at hadd
          split at hadd <;> cases hadd
          rfl
      exact ⟨h, fun _ _ => id⟩

theorem Sound.after (h : b.Sound) (cs : List Constant) :
    (b.after cs).Sound ∧ b.Grows (b.after cs) := by
  induction cs generalizing b with
  | nil => exact ⟨h, fun _ _ => id⟩
  | cons c cs ih =>
    obtain ⟨hs, hgrows⟩ := h.add c
    obtain ⟨hs', hgrows'⟩ := ih hs
    exact ⟨hs', fun i c hi => hgrows' i c (hgrows i c hi)⟩

/-- What a builder holds: the constants that it was given, each where it first came, as far as there
is room. -/
theorem entries_after (cs : List Constant) :
    (after {} cs).entries.toList = cs.eraseDups.take PoolError.capacity := by
  induction cs using List.reverseRecOn with
  | nil => rfl
  | append_singleton cs c ih =>
    have hs := (empty_sound.after cs).1
    have hstep : after {} (cs ++ [c]) = ((after {} cs).add c).2 := List.foldl_append ..
    generalize after {} cs = b at ih hs hstep
    have hmem : b.place? c ≠ none → c ∈ cs := fun hc => by
      have hc := Array.mem_toList_iff.mpr (hs.mem_entries.mpr hc)
      rw [ih] at hc
      exact List.mem_eraseDups.mp (List.mem_of_mem_take hc)
    have hsize : b.next = min PoolError.capacity cs.eraseDups.length := by
      rw [← hs.size_entries, ← Array.length_toList, ih, List.length_take]
    rw [hstep, List.eraseDups_append]
    cases hplace : b.place? c with
    | some i =>
      have hremove : [c].removeAll cs = [] := by simp [List.removeAll, hmem (by simp [hplace])]
      rw [hremove, List.eraseDups_nil, List.append_nil, ← ih, add_known hplace]
    | none =>
      rw [add_new hplace]
      by_cases hroom : b.next < PoolError.capacity
      · have hlt : cs.eraseDups.length < PoolError.capacity := by omega
        rw [List.take_of_length_le (Nat.le_of_lt hlt)] at ih
        -- a constant that was given before would be there, because there is room
        have hc : c ∉ cs := fun hc => hs.mem_entries.mp
          (Array.mem_toList_iff.mp (ih ▸ List.mem_eraseDups.mpr hc)) hplace
        have hremove : [c].removeAll cs = [c] := by simp [List.removeAll, hc]
        have hone : [c].eraseDups = [c] := by simp [List.eraseDups_cons]
        rw [if_pos hroom, hs.entries_put hplace hroom, Array.toList_push, ih, hremove, hone,
          List.take_of_length_le (by rw [List.length_append]; exact hlt)]
      · rw [if_neg hroom, ih, List.take_append_of_le_length (by omega)]

/-! ## Pools -/

/-- A builder, and the pool that it finishes, hold some constants, each once. -/
structure Holds (b : Builder) (added : List Constant) : Prop where
  nodup : added.Nodup
  known : ∀ (i : Nat) c, added[i]? = some c → b.add c = (.ok i.toUInt16, b)
  fresh : ∀ c ∉ added, added.length < PoolError.capacity → (b.add c).1 = .ok added.length.toUInt16
  full : ∀ c ∉ added, PoolError.capacity ≤ added.length → b.add c = (.error .full, b)
  size : b.finish.size = added.length
  reads : ∀ (i : UInt16) c, added[i.toNat]? = some c → b.finish.expect c.kind i = .ok c ∧
    ∀ kind, kind ≠ c.kind → b.finish.expect kind i = .error (.wrongKind i kind c.kind)
  missing : ∀ (i : UInt16) kind, added.length ≤ i.toNat →
    b.finish.expect kind i = .error (.missing i)

theorem Sound.nodup (h : b.Sound) : b.entries.toList.Nodup := by
  rw [List.nodup_iff_getElem?_ne_getElem?]
  intro j k hjk hk heq
  simp only [Array.length_toList, Array.getElem?_toList] at hk heq
  have hget := Array.getElem?_eq_getElem hk
  obtain ⟨hk, hplace⟩ := h.entries_iff.mp hget
  obtain ⟨hj, hplace'⟩ := h.entries_iff.mp (heq.trans hget)
  have hwords := congrArg UInt16.toNat (Option.some.inj (hplace.symm.trans hplace'))
  have := h.room
  rw [toNat_toUInt16 (by omega), toNat_toUInt16 (by omega)] at hwords
  omega

theorem Sound.holds (h : b.Sound) : b.Holds b.entries.toList := by
  have hnew : ∀ c ∉ b.entries.toList, b.place? c = none := fun c hc => by
    by_contra hplace
    exact hc (Array.mem_toList_iff.mpr (h.mem_entries.mpr hplace))
  have hlength := Array.length_toList.trans h.size_entries
  refine ⟨h.nodup, fun i c hi => ?_, fun c hc hroom => ?_, fun c hc hfull => ?_,
    Array.length_toList.symm, fun i c hi => ?_, fun i kind hi => ?_⟩
  · exact add_known (h.entries_iff.mp (by simpa using hi)).2
  · rw [add_new (hnew c hc), if_pos (hlength ▸ hroom), hlength]
  · rw [add_new (hnew c hc), if_neg (Nat.not_lt.mpr (hlength ▸ hfull))]
  · have hget : b.finish.get i = .ok c := by
      have hi : b.entries[i.toNat]? = some c := by simpa using hi
      rw [get, finish, hi]
    refine ⟨?_, fun kind hkind => ?_⟩
    · rw [expect, hget]
      exact if_pos rfl
    · rw [expect, hget]
      exact if_neg (Ne.symm hkind)
  · have hget : b.finish.get i = .error (.missing i) := by
      have hi : b.entries[i.toNat]? = none := Array.getElem?_eq_none (by simpa using hi)
      rw [get, finish, hi]
    rw [expect, hget]
    rfl

/-- Whatever constants a builder is given, it holds the different ones in the order of their first
appearance, up to its capacity, and a constant keeps the index that it was once given. -/
theorem after_holds (cs : List Constant) :
    (after {} cs).Holds (cs.eraseDups.take PoolError.capacity) ∧
    ∀ before c later i b, cs = before ++ c :: later → (after {} before).add c = (.ok i, b) →
      (after {} cs).add c = (.ok i, after {} cs) := by
  have hs := (empty_sound.after cs).1
  refine ⟨entries_after cs ▸ hs.holds, ?_⟩
  rintro before c later i b rfl hadd
  obtain ⟨hs', -, hi⟩ := add_ok (empty_sound.after before).1 hadd
  have hafter : after {} (before ++ c :: later) = b.after later := by
    rw [after, List.foldl_append, List.foldl_cons]
    exact congrArg (fun r => r.2.after later) hadd
  rw [hafter] at hs ⊢
  have hknown := add_known (hs.entries_iff.mp ((hs'.after later).2 _ _ hi)).2
  rwa [Nat.toUInt16_eq, UInt16.ofNat_toNat] at hknown

end Pool.Builder

end Bytescript
