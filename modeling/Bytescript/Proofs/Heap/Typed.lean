import Bytescript.Proofs.Flow
import Bytescript.Proofs.Heap.Generations
import Bytescript.Proofs.ReferenceTypes

/-!
# Typed heaps

A `HeapTypes` says of every reference that has been handed out what type it was made as. Values are
typed with respect to it (`Value.HasType`), and so is what stands in the heap (`Heap.HasTypes`),
deleted entries being of no concern.

References are not to be handed out twice. The generation of a slot comes back to where it was after
`2 ^ 32` deletions only, so it is enough to keep count of these.
-/

namespace Bytescript

open TypeTable (primitives)
open Lower (ClassInfo)

/-- The types of the references that have been handed out. -/
abbrev HeapTypes := HeapId → Option TypeId

namespace HeapTypes

/-- References keep their types. -/
def Le (τ τ' : HeapTypes) : Prop := ∀ id t, τ id = some t → τ' id = some t

theorem Le.refl (τ : HeapTypes) : τ.Le τ := fun _ _ => id

theorem Le.set {τ : HeapTypes} {id : HeapId} (hnew : τ id = none) (t : TypeId) :
    τ.Le (Function.update τ id (some t)) := by
  intro id' t' h
  rw [Function.update_of_ne _ _ _, h]
  rintro rfl
  rw [hnew] at h
  cases h

end HeapTypes

/-! ## Values -/

/-- A value is of a type. References may be to nothing at all. -/
def Value.HasType (τ : HeapTypes) (t : TypeId) : Value → Prop
  | .void => primitives.kindOf t = .ref
  | .int n => t = .int ∨ t = .bool ∧ (n = 0 ∨ n = 1)
  | .float _ => t = .double
  | .stringRef id => t = .string ∧ τ id = some .string
  | .objectRef id => 5 ≤ t.index ∧ τ id = some t

namespace Value.HasType

variable {τ τ' : HeapTypes} {t : TypeId} {v : Value}

theorem mono (h : v.HasType τ t) (hτ : τ.Le τ') : v.HasType τ' t := by
  cases v with
  | void | int | float => exact h
  | stringRef id => exact ⟨h.1, hτ id _ h.2⟩
  | objectRef id => exact ⟨h.1, hτ id _ h.2⟩

theorem hasKind (h : v.HasType τ t) : v.hasKind (primitives.kindOf t) = true := by
  cases v with
  | void =>
    rw [show primitives.kindOf t = .ref from h]
    rfl
  | int n => rcases h with rfl | ⟨rfl, -⟩ <;> rfl
  | float x =>
    obtain rfl : t = .double := h
    rfl
  | stringRef id =>
    obtain ⟨rfl, -⟩ := h
    rfl
  | objectRef id =>
    rw [TypeTable.Sound.kindOf_ref h.1]
    rfl

/-- Of the types that are no references, a value has the kind. -/
theorem of_kind {kind : Kind} (h : v.HasType τ t) (ht : primitives.kindOf t = kind) :
    v.hasKind kind = true :=
  ht ▸ h.hasKind

theorem serves {t' : TypeId} (h : v.HasType τ t) (hserves : t.Serves t') : v.HasType τ t' := by
  rcases hserves with rfl | ⟨rfl, rfl⟩
  · exact h
  · obtain ⟨n, rfl⟩ : ∃ n, v = .int n := by
      cases v <;> first | exact ⟨_, rfl⟩ | cases h.hasKind
    exact .inl rfl

theorem int {n : Int64} : (int n).HasType τ .int := .inl rfl

theorem ofBool {b : Bool} : (ofBool b).HasType τ .bool := by
  cases b
  · exact .inr ⟨rfl, .inl rfl⟩
  · exact .inr ⟨rfl, .inr rfl⟩

/-- Members and elements begin with a value of their type. -/
theorem initial (t : TypeId) : (initial (primitives.kindOf t)).HasType τ t := by
  cases hkind : primitives.kindOf t with
  | int =>
    rcases kindOf_eq_int hkind with rfl | rfl
    · exact int
    · exact .inr ⟨rfl, .inl rfl⟩
  | float => exact kindOf_eq_float hkind
  | ref => exact hkind

theorem of_string (h : v.HasType τ .string) : v = .void ∨ ∃ id, v = .stringRef id ∧
    τ id = some .string := by
  cases v with
  | void => exact .inl rfl
  | int n => rcases h with h | ⟨h, -⟩ <;> cases h
  | float x => cases h
  | stringRef id => exact .inr ⟨id, rfl, h.2⟩
  | objectRef id => exact absurd h.1 (by decide)

theorem of_reference (h : v.HasType τ t) (ht : 5 ≤ t.index) :
    v = .void ∨ ∃ id, v = .objectRef id ∧ τ id = some t := by
  have hne : ∀ {other : TypeId}, other.index < 5 → t ≠ other := by
    rintro other hlt rfl
    exact not_lt.mpr ht hlt
  cases v with
  | void => exact .inl rfl
  | int n => rcases h with h | ⟨h, -⟩ <;> exact absurd h (hne (by decide))
  | float x => exact absurd h (hne (by decide))
  | stringRef id => exact absurd h.1 (hne (by decide))
  | objectRef id => exact .inr ⟨id, rfl, h.2⟩

end Value.HasType

/-! ## Entries -/

variable {α β : Type} {i : Nat} {R : α → β → Prop} {as : List α} {bs : List β} {a : α} {b : β}

theorem forall₂_set (h : List.Forall₂ R as bs) (ha : as[i]? = some a) (hb : R a b) :
    List.Forall₂ R as (bs.set i b) := by
  induction h generalizing i with
  | nil => exact .nil
  | cons hab hrest ih =>
    cases i with
    | zero =>
      cases ha
      exact .cons hb hrest
    | succ i => exact .cons hab (ih ha)

theorem forall₂_get (h : List.Forall₂ R as bs) (ha : as[i]? = some a) (hb : bs[i]? = some b) :
    R a b := by
  induction h generalizing i with
  | nil => cases ha
  | cons hab _ ih =>
    cases i with
    | zero =>
      cases ha
      cases hb
      exact hab
    | succ i => exact ih ha hb

/-- What a reference of a type may lead to. -/
def Payload.HasType (T : Tables) (τ : HeapTypes) (t : TypeId) : Payload → Prop
  | .string _ => t = .string
  | .array elements => ∃ el, T.types.element? t = some el ∧ ∀ v ∈ elements, v.HasType τ el
  | .object layout fields => ∃ info, T.scopes.classInfo? t = some info ∧
    layout = info.scopes.constant ∧
    List.Forall₂ (Value.HasType τ) (T.memberTypes info) fields.toList

namespace Payload.HasType

variable {T : Tables} {τ τ' : HeapTypes} {t : TypeId} {p : Payload} {v : Value}

theorem mono (h : p.HasType T τ t) (hτ : τ.Le τ') : p.HasType T τ' t := by
  cases p with
  | string s => exact h
  | array elements =>
    obtain ⟨el, hel, helements⟩ := h
    exact ⟨el, hel, fun v hv => (helements v hv).mono hτ⟩
  | object layout fields =>
    obtain ⟨info, hinfo, hlayout, hfields⟩ := h
    exact ⟨info, hinfo, hlayout, hfields.imp fun _ _ hv => hv.mono hτ⟩

theorem setElement {elements : Array Value} {el : TypeId} (h : (array elements).HasType T τ t)
    (hel : T.types.element? t = some el) (hv : v.HasType τ el) (index : Nat) :
    ((array elements).setAt index v).HasType T τ t := by
  obtain ⟨el', hel', helements⟩ := h
  cases hel.symm.trans hel'
  refine ⟨el, hel, fun u hu => ?_⟩
  rcases Array.mem_or_eq_of_mem_setIfInBounds hu with hu | rfl
  · exact helements u hu
  · exact hv

theorem setField {layout : UInt16} {fields : Array Value} {info : ClassInfo} {m : Nat} {mt : TypeId}
    (h : (object layout fields).HasType T τ t) (hinfo : T.scopes.classInfo? t = some info)
    (hm : (T.memberTypes info)[m]? = some mt) (hv : v.HasType τ mt) :
    ((object layout fields).setAt m v).HasType T τ t := by
  obtain ⟨info', hinfo', hlayout, hfields⟩ := h
  cases hinfo.symm.trans hinfo'
  refine ⟨info, hinfo, hlayout, ?_⟩
  rw [Array.toList_setIfInBounds]
  exact forall₂_set hfields hm hv

end Payload.HasType

/-! ## Heaps -/

namespace Heap

variable {T : Tables} {τ : HeapTypes} {k : Nat} {h h' : Heap} {id : HeapId} {p : Payload}
  {t : TypeId}

/-- The entries of a heap are of the types that they were made as, of which there is a record for as
long as no more than `k` of them have been deleted since it began. -/
structure HasTypes (T : Tables) (τ : HeapTypes) (k : Nat) (h : Heap) : Prop where
  sound : h.Sound
  entries : ∀ id t p, τ id = some t → h.find? id = some p → p.HasType T τ t
  issued : ∀ id t, τ id = some t → ∃ d ≤ k,
    h.generation? id.index = some (id.generation + UInt32.ofNat d) ∧ (d = 0 → h.find? id ≠ none)

namespace HasTypes

theorem empty (hs : h.Sound) : h.HasTypes T (fun _ => none) 0 := ⟨hs, by nofun, by nofun⟩

variable (hh : h.HasTypes T τ k)

include hh

theorem insert (hk : k < 2 ^ 32) (hin : h.insert p = (.ok id, h'))
    (hp : p.HasType T τ t) : τ.Le (Function.update τ id (some t)) ∧
      h'.HasTypes T (Function.update τ id (some t)) k := by
  obtain ⟨-, hbecomes⟩ := hh.sound.insert_ok hin
  have hnew : τ id = none := by
    cases ht : τ id with
    | none => rfl
    | some t =>
      obtain ⟨d, hd, hage⟩ := hh.issued id t ht
      exact absurd rfl (Age.ne_fresh hage hh.sound (Nat.lt_of_le_of_lt hd hk) hin)
  have hle := HeapTypes.Le.set hnew t
  refine ⟨hle, hbecomes.sound, fun id' t' p' ht' hp' => ?_, fun id' t' ht' => ?_⟩
  · rw [hbecomes.find?] at hp'
    by_cases hid : id' = id
    · subst hid
      rw [Function.update_self] at ht' hp'
      cases ht'
      cases hp'
      exact hp.mono hle
    · rw [Function.update_of_ne hid] at ht' hp'
      exact (hh.entries id' t' p' ht' hp').mono hle
  · by_cases hid : id' = id
    · subst hid
      exact ⟨0, Nat.zero_le _, Age.inserted hh.sound hin⟩
    · rw [Function.update_of_ne hid] at ht'
      obtain ⟨d, hd, hage⟩ := hh.issued id' t' ht'
      exact ⟨d, hd, Age.insert hage hh.sound hin⟩

theorem delete (hdelete : h.delete id = (.ok p, h')) : h'.HasTypes T τ (k + 1) := by
  obtain ⟨-, hbecomes⟩ := hh.sound.delete_ok hdelete
  refine ⟨hbecomes.sound, fun id' t' p' ht' hp' => ?_, fun id' t' ht' => ?_⟩
  · rw [hbecomes.find?] at hp'
    by_cases hid : id' = id
    · subst hid
      rw [Function.update_self] at hp'
      cases hp'
    · rw [Function.update_of_ne hid] at hp'
      exact hh.entries id' t' p' ht' hp'
  · obtain ⟨d, hd, hage⟩ := hh.issued id' t' ht'
    have hnext := Age.delete hage hh.sound hdelete
    split at hnext
    · exact ⟨d + 1, Nat.succ_le_succ hd, hnext⟩
    · exact ⟨d, Nat.le_succ_of_le hd, hnext⟩

theorem setAt (hp : h.find? id = some p) {index : Nat} {v : Value}
    (hset : ∀ t, τ id = some t → (p.setAt index v).HasType T τ t) :
    (h.setAt id index v).HasTypes T τ k := by
  have hbecomes := hh.sound.setAt hp index v
  refine ⟨hbecomes.sound, fun id' t' p' ht' hp' => ?_, fun id' t' ht' => ?_⟩
  · rw [hbecomes.find?] at hp'
    by_cases hid : id' = id
    · subst hid
      rw [Function.update_self] at hp'
      cases hp'
      exact hset t' ht'
    · rw [Function.update_of_ne hid] at hp'
      exact hh.entries id' t' p' ht' hp'
  · obtain ⟨d, hd, hage⟩ := hh.issued id' t' ht'
    exact ⟨d, hd, Age.setAt hage hh.sound hp index v⟩

theorem mono {k' : Nat} (hk : k ≤ k') : h.HasTypes T τ k' :=
  ⟨hh.sound, hh.entries, fun id t ht => (hh.issued id t ht).imp fun _ hd => ⟨hd.1.trans hk, hd.2⟩⟩

/-! ### Strings -/

theorem string (hid : τ id = some .string) (hel : T.types.element? .string = none)
    (hclass : T.scopes.classInfo? .string = none) :
    h.string id = .error (.freed id) ∨ ∃ text, h.string id = .ok text := by
  rcases h.string_cases id with ⟨text, -, hok⟩ | ⟨e, hrefuses, herror⟩
  · exact .inr ⟨text, hok⟩
  · cases hrefuses with
    | freed => exact .inl herror
    | @wrongKind p hp htag =>
      have hp := hh.entries id _ p hid hp
      cases p with
      | string => exact absurd rfl htag
      | array =>
        obtain ⟨el, hel', -⟩ := hp
        cases hel.symm.trans hel'
      | object =>
        obtain ⟨info, hinfo, -⟩ := hp
        cases hclass.symm.trans hinfo

/-! ### Objects -/

section

variable {info : ClassInfo} {m : Nat} {mt : TypeId} (hid : τ id = some t)
  (hinfo : T.scopes.classInfo? t = some info) (ht : 5 ≤ t.index)
    (harray : T.types.element? t = none)

include hid hinfo ht harray

theorem object : h.object id = .error (.freed id) ∨
    ∃ fields, h.find? id = some (.object info.scopes.constant fields) ∧
      h.object id = .ok (info.scopes.constant, fields) ∧
      List.Forall₂ (Value.HasType τ) (T.memberTypes info) fields.toList := by
  rcases h.object_cases id with ⟨c, fields, hp, hok⟩ | ⟨e, hrefuses, herror⟩
  · obtain ⟨info', hinfo', rfl, hfields⟩ := hh.entries id _ _ hid hp
    cases hinfo.symm.trans hinfo'
    exact .inr ⟨fields, hp, hok, hfields⟩
  · cases hrefuses with
    | freed => exact .inl herror
    | @wrongKind p hp htag =>
      have hp := hh.entries id _ p hid hp
      cases p with
      | string =>
        obtain rfl : t = .string := hp
        exact absurd ht (by decide)
      | array =>
        obtain ⟨el, hel', -⟩ := hp
        cases harray.symm.trans hel'
      | object => exact absurd rfl htag

variable (hm : (T.memberTypes info)[m]? = some mt)

include hm

theorem field : h.field id m = .error (.freed id) ∨ ∃ v, h.field id m = .ok v ∧ v.HasType τ mt := by
  unfold Heap.field
  rcases hh.object hid hinfo ht harray with herror | ⟨fields, -, hok, hfields⟩
  · rw [herror]
    exact .inl rfl
  · rw [hok]
    have hlt : m < fields.size := by
      rw [← Array.length_toList, ← hfields.length_eq]
      exact (getElem_of_getElem? hm).1
    have hget : fields[m]? = some fields[m] := Array.getElem?_eq_getElem hlt
    refine .inr ⟨fields[m], ?_, forall₂_get hfields hm (Array.getElem?_toList ▸ hget)⟩
    show valueAt id fields m = _
    rw [valueAt, hget]

theorem setField {v : Value} (hv : v.HasType τ mt) : h.setField id m v = (.error (.freed id), h) ∨
    ∃ h', h.setField id m v = (.ok (), h') ∧ h'.HasTypes T τ k := by
  unfold Heap.setField Heap.store Heap.fieldCount
  rcases hh.object hid hinfo ht harray with herror | ⟨fields, hp, hok, hfields⟩
  · rw [herror]
    exact .inl rfl
  · rw [hok]
    have hlt : m < fields.size := by
      rw [← Array.length_toList, ← hfields.length_eq]
      exact (getElem_of_getElem? hm).1
    refine .inr ⟨h.setAt id m v, if_pos hlt, hh.setAt hp fun t' ht' => ?_⟩
    cases hid.symm.trans ht'
    exact (hh.entries id t _ hid hp).setField hinfo hm hv

end

/-! ### Arrays -/

section

variable {el : TypeId} (hid : τ id = some t) (hel : T.types.element? t = some el)
  (ht : 5 ≤ t.index) (hclass : T.scopes.classInfo? t = none)

include hid hel ht hclass

theorem array : h.array id = .error (.freed id) ∨ ∃ elements, h.find? id = some (.array elements) ∧
    h.array id = .ok elements ∧ ∀ v ∈ elements, v.HasType τ el := by
  rcases h.array_cases id with ⟨elements, hp, hok⟩ | ⟨e, hrefuses, herror⟩
  · obtain ⟨el', hel', helements⟩ := hh.entries id _ _ hid hp
    cases hel.symm.trans hel'
    exact .inr ⟨elements, hp, hok, helements⟩
  · cases hrefuses with
    | freed => exact .inl herror
    | @wrongKind p hp htag =>
      have hp := hh.entries id _ p hid hp
      cases p with
      | string =>
        obtain rfl : t = .string := hp
        exact absurd ht (by decide)
      | array => exact absurd rfl htag
      | object =>
        obtain ⟨info, hinfo, -⟩ := hp
        cases hclass.symm.trans hinfo

theorem arraySize : h.arraySize id = .error (.freed id) ∨ ∃ n, h.arraySize id = .ok n := by
  unfold Heap.arraySize
  rcases hh.array hid hel ht hclass with herror | ⟨elements, -, hok, -⟩
  · rw [herror]
    exact .inl rfl
  · rw [hok]
    exact .inr ⟨_, rfl⟩

theorem element (index : Nat) : h.element id index = .error (.freed id) ∨
    (∃ n, h.element id index = .error (.outOfBounds id index n)) ∨
    ∃ v, h.element id index = .ok v ∧ v.HasType τ el := by
  unfold Heap.element
  rcases hh.array hid hel ht hclass with herror | ⟨elements, -, hok, helements⟩
  · rw [herror]
    exact .inl rfl
  · rw [hok]
    refine .inr ?_
    rcases valueAt_cases id elements index with ⟨hlt, hvalue⟩ | ⟨-, hvalue⟩
    · exact .inr ⟨_, hvalue, helements _ (Array.getElem_mem hlt)⟩
    · exact .inl ⟨_, hvalue⟩

theorem setElement (index : Nat) {v : Value} (hv : v.HasType τ el) :
    h.setElement id index v = (.error (.freed id), h) ∨
    (∃ n, h.setElement id index v = (.error (.outOfBounds id index n), h)) ∨
    ∃ h', h.setElement id index v = (.ok (), h') ∧ h'.HasTypes T τ k := by
  unfold Heap.setElement Heap.store Heap.arraySize
  rcases hh.array hid hel ht hclass with herror | ⟨elements, hp, hok, helements⟩
  · rw [herror]
    exact .inl rfl
  · rw [hok]
    refine .inr ?_
    by_cases hlt : index < elements.size
    · refine .inr ⟨h.setAt id index v, if_pos hlt, hh.setAt hp fun t' ht' => ?_⟩
      cases hid.symm.trans ht'
      exact (hh.entries id t _ hid hp).setElement hel hv index
    · exact .inl ⟨_, if_neg hlt⟩

end

end HasTypes

end Heap

end Bytescript
