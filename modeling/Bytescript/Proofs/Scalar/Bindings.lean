import Bytescript.Proofs.Scalar.Expression

/-!
# Bindings and slots

How the slots of a routine follow the bindings of a scalar script. Every variable that can be named
has a slot of its own (`Locals.Apart`), so an assignment changes the slot of one variable only, and
a declaration takes a slot that no other variable has. When a scope is left, the bindings of the
scope are cut off and those around it have stayed where they were (`Bindings.Covers`).
-/

namespace Bytescript

namespace Bindings

variable {S S' S1 S2 : Bindings} {name other : String} {v : Scalar}

/-- The names that are bound, the innermost first. -/
def names (S : Bindings) : List String := S.map Prod.fst

theorem lookup_eq_none : S.lookup name = none ↔ name ∉ S.names := by
  induction S with
  | nil => simp [names]
  | cons binding S ih =>
    obtain ⟨n, v⟩ := binding
    rw [List.lookup_cons]
    by_cases hname : name = n
    · simp [names, hname]
    · simp only [beq_eq_false_iff_ne.mpr hname]
      simpa [names, hname] using ih

theorem names_set (S : Bindings) (name : String) (v : Scalar) : (S.set name v).names = S.names := by
  induction S with
  | nil => rfl
  | cons binding S ih =>
    obtain ⟨n, old⟩ := binding
    rw [set]
    split
    · rfl
    · exact congrArg (n :: ·) ih

theorem lookup_set_self (h : name ∈ S.names) : (S.set name v).lookup name = some v := by
  induction S with
  | nil => cases h
  | cons binding S ih =>
    obtain ⟨n, old⟩ := binding
    rw [set]
    split
    next heq => simp [heq]
    next hne =>
      have hmem : name ∈ names S := (List.mem_cons.mp h).resolve_left (Ne.symm hne)
      rw [List.lookup_cons, beq_eq_false_iff_ne.mpr (Ne.symm hne)]
      exact ih hmem

theorem lookup_set_ne (h : other ≠ name) : (S.set name v).lookup other = S.lookup other := by
  induction S with
  | nil => rfl
  | cons binding S ih =>
    obtain ⟨n, old⟩ := binding
    rw [set]
    split
    next heq =>
      have hother : (other == n) = false := beq_eq_false_iff_ne.mpr (heq ▸ h)
      rw [List.lookup_cons, List.lookup_cons, hother]
    · rw [List.lookup_cons, List.lookup_cons, ih]

/-- Below bindings of their own, some bindings have those of others, perhaps changed. -/
def Covers (S' S : Bindings) : Prop := S.names <:+ S'.names

namespace Covers

theorem refl (S : Bindings) : S.Covers S := List.suffix_rfl

theorem of_names (h : S'.names = S.names) : S'.Covers S := by
  rw [Covers, h]

theorem trans (h1 : S1.Covers S) (h2 : S2.Covers S1) : S2.Covers S := List.IsSuffix.trans h1 h2

theorem bind (S : Bindings) (name : String) (v : Scalar) : Covers ((name, v) :: S) S :=
  List.suffix_cons ..

theorem length_le (h : S'.Covers S) : S.length ≤ S'.length := by
  have := List.IsSuffix.length_le h
  rwa [names, names, List.length_map, List.length_map] at this

theorem names_cut (h : S'.Covers S) : (S'.cut S.length).names = S.names := by
  have hlength := h.length_le
  obtain ⟨front, hfront⟩ := h
  have hsize : front.length = S'.length - S.length := by
    have := congrArg List.length hfront
    simp only [names, List.length_append, List.length_map] at this
    omega
  rw [cut, ← hsize, names, List.map_drop]
  change S'.names.drop _ = _
  rw [← hfront, List.drop_left]

/-- Scopes can be left one after the other or all at once. -/
theorem cut_cut (h1 : S1.Covers S) (h2 : S2.Covers S1) :
    (S2.cut S1.length).cut S.length = S2.cut S.length := by
  have hle1 := h1.length_le
  have hle2 := h2.length_le
  rw [cut, cut, cut, List.drop_drop, List.length_drop]
  congr 1
  omega

end Covers

theorem cut_of_names (h : S'.names = S.names) : S'.cut S.length = S' := by
  have hlength : S'.length = S.length := by simpa [names] using congrArg List.length h
  rw [cut, hlength, Nat.sub_self, List.drop_zero]

theorem lookup_cut {depth : Nat} (hnodup : S.names.Nodup) (hname : name ∈ (S.cut depth).names) :
    (S.cut depth).lookup name = S.lookup name := by
  have hsplit : S = S.take (S.length - depth) ++ S.cut depth := (List.take_append_drop ..).symm
  rw [hsplit, names, List.map_append, List.nodup_append] at hnodup
  have hfront : name ∉ (S.take (S.length - depth)).map Prod.fst :=
    fun hmem => hnodup.2.2 name hmem name hname rfl
  have hnone : (S.take (S.length - depth)).lookup name = none := lookup_eq_none.mpr hfront
  conv_rhs => rw [hsplit]
  rw [List.lookup_append, hnone, Option.none_or]

end Bindings

/-! ## Slots of their own -/

/-- Variables have slots among the first `count`, each one its own. -/
structure Locals.Apart (Γ : Locals) (count : Nat) : Prop where
  lt : ∀ name slot t, Γ name = some (slot, t) → slot.toNat < count
  inj : ∀ name other slot t t', Γ name = some (slot, t) → Γ other = some (slot, t') → name = other

namespace Locals.Apart

variable {Γ : Locals} {count : Nat}

theorem empty : empty.Apart count := ⟨nofun, nofun⟩

theorem mono (h : Γ.Apart count) {count' : Nat} (hle : count ≤ count') : Γ.Apart count' :=
  ⟨fun name slot t hname => (h.lt name slot t hname).trans_le hle, h.inj⟩

theorem toNat_next (hlt : count < 65536) : count.toUInt16.toNat = count := by
  rw [Nat.toUInt16_eq, UInt16.toNat_ofNat', Nat.mod_eq_of_lt hlt]

theorem set (h : Γ.Apart count) (hlt : count < 65536) (name : String) (t : TypeId) :
    (Γ.set name count.toUInt16 t).Apart (count + 1) := by
  have hnew : ∀ {other slot t'}, (Γ.set name count.toUInt16 t) other = some (slot, t') →
      (other = name ∧ slot = count.toUInt16) ∨ Γ other = some (slot, t') := by
    intro other slot t' hother
    rw [Locals.set] at hother
    split at hother
    next heq =>
      obtain ⟨rfl, -⟩ := Prod.mk.inj (Option.some.inj hother)
      exact .inl ⟨heq, rfl⟩
    · exact .inr hother
  have hfresh : ∀ other t', Γ other ≠ some (count.toUInt16, t') := by
    intro other t' hother
    have := h.lt other _ t' hother
    rw [toNat_next hlt] at this
    exact Nat.lt_irrefl _ this
  refine ⟨fun other slot t' hother => ?_, fun a b slot t1 t2 ha hb => ?_⟩
  · rcases hnew hother with ⟨-, rfl⟩ | hother
    · rw [toNat_next hlt]
      exact Nat.lt_succ_self _
    · exact Nat.lt_succ_of_lt (h.lt other slot t' hother)
  · rcases hnew ha with ⟨haname, rfl⟩ | ha
    · rcases hnew hb with ⟨hbname, -⟩ | hb
      · exact haname.trans hbname.symm
      · exact absurd hb (hfresh b t2)
    · rcases hnew hb with ⟨-, rfl⟩ | hb
      · exact absurd ha (hfresh a t1)
      · exact h.inj a b slot t1 t2 ha hb

end Locals.Apart

/-- Statements keep the slots of variables apart. -/
theorem Executes.apart {T : Tables} {H : Home} {loop : Option LoopEnds} {task : Task}
    {Γ Γ' : Locals}
    {Δ Δ' : List TypeId} {b : Nat} {code : List Instruction}
    (h : Executes T H loop task Γ Δ b code Γ' Δ')
    (hΓ : Γ.Apart Δ.length) : Γ'.Apart Δ'.length := by
  induction h with
  | var _ _ _ _ hlt hslot =>
    rw [hslot, List.length_append]
    exact hΓ.set hlt _ _
  | block hbody => exact hΓ.mono hbody.slots_grow.length_le
  | choose _ _ _ ih1 ih2 => exact ih2 (ih1 hΓ)
  | whileLoop _ _ _ ih => exact ih hΓ
  | forLoop hinit _ _ _ _ _ hbody =>
    exact hΓ.mono (hinit.slots_grow.length_le.trans hbody.slots_grow.length_le)
  | cons _ _ ih1 ih2 => exact ih2 (ih1 hΓ)
  | arm _ _ _ _ ih1 ih2 => exact ih2 (ih1 hΓ)
  | _ => exact hΓ

/-! ## Slots that hold bindings -/

namespace Locals.Holds

variable {Γ Γ' : Locals} {S S' : Bindings} {slots slots' : Array Value} {count : Nat}
  {name : String} {v : Scalar}

theorem empty (slots : Array Value) : Locals.empty.Holds [] slots :=
  ⟨by simp [Locals.empty], .nil, nofun⟩

/-- What is left of the bindings when a scope is. -/
theorem cut (h' : Γ'.Holds S' slots') (h : Γ.Holds S slots) (hle : Γ.Le Γ')
    (hcovers : S'.Covers S) : Γ.Holds (S'.cut S.length) slots' := by
  have hnames := hcovers.names_cut
  refine ⟨fun name => ?_, ?_, fun name slot t hname => ?_⟩
  · exact (iff_of_eq (congrArg (name ∈ ·) hnames)).trans (h.names name)
  · exact (congrArg List.Nodup hnames).mpr h.nodup
  · obtain ⟨v, hlookup, htype, hslot⟩ := h'.value name slot t (hle name _ hname)
    have hmem : name ∈ (S'.cut S.length).names := by
      rw [hnames]
      exact (h.names name).mpr (by rw [hname]; rfl)
    exact ⟨v, (Bindings.lookup_cut h'.nodup hmem).trans hlookup, htype, hslot⟩

/-- An assignment changes one slot. -/
theorem set (h : Γ.Holds S slots) (hΓ : Γ.Apart count) {slot : UInt16}
    (hname : Γ name = some (slot, v.type.id))
    (hlt : slot.toNat < slots.size) : Γ.Holds (S.set name v)
    (slots.setIfInBounds slot.toNat v.value) := by
  have hnames := S.names_set name v
  refine ⟨fun other => ?_, ?_, fun other slot' t hother => ?_⟩
  · exact (iff_of_eq (congrArg (other ∈ ·) hnames)).trans (h.names other)
  · exact (congrArg List.Nodup hnames).mpr h.nodup
  · by_cases heq : other = name
    · subst heq
      cases hname.symm.trans hother
      have hmem : other ∈ S.names := (h.names other).mpr (by rw [hname]; rfl)
      exact ⟨v, Bindings.lookup_set_self hmem, rfl, by simp [hlt]⟩
    · obtain ⟨u, hlookup, htype, hslot⟩ := h.value other slot' t hother
      have hne : slot.toNat ≠ slot'.toNat := by
        intro hsame
        obtain rfl := UInt16.toNat_inj.mp hsame
        exact heq (hΓ.inj other name _ _ _ hother hname)
      refine ⟨u, (Bindings.lookup_set_ne heq).trans hlookup, htype, ?_⟩
      rw [Array.getElem?_setIfInBounds_ne hne, hslot]

/-- A declaration takes the next slot. -/
theorem declare (h : Γ.Holds S slots) (hΓ : Γ.Apart count) (hlt : count < 65536)
    (hroom : count < slots.size)
    (hname : Γ name = none) (v : Scalar) : (Γ.set name count.toUInt16 v.type.id).Holds
    ((name, v) :: S)
      (slots.setIfInBounds count v.value) := by
  refine ⟨fun other => ?_, ?_, fun other slot t hother => ?_⟩
  · rw [Locals.set]
    split
    next heq => simp [heq]
    next hne =>
      rw [List.map_cons, List.mem_cons, or_iff_right hne]
      exact h.names other
  · refine List.nodup_cons.mpr ⟨fun hmem => ?_, h.nodup⟩
    have := (h.names name).mp hmem
    rw [hname] at this
    cases this
  · rw [Locals.set] at hother
    split at hother
    next heq =>
      cases hother
      refine ⟨v, by simp [heq], rfl, ?_⟩
      rw [Apart.toNat_next hlt]
      simp [hroom]
    next hne =>
      obtain ⟨u, hlookup, htype, hslot⟩ := h.value other slot t hother
      have hother := hΓ.lt other slot t hother
      refine ⟨u, ?_, htype, ?_⟩
      · rw [List.lookup_cons, beq_eq_false_iff_ne.mpr hne]
        exact hlookup
      · rw [Array.getElem?_setIfInBounds_ne (by omega), hslot]

end Locals.Holds

end Bytescript
