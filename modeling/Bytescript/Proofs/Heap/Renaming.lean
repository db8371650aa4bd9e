import Bytescript.Proofs.Heap.Generations
import Mathlib.Logic.Equiv.Basic

/-!
# Heaps up to renaming

Where a new entry of a heap is put, and so what reference it gets, depends on all that the heap has
been through. Two heaps that the same is done to hand out references that differ in nothing else: a
`Renaming` pairs them, and the heaps agree up to it (`Heap.Renamed`). Every operation keeps them so
and answers alike, except that one of them may be full before the other.

What was in the heaps at the start has no part in this. A new pair is taken up with each new entry,
and as long as fewer than `2 ^ 32` entries are deleted both of its references are new ones
(`Heap.Tracks`).
-/

namespace Bytescript

/-! ## Arrays side by side -/

/-- Two arrays of one size whose entries are related one by one. -/
def Matched {α β : Type} (r : α → β → Prop) (xs : Array α) (ys : Array β) : Prop :=
  ∀ i : Nat, Option.Rel r xs[i]? ys[i]?

variable {α β : Type} {r : α → β → Prop} {x : Option α} {y : Option β}

theorem optionRel_mono {s : α → β → Prop} (h : Option.Rel r x y) (hrs : ∀ a b, r a b → s a b) :
    Option.Rel s x y := by
  cases h with
  | none => exact .none
  | some hab => exact .some (hrs _ _ hab)

theorem optionRel_eq_none (h : Option.Rel r x y) : x = none ↔ y = none := by
  cases h with
  | none => exact ⟨fun _ => rfl, fun _ => rfl⟩
  | some => exact ⟨nofun, nofun⟩

theorem optionRel_eq_map {f : α → β} (h : Option.Rel r x y) (hf : ∀ a b, r a b → b = f a) :
    y = x.map f := by
  cases h with
  | none => rfl
  | some hab => exact congrArg some (hf _ _ hab)

namespace Matched

variable {α β : Type} {r s : α → β → Prop} {xs xs' : Array α} {ys ys' : Array β} {x : α} {y : β}

theorem refl {r : α → α → Prop} (h : ∀ x ∈ xs, r x x) : Matched r xs xs := by
  intro i
  cases hx : xs[i]? with
  | none => exact .none
  | some x => exact .some (h x (Array.mem_of_getElem? hx))

theorem empty : Matched r #[] #[] := fun _ => .none

theorem replicate (hxy : r x y) (n : Nat) : Matched r (.replicate n x) (.replicate n y) := by
  intro i
  rw [Array.getElem?_replicate, Array.getElem?_replicate]
  split
  · exact .some hxy
  · exact .none

variable (h : Matched r xs ys)

include h

theorem mono (hrs : ∀ a b, r a b → s a b) : Matched s xs ys :=
  fun i => optionRel_mono (h i) hrs

theorem size_eq : ys.size = xs.size := by
  have hbounds : ∀ i : Nat, xs.size ≤ i ↔ ys.size ≤ i := by
    intro i
    have hi := optionRel_eq_none (h i)
    rwa [Array.getElem?_eq_none_iff, Array.getElem?_eq_none_iff] at hi
  have hxs := hbounds xs.size
  have hys := hbounds ys.size
  omega

theorem getElem {i j : Nat} (hi : i < xs.size) (hj : j < ys.size) (hij : i = j) :
    r xs[i] ys[j] := by
  subst hij
  have hrel := h i
  rw [Array.getElem?_eq_getElem hi, Array.getElem?_eq_getElem hj] at hrel
  cases hrel with
  | some hxy => exact hxy

theorem push (hxy : r x y) : Matched r (xs.push x) (ys.push y) := by
  intro i
  rw [Array.getElem?_push, Array.getElem?_push, h.size_eq]
  split
  · exact .some hxy
  · exact h i

theorem pop : Matched r xs.pop ys.pop := by
  intro i
  rw [Array.getElem?_pop, Array.getElem?_pop, h.size_eq]
  split
  · exact h i
  · exact .none

theorem back? : Option.Rel r xs.back? ys.back? := by
  rw [Array.back?_eq_getElem?, Array.back?_eq_getElem?, h.size_eq]
  exact h _

theorem set (i : Nat) (hxy : r x y) :
    Matched r (xs.setIfInBounds i x) (ys.setIfInBounds i y) := by
  intro j
  rw [Array.getElem?_setIfInBounds, Array.getElem?_setIfInBounds, h.size_eq]
  split
  · split
    · exact .some hxy
    · exact .none
  · exact h j

theorem reverse : Matched r xs.reverse ys.reverse := by
  intro i
  by_cases hi : i < xs.size
  · rw [Array.getElem?_reverse hi, Array.getElem?_reverse (h.size_eq ▸ hi), h.size_eq]
    exact h _
  · rw [Array.getElem?_eq_none (by simpa using hi),
      Array.getElem?_eq_none (by simpa [h.size_eq] using hi)]
    exact .none

theorem append (h' : Matched r xs' ys') : Matched r (xs ++ xs') (ys ++ ys') := by
  intro i
  rw [Array.getElem?_append, Array.getElem?_append, h.size_eq]
  split
  · exact h i
  · exact h' _

theorem extract (start stop : Nat) :
    Matched r (xs.extract start stop) (ys.extract start stop) := by
  intro i
  rw [Array.getElem?_extract, Array.getElem?_extract, h.size_eq]
  split
  · exact h _
  · exact .none

theorem shrink (n : Nat) : Matched r (xs.shrink n) (ys.shrink n) := by
  rw [Array.shrink_eq_take, Array.shrink_eq_take]
  exact h.extract 0 n

theorem map_eq {f : α → β} (hf : ∀ a b, r a b → b = f a) : ys = xs.map f := by
  refine Array.ext_getElem? fun i => ?_
  rw [Array.getElem?_map]
  exact optionRel_eq_map (h i) hf

end Matched

/-! ## Renamings -/

/-- References to entries of one heap, each with the one that stands for it in another heap. -/
abbrev Renaming := List (HeapId × HeapId)

namespace Renaming

variable {R : Renaming} {a b : HeapId}

theorem mem_left (h : (a, b) ∈ R) : a ∈ R.map Prod.fst := List.mem_map.mpr ⟨(a, b), h, rfl⟩

theorem mem_right (h : (a, b) ∈ R) : b ∈ R.map Prod.snd := List.mem_map.mpr ⟨(a, b), h, rfl⟩

end Renaming

/-- A renaming of all references does to those that are paired what the pairs say. -/
def Renaming.FollowedBy (R : Renaming) (ρ : Equiv.Perm HeapId) : Prop := ∀ a b, (a, b) ∈ R → ρ a = b

/-- No reference is paired with two others. -/
structure Renaming.OneToOne (R : Renaming) : Prop where
  left : (R.map Prod.fst).Nodup
  right : (R.map Prod.snd).Nodup

namespace Renaming.OneToOne

variable {R S : Renaming} {a a' b b' : HeapId}

theorem eq_iff (h : R.OneToOne) (ha : (a, b) ∈ R) (ha' : (a', b') ∈ R) : a = a' ↔ b = b' := by
  constructor
  · rintro rfl
    exact congrArg Prod.snd (List.inj_on_of_nodup_map h.left ha ha' rfl)
  · rintro rfl
    exact congrArg Prod.fst (List.inj_on_of_nodup_map h.right ha ha' rfl)

theorem cons (h : R.OneToOne) (ha : a ∉ R.map Prod.fst) (hb : b ∉ R.map Prod.snd) :
    OneToOne ((a, b) :: R) :=
  ⟨List.nodup_cons.mpr ⟨ha, h.left⟩, List.nodup_cons.mpr ⟨hb, h.right⟩⟩

theorem append (h : R.OneToOne) (h' : S.OneToOne)
    (hleft : (R.map Prod.fst).Disjoint (S.map Prod.fst))
    (hright : (R.map Prod.snd).Disjoint (S.map Prod.snd)) : OneToOne (R ++ S) := by
  refine ⟨?_, ?_⟩
  · rw [List.map_append]
    exact h.left.append h'.left hleft
  · rw [List.map_append]
    exact h.right.append h'.right hright

theorem exists_perm (h : R.OneToOne) : ∃ ρ : Equiv.Perm HeapId, R.FollowedBy ρ := by
  induction R with
  | nil => exact ⟨Equiv.refl _, fun _ _ hmem => absurd hmem List.not_mem_nil⟩
  | cons pair R ih =>
    obtain ⟨a, b⟩ := pair
    obtain ⟨ha, hleft⟩ := List.nodup_cons.mp h.left
    obtain ⟨hb, hright⟩ := List.nodup_cons.mp h.right
    obtain ⟨ρ, hρ⟩ := ih ⟨hleft, hright⟩
    -- whatever had been sent to `b` gets what `a` had been sent to
    refine ⟨ρ.trans (Equiv.swap (ρ a) b), fun x y hxy => ?_⟩
    rcases List.mem_cons.mp hxy with hpair | hmem
    · cases hpair
      exact Equiv.swap_apply_left ..
    · have hx : x ≠ a := by
        rintro rfl
        exact ha (mem_left hmem)
      have hy : y ≠ b := by
        rintro rfl
        exact hb (mem_right hmem)
      rw [Equiv.trans_apply, hρ x y hmem]
      refine Equiv.swap_apply_of_ne_of_ne (fun heq => hx (ρ.injective ?_)) hy
      exact (hρ x y hmem).trans heq

end Renaming.OneToOne

/-! ## Values and entries -/

def Value.rename (ρ : Equiv.Perm HeapId) : Value → Value
  | .stringRef id => .stringRef (ρ id)
  | .objectRef id => .objectRef (ρ id)
  | v => v

/-- What is no reference stays what it is, and nothing else becomes it. -/
theorem Value.rename_eq_iff (ρ : Equiv.Perm HeapId) {u v : Value} (h : v.heapId? = none) :
    u.rename ρ = v ↔ u = v := by
  cases u with
  | void | int | float => rfl
  | stringRef | objectRef =>
    constructor <;> rintro rfl <;> cases h

/-- Two values that are the same, or references that are paired. -/
inductive Value.Renamed (R : Renaming) : Value → Value → Prop
  | void : Renamed R .void .void
  | int (n : Int64) : Renamed R (.int n) (.int n)
  | float (x : Double) : Renamed R (.float x) (.float x)
  | string {a b} : (a, b) ∈ R → Renamed R (.stringRef a) (.stringRef b)
  | object {a b} : (a, b) ∈ R → Renamed R (.objectRef a) (.objectRef b)

namespace Value.Renamed

variable {R R' : Renaming} {v v' u u' : Value}

theorem mono (h : v.Renamed R v') (hR : R ⊆ R') : v.Renamed R' v' := by
  cases h with
  | void => exact .void
  | int n => exact .int n
  | float x => exact .float x
  | string hab => exact .string (hR hab)
  | object hab => exact .object (hR hab)

/-- Values that are no references stand for themselves. -/
theorem of_scalar (h : v.heapId? = none) : v.Renamed R v := by
  cases v with
  | void => exact .void
  | int n => exact .int n
  | float x => exact .float x
  | stringRef id => cases h
  | objectRef id => cases h

theorem eq_rename (h : v.Renamed R v') {ρ : Equiv.Perm HeapId} (hρ : R.FollowedBy ρ) :
    v' = v.rename ρ := by
  cases h with
  | void | int | float => rfl
  | string hab => exact congrArg stringRef (hρ _ _ hab).symm
  | object hab => exact congrArg objectRef (hρ _ _ hab).symm

theorem initial (kind : Kind) : (initial kind).Renamed R (.initial kind) :=
  of_scalar (by cases kind <;> rfl)

theorem hasKind_eq (h : v.Renamed R v') (kind : Kind) : v'.hasKind kind = v.hasKind kind := by
  cases h <;> cases kind <;> rfl

theorem equal_eq (hR : R.OneToOne) (h : v.Renamed R v') (hu : u.Renamed R u') :
    v'.equal u' = v.equal u := by
  cases h with
  | string ha =>
    cases hu with
    | string hb => exact decide_eq_decide.mpr (hR.eq_iff ha hb).symm
    | _ => rfl
  | object ha =>
    cases hu with
    | object hb => exact decide_eq_decide.mpr (hR.eq_iff ha hb).symm
    | _ => rfl
  | void | int | float => cases hu <;> rfl

end Value.Renamed

def Payload.rename (ρ : Equiv.Perm HeapId) : Payload → Payload
  | .string text => .string text
  | .array elements => .array (elements.map (Value.rename ρ))
  | .object layout fields => .object layout (fields.map (Value.rename ρ))

inductive Payload.Renamed (R : Renaming) : Payload → Payload → Prop
  | string (text : String) : Renamed R (.string text) (.string text)
  | array {xs ys} : Matched (Value.Renamed R) xs ys → Renamed R (.array xs) (.array ys)
  | object (layout : UInt16) {xs ys} : Matched (Value.Renamed R) xs ys →
    Renamed R (.object layout xs) (.object layout ys)

namespace Payload.Renamed

variable {R R' : Renaming} {p p' : Payload}

theorem mono (h : p.Renamed R p') (hR : R ⊆ R') : p.Renamed R' p' := by
  cases h with
  | string text => exact .string text
  | array hvalues => exact .array (hvalues.mono fun _ _ hv => hv.mono hR)
  | object layout hvalues => exact .object layout (hvalues.mono fun _ _ hv => hv.mono hR)

theorem eq_rename (h : p.Renamed R p') {ρ : Equiv.Perm HeapId} (hρ : R.FollowedBy ρ) :
    p' = p.rename ρ := by
  cases h with
  | string text => rfl
  | array hvalues => exact congrArg Payload.array (hvalues.map_eq fun _ _ hv => hv.eq_rename hρ)
  | object layout hvalues => exact congrArg (Payload.object layout) (hvalues.map_eq fun _ _ hv =>
    hv.eq_rename hρ)

theorem setAt (h : p.Renamed R p') (index : Nat) {v v' : Value} (hv : v.Renamed R v') :
    (p.setAt index v).Renamed R (p'.setAt index v') := by
  cases h with
  | string text => exact .string text
  | array hvalues => exact .array (hvalues.set index hv)
  | object layout hvalues => exact .object layout (hvalues.set index hv)

end Payload.Renamed

def HeapError.rename (ρ : Equiv.Perm HeapId) : HeapError → HeapError
  | .freed id => .freed (ρ id)
  | .wrongKind id expected found => .wrongKind (ρ id) expected found
  | .outOfBounds id index size => .outOfBounds (ρ id) index size
  | .exhausted live => .exhausted live

/-- Errors of two heaps about entries that stand for each other. Being full is not among them. -/
inductive HeapError.Renamed (R : Renaming) : HeapError → HeapError → Prop
  | freed {a b} : (a, b) ∈ R → Renamed R (.freed a) (.freed b)
  | wrongKind {a b} (expected found : HeapTag) : (a, b) ∈ R →
    Renamed R (.wrongKind a expected found) (.wrongKind b expected found)
  | outOfBounds {a b} (index size : Nat) : (a, b) ∈ R →
    Renamed R (.outOfBounds a index size) (.outOfBounds b index size)

namespace HeapError.Renamed

variable {R R' : Renaming} {e e' : HeapError}

theorem mono (h : e.Renamed R e') (hR : R ⊆ R') : e.Renamed R' e' := by
  cases h with
  | freed hab => exact .freed (hR hab)
  | wrongKind expected found hab => exact .wrongKind expected found (hR hab)
  | outOfBounds index size hab => exact .outOfBounds index size (hR hab)

theorem eq_rename (h : e.Renamed R e') {ρ : Equiv.Perm HeapId} (hρ : R.FollowedBy ρ) :
    e' = e.rename ρ := by
  cases h with
  | freed hab | wrongKind _ _ hab | outOfBounds _ _ hab => rw [rename, hρ _ _ hab]

end HeapError.Renamed

namespace Heap

/-! ## References since a start -/

/-- A heap has come from another one by way of at most `N` deletions; `ids` have been handed out
since then, and nothing else has been changed. -/
structure Tracks (start : Heap) (N : Nat) (ids : List HeapId) (h : Heap) : Prop where
  sound : h.Sound
  older : ∀ id d, start.Age id d → ∃ d' ≤ d + N, h.Age id d'
  aged : ∀ id ∈ ids, ∃ d ≤ N, h.Age id d
  new : ∀ id ∈ ids, ∀ d, d + N < 2 ^ 32 → ¬ start.Age id d
  kept : ∀ id, id ∉ ids → h.find? id = start.find? id

namespace Tracks

variable {start h h' : Heap} {N N' : Nat} {ids : List HeapId} {id : HeapId} {p : Payload}

theorem refl (hs : h.Sound) : h.Tracks 0 [] h where
  sound := hs
  older _ d hage := ⟨d, Nat.le_refl d, hage⟩
  aged _ hmem := absurd hmem List.not_mem_nil
  new _ hmem := absurd hmem List.not_mem_nil
  kept _ _ := rfl

variable (ht : start.Tracks N ids h)

include ht

theorem mono (hN : N ≤ N') : start.Tracks N' ids h where
  sound := ht.sound
  older id d hage := by
    obtain ⟨d', hle, hage'⟩ := ht.older id d hage
    exact ⟨d', by omega, hage'⟩
  aged id hmem := by
    obtain ⟨d, hle, hage⟩ := ht.aged id hmem
    exact ⟨d, by omega, hage⟩
  new id hmem d hd := ht.new id hmem d (by omega)
  kept := ht.kept

theorem not_mem (hN : N < 2 ^ 32) (hin : h.insert p = (.ok id, h')) : id ∉ ids := by
  intro hmem
  obtain ⟨d, hd, hage⟩ := ht.aged id hmem
  exact hage.ne_fresh ht.sound (by omega) hin rfl

theorem insert (hin : h.insert p = (.ok id, h')) :
    start.Tracks N (id :: ids) h' where
  sound := (ht.sound.insert_ok hin).2.sound
  older id' d hage := by
    obtain ⟨d', hle, hage'⟩ := ht.older id' d hage
    exact ⟨d', hle, hage'.insert ht.sound hin⟩
  aged id' hmem := by
    rcases List.mem_cons.mp hmem with rfl | hmem
    · exact ⟨0, Nat.zero_le _, .inserted ht.sound hin⟩
    · obtain ⟨d, hle, hage⟩ := ht.aged id' hmem
      exact ⟨d, hle, hage.insert ht.sound hin⟩
  new id' hmem d hd hage := by
    rcases List.mem_cons.mp hmem with rfl | hmem
    · obtain ⟨d', hle, hage'⟩ := ht.older id' d hage
      exact hage'.ne_fresh ht.sound (by omega) hin rfl
    · exact ht.new id' hmem d hd hage
  kept id' hmem := by
    obtain ⟨hne, hmem⟩ := not_or.mp fun hcons => hmem (List.mem_cons.mpr hcons)
    rw [(ht.sound.insert_ok hin).2.find?, Function.update_of_ne hne, ht.kept id' hmem]

theorem delete (hid : id ∈ ids) (hdelete : h.delete id = (.ok p, h')) :
    start.Tracks (N + 1) ids h' := by
  have hage : ∀ {id' d}, h.Age id' d → ∃ d' ≤ d + 1, h'.Age id' d' := by
    intro id' d hage
    have hnext := hage.delete ht.sound hdelete
    split at hnext
    · exact ⟨d + 1, le_rfl, hnext⟩
    · exact ⟨d, Nat.le_succ d, hnext⟩
  refine ⟨(ht.sound.delete_ok hdelete).2.sound, fun id' d hstart => ?_, fun id' hmem => ?_,
    fun id' hmem d hd => ht.new id' hmem d (by omega), fun id' hmem => ?_⟩
  · obtain ⟨d1, hle1, hage1⟩ := ht.older id' d hstart
    obtain ⟨d2, hle2, hage2⟩ := hage hage1
    exact ⟨d2, by omega, hage2⟩
  · obtain ⟨d1, hle1, hage1⟩ := ht.aged id' hmem
    obtain ⟨d2, hle2, hage2⟩ := hage hage1
    exact ⟨d2, by omega, hage2⟩
  · have hne : id' ≠ id := fun heq => hmem (heq ▸ hid)
    rw [(ht.sound.delete_ok hdelete).2.find?, Function.update_of_ne hne, ht.kept id' hmem]

theorem setAt (hid : id ∈ ids) (hp : h.find? id = some p) (index : Nat) (v : Value) :
    start.Tracks N ids (h.setAt id index v) where
  sound := (ht.sound.setAt hp index v).sound
  older id' d hage := by
    obtain ⟨d', hle, hage'⟩ := ht.older id' d hage
    exact ⟨d', hle, hage'.setAt ht.sound hp index v⟩
  aged id' hmem := by
    obtain ⟨d, hle, hage⟩ := ht.aged id' hmem
    exact ⟨d, hle, hage.setAt ht.sound hp index v⟩
  new := ht.new
  kept id' hmem := by
    have hne : id' ≠ id := fun heq => hmem (heq ▸ hid)
    rw [(ht.sound.setAt hp index v).find?, Function.update_of_ne hne, ht.kept id' hmem]

/-- References that have been handed out one time after another differ. -/
theorem disjoint {later : Heap} {ids' : List HeapId}
    (ht' : h.Tracks N' ids' later) (hN : N + N' < 2 ^ 32) : ids.Disjoint ids' := by
  intro id hmem hmem'
  obtain ⟨d, hle, hage⟩ := ht.aged id hmem
  exact ht'.new id hmem' d (by omega) hage

end Tracks

/-! ## Heaps side by side -/

/-- Two heaps, each with a start of its own, on which the same has been done since: what has been
made is paired and agrees. -/
structure Renamed (σ : Heap × Heap) (R : Renaming) (N : Nat) (h h' : Heap) : Prop where
  one : R.OneToOne
  few : N < 2 ^ 32
  left : σ.1.Tracks N (R.map Prod.fst) h
  right : σ.2.Tracks N (R.map Prod.snd) h'
  find? : ∀ a b, (a, b) ∈ R → Option.Rel (Payload.Renamed R) (h.find? a) (h'.find? b)

/-- How an operation ends on two heaps that leaves them as they are. -/
inductive Answered {α β : Type} (R : Renaming) (r : α → β → Prop) :
    Except HeapError α → Except HeapError β → Prop
  | ok {a b} : r a b → Answered R r (.ok a) (.ok b)
  | error {e e'} : e.Renamed R e' → Answered R r (.error e) (.error e')

theorem Answered.bind {γ δ : Type} {R : Renaming} {r : α → β → Prop} {s : γ → δ → Prop}
    {x : Except HeapError α} {y : Except HeapError β} {f : α → Except HeapError γ}
    {g : β → Except HeapError δ} (h : Answered R r x y)
    (hf : ∀ a b, r a b → Answered R s (f a) (g b)) : Answered R s (x >>= f) (y >>= g) := by
  cases h with
  | ok hab => exact hf _ _ hab
  | error he => exact .error he

/-- How an operation ends on two heaps that may change them. One of the heaps may be full. -/
inductive Changed {α β : Type} (σ : Heap × Heap) (R : Renaming) (N : Nat)
    (r : Renaming → α → β → Prop) :
    Except HeapError α × Heap → Except HeapError β × Heap → Prop
  | ok {R' a b h h'} : R ⊆ R' → r R' a b → Renamed σ R' N h h' →
    Changed σ R N r (.ok a, h) (.ok b, h')
  | error {e e' h h'} : e.Renamed R e' → Renamed σ R N h h' →
    Changed σ R N r (.error e, h) (.error e', h')
  | fullLeft {live h result} : Changed σ R N r (.error (.exhausted live), h) result
  | fullRight {live h' result} : Changed σ R N r result (.error (.exhausted live), h')

namespace Renamed

variable {σ : Heap × Heap} {h h' k k' : Heap} {R : Renaming} {N N' : Nat} {a b : HeapId}

theorem refl (hs : h.Sound) (hs' : h'.Sound) : Renamed (h, h') [] 0 h h' where
  one := ⟨.nil, .nil⟩
  few := by decide
  left := .refl hs
  right := .refl hs'
  find? _ _ hmem := absurd hmem List.not_mem_nil

theorem mono (hh : Renamed σ R N h h') (hN : N ≤ N') (hfew : N' < 2 ^ 32) : Renamed σ R N' h h' :=
  ⟨hh.one, hfew, hh.left.mono hN, hh.right.mono hN, hh.find?⟩

theorem valueAt (hab : (a, b) ∈ R) {xs ys : Array Value} (hvalues : Matched (Value.Renamed R) xs ys)
    (index : Nat) : Answered R (Value.Renamed R) (valueAt a xs index) (valueAt b ys index) := by
  have hindex := hvalues index
  unfold Heap.valueAt
  rw [hvalues.size_eq]
  generalize xs[index]? = x, ys[index]? = y at hindex
  cases hindex with
  | none => exact .error (.outOfBounds index xs.size hab)
  | some hv => exact .ok hv

section

variable (hh : Renamed σ R N h h') {c d : HeapId} {v v' : Value}

include hh

theorem insert {p p' : Payload} (hp : p.Renamed R p') :
    Changed σ R N (fun R id id' => (id, id') ∈ R) (h.insert p) (h'.insert p') := by
  rcases hh.left.sound.insert p with ⟨-, hfull⟩ | ⟨-, id, k, hin, -, hk⟩
  · rw [hfull]
    exact .fullLeft
  rcases hh.right.sound.insert p' with ⟨-, hfull⟩ | ⟨-, id', k', hin', -, hk'⟩
  · rw [hfull]
    exact .fullRight
  rw [hin, hin']
  have hfresh := hh.left.not_mem hh.few hin
  have hfresh' := hh.right.not_mem hh.few hin'
  have hsub : R ⊆ (id, id') :: R := List.subset_cons_self _ _
  refine .ok hsub (.head _)
    ⟨hh.one.cons hfresh hfresh', hh.few, hh.left.insert hin, hh.right.insert hin',
      fun a b hab => ?_⟩
  rw [hk.find?, hk'.find?]
  rcases List.mem_cons.mp hab with hpair | hab
  · cases hpair
    rw [Function.update_self, Function.update_self]
    exact .some (hp.mono hsub)
  · have hne : a ≠ id := fun heq => hfresh (heq ▸ Renaming.mem_left hab)
    have hne' : b ≠ id' := fun heq => hfresh' (heq ▸ Renaming.mem_right hab)
    rw [Function.update_of_ne hne, Function.update_of_ne hne']
    exact optionRel_mono (hh.find? a b hab) fun _ _ hq => hq.mono hsub

variable (hab : (a, b) ∈ R)

include hab

/-! ### Reading -/

theorem get : Answered R (Payload.Renamed R) (h.get a) (h'.get b) := by
  have hfind := hh.find? a b hab
  unfold Heap.get
  generalize h.find? a = x, h'.find? b = y at hfind
  cases hfind with
  | none => exact .error (.freed hab)
  | some hp => exact .ok hp

theorem string : Answered R Eq (h.string a) (h'.string b) := by
  refine (hh.get hab).bind fun p p' hp => ?_
  cases hp with
  | string text => exact .ok rfl
  | array => exact .error (.wrongKind .string .array hab)
  | object => exact .error (.wrongKind .string .object hab)

theorem array :
    Answered R (Matched (Value.Renamed R)) (h.array a) (h'.array b) := by
  refine (hh.get hab).bind fun p p' hp => ?_
  cases hp with
  | array hvalues => exact .ok hvalues
  | string => exact .error (.wrongKind .array .string hab)
  | object => exact .error (.wrongKind .array .object hab)

theorem object :
    Answered R (fun x y => Matched (Value.Renamed R) x.2 y.2) (h.object a) (h'.object b) := by
  refine (hh.get hab).bind fun p p' hp => ?_
  cases hp with
  | object _ hvalues => exact .ok hvalues
  | string => exact .error (.wrongKind .object .string hab)
  | array => exact .error (.wrongKind .object .array hab)

theorem arraySize : Answered R Eq (h.arraySize a) (h'.arraySize b) :=
  (hh.array hab).bind fun _ _ hvalues => .ok hvalues.size_eq.symm

theorem fieldCount : Answered R Eq (h.fieldCount a) (h'.fieldCount b) :=
  (hh.object hab).bind fun _ _ hvalues => .ok hvalues.size_eq.symm

theorem element (index : Nat) :
    Answered R (Value.Renamed R) (h.element a index) (h'.element b index) :=
  (hh.array hab).bind fun _ _ hvalues => valueAt hab hvalues index

theorem field (index : Nat) :
    Answered R (Value.Renamed R) (h.field a index) (h'.field b index) :=
  (hh.object hab).bind fun _ _ hvalues => valueAt hab hvalues index

theorem stringsEqual (hcd : (c, d) ∈ R) :
    Answered R Eq (h.stringsEqual a c) (h'.stringsEqual b d) := by
  refine (hh.string hab).bind fun left left' hleft =>
    (hh.string hcd).bind fun right right' hright => ?_
  subst hleft hright
  exact .ok rfl

/-! ### Changing -/

/-- Two entries that are paired may be changed alike. -/
theorem update (hfew : N' < 2 ^ 32)
    (hleft : σ.1.Tracks N' (R.map Prod.fst) k) (hright : σ.2.Tracks N' (R.map Prod.snd) k')
    {q q' : Option Payload} (hk : k.find? = Function.update h.find? a q)
    (hk' : k'.find? = Function.update h'.find? b q') (hq : Option.Rel (Payload.Renamed R) q q') :
    Renamed σ R N' k k' := by
  refine ⟨hh.one, hfew, hleft, hright, fun x y hxy => ?_⟩
  have heq := hh.one.eq_iff hxy hab
  rw [hk, hk', Function.update_apply, Function.update_apply]
  by_cases hx : x = a
  · rw [if_pos hx, if_pos (heq.mp hx)]
    exact hq
  · rw [if_neg hx, if_neg fun hy => hx (heq.mpr hy)]
    exact hh.find? x y hxy

theorem delete (hfew : N + 1 < 2 ^ 32) :
    Changed σ R (N + 1) (fun R p p' => p.Renamed R p') (h.delete a) (h'.delete b) := by
  have hfind := hh.find? a b hab
  rcases hh.left.sound.delete a with ⟨hnone, hgone⟩ | ⟨p, k, hp, hdelete, hk⟩
  · rw [hnone] at hfind
    rcases hh.right.sound.delete b with ⟨-, hgone'⟩ | ⟨p', k', hp', -, -⟩
    · rw [hgone, hgone']
      exact .error (.freed hab) (hh.mono (Nat.le_succ N) hfew)
    · rw [hp'] at hfind
      cases hfind
  · rw [hp] at hfind
    rcases hh.right.sound.delete b with ⟨hnone', -⟩ | ⟨p', k', hp', hdelete', hk'⟩
    · rw [hnone'] at hfind
      cases hfind
    · rw [hp'] at hfind
      rw [hdelete, hdelete']
      cases hfind with
      | some hpayload =>
        exact .ok (List.Subset.refl R) hpayload (hh.update hab hfew
          (hh.left.delete (Renaming.mem_left hab) hdelete)
          (hh.right.delete (Renaming.mem_right hab) hdelete') hk.find? hk'.find? .none)

theorem store (index : Nat) (hv : v.Renamed R v') {size size' : Except HeapError Nat}
    (hsize : Answered R Eq size size') (hfound : ∀ n, size = .ok n → h.find? a ≠ none) :
    Changed σ R N (fun _ _ _ => True) (h.store a size index v) (h'.store b size' index v') := by
  cases hsize with
  | error he => exact .error he hh
  | @ok n n' hn =>
    subst hn
    have hfind := hh.find? a b hab
    obtain ⟨p, hp⟩ := Option.ne_none_iff_exists'.mp (hfound n rfl)
    rw [hp] at hfind
    cases hp' : h'.find? b with
    | none =>
      rw [hp'] at hfind
      cases hfind
    | some p' =>
      rw [hp'] at hfind
      cases hfind with
      | some hpayload =>
        simp only [Heap.store]
        split
        · exact .ok (List.Subset.refl R) trivial (hh.update hab hh.few
            (hh.left.setAt (Renaming.mem_left hab) hp index v)
            (hh.right.setAt (Renaming.mem_right hab) hp' index v')
            (hh.left.sound.setAt hp index v).find? (hh.right.sound.setAt hp' index v').find?
            (.some (hpayload.setAt index hv)))
        · exact .error (.outOfBounds index n hab) hh

theorem setElement (index : Nat) (hv : v.Renamed R v') :
    Changed σ R N (fun _ _ _ => True) (h.setElement a index v) (h'.setElement b index v') := by
  refine hh.store hab index hv (hh.arraySize hab) fun n hn => ?_
  rcases h.array_cases a with ⟨vs, hvs, -⟩ | ⟨e, -, heq⟩
  · rw [hvs]
    exact Option.some_ne_none _
  · rw [Heap.arraySize, heq] at hn
    cases hn

theorem setField (index : Nat) (hv : v.Renamed R v') :
    Changed σ R N (fun _ _ _ => True) (h.setField a index v) (h'.setField b index v') := by
  refine hh.store hab index hv (hh.fieldCount hab) fun n hn => ?_
  rcases h.object_cases a with ⟨c, vs, hvs, -⟩ | ⟨e, -, heq⟩
  · rw [hvs]
    exact Option.some_ne_none _
  · rw [Heap.fieldCount, heq] at hn
    cases hn

theorem concat (hcd : (c, d) ∈ R) :
    Changed σ R N (fun R id id' => (id, id') ∈ R) (h.concat a c) (h'.concat b d) := by
  have hjoined : Answered R Eq (do return (← h.string a) ++ (← h.string c))
      (do return (← h'.string b) ++ (← h'.string d)) := by
    refine (hh.string hab).bind fun left left' hleft =>
      (hh.string hcd).bind fun right right' hright => ?_
    subst hleft hright
    exact .ok rfl
  unfold Heap.concat
  dsimp only
  generalize (do return (← h.string a) ++ (← h.string c) : Except HeapError String) = x,
    (do return (← h'.string b) ++ (← h'.string d) : Except HeapError String) = y at hjoined
  cases hjoined with
  | error he => exact .error he hh
  | ok htext =>
    subst htext
    exact hh.insert (.string _)

end

/-! ### Either order -/

/-- What is done by two in one order and in the other: the first one takes `w` to `wa` and `wb` to
`hba`, the second one takes `wa` to `hab` and `w` to `wb`. What has been made in the one order and
in the other agrees up to a renaming of all references. -/
theorem join {w wa wb hab hba : Heap} {S : Renaming} {M : Nat} (hR : Renamed (w, wb) R N wa hba)
    (hS : Renamed (wa, w) S M hab wb) (hfew : N + M < 2 ^ 32) :
    ∃ ρ : Equiv.Perm HeapId, R.FollowedBy ρ ∧ S.FollowedBy ρ ∧
      ∀ id, w.find? id = none → w.find? (ρ id) = none →
        hba.find? (ρ id) = (hab.find? id).map (Payload.rename ρ) := by
  have hleft : (R.map Prod.fst).Disjoint (S.map Prod.fst) := hR.left.disjoint hS.left hfew
  have hright : (R.map Prod.snd).Disjoint (S.map Prod.snd) :=
    (hS.right.disjoint hR.right (by omega)).symm
  obtain ⟨ρ, hρ⟩ := (hR.one.append hS.one hleft hright).exists_perm
  have hρR : R.FollowedBy ρ := fun a b hab => hρ a b (List.mem_append_left S hab)
  have hρS : S.FollowedBy ρ := fun a b hab => hρ a b (List.mem_append_right R hab)
  refine ⟨ρ, hρR, hρS, fun id hnone hnone' => ?_⟩
  by_cases hidR : id ∈ R.map Prod.fst
  · obtain ⟨⟨_, b⟩, hmem, rfl⟩ := List.mem_map.mp hidR
    rw [hρR _ b hmem, hS.left.kept _ (hleft hidR)]
    exact optionRel_eq_map (hR.find? _ b hmem) fun _ _ hp => hp.eq_rename hρR
  by_cases hidS : id ∈ S.map Prod.fst
  · obtain ⟨⟨_, b⟩, hmem, rfl⟩ := List.mem_map.mp hidS
    rw [hρS _ b hmem, hR.right.kept b fun hb => hright hb (Renaming.mem_right hmem)]
    exact optionRel_eq_map (hS.find? _ b hmem) fun _ _ hp => hp.eq_rename hρS
  · have hfresh : ∀ {T : Renaming}, T.FollowedBy ρ → id ∉ T.map Prod.fst →
        ρ id ∉ T.map Prod.snd := by
      intro T hT hid hmem
      obtain ⟨⟨a, _⟩, hpair, rfl⟩ := List.mem_map.mp hmem
      obtain rfl := ρ.injective (hT a _ hpair)
      exact hid (Renaming.mem_left hpair)
    rw [hR.right.kept _ (hfresh hρR hidR), hS.right.kept _ (hfresh hρS hidS), hnone',
      hS.left.kept id hidS, hR.left.kept id hidR, hnone, Option.map_none]

end Renamed

end Heap

end Bytescript
