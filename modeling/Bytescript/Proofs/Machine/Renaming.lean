import Bytescript.Proofs.Heap.Renaming
import Bytescript.Proofs.Machine.StaticTypes

/-!
# Machines up to renaming

Two machines that are the same but for their heaps and for the references into them stay so: they
execute the same instructions, come to the same end, and their values are renamed in one way
(`Machine.Renamed.run`). The heaps have pasts of their own, so new entries get different references;
each instruction that makes one adds a pair to the renaming. The only thing that can set the
machines apart is a heap that is full.

Actions are taken in pairs (`Exec.Renames`), each pair from whatever machines the renaming has come
to by then. Natives may print references, so there are none here.
-/

namespace Bytescript

/-! ## Errors, frames and machines -/

def RunError.rename (ρ : Equiv.Perm HeapId) : RunError → RunError
  | .typeMismatch expected found => .typeMismatch expected (found.rename ρ)
  | .heap cause => .heap (cause.rename ρ)
  | e => e

inductive RunError.Renamed (R : Renaming) : RunError → RunError → Prop
  | same {e} : (∀ ρ, e.rename ρ = e) → Renamed R e e
  | typeMismatch (expected : Kind) {v v'} : v.Renamed R v' →
    Renamed R (.typeMismatch expected v) (.typeMismatch expected v')
  | heap {e e'} : e.Renamed R e' → Renamed R (.heap e) (.heap e')

namespace RunError.Renamed

variable {R R' : Renaming} {e e' : RunError}

theorem mono (h : e.Renamed R e') (hR : R ⊆ R') : e.Renamed R' e' := by
  cases h with
  | same hsame => exact .same hsame
  | typeMismatch expected hv => exact .typeMismatch expected (hv.mono hR)
  | heap he => exact .heap (he.mono hR)

theorem eq_rename (h : e.Renamed R e') {ρ : Equiv.Perm HeapId} (hρ : R.FollowedBy ρ) :
    e' = e.rename ρ := by
  cases h with
  | same hsame => exact (hsame ρ).symm
  | typeMismatch expected hv => exact congrArg _ (hv.eq_rename hρ)
  | heap he => exact congrArg _ (he.eq_rename hρ)

end RunError.Renamed

def Frame.rename (ρ : Equiv.Perm HeapId) (f : Frame) : Frame :=
  { f with stack := f.stack.map (Value.rename ρ), slots := f.slots.map (Value.rename ρ) }

structure Frame.Renamed (R : Renaming) (f f' : Frame) : Prop where
  routine : f'.routine = f.routine
  pc : f'.pc = f.pc
  returnAddress : f'.returnAddress = f.returnAddress
  stack : Matched (Value.Renamed R) f.stack f'.stack
  slots : Matched (Value.Renamed R) f.slots f'.slots

namespace Frame.Renamed

variable {R R' : Renaming} {f f' : Frame}

theorem mono (h : f.Renamed R f') (hR : R ⊆ R') : f.Renamed R' f' :=
  ⟨h.routine, h.pc, h.returnAddress, h.stack.mono fun _ _ hv => hv.mono hR,
    h.slots.mono fun _ _ hv => hv.mono hR⟩

theorem eq_rename (h : f.Renamed R f') {ρ : Equiv.Perm HeapId} (hρ : R.FollowedBy ρ) :
    f' = f.rename ρ := by
  have hvalue : ∀ v v' : Value, v.Renamed R v' → v' = v.rename ρ := fun _ _ hv => hv.eq_rename hρ
  obtain ⟨routine', pc', back', stack', slots'⟩ := f'
  rw [rename, mk.injEq]
  exact ⟨h.routine, h.pc, h.returnAddress, h.stack.map_eq hvalue, h.slots.map_eq hvalue⟩

/-- A called routine begins alike for arguments that are alike. -/
theorem call (routine : Routine) {back back' : Nat} (hback : back' = back)
    {args args' : Array Value} (hargs : Matched (Value.Renamed R) args args') :
    (call routine back args).Renamed R (call routine back' args') := by
  subst hback
  exact ⟨rfl, rfl, rfl, (Matched.empty.push (.int _)).append hargs.reverse, .replicate .void _⟩

end Frame.Renamed

/-- Two machines that are the same up to a renaming of what their heaps have handed out since a
start. -/
structure Machine.Renamed (σ : Heap × Heap) (R : Renaming) (N : Nat) (m m' : Machine) : Prop where
  id : m'.id = m.id
  frame : m.frame.Renamed R m'.frame
  callers : Matched (Frame.Renamed R) m.callers m'.callers
  pc : m'.pc = m.pc
  heap : Heap.Renamed σ R N m.world.heap m'.world.heap

namespace Machine.Renamed

variable {σ : Heap × Heap} {R R' : Renaming} {N N' : Nat} {m m' : Machine}

theorem mono (h : m.Renamed σ R N m') (hN : N ≤ N') (hfew : N' < 2 ^ 32) : m.Renamed σ R N' m' :=
  ⟨h.id, h.frame, h.callers, h.pc, h.heap.mono hN hfew⟩

theorem withWorld (h : m.Renamed σ R N m') (hR : R ⊆ R') {w w' : World}
    (hheap : Heap.Renamed σ R' N' w.heap w'.heap) :
    Machine.Renamed σ R' N' { m with world := w } { m' with world := w' } :=
  ⟨h.id, h.frame.mono hR, h.callers.mono fun _ _ hf => hf.mono hR, h.pc, hheap⟩

theorem withStack (h : m.Renamed σ R N m') {stack stack' : Array Value}
    (hstack : Matched (Value.Renamed R) stack stack') :
    Machine.Renamed σ R N { m with frame := { m.frame with stack } }
      { m' with frame := { m'.frame with stack := stack' } } :=
  ⟨h.id, ⟨h.frame.routine, h.frame.pc, h.frame.returnAddress, hstack, h.frame.slots⟩, h.callers,
    h.pc, h.heap⟩

end Machine.Renamed

namespace Exec

/-! ## Actions -/

/-- How two actions end: with what the relation `r` says, with errors that are the same up to the
renaming, or with a full heap on one side. The renaming may have grown meanwhile. -/
inductive Paired {α β : Type} (σ : Heap × Heap) (R : Renaming) (N : Nat)
    (r : Renaming → α → β → Prop) :
    EStateM.Result RunError Machine α → EStateM.Result RunError Machine β → Prop
  | ok {R' a b m m'} : R ⊆ R' → r R' a b → m.Renamed σ R' N m' →
    Paired σ R N r (.ok a m) (.ok b m')
  | error {R' e e' m m'} : R ⊆ R' → e.Renamed R' e' →
    m.Renamed σ R' N m' → Paired σ R N r (.error e m) (.error e' m')
  | fullLeft {live m result} : Paired σ R N r (.error (.heap (.exhausted live)) m) result
  | fullRight {live m' result} : Paired σ R N r result (.error (.heap (.exhausted live)) m')

/-- Two actions end alike wherever the renaming has come to. -/
def Renames {α β : Type} (σ : Heap × Heap) (R : Renaming) (N : Nat) (act : Exec α) (act' : Exec β)
    (r : Renaming → α → β → Prop) : Prop :=
  ∀ R1, R ⊆ R1 → ∀ m m', m.Renamed σ R1 N m' → Paired σ R1 N r (act m) (act' m')

section

variable {α β γ δ : Type} {σ : Heap × Heap} {R R' : Renaming} {N N' : Nat} {r : Renaming → α → β →
  Prop} {s : Renaming → γ → δ → Prop} {m m' : Machine}

theorem Paired.now {a : α} {b : β} (hab : r R a b) (hm : m.Renamed σ R N m') :
    Paired σ R N r (.ok a m) (.ok b m') :=
  .ok (List.Subset.refl R) hab hm

theorem Paired.fails {e e' : RunError} (he : e.Renamed R e') (hm : m.Renamed σ R N m') :
    Paired σ R N r (.error e m) (.error e' m') :=
  .error (List.Subset.refl R) he hm

/-- Two actions, one after the other; the second may delete an entry. -/
theorem Paired.bind {act : Exec α} {act' : Exec β} {f : α → Exec γ} {f' : β → Exec δ}
    (h : Paired σ R N r (act m) (act' m')) (hN : N ≤ N') (hfew : N' < 2 ^ 32)
    (hf : ∀ R', R ⊆ R' → ∀ a b, r R' a b → ∀ m m', m.Renamed σ R' N m' →
      Paired σ R' N' s (f a m) (f' b m')) :
    Paired σ R N' s ((act >>= f) m) ((act' >>= f') m') := by
  generalize hx : act m = x, hy : act' m' = y at h
  cases h with
  | ok hR hab hm =>
    rw [bind_of_ok hx, bind_of_ok hy]
    have hnext := hf _ hR _ _ hab _ _ hm
    generalize f _ _ = x', f' _ _ = y' at hnext
    cases hnext with
    | ok hR' hcd hm' => exact .ok (List.Subset.trans hR hR') hcd hm'
    | error hR' he hm' => exact .error (List.Subset.trans hR hR') he hm'
    | fullLeft => exact .fullLeft
    | fullRight => exact .fullRight
  | error hR he hm =>
    rw [bind_of_error hx, bind_of_error hy]
    exact .error hR he (hm.mono hN hfew)
  | fullLeft =>
    rw [bind_of_error hx]
    exact .fullLeft
  | fullRight =>
    rw [bind_of_error hy]
    exact .fullRight

/-- What is done to the worlds is done to their heaps. -/
theorem Paired.onWorld {f : World → Except HeapError α × World}
    {f' : World → Except HeapError β × World} (hm : m.Renamed σ R N m')
    (h : Heap.Changed σ R N' r ((f m.world).1, (f m.world).2.heap) ((f' m'.world).1,
      (f' m'.world).2.heap)) :
    Paired σ R N' r (onWorld .heap f m) (onWorld .heap f' m') := by
  obtain ⟨id, frame, callers, pc, world⟩ := m
  obtain ⟨id', frame', callers', pc', world'⟩ := m'
  simp only [onWorld]
  dsimp only at h
  generalize f world = x, f' world' = y at h
  obtain ⟨x, w⟩ := x
  obtain ⟨y, w'⟩ := y
  cases h with
  | ok hR hab hheap => exact .ok hR hab (hm.withWorld hR hheap)
  | error he hheap =>
    exact .fails (.heap he) (hm.withWorld (List.Subset.refl R) hheap)
  | fullLeft => exact .fullLeft
  | fullRight => exact .fullRight

namespace Renames

variable {v v' : Value} {a b : HeapId} {act : Exec α} {f : α → Exec γ} {f' : α → Exec δ}

theorem bind {act' : Exec β} {f' : β → Exec δ} (h : Renames σ R N act act' r)
    (hf : ∀ R', R ⊆ R' → ∀ a b, r R' a b → Renames σ R' N (f a) (f' b) s) :
    Renames σ R N (act >>= f) (act' >>= f') s := by
  intro R1 hR m m' hm
  refine (h R1 hR m m' hm).bind le_rfl hm.heap.few fun R' hR' a b hab m m' hm => ?_
  exact hf R' (List.Subset.trans hR hR') a b hab R' (List.Subset.refl R') m m' hm

/-- The first action gives the same on both sides. -/
theorem bindEq {act' : Exec α} (h : Renames σ R N act act' fun _ => Eq)
    (hf : ∀ R', R ⊆ R' → ∀ a, Renames σ R' N (f a) (f' a) s) : Renames σ R N (act >>= f)
    (act' >>= f') s := by
  refine h.bind fun R' hR a b hab => ?_
  subst hab
  exact hf R' hR a

theorem pure {a : α} {b : β} (h : ∀ R1, R ⊆ R1 → r R1 a b) :
    Renames σ R N (Pure.pure a) (Pure.pure b) r :=
  fun R1 hR _ _ hm => .now (h R1 hR) hm

variable {e : RunError} {slot : UInt16}

theorem throw {e' : RunError} (h : e.Renamed R e') :
    Renames σ R N (MonadExcept.throw e) (MonadExcept.throw e') r :=
  fun _ hR _ _ hm => .fails (h.mono hR) hm

/-- Errors that name no value. -/
theorem fail (h : ∀ ρ, e.rename ρ = e) :
    Renames σ R N (MonadExcept.throw e) (MonadExcept.throw e) r :=
  throw (.same h)

theorem fail_bind (h : ∀ ρ, e.rename ρ = e) :
    Renames σ R N (MonadExcept.throw e >>= f) (MonadExcept.throw e >>= f') s :=
  bind (fail h) fun _ _ _ _ (hfalse : False) => hfalse.elim

theorem get : Renames σ R N MonadState.get MonadState.get
    fun R m m' => m.Renamed σ R N m' :=
  fun _ _ _ _ hm => .now hm hm

/-! ### The operand stack -/

theorem push {limit : Nat} (hv : v.Renamed R v') :
    Renames σ R N (push limit v) (push limit v') fun _ _ _ => True := by
  intro R1 hR m m' hm
  have hsize := hm.frame.stack.size_eq
  have hpushed := hm.withStack (hm.frame.stack.push (hv.mono hR))
  obtain ⟨id, ⟨routine, next, back, stack, slots⟩, callers, pc, world⟩ := m
  obtain ⟨id', ⟨routine', next', back', stack', slots'⟩, callers', pc', world'⟩ := m'
  dsimp only at hsize
  simp only [Exec.push, hsize]
  split
  · exact .fails (.same fun _ => rfl) hm
  · exact .now trivial hpushed

theorem pop : Renames σ R N pop pop Value.Renamed := by
  intro R1 hR m m' hm
  have hback := hm.frame.stack.back?
  have hpopped := hm.withStack hm.frame.stack.pop
  obtain ⟨id, ⟨routine, next, back, stack, slots⟩, callers, pc, world⟩ := m
  obtain ⟨id', ⟨routine', next', back', stack', slots'⟩, callers', pc', world'⟩ := m'
  simp only [Exec.pop]
  dsimp only at hback
  generalize stack.back? = x, stack'.back? = y at hback
  cases hback with
  | none => exact .fails (.same fun _ => rfl) hm
  | some hv => exact .now hv hpopped

theorem popMany {count : Nat} : Renames σ R N (popMany count) (popMany count)
    fun R xs ys => Matched (Value.Renamed R) xs ys := by
  intro R1 hR m m' hm
  have hsize := hm.frame.stack.size_eq
  have htaken := hm.frame.stack.extract (m.frame.stack.size - count) m.frame.stack.size
  have hkept := hm.withStack (hm.frame.stack.shrink (m.frame.stack.size - count))
  obtain ⟨id, ⟨routine, next, back, stack, slots⟩, callers, pc, world⟩ := m
  obtain ⟨id', ⟨routine', next', back', stack', slots'⟩, callers', pc', world'⟩ := m'
  dsimp only at hsize
  simp only [Exec.popMany, hsize]
  split
  · exact .fails (.same fun _ => rfl) hm
  · exact .now htaken hkept

theorem peek {below : Nat} : Renames σ R N (peek below) (peek below) Value.Renamed := by
  refine get.bind fun R1 _ m m' hm => ?_
  have hsize := hm.frame.stack.size_eq
  dsimp only
  by_cases hlt : below < m.frame.stack.size
  · rw [dif_pos hlt, dif_pos (hsize ▸ hlt)]
    refine pure fun R2 hR => Value.Renamed.mono ?_ hR
    exact hm.frame.stack.getElem _ _ (by rw [hsize])
  · rw [dif_neg hlt, dif_neg (hsize ▸ hlt)]
    exact fail fun _ => rfl

theorem popInt : Renames σ R N popInt popInt fun _ => Eq := by
  refine pop.bind fun R1 _ v v' hv => ?_
  have hmismatch := RunError.Renamed.typeMismatch .int hv
  cases hv with
  | int n => exact pure fun _ _ => rfl
  | _ => exact throw hmismatch

theorem popFloat : Renames σ R N popFloat popFloat fun _ => Eq := by
  refine pop.bind fun R1 _ v v' hv => ?_
  have hmismatch := RunError.Renamed.typeMismatch .float hv
  cases hv with
  | float x => exact pure fun _ _ => rfl
  | _ => exact throw hmismatch

theorem popObject : Renames σ R N popObject popObject fun R a b => (a, b) ∈ R := by
  refine pop.bind fun R1 _ v v' hv => ?_
  have hmismatch := RunError.Renamed.typeMismatch .ref hv
  cases hv with
  | object hab => exact pure fun _ hR => hR hab
  | _ => exact throw hmismatch

theorem popString : Renames σ R N popString popString fun R a b => (a, b) ∈ R := by
  refine pop.bind fun R1 _ v v' hv => ?_
  have hmismatch := RunError.Renamed.typeMismatch .ref hv
  cases hv with
  | string hab => exact pure fun _ hR => hR hab
  | _ => exact throw hmismatch

theorem popReference : Renames σ R N popReference popReference fun R a b => (a, b) ∈ R := by
  refine pop.bind fun R1 _ v v' hv => ?_
  have hmismatch := RunError.Renamed.typeMismatch .ref hv
  cases hv with
  | string hab | object hab => exact pure fun _ hR => hR hab
  | _ => exact throw hmismatch

theorem popIndex : Renames σ R N popIndex popIndex fun _ => Eq := by
  refine popInt.bindEq fun R1 _ n => ?_
  split
  · exact fail fun _ => rfl
  · exact pure fun _ _ => rfl

theorem popKind {kind : Kind} :
    Renames σ R N (popKind kind) (popKind kind) Value.Renamed := by
  refine pop.bind fun R1 _ v v' hv => ?_
  rw [hv.hasKind_eq]
  split
  · exact pure fun _ hR => hv.mono hR
  · exact throw (.typeMismatch kind hv)

/-! ### Slots -/

theorem slotIndex : Renames σ R N (slotIndex slot) (slotIndex slot) fun _ => Eq := by
  refine get.bind fun R1 _ m m' hm => ?_
  dsimp only
  rw [hm.frame.slots.size_eq]
  split
  · exact pure fun _ _ => rfl
  · exact fail fun _ => rfl

theorem readSlot : Renames σ R N (readSlot slot) (readSlot slot) Value.Renamed := by
  refine get.bind fun R1 _ m m' hm => ?_
  have hslot := hm.frame.slots slot.toNat
  rw [hm.frame.slots.size_eq]
  generalize m.frame.slots[slot.toNat]? = x, m'.frame.slots[slot.toNat]? = y at hslot
  cases hslot with
  | none => exact fail fun _ => rfl
  | some hv => exact pure fun _ hR => hv.mono hR

theorem writeSlot {index : Nat} (hv : v.Renamed R v') :
    Renames σ R N (writeSlot index v) (writeSlot index v') fun _ _ _ => True :=
  fun _ hR _ _ hm => .now trivial ⟨hm.id, ⟨hm.frame.routine, hm.frame.pc,
    hm.frame.returnAddress, hm.frame.stack, hm.frame.slots.set index (hv.mono hR)⟩, hm.callers,
      hm.pc, hm.heap⟩

theorem goTo {offset : Nat} :
    Renames σ R N (goTo offset) (goTo offset) fun _ _ _ => True :=
  fun _ _ _ _ hm => .now trivial ⟨hm.id, ⟨hm.frame.routine, rfl,
    hm.frame.returnAddress, hm.frame.stack, hm.frame.slots⟩, hm.callers, hm.pc, hm.heap⟩

/-! ### The heap -/

theorem readHeap {f : Heap → Except HeapError α} {f' : Heap → Except HeapError β}
    (h : ∀ R1, R ⊆ R1 → ∀ h h', Heap.Renamed σ R1 N h h' → Heap.Answered R1 (r R1) (f h) (f' h')) :
    Renames σ R N (readHeap f) (readHeap f') r := by
  intro R1 hR m m' hm
  have hanswered := h R1 hR _ _ hm.heap
  have hget : (MonadState.get : Exec Machine) m = .ok m m := rfl
  have hget' : (MonadState.get : Exec Machine) m' = .ok m' m' := rfl
  rw [Exec.readHeap, Exec.readHeap, bind_of_ok hget, bind_of_ok hget']
  generalize f m.world.heap = x, f' m'.world.heap = y at hanswered
  cases hanswered with
  | ok hab => exact .now hab hm
  | error he => exact .fails (.heap he) hm

theorem onHeap {f : Heap → Except HeapError α × Heap} {f' : Heap → Except HeapError β × Heap}
    (h : ∀ R1, R ⊆ R1 → ∀ h h', Heap.Renamed σ R1 N h h' →
      Heap.Changed σ R1 N r (f h) (f' h')) : Renames σ R N (onHeap f) (onHeap f') r := by
  intro R1 hR m m' hm
  exact .onWorld hm (h R1 hR _ _ hm.heap)

theorem allocate {p p' : Payload} (hp : p.Renamed R p') :
    Renames σ R N (allocate p) (allocate p') fun R a b => (a, b) ∈ R := by
  intro R1 hR m m' hm
  refine .onWorld hm ?_
  rw [World.allocate_heap, World.allocate_heap]
  exact hm.heap.insert (hp.mono hR)

theorem concat {c d : HeapId} (hab : (a, b) ∈ R) (hcd : (c, d) ∈ R) :
    Renames σ R N (onWorld .heap (·.concat a c)) (onWorld .heap (·.concat b d))
      fun R a b => (a, b) ∈ R := by
  intro R1 hR m m' hm
  refine .onWorld hm ?_
  rw [World.concat_heap, World.concat_heap]
  exact hm.heap.concat (hR hab) (hR hcd)

theorem sameReference {u u' : Value} (hv : v.Renamed R v') (hu : u.Renamed R u') :
    Renames σ R N (sameReference v u) (sameReference v' u') fun _ => Eq := by
  have hequal : Renames σ R N (Pure.pure (v.equal u)) (Pure.pure (v'.equal u')) fun _ => Eq := by
    intro R1 hR m m' hm
    exact .now ((hv.mono hR).equal_eq hm.heap.one (hu.mono hR)).symm hm
  cases hv with
  | string hab =>
    cases hu with
    | string hcd => exact readHeap fun R1 hR h h' hh => hh.stringsEqual (hR hab) (hR hcd)
    | _ => exact hequal
  | _ => exact hequal

/-! ### Calls -/

theorem depth : Renames σ R N depth depth fun _ => Eq :=
  get.bind fun _ _ _ _ hm => pure fun _ _ => congrArg (· + 1) hm.callers.size_eq.symm

theorem enter {routine : Routine} :
    Renames σ R N (enter routine) (enter routine) fun _ _ _ => True := by
  refine popMany.bind fun R1 _ args args' hargs R2 hR m m' hm => ?_
  exact .now trivial ⟨hm.id,
    .call routine hm.frame.pc (hargs.mono fun _ _ hv => hv.mono hR), hm.callers.push hm.frame,
      hm.pc, hm.heap⟩

theorem leave : Renames σ R N leave leave fun _ => Eq := by
  intro R1 hR m m' hm
  obtain ⟨id, frame, callers, pc, world⟩ := m
  obtain ⟨id', frame', callers', pc', world'⟩ := m'
  have hback := hm.callers.back?
  simp only [Exec.leave]
  dsimp only at hback
  generalize callers.back? = x, callers'.back? = y at hback
  cases hback with
  | none => exact .now rfl hm
  | some hcaller =>
    exact .now rfl ⟨hm.id, ⟨hcaller.routine, hm.frame.returnAddress, hcaller.returnAddress,
      hcaller.stack, hcaller.slots⟩, hm.callers.pop, hm.pc, hm.heap⟩

end Renames

end

end Exec

/-! ## Instructions -/

inductive Flow.Renamed (R : Renaming) : Flow → Flow → Prop
  | next : Renamed R .next .next
  | halt : Renamed R .halt .halt
  | leave {v v'} : v.Renamed R v' → Renamed R (.leave v) (.leave v')

namespace Exec

namespace Renames

variable {env : Setting} {σ : Heap × Heap} {R : Renaming} {N : Nat} {v v' : Value} {kind : Kind}

theorem constant {index : UInt16} :
    Renames σ R N (constant env index) (constant env index) Value.Renamed := by
  unfold Exec.constant
  cases env.program.pool.get index with
  | error e => exact fail fun _ => rfl
  | ok c =>
    cases c with
    | integer n => exact pure fun _ _ => .int n
    | float x => exact pure fun _ _ => .float x
    | string s =>
      exact (allocate (.string s)).bind fun _ _ _ _ hab => pure fun _ hR => .string (hR hab)
    | _ => exact fail fun _ => rfl

theorem arith {op : ArithOp} : Renames σ R N (arith op kind) (arith op kind) Value.Renamed := by
  have hints : Renames σ R N (Exec.arith op .int) (Exec.arith op .int) Value.Renamed := by
    refine popInt.bindEq fun R1 _ b => popInt.bindEq fun R2 _ a => ?_
    cases hop : op.onInts a b with
    | ok n => exact pure fun _ _ => .int n
    | error e =>
      obtain rfl := ArithOp.onInts_error hop
      exact fail fun _ => rfl
  cases kind with
  | int | ref => exact hints
  | float =>
    exact popFloat.bindEq fun _ _ _ => popFloat.bindEq fun _ _ _ => pure fun _ _ => .float _

theorem compare {cmp : Comparison} :
    Renames σ R N (compare cmp kind) (compare cmp kind) fun _ => Eq := by
  cases kind with
  | int => exact popInt.bindEq fun _ _ _ => popInt.bindEq fun _ _ _ => pure fun _ _ => rfl
  | float => exact popFloat.bindEq fun _ _ _ => popFloat.bindEq fun _ _ _ => pure fun _ _ => rfl
  | ref =>
    refine pop.bind fun R1 _ b b' hb => pop.bind fun R2 hR a a' ha => ?_
    exact (sameReference ha (hb.mono hR)).bindEq fun _ _ _ => pure fun _ _ => rfl

theorem triggered {trigger : Trigger} :
    Renames σ R N (triggered trigger) (triggered trigger) fun _ => Eq := by
  cases trigger with
  | always => exact pure fun _ _ => rfl
  | ifTrue | ifFalse => exact popInt.bindEq fun _ _ _ => pure fun _ _ => rfl

theorem call {callee : UInt16} :
    Renames σ R N (call env callee) (call env callee) fun _ _ _ => True := by
  unfold Exec.call
  cases env.program.routines[callee]? with
  | none => exact fail fun _ => rfl
  | some routine =>
    refine depth.bindEq fun R1 _ n => ?_
    dsimp only
    split
    · exact fail_bind fun _ => rfl
    · exact enter

theorem next : Renames σ R N (Pure.pure .next) (Pure.pure .next) Flow.Renamed :=
  pure fun _ _ => .next

theorem pushNext {limit : Nat} (hv : v.Renamed R v') : Renames σ R N
    (do Exec.push limit v; return .next) (do Exec.push limit v'; return .next) Flow.Renamed :=
  (push hv).bind fun _ _ _ _ _ => next

theorem ret (hv : v.Renamed R v') :
    Renames σ R N (ret env v) (ret env v') Flow.Renamed := by
  refine pop.bind fun R1 hR1 top top' htop => ?_
  cases htop with
  | int address =>
    refine get.bind fun R2 hR2 m m' hm => ?_
    have hleave : Renames σ R2 N
        (do if ← Exec.leave then do Exec.push env.limits.stack v; return .next
            else return .leave v)
        (do if ← Exec.leave then do Exec.push env.limits.stack v'; return .next
            else return .leave v')
        Flow.Renamed := by
      refine leave.bindEq fun R3 hR3 called => ?_
      have hv3 := hv.mono (List.Subset.trans hR1 (List.Subset.trans hR2 hR3))
      split
      · exact pushNext hv3
      · exact pure fun _ hR => .leave (hv3.mono hR)
    rw [hm.frame.returnAddress]
    dsimp only
    split
    · exact fail_bind fun _ => rfl
    · exact hleave
  | _ => exact fail fun _ => rfl

/-- Every instruction that deletes nothing. -/
theorem perform (hnatives : env.natives = #[]) {i : Instruction} (hi : i.deletions = 0) :
    Renames σ R N (perform env i) (perform env i) Flow.Renamed := by
  cases i with
  | noOp => exact next
  | stop => exact pure fun _ _ => .halt
  | pushByte n => exact pushNext (.int _)
  | pushShort n => exact pushNext (.int _)
  | pushVoid => exact pushNext .void
  | pushConst => exact constant.bind fun _ _ _ _ hv => pushNext hv
  | pop => exact pop.bind fun _ _ _ _ _ => next
  | dup => exact peek.bind fun _ _ _ _ hv => pushNext hv
  | dup2 =>
    refine peek.bind fun R1 _ below below' hbelow => peek.bind fun R2 hR2 top top' htop => ?_
    exact (push (hbelow.mono hR2)).bind fun R3 hR3 _ _ _ => pushNext (htop.mono hR3)
  | load => exact readSlot.bind fun _ _ _ _ hv => pushNext hv
  | store kind slot =>
    refine slotIndex.bindEq fun R1 _ index => popKind.bind fun R2 _ v v' hv => ?_
    exact (writeSlot hv).bind fun _ _ _ _ _ => next
  | getField =>
    refine popObject.bind fun R1 _ a b hab => ?_
    refine (readHeap fun R2 hR h h' hh => hh.field (hR hab) _).bind fun R3 _ v v' hv => ?_
    exact pushNext hv
  | setField =>
    refine popKind.bind fun R1 _ v v' hv => popObject.bind fun R2 hR2 a b hab => ?_
    refine (onHeap fun R3 hR3 h h' hh => hh.setField (hR3 hab) _ ?_).bind fun _ _ _ _ _ => next
    exact hv.mono (List.Subset.trans hR2 hR3)
  | arith => exact arith.bind fun _ _ _ _ hv => pushNext hv
  | neg kind =>
    have hint : Renames σ R N (Exec.perform env (.neg .int)) (Exec.perform env (.neg .int))
        Flow.Renamed := popInt.bindEq fun _ _ _ => pushNext (.int _)
    cases kind with
    | int | ref => exact hint
    | float => exact popFloat.bindEq fun _ _ _ => pushNext (.float _)
  | concat =>
    refine popString.bind fun R1 _ c d hcd => popString.bind fun R2 hR2 a b hab => ?_
    exact (concat hab (hR2 hcd)).bind fun _ _ _ _ hid => pushNext (.string hid)
  | compare => exact compare.bindEq fun _ _ _ => pushNext (.int _)
  | not => exact popInt.bindEq fun _ _ _ => pushNext (.int _)
  | intToFloat => exact popInt.bindEq fun _ _ _ => pushNext (.float _)
  | floatToInt => exact popFloat.bindEq fun _ _ _ => pushNext (.int _)
  | jump trigger target =>
    refine triggered.bindEq fun R1 _ taken => ?_
    dsimp only
    split
    · exact goTo.bind fun _ _ _ _ _ => next
    · exact next
  | call => exact call.bind fun _ _ _ _ _ => next
  | callNative index =>
    have hnone : env.natives[index.toNat]? = none := by rw [hnatives]; rfl
    have hcall : callNative env index = MonadExcept.throw (.unresolvedNative index) := by
      rw [callNative, hnone]
    simp only [Exec.perform, hcall]
    exact fail_bind fun _ => rfl
  | ret => exact pop.bind fun _ _ _ _ hv => ret hv
  | retVoid => exact ret .void
  | newArray kind =>
    refine popInt.bindEq fun R1 _ n => ?_
    dsimp only
    split
    · exact fail_bind fun _ => rfl
    · refine (allocate (.array (.replicate (.initial kind) _))).bind fun R2 _ a b hab => ?_
      exact pushNext (.object hab)
  | getElement =>
    refine popIndex.bindEq fun R1 _ n => popObject.bind fun R2 _ a b hab => ?_
    refine (readHeap fun R3 hR h h' hh => hh.element (hR hab) _).bind fun R3 _ v v' hv => ?_
    exact pushNext hv
  | setElement kind =>
    refine popKind.bind fun R1 _ v v' hv => popIndex.bindEq fun R2 hR2 n =>
      popObject.bind fun R3 hR3 a b hab => ?_
    refine (onHeap fun R4 hR4 h h' hh => hh.setElement (hR4 hab) _ ?_).bind fun _ _ _ _ _ => next
    exact hv.mono (List.Subset.trans hR2 (List.Subset.trans hR3 hR4))
  | arrayLength =>
    refine popObject.bind fun R1 _ a b hab => ?_
    exact (readHeap fun R2 hR h h' hh => hh.arraySize (hR hab)).bindEq fun _ _ _ =>
      pushNext (.int _)
  | newObject layout =>
    simp only [Exec.perform]
    cases env.program.shapes[layout]? with
    | none => exact fail_bind fun _ => rfl
    | some shape =>
      have hfields : Matched (Value.Renamed R) shape.fields shape.fields := by
        refine .refl fun v hv => ?_
        obtain ⟨kind, -, rfl⟩ := List.mem_map.mp (List.mem_toArray.mp hv)
        exact .initial kind
      exact (allocate (.object layout hfields)).bind fun _ _ _ _ hab => pushNext (.object hab)
  | delete => cases hi

end Renames

section

variable {env : Setting} {σ : Heap × Heap} {R : Renaming} {N : Nat} {m m' : Machine}

theorem Paired.delete (hm : m.Renamed σ R N m') (hfew : N + 1 < 2 ^ 32) :
    Paired σ R (N + 1) Flow.Renamed (perform env .delete m) (perform env .delete m') := by
  have hpop := Renames.popReference R (List.Subset.refl R) m m' hm
  refine hpop.bind (Nat.le_succ N) hfew fun R1 hR1 a b hab m m' hm => ?_
  have hrelease : Paired σ R1 (N + 1) Payload.Renamed (Exec.onWorld .heap (·.release a) m)
      (Exec.onWorld .heap (·.release b) m') := by
    refine .onWorld hm ?_
    rw [World.release_heap, World.release_heap]
    exact hm.heap.delete hab hfew
  refine hrelease.bind le_rfl hfew fun R2 _ _ _ _ m m' hm => ?_
  exact .now .next hm

theorem Paired.perform (hnatives : env.natives = #[]) (hm : m.Renamed σ R N m') (i : Instruction)
    (hfew : N + i.deletions < 2 ^ 32) :
    Paired σ R (N + i.deletions) Flow.Renamed (perform env i m) (perform env i m') := by
  by_cases hi : i = .delete
  · subst hi
    exact .delete hm hfew
  · have hzero : i.deletions = 0 := by
      cases i with
      | delete => exact absurd rfl hi
      | _ => rfl
    rw [hzero]
    exact Renames.perform hnatives hzero R (List.Subset.refl R) m m' hm

end

end Exec

/-! ## Runs -/

variable {env : Setting} {m : Machine} {n : Nat}

theorem Exec.step_garbled {e : DecodeError} (hin : m.frame.pc < m.frame.routine.body.bytes.size)
    (hdecode : m.ahead = .error e) : Exec.step env m = .error (.decode e) m := by
  have hsteps := Exec.step_steps env m
  generalize Exec.step env m = result at hsteps
  cases hsteps with
  | done hpast | past hpast => exact absurd hin (not_lt.mpr hpast)
  | garbled _ hdecode' => cases hdecode.symm.trans hdecode'; rfl
  | performs _ hdecode' => cases hdecode.symm.trans hdecode'

theorem Machine.deletions_of_paused {m1 : Machine} (h : m.run env n = (.paused, m1)) :
    m.deletions env (n + 1) = m.deletions env n + m1.deletesNext := by
  rw [deletions, h]

theorem Machine.deletions_of_ended (h : (m.run env n).1 ≠ .paused) :
    m.deletions env (n + 1) = m.deletions env n := by
  rw [deletions]
  split
  next hpaused => exact absurd (congrArg Prod.fst hpaused) h
  · rfl

namespace Machine.Renamed

variable {env : Setting} {σ : Heap × Heap} {R : Renaming} {N : Nat} {m m' : Machine}

/-- What a step keeps. -/
theorem step (hm : m.Renamed σ R N m') (hnatives : env.natives = #[])
    (hfew : N + m.deletesNext < 2 ^ 32) :
    Exec.Paired σ R (N + m.deletesNext) Flow.Renamed (Exec.step env m) (Exec.step env m') := by
  have hroutine := hm.frame.routine
  have hpc := hm.frame.pc
  have hlater := hm.mono (Nat.le_add_right N m.deletesNext) hfew
  by_cases hin : m.frame.pc < m.frame.routine.body.bytes.size
  · have hin' : m'.frame.pc < m'.frame.routine.body.bytes.size := by rwa [hroutine, hpc]
    have hahead : m'.ahead = m.ahead := by rw [ahead, hroutine, hpc]
    cases hdecode : m.ahead with
    | ok read =>
      obtain ⟨i, next⟩ := read
      obtain ⟨w, hw, hstep⟩ := Exec.step_performs env hin hdecode
      obtain ⟨w', hw', hstep'⟩ := Exec.step_performs env hin' (hahead.trans hdecode)
      have hdeletes : m.deletesNext = i.deletions := by rw [deletesNext, hdecode]
      rw [hdeletes] at hfew ⊢
      rw [hstep, hstep']
      have hfetched : (m.fetched next w).Renamed σ R N (m'.fetched next w') := by
        refine ⟨hm.id, ⟨hroutine, rfl, hm.frame.returnAddress, hm.frame.stack, hm.frame.slots⟩,
          hm.callers, hpc, ?_⟩
        rw [fetched, fetched, hw.heap, hw'.heap]
        exact hm.heap
      exact .perform hnatives hfetched i hfew
    | error e =>
      rw [Exec.step_garbled hin hdecode, Exec.step_garbled hin' (hahead.trans hdecode)]
      exact .fails (.same fun _ => rfl) hlater
  · have hpast := not_lt.mp hin
    have hpast' : m'.frame.routine.body.bytes.size ≤ m'.frame.pc := by rwa [hroutine, hpc]
    have hempty : m'.callers.isEmpty = m.callers.isEmpty := by
      rw [Array.isEmpty, Array.isEmpty, hm.callers.size_eq]
    rw [Exec.step_past hpast, Exec.step_past hpast', hempty, hroutine]
    split
    · exact .now .halt hlater
    · exact .fails (.same fun _ => rfl) hlater

end Machine.Renamed

inductive Ending.Renamed (R : Renaming) : Ending → Ending → Prop
  | paused : Renamed R .paused .paused
  | halted : Renamed R .halted .halted
  | returned {v v'} : v.Renamed R v' → Renamed R (.returned v) (.returned v')
  | failed {e e'} : e.Renamed R e' → Renamed R (.failed e) (.failed e')

theorem Ending.Renamed.paused_iff {R : Renaming} {ending ending' : Ending}
    (h : ending.Renamed R ending') : ending = .paused ↔ ending' = .paused := by
  cases h with
  | paused => exact Iff.rfl
  | halted | returned | failed => exact ⟨nofun, nofun⟩

/-- How two runs end, as in `Exec.Paired`. -/
inductive Ending.Paired (σ : Heap × Heap) (R : Renaming) (N : Nat) :
    Ending × Machine → Ending × Machine → Prop
  | both {R' ending ending' m m'} : R ⊆ R' → ending.Renamed R' ending' →
    m.Renamed σ R' N m' → Paired σ R N (ending, m) (ending', m')
  | fullLeft {live m result} : Paired σ R N (.failed (.heap (.exhausted live)), m) result
  | fullRight {live m' result} : Paired σ R N result (.failed (.heap (.exhausted live)), m')

namespace Machine.Renamed

variable {env : Setting} {σ : Heap × Heap} {R R' : Renaming} {N : Nat} {m m' : Machine}

theorem endOf {result result' : EStateM.Result RunError Machine Flow}
    (h : Exec.Paired σ R' N Flow.Renamed result result') (hR : R ⊆ R') :
    Ending.Paired σ R N (endOf result) (endOf result') := by
  cases h with
  | ok hR' hflow hm =>
    cases hflow with
    | next => exact .both (List.Subset.trans hR hR') .paused hm
    | halt => exact .both (List.Subset.trans hR hR') .halted hm
    | leave hv => exact .both (List.Subset.trans hR hR') (.returned hv) hm
  | error hR' he hm => exact .both (List.Subset.trans hR hR') (.failed he) hm
  | fullLeft => exact .fullLeft
  | fullRight => exact .fullRight

/-- What a run keeps. -/
theorem run (hm : m.Renamed σ R N m') (hnatives : env.natives = #[]) (n : Nat)
    (hfew : N + m.deletions env n < 2 ^ 32) :
    Ending.Paired σ R (N + m.deletions env n) (m.run env n) (m'.run env n) := by
  induction n with
  | zero => exact .both (List.Subset.refl R) .paused hm
  | succ n ih =>
    have hstable : (m'.run env n).1 ≠ .paused → m'.run env (n + 1) = m'.run env n :=
      fun hends => run_stable hends (Nat.le_succ n)
    rcases run_cases env n m with ⟨m1, hm1, -⟩ | ⟨hends, hlast⟩
    · rw [deletions_of_paused hm1] at hfew ⊢
      have hpaired := ih (by omega)
      rw [hm1] at hpaired
      rw [run_succ hm1]
      generalize hresult : m'.run env n = result' at hpaired hstable
      cases hpaired with
      | both hR hending hm' =>
        cases hending with
        | paused =>
          rw [run_succ hresult, ← Nat.add_assoc]
          exact endOf (hm'.step hnatives (by rwa [Nat.add_assoc])) hR
      | fullRight =>
        rw [hstable nofun]
        exact .fullRight
    · rw [deletions_of_ended hends] at hfew ⊢
      have hpaired := ih hfew
      rw [hlast]
      generalize m.run env n = result at hpaired hends
      generalize m'.run env n = result' at hpaired hstable
      cases hpaired with
      | both hR hending hm' =>
        have hends' := fun hpaused => hends (hending.paused_iff.mpr hpaused)
        rw [hstable hends']
        exact .both hR hending hm'
      | fullLeft => exact .fullLeft
      | fullRight =>
        rw [hstable nofun]
        exact .fullRight

end Machine.Renamed

end Bytescript
