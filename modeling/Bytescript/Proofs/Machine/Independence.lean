import Bytescript.Engine
import Bytescript.Proofs.Machine.Renaming

/-!
# Contexts do not interfere

The contexts of an engine share a heap, and the references that one of them gets depend on what the
others have made and deleted before. Nothing else does: two contexts for calls that are given no
references come to the same ends in either order, up to one renaming of all references
(`Engine.execute_either_order`).

Each context is run twice, once in each order, from heaps with different pasts, and gives rise to a
renaming of its own (`Context.execute_renamed`). The two renamings are about different references,
because none is handed out twice, and make up one.
-/

namespace Bytescript

/-! ## One context, two pasts -/

def Fault.rename (ρ : Equiv.Perm HeapId) (f : Fault) : Fault := { f with cause := f.cause.rename ρ }

namespace Context

/-- The context with other references, in its values as in its error. -/
def rename (ρ : Equiv.Perm HeapId) (c : Context) : Context :=
  { c with
    frames := c.frames.map (Frame.rename ρ)
    result := c.result.map (Value.rename ρ)
    fault := c.fault.map (Fault.rename ρ) }

variable {ρ : Equiv.Perm HeapId}

theorem rename_result {c : Context} {v : Value} (h : v.heapId? = none) :
    (c.rename ρ).result = some v ↔ c.result = some v := by
  rw [rename, Option.map_eq_some_iff]
  constructor
  · rintro ⟨u, hu, hrename⟩
    rw [hu, (Value.rename_eq_iff ρ h).mp hrename]
  · intro hv
    exact ⟨v, hv, (Value.rename_eq_iff ρ h).mpr rfl⟩

/-- The context has failed because there was no room for another entry of the heap. -/
def RanOut (c : Context) : Prop := ∃ live, c.fault.map Fault.cause = some (.heap (.exhausted live))

theorem settle_heap (isMain : Bool) (ending : Ending) (m : Machine) :
    (settle isMain ending m).2.heap = m.world.heap := by
  cases ending with
  | paused => rfl
  | halted | returned | failed => exact (World.note_alike _ _ _).heap

theorem settle_id (isMain : Bool) (ending : Ending) (m : Machine) :
    (settle isMain ending m).1.id = m.id := by
  cases ending <;> rfl

theorem settle_ranOut (isMain : Bool) (live : Nat) (m : Machine) :
    (settle isMain (.failed (.heap (.exhausted live))) m).1.RanOut :=
  ⟨live, rfl⟩

theorem settle_renamed (isMain : Bool) {σ : Heap × Heap} {R : Renaming} {N : Nat}
    {ending ending' : Ending} {m m' : Machine} (hending : ending.Renamed R ending')
    (hm : m.Renamed σ R N m') (hρ : R.FollowedBy ρ) :
    (settle isMain ending' m').1 = (settle isMain ending m).1.rename ρ := by
  have hframe : ∀ f f' : Frame, f.Renamed R f' → f' = f.rename ρ := fun _ _ hf => hf.eq_rename hρ
  obtain ⟨id, frame, callers, pc, world⟩ := m
  obtain ⟨id', frame', callers', pc', world'⟩ := m'
  have hid : id' = id := hm.id
  have hpc : pc' = pc := hm.pc
  have hroutine : frame'.routine = frame.routine := hm.frame.routine
  have hcallers : callers' = callers.map (Frame.rename ρ) := hm.callers.map_eq hframe
  have hframes : callers'.push frame' = (callers.push frame).map (Frame.rename ρ) :=
    (hm.callers.push hm.frame).map_eq hframe
  subst hid hpc
  cases hending with
  | paused | halted =>
    rw [settle, settle, rename, hframes]
    rfl
  | returned hv =>
    rw [settle, settle, rename, hv.eq_rename hρ, hcallers]
    rfl
  | failed he =>
    simp only [settle, rename]
    rw [hframes, he.eq_rename hρ, hroutine]
    rfl

end Context

theorem Machine.step_id (env : Setting) (m : Machine) :
    (Exec.left (Exec.step env m)).id = m.id := by
  have hsteps := Exec.step_steps env m
  generalize Exec.step env m = result at hsteps
  cases hsteps with
  | done | past | garbled => rfl
  | performs _ _ _ heffect => cases heffect <;> rfl

theorem Machine.run_id (env : Setting) (n : Nat) (m : Machine) : (m.run env n).2.id = m.id := by
  induction n generalizing m with
  | zero => rfl
  | succ n ih =>
    have hstep := m.step_id env
    rw [run]
    split
    next hnext =>
      rw [hnext] at hstep
      exact (ih _).trans hstep
    all_goals
      next hlast =>
        rw [hlast] at hstep
        exact hstep

namespace Context

variable {env : Setting} {r : Routine} {args : List Value} {id fuel : Nat} {w w' : World}

theorem forCall_execute (env : Setting) (r : Routine) (args : List Value) (id fuel : Nat)
    (w : World) :
    (forCall r args id).execute env fuel w =
      settle false (((forCall r args id).start w).run env fuel).1
      (((forCall r args id).start w).run env fuel).2 := rfl

theorem forCall_renamed (r : Routine) (id : Nat) (hargs : ∀ v ∈ args, v.heapId? = none)
    (hs : w.heap.Sound) (hs' : w'.heap.Sound) :
    ((forCall r args id).start w).Renamed (w.heap, w'.heap) [] 0
      ((forCall r args id).start w') := by
  have hvalues : Matched (Value.Renamed []) args.toArray args.toArray :=
    .refl fun v hv => .of_scalar (hargs v (List.mem_toArray.mp hv))
  refine ⟨rfl, .call r rfl hvalues, .empty, rfl, ?_⟩
  rw [start, start, (World.note_alike _ _ _).heap, (World.note_alike _ _ _).heap]
  exact .refl hs hs'

/-- A call that is given no references does not depend on the past of the heap. -/
theorem execute_renamed (hnatives : env.natives = #[]) (hargs : ∀ v ∈ args, v.heapId? = none)
    (hs : w.heap.Sound)
    (hs' : w'.heap.Sound) (hdeletions : ((forCall r args id).start w).deletions env fuel < 2 ^ 32)
    (hroom : ¬ ((forCall r args id).execute env fuel w).1.RanOut)
    (hroom' : ¬ ((forCall r args id).execute env fuel w').1.RanOut) :
    ∃ R, (∀ ρ, R.FollowedBy ρ → ((forCall r args id).execute env fuel w').1 =
        ((forCall r args id).execute env fuel w).1.rename ρ) ∧
      Heap.Renamed (w.heap, w'.heap) R (((forCall r args id).start w).deletions env fuel)
        ((forCall r args id).execute env fuel w).2.heap
          ((forCall r args id).execute env fuel w').2.heap := by
  have hpaired := (forCall_renamed r id hargs hs hs').run hnatives fuel
    (by rwa [Nat.zero_add])
  rw [Nat.zero_add] at hpaired
  rw [forCall_execute] at hroom hroom'
  rw [forCall_execute, forCall_execute, settle_heap, settle_heap]
  generalize ((forCall r args id).start w).run env fuel = result at hpaired hroom
  generalize ((forCall r args id).start w').run env fuel = result' at hpaired hroom'
  cases hpaired with
  | both _ hending hm => exact ⟨_, fun ρ hρ => settle_renamed false hending hm hρ, hm.heap⟩
  | fullLeft => exact absurd (settle_ranOut ..) hroom
  | fullRight => exact absurd (settle_ranOut ..) hroom'

/-- Two calls that are given no references, in one order and in the other. -/
theorem execute_swap {s : Routine} {xs ys : List Value} {a b n m : Nat}
    (hnatives : env.natives = #[])
    (hxs : ∀ v ∈ xs, v.heapId? = none) (hys : ∀ v ∈ ys, v.heapId? = none) (hs : w.heap.Sound)
    {wa wb : World}
    (hwa : wa = ((forCall r xs a).execute env n w).2)
    (hwb : wb = ((forCall s ys b).execute env m w).2)
    (hdeletions : ((forCall r xs a).start w).deletions env n +
      ((forCall s ys b).start wa).deletions env m < 2 ^ 32)
    (hroomA : ¬ ((forCall r xs a).execute env n w).1.RanOut)
    (hroomB : ¬ ((forCall s ys b).execute env m wa).1.RanOut)
    (hroomB' : ¬ ((forCall s ys b).execute env m w).1.RanOut)
    (hroomA' : ¬ ((forCall r xs a).execute env n wb).1.RanOut) :
    ∃ ρ, ((forCall r xs a).execute env n wb).1 = ((forCall r xs a).execute env n w).1.rename ρ ∧
      ((forCall s ys b).execute env m w).1 = ((forCall s ys b).execute env m wa).1.rename ρ ∧
      ∀ id, w.heap.find? id = none → w.heap.find? (ρ id) = none →
        ((forCall r xs a).execute env n wb).2.heap.find? (ρ id) =
          (((forCall s ys b).execute env m wa).2.heap.find? id).map (Payload.rename ρ) := by
  -- the heaps in the middle are sound: each call is compared with itself first
  obtain ⟨_, -, hself⟩ := execute_renamed hnatives hxs hs hs (by omega) hroomA hroomA
  rw [← hwa] at hself
  obtain ⟨S, hcontextB, hS⟩ := execute_renamed hnatives hys hself.left.sound hs
    (by omega) hroomB hroomB'
  rw [← hwb] at hS
  obtain ⟨R, hcontextA, hR⟩ := execute_renamed hnatives hxs hs hS.right.sound
    (by omega) hroomA hroomA'
  rw [← hwa] at hR
  obtain ⟨ρ, hρR, hρS, hentries⟩ := hR.join hS hdeletions
  exact ⟨ρ, hcontextA ρ hρR, hcontextB ρ hρS, hentries⟩

theorem forCall_execute_id : ((forCall r args id).execute env fuel w).1.id = id := by
  rw [forCall_execute, settle_id, Machine.run_id]
  rfl

end Context

/-! ## Two contexts, two orders -/

namespace Engine

/-- The engine has a context as `spawnCall` has made it at some time, with some arguments. -/
def Awaits (e : Engine) (id : Nat) (args : List Value) : Prop :=
  ∃ (before after : Engine) (name : String), before.spawnCall name args = .ok (id, after) ∧
    after.setting = e.setting ∧ after.context? id = e.context? id

/-- How many deletions are executed when a context is. -/
def deletions (e : Engine) (fuel id : Nat) : Nat :=
  match e.context? id with
  | none => 0
  | some c =>
    match c.status with
    | .ready => (c.start e.world).deletions e.setting fuel
    | _ => 0

/-- A context of the engine has failed because the heap was full. -/
def RanOut (e : Engine) (id : Nat) : Prop := ∃ c, e.context? id = some c ∧ c.RanOut

/-- Some contexts of two engines are the same up to a renaming of references, and so is what has
been made since the heaps were like `start`. -/
structure SameUpTo (ρ : Equiv.Perm HeapId) (start : Heap) (ids : List Nat) (e e' : Engine) :
    Prop where
  contexts : ∀ id ∈ ids, ∃ c, e.context? id = some c ∧ e'.context? id = some (c.rename ρ)
  /-- Results that are no references are equal. -/
  scalars : ∀ id ∈ ids, ∀ v : Value, v.heapId? = none →
    ((e.context? id).bind Context.result = some v ↔ (e'.context? id).bind Context.result = some v)
  entries : ∀ id, start.find? id = none → start.find? (ρ id) = none →
    e'.world.heap.find? (ρ id) = (e.world.heap.find? id).map (Payload.rename ρ)

variable {e e' : Engine} {id : Nat} {args : List Value} {name : String} {r : Routine}

theorem spawnCall_register (h : e.spawnCall name args = .ok (id, e')) :
    ∃ r, e.register (.forCall r args) = (id, e') := by
  unfold spawnCall at h
  cases hfunction : e.function name with
  | error cause =>
    rw [hfunction] at h
    cases h
  | ok r =>
    simp only [hfunction, bind, Except.bind] at h
    split at h
    · exact ⟨r, Except.ok.inj h⟩
    · cases h

theorem Awaits.context (h : e.Awaits id args) : ∃ r, e.context? id = some (.forCall r args id) := by
  obtain ⟨before, after, name, hspawn, -, hcontext⟩ := h
  obtain ⟨r, hregister⟩ := spawnCall_register hspawn
  cases hregister
  exact ⟨r, hcontext.symm.trans Std.TreeMap.getElem?_insert_self⟩

/-- What becomes of an engine when one of its contexts has been executed. -/
structure Executed (e : Engine) (id : Nat) (c : Context) (w : World) (e' : Engine) : Prop where
  setting : e'.setting = e.setting
  world : e'.world = w
  context : e'.context? id = some c
  others : ∀ other, other ≠ id → e'.context? other = e.context? other

theorem execute_call (h : e.context? id = some (.forCall r args id)) (fuel : Nat) :
    let executed := (Context.forCall r args id).execute e.setting fuel e.world
    ∃ e', e.execute fuel id = .ok (executed.1.status, e') ∧
    e.Executed id executed.1 executed.2 e' := by
  intro executed
  have hid : executed.1.id = id := Context.forCall_execute_id
  have htake : e.take id = .ok (.forCall r args id,
    { e with contexts := e.contexts.erase id }) := by
    rw [take, show e.contexts[id]? = some _ from h]
  refine ⟨⟨e.setting, executed.2, (e.contexts.erase id).insert executed.1.id executed.1, e.nextId⟩,
    by rw [execute, htake]; rfl, rfl, rfl, ?_, fun other hother => ?_⟩
  · rw [context?, hid]
    exact Std.TreeMap.getElem?_insert_self
  · rw [context?, hid]
    simp [Std.TreeMap.getElem?_insert, Std.TreeMap.getElem?_erase, Ne.symm hother, context?]

theorem deletions_call (h : e.context? id = some (.forCall r args id)) (fuel : Nat) :
    e.deletions fuel id = ((Context.forCall r args id).start e.world).deletions e.setting fuel := by
  rw [deletions, h]
  rfl

/-- Contexts for calls that are given no references come to the same ends in either order, and leave
the same in the heap, up to a renaming of references. The heap must not be full at any time, and
generations of references must not come around. -/
theorem execute_either_order {first both : Engine} {a b n m : Nat} {xs ys : List Value}
    {sa sb : Status}
    (hnatives : e.setting.natives = #[]) (hheap : e.world.heap.Sound) (ha : e.Awaits a xs)
    (hb : e.Awaits b ys)
    (hne : a ≠ b) (hxs : ∀ v ∈ xs, v.heapId? = none) (hys : ∀ v ∈ ys, v.heapId? = none)
    (hfirst : e.execute n a = .ok (sa, first)) (hboth : first.execute m b = .ok (sb, both))
    (hdeletions : e.deletions n a + first.deletions m b < 2 ^ 32) (hroomA : ¬ both.RanOut a)
    (hroomB : ¬ both.RanOut b) :
    ∃ sa' sb' first' both', e.execute m b = .ok (sb', first') ∧
    first'.execute n a = .ok (sa', both') ∧
      (¬ both'.RanOut a → ¬ both'.RanOut b →
        sa' = sa ∧ sb' = sb ∧ ∃ ρ, both.SameUpTo ρ e.world.heap [a, b] both') := by
  obtain ⟨r, hcallA⟩ := ha.context
  obtain ⟨s, hcallB⟩ := hb.context
  obtain ⟨_, hfirst1, hA⟩ := execute_call hcallA n
  cases hfirst.symm.trans hfirst1
  have hcallB1 := (hA.others b hne.symm).trans hcallB
  obtain ⟨_, hboth1, hB⟩ := execute_call hcallB1 m
  cases hboth.symm.trans hboth1
  obtain ⟨first', hfirst', hB'⟩ := execute_call hcallB m
  have hcallA' := (hB'.others a hne).trans hcallA
  obtain ⟨both', hboth', hA'⟩ := execute_call hcallA' n
  refine ⟨_, _, first', both', hfirst', hboth', fun hroomA' hroomB' => ?_⟩
  rw [deletions_call hcallA, deletions_call hcallB1] at hdeletions
  rw [hA.setting] at hB hdeletions ⊢
  rw [hB'.setting] at hA' ⊢
  -- what has become of the one that was executed first
  have hcontextA := (hB.others a hne).trans hA.context
  have hcontextB' := (hA'.others b hne.symm).trans hB'.context
  obtain ⟨ρ, hsameA, hsameB, hentries⟩ := Context.execute_swap hnatives hxs hys hheap hA.world
    hB'.world hdeletions
    (fun hout => hroomA ⟨_, hcontextA, hout⟩) (fun hout => hroomB ⟨_, hB.context, hout⟩)
    (fun hout => hroomB' ⟨_, hcontextB', hout⟩) (fun hout => hroomA' ⟨_, hA'.context, hout⟩)
  have hcontexts : ∀ id ∈ [a, b], ∃ c, both.context? id = some c ∧
  both'.context? id = some (c.rename ρ) := by
    intro id hid
    rcases List.mem_pair.mp hid with rfl | rfl
    · exact ⟨_, hcontextA, hA'.context.trans (congrArg some hsameA)⟩
    · exact ⟨_, hB.context, hcontextB'.trans (congrArg some hsameB)⟩
  refine ⟨by rw [hsameA]; rfl, by rw [hsameB]; rfl, ρ, hcontexts, fun id hid v hv => ?_, ?_⟩
  · obtain ⟨c, hc, hc'⟩ := hcontexts id hid
    rw [hc, hc']
    exact (Context.rename_result hv).symm
  · rw [hA'.world, hB.world]
    exact hentries

theorem spawnCall_awaits (h : e.spawnCall name args = .ok (id, e')) : e'.Awaits id args :=
  ⟨e, e', name, h, rfl, rfl⟩

/-- Making a context leaves everything else as it is. -/
theorem spawnCall_keeps (h : e.spawnCall name args = .ok (id, e')) : e'.setting = e.setting ∧
    e'.world.heap = e.world.heap ∧ ∀ other, other ≠ id → e'.context? other = e.context? other := by
  obtain ⟨r, hregister⟩ := spawnCall_register h
  cases hregister
  refine ⟨rfl, (World.note_alike _ _ _).heap, fun other hother => ?_⟩
  simp [context?, Std.TreeMap.getElem?_insert, Ne.symm hother]

/-- A context waits on when another one is made. -/
theorem Awaits.spawnCall (ha : e.Awaits id args) {other : List Value} {b : Nat} (hne : id ≠ b)
    (h : e.spawnCall name other = .ok (b, e')) : e'.Awaits id args := by
  obtain ⟨before, after, first, hspawn, hsetting, hcontext⟩ := ha
  obtain ⟨hsetting', -, hothers⟩ := spawnCall_keeps h
  exact ⟨before, after, first, hspawn, hsetting.trans hsetting'.symm,
    hcontext.trans (hothers id hne).symm⟩

end Engine

open Build in
/-- A function that hands out a new string, and one that reads from an array that it has deleted. -/
def reuse : List Stmt :=
  [function "greeting" [] "string" [ret (some (string "hello"))],
    function "stale" [("int", "n")] "int" [
      varTyped (arrayOf "int") "cells" (some (newArray "int" (ident "n"))), delete (ident "cells"),
      ret (some (index (ident "cells") (int 0)))]]

namespace Engine

variable {e : Engine} {id : Nat} {result : Option Value} {cause : Option RunError}

/-- What the contexts of an engine have come to. -/
def ends (e : Engine) (id : Nat) : Option (Option Value × Option RunError) :=
  (e.context? id).map fun c => (c.result, c.fault.map Fault.cause)

theorem not_ranOut_of_ends (h : e.ends id = some (result, cause))
    (hcause : ∀ live, cause ≠ some (.heap (.exhausted live))) : ¬ e.RanOut id := by
  rintro ⟨c, hc, live, hout⟩
  rw [ends, hc] at h
  obtain ⟨-, rfl⟩ := Prod.mk.inj (Option.some.inj h)
  exact hcause live hout

theorem SameUpTo.ends {e' : Engine} {ρ : Equiv.Perm HeapId} {start : Heap} {ids : List Nat}
    (h : e.SameUpTo ρ start ids e') (hid : id ∈ ids) (hends : e.ends id = some (result, cause)) :
    e'.ends id = some (result.map (Value.rename ρ), cause.map (RunError.rename ρ)) := by
  obtain ⟨c, hc, hc'⟩ := h.contexts id hid
  rw [Engine.ends, hc] at hends
  cases hends
  rw [Engine.ends, hc', Option.map_some, Context.rename, Option.map_map, Option.map_map]
  rfl

/-- If the array is made first, the string takes its place. -/
theorem execute_either_order_reuse : ∃ image, (Script.compile ⟨reuse⟩).1 = .ok image ∧
    ∃ e1 e first both first' both' ρ, (load image #[] {} {}).spawnCall "greeting" [] = .ok (0, e1) ∧
      e1.spawnCall "stale" [.int 3] = .ok (1, e) ∧
      e.execute 20 0 = .ok (.halted, first) ∧ first.execute 20 1 = .ok (.failed, both) ∧
      e.execute 20 1 = .ok (.failed, first') ∧ first'.execute 20 0 = .ok (.halted, both') ∧
      both.SameUpTo ρ e.world.heap [0, 1] both' ∧ ρ ⟨0, 0⟩ = ⟨0, 1⟩ ∧ ρ ⟨1, 0⟩ = ⟨0, 0⟩ := by
  have hok : ((Script.compile ⟨reuse⟩).1).toOption.any (fun image =>
      ((load image #[] {} {}).spawnCall "greeting" []).toOption.any fun made =>
      (made.2.spawnCall "stale" [.int 3]).toOption.any fun ready =>
      (ready.2.execute 20 0).toOption.any fun first =>
      (first.2.execute 20 1).toOption.any fun both =>
      (ready.2.execute 20 1).toOption.any fun first' =>
      (first'.2.execute 20 0).toOption.any fun both' =>
        (made.1, ready.1, first.1, both.1) = (0, 1, .halted, .failed) ∧
        (ready.2.deletions 20 0, first.2.deletions 20 1) = (0, 1) ∧
        both.2.ends 0 = some (some (.stringRef ⟨0, 0⟩), none) ∧
        both.2.ends 1 = some (none, some (.heap (.freed ⟨1, 0⟩))) ∧
        both'.2.ends 0 = some (some (.stringRef ⟨0, 1⟩), none) ∧
        both'.2.ends 1 = some (none, some (.heap (.freed ⟨0, 0⟩)))) = true := by decide +kernel
  obtain ⟨image, himage, hok⟩ := exists_of_any hok
  obtain ⟨⟨a, e1⟩, hgreeting, hok⟩ := exists_of_any hok
  obtain ⟨⟨b, e⟩, hstale, hok⟩ := exists_of_any hok
  obtain ⟨⟨sa, first⟩, hfirst, hok⟩ := exists_of_any hok
  obtain ⟨⟨sb, both⟩, hboth, hok⟩ := exists_of_any hok
  obtain ⟨⟨_, first'⟩, hfirst', hok⟩ := exists_of_any hok
  obtain ⟨⟨_, both'⟩, hboth', hok⟩ := exists_of_any hok
  obtain ⟨hanswers, hcounts, hendsA, hendsB, hendsA', hendsB'⟩ := of_decide_eq_true hok
  simp only [Prod.mk.injEq] at hanswers hcounts
  obtain ⟨rfl, rfl, rfl, rfl⟩ := hanswers
  obtain ⟨hzero, hone⟩ := hcounts
  obtain ⟨hsetting1, hheap1, -⟩ := spawnCall_keeps hgreeting
  obtain ⟨hsetting, hheap, -⟩ := spawnCall_keeps hstale
  have hloaded : (load image #[] {} {}).world.heap = {} := (World.note_alike _ _ _).heap
  obtain ⟨sa', sb', _, _, hfirst2, hboth2, hsame⟩ := execute_either_order
    (by rw [hsetting, hsetting1]; rfl) (by rw [hheap, hheap1, hloaded]; exact Heap.sound_empty {})
    ((spawnCall_awaits hgreeting).spawnCall (by decide) hstale) (spawnCall_awaits hstale)
    (by decide) (by decide) (by decide) hfirst hboth (by rw [hzero, hone]; decide)
    (not_ranOut_of_ends hendsA nofun) (not_ranOut_of_ends hendsB nofun)
  cases hfirst'.symm.trans hfirst2
  cases hboth'.symm.trans hboth2
  obtain ⟨rfl, rfl, ρ, hρ⟩ :=
    hsame (not_ranOut_of_ends hendsA' nofun) (not_ranOut_of_ends hendsB' nofun)
  have hstring := (hρ.ends (.head _) hendsA).symm.trans hendsA'
  have harray := (hρ.ends (List.mem_cons_of_mem 0 (.head _)) hendsB).symm.trans hendsB'
  simp only [Option.map_some, Option.map_none, Value.rename, RunError.rename, HeapError.rename,
    Option.some.injEq, Prod.mk.injEq, Value.stringRef.injEq, RunError.heap.injEq,
    HeapError.freed.injEq] at hstring harray
  exact ⟨image, himage, e1, e, first, both, first', both', ρ, hgreeting, hstale, hfirst, hboth,
    hfirst', hboth', hρ, hstring.1, harray.2⟩

end Engine

end Bytescript
