import Bytescript.Proofs.Machine.Calls
import Bytescript.Proofs.Machine.Safety

/-!
# Calls from the host

A function can be called from code, and it can be run in a context of its own. The two runs go step
by step: their frames differ in where the outermost of them returns to, and in the frames that lie
below it (`Above`). They end alike, except that a function whose code is at its end without having
returned ends a context of its own without a result, while called from code it fails.
-/

namespace Bytescript

/-! ## Worlds that differ in their journals -/

/-- A native that does not look into the journal. -/
def Native.Blind (native : Native) : Prop := ∀ args w w', World.Alike w w' →
  (native.run args w).1 = (native.run args w').1 ∧
  (native.run args w).2.Alike (native.run args w').2

/-- An operation that does not look into the journal. -/
class Operation.Blind {α : Type} (op : Operation α) : Prop where
  alike : ∀ w w', World.Alike w w' → (∃ a v v', op w = .ok a v ∧ op w' = .ok a v' ∧ v.Alike v') ∨
    ∃ e v v', op w = .error e v ∧ op w' = .error e v'

namespace World.Alike

variable {w w' : World}

variable (h : w.Alike w')

include h

theorem onHeap {α : Type} (f : Heap → α × Heap) :
    (w.onHeap f).1 = (w'.onHeap f).1 ∧ (w.onHeap f).2.Alike (w'.onHeap f).2 := by
  obtain ⟨heap, output, cells, journal⟩ := w
  obtain ⟨heap', output', cells', journal'⟩ := w'
  obtain ⟨rfl, rfl, rfl⟩ := h
  exact ⟨rfl, rfl, rfl, rfl⟩

/-- What is done to the heap may be noted. -/
theorem noted {α : Type} (act : World → Except HeapError α × World)
    (f : Heap → Except HeapError α × Heap) (text : α → Unit → String)
    (hok : ∀ {w a v}, w.onHeap f = (.ok a, v) → act w = (.ok a, v.note .trace (text a)))
    (herror : ∀ {w e v}, w.onHeap f = (.error e, v) → act w = (.error e, v)) :
    (act w).1 = (act w').1 ∧ (act w).2.Alike (act w').2 := by
  obtain ⟨hresult, hworld⟩ := h.onHeap f
  cases hw : w.onHeap f with
  | mk x v =>
    cases hw' : w'.onHeap f with
    | mk x' v' =>
      rw [hw, hw'] at hresult hworld
      obtain rfl : x = x' := hresult
      cases x with
      | ok a =>
        rw [hok hw, hok hw']
        exact ⟨rfl, (note_alike v _ _).trans (hworld.trans (note_alike v' _ _).symm)⟩
      | error e =>
        rw [herror hw, herror hw']
        exact ⟨rfl, hworld⟩

theorem allocate (p : Payload) :
    (w.allocate p).1 = (w'.allocate p).1 ∧ (w.allocate p).2.Alike (w'.allocate p).2 :=
  h.noted (·.allocate p) (·.insert p) (fun id _ => s!"heap: allocated {p.tag.name} {id.text}")
    (fun hw => by simp only [World.allocate, hw]) (fun hw => by simp only [World.allocate, hw])

theorem release (id : HeapId) :
    (w.release id).1 = (w'.release id).1 ∧ (w.release id).2.Alike (w'.release id).2 :=
  h.noted (·.release id) (·.delete id) (fun p _ => s!"heap: freed {p.tag.name} {id.text}")
    (fun hw => by simp only [World.release, hw]) (fun hw => by simp only [World.release, hw])

theorem concat (left right : HeapId) :
    (w.concat left right).1 = (w'.concat left right).1 ∧
      (w.concat left right).2.Alike (w'.concat left right).2 :=
  h.noted (·.concat left right) (·.concat left right)
    (fun id _ => s!"heap: allocated {HeapTag.string.name} {id.text}")
    (fun hw => by simp only [World.concat, hw]) (fun hw => by simp only [World.concat, hw])

end World.Alike

namespace Operation.Blind

variable {α β : Type} {op : Operation α} {f : α → Operation β}

instance {a : α} : Blind (pure a) := ⟨fun w w' hw => .inl ⟨a, w, w', rfl, rfl, hw⟩⟩

instance {e : RunError} : Blind (throw e : Operation α) := ⟨fun w w' _ => .inr ⟨e, w, w', rfl, rfl⟩⟩

instance [h : Blind op] [hf : ∀ a, Blind (f a)] : Blind (op >>= f) where
  alike w w' hw := by
    simp only [Bind.bind, EStateM.bind]
    rcases h.alike w w' hw with ⟨a, v, v', hop, hop', hv⟩ | ⟨e, v, v', hop, hop'⟩
    · rw [hop, hop']
      exact (hf a).alike v v' hv
    · rw [hop, hop']
      exact .inr ⟨e, v, v', rfl, rfl⟩

instance {p : Prop} [Decidable p] {op' : Operation α} [Blind op] [Blind op'] :
    Blind (if p then op else op') := by
  split <;> infer_instance

theorem onWorld {ε : Type} {cause : ε → RunError} {f : World → Except ε α × World}
    (h : ∀ w w', World.Alike w w' → (f w).1 = (f w').1 ∧ (f w).2.Alike (f w').2) :
    Blind (onWorld cause f) where
  alike w w' hw := by
    obtain ⟨hresult, hworld⟩ := h w w' hw
    unfold Operation.onWorld
    generalize f w = r at hresult hworld
    generalize f w' = r' at hresult hworld
    obtain ⟨x, v⟩ := r
    obtain ⟨x', v'⟩ := r'
    obtain rfl : x = x' := hresult
    cases x with
    | ok a => exact .inl ⟨a, v, v', rfl, rfl, hworld⟩
    | error e => exact .inr ⟨cause e, v, v', rfl, rfl⟩

instance {f : Heap → Except HeapError α} : Blind (readHeap f) where
  alike w w' hw := by
    unfold readHeap
    rw [← hw.heap]
    cases f w.heap with
    | ok a => exact .inl ⟨a, w, w', rfl, rfl, hw⟩
    | error e => exact .inr ⟨_, w, w', rfl, rfl⟩

instance {p : Payload} : Blind (allocate p) := onWorld fun _ _ hw => hw.allocate p

instance {id : HeapId} : Blind (Operation.onWorld .heap (·.release id)) :=
  onWorld fun _ _ hw => hw.release id

instance {a b : HeapId} : Blind (Operation.onWorld .heap (·.concat a b)) :=
  onWorld fun _ _ hw => hw.concat a b

instance {f : Heap → Except HeapError α × Heap} : Blind (onHeap f) :=
  onWorld fun _ _ hw => hw.onHeap f

variable {a b v : Value} {kind : Kind}

instance : Blind (int v) := by cases v <;> (dsimp only [int]; infer_instance)

instance : Blind (float v) := by cases v <;> (dsimp only [float]; infer_instance)

instance : Blind (object v) := by cases v <;> (dsimp only [object]; infer_instance)

instance : Blind (string v) := by cases v <;> (dsimp only [string]; infer_instance)

instance : Blind (reference v) := by
  unfold reference
  split <;> infer_instance

instance : Blind (index v) := by
  unfold index
  infer_instance

instance : Blind (ofKind kind v) := by
  unfold ofKind
  infer_instance

instance {env : Setting} {c : UInt16} : Blind (constant env c) := by
  unfold constant
  split <;> infer_instance

instance {op : ArithOp} : Blind (arith op kind b a) := by
  have honInts : ∀ m n, Blind (match op.onInts m n with
      | .ok n => pure (.int n)
      | .error e => throw e : Operation Value) := fun m n => by split <;> infer_instance
  unfold arith
  split <;> infer_instance

instance : Blind (sameReference a b) := by
  unfold sameReference
  split <;> infer_instance

instance {cmp : Comparison} : Blind (compare cmp kind b a) := by
  unfold compare
  split <;> infer_instance

/-- What an instruction does to its operands does not depend on the journal. -/
theorem operate {env : Setting} (hnatives : ∀ native ∈ env.natives, native.Blind) (i : Instruction)
    (args : List Value) : Blind (operate env i args) := by
  have hcall : ∀ index args, Blind (callNative env index args) := fun index args => by
    unfold callNative
    split
    · infer_instance
    next native hnative => exact onWorld (hnatives native (Array.mem_of_getElem? hnative) args)
  unfold Bytescript.operate
  cases i
  case neg kind => cases kind <;> rcases args with _ | ⟨_, _ | _⟩ <;> infer_instance
  case newObject =>
    cases args
    · dsimp only
      split <;> infer_instance
    · infer_instance
  all_goals rcases args with _ | ⟨_, _ | ⟨_, _ | ⟨_, _ | _⟩⟩⟩ <;> infer_instance

end Operation.Blind

/-! ## Frames above others -/

/-- The return address as it lies on a stack. -/
def Frame.back (f : Frame) : Value := .int (.ofNat f.returnAddress)

theorem Frame.call_operands (r : Routine) (back : Nat) (args : List Value) :
    (Frame.call r back args.toArray).operands =
      args ++ [(Frame.call r back args.toArray).back] := by
  simp [operands, call, enter, Frame.back]

section

variable {T : Tables} {strict : Prop}

/-- Two frames of called routines that differ in nothing but where they return to. -/
structure Frame.Twin (P : Plan T strict) (f g : Frame) : Prop where
  routine : g.routine = f.routine
  pc : g.pc = f.pc
  slots : g.slots = f.slots
  operands : ∃ vs, f.operands = vs ++ [f.back] ∧ g.operands = vs ++ [g.back]
  called : (P.home f.routine).role ≠ .main

/-- The frames of two machines. The outermost of the first one, which returns to nowhere, is above
other frames in the second one. -/
inductive Twins (P : Plan T strict) (r : Routine) (below : Array Frame) (back : Nat) :
    Frame → Array Frame → Frame → Array Frame → Prop
  | outermost {f g} : f.Twin P g → f.routine = r → g.returnAddress = back →
    Twins P r below back f #[] g below
  | inner {f g c d cs ds} : f.Twin P g → g.returnAddress = f.returnAddress →
    Twins P r below back c cs d ds → Twins P r below back f (cs.push c) g (ds.push d)

/-- A machine does the same as another one, above other frames. -/
structure Machine.Above (P : Plan T strict) (r : Routine) (below : Array Frame) (back : Nat)
    (a b : Machine) : Prop where
  frames : Twins P r below back a.frame a.callers b.frame b.callers
  world : a.world.Alike b.world

variable {P : Plan T strict} {r : Routine} {below cs ds : Array Frame} {back : Nat}
  {f g f' g' c d : Frame} {a b : Machine} {vs args rest : List Value} {w w' : World}

namespace Frame.Twin

theorem self (h : f.operands = vs ++ [f.back]) (hcalled : (P.home f.routine).role ≠ .main) :
    f.Twin P f :=
  ⟨rfl, rfl, rfl, ⟨vs, h, h⟩, hcalled⟩

theorem size_eq (h : f.Twin P g) : g.stack.size = f.stack.size := by
  obtain ⟨vs, hf, hg⟩ := h.operands
  rw [← f.operands_length, ← g.operands_length, hf, hg, List.length_append, List.length_append]
  rfl

/-- Operands that are above the return address are the same. -/
theorem split (h : f.Twin P g) (hf : f.operands = args ++ (rest ++ P.base f)) :
    f.operands = args ++ (rest ++ [f.back]) ∧ g.operands = args ++ (rest ++ [g.back]) := by
  have hbase : P.base f = [f.back] := if_neg h.called
  rw [hbase] at hf
  obtain ⟨vs, hf', hg⟩ := h.operands
  rw [← List.append_assoc] at hf
  obtain ⟨rfl, -⟩ := List.append_inj' (hf'.symm.trans hf) rfl
  rw [← List.append_assoc, ← List.append_assoc]
  exact ⟨hf, hg⟩

end Frame.Twin

namespace Twins

variable (h : Twins P r below back f cs g ds)

include h

theorem twin : f.Twin P g := by
  cases h with
  | outermost htwin => exact htwin
  | inner htwin => exact htwin

theorem congr (htwin : f'.Twin P g') (hroutine : f'.routine = f.routine)
    (hf : f'.returnAddress = f.returnAddress) (hg : g'.returnAddress = g.returnAddress) :
    Twins P r below back f' cs g' ds := by
  cases h with
  | outermost _ hr hback => exact .outermost htwin (hroutine.trans hr) (hg.trans hback)
  | inner _ hback hrest => exact .inner htwin (hg.trans (hback.trans hf.symm)) hrest

/-- A frame is the outermost in the first machine, or it returns to the same place in both. -/
theorem returns :
    (cs = #[] ∧ ds = below ∧ f.routine = r ∧ g.returnAddress = back) ∨
      ∃ c d cs' ds', cs = cs'.push c ∧ ds = ds'.push d ∧ g.returnAddress = f.returnAddress ∧
        Twins P r below back c cs' d ds' := by
  cases h with
  | outermost _ hr hback => exact .inl ⟨rfl, rfl, hr, hback⟩
  | inner _ hback hrest => exact .inr ⟨_, _, _, _, rfl, rfl, hback, hrest⟩

theorem size_eq : ds.size = cs.size + below.size := by
  induction h with
  | outermost => exact (Nat.zero_add _).symm
  | inner _ _ _ ih =>
    rw [Array.size_push, Array.size_push, ih]
    omega

end Twins

namespace Machine.Above

variable (h : Above P r below back a b)

include h

theorem fetched (next : Nat) (hw : w.Alike w') :
    Above P r below back (a.fetched next w) (b.fetched next w') := by
  obtain ⟨hroutine, hpc, hslots, hoperands, hcalled⟩ := h.frames.twin
  exact ⟨h.frames.congr ⟨hroutine, rfl, hslots, hoperands, hcalled⟩ rfl rfl rfl, hw⟩

theorem put (vs : List Value) (hw : w.Alike w') :
    Above P r below back (a.put (vs ++ [a.frame.back]) w) (b.put (vs ++ [b.frame.back]) w') := by
  obtain ⟨hroutine, hpc, hslots, -, hcalled⟩ := h.frames.twin
  exact ⟨h.frames.congr ⟨hroutine, hpc, hslots, ⟨vs, put_operands .., put_operands ..⟩,
    hcalled⟩ rfl rfl rfl, hw⟩

theorem store (slot : Nat) (v : Value) :
    Above P r below back (a.store slot v) (b.store slot v) := by
  obtain ⟨hroutine, hpc, hslots, hoperands, hcalled⟩ := h.frames.twin
  refine ⟨h.frames.congr ⟨hroutine, hpc, ?_, hoperands, hcalled⟩ rfl rfl rfl, h.world⟩
  rw [Machine.store, Machine.store]
  simp only [hslots]

theorem goTo (target : Nat) :
    Above P r below back (a.goTo target) (b.goTo target) := by
  obtain ⟨hroutine, hpc, hslots, hoperands, hcalled⟩ := h.frames.twin
  exact ⟨h.frames.congr ⟨hroutine, rfl, hslots, hoperands, hcalled⟩ rfl rfl rfl, h.world⟩

end Machine.Above

/-! ## Steps side by side -/

/-- The limits for a machine that is above so many frames. -/
def Setting.raise (env : Setting) (n : Nat) : Setting :=
  { env with limits := { env.limits with frames := env.limits.frames + n } }

theorem Setting.raise_stack (env : Setting) (n : Nat) :
    (env.raise n).limits.stack = env.limits.stack := rfl

/-- The error that is told if there is room for so many more frames. -/
def RunError.raise (n : Nat) : RunError → RunError
  | .frameOverflow limit => .frameOverflow (limit + n)
  | e => e

theorem RunError.raise_operational {e : RunError} (h : e.isOperational = true) (n : Nat) :
    e.raise n = e := by
  cases e <;> first | rfl | cases h

/-- What steps of two machines come to, the second of which is above other frames. -/
inductive Agree (P : Plan T strict) (r : Routine) (callers : Array Frame) (caller : Frame) :
    EStateM.Result RunError Machine Flow → EStateM.Result RunError Machine Flow → Prop
  | next {a b : Machine} : a.Above P r (callers.push caller) caller.pc b →
    Agree P r callers caller (.ok .next a) (.ok .next b)
  | hands {v a id pc w} : a.world.Alike w →
    Agree P r callers caller (.ok (.leave v) a)
      (.ok .next ⟨id, { caller with stack := caller.stack.push v }, callers, pc, w⟩)
  | fails {e a b} : Agree P r callers caller (.error e a) (.error (e.raise (callers.size + 1)) b)
  | ends {a b : Machine} :
    Agree P r callers caller (.ok .halt a) (.error (.missingReturn r.name) b)

variable {env : Setting} {callers : Array Frame} {caller : Frame}

theorem agree_fails {x y : EStateM.Result RunError Machine Flow} {e : RunError}
    (hx : ∃ m, x = .error e m)
    (hy : ∃ m, y = .error (e.raise (callers.size + 1)) m) : Agree P r callers caller x y := by
  obtain ⟨m, rfl⟩ := hx
  obtain ⟨m', rfl⟩ := hy
  exact .fails

variable (h : a.Above P r (callers.push caller) caller.pc b)

include h

theorem agree_push (limit : Nat) (v : Value) :
    Agree P r callers caller ((do Exec.push limit v; return .next : Exec Flow) a)
      ((do Exec.push limit v; return .next : Exec Flow) b) := by
  obtain ⟨vs, ha, hb⟩ := h.frames.twin.operands
  rw [Follows.push_next, Follows.push_next, h.frames.twin.size_eq]
  split
  · exact .fails
  · rw [ha, hb]
    exact .next (h.put (v :: vs) h.world)

theorem agree_plain (hP : P.Serves env) (hnatives : ∀ native ∈ env.natives, native.Blind)
    {i : Instruction} {ins outs : List TypeId} (htakes : Takes T i ins outs)
    (hcall : ∀ c, i ≠ .call c)
    (hlen : args.length = ins.length)
    (hargs : a.frame.operands = args ++ (rest ++ P.base a.frame)) :
    Agree P r callers caller (Exec.perform env i a)
      (Exec.perform (env.raise (callers.size + 1)) i b) := by
  obtain ⟨ha, hb⟩ := h.frames.twin.split hargs
  have hP' : (env.raise (callers.size + 1)).Links T := ⟨hP.pool, hP.natives, hP.shapes⟩
  have hop : operate (env.raise (callers.size + 1)) i args = operate env i args := rfl
  have hcounts := (operate_spec hP.toLinks htakes hcall hlen).2 a.world
  have hleft := (operate_spec hP.toLinks htakes hcall hlen).1 (rest ++ [a.frame.back]) a a.world
  have hright := (operate_spec hP' htakes hcall hlen).1 (rest ++ [b.frame.back]) b b.world
  rw [← ha, a.put_self] at hleft
  rw [← hb, b.put_self, hop] at hright
  unfold Operation.Ensures at hcounts
  rcases (Operation.Blind.operate hnatives i args).alike _ _ h.world with ⟨results, v, v', hok,
    hok', hv⟩ | ⟨e, v, v', herr, herr'⟩
  · rw [hok] at hleft
    rw [hok'] at hright
    simp only [Setting.raise_stack, List.length_append, List.length_singleton] at hleft hright
    split at hleft
    next hfull =>
      rw [if_pos hfull] at hright
      exact agree_fails hleft hright
    next hroom =>
      rw [if_neg hroom] at hright
      rw [hleft, hright, ← List.append_assoc, ← List.append_assoc]
      exact .next (h.put (results ++ rest) hv)
  · rw [herr] at hleft hcounts
    rw [herr'] at hright
    exact agree_fails hleft (by rwa [RunError.raise_operational hcounts])

variable {kind : Kind} {slot : UInt16} {v : Value}

theorem agree_load
    (hv : a.frame.slots[slot.toNat]? = some v) :
    Agree P r callers caller (Exec.perform env (.load kind slot) a)
      (Exec.perform (env.raise (callers.size + 1)) (.load kind slot) b) := by
  rw [Exec.perform_load hv, Exec.perform_load (h.frames.twin.slots ▸ hv)]
  exact agree_push h _ v

theorem agree_store
    (hlt : slot.toNat < a.frame.slots.size)
    (hargs : a.frame.operands = [v] ++ (rest ++ P.base a.frame)) :
    Agree P r callers caller (Exec.perform env (.store kind slot) a)
      (Exec.perform (env.raise (callers.size + 1)) (.store kind slot) b) := by
  obtain ⟨ha, hb⟩ := h.frames.twin.split hargs
  have hlt' : slot.toNat < b.frame.slots.size := h.frames.twin.slots ▸ hlt
  cases hkind : v.hasKind kind with
  | true =>
    rw [Exec.perform_store hlt ha hkind, Exec.perform_store hlt' hb hkind]
    exact .next ((h.put rest h.world).store _ v)
  | false =>
    exact agree_fails (Exec.perform_store_error _ hlt ha hkind)
      (Exec.perform_store_error _ hlt' hb hkind)

theorem agree_branch {trigger : Trigger} {offset : UInt32} (htrigger : trigger ≠ .always)
    (hargs : a.frame.operands = [v] ++ (rest ++ P.base a.frame)) :
    Agree P r callers caller (Exec.perform env (.jump trigger offset) a)
      (Exec.perform (env.raise (callers.size + 1)) (.jump trigger offset) b) := by
  obtain ⟨ha, hb⟩ := h.frames.twin.split hargs
  have hput := h.put rest h.world
  cases hkind : v.hasKind .int with
  | true =>
    obtain ⟨n, rfl⟩ : ∃ n, v = .int n := by cases v <;> first | exact ⟨_, rfl⟩ | cases hkind
    rw [Exec.perform_branch htrigger ha, Exec.perform_branch htrigger hb]
    cases trigger.test n with
    | true => exact .next (hput.goTo _)
    | false => exact .next hput
  | false =>
    exact agree_fails (Exec.perform_branch_error _ _ htrigger ha hkind)
      (Exec.perform_branch_error _ _ htrigger hb hkind)

theorem agree_call {c : UInt16} {callee : Routine}
    (hcallee : env.program.routines[c]? = some callee) (hrole : (P.home callee).role ≠ .main)
    (hargs : a.frame.operands = args ++ (rest ++ P.base a.frame))
    (hlen : args.length = callee.params.length) :
    Agree P r callers caller (Exec.perform env (.call c) a)
      (Exec.perform (env.raise (callers.size + 1)) (.call c) b) := by
  obtain ⟨ha, hb⟩ := h.frames.twin.split hargs
  have hdepth : (env.raise (callers.size + 1)).limits.frames ≤ b.callers.size + 1 ↔
      env.limits.frames ≤ a.callers.size + 1 := by
    rw [h.frames.size_eq, Array.size_push]
    show env.limits.frames + (callers.size + 1) ≤ _ ↔ _
    omega
  have hcallee' : (env.raise (callers.size + 1)).program.routines[c]? = some callee := hcallee
  rw [Exec.perform_call hcallee ha hlen, Exec.perform_call hcallee' hb hlen]
  by_cases hdeep : env.limits.frames ≤ a.callers.size + 1
  · rw [if_pos hdeep, if_pos (hdepth.mpr hdeep)]
    exact .fails
  · rw [if_neg hdeep, if_neg (mt hdepth.mp hdeep)]
    rw [h.frames.twin.pc]
    exact .next ⟨.inner (.self (Frame.call_operands ..) hrole) rfl (h.put rest h.world).frames,
      h.world⟩

theorem agree_ret
    (hargs : a.frame.operands = [a.frame.back]) (hback : a.frame.returnAddress < 2 ^ 64)
    (hpc : caller.pc < 2 ^ 64) (hroom : caller.stack.size < env.limits.stack) :
    Agree P r callers caller (Exec.ret env v a) (Exec.ret (env.raise (callers.size + 1)) v b) := by
  obtain ⟨vs, ha, hb⟩ := h.frames.twin.operands
  obtain ⟨rfl, -⟩ := List.append_inj' (ha.symm.trans (hargs.trans (List.nil_append _).symm)) rfl
  rcases h.frames.returns with ⟨hcs, hds, -, haddress⟩ | ⟨c, d, cs, ds, hcs, hds, haddress, hrest⟩
  · rw [Exec.ret_leave hargs hback hcs, Exec.ret_push hb (haddress ▸ hpc) hds, Follows.push_next,
      haddress]
    split
    next hfull => exact absurd hroom (not_lt.mpr hfull)
    · have hhands : Agree P r callers caller (.ok (.leave v) (a.put [] a.world)) (.ok .next
          ⟨b.id, { caller with stack := caller.stack.push v }, callers, b.pc, b.world⟩) :=
        .hands h.world
      rw [← Frame.operands_push] at hhands
      exact hhands
  · rw [Exec.ret_push hargs hback hcs, Exec.ret_push hb (haddress ▸ hback) hds, haddress]
    obtain ⟨hroutine, -, hslots, hoperands, hcalled⟩ := hrest.twin
    have hnext : Machine.Above P r (callers.push caller) caller.pc
        ⟨a.id, { c with pc := a.frame.returnAddress }, cs, a.pc, a.world⟩
        ⟨b.id, { d with pc := a.frame.returnAddress }, ds, b.pc, b.world⟩ :=
      ⟨hrest.congr ⟨hroutine, rfl, hslots, hoperands, hcalled⟩ rfl rfl rfl, h.world⟩
    exact agree_push hnext _ v

/-- A step of a machine in step with its annotations and a step of a machine that does the same
above other frames. -/
theorem Machine.Above.step {V : TypeId → Value → Prop} {S : Nat → Nat → TypeId → Value → Prop}
    (hP : P.Serves env)
    (hnatives : ∀ native ∈ env.natives, native.Blind) (ha : a.Fits P V S) (hpc : caller.pc < 2 ^ 64)
    (hroom : caller.stack.size < env.limits.stack) :
    Agree P r callers caller (Exec.step env a) (Exec.step (env.raise (callers.size + 1)) b) := by
  obtain ⟨p, hruns⟩ := ha.runs
  have htwin := h.frames.twin
  have hbase : P.base a.frame = [a.frame.back] := if_neg htwin.called
  have hback := ha.stacked.returnAddress_lt
  have hchecked := hruns.covered
  obtain ⟨k, hk, hp⟩ := hruns.point
  by_cases hlt : k < a.frame.routine.code.size
  · have hi := Array.getElem?_eq_getElem hlt
    obtain ⟨q, hq, hchecks⟩ := hchecked.checks k _ hi
    cases hq.symm.trans hp
    generalize a.frame.routine.code[k] = i at hi hchecks
    obtain ⟨next, w, hnext, hw, -, hstep⟩ := step_eq_perform env hchecked.encoded hk hi
    obtain ⟨next', w', hnext', hw', -, hstep'⟩ :=
      step_eq_perform (m := b) (env.raise (callers.size + 1))
      (htwin.routine ▸ hchecked.encoded) (htwin.pc ▸ htwin.routine ▸ hk) (htwin.routine ▸ hi)
    rw [htwin.routine] at hnext' hstep'
    cases hnext.symm.trans hnext'
    rw [hstep, hstep']
    have h1 := h.fetched next (hw.trans (h.world.trans hw'.symm))
    cases hchecks with
    | plain htakes hacc =>
      rw [Instruction.placed_of_not_jump htakes.not_jump]
      obtain ⟨args, rest, hargs, htypes, -⟩ := hruns.toFits.split
      by_cases hcall : ∃ c, i = .call c
      · obtain ⟨c, rfl⟩ := hcall
        obtain ⟨callee, hcallee, rfl, rfl, -, hrole⟩ := hP.calls c _ _ htakes
        refine agree_call h1 hcallee hrole hargs ?_
        rw [← htypes.length_eq, List.length_reverse]
      · exact agree_plain h1 hP hnatives htakes (fun c hc => hcall ⟨c, hc⟩) htypes.length_eq.symm
          hargs
    | load ht =>
      obtain ⟨hslot, -⟩ := getElem_of_getElem? ht
      exact agree_load h1 (Array.getElem?_eq_getElem (hruns.size ▸ hslot))
    | store ht =>
      obtain ⟨v, rest, hargs, -⟩ := hruns.toFits.top
      obtain ⟨hslot, -⟩ := getElem_of_getElem? ht
      exact agree_store h1 (hruns.size ▸ hslot) hargs
    | jump hacc =>
      obtain ⟨offset, hplaced, -⟩ := hchecked.encoded.jump hi (hchecked.accepts_le hacc)
      rw [hplaced]
      exact .next (h1.goTo _)
    | branch htrigger hacc =>
      obtain ⟨offset, hplaced, -⟩ := hchecked.encoded.jump hi (hchecked.accepts_le hacc)
      rw [hplaced]
      obtain ⟨v, rest, hargs, -⟩ := hruns.toFits.top
      exact agree_branch h1 htrigger hargs
    | ret =>
      obtain ⟨vs, hvs, htypes⟩ := hruns.operands
      obtain ⟨v, rfl⟩ : ∃ v, vs = [v] := List.length_eq_one_iff.mp htypes.length_eq.symm
      have hargs : a.frame.operands = [v] ++ ([] ++ P.base a.frame) := hvs
      obtain ⟨hleft, hright⟩ := h1.frames.twin.split hargs
      simp only [Instruction.placed, Exec.perform]
      rw [Exec.bind_of_ok (Exec.pop_eq hleft), Exec.bind_of_ok (Exec.pop_eq hright)]
      exact agree_ret (h1.put [] h1.world) (Machine.put_operands ..) hback hpc hroom
    | retVoid =>
      obtain ⟨vs, hvs, htypes⟩ := hruns.operands
      obtain rfl : vs = [] := List.length_eq_zero_iff.mp htypes.length_eq.symm
      exact agree_ret h1 (hvs.trans hbase) hback hpc hroom
    | stop hmain => exact absurd hmain htwin.called
  · have hend : a.frame.pc = a.frame.routine.body.bytes.size := hchecked.at_end hk hp hlt
    have hend' : b.frame.routine.body.bytes.size ≤ b.frame.pc := by
      rw [htwin.routine, htwin.pc]
      exact Nat.le_of_eq hend.symm
    rw [Exec.step_past (Nat.le_of_eq hend.symm), Exec.step_past hend']
    rcases h.frames.returns with ⟨hcs, hds, hr, -⟩ | ⟨c, d, cs, ds, hcs, hds, -, -⟩
    · rw [if_pos (by rw [hcs]; rfl), if_neg (by rw [hds]; simp), htwin.routine, hr]
      exact .ends
    · rw [if_neg (by rw [hcs]; simp), if_neg (by rw [hds]; simp), htwin.routine]
      exact .fails

/-! ## Runs side by side -/

/-- How runs of two machines end, the second of which is above other frames. -/
inductive AgreeAtEnd (r : Routine) (callers : Array Frame) (caller : Frame) :
    Ending × Machine → Ending × Machine → Prop
  | hands {v a id pc w} : a.world.Alike w →
    AgreeAtEnd r callers caller (.returned v, a)
      (.paused, ⟨id, { caller with stack := caller.stack.push v }, callers, pc, w⟩)
  | fails {e a b} : AgreeAtEnd r callers caller (.failed e, a)
    (.failed (e.raise (callers.size + 1)), b)
  | ends {a b : Machine} :
    AgreeAtEnd r callers caller (.halted, a) (.failed (.missingReturn r.name), b)

end

section

variable {T : Tables} {P : Plan T False} {r : Routine} {callers : Array Frame} {caller : Frame}
  {env : Setting} {a b : Machine}

/-- Two machines do the same after so many steps. -/
def Machine.SideBySide (P : Plan T False) (r : Routine) (callers : Array Frame) (caller : Frame)
    (env : Setting) (a b : Machine) (n : Nat) : Prop :=
  ∃ a' b', a.run env n = (.paused, a') ∧ b.run (env.raise (callers.size + 1)) n = (.paused, b') ∧
    a'.Above P r (callers.push caller) caller.pc b' ∧ a'.Fits P anyValue anySlot

/-- Two machines that do the same, the second above other frames, go side by side until they end. -/
theorem Machine.Above.runs (h : a.Above P r (callers.push caller) caller.pc b) (hP : P.Serves env)
    (hnatives : ∀ native ∈ env.natives, native.Blind) (ha : a.Fits P anyValue anySlot)
    (hpc : caller.pc < 2 ^ 64) (hroom : caller.stack.size < env.limits.stack) :
    (∀ i, SideBySide P r callers caller env a b i) ∨
      ∃ j, (∀ i ≤ j, SideBySide P r callers caller env a b i) ∧
        AgreeAtEnd r callers caller (a.run env (j + 1))
          (b.run (env.raise (callers.size + 1)) (j + 1)) := by
  classical
  by_cases hall : ∀ i, SideBySide P r callers caller env a b i
  · exact .inl hall
  · -- the first step after which they do not
    have hex := not_forall.mp hall
    have hover := Nat.find_spec hex
    have hbefore : ∀ i < Nat.find hex, SideBySide P r callers caller env a b i :=
      fun i hi => not_not.mp (Nat.find_min hex hi)
    generalize Nat.find hex = n at hover hbefore
    cases n with
    | zero => exact absurd ⟨a, b, rfl, rfl, h, ha⟩ hover
    | succ j =>
      refine .inr ⟨j, fun i hi => hbefore i (Nat.lt_succ_of_le hi), ?_⟩
      obtain ⟨a', b', hrun, hrun', habove, hfits⟩ := hbefore j (Nat.lt_succ_self j)
      have hagree := habove.step hP hnatives hfits hpc hroom
      have hnext := run_succ hrun
      have hnext' := run_succ hrun'
      generalize hstep : Exec.step env a' = result at hagree hnext
      generalize Exec.step (env.raise (callers.size + 1)) b' = result' at hagree hnext'
      cases hagree with
      | next hafter => exact absurd ⟨_, _, hnext, hnext', hafter, hfits.step hP hstep⟩ hover
      | hands hworld => rw [hnext, hnext']; exact .hands hworld
      | fails => rw [hnext, hnext']; exact .fails
      | ends => rw [hnext, hnext']; exact .ends

theorem Machine.SideBySide.paused {n : Nat} (h : SideBySide P r callers caller env a b n) :
    (a.run env n).1 = .paused ∧ (b.run (env.raise (callers.size + 1)) n).1 = .paused := by
  obtain ⟨_, _, hrun, hrun', -, -⟩ := h
  rw [hrun, hrun']
  exact ⟨rfl, rfl⟩

theorem Machine.SideBySide.deep {n : Nat} (h : SideBySide P r callers caller env a b n) :
    callers.size < (b.run (env.raise (callers.size + 1)) n).2.callers.size := by
  obtain ⟨_, _, -, hrun', habove, -⟩ := h
  rw [hrun', habove.frames.size_eq, Array.size_push]
  omega

end

/-! ## Outcomes -/

/-- How a call ends. -/
inductive Outcome where
  | value (v : Value) (heap : Heap)
  | nothing
  | fault (e : RunError)

def Outcome.ofRun? : Ending × Machine → Option Outcome
  | (.paused, _) => none
  | (.halted, _) => some .nothing
  | (.returned v, m) => some (.value v m.world.heap)
  | (.failed e, _) => some (.fault e)

namespace Context

/-- How a context has ended, if it has, in the world that it left. -/
def outcome? (c : Context) (w : World) : Option Outcome :=
  match c.status with
  | .halted => some (c.result.elim .nothing fun v => .value v w.heap)
  | .failed => c.fault.map fun f => .fault f.cause
  | _ => none

/-- How a context ends that is executed. -/
def Ends (env : Setting) (c : Context) (w : World) (o : Outcome) : Prop :=
  ∃ fuel, (c.execute env fuel w).1.outcome? (c.execute env fuel w).2 = some o

theorem settle_outcome? (isMain : Bool) (ending : Ending) (m : Machine) :
    (settle isMain ending m).1.outcome? (settle isMain ending m).2 =
      Outcome.ofRun? (ending, m) := by
  obtain ⟨id, frame, callers, pc, world⟩ := m
  cases ending with
  | paused | halted | failed => rfl
  | returned v =>
    simp only [settle, outcome?, Option.elim_some, Outcome.ofRun?, (World.note_alike _ _ _).heap]

theorem Spawned.ends_iff {p : Program} {c : Context} (h : c.Spawned p) {env : Setting} {w : World}
    {o : Outcome} : c.Ends env w o ↔ ∃ fuel, Outcome.ofRun?
    ((c.start w).run env fuel) = some o := by
  refine exists_congr fun fuel => ?_
  rw [h.execute_eq, settle_outcome?]

end Context

/-- How a call ends that a machine is in front of. The frame that calls goes on with a value on top
of what it has below the arguments, or the machine fails before. -/
inductive Machine.CallEnds (env : Setting) (m : Machine) (next : Nat) (rest : Array Value) :
    Outcome → Prop
  | value {n v m'} : m.run env (n + 1) = (.paused, m') →
    (∀ i < n, m.callers.size < (m.run env (i + 1)).2.callers.size) → m'.callers = m.callers →
    m'.frame = { m.frame with pc := next, stack := rest.push v } →
    CallEnds env m next rest (.value v m'.world.heap)
  | fault {n e m'} : m.run env (n + 1) = (.failed e, m') →
    (∀ i < n, m.callers.size < (m.run env (i + 1)).2.callers.size) →
    CallEnds env m next rest (.fault e)

section

variable {env : Setting} {a b m : Machine} {j : Nat} {next : Nat} {rest : Array Value} {o : Outcome}

theorem ofRun?_paused {result : Ending × Machine} (h : result.1 = .paused) :
    Outcome.ofRun? result = none := by
  obtain ⟨ending, m⟩ := result
  obtain rfl : ending = .paused := h
  rfl

/-- The only outcome of a run is that of its end. -/
theorem ofRun?_iff (hpaused : ∀ i ≤ j, (a.run env i).1 = .paused)
    (hends : (a.run env (j + 1)).1 ≠ .paused) :
    (∃ fuel, Outcome.ofRun? (a.run env fuel) = some o) ↔
      Outcome.ofRun? (a.run env (j + 1)) = some o := by
  refine ⟨fun ⟨fuel, ho⟩ => ?_, fun ho => ⟨_, ho⟩⟩
  rcases Nat.lt_or_ge j fuel with hlt | hle
  · rwa [Machine.run_stable hends hlt] at ho
  · cases (ofRun?_paused (hpaused fuel hle)).symm.trans ho

namespace Machine

/-- The calling frame is not below others any more, or the machine has stopped. -/
def Over (env : Setting) (m b : Machine) (n : Nat) : Prop :=
  (b.run env n).1 = .paused → ¬ m.callers.size < (b.run env n).2.callers.size

variable (hstep : Exec.step env m = .ok .next b)

include hstep

/-- What has happened in a call that has ended, apart from the step into it. -/
theorem CallEnds.over (h : m.CallEnds env next rest o) :
    ∃ n, (∀ i < n, m.callers.size < (b.run env i).2.callers.size) ∧ Over env m b n ∧
      ((∃ v m', b.run env n = (.paused, m') ∧ o = .value v m'.world.heap ∧
        m'.frame = { m.frame with pc := next, stack := rest.push v }) ∨
      ∃ e m', b.run env n = (.failed e, m') ∧ o = .fault e) := by
  cases h with
  | @value n v m' hrun hdeep hcallers hframe =>
    simp only [run_of_step hstep] at hrun hdeep
    refine ⟨n, hdeep, fun _ => ?_, .inl ⟨v, m', hrun, rfl, hframe⟩⟩
    rw [hrun, hcallers]
    exact lt_irrefl _
  | @fault n e m' hrun hdeep =>
    simp only [run_of_step hstep] at hrun hdeep
    refine ⟨n, hdeep, fun hpaused => ?_, .inr ⟨e, m', hrun, rfl⟩⟩
    rw [hrun] at hpaused
    cases hpaused

/-- A call that never ends. -/
theorem callEnds_never (hpaused : ∀ i, (b.run env i).1 = .paused)
    (hdeep : ∀ i, m.callers.size < (b.run env i).2.callers.size) :
    ¬ m.CallEnds env next rest o := by
  intro ho
  obtain ⟨n, -, hover, -⟩ := ho.over hstep
  exact hover (hpaused n) (hdeep n)

variable (hpaused : ∀ i ≤ j, (b.run env i).1 = .paused)
  (hdeep : ∀ i ≤ j, m.callers.size < (b.run env i).2.callers.size)

include hpaused hdeep

/-- A call that fails. -/
theorem callEnds_failed {e : RunError} (hends : (b.run env (j + 1)).1 = .failed e) :
    m.CallEnds env next rest o ↔ o = .fault e := by
  refine ⟨fun ho => ?_, ?_⟩
  · obtain ⟨n, -, hover, hresult⟩ := ho.over hstep
    have hlt : j < n := not_le.mp fun hle => hover (hpaused n hle) (hdeep n hle)
    rw [← run_stable (by rw [hends]; nofun) hlt] at hends
    rcases hresult with ⟨v, m', hrun, -⟩ | ⟨e', m', hrun, rfl⟩ <;> rw [hrun] at hends <;>
      cases hends
    rfl
  · rintro rfl
    have hrun : m.run env (j + 1 + 1) = (.failed e, (b.run env (j + 1)).2) := by
      rw [run_of_step hstep]
      exact Prod.ext hends rfl
    refine .fault hrun fun i hi => ?_
    rw [run_of_step hstep]
    exact hdeep i (Nat.le_of_lt_succ hi)

/-- A call that hands a value to the frame that made it. -/
theorem callEnds_handed {v : Value} {m' : Machine} (hends : b.run env (j + 1) = (.paused, m'))
    (hcallers : m'.callers = m.callers)
    (hframe : m'.frame = { m.frame with pc := next, stack := rest.push v }) :
    m.CallEnds env next rest o ↔ o = .value v m'.world.heap := by
  refine ⟨fun ho => ?_, ?_⟩
  · obtain ⟨n, hbefore, hover, hresult⟩ := ho.over hstep
    have hlt : j < n := not_le.mp fun hle => hover (hpaused n hle) (hdeep n hle)
    have hle : n ≤ j + 1 := by
      refine not_lt.mp fun hlt => ?_
      have := hbefore (j + 1) hlt
      rw [hends, hcallers] at this
      exact lt_irrefl _ this
    obtain rfl : n = j + 1 := le_antisymm hle hlt
    rcases hresult with ⟨v1, m1, hrun, rfl, hframe1⟩ |
      ⟨e, m1, hrun, -⟩ <;> cases hrun.symm.trans hends
    have hstacks := congrArg Frame.stack (hframe1.symm.trans hframe)
    obtain ⟨rfl, -⟩ := Array.push_eq_push.mp hstacks
    rfl
  · rintro rfl
    refine .value ((run_of_step hstep (j + 1)).trans hends) (fun i hi => ?_) hcallers hframe
    rw [run_of_step hstep]
    exact hdeep i (Nat.le_of_lt_succ hi)

end Machine

end

/-- A machine in front of a call, with the arguments on its stack. -/
structure Machine.CallsNext (m : Machine) (c : UInt16) (args : List Value) (next : Nat)
    (rest : Array Value) : Prop where
  inside : m.frame.pc < m.frame.routine.body.bytes.size
  decodes : m.ahead = .ok (.call c, next)
  stack : m.frame.stack = rest ++ args.toArray

/-- What a call does first. -/
theorem Machine.CallsNext.step {m : Machine} {c : UInt16} {args : List Value} {next : Nat}
    {rest : Array Value} (h : m.CallsNext c args next rest) (env : Setting) {r : Routine}
    (hc : env.program.routines[c]? = some r) (harity : r.arity = args.length)
    (hframes : m.callers.size + 1 < env.limits.frames) :
    ∃ w, w.Alike m.world ∧ Exec.step env m = .ok .next ⟨m.id, .call r next args.toArray,
      m.callers.push { m.frame with pc := next, stack := rest }, m.frame.pc, w⟩ := by
  obtain ⟨w, hw, hstep⟩ := Exec.step_performs env h.inside h.decodes
  refine ⟨w, hw, ?_⟩
  have hargs : (m.fetched next w).frame.operands = args.reverse ++ rest.toList.reverse := by
    show m.frame.stack.toList.reverse = _
    rw [h.stack, Array.toList_append, List.reverse_append]
  have hlen : args.reverse.length = r.params.length := by
    rw [List.length_reverse]
    exact harity.symm
  rw [hstep, Exec.perform_call (m := m.fetched next w) hc hargs hlen, List.reverse_reverse]
  split
  next hdeep => exact absurd hframes (not_lt.mpr hdeep)
  · simp [Machine.put, Machine.fetched]

/-- A function that is called from the host and one that is called from code end alike. Called from
code it has the frames of its caller below it, so the limit is raised by as many. The only
difference is in a function that comes to the end of its code without having returned. -/
theorem forCall_agrees {items : List Stmt} {options : CompileOptions} {journal : Journal}
    {image : Image}
    (h : (Script.compile ⟨items⟩ options .primitives journal).1 = .ok image)
    (hplain : PlainNames items)
    {env : Setting} (hprogram : env.program = .load image)
    (hnatives : env.natives.toList.map Native.signature = options.natives)
    (hblind : ∀ native ∈ env.natives, native.Blind) (hframes : 0 < env.limits.frames)
    {name : String} {r : Routine} (hr : env.program.function name = .ok r) {args : List Value}
    (harity : r.arity = args.length) {c : UInt16} (hc : env.program.routines[c]? = some r)
    {m : Machine}
    {next : Nat} {rest : Array Value} (hm : m.CallsNext c args next rest) (hnext : next < 2 ^ 64)
    (hroom : rest.size < env.limits.stack) {w : World} (hw : w.Alike m.world) (id : Nat) :
    (∀ v heap, (Context.forCall r args id).Ends env w (.value v heap) ↔
      m.CallEnds (env.raise (m.callers.size + 1)) next rest (.value v heap)) ∧
    ∀ e, m.CallEnds (env.raise (m.callers.size + 1)) next rest (.fault e) ↔
      (∃ e0, e = e0.raise (m.callers.size + 1) ∧
        (Context.forCall r args id).Ends env w (.fault e0)) ∨
      e = .missingReturn r.name ∧ (Context.forCall r args id).Ends env w .nothing := by
  obtain ⟨T, hT, hcompiled⟩ := compile_compiled h
  obtain ⟨P, hP⟩ : ∃ P : Plan T False, P.CoversImage image := hcompiled.planned False.elim
  have hserves := hP.serves hcompiled hplain hprogram (hnatives.trans hT.symm)
  have hmem : r ∈ image.routines := (Program.load_routines_found (hprogram ▸ hc)).1
  have hspawned : (Context.forCall r args id).Spawned env.program := .call hr harity
  have hfits : ((Context.forCall r args id).start w).Fits P anyValue anySlot :=
    hP.forCall_fits (fun _ _ _ _ _ => trivial) (fun _ _ _ => trivial) id w hmem
      (forall₂_anyValue harity.symm)
  obtain ⟨w', hw', hstep⟩ := hm.step (env.raise (m.callers.size + 1)) hc harity (by
    show m.callers.size + 1 < env.limits.frames + (m.callers.size + 1)
    omega)
  generalize hb :
    (⟨m.id, .call r next args.toArray, m.callers.push { m.frame with pc := next, stack := rest },
    m.frame.pc, w'⟩ : Machine) = b at hstep
  have habove : ((Context.forCall r args id).start w).Above P r
      (m.callers.push { m.frame with pc := next, stack := rest }) next b := by
    subst hb
    have htwin : (Frame.call r 0 args.toArray).Twin P (.call r next args.toArray) :=
      ⟨rfl, rfl, rfl, ⟨args, Frame.call_operands .., Frame.call_operands ..⟩,
        (hP.routines r hmem).2⟩
    exact ⟨.outermost htwin rfl rfl, (World.note_alike _ _ _).trans (hw.trans hw'.symm)⟩
  have hends : ∀ {o}, (Context.forCall r args id).Ends env w o ↔ _ := hspawned.ends_iff
  generalize (Context.forCall r args id).start w = a at hfits habove hends
  rcases habove.runs hserves hblind hfits hnext hroom with hforever | ⟨j, hbefore, hagree⟩
  · have hleft : ∀ o, ¬ (Context.forCall r args id).Ends env w o := by
      intro o ho
      obtain ⟨fuel, ho⟩ := hends.mp ho
      cases (ofRun?_paused (hforever fuel).paused.1).symm.trans ho
    have hright : ∀ o, ¬ m.CallEnds (env.raise (m.callers.size + 1)) next rest o :=
      fun o => Machine.callEnds_never hstep (fun i => (hforever i).paused.2) fun i =>
        (hforever i).deep
    simp only [hleft, hright, and_false, exists_false, or_self, iff_self, implies_true, and_self]
  · have hpaused := fun i hi => (hbefore i hi).paused
    have hdeep := fun i hi => (hbefore i hi).deep
    have hleft : (a.run env (j + 1)).1 ≠ .paused → ∀ o, (Context.forCall r args id).Ends env w o ↔
        Outcome.ofRun? (a.run env (j + 1)) = some o :=
      fun hover o => hends.trans (ofRun?_iff (fun i hi => (hpaused i hi).1) hover)
    have hfailed : ∀ {e}, (b.run (env.raise (m.callers.size + 1)) (j + 1)).1 = .failed e →
        ∀ o, m.CallEnds (env.raise (m.callers.size + 1)) next rest o ↔ o = .fault e :=
      fun hover o => Machine.callEnds_failed hstep (fun i hi => (hpaused i hi).2) hdeep hover
    generalize hrun : a.run env (j + 1) = left at hagree hleft
    generalize hrun' : b.run (env.raise (m.callers.size + 1)) (j + 1) = right at hagree hfailed
    cases hagree with
    | @hands v a' _ _ w1 hworld =>
        have hright : ∀ o, m.CallEnds (env.raise (m.callers.size + 1)) next rest o ↔
            o = .value v w1.heap :=
          fun o => Machine.callEnds_handed hstep (fun i hi => (hpaused i hi).2) hdeep hrun' rfl rfl
        simp [hleft (by rintro ⟨⟩), hright, Outcome.ofRun?, hworld.heap, eq_comm]
    | @fails e a' b' => simp [hleft (by rintro ⟨⟩), hfailed rfl, Outcome.ofRun?]
    | @ends a' b' => simp [hleft (by rintro ⟨⟩), hfailed rfl, Outcome.ofRun?]

/-- The top-level code of the loop is in front of its call. -/
theorem forCall_agrees_counting : ∃ image, (Script.compile ⟨counting⟩).1 = .ok image ∧ ∃ r m heap,
    (Program.load image).function "next" = .ok r ∧
    ((Context.forMain (.load image) 0).start {}).run (.ofImage image {}) 5 = (.paused, m) ∧
    m.CallsNext 0 [.int 0] 12 #[] ∧
    (Context.forCall r [.int 0] 1).Ends (.ofImage image {}) m.world (.value (.int 1) heap) ∧
    m.CallEnds ((Setting.ofImage image {}).raise 1) 12 #[] (.value (.int 1) heap) := by
  have hok : ((Script.compile ⟨counting⟩).1).toOption.any (fun image =>
      ((Program.load image).function "next").toOption.any fun r =>
        let reached := ((Context.forMain (.load image) 0).start {}).run (.ofImage image {}) 5
        let m := reached.2
        let executed := (Context.forCall r [.int 0] 1).execute (.ofImage image {}) 10 m.world
        reached.1 = .paused ∧ m.callers = #[] ∧ m.frame.pc < m.frame.routine.body.bytes.size ∧
          decodeAt m.frame.routine.body.bytes m.frame.pc = .ok (.call 0, 12) ∧
          m.frame.stack = #[.int 0] ∧ r.constant = some 0 ∧ r.arity = 1 ∧
          executed.1.status = .halted ∧ executed.1.result = some (.int 1)) = true :=
            by decide +kernel
  obtain ⟨image, himage, hok⟩ := exists_of_any hok
  obtain ⟨r, hfunction, hok⟩ := exists_of_any hok
  obtain ⟨hpaused, hcallers, hin, hdecode, hstack, hconstant, harity, hhalted, hresult⟩ :=
    of_decide_eq_true hok
  obtain ⟨c, hc⟩ := Program.function_found hfunction
  obtain rfl : c = 0 :=
    Option.some.inj ((Program.load_routines_found hc).2.symm.trans hconstant)
  clear hok
  generalize hm : (((Context.forMain (.load image) 0).start {}).run (.ofImage image {}) 5).2 = m
    at hcallers hin hdecode hstack hhalted hresult
  have hcall : m.CallsNext 0 [.int 0] 12 #[] := ⟨hin, hdecode, hstack⟩
  have hends : (Context.forCall r [.int 0] 1).Ends (.ofImage image {}) m.world (.value (.int 1)
      ((Context.forCall r [.int 0] 1).execute (.ofImage image {}) 10 m.world).2.heap) := by
    refine ⟨10, ?_⟩
    simp only [Context.outcome?, hhalted, hresult, Option.elim_some]
  have hprogram : (Setting.ofImage image {}).program = .load image := rfl
  have harity : r.arity = [Value.int 0].length := harity
  have hlimits : 0 < (Setting.ofImage image {}).limits.frames ∧
      (#[] : Array Value).size < (Setting.ofImage image {}).limits.stack := by
    show 0 < 1024 ∧ 0 < 65536
    decide
  obtain ⟨hvalue, -⟩ := forCall_agrees himage (by decide) hprogram rfl
    (fun _ hmem => absurd hmem (Array.not_mem_empty _)) hlimits.1 hfunction harity hc hcall
    (by decide) hlimits.2 ⟨rfl, rfl, rfl⟩ 1
  refine ⟨image, himage, r, m, _, hfunction, Prod.ext hpaused hm, hcall, hends, ?_⟩
  have hcalled := (hvalue _ _).mp hends
  rwa [hcallers] at hcalled

open Build in
/-- A function without code that should return a number. -/
def speechless : List Stmt :=
  [function "f" [] "int" [], expr (call "f" [])]

/-- Run in a context of its own it ends without a result, called from code it fails. -/
theorem forCall_differs : ∃ image, (Script.compile ⟨speechless⟩).1 = .ok image ∧ ∃ r,
    (Program.load image).function "f" = .ok r ∧
    (Context.forCall r [] 0).Ends (.ofImage image {}) {} .nothing ∧
    (Context.forMain (.load image) 1).Ends (.ofImage image {}) {}
      (.fault (.missingReturn "f()")) := by
  have hok : ((Script.compile ⟨speechless⟩).1).toOption.any (fun image =>
      ((Program.load image).function "f").toOption.any fun r =>
        let alone := (Context.forCall r [] 0).execute (.ofImage image {}) 10 {}
        let called := (Context.forMain (.load image) 1).execute (.ofImage image {}) 10 {}
        alone.1.status = .halted ∧ alone.1.result = none ∧ called.1.status = .failed ∧
          called.1.fault.map Fault.cause = some (.missingReturn "f()")) = true := by decide +kernel
  obtain ⟨image, himage, hok⟩ := exists_of_any hok
  obtain ⟨r, hfunction, hok⟩ := exists_of_any hok
  obtain ⟨hhalted, hresult, hfailed, hfault⟩ := of_decide_eq_true hok
  obtain ⟨f, hf, hcause⟩ := Option.map_eq_some_iff.mp hfault
  refine ⟨image, himage, r, hfunction, ⟨10, ?_⟩, ⟨10, ?_⟩⟩
  · simp only [Context.outcome?, hhalted, hresult, Option.elim_none]
  · simp only [Context.outcome?, hfailed, hf, Option.map_some, hcause]

end Bytescript
