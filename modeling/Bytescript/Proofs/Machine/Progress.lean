import Bytescript.Proofs.Machine.Activations
import Bytescript.Proofs.Machine.Contexts

/-!
# Progress through code

Runs that are followed instruction by instruction. A machine stands in front of an instruction of
its routine, with certain operands and slots (`Machine.Stands`); for each kind of instruction there
is a lemma that says where it stands one step later. Steps are put together with `Machine.Advances`,
which also keeps count of them from below: that a run goes on forever is seen from that count.
-/

namespace Bytescript

/-! ## Runs -/

namespace Machine

variable {env : Setting} {m m' : Machine} {P Q : Machine → Prop} {least more : Nat} {e : RunError}

/-- A machine comes, after some number of steps at least, to one with a property. -/
def Advances (env : Setting) (least : Nat) (m : Machine) (P : Machine → Prop) : Prop :=
  ∃ n m', least ≤ n ∧ m.run env n = (.paused, m') ∧ P m'

def Fails (env : Setting) (m : Machine) (e : RunError) : Prop :=
  ∃ n m', m.run env n = (.failed e, m')

namespace Advances

theorem refl (h : P m) : Advances env 0 m P := ⟨0, m, Nat.le_refl 0, rfl, h⟩

theorem step (hstep : Exec.step env m = .ok .next m') (h : P m') : Advances env 1 m P :=
  ⟨1, m', Nat.le_refl 1, run_of_step hstep 0, h⟩

theorem trans (h : Advances env least m P) (hP : ∀ m', P m' → Advances env more m' Q) :
    Advances env (least + more) m Q := by
  obtain ⟨n, m1, hn, hrun, hm1⟩ := h
  obtain ⟨n', m2, hn', hrun', hm2⟩ := hP m1 hm1
  exact ⟨n + n', m2, Nat.add_le_add hn hn', (run_add hrun n').trans hrun', hm2⟩

theorem of_le (h : Advances env more m P) (hle : least ≤ more) : Advances env least m P := by
  obtain ⟨n, m', hn, hrun, hm'⟩ := h
  exact ⟨n, m', hle.trans hn, hrun, hm'⟩

theorem mono (h : Advances env least m P) (hP : ∀ m', P m' → Q m') : Advances env least m Q := by
  obtain ⟨n, m', hn, hrun, hm'⟩ := h
  exact ⟨n, m', hn, hrun, hP m' hm'⟩

theorem fails (h : Advances env least m P) (hP : ∀ m', P m' → Fails env m' e) : Fails env m e := by
  obtain ⟨n, m1, -, hrun, hm1⟩ := h
  obtain ⟨n', m2, hrun'⟩ := hP m1 hm1
  exact ⟨n + n', m2, (run_add hrun n').trans hrun'⟩

end Advances

theorem Fails.of_step (hstep : Exec.step env m = .error e m') : Fails env m e :=
  ⟨1, m', by rw [run, hstep]⟩

end Machine

/-! ## Code in its place -/

/-- Code stands in a routine from an index on. -/
def Routine.HasCode (r : Routine) (b : Nat) (code : List Instruction) : Prop :=
  ∀ (j : Nat) i, code[j]? = some i → r.code[b + j]? = some i

namespace Routine.HasCode

variable {r : Routine} {b : Nat} {i : Instruction} {code left right : List Instruction}

theorem append (h : r.HasCode b (left ++ right)) :
    r.HasCode b left ∧ r.HasCode (b + left.length) right := by
  refine ⟨fun j i hi => ?_, fun j i hi => ?_⟩
  · have hlt := (getElem_of_getElem? hi).1
    exact h j i (by rw [List.getElem?_append_left hlt, hi])
  · rw [Nat.add_assoc]
    exact h _ i (by rw [List.getElem?_append_right (by omega), Nat.add_sub_cancel_left, hi])

theorem cons (h : r.HasCode b (i :: code)) : r.code[b]? = some i ∧ r.HasCode (b + 1) code := by
  refine ⟨h 0 i rfl, fun j i hi => ?_⟩
  rw [Nat.add_assoc, Nat.add_comm 1]
  exact h (j + 1) i hi

theorem one (h : r.HasCode b [i]) : r.code[b]? = some i := h.cons.1

theorem le_size (h : r.HasCode b code) (hb : b ≤ r.code.size) : b + code.length ≤ r.code.size := by
  rcases code.eq_nil_or_concat with rfl | ⟨front, i, rfl⟩
  · exact hb
  · have hi := h front.length i (by simp)
    have hlt := (getElem_of_getElem? hi).1
    simp only [List.concat_eq_append, List.length_append, List.length_singleton]
    omega

end Routine.HasCode

/-! ## Machines in front of an instruction -/

/-- A machine runs a routine above certain frames and is in front of the instruction with an index.
-/
structure Machine.At (m : Machine) (r : Routine) (callers : Array Frame) (k : Nat) : Prop where
  routine : m.frame.routine = r
  pc : r.body.offsets[k]? = some m.frame.pc
  callers_eq : m.callers = callers

/-- A machine is in front of an instruction and has certain slots and operands. -/
structure Machine.Stands (m : Machine) (r : Routine) (callers : Array Frame) (k : Nat)
    (slots : Array Value) (vs : List Value) : Prop extends m.At r callers k where
  slots_eq : m.frame.slots = slots
  operands : m.frame.operands = vs

namespace Machine.Stands

variable {env : Setting} {m : Machine} {r : Routine} {callers : Array Frame} {k j : Nat}
  {slots : Array Value}
  {vs rest : List Value} {i : Instruction} {v : Value} {op : Operation (List Value)} {kind : Kind}
  {slot : UInt16}

theorem at_index (hm : m.Stands r callers k slots vs) (hj : k = j) :
    m.Stands r callers j slots vs := hj ▸ hm

theorem put (hm : m.Stands r callers k slots vs) (w : World) :
    (m.put rest w).Stands r callers k slots rest :=
  ⟨⟨hm.routine, hm.pc, hm.callers_eq⟩, hm.slots_eq, m.put_operands rest w⟩

theorem goTo {pc : Nat} (hm : m.Stands r callers k slots vs) (hpc : r.body.offsets[j]? = some pc) :
    (m.goTo pc).Stands r callers j slots vs :=
      ⟨⟨hm.routine, hpc, hm.callers_eq⟩, hm.slots_eq, hm.operands⟩

variable (henc : Layout.Encodes r.code r.body) (hm : m.Stands r callers k slots vs)
  (hi : r.code[k]? = some i)

include henc hm hi

theorem fetch (env : Setting) : ∃ m', m'.Stands r callers (k + 1) slots vs ∧
    m'.world.Alike m.world ∧
    Exec.step env m = Exec.perform env (i.placed r.body.offsets) m' := by
  obtain ⟨⟨rfl, hpc, hcallers⟩, hslots, hoperands⟩ := hm
  obtain ⟨next, w, hnext, hw, -, hstep⟩ := step_eq_perform env henc hpc hi
  exact ⟨m.fetched next w, ⟨⟨rfl, hnext, hcallers⟩, hslots, hoperands⟩, hw, hstep⟩

/-- An instruction that computes leaves its results on the stack. -/
theorem computes {results : List Value} (hjump : i.jumpTarget? = none)
    (hf : Follows env.limits.stack (Exec.perform env i) vs rest op)
    (hop : ∀ w, op w = .ok results w)
    (hroom : rest.length + results.length ≤ env.limits.stack) :
    ∃ m', Exec.step env m = .ok .next m' ∧ m'.Stands r callers (k + 1) slots (results ++ rest) := by
  obtain ⟨m1, hm1, -, hstep⟩ := fetch henc hm hi env
  have hact := hf m1 m1.world
  rw [← hm1.operands, m1.put_self, hop] at hact
  simp only at hact
  rw [if_neg (by omega)] at hact
  rw [Instruction.placed_of_not_jump hjump] at hstep
  exact ⟨_, hstep.trans hact, hm1.put _⟩

theorem rejects {e : RunError} (hjump : i.jumpTarget? = none)
    (hf : Follows env.limits.stack (Exec.perform env i) vs rest op) (hop : ∀ w, op w = .error e w) :
    Machine.Fails env m e := by
  obtain ⟨m1, hm1, -, hstep⟩ := fetch henc hm hi env
  have hact := hf m1 m1.world
  rw [← hm1.operands, m1.put_self, hop] at hact
  obtain ⟨m', hm'⟩ := hact
  rw [Instruction.placed_of_not_jump hjump, hm'] at hstep
  exact .of_step hstep

omit hi

theorem load (hi : r.code[k]? = some (.load kind slot)) (hv : slots[slot.toNat]? = some v)
    (hroom : vs.length < env.limits.stack) :
    ∃ m', Exec.step env m = .ok .next m' ∧ m'.Stands r callers (k + 1) slots (v :: vs) := by
  obtain ⟨m1, hm1, -, hstep⟩ := fetch henc hm hi env
  rw [Instruction.placed_of_not_jump rfl, Exec.perform_load (hm1.slots_eq ▸ hv), Follows.push_next,
    ← Frame.operands_length, hm1.operands, if_neg (not_le.mpr hroom)] at hstep
  exact ⟨_, hstep, hm1.put _⟩

omit hm

theorem store (hm : m.Stands r callers k slots (v :: vs))
    (hi : r.code[k]? = some (.store kind slot))
    (hlt : slot.toNat < slots.size) (hkind : v.hasKind kind = true) :
    ∃ m', Exec.step env m = .ok .next m' ∧
      m'.Stands r callers (k + 1) (slots.setIfInBounds slot.toNat v) vs := by
  obtain ⟨m1, hm1, -, hstep⟩ := fetch henc hm hi env
  rw [Instruction.placed_of_not_jump rfl, Exec.perform_store (hm1.slots_eq ▸ hlt) hm1.operands
    hkind] at hstep
  refine ⟨_, hstep, ⟨hm1.routine, hm1.pc, hm1.callers_eq⟩, ?_, m1.put_operands vs m1.world⟩
  rw [← hm1.slots_eq]
  rfl

theorem jump (hm : m.Stands r callers k slots vs)
    (hi : r.code[k]? = some (.jump .always j.toUInt32)) (hj : j ≤ r.code.size) (env : Setting) :
    ∃ m', Exec.step env m = .ok .next m' ∧ m'.Stands r callers j slots vs := by
  obtain ⟨m1, hm1, -, hstep⟩ := fetch henc hm hi env
  obtain ⟨offset, hplaced, hoffset⟩ := henc.jump hi hj
  rw [hplaced] at hstep
  exact ⟨_, hstep, hm1.goTo hoffset⟩

theorem branch {trigger : Trigger} {n : Int64} (htrigger : trigger ≠ .always)
    (hm : m.Stands r callers k slots (.int n :: vs))
    (hi : r.code[k]? = some (.jump trigger j.toUInt32))
    (hj : j ≤ r.code.size) (env : Setting) : ∃ m', Exec.step env m = .ok .next m' ∧
      m'.Stands r callers (if trigger.test n then j else k + 1) slots vs := by
  obtain ⟨m1, hm1, -, hstep⟩ := fetch henc hm hi env
  obtain ⟨offset, hplaced, hoffset⟩ := henc.jump hi hj
  rw [hplaced, Exec.perform_branch htrigger hm1.operands] at hstep
  refine ⟨_, hstep, ?_⟩
  split
  · exact (hm1.put m1.world).goTo hoffset
  · exact hm1.put m1.world

end Machine.Stands

end Bytescript
