import Mathlib.Data.Nat.Find
import Bytescript.Proofs.Machine.Calls
import Bytescript.Proofs.Machine.Progress

/-!
# Passages

How a frame gets through a stretch of its code, in a machine of which nothing else is known. What it
calls may do anything to the world; its own slots and the values below those that the stretch works
on stay as they are.

A frame proceeds by whole instructions: a call counts as one, with everything that happens inside of
it (`Machine.Finishes`). `Machine.Passes` is a row of these at increasing indices, so that nothing
is done twice. Code that works on the stack is passed in this way by every run that gets behind it
(`StackCode.traverses`).
-/

namespace Bytescript

/-! ## Steps that succeed -/

theorem Frame.waiting_operands (f : Frame) (next arity : Nat) :
    (f.waiting next arity).operands = f.operands.drop arity := by
  simp [waiting, operands, List.drop_reverse]

namespace Machine.Stands

variable {T : Tables} {env : Setting} {m m' : Machine} {r : Routine} {callers : Array Frame}
  {k : Nat} {slots : Array Value} {vs : List Value} {i : Instruction} {v : Value}
  (henc : Layout.Encodes r.code r.body)

include henc

theorem operates (args : List Value) {rest : List Value}
    (hm : m.Stands r callers k slots (args ++ rest)) (hi : r.code[k]? = some i)
    (henv : env.Links T) {ins outs : List TypeId} (htakes : Takes T i ins outs)
    (hcall : ∀ c, i ≠ .call c)
    (hlen : args.length = ins.length) (hstep : Exec.step env m = .ok .next m') :
    ∃ results w, w.Alike m.world ∧ operate env i args w = .ok results m'.world ∧
      results.length = outs.length ∧ m'.Stands r callers (k + 1) slots (results ++ rest) := by
  obtain ⟨m1, hm1, hw, hperform⟩ := hm.fetch henc hi env
  rw [Instruction.placed_of_not_jump htakes.not_jump, hstep] at hperform
  have hcounts := (operate_spec henv htakes hcall hlen).2 m1.world
  have hact := (operate_spec henv htakes hcall hlen).1 rest m1 m1.world
  rw [← hm1.operands, m1.put_self, ← hperform] at hact
  unfold Operation.Ensures at hcounts
  cases hop : operate env i args m1.world with
  | ok results w' =>
    rw [hop] at hact hcounts
    simp only at hact
    split at hact
    · obtain ⟨_, hfull⟩ := hact
      cases hfull
    · cases hact
      exact ⟨results, m1.world, hw, hop, hcounts, hm1.put w'⟩
  | error e w' =>
    rw [hop] at hact
    obtain ⟨_, herror⟩ := hact
    cases herror

variable {kind : Kind} {slot : UInt16}

theorem loads (hm : m.Stands r callers k slots vs) (hi : r.code[k]? = some (.load kind slot))
    (hstep : Exec.step env m = .ok .next m') :
    ∃ v, slots[slot.toNat]? = some v ∧ m'.world.Alike m.world ∧
      m'.Stands r callers (k + 1) slots (v :: vs) := by
  obtain ⟨m1, hm1, hw, hperform⟩ := hm.fetch henc hi env
  rw [Instruction.placed_of_not_jump rfl, hstep] at hperform
  cases hv : m1.frame.slots[slot.toNat]? with
  | none =>
    have hread : Exec.readSlot slot m1 = .error (.badSlot slot m1.frame.slots.size) m1 := by
      have hget : (get : Exec Machine) m1 = .ok m1 m1 := rfl
      rw [Exec.readSlot, Exec.bind_of_ok hget, hv]
      rfl
    rw [Exec.perform, Exec.bind_of_error hread] at hperform
    cases hperform
  | some v =>
    rw [Exec.perform_load hv, Follows.push_next, hm1.operands] at hperform
    split at hperform
    · cases hperform
    · cases hperform
      exact ⟨v, hm1.slots_eq ▸ hv, hw, hm1.put _⟩

theorem stores (hm : m.Stands r callers k slots (v :: vs))
    (hi : r.code[k]? = some (.store kind slot)) (hstep : Exec.step env m = .ok .next m') :
    slot.toNat < slots.size ∧ m'.world.Alike m.world ∧
      m'.Stands r callers (k + 1) (slots.setIfInBounds slot.toNat v) vs := by
  obtain ⟨m1, hm1, hw, hperform⟩ := hm.fetch henc hi env
  rw [Instruction.placed_of_not_jump rfl, hstep] at hperform
  have heffect : Effect env m1 (.store kind slot) _ := Exec.effect_store
  rw [← hperform] at heffect
  cases heffect with
  | store hlt hargs _ =>
    cases hm1.operands.symm.trans hargs
    obtain ⟨hat, rfl, -⟩ := hm1
    exact ⟨hlt, hw, ⟨hat.routine, hat.pc, hat.callers_eq⟩, rfl, m1.put_operands _ m1.world⟩
  | plain hplain => cases hplain
  | ret hhands => cases hhands

theorem branches {trigger : Trigger} {target : Nat} (htrigger : trigger ≠ .always)
    (hm : m.Stands r callers k slots (v :: vs))
    (hi : r.code[k]? = some (.jump trigger target.toUInt32))
    (htarget : target ≤ r.code.size) (hstep : Exec.step env m = .ok .next m') :
    m'.Stands r callers target slots vs ∨ m'.Stands r callers (k + 1) slots vs := by
  cases hkind : v.hasKind .int with
  | true =>
    obtain ⟨n, rfl⟩ : ∃ n, v = .int n := by cases v <;> first | exact ⟨_, rfl⟩ | cases hkind
    obtain ⟨m1, hstep1, hm1⟩ := branch henc htrigger hm hi htarget env
    cases hstep.symm.trans hstep1
    split at hm1
    · exact .inl hm1
    · exact .inr hm1
  | false =>
    obtain ⟨m1, hm1, -, hperform⟩ := hm.fetch henc hi env
    obtain ⟨offset, hplaced, -⟩ := henc.jump hi htarget
    obtain ⟨m2, hm2⟩ := Exec.perform_branch_error env offset htrigger hm1.operands hkind
    rw [hplaced, hstep, hm2] at hperform
    cases hperform

end Machine.Stands

/-! ## Instructions with what they call -/

namespace Machine

/-- One instruction of the running frame has been carried out, with everything that it calls. -/
structure Finishes (env : Setting) (n : Nat) (m m' : Machine) : Prop where
  run : m.run env (n + 1) = (.paused, m')
  deep : ∀ j, 0 < j → j ≤ n → m.callers.size < (m.run env j).2.callers.size

/-- A frame goes through its code from one index to another, never back. -/
inductive Passes (env : Setting) (r : Routine) (callers : Array Frame) :
    Nat → Nat → Nat → Machine → Machine → Prop
  | done {k m} : m.At r callers k → Passes env r callers k k 0 m m
  | next {k k' e n n' m m1 m'} : m.At r callers k → k < k' → m.Finishes env n m1 →
    Passes env r callers k' e n' m1 m' → Passes env r callers k e (n + 1 + n') m m'

/-- A run never returns from its frame and ends in it at an index or behind it. -/
structure Clears (env : Setting) (r : Routine) (callers : Array Frame) (e n : Nat) (m : Machine) :
    Prop where
  ends : ∃ m' k, m.run env n = (.paused, m') ∧ m'.At r callers k ∧ e ≤ k
  keeps : ∀ j ≤ n, callers.size ≤ (m.run env j).2.callers.size

variable {env : Setting} {r : Routine} {callers : Array Frame} {b e k n : Nat} {m m1 m' : Machine}

theorem Finishes.of_step (h : Exec.step env m = .ok .next m') : m.Finishes env 0 m' :=
  ⟨run_of_step h 0, fun _ hpos hle => absurd hpos (not_lt.mpr hle)⟩

namespace Passes

theorem run (h : m.Passes env r callers b e n m') : m.run env n = (.paused, m') := by
  induction h with
  | done => rfl
  | next _ _ hfinishes _ ih => rw [run_add hfinishes.run, ih]

theorem trans {f n' : Nat} (h : m.Passes env r callers b e n m1)
    (h' : m1.Passes env r callers e f n' m') : m.Passes env r callers b f (n + n') m' := by
  induction h with
  | done => rwa [Nat.zero_add]
  | next hm hlt hfinishes _ ih =>
    rw [Nat.add_assoc]
    exact .next hm hlt hfinishes (ih h')

theorem of_finish (hm : m.At r callers b) (hlt : b < e) (h : m.Finishes env n m')
    (hm' : m'.At r callers e) :
    m.Passes env r callers b e (n + 1) m' := .next hm hlt h (.done hm')

theorem of_step (hm : m.At r callers b) (hlt : b < e) (h : Exec.step env m = .ok .next m')
    (hm' : m'.At r callers e) : m.Passes env r callers b e 1 m' := of_finish hm hlt (.of_step h) hm'

end Passes

namespace Clears

variable (h : m.Clears env r callers e n)

include h

theorem mono {e' : Nat} (hle : e' ≤ e) : m.Clears env r callers e' n := by
  obtain ⟨⟨m', k, hrun, hm', hk⟩, hkeeps⟩ := h
  exact ⟨⟨m', k, hrun, hm', hle.trans hk⟩, hkeeps⟩

/-- It can be followed from any of its machines on. -/
theorem after (hle : k ≤ n) :
    ∃ m1, m.run env k = (.paused, m1) ∧ m1.Clears env r callers e (n - k) := by
  obtain ⟨⟨m', index, hrun, hm', hindex⟩, hkeeps⟩ := h
  have hpaused : (m.run env k).1 = .paused := by
    by_contra hends
    rw [← run_stable hends hle, hrun] at hends
    exact hends rfl
  have hfirst : m.run env k = (.paused, (m.run env k).2) := Prod.ext hpaused rfl
  refine ⟨_, hfirst, ⟨m', index, ?_, hm', hindex⟩, fun j hj => ?_⟩
  · rw [← run_add hfirst, Nat.add_sub_cancel' hle, hrun]
  · rw [← run_add hfirst]
    exact hkeeps _ (by omega)

theorem passed {j : Nat} (hpasses : m.Passes env r callers b k j m')
    (hle : j ≤ n) : m'.Clears env r callers e (n - j) := by
  obtain ⟨m1, hrun, hclears⟩ := h.after hle
  obtain ⟨-, rfl⟩ := Prod.mk.inj (hpasses.run.symm.trans hrun)
  exact hclears

/-- In front of that index it takes a step. -/
theorem step (henc : Layout.Encodes r.code r.body)
    (hm : m.At r callers k) (hlt : k < e) : 0 < n ∧ ∃ m1, Exec.step env m = .ok .next m1 := by
  have hpos : 0 < n := by
    refine Nat.pos_of_ne_zero ?_
    rintro rfl
    obtain ⟨⟨m', index, hrun, hm', hindex⟩, -⟩ := h
    cases hrun
    obtain rfl := henc.offset_inj hm.pc hm'.pc
    exact absurd hlt (not_lt.mpr hindex)
  obtain ⟨m1, hrun, -⟩ := h.after hpos
  obtain ⟨_, hzero, hstep⟩ := run_paused hrun
  cases hzero
  exact ⟨hpos, m1, hstep⟩

/-- A call that is made on the way hands back a value. -/
theorem call (henc : Layout.Encodes r.code r.body) {slots : Array Value}
    {args rest : List Value} {c : UInt16} {callee : Routine}
    (hm : m.Stands r callers k slots (args ++ rest))
    (hi : r.code[k]? = some (.call c)) (hlt : k < e)
    (hcallee : env.program.routines[c]? = some callee)
    (hlen : args.length = callee.arity) : ∃ j v m', j < n ∧ m.Finishes env j m' ∧
      m'.Stands r callers (k + 1) slots (v :: rest) := by
  obtain ⟨hpos, m1, hstep⟩ := h.step henc hm.toAt hlt
  obtain ⟨_, hrun, hafter⟩ := h.after hpos
  obtain ⟨-, rfl⟩ := Prod.mk.inj ((run_of_step hstep 0).symm.trans hrun)
  obtain ⟨⟨rfl, hpc, rfl⟩, rfl, hoperands⟩ := hm
  obtain ⟨next, _, hnext, -, hdecode, -⟩ := step_eq_perform env henc hpc hi
  obtain ⟨callee', hcallee', -, -, -, -, -, -, hreturns⟩ := call_isolates hdecode hstep
  cases hcallee.symm.trans hcallee'
  -- The call is over when there are as many frames as before for the first time.
  have hback : ¬ m.callers.size < (m1.run env (n - 1)).2.callers.size := by
    obtain ⟨⟨m', index, hend, hm', -⟩, -⟩ := hafter
    rw [hend, hm'.callers_eq]
    exact lt_irrefl _
  obtain ⟨j, hle, hfound, hdeep⟩ : ∃ j ≤ n - 1, ¬ m.callers.size < (m1.run env j).2.callers.size ∧
      ∀ i < j, m.callers.size < (m1.run env i).2.callers.size := by
    classical
    have hex : ∃ j, ¬ m.callers.size < (m1.run env j).2.callers.size := ⟨_, hback⟩
    exact ⟨Nat.find hex, Nat.find_min' hex hback, Nat.find_spec hex,
      fun i hi => not_not.mp (Nat.find_min hex hi)⟩
  obtain ⟨m2, hm2, -⟩ := hafter.after hle
  rcases hreturns j hdeep with ⟨inner, hinner⟩ | ⟨_, _, v, -, -, -, -, -, hresumes⟩
  · rw [hinner, Array.size_append, Array.size_push] at hfound
    omega
  rw [hm2] at hresumes
  cases hresumes with
  | @handed id pc w hroom =>
    refine ⟨j, v, _, by omega, ⟨(run_of_step hstep j).trans hm2, fun i hi hle => ?_⟩,
      ⟨rfl, hnext, rfl⟩, rfl, ?_⟩
    · obtain ⟨i, rfl⟩ := Nat.exists_eq_succ_of_ne_zero (Nat.ne_of_gt hi)
      rw [Nat.succ_eq_add_one, run_of_step hstep]
      exact hdeep i hle
    · rw [Frame.operands, ← Frame.operands_push, List.toList_toArray, List.reverse_reverse,
        Frame.waiting_operands, hoperands, ← hlen, List.drop_left]

end Clears

end Machine

/-! ## Code that works on the stack -/

/-- Every run that gets behind a stretch of code passes through it, and puts values in the place of
the uppermost ones on the stack. -/
def Traverses (env : Setting) (r : Routine) (b e ins outs : Nat) : Prop :=
  ∀ ⦃callers slots vs rest n⦄ ⦃m : Machine⦄, m.Stands r callers b slots (vs ++ rest) →
  vs.length = ins →
    m.Clears env r callers e n → ∃ j m' vs', j ≤ n ∧ m.Passes env r callers b e j m' ∧
      m'.Stands r callers e slots (vs' ++ rest) ∧ vs'.length = outs

namespace Traverses

variable {env : Setting} {r : Routine} {b e k target ins mids outs : Nat}

theorem refl : Traverses env r e e ins ins := by
  intro callers slots vs rest n m hm hlen _
  exact ⟨0, m, vs, Nat.zero_le n, .done hm.toAt, hm, hlen⟩

theorem append (h : Traverses env r b k ins mids) (h' : Traverses env r k e mids outs)
    (hle : k ≤ e) : Traverses env r b e ins outs := by
  intro callers slots vs rest n m hm hlen hclears
  obtain ⟨j, m1, vs1, hj, hpasses, hm1, hlen1⟩ := h hm hlen (hclears.mono hle)
  obtain ⟨j', m', vs', hj', hpasses', hm', hlen'⟩ := h' hm1 hlen1 (hclears.passed hpasses hj)
  exact ⟨j + j', m', vs', by omega, hpasses.trans hpasses', hm', hlen'⟩

variable (henc : Layout.Encodes r.code r.body)

include henc

/-- One step, and the rest from where it leads to. -/
theorem step (hlt : k < e) (h : ∀ ⦃callers slots vs rest⦄ ⦃m m' : Machine⦄,
      m.Stands r callers k slots (vs ++ rest) → vs.length = ins → Exec.step env m = .ok .next m' →
      ∃ k' vs', k < k' ∧ m'.Stands r callers k' slots (vs' ++ rest) ∧
      Traverses env r k' e vs'.length outs) :
    Traverses env r k e ins outs := by
  intro callers slots vs rest n m hm hlen hclears
  obtain ⟨hpos, m1, hstep⟩ := hclears.step henc hm.toAt hlt
  obtain ⟨k', vs1, hk', hm1, hrest⟩ := h hm hlen hstep
  have hfirst := Machine.Passes.of_step hm.toAt hk' hstep hm1.toAt
  obtain ⟨j, m', vs', hj, hpasses, hm', hlen'⟩ := hrest hm1 rfl (hclears.passed hfirst hpos)
  exact ⟨1 + j, m', vs', by omega, hfirst.trans hpasses, hm', hlen'⟩

theorem load {kind : Kind} {slot : UInt16} (hi : r.code[k]? = some (.load kind slot)) :
    Traverses env r k (k + 1) ins (ins + 1) := by
  refine step henc (Nat.lt_succ_self k) fun callers slots vs rest m m' hm hlen hstep => ?_
  obtain ⟨v, -, -, hm'⟩ := hm.loads henc hi hstep
  exact ⟨k + 1, v :: vs, Nat.lt_succ_self k, hm', hlen ▸ refl⟩

theorem jump (hi : r.code[k]? = some (.jump .always target.toUInt32))
    (htarget : target ≤ r.code.size)
    (hlt : k < target) (hle : target ≤ e) (h : Traverses env r target e ins outs) :
    Traverses env r k e ins outs := by
  refine step henc (by omega) fun callers slots vs rest m m' hm hlen hstep => ?_
  obtain ⟨m1, hstep1, hm1⟩ := Machine.Stands.jump henc hm hi htarget env
  cases hstep.symm.trans hstep1
  exact ⟨target, vs, hlt, hm1, hlen ▸ h⟩

theorem branch {trigger : Trigger} (htrigger : trigger ≠ .always)
    (hi : r.code[k]? = some (.jump trigger target.toUInt32)) (htarget : target ≤ r.code.size)
    (hlt : k < target) (hle : target ≤ e) (htaken : Traverses env r target e ins outs)
    (hnext : Traverses env r (k + 1) e ins outs) : Traverses env r k e (ins + 1) outs := by
  refine step henc (by omega) fun callers slots vs rest m m' hm hlen hstep => ?_
  obtain ⟨v, vs, rfl⟩ := List.exists_cons_of_length_eq_add_one hlen
  obtain rfl := Nat.succ.inj hlen
  rcases hm.branches henc htrigger hi htarget hstep with hm' | hm'
  · exact ⟨target, vs, hlt, hm', htaken⟩
  · exact ⟨k + 1, vs, Nat.lt_succ_self k, hm', hnext⟩

end Traverses

/-- A setting whose calls find routines that take what they are given. -/
structure Setting.Answers (env : Setting) (T : Tables) : Prop extends env.Links T where
  calls : ∀ c ins outs, Takes T (.call c) ins outs →
    ∃ callee, env.program.routines[c]? = some callee ∧
    callee.arity = ins.length ∧ outs.length = 1

theorem Plan.Serves.answers {T : Tables} {strict : Prop} {P : Plan T strict} {env : Setting}
    (h : P.Serves env) : env.Answers T where
  toLinks := h.toLinks
  calls c ins outs htakes := by
    obtain ⟨callee, hcallee, rfl, rfl, -⟩ := h.calls c ins outs htakes
    exact ⟨callee, hcallee, by rw [List.length_reverse, Routine.arity], rfl⟩

section

variable {T : Tables} {H : Home} {Γ : Locals} {env : Setting} {r : Routine} {b : Nat}

theorem Traverses.plain (henv : env.Answers T) (henc : Layout.Encodes r.code r.body)
    {i : Instruction}
    {ins outs st : List TypeId} (htakes : Takes T i ins outs) (hi : r.code[b]? = some i) :
    Traverses env r b (b + 1) (ins ++ st).length (outs ++ st).length := by
  intro callers slots vs rest n m hm hlen hclears
  rw [List.length_append] at hlen
  obtain ⟨args, vs, rfl, hargs⟩ : ∃ args vs', vs = args ++ vs' ∧ args.length = ins.length :=
    ⟨vs.take ins.length, vs.drop ins.length, (List.take_append_drop _ _).symm, by simp; omega⟩
  rw [List.append_assoc] at hm
  by_cases hcall : ∃ c, i = .call c
  · obtain ⟨c, rfl⟩ := hcall
    obtain ⟨callee, hcallee, harity, houts⟩ := henv.calls c ins outs htakes
    obtain ⟨j, v, m', hj, hfinishes, hm'⟩ :=
      hclears.call henc hm hi (Nat.lt_succ_self b) hcallee (hargs.trans harity.symm)
    exact ⟨j + 1, m', v :: vs, hj, .of_finish hm.toAt (Nat.lt_succ_self b) hfinishes hm'.toAt,
      hm', by
      simp only [List.length_append, List.length_cons] at hlen ⊢
      omega⟩
  · obtain ⟨hpos, m', hstep⟩ := hclears.step henc hm.toAt (Nat.lt_succ_self b)
    obtain ⟨results, w, -, -, hresults, hm'⟩ :=
      hm.operates henc _ hi henv.toLinks htakes (fun c hc => hcall ⟨c, hc⟩) hargs hstep
    rw [← List.append_assoc] at hm'
    exact ⟨1, m', results ++ vs, hpos, .of_step hm.toAt (Nat.lt_succ_self b) hstep hm'.toAt, hm', by
      simp only [List.length_append] at hlen ⊢
      omega⟩

theorem StackCode.traverses {code : List Instruction} {ins outs : List TypeId}
    (h : StackCode T H Γ b code ins outs) (henv : env.Answers T)
    (henc : Layout.Encodes r.code r.body)
    (hcode : r.HasCode b code) : Traverses env r b (b + code.length) ins.length outs.length := by
  induction h with
  | skip hserves =>
    rw [hserves.length_eq]
    exact .refl
  | plain htakes => exact .plain henv henc htakes hcode.one
  | named _ _ => exact .load henc hcode.one
  | self _ _ => exact .load henc hcode.one
  | append _ _ ih ih' =>
    obtain ⟨hc, hd⟩ := hcode.append
    have hboth := (ih hc).append (ih' hd) (Nat.le_add_right _ _)
    rwa [Nat.add_assoc, ← List.length_append] at hboth
  | @shortcut b other stop op trigger short cl cr st hop _ _ hother hstop ihl ihr =>
    have htrigger : trigger ≠ .always := by
      rintro rfl
      cases op <;> simp [Lower.shortcut?] at hop
    obtain ⟨hl, hrest⟩ := hcode.append
    obtain ⟨hfirst, hrest⟩ := hrest.cons
    obtain ⟨hr, hrest⟩ := hrest.append
    obtain ⟨hsecond, hrest⟩ := hrest.cons
    obtain ⟨hlong, hrest⟩ := hrest.cons
    obtain ⟨hjump, hrest⟩ := hrest.cons
    have hshort := hrest.one
    have hlt := (getElem_of_getElem? hshort).1
    have hend : b + (cl ++ .jump trigger other.toUInt32 :: (cr ++ [.jump trigger other.toUInt32,
        boolByte !short, .jump .always stop.toUInt32, boolByte short])).length = stop := by
      simp
      omega
    rw [hend]
    subst hother hstop
    have hpush : ∀ {k : Nat} {c : Bool}, r.code[k]? = some (boolByte c) →
        Traverses env r k (k + 1) st.length (st.length + 1) :=
          fun hk => .plain henv henc .pushBool hk
    have hdecided := hpush hshort
    have hopen := (hpush hlong).append (.jump henc hjump (by omega) (by omega) le_rfl .refl)
      (by omega)
    have hright := (ihr hr).append (.branch henc htrigger hsecond (by omega) (by omega) (by omega)
      hdecided hopen) (by omega)
    exact (ihl hl).append (.branch henc htrigger hfirst (by omega) (by omega)
      (by omega) hdecided hright) (by omega)

end

end Bytescript
