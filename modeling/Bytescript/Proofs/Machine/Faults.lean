import Bytescript.Proofs.Machine.Calls
import Bytescript.Proofs.Machine.Contexts
import Bytescript.Proofs.Routines

/-!
# Where faults are reported

A context that fails records a routine and an offset. A machine that runs compiled code always
stands at the start of an instruction or at the end of the code (`Machine.Placed`), and how it got
there from the machine before is one of three ways (`Machine.Comes`). From that follows what a fault
says: the routine and the instruction at fault, save in two cases.

* A result for which the caller has no room is reported in the caller, at the offset of the
instruction that returns in the routine it called.
* A routine without any code runs past its end before it has executed anything, and what is reported
is the offset of the call.
-/

namespace Bytescript

/-! ## Frames at instructions -/

/-- A frame at the start of an instruction, or at the end. -/
structure Frame.Placed (f : Frame) : Prop where
  finished : f.routine.Finished
  offset : ∃ k : Nat, f.routine.body.offsets[k]? = some f.pc

/-- A frame right behind a call. -/
structure Frame.Called (f : Frame) : Prop where
  finished : f.routine.Finished
  behind : ∃ (k : Nat) (c : UInt16), f.routine.code[k]? = some (.call c) ∧
    f.routine.body.offsets[k + 1]? = some f.pc

variable {f : Frame} {callers : Array Frame}

theorem Frame.Called.placed (h : f.Called) : f.Placed := by
  obtain ⟨k, -, -, hk⟩ := h.behind
  exact ⟨h.finished, k + 1, hk⟩

/-- Compiled code does not end with a call. -/
theorem Frame.Called.pc_lt (h : f.Called) : f.pc < f.routine.body.bytes.size := by
  obtain ⟨k, c, hc, hk⟩ := h.behind
  rcases h.finished.encoded.reads hk with ⟨_, _, -, -, hlt, -⟩ | ⟨hend, -⟩
  · exact hlt
  · refine absurd ?_ (h.finished.quiet c)
    rw [Array.back?_eq_getElem?, ← hend]
    exact hc

/-- Every frame but the innermost is right behind a call, and the frame above goes back to there. -/
inductive Chained : Frame → Array Frame → Prop
  | outermost {f : Frame} : Chained f #[]
  | call {f caller callers} : f.returnAddress = caller.pc → caller.Called →
    Chained caller callers → Chained f (callers.push caller)

theorem Chained.congr {g : Frame} (h : Chained f callers)
    (hback : g.returnAddress = f.returnAddress) : Chained g callers := by
  cases h with
  | outermost => exact .outermost
  | call haddress hcalled hrest => exact .call (hback.trans haddress) hcalled hrest

theorem Chained.caller {caller : Frame} (h : Chained f (callers.push caller)) :
    f.returnAddress = caller.pc ∧ caller.Called ∧ Chained caller callers := by
  generalize hcallers : callers.push caller = all at h
  cases h with
  | outermost => simp at hcallers
  | call haddress hcalled hrest =>
    obtain ⟨rfl, rfl⟩ := Array.push_eq_push.mp hcallers
    exact ⟨haddress, hcalled, hrest⟩

/-- A machine that runs compiled code. -/
structure Machine.Placed (m : Machine) : Prop where
  frame : m.frame.Placed
  callers : Chained m.frame m.callers

/-- A program all of whose routines are finished. -/
structure Program.Finished (p : Program) : Prop where
  main : p.main.Finished
  routines : ∀ (c : UInt16) r, p.routines[c]? = some r → r.Finished

theorem Program.load_finished {image : Image}
    (h : image.main.Finished ∧ ∀ r ∈ image.routines, r.Finished) :
    (Program.load image).Finished where
  main := h.1
  routines _ r hr := h.2 r (load_routines_found hr).1

/-! ## Steps -/

/-- How a machine has come from the one before: it is in the same frame and has executed an
instruction there; or it is at the start of a routine that has been called; or back behind a call.
-/
inductive Machine.Comes (m₁ m : Machine) : Prop
  | stays : m.callers = m₁.callers → m.frame.routine = m₁.frame.routine → m.pc = m₁.frame.pc →
    m₁.frame.pc < m₁.frame.routine.body.bytes.size → Comes m₁ m
  | enters {c next} :
    m₁.ahead = .ok (.call c, next) → m.pc = m₁.frame.pc →
    m.frame.pc = 0 → Comes m₁ m
  | returns : m.frame.Called → Comes m₁ m

section

variable {env : Setting} {m m1 m' : Machine}

/-- What stands where a machine stands. -/
theorem Machine.Placed.reads (hm : m.Placed) {i : Instruction} {next : Nat}
    (hdecode : m.ahead = .ok (i, next))
    (hin : m.frame.pc < m.frame.routine.body.bytes.size) :
    ∃ (k : Nat) (i0 : Instruction), m.frame.routine.code[k]? = some i0 ∧
    m.frame.routine.body.offsets[k]? = some m.frame.pc ∧
      m.frame.routine.body.offsets[k + 1]? = some next ∧
      i = i0.placed m.frame.routine.body.offsets := by
  obtain ⟨k, hk⟩ := hm.frame.offset
  obtain ⟨i0, hi0, hnext, hi⟩ := hm.frame.finished.encoded.reads_lt hk hin hdecode
  exact ⟨k, i0, hi0, hk, hnext, hi⟩

/-- A step goes from the start of an instruction to the start of another one, or to the end. -/
theorem Machine.Placed.step (hp : env.program.Finished) (hm : m1.Placed)
    (hstep : Exec.step env m1 = .ok .next m) : m.Placed ∧ m1.Comes m := by
  obtain ⟨i, next, w, hin, hdecode, heffect⟩ := Exec.step_next hstep
  obtain ⟨k, i0, hi0, hk, hnext, hi⟩ := hm.reads hdecode hin
  have hfinished := hm.frame.finished
  cases heffect with
  | plain | store | stay =>
    exact ⟨⟨⟨hfinished, k + 1, hnext⟩, hm.callers.congr rfl⟩, .stays rfl rfl rfl hin⟩
  | @jump trigger target vs w' =>
    obtain ⟨target0, rfl⟩ := Instruction.eq_jump_of_placed hi
    have htarget := hfinished.encoded.target k _ _ hi0 rfl
    rw [← hi] at htarget
    exact ⟨⟨⟨hfinished, _, htarget.symm⟩, hm.callers.congr rfl⟩, .stays rfl rfl rfl hin⟩
  | @call c callee hcallee hdeep harity =>
    have hcallee := hp.routines c callee hcallee
    obtain rfl := Instruction.eq_of_placed hi rfl
    refine ⟨⟨⟨hcallee, 0, hcallee.encoded.zero⟩, .call rfl ⟨hfinished, k, c, hi0, hnext⟩ ?_⟩,
      .enters hdecode rfl rfl⟩
    exact hm.callers.congr rfl
  | @ret _ v callers caller hhands hcallers hroom =>
    have hchain : Chained m1.frame (callers.push caller) := hcallers ▸ hm.callers
    obtain ⟨haddress, hcalled, hrest⟩ := hchain.caller
    have hcalled : Frame.Called { caller with
        pc := m1.frame.returnAddress, stack := caller.stack.push v } := by
      rw [haddress]
      exact ⟨hcalled.finished, hcalled.behind⟩
    exact ⟨⟨hcalled.placed, hrest.congr rfl⟩, .returns hcalled⟩

end

theorem Context.Spawned.placed {p : Program} (hp : p.Finished) {c : Context} (h : c.Spawned p)
    (w : World) : (c.start w).Placed := by
  cases h with
  | main => exact ⟨⟨hp.main, 0, hp.main.encoded.zero⟩, .outermost⟩
  | call hfunction =>
    obtain ⟨c, hc⟩ := Program.function_found hfunction
    have hr := hp.routines c _ hc
    exact ⟨⟨hr, 0, hr.encoded.zero⟩, .outermost⟩

/-! ## Faults -/

/-- An instruction of a routine starts at an offset. -/
def Routine.Starts (r : Routine) (pc : Nat) : Prop :=
  ∃ (k : Nat) (i : Instruction), r.code[k]? = some i ∧ r.body.offsets[k]? = some pc

/-- The last instruction that has been read in the innermost frame, after so many steps: the one
that the machine is about to execute, or at the end of the code the one that it has executed in the
step before. -/
inductive LastRead (env : Setting) (start : Machine) : Nat → Machine → Nat → Prop
  | now {n m} : m.frame.pc < m.frame.routine.body.bytes.size →
    LastRead env start n m m.frame.pc
  | before {n m m1} : m.frame.pc = m.frame.routine.body.bytes.size →
    start.run env n = (.paused, m1) → m.callers = m1.callers → m.frame.routine = m1.frame.routine →
    m1.frame.pc < m1.frame.routine.body.bytes.size → LastRead env start (n + 1) m m1.frame.pc

/-- The two ways in which a fault is reported in the wrong place, where a machine fails after so
many steps. -/
inductive Fault.Misplaced (f : Fault) (env : Setting) (start : Machine) : Nat → Machine → Prop
  | unreceived {n : Nat} {m : Machine} {v : Value} {callers : Array Frame} {caller : Frame} :
    f.cause = .stackOverflow env.limits.stack → m.Hands v → m.callers = callers.push caller →
    env.limits.stack ≤ caller.stack.size → f.routine = caller.routine.name → f.pc = m.frame.pc →
    Misplaced f env start n m
  | unstarted {n m m1 c next} :
    f.cause = .missingReturn m.frame.routine.name → m.frame.routine.code = #[] →
    f.routine = m.frame.routine.name → start.run env n = (.paused, m1) →
    m1.ahead = .ok (.call c, next) → f.pc = m1.frame.pc →
    Misplaced f env start (n + 1) m

/-- A fault is reported in the right place: in the frame whose step has failed, at the last
instruction that has been read there. -/
structure Fault.Points (f : Fault) (env : Setting) (start : Machine) (n : Nat) (m : Machine) :
    Prop where
  routine : f.routine = m.frame.routine.name
  mark : f.mark = m.frame.routine.markAt f.pc
  starts : m.frame.routine.Starts f.pc
  last : LastRead env start n m f.pc

section

variable {env : Setting} {start m m' : Machine} {n : Nat} {f : Fault}

theorem Machine.Placed.starts (hm : m.Placed) (hin : m.frame.pc < m.frame.routine.body.bytes.size) :
    m.frame.routine.Starts m.frame.pc := by
  obtain ⟨k, hk⟩ := hm.frame.offset
  rcases hm.frame.finished.encoded.reads hk with ⟨i, _, hi, -⟩ | ⟨-, hend⟩
  · exact ⟨k, i, hi, hk⟩
  · exact absurd hin (not_lt.mpr (Nat.le_of_eq hend.symm))

/-- A machine has run past the end of a routine that was called: either it has executed an
instruction of the routine in the step before, or the routine has none. -/
theorem Fault.of_past (hp : env.program.Finished) (hstart : start.Placed)
    (hcallers : start.callers = #[])
    (hrun : start.run env n = (.paused, m)) (hpast : m.frame.routine.body.bytes.size ≤ m.frame.pc)
    (hcalled : m.callers ≠ #[]) (hcause : f.cause = .missingReturn m.frame.routine.name)
    (hroutine : f.routine = m.frame.routine.name) (hpc : f.pc = m.pc)
    (hmark : f.mark = m.frame.routine.markAt m.pc) :
    f.Points env start n m ∨ f.Misplaced env start n m := by
  cases n with
  | zero =>
    cases hrun
    exact absurd hcallers hcalled
  | succ n =>
    obtain ⟨m1, hm1, hstep⟩ := Machine.run_paused hrun
    have hplaced := Machine.run_keeps (fun _ _ hm h => (Machine.Placed.step hp hm h).1) hstart hm1
    obtain ⟨hm, hcomes⟩ := hplaced.step hp hstep
    obtain ⟨k, hk⟩ := hm.frame.offset
    have hend : m.frame.pc = m.frame.routine.body.bytes.size :=
      le_antisymm (hm.frame.finished.encoded.offset_le hk) hpast
    cases hcomes with
    | stays hsame hroutine1 hpc1 hin =>
      refine .inl ⟨hroutine, by rw [hpc]; exact hmark, ?_, ?_⟩
      · rw [hpc, hpc1, hroutine1]
        exact hplaced.starts hin
      · rw [hpc, hpc1]
        exact .before hend hm1 hsame hroutine1 hin
    | enters hdecode hpc1 hzero =>
      refine .inr (.unstarted hcause ?_ hroutine hm1 hdecode (hpc.trans hpc1))
      have hencoded := hm.frame.finished.encoded
      have hlast := hencoded.last
      rw [← hend, hzero] at hlast
      exact Array.eq_empty_of_size_eq_zero (hencoded.offset_inj hencoded.zero hlast).symm
    | returns hcalled => exact absurd hcalled.pc_lt (not_lt.mpr hpast)

/-- Where a machine that runs compiled code fails, the fault is in the right place, or misplaced in
one of the two ways. -/
theorem Fault.of_step (hp : env.program.Finished) (hstart : start.Placed)
    (hcallers : start.callers = #[])
    (hrun : start.run env n = (.paused, m)) (hstep : Exec.step env m = .error f.cause m')
    (hroutine : f.routine = m'.frame.routine.name) (hpc : f.pc = m'.pc)
    (hmark : f.mark = m'.frame.routine.markAt m'.pc) :
    f.Points env start n m ∨ f.Misplaced env start n m := by
  have hm := Machine.run_keeps (fun _ _ hm h => (Machine.Placed.step hp hm h).1) hstart hrun
  have hsteps := Exec.step_steps env m
  rw [hstep] at hsteps
  generalize hresult : (.error f.cause m' : EStateM.Result RunError Machine Flow) = result at hsteps
  cases hsteps with
  | done => cases hresult
  | past hpast hcalled =>
    obtain ⟨hcause, rfl⟩ := EStateM.Result.error.inj hresult
    exact of_past hp hstart hcallers hrun hpast hcalled hcause hroutine hpc hmark
  | garbled hin hdecode =>
    obtain ⟨k, hk⟩ := hm.frame.offset
    rcases hm.frame.finished.encoded.reads hk with ⟨_, _, -, -, -, hread⟩ | ⟨-, hend⟩
    · cases hread.symm.trans hdecode
    · exact absurd hin (not_lt.mpr (Nat.le_of_eq hend.symm))
  | @performs i next w _ hin hdecode hheap heffect =>
    cases heffect with
    | fails =>
      obtain ⟨-, rfl⟩ := EStateM.Result.error.inj hresult
      refine .inl ⟨hroutine, by rw [hpc]; exact hmark, ?_, ?_⟩
      · rw [hpc]
        exact hm.starts hin
      · rw [hpc]
        exact .now hin
    | @overflow _ v callers caller hhands hpush hroom =>
      obtain ⟨hcause, rfl⟩ := EStateM.Result.error.inj hresult
      refine .inr (.unreceived hcause ⟨i, next, hdecode, hhands.congr rfl rfl⟩ hpush hroom hroutine
        hpc)
    | plain | stop | store | stay | jump | call | ret | leave => cases hresult

end

/-- Where a context that runs a compiled script fails. The run has come to a machine whose step
fails. If the fault is not one of the two that are misplaced, it names the routine of the innermost
frame of that machine and the start of the last instruction that has been read in this frame. -/
theorem execute_fault_located {items : List Stmt} {options : CompileOptions} {types : TypeTable}
    {journal : Journal} {image : Image} (h : (Script.compile ⟨items⟩ options types journal).1 =
      .ok image)
    {env : Setting} (henv : env.program = .load image) {c : Context} (hc : c.Spawned env.program)
    {fuel : Nat} {w : World} {f : Fault} (hf : (c.execute env fuel w).1.fault = some f) :
    ∃ n m m', (c.start w).run env n = (.paused, m) ∧ Exec.step env m = .error f.cause m' ∧
      (f.Points env (c.start w) n m ∨ f.Misplaced env (c.start w) n m) := by
  have hp : env.program.Finished := henv ▸ Program.load_finished (compile_finished h)
  rw [hc.execute_eq] at hf
  obtain ⟨hending, hroutine, hpc, hmark⟩ := Context.settle_fault hf
  obtain ⟨n, m, hrun, hstep⟩ := Machine.run_failed (Prod.ext hending rfl)
  exact ⟨n, m, _, hrun, hstep, Fault.of_step hp (hc.placed hp w) (hc.callers_eq w) hrun hstep
    hroutine hpc hmark⟩

open Build in
/-- A function that divides by its parameter is called with zero. -/
def quotient : List Stmt :=
  [function "f" [("int", "a")] "int" [ret (some (binary (.arith .div) (int 1) (ident "a")))],
    expr (call "f" [int 0])]

theorem execute_fault_located_quotient : ∃ image, (Script.compile ⟨quotient⟩).1 = .ok image ∧
    ∃ f n m m', ((Context.forMain (.load image) 0).execute (.ofImage image {}) 100 {}).1.fault =
      some f ∧
      ((Context.forMain (.load image) 0).start {}).run (.ofImage image {}) n = (.paused, m) ∧
      Exec.step (.ofImage image {}) m = .error f.cause m' ∧ f.cause = .divisionByZero ∧
      f.Points (.ofImage image {}) ((Context.forMain (.load image) 0).start {}) n m := by
  have hok : ((Script.compile ⟨quotient⟩).1).toOption.any (fun image =>
      ((Context.forMain (.load image) 0).execute (.ofImage image {}) 100 {}).1.fault.any
        (·.cause = .divisionByZero)) = true := by decide +kernel
  obtain ⟨image, himage, hok⟩ := exists_of_any hok
  obtain ⟨f, hf, hcause⟩ := (Option.any_eq_true _ _).mp hok
  have hcause := of_decide_eq_true hcause
  obtain ⟨n, m, m', hrun, hstep, hpoints | hmisplaced⟩ := execute_fault_located himage rfl .main hf
  · exact ⟨image, himage, f, n, m, m', hf, hrun, hstep, hcause, hpoints⟩
  · cases hmisplaced with
    | unreceived h => cases hcause.symm.trans h
    | unstarted h => cases hcause.symm.trans h

open Build in
/-- The result of a call comes third on a stack for two. -/
def crowded : List Stmt :=
  [function "f" [] "int" [ret (some (int 300))],
    var "int" "x" (some (binary (.arith .add) (int 1)
      (binary (.arith .add) (int 2) (call "f" []))))]

/-- The function returns, and the top-level code is reported. -/
theorem execute_fault_misplaced : ∃ image, (Script.compile ⟨crowded⟩).1 = .ok image ∧
    ∃ f n m m', ((Context.forMain (.load image) 0).execute (.ofImage image ⟨1024, 2⟩) 100
      {}).1.fault = some f ∧
      ((Context.forMain (.load image) 0).start {}).run (.ofImage image ⟨1024, 2⟩) n = (.paused, m) ∧
      Exec.step (.ofImage image ⟨1024, 2⟩) m = .error f.cause m' ∧ m.frame.routine.name = "f()" ∧
      f.routine = "<top-level>" ∧
      ¬ f.Points (.ofImage image ⟨1024, 2⟩) ((Context.forMain (.load image) 0).start {}) n m := by
  have hok : ((Script.compile ⟨crowded⟩).1).toOption.any (fun image =>
      ((Context.forMain (.load image) 0).execute (.ofImage image ⟨1024, 2⟩) 100 {}).1.fault.any
          fun f =>
        let reached := ((Context.forMain (.load image) 0).start {}).run (.ofImage image ⟨1024, 2⟩) 4
        reached.1 = .paused ∧ (reached.2.run (.ofImage image ⟨1024, 2⟩) 1).1 = .failed f.cause ∧
          reached.2.frame.routine.name = "f()" ∧ f.routine = "<top-level>") = true :=
            by decide +kernel
  obtain ⟨image, himage, hok⟩ := exists_of_any hok
  obtain ⟨f, hf, hreached⟩ := (Option.any_eq_true _ _).mp hok
  obtain ⟨hpaused, hfails, hname, hroutine⟩ := of_decide_eq_true hreached
  obtain ⟨m', hstep⟩ := Machine.step_of_run_one hfails
  refine ⟨image, himage, f, 4, _, m', hf, Prod.ext hpaused rfl, hstep, hname, hroutine,
    fun hpoints => ?_⟩
  have hsame := hpoints.routine
  rw [hname, hroutine] at hsame
  exact absurd hsame (by decide)

end Bytescript
