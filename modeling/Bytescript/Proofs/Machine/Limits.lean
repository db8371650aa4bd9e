import Bytescript.Proofs.Lowering.Steps
import Bytescript.Proofs.Machine.Contexts

/-!
# Limits

Whatever code a program has, a context that runs it keeps to the limits of its setting: on the
number of frames, and on the operand stack of each frame. Only what a call lays onto the stack of a
new frame, the return address and the arguments, is not counted. `Exec.step_within` says it of a
step, also of one that fails half-way, and `Machine.run_within` of a run.
-/

namespace Bytescript

variable {limits : Limits} {env : Setting}

/-! ## Frames -/

/-- A frame that has the slots of its routine and keeps to the limit of the operand stack. -/
structure Frame.Within (limits : Limits) (f : Frame) : Prop where
  slots : f.slots.size = f.routine.slots
  stack : f.stack.size ≤ max limits.stack (1 + f.routine.arity)

theorem Frame.enter_within {r : Routine} {back : Nat} {stack : Array Value}
    (h : stack.size ≤ 1 + r.arity) : (Frame.enter r back stack).Within limits where
  slots := Array.size_replicate
  stack := Nat.le_trans h (Nat.le_max_right ..)

theorem Frame.call_within {r : Routine} {back : Nat} {args : Array Value}
    (h : args.size ≤ r.arity) : (Frame.call r back args).Within limits := by
  apply enter_within
  rw [Array.size_append, Array.size_reverse]
  exact Nat.add_le_add_left h 1

/-! ## Steps -/

/-- A machine all of whose frames keep to the limits, and that has not more of them than there may
be. -/
structure Machine.Within (limits : Limits) (m : Machine) : Prop where
  depth : m.callers.size + 1 ≤ max 1 limits.frames
  frame : m.frame.Within limits
  callers : ∀ f ∈ m.callers, f.Within limits

namespace Machine.Within

variable {m : Machine}

theorem fetched (h : m.Within limits) (next : Nat) (w : World) : (m.fetched next w).Within limits :=
  ⟨h.depth, ⟨h.frame.slots, h.frame.stack⟩, h.callers⟩

theorem put {vs : List Value} (h : m.Within limits)
    (hvs : vs.length ≤ max limits.stack m.frame.operands.length)
    (w : World) : (m.put vs w).Within limits := by
  refine ⟨h.depth, ⟨h.frame.slots, ?_⟩, h.callers⟩
  have hstack := h.frame.stack
  rw [m.frame.operands_length] at hvs
  show vs.reverse.toArray.size ≤ max limits.stack (1 + m.frame.routine.arity)
  rw [List.size_toArray, List.length_reverse]
  omega

/-- The innermost frame is gone, and its caller goes on with its stack as it was or with a result on
it. -/
theorem back {callers : Array Frame} {caller : Frame} {stack : Array Value} (h : m.Within limits)
    (hcallers : m.callers = callers.push caller)
    (hstack : stack.size ≤ max limits.stack caller.stack.size)
    (pc : Nat) : Machine.Within limits ⟨m.id, { caller with pc, stack }, callers, m.pc,
      m.world⟩ := by
  obtain ⟨hdepth, -, hall⟩ := h
  rw [hcallers] at hdepth hall
  rw [Array.size_push] at hdepth
  have hcaller := hall caller Array.mem_push_self
  refine ⟨Nat.le_of_succ_le hdepth, ⟨hcaller.slots, ?_⟩,
    fun f hf => hall f (Array.mem_push_of_mem _ hf)⟩
  have hle := hcaller.stack
  dsimp only
  omega

end Machine.Within

variable {m : Machine}

/-- Whatever an instruction does, and however it ends. -/
theorem Effect.within {i : Instruction} {result : EStateM.Result RunError Machine Flow}
    (h : Effect env m i result)
    (hm : m.Within env.limits) : (Exec.left result).Within env.limits := by
  cases h with
  | stop => exact hm
  | plain _ hvs | stay _ hvs | fails _ hvs => exact hm.put hvs _
  | leave _ _ hvs => exact hm.put (Nat.le_trans hvs (Nat.le_max_right ..)) _
  | jump hvs =>
    obtain ⟨hdepth, hframe, hcallers⟩ := hm.put hvs m.world
    exact ⟨hdepth, ⟨hframe.slots, hframe.stack⟩, hcallers⟩
  | @store _ slot v rest _ hoperands _ =>
    have hrest : rest.length ≤ max env.limits.stack m.frame.operands.length := by
      rw [hoperands, List.length_cons]
      omega
    obtain ⟨hdepth, hframe, hcallers⟩ := hm.put hrest m.world
    exact ⟨hdepth, ⟨Array.size_setIfInBounds.trans hframe.slots, hframe.stack⟩, hcallers⟩
  | call _ hdeep harity =>
    refine ⟨?_, Frame.call_within ?_, fun f hf => ?_⟩
    · show (m.callers.push _).size + 1 ≤ _
      rw [Array.size_push]
      omega
    · rw [Array.size_extract]
      omega
    · rcases Array.mem_push.mp hf with hf | rfl
      · exact hm.callers f hf
      · have hstack := hm.frame.stack
        refine ⟨hm.frame.slots, ?_⟩
        rw [Array.size_shrink]
        dsimp only
        omega
  | ret _ hcallers hroom =>
    refine hm.back hcallers ?_ _
    rw [Array.size_push]
    omega
  | overflow _ hcallers => exact hm.back hcallers (Nat.le_max_right ..) _

theorem Exec.step_within (hm : m.Within env.limits) : (left (step env m)).Within env.limits := by
  have hsteps := step_steps env m
  generalize step env m = result at hsteps
  cases hsteps with
  | done | past | garbled => exact hm
  | performs _ _ _ heffect => exact heffect.within (hm.fetched _ _)

theorem Machine.run_within (hm : m.Within env.limits) (fuel : Nat) :
    (m.run env fuel).2.Within env.limits := by
  induction fuel generalizing m with
  | zero => exact hm
  | succ fuel ih =>
    have hstep := Exec.step_within hm
    rw [run]
    generalize Exec.step env m = result at hstep
    cases result with
    | error e m' => exact hstep
    | ok flow m' =>
      cases flow with
      | next => exact ih hstep
      | halt | leave => exact hstep

/-! ## Contexts -/

namespace Context

structure Within (limits : Limits) (c : Context) : Prop where
  depth : c.frames.size ≤ max 1 limits.frames
  frames : ∀ f ∈ c.frames, f.Within limits

variable {c : Context} {w : World}

theorem settle_within (hm : m.Within limits) (isMain : Bool) (ending : Ending) :
    (settle isMain ending m).1.Within limits := by
  have hall : ∀ f ∈ m.callers.push m.frame, f.Within limits := fun f hf => by
    rcases Array.mem_push.mp hf with hf | rfl
    · exact hm.callers f hf
    · exact hm.frame
  have hdepth := hm.depth
  cases ending with
  | returned v => exact ⟨Nat.le_of_succ_le hdepth, hm.callers⟩
  | paused | halted | failed => exact ⟨by rw [← Array.size_push m.frame] at hdepth; exact hdepth,
    hall⟩

theorem Within.run (h : c.Within env.limits) (fuel : Nat) (w : World) :
    (c.run env fuel w).1.Within env.limits := by
  obtain ⟨id, isMain, status, frames, pc, result, fault⟩ := c
  rw [Context.run]
  cases hback : frames.back? with
  | none => exact h
  | some frame =>
    obtain ⟨callers, rfl⟩ := Array.back?_eq_some_iff.mp hback
    obtain ⟨hdepth, hall⟩ := h
    rw [Array.size_push] at hdepth
    have hstart : Machine.Within env.limits ⟨id, frame, callers, pc, w⟩ :=
      ⟨hdepth, hall frame Array.mem_push_self, fun f hf => hall f (Array.mem_push_of_mem _ hf)⟩
    rw [Array.pop_push]
    exact settle_within (Machine.run_within hstart fuel) _ _

theorem Spawned.within (h : c.Spawned env.program) : c.Within limits := by
  cases h with
  | main =>
    refine ⟨Nat.le_max_left .., fun f hf => ?_⟩
    obtain rfl := Array.mem_singleton.mp hf
    exact Frame.enter_within (Nat.zero_le _)
  | call _ harity =>
    refine ⟨Nat.le_max_left .., fun f hf => ?_⟩
    obtain rfl := Array.mem_singleton.mp hf
    exact Frame.call_within (Nat.le_of_eq harity.symm)

/-- A context as it can be found between two steps: it has been made, and then executed and run on
any number of times, in whatever world and for however long. -/
inductive Reached (env : Setting) : Context → Prop
  | spawned {c : Context} : c.Spawned env.program → Reached env c
  | executed {c : Context} (fuel : Nat) (w : World) :
    Reached env c → Reached env (c.execute env fuel w).1
  | resumed {c : Context} (fuel : Nat) (w : World) :
    Reached env c → Reached env (c.resume env fuel w).1

theorem Reached.within (h : c.Reached env) : c.Within env.limits := by
  induction h with
  | spawned h => exact h.within
  | @executed c fuel w _ ih =>
    unfold execute
    split
    · exact ih.run fuel _
    · exact ih
  | @resumed c fuel w _ ih =>
    unfold resume
    split
    · exact ih.run fuel _
    · exact ih

/-- A context that is over stays as it is, and so does the world. -/
theorem execute_over (h : c.status.isOver = true) (fuel : Nat) : c.execute env fuel w = (c, w) := by
  unfold execute
  split
  next hready =>
    rw [hready] at h
    cases h
  · rfl

/-- A context that runs any code of any program has no more frames than there may be, but always
room for the first; each frame has the slots of its routine, and no more operands than its stack may
hold or a call lays onto it. When it is over, it does not change any more. -/
theorem reached_limited (h : c.Reached env) :
    c.frames.size ≤ max 1 env.limits.frames ∧
    (∀ f ∈ c.frames, f.slots.size = f.routine.slots ∧
      f.stack.size ≤ max env.limits.stack (1 + f.routine.arity)) ∧
    (c.status.isOver = true → ∀ fuel w, c.execute env fuel w = (c, w)) := by
  refine ⟨h.within.depth, fun f hf => ?_, fun hover fuel w => execute_over hover fuel⟩
  have hwithin := h.within.frames f hf
  exact ⟨hwithin.slots, hwithin.stack⟩

open Build in
/-- A function that does nothing but call itself. -/
def runaway : List Stmt :=
  [function "f" [("int", "n")] "int" [ret (some (call "f" [ident "n"]))], expr (call "f" [int 1])]

/-- Where a stack may hold two values and there may be three frames, the third call has no room. In
a stack for one value there is no room for the argument of the second call, though the first call
has laid two onto it. -/
theorem reached_limited_runaway : ∃ image, (Script.compile ⟨runaway⟩).1 = .ok image ∧
    (let env := Setting.ofImage image ⟨3, 2⟩
    let c := ((forMain env.program 0).execute env 100 {}).1
    c.frames.size = 3 ∧ c.fault.map Fault.cause = some (.frameOverflow 3) ∧
      (∀ f ∈ c.frames, f.slots.size = f.routine.slots ∧
        f.stack.size ≤ max 2 (1 + f.routine.arity)) ∧
      ∀ fuel w, c.execute env fuel w = (c, w)) ∧
    let env := Setting.ofImage image ⟨3, 1⟩
    let c := ((forMain env.program 0).execute env 2 {}).1
    c.frames.back?.any (·.stack.size = 2) = true ∧
      (∀ f ∈ c.frames, f.stack.size ≤ max 1 (1 + f.routine.arity)) ∧
      ((c.resume env 100 {}).1.fault.map Fault.cause = some (.stackOverflow 1)) := by
  have hok : ((Script.compile ⟨runaway⟩).1).toOption.any (fun image =>
      let env := Setting.ofImage image ⟨3, 2⟩
      let c := ((forMain env.program 0).execute env 100 {}).1
      let env' := Setting.ofImage image ⟨3, 1⟩
      let c' := ((forMain env'.program 0).execute env' 2 {}).1
      c.frames.size = 3 ∧ c.fault.map Fault.cause = some (.frameOverflow 3) ∧
        c.status.isOver = true ∧
        c'.frames.back?.any (·.stack.size = 2) = true ∧
        (c'.resume env' 100 {}).1.fault.map Fault.cause = some (.stackOverflow 1)) = true :=
          by decide +kernel
  obtain ⟨image, himage, hok⟩ := exists_of_any hok
  obtain ⟨hframes, hfault, hover, hstack, hfault'⟩ := of_decide_eq_true hok
  have hmain : ∀ limits, Reached (.ofImage image limits) (forMain (.load image) 0) :=
    fun _ => .spawned .main
  obtain ⟨-, hall, hstays⟩ := reached_limited (.executed 100 {} (hmain ⟨3, 2⟩))
  obtain ⟨-, hall', -⟩ := reached_limited (.executed 2 {} (hmain ⟨3, 1⟩))
  exact ⟨image, himage, ⟨hframes, hfault, hall, hstays hover⟩, hstack, fun f hf => (hall' f hf).2,
    hfault'⟩

end Context

end Bytescript
