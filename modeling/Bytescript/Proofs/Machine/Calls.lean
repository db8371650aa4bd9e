import Bytescript.Proofs.Machine.Effects

/-!
# Calls

What a call does to the frames of its callers: nothing, until it hands them a value. The code may be
any bytes at all. A routine may take its return address off its stack, put back another one and jump
anywhere, but where its caller goes on is written down in its frame as well, and no instruction
changes that.
-/

namespace Bytescript

/-- The caller of a routine while it waits: the arguments have been taken off its stack. -/
def Frame.waiting (f : Frame) (next arity : Nat) : Frame :=
  { f with pc := next, stack := f.stack.shrink (f.stack.size - arity) }

/-- The arguments of a call on the stack of the caller, the first of them deepest. -/
def Frame.arguments (f : Frame) (arity : Nat) : Array Value :=
  f.stack.extract (f.stack.size - arity)

/-- The innermost frame is about to hand a value to its caller. -/
def Machine.Hands (m : Machine) (v : Value) : Prop :=
  ∃ i next, m.ahead = .ok (i, next) ∧ m.frame.Hands i v

/-! ## Frames above a caller -/

/-- A frame is the one that was called from the frames below, or has been called from within it. -/
inductive Inside (below : Array Frame) (callee : Routine) (back : Nat) : Frame → Array Frame → Prop
  | callee {f} : f.routine = callee → f.returnAddress = back → Inside below callee back f below
  | inner {f caller callers} : Inside below callee back caller callers →
    Inside below callee back f (callers.push caller)

namespace Inside

variable {below callers : Array Frame} {callee : Routine} {back : Nat} {f g caller : Frame}

theorem congr (h : Inside below callee back f callers) (hroutine : g.routine = f.routine)
    (hback : g.returnAddress = f.returnAddress) : Inside below callee back g callers := by
  cases h with
  | callee hf hf' => exact .callee (hroutine.trans hf) (hback.trans hf')
  | inner hcaller => exact .inner hcaller

theorem frames (h : Inside below callee back f callers) : ∃ inner, callers = below ++ inner := by
  induction h with
  | callee => exact ⟨#[], Array.append_empty.symm⟩
  | @inner _ caller _ _ ih =>
    obtain ⟨inner, rfl⟩ := ih
    exact ⟨inner.push caller, Array.append_push.symm⟩

/-- A frame that returns has been called from within the call, or is the called one. -/
theorem returns (h : Inside below callee back f (callers.push caller)) :
    Inside below callee back caller callers ∨
      callers.push caller = below ∧ f.routine = callee ∧ f.returnAddress = back := by
  generalize hcallers : callers.push caller = all at h
  cases h with
  | callee hf hf' => exact .inr ⟨rfl, hf, hf'⟩
  | inner hcaller =>
    obtain ⟨rfl, rfl⟩ := Array.push_eq_push.mp hcallers
    exact .inl hcaller

end Inside

/-! ## Steps and runs inside of a call -/

/-- A machine has been handed a value by the routine that was called: its caller goes on, or there
is no room for the value and it fails. -/
inductive Resumes (limit : Nat) (callers : Array Frame) (caller : Frame) (v : Value) :
    Ending → Machine → Prop
  | handed {id pc w} : caller.stack.size < limit → Resumes limit callers caller v .paused
      ⟨id, { caller with stack := caller.stack.push v }, callers, pc, w⟩
  | full {id pc w} : limit ≤ caller.stack.size → Resumes limit callers caller v
      (.failed (.stackOverflow limit)) ⟨id, caller, callers, pc, w⟩

theorem Resumes.callers_eq {limit : Nat} {callers : Array Frame} {caller : Frame} {v : Value}
    {ending : Ending} {m : Machine} (h : Resumes limit callers caller v ending m) :
    m.callers = callers := by
  cases h <;> rfl

section

variable {env : Setting} {m : Machine} {callers : Array Frame} {caller : Frame} {callee : Routine}

/-- One step inside of a call stays inside of it, or ends it. -/
theorem Inside.run_one (h : Inside (callers.push caller) callee caller.pc m.frame m.callers) :
    Inside (callers.push caller) callee caller.pc (m.run env 1).2.frame (m.run env 1).2.callers ∨
      m.callers = callers.push caller ∧ m.frame.routine = callee ∧ ∃ v, m.Hands v ∧
        Resumes env.limits.stack callers caller v (m.run env 1).1 (m.run env 1).2 := by
  have hsteps := Exec.step_steps env m
  simp only [Machine.run]
  generalize Exec.step env m = result at hsteps
  cases hsteps with
  | done | past | garbled => exact .inl h
  | @performs i next w _ hin hdecode hheap heffect =>
    have hreturns : ∀ {v callers' caller'}, (m.fetched next w).frame.Hands i v →
        m.callers = callers'.push caller' → Inside (callers.push caller) callee caller.pc caller'
          callers' ∨
          m.frame.routine = callee ∧ m.frame.returnAddress = caller.pc ∧ callers' = callers ∧
            caller' = caller ∧ m.Hands v := by
      intro v callers' caller' hhands hcallers
      rw [hcallers] at h
      rcases h.returns with hinner | ⟨hpush, hroutine, hback⟩
      · exact .inl hinner
      · obtain ⟨rfl, rfl⟩ := Array.push_eq_push.mp hpush
        exact .inr ⟨hroutine, hback, rfl, rfl, i, next, hdecode, hhands.congr rfl rfl⟩
    cases heffect with
    | plain | stop | store | stay | jump | leave | fails => exact .inl (h.congr rfl rfl)
    | call => exact .inl (.inner (h.congr rfl rfl))
    | @ret _ v _ _ hhands hcallers hroom =>
      rcases hreturns hhands hcallers with hinner | ⟨hroutine, hback, rfl, rfl, hv⟩
      · exact .inl (hinner.congr rfl rfl)
      · refine .inr ⟨hcallers, hroutine, v, hv, ?_⟩
        simp only [Machine.fetched, hback]
        exact .handed hroom
    | @overflow _ v _ _ hhands hcallers hroom =>
      rcases hreturns hhands hcallers with hinner | ⟨hroutine, hback, rfl, rfl, hv⟩
      · exact .inl (hinner.congr rfl rfl)
      · refine .inr ⟨hcallers, hroutine, v, hv, ?_⟩
        simp only [Machine.fetched, hback]
        exact .full hroom

/-- A run inside of a call stays inside of it until the call ends: then the called routine has
handed a value over in the last step. -/
theorem Inside.run (h : Inside (callers.push caller) callee caller.pc m.frame m.callers)
    (fuel : Nat) (hdeep : ∀ j < fuel, callers.size < (m.run env j).2.callers.size) :
    Inside (callers.push caller) callee caller.pc (m.run env fuel).2.frame
      (m.run env fuel).2.callers ∨
      ∃ j m' v, fuel = j + 1 ∧ m.run env j = (.paused, m') ∧ m'.callers = callers.push caller ∧
        m'.frame.routine = callee ∧ m'.Hands v ∧
        Resumes env.limits.stack callers caller v (m.run env fuel).1 (m.run env fuel).2 := by
  induction fuel with
  | zero => exact .inl h
  | succ n ih =>
    rcases ih fun j hj => hdeep j (Nat.lt_succ_of_lt hj) with hinside |
      ⟨_, _, _, -, -, -, -, -, hresumes⟩
    · rcases Machine.run_cases env n m with ⟨m', hm', hlast⟩ | ⟨-, hlast⟩
      · rw [hm'] at hinside
        rw [hlast]
        rcases hinside.run_one with hinside | ⟨hcallers, hroutine, v, hv, hresumes⟩
        · exact .inl hinside
        · exact .inr ⟨n, m', v, rfl, hm', hcallers, hroutine, hv, hresumes⟩
      · rw [hlast]
        exact .inl hinside
    · have hdeep := hdeep n (Nat.lt_succ_self n)
      rw [hresumes.callers_eq] at hdeep
      exact absurd hdeep (Nat.lt_irrefl _)

/-- The call protocol. A call that succeeds starts the routine with nothing in its slots, and on its
stack the return address and the arguments, the first on top. As long as there are more frames than
before the call, those below stay as the call left them. When there are as many as before for the
first time, the called routine has just handed over one value, which takes the place of the
arguments on the stack of the caller; or that stack has no room for it. -/
theorem call_isolates {c : UInt16} {next : Nat} {m1 : Machine}
    (hdecode : decodeAt m.frame.routine.body.bytes m.frame.pc = .ok (.call c, next))
    (hstep : Exec.step env m = .ok .next m1) :
    ∃ callee, env.program.routines[c]? = some callee ∧ callee.arity ≤ m.frame.stack.size ∧
      m1.frame.routine = callee ∧ m1.frame.pc = 0 ∧ m1.frame.slots = .replicate callee.slots .void ∧
      m1.frame.stack = #[.int (.ofNat next)] ++ (m.frame.arguments callee.arity).reverse ∧
      m1.callers = m.callers.push (m.frame.waiting next callee.arity) ∧
      ∀ fuel, (∀ j < fuel, m.callers.size < (m1.run env j).2.callers.size) →
        (∃ inner, (m1.run env fuel).2.callers =
          m.callers.push (m.frame.waiting next callee.arity) ++ inner) ∨
        ∃ j m' v, fuel = j + 1 ∧ m1.run env j = (.paused, m') ∧
          m'.callers = m.callers.push (m.frame.waiting next callee.arity) ∧
          m'.frame.routine = callee ∧
          m'.Hands v ∧ Resumes env.limits.stack m.callers (m.frame.waiting next callee.arity) v
            (m1.run env fuel).1 (m1.run env fuel).2 := by
  have hsteps := Exec.step_steps env m
  rw [hstep] at hsteps
  cases hsteps with
  | @performs i next' w _ hin hread hheap heffect =>
      obtain ⟨rfl, rfl⟩ : i = .call c ∧ next' = next := by
        cases hdecode.symm.trans hread
        exact ⟨rfl, rfl⟩
      generalize hresult : (.ok .next m1 : EStateM.Result RunError Machine Flow) = result at heffect
      cases heffect with
      | @call _ callee hcallee hdeep harity =>
          cases hresult
          refine ⟨callee, hcallee, harity, rfl, rfl, rfl, rfl, rfl, fun fuel hdeep => ?_⟩
          have hinside : Inside (m.callers.push (m.frame.waiting next' callee.arity)) callee next'
              (.call callee next' (m.frame.arguments callee.arity)) _ := .callee rfl rfl
          rcases hinside.run fuel hdeep with hinside | hends
          · exact .inl hinside.frames
          · exact .inr hends
      | plain hplain => cases hplain
      | ret hhands | overflow hhands | leave hhands => cases hhands
      | fails => cases hresult

end

/-- A routine that drops its argument and answers 7. -/
def seven : Routine where
  name := "seven"
  result := .int
  params := [.int]
  constant := some 0
  slots := 0
  code := #[]
  body := ⟨#[Opcode.pop.toByte, Opcode.pushByte.toByte, 7, Opcode.ret.toByte], #[], default⟩

def sevenSetting : Setting where
  program := ⟨{}, default, ∅, (∅ : Std.TreeMap UInt16 Routine).insert 0 seven, ∅, ∅⟩
  natives := #[]
  limits := {}

/-- About to call `seven` with 9, above another value. -/
def sevenCaller : Machine where
  id := 0
  frame := .enter { seven with body := ⟨#[Opcode.call.toByte, 0], #[], default⟩ } 0
    #[.int 5, .int 9]
  callers := #[]
  pc := 0
  world := {}

theorem call_isolates_seven : ∃ m1 v, Exec.step sevenSetting sevenCaller = .ok .next m1 ∧
    (∀ j < 3, 0 < (m1.run sevenSetting j).2.callers.size) ∧
    Resumes 65536 #[] (sevenCaller.frame.waiting 2 1) v (m1.run sevenSetting 3).1
      (m1.run sevenSetting 3).2 := by
  have hdecode : decodeAt sevenCaller.frame.routine.body.bytes sevenCaller.frame.pc =
    .ok (.call 0, 2) := rfl
  have hstep : Exec.step sevenSetting sevenCaller =
      .ok .next (Exec.left (Exec.step sevenSetting sevenCaller)) := rfl
  have hdeep : ∀ j < 3, 0 < ((Exec.left (Exec.step sevenSetting sevenCaller)).run
      sevenSetting j).2.callers.size := by decide
  have hback : ((Exec.left (Exec.step sevenSetting sevenCaller)).run sevenSetting 3).2.callers =
    #[] := rfl
  obtain ⟨callee, hcallee, -, -, -, -, -, -, hruns⟩ := call_isolates hdecode hstep
  obtain rfl : seven = callee := Option.some.inj hcallee
  rcases hruns 3 hdeep with ⟨inner, hinner⟩ | ⟨_, _, v, -, -, -, -, -, hresumes⟩
  · rw [hback] at hinner
    have hsize := congrArg Array.size hinner
    simp only [Array.size_append, Array.size_push, List.size_toArray, List.length_nil] at hsize
    omega
  · exact ⟨_, v, hstep, hdeep, hresumes⟩

end Bytescript
