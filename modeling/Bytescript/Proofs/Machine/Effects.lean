import Bytescript.Machine.Step

/-!
# Effects of steps

What a step can do to a machine, whatever code it runs. Most instructions change nothing but the
operand stack of the innermost frame and the world (`Exec.Keeps`); the others store a value, jump,
call a routine or return from one. `Effect` says it instruction by instruction and `Exec.Steps` for
a whole step; every property of runs of arbitrary code is derived from `Exec.step_steps`.
-/

namespace Bytescript

/-- The operands, the top of the stack first. -/
def Frame.operands (f : Frame) : List Value := f.stack.toList.reverse

variable (m : Machine)

/-- A machine with other operands and another world. -/
def Machine.put (operands : List Value) (w : World) : Machine :=
  { m with frame := { m.frame with stack := operands.reverse.toArray }, world := w }

theorem Frame.operands_length (f : Frame) : f.operands.length = f.stack.size := by simp [operands]

theorem Frame.operands_push (f : Frame) (v : Value) :
    (v :: f.operands).reverse.toArray = f.stack.push v :=
  Array.toList_inj.mp (by simp [operands])

@[simp]
theorem Machine.put_operands (vs : List Value) (w : World) :
    (m.put vs w).frame.operands = vs := by simp [put, Frame.operands]

theorem Machine.put_self : m.put m.frame.operands m.world = m := by
  simp [put, Frame.operands]

/-- The machine when the next instruction has been read. -/
def Machine.fetched (next : Nat) (w : World) : Machine :=
  ⟨m.id, { m.frame with pc := next }, m.callers, m.frame.pc, w⟩

/-- The machine when a value has been stored. -/
def Machine.store (slot : Nat) (v : Value) : Machine :=
  { m with frame := { m.frame with slots := m.frame.slots.setIfInBounds slot v } }

/-- The machine when it has jumped. -/
def Machine.goTo (target : Nat) : Machine :=
  { m with frame := { m.frame with pc := target } }

theorem ArithOp.onInts_error {op : ArithOp} {m n : Int64} {e : RunError}
    (h : op.onInts m n = .error e) : e = .divisionByZero := by
  cases op <;> simp only [onInts] at h <;> first
    | cases h
    | (split at h
       · exact (Except.error.inj h).symm
       · cases h)

namespace Exec

variable {α β : Type} {act : Exec α} {f : α → Exec β} {m m' : Machine}

theorem bind_of_ok {a : α} (h : act m = .ok a m') : (act >>= f) m = f a m' := by
  simp only [Bind.bind, EStateM.bind, h]

theorem bind_of_error {e : RunError} (h : act m = .error e m') : (act >>= f) m = .error e m' := by
  simp only [Bind.bind, EStateM.bind, h]

/-! ## Actions on operands and the world -/

/-- The machine that an action leaves, however it ends. -/
def left : EStateM.Result RunError Machine α → Machine
  | .ok _ m => m
  | .error _ m => m

/-- How an action ends that changes nothing but the world and the operand stack of the innermost
frame, which grows up to a limit at most. It does not report that code has been run past its end. -/
inductive Kept (limit : Nat) (m : Machine) (P : α → Prop) : EStateM.Result RunError Machine α → Prop
  | ok {a vs w} : P a → vs.length ≤ max limit m.frame.operands.length →
    Kept limit m P (.ok a (m.put vs w))
  | error {e vs w} : (∀ name, e ≠ .missingReturn name) →
    vs.length ≤ max limit m.frame.operands.length → Kept limit m P (.error e (m.put vs w))

/-- An action that changes nothing else, and gives something with a property. -/
class Gives (limit : Nat) (act : Exec α) (P : α → Prop) : Prop where
  kept : ∀ m, Kept limit m P (act m)

abbrev Keeps (limit : Nat) (act : Exec α) : Prop := Gives limit act fun _ => True

/-- An action that changes nothing else, and then goes on with what comes next. -/
abbrev Continues (limit : Nat) (act : Exec Flow) : Prop := Gives limit act (· = .next)

variable {limit : Nat} {P : α → Prop} {Q : β → Prop} {a : α} {e : RunError}

namespace Kept

theorem world {w : World} (ha : P a) : Kept limit m P (.ok a { m with world := w }) := by
  have h : Kept limit m P (.ok a (m.put m.frame.operands w)) := .ok ha (Nat.le_max_right ..)
  simpa [Machine.put, Frame.operands] using h

theorem failed {w : World} (he : ∀ name, e ≠ .missingReturn name) :
    Kept limit m P (.error e { m with world := w }) := by
  have h : Kept limit m P (.error e (m.put m.frame.operands w)) := .error he (Nat.le_max_right ..)
  simpa [Machine.put, Frame.operands] using h

theorem stack {stack : Array Value} (ha : P a) (h : stack.size ≤ max limit m.frame.stack.size) :
    Kept limit m P (.ok a { m with frame := { m.frame with stack } }) := by
  have h : Kept limit m P (.ok a (m.put stack.toList.reverse m.world)) :=
    .ok ha (by simpa [Frame.operands_length] using h)
  simpa [Machine.put] using h

end Kept

namespace Gives

theorem throw (he : ∀ name, e ≠ .missingReturn name) :
    Gives limit (MonadExcept.throw e : Exec α) P :=
  ⟨fun _ => .failed he⟩

instance : Keeps limit (pure a : Exec α) := ⟨fun _ => .world trivial⟩

instance : Continues limit (pure .next) := ⟨fun _ => .world rfl⟩

instance : Keeps limit (get : Exec Machine) := ⟨fun _ => .world trivial⟩

theorem bind (hact : Keeps limit act) (hf : ∀ a, Gives limit (f a) Q) :
    Gives limit (act >>= f) Q where
  kept m := by
    have h := hact.kept m
    generalize hr : act m = result at h
    cases h with
    | @ok a vs w _ hvs =>
      rw [bind_of_ok hr]
      have h' := (hf a).kept (m.put vs w)
      generalize f a (m.put vs w) = result at h'
      cases h' with
      | ok hb hvs' => exact .ok hb (by rw [m.put_operands] at hvs'; omega)
      | error he hvs' => exact .error he (by rw [m.put_operands] at hvs'; omega)
    | error he hvs =>
      rw [bind_of_error hr]
      exact .error he hvs

instance [hact : Keeps limit act] [hf : ∀ a, Gives limit (f a) Q] : Gives limit (act >>= f) Q :=
  bind hact hf

instance {p : Prop} [Decidable p] {act' : Exec α} [Gives limit act P] [Gives limit act' P] :
    Gives limit (if p then act else act') P := by
  split <;> infer_instance

variable {v : Value} {kind : Kind} {slot index : UInt16} {env : Setting}

instance : Keeps limit (push limit v) where
  kept := fun ⟨id, ⟨routine, next, back, stack, slots⟩, callers, pc, world⟩ => by
    rw [push]
    split
    · exact .failed nofun
    · exact .stack trivial (by rw [Array.size_push]; omega)

instance : Keeps limit pop where
  kept := fun ⟨id, ⟨routine, next, back, stack, slots⟩, callers, pc, world⟩ => by
    rw [pop]
    split
    · exact .failed nofun
    · exact .stack trivial (by rw [Array.size_pop]; dsimp only; omega)

instance {count : Nat} : Keeps limit (popMany count) where
  kept := fun ⟨id, ⟨routine, next, back, stack, slots⟩, callers, pc, world⟩ => by
    rw [popMany]
    split
    · exact .failed nofun
    · exact .stack trivial (by rw [Array.size_shrink]; dsimp only; omega)

theorem onWorld {ε : Type} {cause : ε → RunError} {g : World → Except ε α × World}
    (hcause : ∀ e name, cause e ≠ .missingReturn name) : Keeps limit (onWorld cause g) where
  kept := fun ⟨id, frame, callers, pc, world⟩ => by
    rw [Exec.onWorld]
    split
    · exact .world trivial
    · exact .failed (hcause _)

instance {g : World → Except HeapError α × World} : Keeps limit (Exec.onWorld .heap g) :=
  onWorld fun _ => nofun

instance {g : Heap → Except HeapError α × Heap} : Keeps limit (onHeap g) := onWorld fun _ => nofun

instance {p : Payload} : Keeps limit (allocate p) := onWorld fun _ => nofun

instance {g : Heap → Except HeapError α} : Keeps limit (readHeap g) := by
  refine bind inferInstance fun m => ?_
  split
  · infer_instance
  · exact throw nofun

instance {below : Nat} : Keeps limit (peek below) := by
  refine bind inferInstance fun m => ?_
  dsimp only
  split
  · infer_instance
  · exact throw nofun

instance : Keeps limit (readSlot slot) := by
  refine bind inferInstance fun m => ?_
  split
  · infer_instance
  · exact throw nofun

instance : Keeps limit popInt := bind inferInstance fun v =>
    by cases v <;> first | infer_instance | exact throw nofun

instance : Keeps limit popFloat := bind inferInstance fun v =>
    by cases v <;> first | infer_instance | exact throw nofun

instance : Keeps limit popObject := bind inferInstance fun v =>
    by cases v <;> first | infer_instance | exact throw nofun

instance : Keeps limit popString := bind inferInstance fun v =>
    by cases v <;> first | infer_instance | exact throw nofun

instance : Keeps limit popReference := bind inferInstance fun v => by
  split <;> first | infer_instance | exact throw nofun

instance : Keeps limit (popKind kind) := bind inferInstance fun v => by
  split <;> first | infer_instance | exact throw nofun

instance : Keeps limit popIndex := bind inferInstance fun n => by
  split <;> first | infer_instance | exact throw nofun

instance : Keeps limit (constant env index) := by
  unfold constant
  split <;> first | infer_instance | exact throw nofun

instance {op : ArithOp} : Keeps limit (arith op kind) := by
  unfold arith
  split
  · infer_instance
  · refine bind inferInstance fun b => bind inferInstance fun a => ?_
    split
    · infer_instance
    next he =>
      obtain rfl := ArithOp.onInts_error he
      exact throw nofun

instance {a b : Value} : Keeps limit (sameReference a b) := by
  unfold sameReference
  split <;> infer_instance

instance {cmp : Comparison} : Keeps limit (compare cmp kind) := by
  unfold compare
  split <;> infer_instance

instance {trigger : Trigger} : Keeps limit (triggered trigger) := by
  unfold triggered
  split <;> infer_instance

instance : Keeps limit (callNative env index) := by
  unfold callNative
  split
  · exact throw nofun
  · exact bind inferInstance fun _ => onWorld fun _ => nofun

end Gives

end Exec

/-- Instructions that concern operands and the world only. -/
def Instruction.isPlain : Instruction → Bool
  | .stop | .store _ _ | .jump _ _ | .call _ | .ret | .retVoid => false
  | _ => true

theorem Exec.Continues.perform {env : Setting} {i : Instruction} (h : i.isPlain = true) :
    Continues env.limits.stack (perform env i) := by
  have hlength : ∀ n, Keeps env.limits.stack (throw (.negativeLength n) : Exec Unit) :=
    fun _ => Gives.throw nofun
  have hclass : ∀ layout, Keeps env.limits.stack (throw (.unresolvedClass layout) : Exec Unit) :=
    fun _ => Gives.throw nofun
  cases i with
  | neg kind => cases kind <;> (dsimp only [Exec.perform]; infer_instance)
  | newObject layout =>
    dsimp only [Exec.perform]
    split <;> infer_instance
  | stop | store | jump | call | ret | retVoid => cases h
  | _ =>
    dsimp only [Exec.perform]
    infer_instance

/-! ## Instructions -/

/-- A frame hands a value to its caller by an instruction; below the value lies the return address.
-/
inductive Frame.Hands (f : Frame) : Instruction → Value → Prop
  | ret {v address rest} :
    f.operands = v :: .int address :: rest → address.toUInt64.toNat = f.returnAddress →
    f.Hands .ret v
  | retVoid {address rest} :
    f.operands = .int address :: rest → address.toUInt64.toNat = f.returnAddress →
    f.Hands .retVoid .void

variable {i : Instruction} {env : Setting} {m : Machine} {w w' : World}

theorem Frame.Hands.congr {f g : Frame} {v : Value} (h : f.Hands i v) (hstack : g.stack = f.stack)
    (hback : g.returnAddress = f.returnAddress) : g.Hands i v := by
  have hoperands : g.operands = f.operands := by rw [Frame.operands, hstack, Frame.operands]
  cases h with
  | ret h haddress => exact .ret (hoperands.trans h) (haddress.trans hback.symm)
  | retVoid h haddress => exact .retVoid (hoperands.trans h) (haddress.trans hback.symm)

/-- What an instruction can do. -/
inductive Effect (env : Setting) (m : Machine) :
    Instruction → EStateM.Result RunError Machine Flow → Prop
  | plain {i vs w} : i.isPlain = true →
    vs.length ≤ max env.limits.stack m.frame.operands.length →
    Effect env m i (.ok .next (m.put vs w))
  | stop : Effect env m .stop (.ok .halt m)
  | store {kind slot v rest} :
    slot.toNat < m.frame.slots.size → m.frame.operands = v :: rest → v.hasKind kind = true →
    Effect env m (.store kind slot) (.ok .next ((m.put rest m.world).store slot.toNat v))
  | stay {trigger target vs w} : trigger ≠ .always →
    vs.length ≤ max env.limits.stack m.frame.operands.length →
    Effect env m (.jump trigger target) (.ok .next (m.put vs w))
  | jump {trigger target vs w} :
    vs.length ≤ max env.limits.stack m.frame.operands.length →
    Effect env m (.jump trigger target) (.ok .next ((m.put vs w).goTo target.toNat))
  | call {c callee} : env.program.routines[c]? = some callee →
    m.callers.size + 1 < env.limits.frames → callee.arity ≤ m.frame.stack.size →
    Effect env m (.call c) (.ok .next ⟨m.id,
      .call callee m.frame.pc (m.frame.stack.extract (m.frame.stack.size - callee.arity)),
      m.callers.push
        { m.frame with stack := m.frame.stack.shrink (m.frame.stack.size - callee.arity) },
      m.pc, m.world⟩)
  | ret {i v callers caller} :
    m.frame.Hands i v → m.callers = callers.push caller → caller.stack.size < env.limits.stack →
    Effect env m i (.ok .next ⟨m.id,
      { caller with pc := m.frame.returnAddress, stack := caller.stack.push v }, callers, m.pc,
        m.world⟩)
  | overflow {i v callers caller} :
    m.frame.Hands i v → m.callers = callers.push caller → env.limits.stack ≤ caller.stack.size →
    Effect env m i (.error (.stackOverflow env.limits.stack) ⟨m.id,
      { caller with pc := m.frame.returnAddress }, callers, m.pc, m.world⟩)
  | leave {i v vs} : m.frame.Hands i v → m.callers = #[] →
    vs.length ≤ m.frame.operands.length → Effect env m i (.ok (.leave v) (m.put vs m.world))
  | fails {i e vs w} :
    (∀ name, e ≠ .missingReturn name) → vs.length ≤ max env.limits.stack m.frame.operands.length →
    Effect env m i (.error e (m.put vs w))

theorem Effect.of_kept {e : RunError} {m' : Machine} {α : Type} {P : α → Prop}
    (h : Exec.Kept env.limits.stack m P (.error e m')) : Effect env m i (.error e m') := by
  cases h with
  | error he hvs => exact .fails he hvs

theorem Effect.fails_here {e : RunError} (he : ∀ name, e ≠ .missingReturn name) :
    Effect env m i (.error e m) :=
  .of_kept (P := fun _ : Unit => True) (.failed he)

namespace Exec

variable {env : Setting} {m : Machine}

theorem pop_cases (m : Machine) :
    (m.frame.operands = [] ∧ pop m = .error .stackUnderflow m) ∨
      ∃ v rest, m.frame.operands = v :: rest ∧ pop m = .ok v (m.put rest m.world) := by
  obtain ⟨id, ⟨routine, next, back, stack, slots⟩, callers, pc, world⟩ := m
  rw [pop]
  cases hback : stack.back? with
  | none =>
    rw [Array.back?_eq_none_iff] at hback
    subst hback
    exact .inl ⟨rfl, rfl⟩
  | some v =>
    obtain ⟨below, rfl⟩ := Array.back?_eq_some_iff.mp hback
    exact .inr ⟨v, below.toList.reverse, by simp [Frame.operands], by simp [Machine.put]⟩

theorem effect_store {kind : Kind} {slot : UInt16} :
    Effect env m (.store kind slot) (perform env (.store kind slot) m) := by
  have hindex : slotIndex slot m = if slot.toNat < m.frame.slots.size then .ok slot.toNat m
      else .error (.badSlot slot m.frame.slots.size) m := by
    change (if slot.toNat < m.frame.slots.size then pure slot.toNat
      else throw (.badSlot slot m.frame.slots.size) : Exec Nat) m = _
    split <;> rfl
  rw [perform]
  by_cases hslot : slot.toNat < m.frame.slots.size
  · rw [if_pos hslot] at hindex
    rw [bind_of_ok hindex]
    rcases pop_cases m with ⟨-, hpop⟩ | ⟨v, rest, hoperands, hpop⟩
    · have hkind : popKind kind m = .error .stackUnderflow m := bind_of_error hpop
      rw [bind_of_error hkind]
      exact .fails_here nofun
    · have hkind :
      popKind kind m = (if v.hasKind kind then pure v else throw (.typeMismatch kind v) :
          Exec Value) (m.put rest m.world) := bind_of_ok hpop
      cases hv : v.hasKind kind with
      | true =>
        rw [hv, if_pos rfl] at hkind
        rw [bind_of_ok hkind]
        exact .store hslot hoperands hv
      | false =>
        rw [hv] at hkind
        rw [bind_of_error hkind]
        exact .fails nofun (by rw [hoperands, List.length_cons]; omega)
  · rw [if_neg hslot] at hindex
    rw [bind_of_error hindex]
    exact .fails_here nofun

theorem effect_jump {trigger : Trigger} {target : UInt32} :
    Effect env m (.jump trigger target) (perform env (.jump trigger target) m) := by
  have hkeeps : Keeps env.limits.stack (triggered trigger) := inferInstance
  have hkept := hkeeps.kept m
  rw [perform]
  generalize hr : triggered trigger m = result at hkept
  cases hkept with
  | @ok taken _ _ _ hvs =>
    rw [bind_of_ok hr]
    cases taken with
    | true => exact .jump hvs
    | false =>
      refine .stay (fun halways => ?_) hvs
      subst halways
      cases hr
  | error he hvs =>
    rw [bind_of_error hr]
    exact .fails he hvs

theorem call_found {c : UInt16} {callee : Routine}
    (hcallee : env.program.routines[c]? = some callee) :
    call env c m = if env.limits.frames ≤ m.callers.size + 1
      then .error (.frameOverflow env.limits.frames) m else enter callee m := by
  simp only [call, hcallee]
  show (if _ then _ else _ : Exec Unit) m = _
  split <;> rfl

theorem effect_call {c : UInt16} : Effect env m (.call c) (perform env (.call c) m) := by
  rw [perform]
  cases hcallee : env.program.routines[c]? with
  | none =>
    have hcall : call env c m = .error (.unresolvedCall c) m := by
      simp only [call, hcallee]
      rfl
    rw [bind_of_error hcall]
    exact .fails_here nofun
  | some callee =>
    have hcall := call_found (m := m) hcallee
    by_cases hdeep : env.limits.frames ≤ m.callers.size + 1
    · rw [if_pos hdeep] at hcall
      rw [bind_of_error hcall]
      exact .fails_here nofun
    · rw [if_neg hdeep] at hcall
      have henter : enter callee m = if m.frame.stack.size < callee.arity
          then .error .stackUnderflow m else .ok () ⟨m.id,
            .call callee m.frame.pc (m.frame.stack.extract (m.frame.stack.size - callee.arity)),
            m.callers.push
              { m.frame with stack := m.frame.stack.shrink (m.frame.stack.size - callee.arity) },
            m.pc, m.world⟩ := by
        obtain ⟨id, ⟨routine, next, back, stack, slots⟩, callers, pc, world⟩ := m
        simp only [enter, popMany, Bind.bind, EStateM.bind]
        by_cases hfew : stack.size < callee.arity
        · simp only [if_pos hfew]
        · simp only [if_neg hfew]
          rfl
      by_cases hfew : m.frame.stack.size < callee.arity
      · rw [if_pos hfew] at henter
        rw [bind_of_error (hcall.trans henter)]
        exact .fails_here nofun
      · rw [if_neg hfew] at henter
        rw [bind_of_ok (hcall.trans henter)]
        exact .call hcallee (Nat.lt_of_not_le hdeep) (Nat.le_of_not_lt hfew)

theorem effect_ret {i : Instruction} {v : Value} {vs : List Value}
    (hvs : vs.length ≤ m.frame.operands.length)
    (hi : ∀ address rest, vs = .int address :: rest →
      address.toUInt64.toNat = m.frame.returnAddress →
      m.frame.Hands i v) : Effect env m i (ret env v (m.put vs m.world)) := by
  rw [ret]
  rcases pop_cases (m.put vs m.world) with ⟨-, hpop⟩ | ⟨top, rest, hoperands, hpop⟩
  · rw [bind_of_error hpop]
    exact .fails nofun (Nat.le_trans hvs (Nat.le_max_right ..))
  · rw [m.put_operands] at hoperands
    have hrest : rest.length ≤ m.frame.operands.length := by
      rw [hoperands, List.length_cons] at hvs
      omega
    have hfails : Effect env m i (.error .corruptFrame (m.put rest m.world)) :=
      .fails nofun (Nat.le_trans hrest (Nat.le_max_right ..))
    have hpop : pop (m.put vs m.world) = .ok top (m.put rest m.world) := hpop
    rw [bind_of_ok hpop]
    have hget : (get : Exec Machine) (m.put rest m.world) = .ok (m.put rest m.world) _ := rfl
    cases top with
    | int address =>
      dsimp only
      rw [bind_of_ok hget]
      by_cases haddress : address.toUInt64.toNat ≠ (m.put rest m.world).frame.returnAddress
      · rw [if_pos haddress]
        exact hfails
      · have hhands := hi address rest hoperands (Decidable.not_not.mp haddress)
        rw [if_neg haddress]
        cases hcallers : m.callers.back? with
        | none =>
          have hnone : leave (m.put rest m.world) = .ok false (m.put rest m.world) := by
            simp only [leave, Machine.put, hcallers]
          rw [bind_of_ok hnone]
          exact .leave hhands (Array.back?_eq_none_iff.mp hcallers) hrest
        | some caller =>
          obtain ⟨callers, hpush⟩ := Array.back?_eq_some_iff.mp hcallers
          have hsome : leave (m.put rest m.world) = .ok true ⟨m.id,
              { caller with pc := m.frame.returnAddress }, callers, m.pc, m.world⟩ := by
            simp only [leave, Machine.put, hpush, Array.back?_push, Array.pop_push]
          rw [bind_of_ok hsome, if_pos rfl]
          by_cases hroom : env.limits.stack ≤ caller.stack.size
          · have hfull : push env.limits.stack v ⟨m.id,
                { caller with pc := m.frame.returnAddress }, callers, m.pc, m.world⟩ =
                .error (.stackOverflow env.limits.stack) _ := if_pos hroom
            rw [bind_of_error hfull]
            exact .overflow hhands hpush hroom
          · have hpushed : push env.limits.stack v ⟨m.id,
                { caller with pc := m.frame.returnAddress }, callers, m.pc, m.world⟩ =
                .ok () _ := if_neg hroom
            rw [bind_of_ok hpushed]
            exact .ret hhands hpush (Nat.lt_of_not_le hroom)
    | void | float | stringRef | objectRef => exact hfails

/-- Whatever an instruction does, `Effect` tells it. -/
theorem perform_effect (i : Instruction) : Effect env m i (perform env i m) := by
  by_cases hplain : i.isPlain = true
  · have hkept : Kept env.limits.stack m _ (perform env i m) := (Continues.perform hplain).kept m
    generalize perform env i m = result at hkept
    cases hkept with
    | ok hnext hvs => exact hnext ▸ .plain hplain hvs
    | error he hvs => exact .fails he hvs
  · cases i with
    | stop => exact .stop
    | store kind slot => exact effect_store
    | jump trigger target => exact effect_jump
    | call c => exact effect_call
    | ret =>
      rw [perform]
      rcases pop_cases m with ⟨-, hpop⟩ | ⟨v, rest, hoperands, hpop⟩
      · rw [bind_of_error hpop]
        exact .fails_here nofun
      · rw [bind_of_ok hpop]
        refine effect_ret ?_ fun address rest' hrest haddress => .ret (hrest ▸ hoperands) haddress
        rw [hoperands, List.length_cons]
        omega
    | retVoid =>
      have hret : ∀ address rest, m.frame.operands = .int address :: rest →
          address.toUInt64.toNat = m.frame.returnAddress → m.frame.Hands .retVoid .void :=
        fun _ _ => .retVoid
      have heffect : Effect env m .retVoid (ret env .void (m.put m.frame.operands m.world)) :=
        effect_ret (Nat.le_refl _) hret
      rwa [m.put_self] at heffect
    | _ => exact absurd rfl hplain

end Exec

/-! ## Steps -/

/-- Two worlds differ in their journals at most. -/
structure World.Alike (w w' : World) : Prop where
  heap : w.heap = w'.heap
  output : w.output = w'.output
  cells : w.cells = w'.cells

theorem World.Alike.symm (h : w.Alike w') : w'.Alike w :=
  ⟨h.heap.symm, h.output.symm, h.cells.symm⟩

theorem World.Alike.trans {w'' : World} (h : w.Alike w') (h' : w'.Alike w'') : w.Alike w'' :=
  ⟨h.heap.trans h'.heap, h.output.trans h'.output, h.cells.trans h'.cells⟩

theorem World.note_alike (w : World) (level : Level) (text : Unit → String) :
    (w.note level text).Alike w := by
  unfold World.note
  split <;> exact ⟨rfl, rfl, rfl⟩

/-- The instruction in front of which a machine is, and where it ends. -/
abbrev Machine.ahead (m : Machine) : Except DecodeError (Instruction × Nat) :=
  decodeAt m.frame.routine.body.bytes m.frame.pc

/-- In front of an instruction, a step performs it. -/
theorem Exec.step_performs (env : Setting) {next : Nat}
    (hin : m.frame.pc < m.frame.routine.body.bytes.size) (hdecode : m.ahead = .ok (i, next)) :
    ∃ w, w.Alike m.world ∧ Exec.step env m = Exec.perform env i (m.fetched next w) := by
  obtain ⟨id, ⟨routine, pc, back, stack, slots⟩, callers, last, world⟩ := m
  refine ⟨_, World.note_alike world .trace fun _ => s!"context {id}: " ++
    Text.padLeft '0' 4 (toString pc) ++ " " ++ i.text, ?_⟩
  simp only [Exec.step, Exec.fetch, Bind.bind, EStateM.bind]
  rw [if_pos hin]
  simp only [hdecode]
  rfl

/-- At the end of its code, the outermost frame is done, and any other one should have returned. -/
theorem Exec.step_past (h : m.frame.routine.body.bytes.size ≤ m.frame.pc) :
    Exec.step env m = if m.callers.isEmpty then .ok .halt m
      else .error (.missingReturn m.frame.routine.name) m := by
  have hfetch : Exec.fetch m = if m.callers.isEmpty then .ok none m
      else .error (.missingReturn m.frame.routine.name) m := by
    obtain ⟨id, ⟨routine, next, back, stack, slots⟩, callers, pc, world⟩ := m
    exact if_neg (Nat.not_lt.mpr h)
  rw [Exec.step]
  split at hfetch
  next hempty =>
    rw [if_pos hempty, Exec.bind_of_ok hfetch]
    rfl
  next hempty => rw [if_neg hempty, Exec.bind_of_error hfetch]

/-- What a step can do. -/
inductive Exec.Steps (env : Setting) (m : Machine) : EStateM.Result RunError Machine Flow → Prop
  | done : m.frame.routine.body.bytes.size ≤ m.frame.pc → m.callers = #[] →
    Exec.Steps env m (.ok .halt m)
  | past : m.frame.routine.body.bytes.size ≤ m.frame.pc → m.callers ≠ #[] →
    Exec.Steps env m (.error (.missingReturn m.frame.routine.name) m)
  | garbled {e} : m.frame.pc < m.frame.routine.body.bytes.size →
    m.ahead = .error e → Exec.Steps env m (.error (.decode e) m)
  | performs {i next w result} :
    m.frame.pc < m.frame.routine.body.bytes.size →
    m.ahead = .ok (i, next) → w.heap = m.world.heap →
    Effect env (m.fetched next w) i result → Exec.Steps env m result

/-- Whatever a step does, `Exec.Steps` tells it. -/
theorem Exec.step_steps (env : Setting) (m : Machine) : Exec.Steps env m (Exec.step env m) := by
  obtain ⟨id, ⟨routine, next, back, stack, slots⟩, callers, pc, world⟩ := m
  simp only [Exec.step, Exec.fetch, Bind.bind, EStateM.bind]
  by_cases hin : next < routine.body.bytes.size
  · rw [if_pos hin]
    cases hdecode : decodeAt routine.body.bytes next with
    | error e => exact .garbled hin hdecode
    | ok read =>
      obtain ⟨i, behind⟩ := read
      exact .performs hin hdecode (world.note_alike _ _).heap (Exec.perform_effect i)
  · rw [if_neg hin]
    cases hcallers : callers.isEmpty with
    | true => exact .done (Nat.le_of_not_lt hin) (Array.isEmpty_iff.mp hcallers)
    | false =>
      refine .past (Nat.le_of_not_lt hin) fun hnone => ?_
      rw [Array.isEmpty_iff.mpr hnone] at hcallers
      cases hcallers

/-- What a step has done after which the machine goes on. -/
theorem Exec.step_next {m' : Machine} (h : Exec.step env m = .ok .next m') : ∃ i next w,
    m.frame.pc < m.frame.routine.body.bytes.size ∧
    m.ahead = .ok (i, next) ∧
    Effect env (m.fetched next w) i (.ok .next m') := by
  have hsteps := Exec.step_steps env m
  rw [h] at hsteps
  cases hsteps with
  | performs hin hdecode _ heffect => exact ⟨_, _, _, hin, hdecode, heffect⟩

/-! ## Runs -/

/-- A run with one more step takes it where the shorter one has paused. -/
theorem Machine.run_cases (env : Setting) (n : Nat) (m : Machine) :
    (∃ m', m.run env n = (.paused, m') ∧ m.run env (n + 1) = m'.run env 1) ∨
      (m.run env n).1 ≠ .paused ∧ m.run env (n + 1) = m.run env n := by
  induction n generalizing m with
  | zero => exact .inl ⟨m, rfl, rfl⟩
  | succ n ih =>
    rw [run, run]
    cases Exec.step env m with
    | ok flow m' =>
      cases flow with
      | next => exact ih m'
      | halt => exact .inr ⟨nofun, rfl⟩
      | leave result => exact .inr ⟨nofun, rfl⟩
    | error e m' => exact .inr ⟨nofun, rfl⟩

end Bytescript
