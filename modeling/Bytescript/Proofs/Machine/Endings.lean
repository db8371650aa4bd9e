import Bytescript.Proofs.Machine.Faults
import Bytescript.Proofs.Machine.Operands
import Bytescript.Proofs.Returns

/-!
# How routines end

Control never runs off the end of sealed code. A step from an instruction goes to the one behind it,
which is there unless the code ends with the first; to where a jump aims, which is within the code;
or to the start of a routine that is not empty. A frame that waits is in front of an instruction in
any case.

So functions that owe no value and constructors always return, and the code at the top level always
stops. What may run past its end are functions that owe a value, and these only.
-/

namespace Bytescript

open TypeTable (primitives)

/-- Instructions behind which control does not go on. -/
def Instruction.Ends (i : Instruction) : Prop := i = .stop ∨ i.isReturn = true

theorem Instruction.ends_of_placed {i : Instruction} {offsets : Array Nat} (h : i.Ends) :
    (i.placed offsets).Ends := by
  rcases h with rfl | h
  · exact .inl rfl
  · cases i <;> cases h <;> exact .inr rfl

/-- A frame that is in front of an instruction if its code is sealed. -/
def Frame.Confined (f : Frame) : Prop :=
  Sealed Instruction.Ends f.routine.code → f.pc < f.routine.body.bytes.size

/-! ## Steps -/

section

variable {env : Setting} {m m1 m' : Machine} {n : Nat}

/-- Behind an instruction that goes on there is another one. -/
theorem Layout.Encodes.behind_lt {r : Routine} (h : Layout.Encodes r.code r.body) {k pc : Nat}
    {i : Instruction} (hi : r.code[k]? = some i) (hends : ¬ i.Ends)
    (hpc : r.body.offsets[k + 1]? = some pc)
    (hsealed : Sealed Instruction.Ends r.code) : pc < r.body.bytes.size := by
  rcases h.reads hpc with ⟨_, _, -, -, hlt, -⟩ | ⟨hend, -⟩
  · exact hlt
  · obtain ⟨last, hlast, hlastEnds⟩ := hsealed.back
    rw [Array.back?_eq_getElem?, ← hend] at hlast
    cases hi.symm.trans hlast
    exact absurd hlastEnds hends

/-- A frame at the start of a routine. -/
theorem Routine.Finished.confined {f : Frame} (h : f.routine.Finished) (hpc : f.pc = 0) :
    f.Confined := by
  intro hsealed
  rw [hpc]
  exact h.encoded.lt _ _ _ _ hsealed.size_pos h.encoded.zero h.encoded.last

/-- A step does not leave sealed code at its end. -/
theorem Machine.Placed.step_confined (hp : env.program.Finished) (hm : m1.Placed)
    (hstep : Exec.step env m1 = .ok .next m) : m.frame.Confined := by
  obtain ⟨i, next, w, hin, hdecode, heffect⟩ := Exec.step_next hstep
  obtain ⟨k, i0, hi0, hk, hnext, hi⟩ := hm.reads hdecode hin
  have hencoded := hm.frame.finished.encoded
  have hgoesOn : ¬ i.Ends → ¬ i0.Ends := fun h hends => h (hi ▸ Instruction.ends_of_placed hends)
  cases heffect with
  | plain hplain =>
    refine hencoded.behind_lt hi0 (hgoesOn fun hends => ?_) hnext
    rcases hends with rfl | hreturn
    · cases hplain
    · cases i <;> cases hplain <;> cases hreturn
  | store | stay =>
    refine hencoded.behind_lt hi0 (hgoesOn fun hends => ?_) hnext
    rcases hends with h | h <;> cases h
  | @jump trigger target vs w' =>
    obtain ⟨target0, rfl⟩ := Instruction.eq_jump_of_placed hi
    have htarget := hencoded.target k _ _ hi0 rfl
    rw [← hi] at htarget
    intro hsealed
    have hlt := hsealed.jumps _ (Array.mem_of_getElem? hi0) _ rfl
    exact hencoded.lt _ _ _ _ hlt htarget.symm hencoded.last
  | @call c callee hcallee => exact (hp.routines c callee hcallee).confined rfl
  | @ret _ v callers caller hhands hcallers hroom =>
    have hchain : Chained m1.frame (callers.push caller) := hcallers ▸ hm.callers
    obtain ⟨haddress, hcalled, -⟩ := hchain.caller
    have hlt := hcalled.pc_lt
    rw [← haddress] at hlt
    exact fun _ => hlt

theorem Chained.pc_lt {f : Frame} {callers : Array Frame} (h : Chained f callers) :
    ∀ g ∈ callers, g.pc < g.routine.body.bytes.size := by
  induction h with
  | outermost => exact fun g hg => by simp at hg
  | call _ hcalled _ ih =>
    intro g hg
    rcases Array.mem_push.mp hg with hg | rfl
    · exact ih g hg
    · exact hcalled.pc_lt

/-! ## Runs -/

/-- Every frame of a machine is of a routine with a property. -/
structure Machine.Peopled (P : Routine → Prop) (m : Machine) : Prop where
  frame : P m.frame.routine
  callers : ∀ f ∈ m.callers, P f.routine

theorem Machine.Peopled.step {P : Routine → Prop}
    (hP : ∀ (c : UInt16) r, env.program.routines[c]? = some r → P r) (hm : m1.Peopled P)
    (hstep : Exec.step env m1 = .ok .next m) : m.Peopled P := by
  obtain ⟨_, _, _, -, -, heffect⟩ := Exec.step_next hstep
  cases heffect with
  | plain | store | stay | jump => exact ⟨hm.frame, hm.callers⟩
  | call hcallee =>
    refine ⟨hP _ _ hcallee, fun f hf => ?_⟩
    rcases Array.mem_push.mp hf with hf | rfl
    · exact hm.callers f hf
    · exact hm.frame
  | @ret _ v callers caller hhands hcallers hroom =>
    have hcallers : m1.callers = callers.push caller := hcallers
    refine ⟨hm.callers caller ?_, fun f hf => hm.callers f ?_⟩ <;> rw [hcallers]
    · exact Array.mem_push_self
    · exact Array.mem_push_of_mem _ hf

/-- A run that has ended has come to a machine whose next step ends it. -/
theorem Machine.run_ended (h : (m.run env n).1 ≠ .paused) :
    ∃ j m1, m.run env j = (.paused, m1) ∧ m.run env n = endOf (Exec.step env m1) := by
  induction n with
  | zero => exact absurd rfl h
  | succ n ih =>
    rcases run_cases env n m with ⟨m1, hm1, -⟩ | ⟨hends, hlast⟩
    · exact ⟨n, m1, hm1, run_succ hm1⟩
    · obtain ⟨j, m1, hm1, hstep⟩ := ih hends
      exact ⟨j, m1, hm1, hlast.trans hstep⟩

/-- A machine that runs compiled code of a sort of routines. -/
structure Machine.Sound (P : Routine → Prop) (m : Machine) : Prop where
  placed : m.Placed
  confined : m.frame.Confined
  peopled : m.Peopled P

theorem Machine.Sound.run {P : Routine → Prop} (hp : env.program.Finished)
    (hP : ∀ (c : UInt16) r, env.program.routines[c]? = some r → P r) (hm : m.Sound P)
    (h : m.run env n = (.paused, m')) : m'.Sound P :=
  run_keeps (fun _ _ hm1 hstep => ⟨(hm1.placed.step hp hstep).1, hm1.placed.step_confined hp hstep,
    hm1.peopled.step hP hstep⟩) hm h

end

/-! ## Running past the end -/

namespace Exec

variable {env : Setting} {m : Machine}

/-- Code is run past its end where control is at the end of it. -/
theorem step_missingReturn {m' : Machine} {name : String}
    (h : step env m = .error (.missingReturn name) m') :
    m.frame.routine.name = name ∧ m.frame.routine.body.bytes.size ≤ m.frame.pc ∧ m' = m := by
  have hsteps := step_steps env m
  rw [h] at hsteps
  cases hsteps with
  | past hpast _ => exact ⟨rfl, hpast, rfl⟩
  | performs _ _ _ heffect =>
    cases heffect with
    | fails he => exact absurd rfl (he name)

/-- A run ends without a result where the only frame is at the end of its code, or where an
instruction stops it. -/
theorem step_halted (h : (Machine.endOf (step env m)).1 = .halted) :
    (m.frame.routine.body.bytes.size ≤ m.frame.pc ∧ m.callers = #[]) ∨
      m.frame.pc < m.frame.routine.body.bytes.size ∧
        ∃ next, m.ahead = .ok (.stop, next) := by
  have hsteps := step_steps env m
  generalize step env m = result at hsteps h
  cases hsteps with
  | done hpast hcallers => exact .inl ⟨hpast, hcallers⟩
  | @performs i next _ _ hin hdecode _ heffect =>
    cases heffect with
    | stop => exact .inr ⟨hin, next, hdecode⟩
    | plain | store | stay | jump | call | ret | overflow | leave | fails => cases h
  | past | garbled => cases h

end Exec

/-! ## Contexts -/

section

variable {image : Image} {env : Setting} {c : Context} {w : World} {fuel : Nat}

/-- The routines of an image, with the one that the context runs. -/
def Context.Runs (image : Image) (c : Context) (r : Routine) : Prop :=
  r ∈ image.routines ∨ c.isMain = true ∧ r = image.main

theorem Context.Spawned.sound (henv : env.program = .load image) (hp : env.program.Finished)
    (hc : c.Spawned env.program) (w : World) : (c.start w).Sound (c.Runs image) := by
  refine ⟨hc.placed hp w, ?_, ?_⟩
  · cases hc with
    | main => exact hp.main.confined rfl
    | call hfunction =>
      obtain ⟨index, hindex⟩ := Program.function_found hfunction
      exact (hp.routines index _ hindex).confined rfl
  · refine ⟨?_, fun f hf => ?_⟩
    · cases hc with
      | main => exact .inr ⟨rfl, by rw [henv]; rfl⟩
      | call hfunction =>
        obtain ⟨index, hindex⟩ := Program.function_found hfunction
        exact .inl (Program.load_routines_found (henv ▸ hindex)).1
    · rw [hc.callers_eq] at hf
      simp at hf

theorem Context.Spawned.sound_run (henv : env.program = .load image) (hp : env.program.Finished)
    (hc : c.Spawned env.program) {n : Nat} {m : Machine}
    (h : (c.start w).run env n = (.paused, m)) : m.Sound (c.Runs image) :=
  (hc.sound henv hp w).run hp (fun _ _ hr => .inl (Program.load_routines_found (henv ▸ hr)).1) h

theorem Context.settle_halted {isMain : Bool} {ending : Ending} {m : Machine}
    (h : (settle isMain ending m).1.status = .halted) :
    ending = .halted ∨ ∃ v, (settle isMain ending m).1.result = some v := by
  obtain ⟨id, frame, callers, pc, world⟩ := m
  cases ending with
  | halted => exact .inl rfl
  | returned v => exact .inr ⟨v, rfl⟩
  | paused | failed => cases h

end

/-- The routines that never run past their end: the code at the top level, constructors, and
functions whose result stands for `void`. -/
def Image.Confines (image : Image) (r : Routine) : Prop :=
  r = image.main ∨ r ∈ image.routines ∧ image.Closes r

/-- The code of an image is sealed where it has to be, and stops at the top level only. -/
structure Image.Sealed (image : Image) : Prop where
  main : Bytescript.Sealed (· = .stop) image.main.code
  unstopped : ∀ r ∈ image.routines, ∀ i ∈ r.code, i ≠ .stop
  routines : ∀ r ∈ image.routines, image.Closes r → Bytescript.Sealed (·.isReturn = true) r.code

namespace Image.Sealed

variable {image : Image} {env : Setting} {c : Context} {w : World} {fuel n : Nat} {m : Machine}

theorem ends (h : image.Sealed) {r : Routine} (hr : image.Confines r) :
    Bytescript.Sealed Instruction.Ends r.code := by
  rcases hr with rfl | ⟨hr, hcloses⟩
  · exact h.main.mono fun _ => .inl
  · exact (h.routines r hr hcloses).mono fun _ => .inr

/-- No frame is at the end of its code. -/
theorem pc_lt (h : image.Sealed) {P : Routine → Prop} (hm : m.Sound P) :
    ∀ f ∈ m.callers.push m.frame, image.Confines f.routine → f.pc < f.routine.body.bytes.size := by
  intro f hf hconfines
  rcases Array.mem_push.mp hf with hf | rfl
  · exact hm.placed.callers.pc_lt f hf
  · exact hm.confined (h.ends hconfines)

/-- What runs past its end is a function that owes a value. -/
theorem missingReturn (h : image.Sealed) (henv : env.program = .load image)
    (hp : env.program.Finished)
    (hc : c.Spawned env.program) {f : Fault} {name : String}
    (hf : (c.execute env fuel w).1.fault = some f)
    (hcause : f.cause = .missingReturn name) :
    ∃ n m, (c.start w).run env n = (.paused, m) ∧ Exec.step env m = .error f.cause m ∧
      m.frame.routine.name = name ∧ m.frame.routine ∈ image.routines ∧
      ¬ image.Closes m.frame.routine := by
  rw [hc.execute_eq] at hf
  obtain ⟨hending, -⟩ := Context.settle_fault hf
  obtain ⟨n, m, hrun, hstep⟩ := Machine.run_failed (Prod.ext hending rfl)
  have hm := hc.sound_run henv hp hrun
  rw [hcause] at hstep ⊢
  obtain ⟨rfl, hpast, heq⟩ := Exec.step_missingReturn hstep
  have hconfines : ¬ image.Confines m.frame.routine := fun hconfines =>
    absurd (hm.confined (h.ends hconfines)) (not_lt.mpr hpast)
  refine ⟨n, m, hrun, heq ▸ hstep, rfl, ?_⟩
  rcases hm.peopled.frame with hr | ⟨-, hmain⟩
  · exact ⟨hr, fun hcloses => hconfines (.inr ⟨hr, hcloses⟩)⟩
  · exact absurd (.inl hmain) hconfines

/-- A context halts by returning, or at the top level by stopping. -/
theorem halted (h : image.Sealed) (henv : env.program = .load image) (hp : env.program.Finished)
    (hc : c.Spawned env.program) (hstatus : (c.execute env fuel w).1.status = .halted)
    (hconfines : ∀ f ∈ c.frames, image.Confines f.routine) :
    (∃ v, (c.execute env fuel w).1.result = some v) ∨
      c.isMain = true ∧ ∃ n m next, (c.start w).run env n = (.paused, m) ∧
        m.ahead = .ok (.stop, next) := by
  rw [hc.execute_eq] at hstatus ⊢
  rcases Context.settle_halted hstatus with hhalted | hreturned
  · right
    obtain ⟨n, m, hrun, hlast⟩ := Machine.run_ended (by rw [hhalted]; nofun)
    have hm := hc.sound_run henv hp hrun
    rw [hlast] at hhalted
    rcases Exec.step_halted hhalted with ⟨hpast, hcallers⟩ | ⟨hin, next, hdecode⟩
    · -- the only frame is the one that the context has begun with
      have hroutine := Machine.run_outermost (hc.callers_eq w) hrun hcallers
      have hfirst : image.Confines m.frame.routine := by
        rw [hroutine]
        cases hc <;> exact hconfines _ (Array.mem_singleton_self _)
      exact absurd (hm.confined (h.ends hfirst)) (not_lt.mpr hpast)
    · rcases hm.peopled.frame with hr | ⟨hmain, -⟩
      · obtain ⟨_, i, hi, -, -, hstop⟩ := hm.placed.reads hdecode hin
        obtain rfl := Instruction.eq_of_placed hstop rfl
        exact absurd rfl (h.unstopped _ hr _ (Array.mem_of_getElem? hi))
      · exact ⟨hmain, n, m, next, hrun, hdecode⟩
  · exact .inl hreturned

end Image.Sealed

/-- Functions that owe no value, and constructors, always return. Their code ends with a return and
no jump aims behind it; at the top level, code ends where the program stops. In no run does a step
begin with a frame of such a routine at the end of its code. So it is never them that run past their
end, and a context made for one of them does not halt but by returning, or at the top level by
stopping. -/
theorem compile_returns {items : List Stmt} {options : CompileOptions} {ops : List TypeOp}
    {journal : Journal} {image : Image} (hops : primitives.Runs ops)
    (h : (Script.compile ⟨items⟩ options (primitives.after ops) journal).1 = .ok image) :
    Sealed (· = .stop) image.main.code ∧
    (∀ r ∈ image.routines, image.Closes r → Sealed (·.isReturn = true) r.code) ∧
    ∀ (env : Setting) (c : Context) (w : World), env.program = .load image → c.Spawned env.program →
      (∀ n m, (c.start w).run env n = (.paused, m) → ∀ f ∈ m.callers.push m.frame,
        image.Confines f.routine → f.pc < f.routine.body.bytes.size) ∧
      (∀ fuel f name, (c.execute env fuel w).1.fault = some f → f.cause = .missingReturn name →
        ∃ n m, (c.start w).run env n = (.paused, m) ∧ Exec.step env m = .error f.cause m ∧
          m.frame.routine.name = name ∧ m.frame.routine ∈ image.routines ∧
          ¬ image.Closes m.frame.routine) ∧
      ∀ fuel, (c.execute env fuel w).1.status = .halted →
      (∀ f ∈ c.frames, image.Confines f.routine) →
        (∃ v, (c.execute env fuel w).1.result = some v) ∨
          c.isMain = true ∧ ∃ n m next, (c.start w).run env n = (.paused, m) ∧
            decodeAt m.frame.routine.body.bytes m.frame.pc = .ok (.stop, next) := by
  obtain ⟨hmain, hroutines⟩ := compile_sealed h hops.linked
  have hsealed : image.Sealed := ⟨hmain, fun r hr => (hroutines r hr).1,
    fun r hr => (hroutines r hr).2⟩
  refine ⟨hmain, hsealed.routines, fun env c w henv hc => ?_⟩
  have hp : env.program.Finished := henv ▸ Program.load_finished (compile_finished h)
  refine ⟨fun n m hrun => hsealed.pc_lt (hc.sound_run henv hp hrun), fun fuel f name hf hcause =>
    ?_, fun fuel hstatus hconfines => ?_⟩
  · exact hsealed.missingReturn henv hp hc hf hcause
  · exact hsealed.halted henv hp hc hstatus hconfines

/-- A name for `void`. -/
def nothingOps : List TypeOp := [.insert .top "nothing" .typedef (some .void)]

open Build in
/-- A function that returns early or not at all. -/
def early : List Stmt :=
  [function "f" [("int", "a")] "nothing"
    [choose [(binary (.compare .lt) (ident "a") (int 2), ret none)] none]]

theorem compile_returns_early : primitives.Runs nothingOps ∧
    ∃ image, (Script.compile ⟨early⟩ {} (primitives.after nothingOps)).1 = .ok image ∧ ∃ r,
      (Program.load image).function "f" = .ok r ∧ r.result ≠ .void ∧ image.Closes r ∧
      Sealed (·.isReturn = true) r.code ∧
      ((Context.forCall r [.int 7] 0).execute (.ofImage image {}) 10 {}).1.status = .halted ∧
      ∃ v, ((Context.forCall r [.int 7] 0).execute (.ofImage image {}) 10 {}).1.result =
        some v := by
  have hops : primitives.Runs nothingOps := by decide
  refine ⟨hops, ?_⟩
  have hok : ((Script.compile ⟨early⟩ {} (primitives.after nothingOps)).1).toOption.any
    (fun image =>
      ((Program.load image).function "f").toOption.any fun r =>
        r.arity = 1 ∧ r.result ≠ .void ∧ image.types.same r.result .void = true ∧
          ((Context.forCall r [.int 7] 0).execute (.ofImage image {}) 10 {}).1.status = .halted) =
            true := by
    decide +kernel
  obtain ⟨image, himage, hok⟩ := exists_of_any hok
  obtain ⟨r, hfunction, hok⟩ := exists_of_any hok
  obtain ⟨harity, hname, hvoid, hhalted⟩ := of_decide_eq_true hok
  obtain ⟨c, hc⟩ := Program.function_found hfunction
  have hmem := (Program.load_routines_found hc).1
  have hcloses : image.Closes r := .inr hvoid
  obtain ⟨-, hsealed, hruns⟩ := compile_returns hops himage
  obtain ⟨-, -, hhalts⟩ := hruns (.ofImage image {}) (.forCall r [.int 7] 0) {} rfl
    (.call hfunction harity)
  have hresult := hhalts 10 hhalted fun f hf => by
    obtain rfl := Array.mem_singleton.mp hf
    exact .inr ⟨hmem, hcloses⟩
  refine ⟨image, himage, r, hfunction, hname, hcloses, hsealed r hmem hcloses, hhalted, ?_⟩
  exact hresult.resolve_right fun h => by cases h.1

/-- The code at the top level owes no value, and it does not end with a return. -/
theorem compile_stops : ∃ image, (Script.compile ⟨[]⟩).1 = .ok image ∧
    image.types.same image.main.result .void = true ∧
    ¬ Sealed (·.isReturn = true) image.main.code := by
  have hok : ((Script.compile ⟨[]⟩).1).toOption.any (fun image =>
      image.types.same image.main.result .void = true ∧ image.main.code = #[.stop]) = true :=
        by decide +kernel
  obtain ⟨image, himage, hok⟩ := exists_of_any hok
  obtain ⟨hvoid, hcode⟩ := of_decide_eq_true hok
  refine ⟨image, himage, hvoid, fun hsealed => ?_⟩
  obtain ⟨i, hi, hreturn⟩ := hsealed.back
  rw [hcode] at hi
  cases hi
  cases hreturn

end Bytescript
