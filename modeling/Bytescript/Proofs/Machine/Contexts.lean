import Bytescript.Context
import Bytescript.Proofs.Machine.Effects

/-!
# Contexts

A context that has been made for the top-level code or for a call runs one machine, from its first
state on. How the context ends is how the run ends.
-/

namespace Bytescript

namespace Context

/-- A context as it is made for the top-level code, or for a call of a free function with as many
arguments as it has parameters. -/
inductive Spawned (p : Program) : Context → Prop
  | main {id} : Spawned p (.forMain p id)
  | call {name r args id} : p.function name = .ok r →
    r.arity = args.length → Spawned p (.forCall r args id)

/-- The machine that a context starts with. -/
def start (c : Context) (w : World) : Machine :=
  ⟨c.id, c.frames.back?.getD default, c.frames.pop, c.pc, w.note .debug fun _ =>
    s!"context {c.id}: running"⟩

variable {p : Program} {c : Context}

theorem Spawned.execute_eq (h : c.Spawned p) (env : Setting) (fuel : Nat) (w : World) :
    c.execute env fuel w =
      settle c.isMain ((c.start w).run env fuel).1 ((c.start w).run env fuel).2 := by
  cases h <;> rfl

theorem Spawned.callers_eq (h : c.Spawned p) (w : World) : (c.start w).callers = #[] := by
  cases h <;> rfl

theorem settle_fault {isMain : Bool} {ending : Ending} {m : Machine} {f : Fault}
    (h : (settle isMain ending m).1.fault = some f) : ending = .failed f.cause ∧
      f.routine = m.frame.routine.name ∧ f.pc = m.pc ∧ f.mark = m.frame.routine.markAt m.pc := by
  obtain ⟨id, frame, callers, pc, world⟩ := m
  cases ending with
  | failed cause =>
    cases h
    exact ⟨rfl, rfl, rfl, rfl⟩
  | paused | halted | returned => cases h

end Context

/-- A setting without natives. -/
def Setting.ofImage (image : Image) (limits : Limits) : Setting := ⟨.load image, #[], limits⟩

variable {p : Program} {name : String} {r : Routine}

theorem Program.routine_found {c : UInt16}
    (h : (match p.routines[c]? with
      | some r => return r
      | none => throw (.unknown name) : Except LookupError Routine) = .ok r) : p.routines[c]? =
        some r := by
  split at h
  next hfound =>
    cases h
    exact hfound
  · cases h

/-- A free function that is found by name is one of the routines. -/
theorem Program.function_found (h : p.function name = .ok r) :
    ∃ c : UInt16, p.routines[c]? = some r := by
  unfold Program.function at h
  split at h
  · exact ⟨_, routine_found h⟩
  · split at h
    · cases h
    · exact ⟨_, routine_found h⟩
    · cases h

namespace Machine

variable {env : Setting} {m m' : Machine}

theorem run_of_step (h : Exec.step env m = .ok .next m') (n : Nat) :
    m.run env (n + 1) = m'.run env n := by
  rw [run, h]

/-- A run goes on where it has paused. -/
theorem run_add {j : Nat} (h : m.run env j = (.paused, m')) (n : Nat) :
    m.run env (j + n) = m'.run env n := by
  induction j generalizing m with
  | zero =>
    cases h
    rw [Nat.zero_add]
  | succ j ih =>
    rw [Nat.add_right_comm, run]
    rw [run] at h
    split at h
    · exact ih h
    all_goals cases h

variable {n : Nat} {e : RunError}

/-- A run that has paused after one more step had paused before. -/
theorem run_paused (h : m.run env (n + 1) = (.paused, m')) :
    ∃ m1, m.run env n = (.paused, m1) ∧ Exec.step env m1 = .ok .next m' := by
  rcases run_cases env n m with ⟨m1, hm1, hlast⟩ | ⟨hends, hlast⟩
  · refine ⟨m1, hm1, ?_⟩
    rw [hlast, run] at h
    split at h
    next hstep =>
      cases h
      exact hstep
    all_goals cases h
  · rw [hlast] at h
    exact absurd (congrArg Prod.fst h) hends

/-- How a run of one step ends. -/
def endOf : EStateM.Result RunError Machine Flow → Ending × Machine
  | .ok .next m => (.paused, m)
  | .ok .halt m => (.halted, m)
  | .ok (.leave result) m => (.returned result, m)
  | .error cause m => (.failed cause, m)

theorem run_succ (h : m.run env n = (.paused, m')) :
    m.run env (n + 1) = endOf (Exec.step env m') := by
  rcases run_cases env n m with ⟨m1, hm1, hlast⟩ | ⟨hends, -⟩
  · obtain ⟨-, rfl⟩ := Prod.mk.inj (h.symm.trans hm1)
    exact hlast
  · exact absurd (congrArg Prod.fst h) hends

/-- Once a run has ended, more fuel changes nothing. -/
theorem run_stable {k : Nat} (h : (m.run env n).1 ≠ .paused) (hk : n ≤ k) :
    m.run env k = m.run env n := by
  induction hk with
  | refl => rfl
  | step _ ih =>
    rcases run_cases env _ m with ⟨m1, hm1, -⟩ | ⟨-, hlast⟩
    · rw [← ih, hm1] at h
      exact absurd rfl h
    · exact hlast.trans ih

/-- A run that fails has come to a machine whose next step fails. -/
theorem run_failed (h : m.run env n = (.failed e, m')) :
    ∃ j m1, m.run env j = (.paused, m1) ∧ Exec.step env m1 = .error e m' := by
  induction n with
  | zero => cases h
  | succ n ih =>
    rcases run_cases env n m with ⟨m1, hm1, hlast⟩ | ⟨-, hlast⟩
    · refine ⟨n, m1, hm1, ?_⟩
      rw [hlast, run] at h
      split at h
      · cases h
      · cases h
      · cases h
      next hstep =>
        cases h
        exact hstep
    · exact ih (hlast ▸ h)

theorem step_of_run_one (h : (m.run env 1).1 = .failed e) :
    ∃ m', Exec.step env m = .error e m' := by
  rw [run] at h
  split at h
  · cases h
  · cases h
  · cases h
  next m' hstep =>
    cases h
    exact ⟨m', hstep⟩

/-- What each step keeps holds as long as the machine runs. -/
theorem run_keeps {I : Machine → Prop} (hstep : ∀ m m', I m → Exec.step env m = .ok .next m' → I m')
    (hm : I m) (h : m.run env n = (.paused, m')) : I m' := by
  induction n generalizing m' with
  | zero =>
    cases h
    exact hm
  | succ n ih =>
    obtain ⟨m1, hm1, hlast⟩ := run_paused h
    exact hstep m1 m' (ih hm1) hlast

/-- The frame that all others have been called from. -/
def outermost (m : Machine) : Frame := m.callers[0]?.getD m.frame

theorem outermost_push {callers : Array Frame} {f g : Frame} {id pc : Nat} {w : World} :
    outermost ⟨id, g, callers.push f, pc, w⟩ = callers[0]?.getD f := by
  rw [outermost, Array.getElem?_push]
  split
  next hzero => rw [Array.getElem?_eq_none (Nat.le_of_eq hzero.symm), Option.getD_some,
    Option.getD_none]
  next hne =>
    have hlt : 0 < callers.size := Nat.pos_of_ne_zero fun h => hne h.symm
    rw [Array.getElem?_eq_getElem hlt, Option.getD_some, Option.getD_some]

theorem step_outermost (h : Exec.step env m = .ok .next m') :
    m'.outermost.routine = m.outermost.routine := by
  have hkept : ∀ {f g : Frame} {callers : Array Frame}, f.routine = g.routine →
      (callers[0]?.getD f).routine = (callers[0]?.getD g).routine := by
    intro f g callers hroutine
    cases callers[0]? with
    | none => exact hroutine
    | some _ => rfl
  obtain ⟨_, _, _, -, -, heffect⟩ := Exec.step_next h
  cases heffect with
  | plain | store | stay | jump => exact hkept rfl
  | call =>
    rw [outermost_push]
    exact hkept rfl
  | @ret _ v callers caller _ hcallers =>
    have hm : m.outermost = callers[0]?.getD caller := by
      obtain ⟨id, frame, _, pc, w⟩ := m
      obtain rfl : _ = callers.push caller := hcallers
      exact outermost_push
    rw [hm]
    exact hkept rfl

/-- A frame without callers is the one that the run began with. -/
theorem run_outermost (hstart : m.callers = #[]) (h : m.run env n = (.paused, m'))
    (hcallers : m'.callers = #[]) : m'.frame.routine = m.frame.routine := by
  have hkept := run_keeps (I := fun m1 => m1.outermost.routine = m.outermost.routine)
    (fun _ _ hm1 hstep => (step_outermost hstep).trans hm1) rfl h
  rw [outermost, outermost, hstart, hcallers] at hkept
  exact hkept

end Machine

end Bytescript
