import Bytescript.Proofs.Flow.Routine
import Bytescript.Proofs.Machine.Operands

/-!
# Activations

A machine runs a compiled program in step with the annotations of its routines: the frame of every
routine that has been called and has not returned is at one of its points, or waits for a result in
front of one (`Machine.Fits`). What a step can do to such a machine is said once (`Does`), and every
property of runs is derived from it.

What values on stacks and in slots are like is left open: it is for `V` and `S` to say.
-/

namespace Bytescript

open TypeTable (primitives)

variable {T : Tables} {strict : Prop}

/-! ## Frames -/

namespace Plan

variable (P : Plan T strict)

/-- What lies on the stack of a frame below its own values: the return address, if it was called. -/
def base (f : Frame) : List Value :=
  if (P.home f.routine).role = .main then [] else [.int (.ofNat f.returnAddress)]

/-- A frame is at a point. -/
def At (f : Frame) (p : Point) : Prop :=
  ∃ k, f.routine.body.offsets[k]? = some f.pc ∧ P.points f.routine k = some p

/-- What is known at a point is enough for a frame to go on. -/
def Enters (f : Frame) (p : Point) : Prop :=
  ∃ k, f.routine.body.offsets[k]? = some f.pc ∧ Accepts (P.points f.routine) k p

end Plan

/-- The values of a frame are as a point says. -/
structure Frame.Fits (P : Plan T strict) (V : TypeId → Value → Prop)
    (S : Nat → TypeId → Value → Prop) (p : Point) (f : Frame) : Prop where
  operands : ∃ vs, f.operands = vs ++ P.base f ∧ List.Forall₂ V p.stack vs
  size : f.slots.size = (P.slots f.routine).length
  slots : ∀ (i : Nat) t v, (P.slots f.routine)[i]? = some t → p.live i → f.slots[i]? = some v →
  S i t v

/-- A frame that can go on. -/
structure Frame.Runs (P : Plan T strict) (V : TypeId → Value → Prop)
    (S : Nat → TypeId → Value → Prop) (p : Point) (f : Frame) : Prop extends Fits P V S p f where
  covered : P.Covers f.routine
  point : P.At f p

/-- A frame that can go on as soon as it has been handed a result. -/
structure Frame.Waits (P : Plan T strict) (V : TypeId → Value → Prop)
    (S : Nat → TypeId → Value → Prop)
    (result : TypeId) (p : Point) (f : Frame) : Prop extends Fits P V S p f where
  covered : P.Covers f.routine
  enters : P.Enters f ⟨result :: p.stack, p.live⟩

/-- The frames below a frame, the innermost first, wait for each other. -/
inductive Stacked (P : Plan T strict) (V : TypeId → Value → Prop)
    (S : Nat → Nat → TypeId → Value → Prop) : Frame → List Frame → Prop
  | outermost {f} : f.returnAddress = 0 → Stacked P V S f []
  | call {f caller rest p} : (P.home f.routine).role ≠ .main →
    f.returnAddress = caller.pc → caller.Waits P V (S rest.length) f.routine.result p →
    Stacked P V S caller rest → Stacked P V S f (caller :: rest)

/-- A machine in step with the annotations of its routines. -/
structure Machine.Fits (P : Plan T strict) (V : TypeId → Value → Prop)
    (S : Nat → Nat → TypeId → Value → Prop) (m : Machine) : Prop where
  runs : ∃ p, m.frame.Runs P V (S m.callers.size) p
  stacked : Stacked P V S m.frame m.callers.toList.reverse

/-! ## Steps -/

/-- A machine is at a point, in front of an instruction. -/
structure Plan.Fetches (P : Plan T strict) (m : Machine) (p : Point) (i : Instruction) (next : Nat)
    (w : World) : Prop where
  point : P.At m.frame p
  decodes : m.ahead =
    .ok (i.placed m.frame.routine.body.offsets, next)
  heap : w.heap = m.world.heap

/-- A frame that returns hands over the value on its stack, or nothing at all. -/
def Plan.Hands (P : Plan T strict) (m : Machine) (p : Point) (v : Value) : Prop :=
  p.stack = [m.frame.routine.result] ∧ m.frame.operands = v :: P.base m.frame ∨
    v = .void ∧ m.frame.routine.result = .void

/-- What a step that computes nothing does if all goes well: it moves a value, goes on elsewhere,
calls or returns. -/
inductive Plan.Moves (P : Plan T strict) (m : Machine) : Machine → Prop
  | load {kind slot t st L v next w} :
    P.Fetches m ⟨st, L⟩ (.load kind slot) next w → (P.slots m.frame.routine)[slot.toNat]? = some t →
    L slot.toNat → m.frame.slots[slot.toNat]? = some v →
    P.Enters (m.fetched next w).frame ⟨t :: st, L⟩ →
    P.Moves m ((m.fetched next w).put (v :: m.frame.operands) w)
  | store {slot t st L v rest next w} :
    P.Fetches m ⟨t :: st, L⟩ (.store (primitives.kindOf t) slot) next w →
    (P.slots m.frame.routine)[slot.toNat]? = some t → m.frame.operands = v :: rest →
    v.hasKind (primitives.kindOf t) = true →
    P.Enters (m.fetched next w).frame ⟨st, fun i => i = slot.toNat ∨ L i⟩ →
    P.Moves m (((m.fetched next w).put rest w).store slot.toNat v)
  | jump {i p next target w} :
    P.Fetches m p i next w → i.jumpTarget?.isSome = true → P.Enters (m.fetched target w).frame p →
    P.Moves m (m.fetched target w)
  | branch {i st L n rest next target w} :
    P.Fetches m ⟨.bool :: st, L⟩ i next w → i.jumpTarget?.isSome = true →
    m.frame.operands = .int n :: rest → P.Enters (m.fetched target w).frame ⟨st, L⟩ →
    P.Moves m ((m.fetched target w).put rest w)
  | call {c callee st L args rest next w} :
    P.Fetches m ⟨callee.params.reverse ++ st, L⟩ (.call c) next w →
    m.frame.operands = args ++ rest →
    args.length = callee.params.length → P.Covers callee → (P.home callee).role ≠ .main →
    P.Enters (m.fetched next w).frame ⟨callee.result :: st, L⟩ →
    P.Moves m ⟨m.id, .call callee next args.reverse.toArray,
      m.callers.push ((m.fetched next w).put rest w).frame, m.frame.pc, w⟩
  | ret {i p v callers caller next w} :
    P.Fetches m p i next w → i.isReturn = true → P.Hands m p v → m.callers = callers.push caller →
    P.Moves m ⟨m.id, { caller with pc := m.frame.returnAddress, stack := caller.stack.push v },
      callers, m.frame.pc, w⟩

/-- What a step can do. -/
inductive Does (P : Plan T strict) (env : Setting) (m : Machine) :
    EStateM.Result RunError Machine Flow → Prop
  | plain {i ins outs st L args rest results next w w'} :
    P.Fetches m ⟨ins ++ st, L⟩ i next w → Takes T i ins outs → (∀ c, i ≠ .call c) →
    m.frame.operands = args ++ rest → args.length = ins.length →
    operate env i args w = .ok results w' → results.length = outs.length →
    P.Enters (m.fetched next w).frame ⟨outs ++ st, L⟩ →
    Does P env m (.ok .next ((m.fetched next w).put (results ++ rest) w'))
  | moves {m'} : P.Moves m m' → Does P env m (.ok .next m')
  | halts {m'} : Does P env m (.ok .halt m')
  | leaves {v m'} : Does P env m (.ok (.leave v) m')
  | fails {i ins outs st L args rest next e w w' m'} :
    P.Fetches m ⟨ins ++ st, L⟩ i next w → Takes T i ins outs → (∀ c, i ≠ .call c) →
    m.frame.operands = args ++ rest → args.length = ins.length →
    operate env i args w = .error e w' → Does P env m (.error e m')
  | rejects {i t st L v rest next w m'} :
    P.Fetches m ⟨t :: st, L⟩ i next w → m.frame.operands = v :: rest →
    v.hasKind (primitives.kindOf t) = false →
    Does P env m (.error (.typeMismatch (primitives.kindOf t) v) m')
  | full {limit m'} : Does P env m (.error (.stackOverflow limit) m')
  | deep {limit m'} : Does P env m (.error (.frameOverflow limit) m')
  | past {name m'} : Does P env m (.error (.missingReturn name) m')

/-- A setting in which every call finds a routine that has been annotated as planned. -/
structure Plan.Serves (P : Plan T strict) (env : Setting) : Prop extends env.Links T where
  calls : ∀ c ins outs, Takes T (.call c) ins outs → ∃ callee,
    env.program.routines[c]? = some callee ∧ ins = callee.params.reverse ∧ outs = [callee.result] ∧
    P.Covers callee ∧ (P.home callee).role ≠ .main

/-! ### Reading instructions -/

variable {k target : Nat} {i : Instruction} {r : Routine} {trigger : Trigger} {H : Home}
  {Δ : List TypeId} {G : Annotation} {p : Point}

/-- In front of an instruction of encoded code, a step performs it. -/
theorem step_eq_perform (env : Setting) {m : Machine}
    (henc : Layout.Encodes m.frame.routine.code m.frame.routine.body)
    (hk : m.frame.routine.body.offsets[k]? = some m.frame.pc)
    (hi : m.frame.routine.code[k]? = some i) :
    ∃ next w, m.frame.routine.body.offsets[k + 1]? = some next ∧ w.Alike m.world ∧
      m.ahead = .ok (i.placed m.frame.routine.body.offsets, next) ∧
      Exec.step env m = Exec.perform env (i.placed m.frame.routine.body.offsets)
        (m.fetched next w) := by
  obtain ⟨pc, next, hpc, hnext, hdecode⟩ := henc.decode k i hi
  cases hpc.symm.trans hk
  have hlt : k < m.frame.routine.code.size := (getElem_of_getElem? hi).1
  obtain ⟨w, hw, hstep⟩ := Exec.step_performs env (henc.lt _ _ _ _ hlt hk henc.last) hdecode
  exact ⟨next, w, hnext, hw, hdecode, hstep⟩

theorem Takes.not_jump {ins outs : List TypeId} (h : Takes T i ins outs) :
    i.jumpTarget? = none := by
  have hcomputing := h.isComputing
  cases i <;> first | rfl | cases hcomputing

theorem Instruction.placed_of_not_jump (h : i.jumpTarget? = none) (offsets : Array Nat) :
    i.placed offsets = i := by
  cases i <;> first | rfl | cases h

/-- Where a jump goes to. -/
theorem Layout.Encodes.jump (h : Layout.Encodes r.code r.body)
    (hi : r.code[k]? = some (.jump trigger target.toUInt32)) (hle : target ≤ r.code.size) :
    ∃ offset : UInt32, (Instruction.jump trigger target.toUInt32).placed r.body.offsets =
      .jump trigger offset ∧ r.body.offsets[target]? = some offset.toNat := by
  have hlt : target < UInt32.size := by
    have := h.size_le h.last
    have := h.short
    omega
  have htarget := h.target k _ _ hi rfl
  rw [Nat.toUInt32, UInt32.toNat_ofNat', Nat.mod_eq_of_lt hlt] at htarget
  exact ⟨_, rfl, htarget.symm⟩

/-- Only places in the code are annotated. -/
theorem Routine.Checked.accepts_le (h : r.Checked T strict H Δ G) (hp : Accepts G target p) :
    target ≤ r.code.size := by
  obtain ⟨q, hq, -⟩ := hp
  by_contra hgt
  cases (h.bound target (not_le.mp hgt)).symm.trans hq

/-- Behind the last instruction is the end of the code. -/
theorem Routine.Checked.at_end (h : r.Checked T strict H Δ G) {pc : Nat}
    (hk : r.body.offsets[k]? = some pc)
    (hp : G k = some p) (hlt : ¬ k < r.code.size) : pc = r.body.bytes.size := by
  obtain rfl : k = r.code.size := by
    refine le_antisymm (not_lt.mp fun hgt => ?_) (not_lt.mp hlt)
    cases (h.bound k hgt).symm.trans hp
  exact Option.some.inj (hk.symm.trans h.encoded.last)

theorem Machine.fetched_put (m : Machine) (next : Nat) (w : World) :
    (m.fetched next w).put m.frame.operands w = m.fetched next w := by
  simp [put, fetched, Frame.operands]

/-! ### Performing instructions -/

section

variable {P : Plan T strict} {env : Setting} {m : Machine} {V : TypeId → Value → Prop}
  {S : Nat → TypeId → Value → Prop} {p : Point} {next target : Nat} {w : World}
    {ins st : List TypeId}
  {L : Nat → Prop} {f : Frame} {t : TypeId} {i : Instruction} {slot : UInt16} {trigger : Trigger}
  {offset : UInt32}

/-- Operands of the types that a point has on top. -/
theorem Frame.Fits.split (h : f.Fits P V S ⟨ins ++ st, L⟩) :
    ∃ args rest, f.operands = args ++ (rest ++ P.base f) ∧
      List.Forall₂ V ins args ∧ List.Forall₂ V st rest := by
  obtain ⟨vs, hvs, htypes⟩ := h.operands
  have hargs := List.forall₂_take ins.length htypes
  have hrest := List.forall₂_drop ins.length htypes
  rw [List.take_left] at hargs
  rw [List.drop_left] at hrest
  exact ⟨_, _, by rw [hvs, ← List.append_assoc, List.take_append_drop], hargs, hrest⟩

/-- The value on top. -/
theorem Frame.Fits.top (h : f.Fits P V S ⟨t :: st, L⟩) :
    ∃ v rest, f.operands = [v] ++ (rest ++ P.base f) ∧ V t v := by
  obtain ⟨vs, hvs, htypes⟩ := h.operands
  obtain ⟨v, rest, hv, -, rfl⟩ := List.forall₂_cons_left_iff.mp htypes
  exact ⟨v, rest, hvs, hv⟩

theorem does_plain {outs : List TypeId} (hP : P.Serves env)
    (hf : P.Fetches m ⟨ins ++ st, L⟩ i next w)
    (hfits : m.frame.Fits P V S ⟨ins ++ st, L⟩) (htakes : Takes T i ins outs)
    (hcall : ∀ c, i ≠ .call c)
    (hnext : P.Enters (m.fetched next w).frame ⟨outs ++ st, L⟩) :
    Does P env m (Exec.perform env i (m.fetched next w)) := by
  obtain ⟨args, rest, hargs, htypes, -⟩ := hfits.split
  have hlen : args.length = ins.length := htypes.length_eq.symm
  have hcounts := (operate_spec hP.toLinks htakes hcall hlen).2 w
  have hperform := (operate_spec hP.toLinks htakes hcall hlen).1 (rest ++ P.base m.frame)
    (m.fetched next w) w
  rw [← hargs, Machine.fetched_put] at hperform
  unfold Operation.Ensures at hcounts
  cases hop : operate env i args w with
  | ok results w' =>
    rw [hop] at hperform hcounts
    simp only at hperform
    split at hperform
    · obtain ⟨m', hm'⟩ := hperform
      exact hm' ▸ .full
    · rw [hperform]
      exact .plain hf htakes hcall hargs hlen hop hcounts hnext
  | error e w' =>
    rw [hop] at hperform
    obtain ⟨m', hm'⟩ := hperform
    exact hm' ▸ .fails hf htakes hcall hargs hlen hop

theorem does_load {kind : Kind} (hf : P.Fetches m ⟨st, L⟩ (.load kind slot) next w)
    (hsize : m.frame.slots.size = (P.slots m.frame.routine).length)
    (ht : (P.slots m.frame.routine)[slot.toNat]? = some t) (hlive : L slot.toNat)
    (hnext : P.Enters (m.fetched next w).frame ⟨t :: st, L⟩) :
    Does P env m (Exec.perform env (.load kind slot) (m.fetched next w)) := by
  obtain ⟨hlt, -⟩ := getElem_of_getElem? ht
  have hv := Array.getElem?_eq_getElem (hsize ▸ hlt : slot.toNat < m.frame.slots.size)
  rw [Exec.perform_load (m := m.fetched next w) hv, Follows.push_next]
  split
  · exact .full
  · exact .moves (.load hf ht hlive hv hnext)

theorem does_store (hf : P.Fetches m ⟨t :: st, L⟩ (.store (primitives.kindOf t) slot) next w)
    (hfits : m.frame.Fits P V S ⟨t :: st, L⟩) (ht : (P.slots m.frame.routine)[slot.toNat]? = some t)
    (hnext : P.Enters (m.fetched next w).frame ⟨st, fun i => i = slot.toNat ∨ L i⟩) :
    Does P env m (Exec.perform env (.store (primitives.kindOf t) slot) (m.fetched next w)) := by
  obtain ⟨v, rest, hargs, -⟩ := hfits.top
  obtain ⟨hlt, -⟩ := getElem_of_getElem? ht
  have hlt : slot.toNat < (m.fetched next w).frame.slots.size := hfits.size ▸ hlt
  cases hkind : v.hasKind (primitives.kindOf t) with
  | true =>
    rw [Exec.perform_store hlt hargs hkind]
    exact .moves (.store hf ht hargs hkind hnext)
  | false =>
    obtain ⟨m', hm'⟩ := Exec.perform_store_error env hlt hargs hkind
    rw [hm']
    exact .rejects hf hargs hkind

theorem does_jump (htrigger : trigger = .always)
    (hf : P.Fetches m p (.jump trigger target.toUInt32) next w)
    (hnext : P.Enters (m.fetched offset.toNat w).frame p) :
    Does P env m (Exec.perform env (.jump trigger offset) (m.fetched next w)) := by
  subst htrigger
  exact .moves (.jump hf rfl hnext)

theorem does_branch (htrigger : trigger ≠ .always)
    (hf : P.Fetches m ⟨.bool :: st, L⟩ (.jump trigger target.toUInt32) next w)
    (hfits : m.frame.Fits P V S ⟨.bool :: st, L⟩)
    (htaken : P.Enters (m.fetched offset.toNat w).frame ⟨st, L⟩)
    (hnext : P.Enters (m.fetched next w).frame ⟨st, L⟩) :
    Does P env m (Exec.perform env (.jump trigger offset) (m.fetched next w)) := by
  obtain ⟨v, rest, hargs, -⟩ := hfits.top
  cases hkind : v.hasKind .int with
  | true =>
    obtain ⟨n, rfl⟩ : ∃ n, v = .int n := by cases v <;> first | exact ⟨_, rfl⟩ | cases hkind
    rw [Exec.perform_branch (m := m.fetched next w) htrigger hargs]
    cases trigger.test n with
    | true => exact .moves (.branch hf rfl hargs htaken)
    | false => exact .moves (.branch hf rfl hargs hnext)
  | false =>
    obtain ⟨m', hm'⟩ := Exec.perform_branch_error env _ (m := m.fetched next w) htrigger hargs hkind
    rw [hm']
    exact .rejects hf hargs hkind

theorem does_call {c : UInt16} {callee : Routine}
    (hf : P.Fetches m ⟨callee.params.reverse ++ st, L⟩ (.call c) next w)
    (hfits : m.frame.Fits P V S ⟨callee.params.reverse ++ st, L⟩)
    (hcallee : env.program.routines[c]? = some callee) (hcovers : P.Covers callee)
    (hrole : (P.home callee).role ≠ .main)
    (hnext : P.Enters (m.fetched next w).frame ⟨callee.result :: st, L⟩) :
    Does P env m (Exec.perform env (.call c) (m.fetched next w)) := by
  obtain ⟨args, rest, hargs, htypes, -⟩ := hfits.split
  have hlen : args.length = callee.params.length := by rw [← htypes.length_eq, List.length_reverse]
  rw [Exec.perform_call (m := m.fetched next w) hcallee hargs hlen]
  split
  · exact .deep
  · exact .moves (.call hf hargs hlen hcovers hrole hnext)

theorem does_ret {v : Value} (hf : P.Fetches m p i next w) (hret : i.isReturn = true)
    (hhands : P.Hands m p v)
    (hrole : (P.home m.frame.routine).role ≠ .main) (hback : m.frame.returnAddress < 2 ^ 64) :
    Does P env m (Exec.ret env v ((m.fetched next w).put (P.base m.frame) w)) := by
  have hargs : ((m.fetched next w).put (P.base m.frame) w).frame.operands =
      [.int (.ofNat m.frame.returnAddress)] := by
    rw [Machine.put_operands, Plan.base, if_neg hrole]
  cases hcallers : m.callers.back? with
  | none =>
    rw [Exec.ret_leave (m := (m.fetched next w).put (P.base m.frame) w) hargs hback
      (Array.back?_eq_none_iff.mp hcallers)]
    exact .leaves
  | some caller =>
    obtain ⟨callers, hpush⟩ := Array.back?_eq_some_iff.mp hcallers
    rw [Exec.ret_push (m := (m.fetched next w).put (P.base m.frame) w) hargs hback hpush,
      Follows.push_next]
    split
    · exact .full
    · have hmoves : P.Moves m _ := .ret hf hret hhands hpush
      rw [← Frame.operands_push] at hmoves
      exact .moves hmoves

end

section

variable {P : Plan T strict} {env : Setting} {m : Machine} {V : TypeId → Value → Prop}
  {S : Nat → Nat → TypeId → Value → Prop}

/-- Return addresses are offsets. -/
theorem Stacked.returnAddress_lt {f : Frame} {rest : List Frame} (h : Stacked P V S f rest) :
    f.returnAddress < 2 ^ 64 := by
  cases h with
  | outermost hzero =>
    rw [hzero]
    decide
  | @call _ caller _ _ _ hback hwaits _ =>
    have henc := hwaits.covered.encoded
    obtain ⟨k, hk, -⟩ := hwaits.enters
    have := henc.offset_le hk
    have := henc.short
    have : UInt32.size = 2 ^ 32 := rfl
    omega

/-- Whatever a step does to a machine in step with its annotations, `Does` tells it. -/
theorem step_does (hP : P.Serves env) (hm : m.Fits P V S) : Does P env m (Exec.step env m) := by
  obtain ⟨p, hruns⟩ := hm.runs
  have hchecked := hruns.covered
  obtain ⟨k, hk, hp⟩ := hruns.point
  by_cases hlt : k < m.frame.routine.code.size
  · have hi := Array.getElem?_eq_getElem hlt
    obtain ⟨q, hq, hchecks⟩ := hchecked.checks k _ hi
    obtain rfl := Option.some.inj (hq.symm.trans hp)
    generalize m.frame.routine.code[k] = i at hi hchecks
    obtain ⟨next, w, hnext, hworld, hdecode, hstep⟩ := step_eq_perform env hchecked.encoded hk hi
    have hf : P.Fetches m q i next w := ⟨hruns.point, hdecode, hworld.heap⟩
    have henters : ∀ {p' : Point}, Accepts (P.points m.frame.routine) (k + 1) p' →
        P.Enters (m.fetched next w).frame p' := fun h => ⟨k + 1, hnext, h⟩
    rw [hstep]
    cases hchecks with
    | plain htakes hacc =>
      rw [Instruction.placed_of_not_jump htakes.not_jump]
      by_cases hcall : ∃ c, i = .call c
      · obtain ⟨c, rfl⟩ := hcall
        obtain ⟨callee, hcallee, rfl, rfl, hcovers, hrole⟩ := hP.calls c _ _ htakes
        exact does_call hf hruns.toFits hcallee hcovers hrole (henters hacc)
      · exact does_plain hP hf hruns.toFits htakes (fun c hc => hcall ⟨c, hc⟩) (henters hacc)
    | load ht hlive hacc => exact does_load hf hruns.size ht hlive (henters hacc)
    | store ht hacc => exact does_store hf hruns.toFits ht (henters hacc)
    | jump hacc =>
      obtain ⟨offset, hplaced, hoffset⟩ := hchecked.encoded.jump hi (hchecked.accepts_le hacc)
      rw [hplaced]
      exact does_jump rfl hf ⟨_, hoffset, hacc⟩
    | branch htrigger hacc hfall =>
      obtain ⟨offset, hplaced, hoffset⟩ := hchecked.encoded.jump hi (hchecked.accepts_le hacc)
      rw [hplaced]
      exact does_branch htrigger hf hruns.toFits ⟨_, hoffset, hacc⟩ (henters hfall)
    | ret hrole =>
      obtain ⟨vs, hvs, htypes⟩ := hruns.operands
      obtain ⟨v, rfl⟩ : ∃ v, vs = [v] := List.length_eq_one_iff.mp htypes.length_eq.symm
      have hpop : Exec.pop (m.fetched next w) =
          .ok v ((m.fetched next w).put (P.base m.frame) w) := by
        rw [← Machine.fetched_put, hvs]
        exact Mirrors.pop (m.fetched next w) w
      simp only [Instruction.placed, Exec.perform]
      rw [Exec.bind_of_ok hpop]
      refine does_ret hf rfl (.inl ⟨?_, hvs⟩) hrole hm.stacked.returnAddress_lt
      rw [hchecked.result_eq hrole]
    | retVoid hrole hvoid =>
      obtain ⟨vs, hvs, htypes⟩ := hruns.operands
      obtain rfl : vs = [] := List.length_eq_zero_iff.mp htypes.length_eq.symm
      have hdoes : Does P env m (Exec.ret env .void ((m.fetched next w).put (P.base m.frame) w)) :=
        does_ret hf rfl (.inr ⟨rfl, (hchecked.result_eq hrole).symm.trans hvoid⟩) hrole
          hm.stacked.returnAddress_lt
      rw [List.nil_append] at hvs
      rwa [← hvs, Machine.fetched_put] at hdoes
    | stop => exact .halts
  · have hend := hchecked.at_end hk hp hlt
    rw [Exec.step_past (Nat.le_of_eq hend.symm)]
    split
    · exact .halts
    · exact .past

end

/-! ## What a step keeps -/

section

variable {P : Plan T strict} {V V' : TypeId → Value → Prop} {S S' : Nat → TypeId → Value → Prop}
  {p : Point} {f g : Frame}

/-- A frame is at one point only. -/
theorem Plan.At.unique {q : Point} (h : P.At f p) (h' : P.At f q) (hf : P.Covers f.routine) :
    p = q := by
  obtain ⟨j, hj, hp⟩ := h
  obtain ⟨k, hk, hq⟩ := h'
  obtain rfl := hf.encoded.offset_inj hj hk
  exact Option.some.inj (hp.symm.trans hq)

theorem Frame.Fits.mono (h : f.Fits P V S p) (hV : ∀ t v, V t v → V' t v)
    (hS : ∀ i t v, S i t v → S' i t v) : f.Fits P V' S' p where
  operands := by
    obtain ⟨vs, hvs, htypes⟩ := h.operands
    exact ⟨vs, hvs, htypes.imp fun t v => hV t v⟩
  size := h.size
  slots i t v ht hlive hv := hS i t v (h.slots i t v ht hlive hv)

/-- The frame goes on elsewhere with other operands. -/
theorem Frame.Fits.operate {m : Machine} (h : m.frame.Fits P V S p) {vs : List Value}
    {st : List TypeId}
    (hvs : List.Forall₂ V' st vs) (hS : ∀ i t v, S i t v → S' i t v) (next : Nat) (w w' : World) :
    ((m.fetched next w).put (vs ++ P.base m.frame) w').frame.Fits P V' S' ⟨st, p.live⟩ where
  operands := ⟨vs, Machine.put_operands .., hvs⟩
  size := h.size
  slots i t v ht hlive hv := hS i t v (h.slots i t v ht hlive hv)

/-- Where it matters what is live, nothing is live at first. -/
theorem Locals.empty_not_live (i : Nat) : ¬ Locals.empty.live True i := by
  intro hi
  obtain ⟨_, _, _, hname, -⟩ := hi trivial
  cases hname

variable {r : Routine}

/-- The slots of a frame are empty at first. -/
theorem Frame.entered_slots {back : Nat} {stack : Array Value} {L : Nat → Prop} {Δ : List TypeId}
    (hS : ∀ i t, L i → S i t .void) (i : Nat) (t : TypeId) (v : Value) (_ : Δ[i]? = some t)
    (hlive : L i)
    (hv : (Frame.enter r back stack).slots[i]? = some v) : S i t v := by
  rw [Frame.enter, Array.getElem?_replicate] at hv
  split at hv
  · cases hv
    exact hS i t hlive
  · cases hv

/-- A routine is entered with arguments of the types of its parameters. -/
theorem Frame.call_fits (hr : P.Covers r) (hrole : (P.home r).role ≠ .main) {args : List Value}
    (hargs : List.Forall₂ V r.params args) (hS : ∀ i t, Locals.empty.live strict i → S i t .void)
    (back : Nat) :
    (Frame.call r back args.toArray).Fits P V S ⟨r.params, Locals.empty.live strict⟩ where
  operands := by
    refine ⟨args, ?_, hargs⟩
    have hbase : P.base (Frame.call r back args.toArray) = [.int (.ofNat back)] := if_neg hrole
    rw [hbase]
    simp [Frame.operands, Frame.call, Frame.enter]
  size := by
    rw [Frame.call, Frame.enter, Array.size_replicate]
    exact hr.slots_eq
  slots := Frame.entered_slots hS

theorem Plan.enters_start (hr : P.Covers r) (back : Nat) (stack : Array Value) :
    P.Enters (.enter r back stack) ⟨r.params, Locals.empty.live strict⟩ :=
  ⟨0, hr.encoded.zero, hr.entry⟩

/-- A frame that knows enough for a point is at one. -/
theorem Frame.Fits.runs (h : f.Fits P V S p) (hserves : ∀ a b v, a.Serves b → V a v → V b v)
    (hcovered : P.Covers f.routine) (henters : P.Enters f p) : ∃ q, f.Runs P V S q := by
  obtain ⟨k, hk, q, hq, hrefines⟩ := henters
  obtain ⟨vs, hvs, htypes⟩ := h.operands
  have hserved : ∀ {ps qs : List TypeId} {vs : List Value}, List.Forall₂ TypeId.Serves ps qs →
      List.Forall₂ V ps vs → List.Forall₂ V qs vs := by
    intro ps qs vs hps hvs
    induction hps generalizing vs with
    | nil => exact hvs
    | cons hab _ ih =>
      obtain ⟨v, vs', hv, hvs', rfl⟩ := List.forall₂_cons_left_iff.mp hvs
      exact .cons (hserves _ _ v hab hv) (ih hvs')
  exact ⟨q, ⟨⟨vs, hvs, hserved hrefines.stack htypes⟩, h.size,
    fun i t v ht hlive hv => h.slots i t v ht (hrefines.live i hlive) hv⟩, hcovered, k, hk, hq⟩

end

/-- What is said about values and slots carries over from a machine to the next one. -/
structure Carries (T : Tables) (strict : Prop) (m : Machine) (V V' : TypeId → Value → Prop)
    (S S' : Nat → Nat → TypeId → Value → Prop) : Prop where
  values : ∀ t v, V t v → V' t v
  serves : ∀ a b v, a.Serves b → V' a v → V' b v
  slots : ∀ d ≤ m.callers.size, ∀ i t v, S d i t v → S' d i t v
  loads : ∀ {i t v}, S m.callers.size i t v → V' t v
  stores : ∀ {slot : UInt16} {kind next t v},
    m.ahead = .ok (.store kind slot, next) → V t v →
    v.hasKind (primitives.kindOf t) = true → S' m.callers.size slot.toNat t v
  enters : ∀ {i t}, Locals.empty.live strict i → S' (m.callers.size + 1) i t .void
  void : V' .void .void

section

variable {P : Plan T strict} {V V' : TypeId → Value → Prop} {S S' : Nat → Nat → TypeId → Value →
  Prop} {m m' : Machine} {f : Frame} {rest : List Frame}

theorem Stacked.mono (h : Stacked P V S f rest) (hV : ∀ t v, V t v → V' t v)
    (hS : ∀ d < rest.length, ∀ i t v, S d i t v → S' d i t v) : Stacked P V' S' f rest := by
  induction h with
  | outermost hzero => exact .outermost hzero
  | call hrole hback hwaits _ ih =>
    refine .call hrole hback ⟨hwaits.toFits.mono hV (hS _ (Nat.lt_succ_self _)), hwaits.covered,
      hwaits.enters⟩ (ih fun d hd => hS d (Nat.lt_succ_of_lt hd))

theorem Stacked.congr {g : Frame} (h : Stacked P V S f rest) (hroutine : g.routine = f.routine)
    (hback : g.returnAddress = f.returnAddress) : Stacked P V S g rest := by
  cases h with
  | outermost hzero => exact .outermost (hback.trans hzero)
  | call hrole haddress hwaits hrest =>
    exact .call (hroutine ▸ hrole) (hback.trans haddress) (hroutine ▸ hwaits) hrest

theorem stacked_push (callers : Array Frame) (f : Frame) :
    (callers.push f).toList.reverse = f :: callers.toList.reverse := by
  rw [Array.toList_push, List.reverse_append, List.reverse_singleton, List.singleton_append]

/-- A step within a frame. -/
theorem Carries.within (h : Carries T strict m V V' S S') (hm : m.Fits P V S) {q : Point}
    (hroutine : m'.frame.routine = m.frame.routine)
    (hback : m'.frame.returnAddress = m.frame.returnAddress) (hcallers : m'.callers = m.callers)
    (hfits : m'.frame.Fits P V' (S' m.callers.size) q) (henters : P.Enters m'.frame q) :
    m'.Fits P V' S' := by
  obtain ⟨p, hruns⟩ := hm.runs
  refine ⟨?_, ?_⟩
  · rw [hcallers]
    exact hfits.runs h.serves (hroutine ▸ hruns.covered) henters
  · rw [hcallers]
    refine (hm.stacked.congr hroutine hback).mono h.values fun d hd => h.slots d ?_
    simp only [List.length_reverse, Array.length_toList] at hd
    exact hd.le

/-- A step that computes. -/
theorem Carries.computes (h : Carries T strict m V V' S S') (hm : m.Fits P V S)
    {ins outs st : List TypeId}
    {L : Nat → Prop} {args rest results : List Value} {next : Nat} {w w' : World}
    (hf : P.Fetches m ⟨ins ++ st, L⟩ i next w) (hargs : m.frame.operands = args ++ rest)
    (hlen : args.length = ins.length) (hnext : P.Enters (m.fetched next w).frame ⟨outs ++ st, L⟩)
    (houts : List.Forall₂ V ins args → List.Forall₂ V' outs results) :
    ((m.fetched next w).put (results ++ rest) w').Fits P V' S' := by
  obtain ⟨p, hruns⟩ := hm.runs
  obtain rfl := hruns.point.unique hf.point hruns.covered
  obtain ⟨args', rest', hsplit, hins, hst⟩ := hruns.toFits.split
  obtain ⟨rfl, rfl⟩ := List.append_inj (hargs.symm.trans hsplit) (hlen.trans hins.length_eq)
  have hkept : List.Forall₂ V' st rest' := hst.imp fun t v => h.values t v
  have hfits := hruns.toFits.operate (List.rel_append (houts hins) hkept)
    (h.slots m.callers.size le_rfl) next w w'
  rw [List.append_assoc] at hfits
  exact h.within hm rfl rfl rfl hfits hnext

theorem Plan.Moves.heap (h : P.Moves m m') : m'.world.heap = m.world.heap := by
  cases h with
  | load hf | store hf | jump hf | branch hf | call hf | ret hf => exact hf.heap

theorem Carries.moves (h : Carries T strict m V V' S S') (hm : m.Fits P V S)
    (hmoves : P.Moves m m') : m'.Fits P V' S' := by
  obtain ⟨p, hruns⟩ := hm.runs
  have hslots := h.slots m.callers.size le_rfl
  have hkeep : ∀ {st : List TypeId} {vs : List Value}, List.Forall₂ V st vs →
  List.Forall₂ V' st vs :=
    fun hvs => hvs.imp fun t v => h.values t v
  cases hmoves with
  | @load kind slot t st L v next w hf ht hlive hv hnext =>
    obtain rfl := hruns.point.unique hf.point hruns.covered
    obtain ⟨vs, hvs, htypes⟩ := hruns.operands
    have hv := h.loads (hruns.slots _ t v ht hlive hv)
    have hfits := hruns.toFits.operate (.cons hv (hkeep htypes)) hslots next w w
    rw [List.cons_append, ← hvs] at hfits
    exact h.within hm rfl rfl rfl hfits hnext
  | @store slot t st L v rest next w hf ht hoperands hkind hnext =>
    obtain rfl := hruns.point.unique hf.point hruns.covered
    obtain ⟨vs, hvs, htypes⟩ := hruns.operands
    obtain ⟨v', vs', hv', hst, rfl⟩ := List.forall₂_cons_left_iff.mp htypes
    cases hoperands.symm.trans hvs
    have hfits := hruns.toFits.operate (hkeep hst) hslots next w w
    have hstored : Frame.Fits P V' (S' m.callers.size) ⟨st, fun i => i = slot.toNat ∨ L i⟩
        (((m.fetched next w).put (vs' ++ P.base m.frame) w).store slot.toNat v).frame := by
      refine ⟨hfits.operands, (Array.size_setIfInBounds ..).trans hruns.size,
        fun i t' u ht' hlive hu => ?_⟩
      have hstore : (m.frame.slots.setIfInBounds slot.toNat v)[i]? = some u := hu
      rw [Array.getElem?_setIfInBounds] at hstore
      split at hstore
      next heq =>
        subst heq
        obtain ⟨-, hstore⟩ := Option.ite_none_right_eq_some.mp hstore
        cases hstore
        cases ht.symm.trans ht'
        exact h.stores hf.decodes hv' hkind
      next hne =>
        rcases hlive with rfl | hlive
        · exact absurd rfl hne
        · exact hslots i t' u (hruns.slots i t' u ht' hlive hstore)
    exact h.within hm rfl rfl rfl hstored hnext
  | @jump i p next target w hf hjump hnext =>
    obtain rfl := hruns.point.unique hf.point hruns.covered
    obtain ⟨vs, hvs, htypes⟩ := hruns.operands
    have hfits := hruns.toFits.operate (hkeep htypes) hslots target w w
    rw [← hvs, Machine.fetched_put] at hfits
    exact h.within hm rfl rfl rfl hfits hnext
  | @branch i st L n rest next target w hf hjump hoperands hnext =>
    obtain rfl := hruns.point.unique hf.point hruns.covered
    obtain ⟨vs, hvs, htypes⟩ := hruns.operands
    obtain ⟨v', vs', hv', hst, rfl⟩ := List.forall₂_cons_left_iff.mp htypes
    cases hoperands.symm.trans hvs
    exact h.within hm rfl rfl rfl (hruns.toFits.operate (hkeep hst) hslots target w w) hnext
  | @call c callee st L args rest next w hf hargs hlen hcovers hrole hnext =>
    obtain rfl := hruns.point.unique hf.point hruns.covered
    obtain ⟨args', rest', hsplit, hins, hst⟩ := hruns.toFits.split
    obtain ⟨rfl, rfl⟩ := List.append_inj (hargs.symm.trans hsplit)
      (hlen.trans ((List.length_reverse).symm.trans hins.length_eq))
    have hwaits := hruns.toFits.operate (hkeep hst) hslots next w w
    have hins : List.Forall₂ V' callee.params args.reverse := by
      rw [← List.forall₂_reverse_iff, List.reverse_reverse]
      exact hkeep hins
    have hcallee := Frame.call_fits (S := S' (m.callers.size + 1)) hcovers hrole hins
      (fun i t hlive => h.enters hlive) next
    refine ⟨?_, ?_⟩
    · rw [Array.size_push]
      exact hcallee.runs h.serves hcovers (Plan.enters_start hcovers _ _)
    · rw [stacked_push]
      refine .call hrole rfl (p := ⟨st, L⟩) ⟨?_, hruns.covered, hnext⟩ ?_
      · rw [List.length_reverse, Array.length_toList]
        exact hwaits
      · have hstacked : Stacked P V S ((m.fetched next w).put (rest' ++ P.base m.frame) w).frame
            m.callers.toList.reverse := hm.stacked.congr rfl rfl
        refine hstacked.mono h.values fun d hd => h.slots d ?_
        simp only [List.length_reverse, Array.length_toList] at hd
        exact hd.le
  | @ret i p v callers caller next w hf hret hhands hcallers =>
    obtain rfl := hruns.point.unique hf.point hruns.covered
    have hv : V' m.frame.routine.result v := by
      rcases hhands with ⟨hstack, hoperands⟩ | ⟨rfl, hvoid⟩
      · obtain ⟨vs, hvs, htypes⟩ := hruns.operands
        rw [hstack] at htypes
        obtain ⟨v', vs', hv', hnil, rfl⟩ := List.forall₂_cons_left_iff.mp htypes
        obtain ⟨rfl, -⟩ := List.cons.inj (hoperands.symm.trans hvs)
        exact h.values _ _ hv'
      · rw [hvoid]
        exact h.void
    have hstacked := hm.stacked
    rw [hcallers, stacked_push] at hstacked
    cases hstacked with
    | @call _ _ _ q hrole hback hwaits hrest =>
      rw [List.length_reverse, Array.length_toList] at hwaits
      have hlt : callers.size ≤ m.callers.size := by
        rw [hcallers, Array.size_push]
        exact Nat.le_succ _
      have hfits := hwaits.toFits.mono h.values (h.slots callers.size hlt)
      have hpushed : Frame.Fits P V' (S' callers.size) ⟨m.frame.routine.result :: q.stack, q.live⟩
          { caller with pc := m.frame.returnAddress, stack := caller.stack.push v } := by
        obtain ⟨vs, hvs, htypes⟩ := hfits.operands
        refine ⟨⟨v :: vs, ?_, .cons hv htypes⟩, hfits.size, hfits.slots⟩
        have hbase : P.base { caller with
            pc := m.frame.returnAddress, stack := caller.stack.push v } = P.base caller := rfl
        rw [hbase, List.cons_append, ← hvs]
        simp [Frame.operands]
      refine ⟨hpushed.runs h.serves hwaits.covered ?_, ?_⟩
      · rw [hback]
        exact hwaits.enters
      · have hrest : Stacked P V S { caller with
            pc := m.frame.returnAddress, stack := caller.stack.push v } callers.toList.reverse :=
          hrest.congr rfl rfl
        refine hrest.mono h.values fun d hd => h.slots d ?_
        simp only [List.length_reverse, Array.length_toList] at hd
        omega

end

end Bytescript
