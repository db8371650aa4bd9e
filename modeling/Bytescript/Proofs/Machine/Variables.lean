import Bytescript.Proofs.Machine.Safety

/-!
# Variables are initialised before they are read

Where declarations stand only where a scope is opened for them (`scopedAll`), a slot is read only
after it has been written by the same activation of its routine. This is a matter of the code alone:
names may be anything, and so may be the values on the stacks.

A declaration that is the whole body of an `if` or a loop is in scope behind it whether or not it
has been executed, and what is read then is nothing at all.
-/

namespace Bytescript

open TypeTable (primitives)

variable {T : Tables}

/-! ## Frames -/

/-- The slots that are live at a point have been written, as far as `W` knows, with values of the
kinds of their types. -/
structure Frame.Initialised (P : Plan T True) (W : Nat → Prop) (p : Point) (f : Frame) : Prop where
  covered : P.Covers f.routine
  size : f.slots.size = (P.slots f.routine).length
  written : ∀ i, p.live i → W i
  kinds : ∀ (i : Nat) t v, (P.slots f.routine)[i]? = some t → p.live i → f.slots[i]? = some v →
    v.hasKind (primitives.kindOf t) = true

/-- The frames below one that returns to `back`, the innermost first. -/
inductive Awaiting (P : Plan T True) (W : Nat → Nat → Prop) : Nat → List Frame → Prop
  | none {back} : Awaiting P W back []
  | call {back caller rest p} : back = caller.pc →
    P.Enters caller p → caller.Initialised P (W rest.length) p →
    Awaiting P W caller.returnAddress rest → Awaiting P W back (caller :: rest)

/-- A machine each of whose frames has written what it may read. The frames are told by how many
there are below them. -/
structure Machine.Initialised (P : Plan T True) (W : Nat → Nat → Prop) (m : Machine) : Prop where
  running : ∃ p, P.At m.frame p ∧ m.frame.Initialised P (W m.callers.size) p
  awaiting : Awaiting P W m.frame.returnAddress m.callers.toList.reverse

section

variable {P : Plan T True} {W W' : Nat → Prop} {p : Point} {f g : Frame}

namespace Frame.Initialised

theorem mono (h : f.Initialised P W p) (hW : ∀ i, W i → W' i) : f.Initialised P W' p :=
  ⟨h.covered, h.size, fun i hi => hW i (h.written i hi), h.kinds⟩

theorem congr (h : f.Initialised P W p) (hroutine : g.routine = f.routine)
    (hslots : g.slots = f.slots) {st : List TypeId} : g.Initialised P W ⟨st, p.live⟩ where
  covered := hroutine ▸ h.covered
  size := by rw [hslots, hroutine, h.size]
  written := h.written
  kinds i t v ht hlive hv := h.kinds i t v (hroutine ▸ ht) hlive (hslots ▸ hv)

/-- The frame is at a point that asks for no more. -/
theorem enters (h : f.Initialised P W p) (henters : P.Enters f p) :
    ∃ q, P.At f q ∧ f.Initialised P W q := by
  obtain ⟨k, hk, q, hq, hrefines⟩ := henters
  exact ⟨q, ⟨k, hk, hq⟩, h.covered, h.size, fun i hi => h.written i (hrefines.live i hi),
    fun i t v ht hlive hv => h.kinds i t v ht (hrefines.live i hlive) hv⟩

/-- At the start of a routine nothing is live. -/
theorem start {r : Routine} (hr : P.Covers r) (back : Nat) (stack : Array Value) :
    ∃ q, P.At (.enter r back stack) q ∧ (Frame.enter r back stack).Initialised P W q := by
  refine enters (p := ⟨r.params, Locals.empty.live True⟩) ⟨hr, ?_,
    fun i hi => absurd hi (Locals.empty_not_live i),
    fun i _ _ _ hi => absurd hi (Locals.empty_not_live i)⟩ (Plan.enters_start hr back stack)
  rw [Frame.enter, Array.size_replicate]
  exact hr.slots_eq

end Frame.Initialised

end

/-! ## Steps -/

section

variable {H : Home} {Δ : List TypeId} {G : Annotation} {k : Nat} {p : Point} {i : Instruction}
  {kind : Kind} {slot : UInt16}

/-- Where an instruction may go on behind itself, it has written nothing. -/
theorem Checks.falls (h : Checks T H Δ G k p i) (hi : i.isPlain = true ∨ (∃ c, i = .call c) ∨
    ∃ trigger target, i = .jump trigger target ∧ trigger ≠ .always) :
    ∃ st, Accepts G (k + 1) ⟨st, p.live⟩ := by
  cases h with
  | plain _ hacc => exact ⟨_, hacc⟩
  | load _ _ hacc => exact ⟨_, hacc⟩
  | branch _ _ hacc => exact ⟨_, hacc⟩
  | jump => rcases hi with hi | ⟨_, hi⟩ | ⟨_, _, hi, hne⟩ <;> cases hi; exact absurd rfl hne
  | store | ret | retVoid | stop => rcases hi with hi | ⟨_, hi⟩ | ⟨_, _, hi, -⟩ <;> cases hi

theorem Checks.jumps {trigger : Trigger} {offset : UInt32}
    (h : Checks T H Δ G k p (.jump trigger offset)) :
    ∃ (target : Nat) (st : List TypeId), offset = target.toUInt32 ∧
    Accepts G target ⟨st, p.live⟩ := by
  cases h with
  | plain htakes => cases htakes.isComputing
  | jump hacc => exact ⟨_, _, rfl, hacc⟩
  | branch _ hacc => exact ⟨_, _, rfl, hacc⟩

theorem Checks.loads (h : Checks T H Δ G k p (.load kind slot)) :
    ∃ t, Δ[slot.toNat]? = some t ∧ p.live slot.toNat ∧
    (kind ≠ .ref → kind = primitives.kindOf t) := by
  cases h with
  | plain htakes => cases htakes.isComputing
  | load ht hlive _ hkind => exact ⟨_, ht, hlive, hkind⟩

theorem Checks.stores (h : Checks T H Δ G k p (.store kind slot)) :
    ∃ t st, Δ[slot.toNat]? = some t ∧ kind = primitives.kindOf t ∧
      Accepts G (k + 1) ⟨st, fun i => i = slot.toNat ∨ p.live i⟩ := by
  cases h with
  | plain htakes => cases htakes.isComputing
  | store ht hacc => exact ⟨_, _, ht, rfl, hacc⟩

theorem Instruction.isPlain_placed (i : Instruction) (offsets : Array Nat) :
    (i.placed offsets).isPlain = i.isPlain := by
  cases i <;> rfl

end

section

variable {P : Plan T True} {W W' : Nat → Nat → Prop} {env : Setting} {m m' : Machine}

theorem Awaiting.mono {back : Nat} {rest : List Frame} (h : Awaiting P W back rest)
    (hW : ∀ d < rest.length, ∀ i, W d i → W' d i) : Awaiting P W' back rest := by
  induction h with
  | none => exact .none
  | call hback henters hinit _ ih =>
    exact .call hback henters (hinit.mono (hW _ (Nat.lt_succ_self _)))
      (ih fun d hd => hW d (Nat.lt_succ_of_lt hd))

/-- A step within a frame. -/
theorem Machine.Initialised.within (hm : m.Initialised P W) {p : Point}
    (hframe : m'.frame.Initialised P (W' m.callers.size) p) (henters : P.Enters m'.frame p)
    (hback : m'.frame.returnAddress = m.frame.returnAddress) (hcallers : m'.callers = m.callers)
    (hW : ∀ d < m.callers.size, ∀ i, W d i → W' d i) : m'.Initialised P W' where
  running := by
    rw [hcallers]
    exact hframe.enters henters
  awaiting := by
    rw [hcallers, hback]
    refine hm.awaiting.mono fun d hd => hW d ?_
    simpa using hd

/-- A step within a frame that writes nothing. -/
theorem Machine.Initialised.moves (hm : m.Initialised P W) {p : Point} {st : List TypeId}
    (hframe : m.frame.Initialised P (W m.callers.size) p) (henters : P.Enters m'.frame ⟨st, p.live⟩)
    (hroutine : m'.frame.routine = m.frame.routine) (hslots : m'.frame.slots = m.frame.slots)
    (hback : m'.frame.returnAddress = m.frame.returnAddress) (hcallers : m'.callers = m.callers)
    (hW : ∀ d ≤ m'.callers.size, ∀ i, W d i → W' d i) : m'.Initialised P W' := by
  rw [hcallers] at hW
  have hframe : m'.frame.Initialised P (W' m.callers.size) ⟨st, p.live⟩ :=
    (hframe.congr hroutine hslots).mono (hW _ le_rfl)
  exact hm.within hframe henters hback hcallers fun d hd => hW d hd.le

/-- What a step keeps. -/
theorem Machine.Initialised.step (hP : ∀ (c : UInt16) r, env.program.routines[c]? = some r →
    P.Covers r) (hm : m.Initialised P W) (hstep : Exec.step env m = .ok .next m')
    (hkeep : ∀ d ≤ m'.callers.size, ∀ i, W d i → W' d i)
    (hstore : ∀ {kind slot next}, m.ahead = .ok (.store kind slot, next) →
      m'.callers = m.callers → W' m.callers.size slot.toNat) : m'.Initialised P W' := by
  obtain ⟨p, ⟨k, hk, hp⟩, hinit⟩ := hm.running
  have hchecked := hinit.covered
  obtain ⟨i, next, w, hin, hdecode, heffect⟩ := Exec.step_next hstep
  obtain ⟨i0, hi0, hnext, hi⟩ := hchecked.encoded.reads_lt hk hin hdecode
  obtain ⟨q, hq, hchecks⟩ := hchecked.checks k _ hi0
  obtain rfl := Option.some.inj (hq.symm.trans hp)
  cases heffect with
  | plain hplain =>
    rw [hi, Instruction.isPlain_placed] at hplain
    obtain ⟨st, hacc⟩ := hchecks.falls (.inl hplain)
    exact hm.moves hinit ⟨k + 1, hnext, hacc⟩ rfl rfl rfl rfl hkeep
  | @store kind slot v rest hlt hoperands hkind =>
    have hwritten := hstore hdecode rfl
    obtain rfl := Instruction.eq_of_placed hi rfl
    obtain ⟨t, st, ht, rfl, hacc⟩ := hchecks.stores
    refine hm.within (p := ⟨st, fun i => i = slot.toNat ∨ q.live i⟩) ⟨hchecked, ?_, ?_, ?_⟩
      ⟨k + 1, hnext, hacc⟩ rfl rfl fun d hd => hkeep d hd.le
    · exact (Array.size_setIfInBounds ..).trans hinit.size
    · rintro j (rfl | hj)
      · exact hwritten
      · exact hkeep _ le_rfl _ (hinit.written j hj)
    · intro j t' u ht' hlive hu
      have hstored : (m.frame.slots.setIfInBounds slot.toNat v)[j]? = some u := hu
      rw [Array.getElem?_setIfInBounds] at hstored
      split at hstored
      next heq =>
        subst heq
        obtain ⟨-, hstored⟩ := Option.ite_none_right_eq_some.mp hstored
        cases hstored
        obtain rfl := Option.some.inj (ht.symm.trans ht')
        exact hkind
      next hne => exact hinit.kinds j t' u ht' (hlive.resolve_left fun h => hne h.symm) hstored
  | @stay trigger target vs w' htrigger =>
    obtain ⟨target0, rfl⟩ := Instruction.eq_jump_of_placed hi
    obtain ⟨st, hacc⟩ := hchecks.falls (.inr (.inr ⟨_, _, rfl, htrigger⟩))
    exact hm.moves hinit ⟨k + 1, hnext, hacc⟩ rfl rfl rfl rfl hkeep
  | @jump trigger target vs w' =>
    obtain ⟨target0, rfl⟩ := Instruction.eq_jump_of_placed hi
    obtain ⟨index, st, rfl, hacc⟩ := hchecks.jumps
    obtain ⟨offset, hplaced, hoffset⟩ := hchecked.encoded.jump hi0 (hchecked.accepts_le hacc)
    cases hi.trans hplaced
    exact hm.moves hinit ⟨index, hoffset, hacc⟩ rfl rfl rfl rfl hkeep
  | @call c callee hcallee hdeep harity =>
    obtain rfl := Instruction.eq_of_placed hi rfl
    obtain ⟨st, hacc⟩ := hchecks.falls (.inr (.inl ⟨c, rfl⟩))
    refine ⟨Frame.Initialised.start (hP c callee hcallee) _ _, ?_⟩
    rw [stacked_push]
    have hkeep : ∀ d ≤ m.callers.size, ∀ i, W d i → W' d i := by
      refine fun d hd => hkeep d (hd.trans ?_)
      show _ ≤ (m.callers.push _).size
      rw [Array.size_push]
      exact Nat.le_succ _
    refine .call rfl (p := ⟨st, q.live⟩) ⟨k + 1, hnext, hacc⟩ ?_ ?_
    · rw [List.length_reverse, Array.length_toList]
      exact (hinit.mono (hkeep _ le_rfl)).congr (by rfl) (by rfl)
    · refine hm.awaiting.mono fun d hd => hkeep d ?_
      rw [List.length_reverse, Array.length_toList] at hd
      exact hd.le
  | @ret _ v callers caller hhands hcallers hroom =>
    have hawaiting := hm.awaiting
    rw [show m.callers = callers.push caller from hcallers, stacked_push] at hawaiting
    cases hawaiting with
    | @call _ _ _ p' hback henters hcaller hrest =>
      rw [List.length_reverse, Array.length_toList] at hcaller
      refine ⟨?_, hrest.mono fun d hd => hkeep d ?_⟩
      · have henters : P.Enters { caller with
            pc := m.frame.returnAddress, stack := caller.stack.push v } p' := by
          rw [hback]
          exact henters
        refine Frame.Initialised.enters ?_ henters
        exact (hcaller.mono (hkeep _ le_rfl)).congr (by rfl) (by rfl)
      · rw [List.length_reverse, Array.length_toList] at hd
        exact hd.le

end

/-! ## Runs -/

section

variable {env : Setting} {start m : Machine}

/-- After `n` steps, a value has been stored in a slot by the frame that has `d` others below it.
Since then there have never been fewer frames, so it is still the same activation of its routine. -/
def Machine.Written (start : Machine) (env : Setting) (n d : Nat) (slot : UInt16) : Prop :=
  ∃ j < n, ∃ m kind next, start.run env j = (.paused, m) ∧ m.callers.size = d ∧
    m.ahead = .ok (.store kind slot, next) ∧
    ∀ i, j ≤ i → i ≤ n → d ≤ (start.run env i).2.callers.size

theorem Machine.Written.succ {n d : Nat} {slot : UInt16} (h : start.Written env n d slot)
    (hd : d ≤ (start.run env (n + 1)).2.callers.size) : start.Written env (n + 1) d slot := by
  obtain ⟨j, hj, m, kind, next, hrun, hsize, hdecode, hstays⟩ := h
  refine ⟨j, Nat.lt_succ_of_lt hj, m, kind, next, hrun, hsize, hdecode, fun i hji hi => ?_⟩
  rcases Nat.le_succ_iff.mp hi with hi | rfl
  · exact hstays i hji hi
  · exact hd

/-- All along a run, each frame has written what it may read. -/
theorem Machine.Initialised.run {P : Plan T True}
    (hP : ∀ (c : UInt16) r, env.program.routines[c]? = some r → P.Covers r)
    (hstart : ∀ W, start.Initialised P W) {n : Nat} (hrun : start.run env n = (.paused, m)) :
    m.Initialised P fun d i => ∃ slot : UInt16, slot.toNat = i ∧ start.Written env n d slot := by
  induction n generalizing m with
  | zero =>
    cases hrun
    exact hstart _
  | succ n ih =>
    obtain ⟨m1, hm1, hstep⟩ := run_paused hrun
    refine (ih hm1).step hP hstep ?_ ?_
    · rintro d hd i ⟨slot, rfl, hwritten⟩
      refine ⟨slot, rfl, hwritten.succ ?_⟩
      rw [hrun]
      exact hd
    · intro kind slot next hdecode hcallers
      refine ⟨slot, rfl, n, Nat.lt_succ_self n, m1, kind, next, hm1, rfl, hdecode,
        fun i hni hi => ?_⟩
      rcases Nat.le_succ_iff.mp hi with hi | rfl
      · have heq : start.run env i = (.paused, m1) := by rw [Nat.le_antisymm hi hni, hm1]
        exact Nat.le_of_eq (congrArg (fun result => result.2.callers.size) heq).symm
      · exact Nat.le_of_eq (by rw [hrun, hcallers])

/-- What a frame reads, it has written. -/
theorem Machine.Initialised.loads {P : Plan T True} {W : Nat → Nat → Prop} (hm : m.Initialised P W)
    (hin : m.frame.pc < m.frame.routine.body.bytes.size) {kind : Kind} {slot : UInt16} {next : Nat}
    (hdecode : m.ahead = .ok (.load kind slot, next)) :
    W m.callers.size slot.toNat ∧
      (kind ≠ .ref → ∃ v, m.frame.slots[slot.toNat]? = some v ∧ v.hasKind kind = true) := by
  obtain ⟨p, ⟨k, hk, hp⟩, hinit⟩ := hm.running
  obtain ⟨i0, hi0, -, hi⟩ := hinit.covered.encoded.reads_lt hk hin hdecode
  obtain rfl := Instruction.eq_of_placed hi rfl
  obtain ⟨q, hq, hchecks⟩ := hinit.covered.checks k _ hi0
  cases hq.symm.trans hp
  obtain ⟨t, ht, hlive, hkind⟩ := hchecks.loads
  refine ⟨hinit.written _ hlive, fun hne => ?_⟩
  have hlt : slot.toNat < m.frame.slots.size := by
    rw [hinit.size]
    exact (getElem_of_getElem? ht).1
  refine ⟨_, Array.getElem?_eq_getElem hlt, ?_⟩
  rw [hkind hne]
  exact hinit.kinds _ t _ ht hlive (Array.getElem?_eq_getElem hlt)

end

/-- In a compiled script whose declarations stand where a scope is opened for them, whatever its
natives do: when a slot is loaded, the same activation has stored a value in it. If it is the slot
of a variable of type `int`, `bool` or `double`, the value is of that kind and not nothing at all.
-/
theorem load_initialised {items : List Stmt} {options : CompileOptions} {journal : Journal}
    {image : Image}
    (h : (Script.compile ⟨items⟩ options .primitives journal).1 = .ok image)
    (hscoped : scopedAll items = true)
    {env : Setting} (hprogram : env.program = .load image) {c : Context}
    (hc : c.Spawned env.program)
    {w : World} {n : Nat} {m : Machine} (hrun : (c.start w).run env n = (.paused, m))
    (hin : m.frame.pc < m.frame.routine.body.bytes.size) {kind : Kind} {slot : UInt16} {next : Nat}
    (hdecode : decodeAt m.frame.routine.body.bytes m.frame.pc = .ok (.load kind slot, next)) :
    (c.start w).Written env n m.callers.size slot ∧
      (kind ≠ .ref → ∃ v, m.frame.slots[slot.toNat]? = some v ∧ v.hasKind kind = true) := by
  obtain ⟨T, -, hcompiled⟩ := compile_compiled h
  obtain ⟨P, hP⟩ : ∃ P : Plan T True, P.CoversImage image := hcompiled.planned fun _ => hscoped
  have hroutines : ∀ (c : UInt16) r, env.program.routines[c]? = some r → P.Covers r := by
    intro c r hr
    rw [hprogram] at hr
    exact (hP.routines r (Program.load_routines_found hr).1).1
  have hstart : ∀ W, (c.start w).Initialised P W := by
    intro W
    cases hc with
    | main =>
        refine ⟨?_, .none⟩
        rw [hprogram]
        exact Frame.Initialised.start hP.main _ _
    | call hr =>
        obtain ⟨_, hfound⟩ := Program.function_found hr
        exact ⟨Frame.Initialised.start (hroutines _ _ hfound) _ _, .none⟩
  obtain ⟨⟨slot', hslot, hwritten⟩, hkinds⟩ :=
    (Machine.Initialised.run hroutines hstart hrun).loads hin hdecode
  rw [UInt16.toNat_inj] at hslot
  exact ⟨hslot ▸ hwritten, hkinds⟩

/-- In the second round of the loop, the function reads its parameter after it has been written
anew. -/
theorem load_initialised_counting : ∃ image, (Script.compile ⟨counting⟩).1 = .ok image ∧
    let start := (Context.forMain (.load image) 0).start {}
    ∃ m, start.run (.ofImage image {}) 18 = (.paused, m) ∧ m.callers.size = 1 ∧
      decodeAt m.frame.routine.body.bytes m.frame.pc = .ok (.load .int 0, 4) ∧
      start.Written (.ofImage image {}) 18 1 0 ∧ ∃ v, m.frame.slots[0]? = some v ∧
      v.hasKind .int = true := by
  have hok : ((Script.compile ⟨counting⟩).1).toOption.any (fun image =>
      let reached := ((Context.forMain (.load image) 0).start {}).run (.ofImage image {}) 18
      reached.1 = .paused ∧ reached.2.callers.size = 1 ∧
        reached.2.frame.pc < reached.2.frame.routine.body.bytes.size ∧
        decodeAt reached.2.frame.routine.body.bytes reached.2.frame.pc = .ok (.load .int 0, 4)) =
          true := by
    decide +kernel
  obtain ⟨image, himage, hok⟩ := exists_of_any hok
  obtain ⟨hpaused, hsize, hin, hdecode⟩ := of_decide_eq_true hok
  obtain ⟨hwritten, hkind⟩ := load_initialised himage (by decide) rfl .main
    (Prod.ext hpaused rfl) hin hdecode
  exact ⟨image, himage, _, Prod.ext hpaused rfl, hsize, hdecode, hsize ▸ hwritten,
    hkind (by decide)⟩

open Build in
/-- A declaration that is the whole body of an `if`, and behind it a use of the variable. -/
def undeclared : List Stmt :=
  [choose [(bool false, var "int" "x" none)] none, var "int" "y" (some (ident "x"))]

/-- Where the declaration is skipped, the variable is read all the same. No instruction has stored
anything in its slot, and what is found there is not an integer. -/
theorem load_not_initialised : ∃ image, (Script.compile ⟨undeclared⟩).1 = .ok image ∧
    let start := (Context.forMain (.load image) 0).start {}
    ∃ m next, start.run (.ofImage image {}) 2 = (.paused, m) ∧
      m.frame.pc < m.frame.routine.body.bytes.size ∧
      decodeAt m.frame.routine.body.bytes m.frame.pc = .ok (.load .int 0, next) ∧
      m.frame.slots[0]? = some .void ∧ ¬ start.Written (.ofImage image {}) 2 m.callers.size 0 := by
  have hok : ((Script.compile ⟨undeclared⟩).1).toOption.any (fun image =>
      let reached := ((Context.forMain (.load image) 0).start {}).run (.ofImage image {})
      (reached 2).1 = .paused ∧ (reached 2).2.frame.pc <
        (reached 2).2.frame.routine.body.bytes.size ∧
        [0, 1, 2].map (fun j => decodeAt (reached j).2.frame.routine.body.bytes
          (reached j).2.frame.pc) =
          [.ok (.pushByte 0, 2), .ok (.jump .ifFalse 8, 4), .ok (.load .int 0, 10)] ∧
        (reached 2).2.frame.slots[0]? = some .void) = true := by
    decide +kernel
  obtain ⟨image, himage, hok⟩ := exists_of_any hok
  obtain ⟨hpaused, hin, hdecodes, hslot⟩ := of_decide_eq_true hok
  simp only [List.map_cons, List.map_nil, List.cons.injEq, and_true] at hdecodes
  obtain ⟨hfirst, hsecond, hthird⟩ := hdecodes
  refine ⟨image, himage, _, 10, Prod.ext hpaused rfl, hin, hthird, hslot, ?_⟩
  rintro ⟨j, hj, m, kind, next, hrun, -, hdecode, -⟩
  have hrun :
    m = (Machine.run (.ofImage image {}) j ((Context.forMain (.load image) 0).start {})).2 := by
    rw [hrun]
  subst hrun
  obtain rfl | rfl : j = 0 ∨ j = 1 := by omega
  · cases hfirst.symm.trans hdecode
  · cases hsecond.symm.trans hdecode

end Bytescript
