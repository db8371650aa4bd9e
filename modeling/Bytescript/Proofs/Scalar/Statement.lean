import Bytescript.Proofs.Scalar.Bindings

/-!
# The code of scalar statements

A machine in front of the code of a scalar statement does what the statement means
(`Executes.completes`). For each way in which a statement completes there is a place where the
machine comes to: behind the code, behind the loop around it, or at the next turn of that loop.
Where a statement runs out of turns, the machine has made at least as many steps
(`Machine.Completes`).
-/

namespace Bytescript

open TypeTable (primitives)

/-! ## What a machine completes -/

/-- What holds of a machine and the bindings where a statement is left, by each way out of it. -/
structure Exits where
  next : Bindings → Machine → Prop
  breaks : Bindings → Machine → Prop
  continues : Bindings → Machine → Prop

/-- A machine does what a completion says. It jumps to get out of a body, so that takes a step. -/
def Machine.Completes (env : Setting) (turns : Nat) (m : Machine) (exits : Exits) :
    Completion → Prop
  | .next S => m.Advances env 0 (exits.next S)
  | .breaks S => m.Advances env 1 (exits.breaks S)
  | .continues S => m.Advances env 1 (exits.continues S)
  | .traps .division => m.Fails env .divisionByZero
  | .traps .stuck => False
  | .unfinished => m.Advances env turns fun _ => True

theorem Completion.andThen_next (o : Completion) : o.andThen .next = o := by
  cases o <;> rfl

namespace Machine.Completes

variable {env : Setting} {m m' : Machine} {exits exits' : Exits} {o yes no : Completion}
  {S : Bindings} {P : Machine → Prop} {least turns : Nat}

theorem of_advances (h : m.Advances env least P)
    (hP : ∀ m', P m' → m'.Completes env turns exits o) :
    m.Completes env (least + turns) exits o := by
  match o with
  | .next S => exact (h.trans hP).of_le (Nat.zero_le _)
  | .breaks S => exact (h.trans hP).of_le (Nat.le_add_left ..)
  | .continues S => exact (h.trans hP).of_le (Nat.le_add_left ..)
  | .traps .division => exact h.fails hP
  | .traps .stuck =>
    obtain ⟨_, m', -, -, hm'⟩ := h
    exact hP m' hm'
  | .unfinished => exact h.trans hP

theorem of_le {turns' : Nat} (h : m.Completes env turns exits o) (hle : turns' ≤ turns) :
    m.Completes env turns' exits o := by
  match o with
  | .unfinished => exact Advances.of_le h hle
  | .next _ | .breaks _ | .continues _ | .traps .division | .traps .stuck => exact h

theorem next (h : exits.next S m) : m.Completes env turns exits (.next S) := Advances.refl h

theorem of {result : Except Trap Bindings} {post : Bindings → Machine → Prop}
    (h : m.Yields env result post)
    (hnext : ∀ S m', post S m' → exits.next S m') : m.Completes env turns exits (.of result) := by
  match result with
  | .ok S => exact Advances.mono h (hnext S)
  | .error .division | .error .stuck => exact h

theorem andThen {f : Bindings → Completion} (h : m.Completes env turns exits o)
    (hnext : ∀ S m', exits.next S m' → m'.Completes env turns exits' (f S))
    (hbreaks : ∀ S m', exits.breaks S m' → exits'.breaks S m')
    (hcontinues : ∀ S m', exits.continues S m' → exits'.continues S m') :
    m.Completes env turns exits' (o.andThen f) := by
  match o with
  | .next S => exact (of_advances h (hnext S)).of_le (Nat.le_add_left ..)
  | .breaks S => exact Advances.mono h (hbreaks S)
  | .continues S => exact Advances.mono h (hcontinues S)
  | .traps .division | .traps .stuck | .unfinished => exact h

theorem mono (h : m.Completes env turns exits o)
    (hnext : ∀ S m', exits.next S m' → exits'.next S m')
    (hbreaks : ∀ S m', exits.breaks S m' → exits'.breaks S m')
    (hcontinues : ∀ S m', exits.continues S m' → exits'.continues S m') :
    m.Completes env turns exits' o := by
  rw [← o.andThen_next]
  exact h.andThen (fun S m' hS => next (hnext S m' hS)) hbreaks hcontinues

theorem branch {c : Except Trap Bool}
    (h : m.Yields env c fun c m' => m'.Completes env turns exits (if c then yes else no)) :
    m.Completes env turns exits (.branch c yes no) := by
  match c with
  | .ok true | .ok false => exact (of_advances h fun _ hm' => hm').of_le (Nat.le_add_left ..)
  | .error .division | .error .stuck => exact h

theorem leave {depth : Nat} (h : m.Completes env turns exits o)
    (hnext : ∀ S m', exits.next S m' → exits'.next (S.cut depth) m')
    (hbreaks : ∀ S m', exits.breaks S m' → exits'.breaks (S.cut depth) m')
    (hcontinues : ∀ S m', exits.continues S m' → exits'.continues (S.cut depth) m') :
    m.Completes env turns exits' (o.leave depth) := by
  match o with
  | .next S => exact Advances.mono h (hnext S)
  | .breaks S => exact Advances.mono h (hbreaks S)
  | .continues S => exact Advances.mono h (hcontinues S)
  | .traps .division | .traps .stuck | .unfinished => exact h

/-- One more turn is left where the body has been gone through. -/
theorem turn {again : Bindings → Completion} (h : m.Completes env (turns + 1) exits o)
    (hnext : ∀ S m', exits.next S m' → m'.Completes env (turns + 1) exits' (again S))
    (hbreaks : ∀ S m', exits.breaks S m' → exits'.next S m')
    (hcontinues : ∀ S m', exits.continues S m' → m'.Completes env turns exits' (again S)) :
    m.Completes env (turns + 1) exits' (o.turn again) := by
  match o with
  | .next S => exact (of_advances h (hnext S)).of_le (Nat.le_add_left ..)
  | .breaks S => exact (Advances.mono h (hbreaks S)).of_le (Nat.zero_le _)
  | .continues S => exact (of_advances h (hcontinues S)).of_le (Nat.le_of_eq (Nat.add_comm ..))
  | .traps .division | .traps .stuck | .unfinished => exact h

/-- A loop: the machine comes round to the top with every turn, and takes at least one step for it.
-/
theorem looping {guard : Bindings → Except Trap Bool} {step : Bindings → Except Trap Bindings}
    {body : Bindings → Completion} (entry start bottom top : Bindings → Machine → Prop)
    (hguard : ∀ S m, entry S m → m.Yields env (guard S) fun c m' =>
      if c then start S m' else exits.next S m')
    (hbody : ∀ S m, start S m → m.Completes env turns ⟨bottom, exits.next, top⟩
      ((body S).leave S.length))
    (hback : ∀ S m, bottom S m → m.Advances env 1 (top S))
    (hstep : ∀ S m, top S m → m.Yields env (step S) entry) (n : Nat) (hn : n ≤ turns)
    (hentry : entry S m) : m.Completes env n exits (looping guard step body n S) := by
  induction n generalizing m S with
  | zero => exact Advances.refl trivial
  | succ n ih =>
    have hagain : ∀ S m, top S m → m.Completes env n exits
        ((Completion.of (step S)).andThen (looping guard step body n)) := by
      intro S m hm
      have hstepped : m.Completes env n ⟨entry, exits.breaks, exits.continues⟩ (.of (step S)) :=
        of (hstep S m hm) fun _ _ hS => hS
      exact hstepped.andThen (fun S' m' hm' => ih (Nat.le_of_succ_le hn) hm')
        (fun _ _ hS => hS) fun _ _ hS => hS
    refine branch ((hguard S m hentry).mono fun c m' hm' => ?_)
    cases c with
    | false => exact next hm'
    | true =>
      refine turn ((hbody S m' hm').of_le hn) (fun S m hm => ?_) (fun _ _ hS => hS) hagain
      exact (of_advances (hback S m hm) (hagain S)).of_le (Nat.le_of_eq (Nat.add_comm ..))

end Machine.Completes

/-! ## Effects -/

/-- A machine is between statements, and its slots hold what is bound. -/
def Machine.Shows (r : Routine) (Γ : Locals) (k : Nat) (S : Bindings) (m : Machine) : Prop :=
  ∃ slots : Array Value, slots.size = r.slots ∧ m.Stands r #[] k slots [] ∧ Γ.Holds S slots

/-- The same, where the names are those that were bound at some earlier time. -/
def Machine.ShowsAgain (r : Routine) (Γ : Locals) (k : Nat) (S S' : Bindings) (m : Machine) :
    Prop :=
  S'.names = S.names ∧ m.Shows r Γ k S'

section

variable {env : Setting} {T : Tables} {H : Home} {r : Routine} {m : Machine} {Γ : Locals}
  {S : Bindings}
  {e : Expr} {t : TypeId} {b k j : Nat} {slots : Array Value} {code : List Instruction}

theorem Machine.Shows.at_index (hm : m.Shows r Γ k S) (hj : k = j) : m.Shows r Γ j S := hj ▸ hm

theorem Machine.Shows.le_size (henc : Layout.Encodes r.code r.body) (hm : m.Shows r Γ k S) :
    k ≤ r.code.size := by
  obtain ⟨slots, -, hm, -⟩ := hm
  have hlt := (getElem_of_getElem? hm.pc).1
  rw [henc.size] at hlt
  omega

theorem Machine.Shows.jump (henc : Layout.Encodes r.code r.body) (hm : m.Shows r Γ k S)
    (hi : r.code[k]? = some (.jump .always j.toUInt32)) (hj : j ≤ r.code.size) :
    m.Advances env 1 (Machine.Shows r Γ j S) := by
  obtain ⟨slots, hsize, hm, hΓ⟩ := hm
  obtain ⟨m', hstep, hm'⟩ := hm.jump henc hi hj env
  exact .step hstep ⟨slots, hsize, hm', hΓ⟩

theorem Scalar.hasKind (v : Scalar) : v.value.hasKind (primitives.kindOf v.type.id) = true := by
  cases v <;> rfl

variable {name : String} {term : TypeTerm} {init : Option Expr}

/-- A variable takes what lies on top of the stack. -/
theorem Machine.Stands.assigns (henc : Layout.Encodes r.code r.body) (hΓ : Γ.Holds S slots)
    (hsize : slots.size = r.slots) (hapart : Γ.Apart r.slots) {slot : UInt16} {v : Scalar}
    (hname : Γ name = some (slot, v.type.id)) (hm : m.Stands r #[] k slots [v.value])
    (hi : r.code[k]? = some (.store (primitives.kindOf v.type.id) slot)) :
    m.Yields env (.ok (S.set name v)) (Machine.ShowsAgain r Γ (k + 1) S) := by
  have hlt : slot.toNat < slots.size := hsize ▸ hapart.lt name slot _ hname
  refine .of_step (hm.store henc hi hlt v.hasKind) fun m' hm' => .refl ⟨S.names_set name v, ?_⟩
  exact ⟨_, Array.size_setIfInBounds.trans hsize, hm', hΓ.set hapart hname hlt⟩

/-- Only assignments have an effect. -/
theorem Computes.act_eq (h : Computes T H Γ (.expr e t) b code) (S : Bindings) :
    e.act S = do let _ ← e.eval S; return S := by
  cases h <;> rfl

theorem Acts.yields (hH : env.Hosts T H r) (h : Acts T H Γ e b code) (hscalar : e.scalar = true)
    (hcode : r.HasCode b code) (hroom : e.height ≤ env.limits.stack) (hapart : Γ.Apart r.slots)
    (hm : m.Shows r Γ b S) :
    m.Yields env (e.act S) (Machine.ShowsAgain r Γ (b + code.length) S) := by
  have henc := hH.encoded
  obtain ⟨slots, hsize, hm, hΓ⟩ := hm
  cases h with
  | @assign _ target value place t found _ ca cv haddr hvalue hassign =>
    cases haddr with
    | @named _ name slot _ _ hname =>
      obtain ⟨old, hlookup, rfl, hslot⟩ := hΓ.value _ _ _ hname
      obtain ⟨hcv, htail⟩ := hcode.append.2.append
      rw [Expr.height] at hroom
      rw [Expr.act, Bindings.read, hlookup]
      refine (hvalue.yields hH hΓ hscalar hcv (by simpa using hroom) hm).bind fun v m1 hm1 => ?_
      obtain ⟨rfl, hm1⟩ := hm1
      obtain ⟨hnil, hbool⟩ := ScalarType.convert_assignable hassign
      have hvalue : (v.cast old.type).value = v.value := Scalar.value_cast hbool
      have htype := v.type_cast old.type
      rw [hnil] at htail ⊢
      rw [← htype] at hname htail
      rw [← hvalue] at hm1
      refine (hm1.assigns henc hΓ hsize hapart hname htail.one).mono fun S' m' hS' => ⟨hS'.1, ?_⟩
      refine hS'.2.at_index ?_
      simp only [List.length_append, List.length_cons, List.length_nil]
      omega
    | member _ hclass =>
      rw [hH.main] at hclass
      cases hclass
    | property | index => cases hscalar
  | @compound _ op target value place t i _ ca cv haddr hvalue hop =>
    cases haddr with
    | @named _ name slot _ _ hname =>
      obtain ⟨old, hlookup, rfl, hslot⟩ := hΓ.value _ _ _ hname
      obtain ⟨hread, htail⟩ := hcode.append.2.append
      obtain ⟨hcv, htail⟩ := htail.append
      obtain ⟨hi, htail⟩ := htail.cons
      rw [Expr.height] at hroom
      rw [Expr.act, Bindings.read, hlookup]
      show m.Yields env (value.eval S >>= fun v => _) _
      refine .of_step (hm.load henc hread.one hslot ((Nat.succ_pos _).trans_le hroom))
        fun m1 hm1 => ?_
      have hroom1 : [old.value].length + value.height ≤ env.limits.stack := Nat.add_comm .. ▸ hroom
      refine (hvalue.yields hH hΓ hscalar hcv hroom1 hm1).bind fun v m2 hm2 => ?_
      refine (hm2.2.operator henc rfl hm2.1 hop hi ((Nat.succ_pos _).trans_le hroom)).bind
        fun w m3 hm3 => ?_
      obtain ⟨htype, hm3⟩ := hm3
      rw [← htype] at hname htail
      refine (hm3.assigns henc hΓ hsize hapart hname htail.one).mono fun S' m' hS' => ⟨hS'.1, ?_⟩
      refine hS'.2.at_index ?_
      simp only [Place.read, List.length_append, List.length_cons, List.length_nil]
      omega
    | member _ hclass =>
      rw [hH.main] at hclass
      cases hclass
    | property | index => cases hscalar
  | @value _ t _ code hvalue =>
    obtain ⟨hcode, hpop⟩ := hcode.append
    rw [hvalue.act_eq S]
    refine (hvalue.yields hH hΓ hscalar hcode (by simpa using hroom) hm).bind fun v m1 hm1 => ?_
    refine .of_step (hm1.2.computes henc hpop.one rfl (Follows.bind Mirrors.pop fun _ => .none)
      (fun _ => rfl) (Nat.zero_le _)) fun m2 hm2 => .refl ⟨rfl, slots, hsize, ?_, hΓ⟩
    rw [List.length_append, ← Nat.add_assoc]
    exact hm2

theorem Initialises.yields (hH : env.Hosts T H r) {t : ScalarType} (hterm : term.scalar? = some t)
    (h : Initialises T H Γ t.id b init code) (hscalar : init.all Expr.scalar = true)
    (hcode : r.HasCode b code) (hroom : init.elim 1 Expr.height ≤ env.limits.stack)
    (hΓ : Γ.Holds S slots)
    (hm : m.Stands r #[] b slots []) (name : String) :
    m.Yields env (declaring name term init S) fun S' m' =>
      ∃ v, S' = (name, v) :: S ∧ Machine.HasTop r (b + code.length) slots [] t.id v m' := by
  unfold declaring
  rw [hterm]
  cases h with
  | value hvalue hassign =>
    obtain ⟨hcode, -⟩ := hcode.append
    refine (hvalue.yields hH hΓ hscalar hcode (by simpa using hroom) hm).bind fun v m1 hm1 =>
      .refl ?_
    obtain ⟨rfl, hm1⟩ := hm1
    obtain ⟨hnil, hbool⟩ := ScalarType.convert_assignable hassign
    refine ⟨v.cast t, rfl, by rw [v.type_cast], ?_⟩
    rw [hnil, List.append_nil, Scalar.value_cast hbool]
    exact hm1
  | int _ =>
    have hzero : (Scalar.initial t).type.id = t.id ∧ (Scalar.initial t).value = .int 0 := by
      cases t <;> exact ⟨rfl, rfl⟩
    refine .of_step (hm.pushInt hH.encoded hcode.one (.inl ⟨0, rfl, rfl⟩) hroom) fun m1 hm1 =>
      .refl ?_
    exact ⟨_, rfl, hzero.1, hzero.2 ▸ hm1⟩
  | float hkind _ => cases t <;> cases hkind
  | ref hkind => cases t <;> cases hkind

/-- A declaration stores the first value in a slot that no variable has had yet. -/
theorem Initialises.declares (hH : env.Hosts T H r) {t : ScalarType} {count : Nat}
    (hterm : term.scalar? = some t) (h : Initialises T H Γ t.id b init code)
    (hscalar : init.all Expr.scalar = true)
    (hcode : r.HasCode b (code ++ [.store (primitives.kindOf t.id) count.toUInt16]))
    (hroom : init.elim 1 Expr.height ≤ env.limits.stack) (hapart : Γ.Apart count)
    (hlt : count < 65536)
    (hslots : count < r.slots) (hname : Γ name = none) (hm : m.Shows r Γ b S) :
    m.Yields env (declaring name term init S) fun S' m' =>
      S'.Covers S ∧ m'.Shows r (Γ.set name count.toUInt16 t.id) (b + code.length + 1) S' := by
  obtain ⟨slots, hsize, hm, hΓ⟩ := hm
  obtain ⟨hcode, hstore⟩ := hcode.append
  refine (h.yields hH hterm hscalar hcode hroom hΓ hm name).andThen fun S' m1 hm1 => ?_
  obtain ⟨v, rfl, htype, hm1⟩ := hm1
  have hindex := Locals.Apart.toNat_next hlt
  have hslot : count.toUInt16.toNat < slots.size := by omega
  rw [← htype] at hstore ⊢
  refine .of_step (hm1.store hH.encoded hstore.one hslot v.hasKind) fun m2 hm2 =>
    .refl ⟨.bind .., ?_⟩
  rw [hindex] at hm2 hslot
  exact ⟨_, Array.size_setIfInBounds.trans hsize, hm2, hΓ.declare hapart hlt hslot hname v⟩

/-- A condition, and the jump that is taken where it does not hold. -/
theorem Computes.tests (hH : env.Hosts T H r) (h : Computes T H Γ (.expr e .bool) b code)
    (hscalar : e.scalar = true) (hcode : r.HasCode b code) (hroom : e.height ≤ env.limits.stack)
    {other : Nat}
    (hjump : r.code[b + code.length]? = some (.jump .ifFalse other.toUInt32))
    (hother : other ≤ r.code.size)
    (hm : m.Shows r Γ b S) : m.Yields env (e.holds S) fun c m' =>
      m'.Shows r Γ (if c then b + code.length + 1 else other) S := by
  obtain ⟨slots, hsize, hm, hΓ⟩ := hm
  have hvalue := (h.yields hH hΓ hscalar hcode (by simpa using hroom) hm).truth
  have hop : Lower.shortcut? .and = some (.ifFalse, false) := rfl
  refine hvalue.andThen fun c m1 hm1 => .of_step (hm1.test hH.encoded hop hjump hother)
    fun m2 hm2 => .refl ?_
  cases c <;> exact ⟨slots, hsize, hm2, hΓ⟩

theorem Guards.yields (hH : env.Hosts T H r) {exit : Nat} {cond : Option Expr}
    (h : Guards T H Γ b exit cond code)
    (hscalar : cond.all Expr.scalar = true) (hcode : r.HasCode b code)
    (hroom : cond.elim 0 Expr.height ≤ env.limits.stack) (hexit : exit ≤ r.code.size)
    (hm : m.Shows r Γ b S) :
    m.Yields env (guarding cond S) fun c m' =>
      m'.Shows r Γ (if c then b + code.length else exit) S := by
  cases h with
  | none => exact .refl hm
  | some hcond =>
    obtain ⟨hcode, hjump⟩ := hcode.append
    rw [List.length_append, List.length_singleton]
    exact hcond.tests hH hscalar hcode hroom hjump.one hexit hm

theorem Steps.yields (hH : env.Hosts T H r) {step : Option Expr} (h : Steps T H Γ b step code)
    (hscalar : step.all Expr.scalar = true) (hcode : r.HasCode b code)
    (hroom : step.elim 0 Expr.height ≤ env.limits.stack) (hapart : Γ.Apart r.slots)
    (hm : m.Shows r Γ b S) :
    m.Yields env (stepping step S) (Machine.ShowsAgain r Γ (b + code.length) S) := by
  cases h with
  | none => exact .refl ⟨rfl, hm⟩
  | some hacts => exact hacts.yields hH hscalar hcode hroom hapart hm

end

/-! ## Ways out -/

/-- A machine has left a loop, or a turn of it. What was bound inside of the loop does not count any
more. -/
def Machine.Leaves (r : Routine) (loop : Option LoopEnds) (goal : LoopEnds → Nat) (Γ : Locals)
    (S S' : Bindings) (m : Machine) : Prop :=
  S'.Covers S ∧ ∃ ends, loop = some ends ∧ m.Shows r Γ (goal ends) (S'.cut S.length)

/-- The ways out of a task that began with certain bindings and ends at an index. -/
def Exits.ofTask (r : Routine) (loop : Option LoopEnds) (Γ : Locals) (S : Bindings) (Γ' : Locals)
    (stop : Nat) : Exits where
  next S' m := S'.Covers S ∧ m.Shows r Γ' stop S'
  breaks := Machine.Leaves r loop LoopEnds.exit Γ S
  continues := Machine.Leaves r loop LoopEnds.top Γ S

/-- The ways out of a scope: nothing is bound behind it that was not bound before. -/
def Exits.ofScope (r : Routine) (loop : Option LoopEnds) (Γ : Locals) (S : Bindings) (stop : Nat) :
    Exits where
  next := Machine.ShowsAgain r Γ stop S
  breaks S' m := ∃ ends, loop = some ends ∧ m.ShowsAgain r Γ ends.exit S S'
  continues S' m := ∃ ends, loop = some ends ∧ m.ShowsAgain r Γ ends.top S S'

section

variable {env : Setting} {r : Routine} {loop : Option LoopEnds} {goal : LoopEnds →
  Nat} {Γ Γ1 Γ2 : Locals}
  {S S1 S' : Bindings} {slots : Array Value} {m : Machine} {turns stop : Nat} {o : Completion}

theorem Machine.Shows.cut (hm : m.Shows r Γ1 stop S') (hΓ : Γ.Holds S slots) (hle : Γ.Le Γ1)
    (hcovers : S'.Covers S) : m.Shows r Γ stop (S'.cut S.length) := by
  obtain ⟨slots', hsize, hm, hΓ1⟩ := hm
  exact ⟨slots', hsize, hm, hΓ1.cut hΓ hle hcovers⟩

theorem Machine.Leaves.outside (hm : m.Leaves r loop goal Γ1 S1 S') (hΓ : Γ.Holds S slots)
    (hle : Γ.Le Γ1) (hcovers : S1.Covers S) : m.Leaves r loop goal Γ S S' := by
  obtain ⟨hcovers1, ends, hends, hm⟩ := hm
  refine ⟨hcovers.trans hcovers1, ends, hends, ?_⟩
  rw [← hcovers.cut_cut hcovers1]
  exact hm.cut hΓ hle (hcovers.trans (.of_names hcovers1.names_cut))

namespace Machine.Completes

/-- A task that comes after others. -/
theorem outside (h : m.Completes env turns (.ofTask r loop Γ1 S1 Γ2 stop) o) (hΓ : Γ.Holds S slots)
    (hle : Γ.Le Γ1)
    (hcovers : S1.Covers S) : m.Completes env turns (.ofTask r loop Γ S Γ2 stop) o :=
  h.mono (fun _ _ hS' => ⟨hcovers.trans hS'.1, hS'.2⟩) (fun _ _ hS' => hS'.outside hΓ hle hcovers)
    fun _ _ hS' => hS'.outside hΓ hle hcovers

theorem toScope (h : m.Completes env turns (.ofTask r loop Γ S Γ1 stop) o) (hΓ : Γ.Holds S slots)
    (hle : Γ.Le Γ1) : m.Completes env turns (.ofScope r loop Γ S stop) (o.leave S.length) := by
  refine h.leave (fun S' m' hS' => ?_) (fun S' m' hS' => ?_) fun S' m' hS' => ?_
  · exact ⟨hS'.1.names_cut, hS'.2.cut hΓ hle hS'.1⟩
  · obtain ⟨hcovers, ends, hends, hm'⟩ := hS'
    exact ⟨ends, hends, hcovers.names_cut, hm'⟩
  · obtain ⟨hcovers, ends, hends, hm'⟩ := hS'
    exact ⟨ends, hends, hcovers.names_cut, hm'⟩

theorem ofScope (h : m.Completes env turns (.ofScope r loop Γ S stop) o) :
    m.Completes env turns (.ofTask r loop Γ S Γ stop) o := by
  have hleaves : ∀ {goal : LoopEnds → Nat} {S' : Bindings} {m : Machine},
      (∃ ends, loop = some ends ∧ m.ShowsAgain r Γ (goal ends) S S') →
      m.Leaves r loop goal Γ S S' := by
    rintro goal S' m ⟨ends, hends, hnames, hm⟩
    refine ⟨.of_names hnames, ends, hends, ?_⟩
    rwa [Bindings.cut_of_names hnames]
  exact h.mono (fun _ _ hS' => ⟨.of_names hS'.1, hS'.2⟩) (fun _ _ hS' => hleaves hS') fun _ _ hS' =>
    hleaves hS'

end Machine.Completes

end

/-! ## Loops and choices -/

/-- An arm goes on without a jump if it is the last one and nothing is done otherwise. -/
theorem armEnd_eq_nil {hasElse : Bool} {rest : List Arm} {stop : Nat}
    (h : armEnd hasElse rest stop = []) : hasElse = false ∧ rest = [] := by
  unfold armEnd at h
  split at h
  · cases h
  next hlast => simpa using hlast

namespace Machine.Shows

variable {env : Setting} {T : Tables} {H : Home} {r : Routine} (hH : env.Hosts T H r) {Γ : Locals}
  {S : Bindings} {m : Machine} {loop : Option LoopEnds} {cs cc cb cr : List Instruction}
  {turns b exit top : Nat} {cond step : Option Expr} {body : Bindings → Completion}

include hH

/-- Both kinds of loops. One with `while` has no step, and its turns begin at the condition. -/
theorem loops {bottom : Nat} (hsteps : Steps T H Γ top step cs)
    (hguards : Guards T H Γ (top + cs.length) exit cond cc)
    (hscalar : cond.all Expr.scalar = true ∧ step.all Expr.scalar = true)
    (hroom : cond.elim 0 Expr.height ≤ env.limits.stack ∧
      step.elim 0 Expr.height ≤ env.limits.stack)
    (hcs : r.HasCode top cs) (hcc : r.HasCode (top + cs.length) cc)
    (hback : r.code[bottom]? = some (.jump .always top.toUInt32)) (hapart : Γ.Apart r.slots)
    (htop : top ≤ r.code.size) (hexit : exit ≤ r.code.size)
    (hbody : ∀ (S : Bindings) (m : Machine), m.Shows r Γ (top + cs.length + cc.length) S →
      m.Completes env turns (.ofTask r (some ⟨top, exit⟩) Γ S Γ bottom) (body S))
    (hm : m.Shows r Γ (top + cs.length) S) :
    m.Completes env turns (.ofTask r loop Γ S Γ exit)
      (looping (guarding cond) (stepping step) body turns S) := by
  have hloops : m.Completes env turns ⟨ShowsAgain r Γ exit S, fun _ _ => False, fun _ _ => False⟩
      (looping (guarding cond) (stepping step) body turns S) := by
    refine .looping (ShowsAgain r Γ (top + cs.length) S)
      (ShowsAgain r Γ (top + cs.length + cc.length) S)
      (ShowsAgain r Γ bottom S) (ShowsAgain r Γ top S) (fun S1 m1 hm1 => ?_) (fun S1 m1 hm1 => ?_)
      (fun S1 m1 hm1 => ?_) (fun S1 m1 hm1 => ?_) turns le_rfl ⟨rfl, hm⟩
    · refine (hguards.yields hH hscalar.1 hcc hroom.1 hexit hm1.2).mono fun c m2 hm2 => ?_
      cases c <;> exact ⟨hm1.1, hm2⟩
    · obtain ⟨hnames, slots, hsize, hstands, hΓ⟩ := hm1
      have hscope := (hbody S1 m1 ⟨slots, hsize, hstands, hΓ⟩).toScope hΓ fun _ _ hname => hname
      refine hscope.mono (fun S2 m2 hm2 => ?_) (fun S2 m2 hm2 => ?_) fun S2 m2 hm2 => ?_
      · exact ⟨hm2.1.trans hnames, hm2.2⟩
      · obtain ⟨ends, hends, hm2⟩ := hm2
        cases hends
        exact ⟨hm2.1.trans hnames, hm2.2⟩
      · obtain ⟨ends, hends, hm2⟩ := hm2
        cases hends
        exact ⟨hm2.1.trans hnames, hm2.2⟩
    · exact (hm1.2.jump hH.encoded hback htop).mono fun m2 hm2 => ⟨hm1.1, hm2⟩
    · refine (hsteps.yields hH hscalar.2 hcs hroom.2 hapart hm1.2).mono fun S2 m2 hm2 => ?_
      exact ⟨hm2.1.trans hm1.1, hm2.2⟩
  exact hloops.mono (fun S' m' hm' => ⟨.of_names hm'.1, hm'.2⟩) (fun _ _ hfalse => hfalse.elim)
    fun _ _ hfalse => hfalse.elim

theorem whileLoop {cond : Expr} (hcond : Computes T H Γ (.expr cond .bool) b cc)
    (hscalar : cond.scalar = true) (hroom : cond.height ≤ env.limits.stack)
    (hexit : exit = b + cc.length + 1 + cb.length + 1)
    (hcode : r.HasCode b (cc ++ .jump .ifFalse exit.toUInt32 :: (cb ++ [.jump .always b.toUInt32])))
    (hapart : Γ.Apart r.slots)
    (hbody : ∀ (S : Bindings) (m : Machine), m.Shows r Γ (b + cc.length + 1) S →
      m.Completes env turns (.ofTask r (some ⟨b, exit⟩) Γ S Γ (b + cc.length + 1 + cb.length))
    (body S))
    (hm : m.Shows r Γ b S) :
    m.Completes env turns (.ofTask r loop Γ S Γ exit) (looping cond.holds .ok body turns S) := by
  have hb := hm.le_size hH.encoded
  rw [List.append_cons] at hcode
  obtain ⟨hguard, htail⟩ := hcode.append
  rw [List.length_append, List.length_singleton, ← Nat.add_assoc] at htail
  have hback := htail.append.2.one
  have hlt := (getElem_of_getElem? hback).1
  refine loops hH .none (.some hcond) ⟨hscalar, rfl⟩ ⟨hroom, Nat.zero_le _⟩ nofun hguard hback
    hapart hb (by omega) ?_ hm
  rw [List.length_append, List.length_singleton]
  exact hbody

theorem forLoop {Γ1 : Locals} {slots : Array Value} {init : Completion} {entry start : Nat}
    (hΓ : Γ.Holds S slots) (hle : Γ.Le Γ1)
    (hinit : m.Completes env turns (.ofTask r loop Γ S Γ1 b) init)
    (htop : top = b + 1) (hsteps : Steps T H Γ1 top step cs) (hentry : entry = top + cs.length)
    (hguards : Guards T H Γ1 entry exit cond cc) (hstart : start = entry + cc.length)
    (hexit : exit = start + cb.length + 1)
    (hscalar : cond.all Expr.scalar = true ∧ step.all Expr.scalar = true)
    (hroom : cond.elim 0 Expr.height ≤ env.limits.stack ∧
      step.elim 0 Expr.height ≤ env.limits.stack)
    (hcode : r.HasCode b (.jump .always entry.toUInt32 ::
      (cs ++ (cc ++ (cb ++ [.jump .always top.toUInt32])))))
    (hapart : Γ1.Apart r.slots)
    (hbody : ∀ (S : Bindings) (m : Machine), m.Shows r Γ1 start S →
      m.Completes env turns (.ofTask r (some ⟨top, exit⟩) Γ1 S Γ1 (start + cb.length)) (body S)) :
    m.Completes env turns (.ofTask r loop Γ S Γ exit)
      ((init.andThen (looping (guarding cond) (stepping step) body turns)).leave S.length) := by
  subst htop hentry hstart
  obtain ⟨hjump, htail⟩ := hcode.cons
  obtain ⟨hcs, htail⟩ := htail.append
  obtain ⟨hcc, htail⟩ := htail.append
  have hback := htail.append.2.one
  have hlt := (getElem_of_getElem? hback).1
  refine Completes.ofScope (.toScope ?_ hΓ hle)
  refine hinit.andThen (fun S1 m1 hm1 => ?_) (fun _ _ hS' => hS') fun _ _ hS' => hS'
  refine (Completes.of_advances (hm1.2.jump hH.encoded hjump (by omega)) fun m2 hm2 => ?_).of_le
    (Nat.le_add_left ..)
  refine Completes.outside ?_ hΓ hle hm1.1
  exact hm2.loops hH hsteps hguards hscalar hroom hcs hcc hback hapart (by omega) (by omega) hbody

/-- One arm of a choice, in front of what is done where its condition does not hold. -/
theorem arm {cond : Expr} {hasElse : Bool} {rest : List Arm} {skip last : Nat} {yes no : Completion}
    (hcond : Computes T H Γ (.expr cond .bool) b cc) (hscalar : cond.scalar = true)
    (hroom : cond.height ≤ env.limits.stack)
    (hskip : skip = b + cc.length + 1 + cb.length + (armEnd hasElse rest last).length)
    (hcode : r.HasCode b (cc ++ .jump .ifFalse skip.toUInt32 ::
      (cb ++ (armEnd hasElse rest last ++ cr))))
    (hlast : last ≤ r.code.size) (hend : armEnd hasElse rest last = [] → last = skip)
    (hyes : ∀ m : Machine, m.Shows r Γ (b + cc.length + 1) S →
      m.Completes env turns (.ofTask r loop Γ S Γ (b + cc.length + 1 + cb.length)) yes)
    (hno : ∀ m : Machine, m.Shows r Γ skip S → m.Completes env turns (.ofTask r loop Γ S Γ last) no)
    (hm : m.Shows r Γ b S) :
    m.Completes env turns (.ofTask r loop Γ S Γ last) (.branch (cond.holds S) yes no) := by
  have hsize := hcode.le_size (hm.le_size hH.encoded)
  simp only [List.length_append, List.length_cons] at hsize
  obtain ⟨hcc, htail⟩ := hcode.append
  obtain ⟨hjump, htail⟩ := htail.cons
  obtain ⟨-, htail⟩ := htail.append
  obtain ⟨hleave, -⟩ := htail.append
  refine .branch ((hcond.tests hH hscalar hcc hroom hjump (by omega) hm).mono fun c m1 hm1 => ?_)
  cases c with
  | false => exact hno m1 hm1
  | true =>
    show m1.Completes env turns _ yes
    rw [← yes.andThen_next]
    refine (hyes m1 hm1).andThen (fun S2 m2 hm2 => ?_) (fun _ _ hS' => hS') fun _ _ hS' => hS'
    unfold armEnd at hleave hend hskip
    split at hleave
    next hmore =>
      refine (Advances.mono (hm2.2.jump hH.encoded hleave.one hlast) fun m3 hm3 => ?_).of_le
        (Nat.zero_le _)
      exact ⟨hm2.1, hm3⟩
    next hmore =>
      rw [if_neg hmore] at hend hskip
      exact .next ⟨hm2.1, hm2.2.at_index ((hend rfl).trans hskip).symm⟩

end Machine.Shows

/-! ## Statements -/

def Task.scalar : Task → Bool
  | .stmt s => s.scalar
  | .stmts list => scalarAll list
  | .arms _ list _ => scalarArms list

def Task.height : Task → Nat
  | .stmt s => s.height
  | .stmts list => heightAll list
  | .arms _ list _ => heightArms list

namespace Stmt

variable {span : Span} {arms : List Arm} {init otherwise : Option Stmt} {cond step : Option Expr}
  {body : Stmt}

theorem scalar_choose : (choose span arms otherwise).scalar =
    (scalarArms arms && scalarAll otherwise.toList) := by
  cases otherwise with
  | none => exact (Bool.and_true _).symm
  | some s => exact congrArg (scalarArms arms && ·) (Bool.and_true _).symm

theorem height_choose :
    (choose span arms otherwise).height = max (heightArms arms) (heightAll otherwise.toList) := by
  cases otherwise with
  | none => exact (Nat.max_zero _).symm
  | some s => exact congrArg (max (heightArms arms)) (Nat.max_zero _).symm

theorem exec_choose (turns : Nat) (S : Bindings) :
    (choose span arms otherwise).exec turns S =
      execArms turns arms (execAll turns otherwise.toList S) S := by
  cases otherwise with
  | none => rfl
  | some s => exact congrArg (execArms turns arms · S) (Completion.andThen_next _).symm

theorem scalar_for : (forLoop span init cond step body).scalar =
    (scalarAll init.toList && (cond.all Expr.scalar && step.all Expr.scalar && body.scalar)) := by
  cases init with
  | none => rfl
  | some s => exact congrArg (· && _) (Bool.and_true _).symm

theorem height_for : (forLoop span init cond step body).height =
    max (heightAll init.toList) (max (max (cond.elim 0 Expr.height) (step.elim 0 Expr.height))
      body.height) := by
  cases init with
  | none => exact (Nat.zero_max _).symm
  | some s => exact congrArg (max · _) (Nat.max_zero _).symm

theorem exec_for (turns : Nat) (S : Bindings) : (forLoop span init cond step body).exec turns S =
    ((execAll turns init.toList S).andThen (looping (guarding cond) (stepping step)
      (body.exec turns) turns)).leave S.length := by
  cases init with
  | none => rfl
  | some s =>
    have hsingle : execAll turns (some s).toList S = s.exec turns S := Completion.andThen_next _
    rw [hsingle]
    rfl

end Stmt

/-- A machine does what a task means. Behind the arms of a choice stands what is done otherwise, and
the choice ends somewhere behind that. -/
def Machine.Performs (env : Setting) (turns : Nat) (r : Routine) (loop : Option LoopEnds)
    (Γ Γ' : Locals) (stop : Nat) (S : Bindings) (m : Machine) : Task → Prop
  | .stmt s => m.Completes env turns (.ofTask r loop Γ S Γ' stop) (s.exec turns S)
  | .stmts list => m.Completes env turns (.ofTask r loop Γ S Γ' stop) (execAll turns list S)
  | .arms hasElse list last => last ≤ r.code.size → (hasElse = false → last = stop) → ∀ otherwise,
    (∀ m' : Machine, m'.Shows r Γ stop S → m'.Completes env turns (.ofTask r loop Γ S Γ last)
      otherwise) →
    m.Completes env turns (.ofTask r loop Γ S Γ last) (execArms turns list otherwise S)

theorem Executes.completes {env : Setting} {T : Tables} {H : Home} {r : Routine}
    (hH : env.Hosts T H r) (turns : Nat)
    {loop : Option LoopEnds} {task : Task} {Γ Γ' : Locals} {Δ Δ' : List TypeId} {b : Nat}
    {code : List Instruction}
    (h : Executes T H loop task Γ Δ b code Γ' Δ') (hscalar : task.scalar = true)
    (hscoped : task.scoped = true)
    (hcode : r.HasCode b code) (hroom : task.height ≤ env.limits.stack) (hapart : Γ.Apart Δ.length)
    (hslots : Δ'.length ≤ r.slots)
    (hloop : ∀ ends, loop = some ends → ends.top ≤ r.code.size ∧ ends.exit ≤ r.code.size)
    {S : Bindings}
    {m : Machine} (hm : m.Shows r Γ b S) : m.Performs env turns r loop Γ Γ'
    (b + code.length) S task := by
  have henc := hH.encoded
  induction h generalizing S m with
  | @var _ _ name term init t slot Γ Δ b code hterm _ hinit hname hlt hslot =>
    obtain ⟨hterm', hscalar⟩ := Bool.and_eq_true_iff.mp hscalar
    obtain ⟨t, ht⟩ := Option.isSome_iff_exists.mp hterm'
    rw [hH.top, hH.types.meaning_scalar ht] at hterm
    cases hterm
    subst hslot
    rw [List.length_append, List.length_singleton] at hslots
    refine .of (hinit.declares hH ht hscalar hcode hroom hapart hlt hslots hname hm)
      fun S' m' hm' => ⟨hm'.1, ?_⟩
    exact hm'.2.at_index (by rw [List.length_append, List.length_singleton, Nat.add_assoc])
  | expr hacts =>
    refine .of (hacts.yields hH hscalar hcode hroom (hapart.mono hslots) hm) fun S' m' hm' => ?_
    exact ⟨.of_names hm'.1, hm'.2⟩
  | block hbody ih =>
    obtain ⟨slots, -, -, hΓ⟩ := id hm
    have hdone := ih hscalar hscoped hcode hroom hapart hslots hloop hm
    exact (Machine.Completes.toScope hdone hΓ hbody.locals_le).ofScope
  | @choose _ _ list otherwise Γ Γ1 Γ2 Δ Δ1 Δ2 b stop ca co harms hother hstop ih1 ih2 =>
    obtain ⟨harmsScoped, hotherScoped⟩ := scoped_choose hscoped
    obtain rfl := harms.locals_eq harmsScoped
    obtain rfl := hother.locals_eq hotherScoped
    rw [Task.scalar, Stmt.scalar_choose, Bool.and_eq_true] at hscalar
    rw [Task.height, Stmt.height_choose, Nat.max_le] at hroom
    have hsize := hcode.le_size (hm.le_size henc)
    obtain ⟨hca, hco⟩ := hcode.append
    have hend : b + (ca ++ co).length = stop := by rw [hstop, List.length_append, Nat.add_assoc]
    have hnoElse : otherwise.isSome = false → stop = b + ca.length := by
      intro hnone
      obtain rfl := Option.not_isSome_iff_eq_none.mp (Bool.eq_false_iff.mp hnone)
      cases hother
      exact hstop
    rw [Machine.Performs, Stmt.exec_choose, hend]
    refine ih1 hscalar.1 harmsScoped hca hroom.1 hapart (hother.slots_grow.length_le.trans hslots)
      hloop hm (hend ▸ hsize) hnoElse _ fun m' hm' => ?_
    subst hstop
    exact ih2 hscalar.2 (Task.closed_scoped hotherScoped) hco hroom.2 (harms.apart hapart) hslots
      hloop hm'
  | @whileLoop loop _ cond body Γ Γ' Δ Δ' b exit cc cb hcond hbody hexit ih =>
    have hclosed := scoped_while hscoped
    obtain rfl := hbody.locals_eq hclosed
    obtain ⟨hscalar, hbodyScalar⟩ := Bool.and_eq_true_iff.mp hscalar
    obtain ⟨hroom, hbodyRoom⟩ := Nat.max_le.mp hroom
    have hb := hm.le_size henc
    have hsize := hcode.le_size hb
    have hend : b + (cc ++ .jump .ifFalse exit.toUInt32 :: (cb ++ [.jump .always b.toUInt32]) :
        List Instruction).length = exit := by
      simp only [List.length_append, List.length_cons, List.length_nil]
      omega
    have hapart' := hapart.mono (hbody.slots_grow.length_le.trans hslots)
    obtain ⟨hcb, -⟩ := hcode.append.2.cons.2.append
    rw [hend] at hsize ⊢
    refine hm.whileLoop hH hcond hscalar hroom hexit hcode hapart' fun S m hm => ?_
    refine ih hbodyScalar (Task.closed_scoped hclosed) hcb hbodyRoom hapart hslots ?_ hm
    rintro _ ⟨rfl⟩
    exact ⟨hb, hsize⟩
  | @forLoop loop _ init cond step body Γ Γ1 Γ2 Δ Δ1 Δ2 b top entry start exit ci cs cc cb hinit
      htop hstep hentry hguard hstart hbody hexit ih1 ih2 =>
      obtain ⟨hinitScoped, hclosed⟩ := scoped_for hscoped
      obtain rfl := hbody.locals_eq hclosed
      rw [Task.scalar, Stmt.scalar_for, Bool.and_eq_true, Bool.and_eq_true,
        Bool.and_eq_true] at hscalar
      rw [Task.height, Stmt.height_for, Nat.max_le, Nat.max_le, Nat.max_le] at hroom
      obtain ⟨hinitScalar, hscalar, hbodyScalar⟩ := hscalar
      obtain ⟨hinitRoom, hroom, hbodyRoom⟩ := hroom
      have hsize := hcode.le_size (hm.le_size henc)
      have hend : b + (ci ++ .jump .always entry.toUInt32 ::
        (cs ++ (cc ++ (cb ++ [.jump .always top.toUInt32]))) :
          List Instruction).length = exit := by
        simp only [List.length_append, List.length_cons, List.length_nil]
        omega
      obtain ⟨hci, htail⟩ := hcode.append
      have hcb : r.HasCode start cb := by
        have := htail.cons.2.append.2.append.2.append.1
        rwa [← htop, ← hentry, ← hstart] at this
      obtain ⟨slots, -, -, hΓ⟩ := id hm
      have hΔ1 := hbody.slots_grow.length_le.trans hslots
      have hapart1 := hinit.apart hapart
      have hdone := ih1 hinitScalar hinitScoped hci hinitRoom hapart hΔ1 hloop hm
      rw [hend] at hsize
      rw [Machine.Performs, Stmt.exec_for, hend]
      refine Machine.Shows.forLoop hH hΓ hinit.locals_le hdone htop hstep hentry hguard hstart hexit
        hscalar hroom htail (hapart1.mono hΔ1) fun S m hm => ?_
      refine ih2 hbodyScalar (Task.closed_scoped hclosed) hcb hbodyRoom hapart1 hslots ?_ hm
      rintro _ ⟨rfl⟩
      exact ⟨by show top ≤ _; omega, hsize⟩
  | @breakLoop ends _ Γ _ b =>
    refine (hm.jump henc hcode.one (hloop ends rfl).2).mono fun m' hm' => ⟨.refl S, ends, rfl, ?_⟩
    rwa [Bindings.cut_of_names rfl]
  | @continueLoop ends _ Γ _ b =>
    refine (hm.jump henc hcode.one (hloop ends rfl).1).mono fun m' hm' => ⟨.refl S, ends, rfl, ?_⟩
    rwa [Bindings.cut_of_names rfl]
  | ret | retVoid | delete => cases hscalar
  | @nil loop Γ _ b =>
    show m.Completes env turns (.ofTask r loop Γ S Γ b) (.next S)
    exact .next ⟨.refl S, hm⟩
  | @cons loop s rest Γ Γ1 Γ2 Δ Δ1 Δ2 b cs cr h1 h2 ih1 ih2 =>
    obtain ⟨hscalar1, hscalar2⟩ := Bool.and_eq_true_iff.mp hscalar
    obtain ⟨hscoped1, hscoped2⟩ := Bool.and_eq_true_iff.mp hscoped
    obtain ⟨hroom1, hroom2⟩ := Nat.max_le.mp hroom
    obtain ⟨hcs, hcr⟩ := hcode.append
    obtain ⟨slots, -, -, hΓ⟩ := id hm
    have hdone := ih1 hscalar1 hscoped1 hcs hroom1 hapart (h2.slots_grow.length_le.trans hslots)
      hloop hm
    rw [List.length_append, ← Nat.add_assoc]
    refine Machine.Completes.andThen hdone (fun S1 m1 hm1 => ?_) (fun _ _ => id) fun _ _ => id
    have hrest := ih2 hscalar2 hscoped2 hcr hroom2 (h1.apart hapart) hslots hloop hm1.2
    exact Machine.Completes.outside hrest hΓ h1.locals_le hm1.1
  | noArm => exact fun _ _ otherwise hother => hother m hm
  | @arm loop hasElse cond body rest last skip Γ Γ1 Γ2 Δ Δ1 Δ2 b cc cb cr hcond hbody hskip hrest
      ih1 ih2 =>
    obtain ⟨hclosed, hrestScoped⟩ := scoped_arm hscoped
    obtain rfl := hbody.locals_eq hclosed
    obtain rfl := hrest.locals_eq hrestScoped
    obtain ⟨hscalar, hrestScalar⟩ := Bool.and_eq_true_iff.mp hscalar
    obtain ⟨hscalar, hbodyScalar⟩ := Bool.and_eq_true_iff.mp hscalar
    obtain ⟨hroom, hrestRoom⟩ := Nat.max_le.mp hroom
    obtain ⟨hroom, hbodyRoom⟩ := Nat.max_le.mp hroom
    obtain ⟨hcb, htail⟩ := hcode.append.2.cons.2.append
    obtain ⟨-, hcr⟩ := htail.append
    rw [← hskip] at hcr
    have hlen : skip + cr.length =
        b + (cc ++ .jump .ifFalse skip.toUInt32 ::
          (cb ++ (armEnd hasElse rest last ++ cr))).length := by
      simp only [List.length_append, List.length_cons]
      omega
    intro hlast hnoElse otherwise hotherwise
    rw [← hlen] at hnoElse hotherwise
    have hend : armEnd hasElse rest last = [] → last = skip := by
      intro hnil
      obtain ⟨hfalse, rfl⟩ := armEnd_eq_nil hnil
      cases hrest
      exact hnoElse hfalse
    refine hm.arm hH hcond hscalar hroom hskip hcode hlast hend (fun m' hm' => ?_) fun m' hm' => ?_
    · exact ih1 hbodyScalar (Task.closed_scoped hclosed) hcb hbodyRoom hapart
        (hrest.slots_grow.length_le.trans hslots) hloop hm'
    · exact ih2 hrestScalar hrestScoped hcr hrestRoom (hbody.apart hapart) hslots hloop hm' hlast
        hnoElse otherwise hotherwise

end Bytescript
