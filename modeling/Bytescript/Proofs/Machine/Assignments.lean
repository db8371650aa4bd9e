import Bytescript.Proofs.Machine.Passages
import Bytescript.Proofs.Machine.Safety

/-!
# Assignments with an operator

An assignment `t op= v` finds out where `t` is, reads the old value there, evaluates `v`, and stores
the result where `t` was, whatever `v` has changed in between. `Machine.Updates` says it for a run
through its code.

An expression is compiled as an assignment only where it stands for its effect (`Stmt.effects`), and
each has code of its own there (`Executes.laid`).
-/

namespace Bytescript

open TypeTable (primitives)

/-! ## Expressions that stand for their effects -/

mutual

/-- The expressions that are evaluated for their effect, in the order of their code. -/
def Stmt.effects : Stmt → List Expr
  | .expr _ e => [e]
  | .block _ body => effectsIn body
  | .choose _ arms none => effectsInArms arms
  | .choose _ arms (some otherwise) => effectsInArms arms ++ otherwise.effects
  | .whileLoop _ _ body => body.effects
  | .forLoop _ none _ step body => step.toList ++ body.effects
  | .forLoop _ (some init) _ step body => init.effects ++ (step.toList ++ body.effects)
  | _ => []

def effectsIn : List Stmt → List Expr
  | [] => []
  | s :: rest => s.effects ++ effectsIn rest

def effectsInArms : List Arm → List Expr
  | [] => []
  | .mk _ body :: rest => body.effects ++ effectsInArms rest

end

def Task.effects : Task → List Expr
  | .stmt s => s.effects
  | .stmts list => effectsIn list
  | .arms _ list _ => effectsInArms list

/-- The statements that a routine is compiled from. A constructor has none. -/
def Callable.code : Callable → List Stmt
  | .function _ code | .method _ _ code => code
  | .constructor _ _ => []

theorem effects_choose (span : Span) (arms : List Arm) (otherwise : Option Stmt) :
    (Stmt.choose span arms otherwise).effects =
      effectsInArms arms ++ effectsIn otherwise.toList := by
  cases otherwise <;> simp [Stmt.effects, effectsIn]

theorem effects_forLoop (span : Span) (init : Option Stmt) (cond step : Option Expr) (body : Stmt) :
    (Stmt.forLoop span init cond step body).effects =
      effectsIn init.toList ++ (step.toList ++ body.effects) := by
  cases init <;> simp [Stmt.effects, effectsIn]

/-- Between two indices, expressions have stretches of code, one behind the other. -/
inductive Laid (P : Expr → Nat → Nat → Prop) : Nat → Nat → List Expr → Prop
  | nil {b e} : b ≤ e → Laid P b e []
  | cons {b e start stop x rest} : b ≤ start → P x start stop →
    Laid P stop e rest → Laid P b e (x :: rest)

namespace Laid

variable {P : Expr → Nat → Nat → Prop} {b e b' e' k : Nat} {xs ys : List Expr}

theorem widen (h : Laid P b e xs) (hb : b' ≤ b) (he : e ≤ e') : Laid P b' e' xs := by
  induction h generalizing b' with
  | nil hle => exact .nil (by omega)
  | cons hle hx _ ih => exact .cons (hb.trans hle) hx (ih le_rfl he)

theorem append (h : Laid P b k xs) (h' : Laid P k e ys) : Laid P b e (xs ++ ys) := by
  induction h with
  | nil hle => exact h'.widen hle le_rfl
  | cons hle hx _ ih => exact .cons hle hx (ih h')

end Laid

/-- The code of an expression that stands for its effect is there. -/
def Routine.Acts (T : Tables) (H : Home) (r : Routine) (x : Expr) (start stop : Nat) : Prop :=
  ∃ Γ own, Bytescript.Acts T H Γ x start own ∧ r.HasCode start own ∧ stop = start + own.length

section

variable {T : Tables} {H : Home} {r : Routine} {b : Nat} {code : List Instruction} {Γ : Locals}
  {Δ : List TypeId}

theorem Steps.laid {step : Option Expr} (h : Steps T H Γ b step code) (hcode : r.HasCode b code) :
    Laid (r.Acts T H) b (b + code.length) step.toList := by
  cases h with
  | none => exact .nil le_rfl
  | some hacts => exact .cons le_rfl ⟨Γ, code, hacts, hcode, rfl⟩ (.nil le_rfl)

/-- Each expression that is evaluated for its effect has code of its own. -/
theorem Executes.laid {loop : Option LoopEnds} {task : Task} {Γ' : Locals} {Δ' : List TypeId}
    (h : Executes T H loop task Γ Δ b code Γ' Δ') (hcode : r.HasCode b code) :
    Laid (r.Acts T H) b (b + code.length) task.effects := by
  induction h with
  | @expr _ _ e Γ _ _ code hacts =>
    rw [Task.effects, Stmt.effects]
    exact .cons le_rfl ⟨Γ, code, hacts, hcode, rfl⟩ (.nil le_rfl)
  | block _ ih =>
    rw [Task.effects, Stmt.effects]
    exact ih hcode
  | choose _ _ _ iha iho =>
    obtain ⟨ha, ho⟩ := hcode.append
    rw [Task.effects, effects_choose, List.length_append, ← Nat.add_assoc]
    exact (iha ha).append (iho ho)
  | whileLoop _ _ _ ih =>
    rw [Task.effects, Stmt.effects]
    refine (ih hcode.append.2.cons.2.append.1).widen (by omega) ?_
    simp
    omega
  | forLoop _ htop hstep hentry _ hstart _ _ ihi ihb =>
    subst htop hentry hstart
    obtain ⟨hi, hrest⟩ := hcode.append
    obtain ⟨hs, hrest⟩ := hrest.cons.2.append
    rw [Task.effects, effects_forLoop]
    refine (ihi hi).append (((hstep.laid hs).widen (Nat.le_succ _) le_rfl).append
      ((ihb hrest.append.2.append.1).widen (Nat.le_add_right _ _) ?_))
    simp
    omega
  | cons _ _ ihs ihr =>
    obtain ⟨hs, hr⟩ := hcode.append
    rw [Task.effects, effectsIn, List.length_append, ← Nat.add_assoc]
    exact (ihs hs).append (ihr hr)
  | arm _ _ hskip _ ihb ihr =>
    subst hskip
    obtain ⟨hb, hrest⟩ := hcode.append.2.cons.2.append
    rw [Task.effects, effectsInArms]
    refine ((ihb hb).widen (by omega) (Nat.le_add_right _ _)).append
      ((ihr hrest.append.2).widen le_rfl ?_)
    simp
    omega
  | _ => exact .nil (Nat.le_add_right _ _)

theorem Routine.hasCode_self (r : Routine) : r.HasCode 0 r.code.toList := by
  intro j i hi
  rwa [Nat.zero_add, ← Array.getElem?_toList]

theorem BodyCode.laid {params : List (String × TypeId)} {body : List Stmt}
    (h : BodyCode T H params body r.code.toList Δ) : Laid (r.Acts T H) 0 r.code.size
    (effectsIn body) := by
  have hlaid : ∀ {Γ Γ' Δ Δ' cp cb} rest, Executes T H none (.stmts body) Γ Δ cp.length cb Γ' Δ' →
      r.code.toList = cp ++ (cb ++ rest) → Laid (r.Acts T H) 0 r.code.size (effectsIn body) := by
    intro Γ Γ' Δ Δ' cp cb rest hexec hcode
    have hhas := r.hasCode_self
    rw [hcode] at hhas
    have hbody := hhas.append.2.append.1
    rw [Nat.zero_add] at hbody
    refine (hexec.laid hbody).widen (Nat.zero_le _) ?_
    rw [← Array.length_toList, hcode]
    simp
  generalize hcode : r.code.toList = code at h
  cases h with
  | bare _ hexec => exact hlaid [] hexec (by rw [hcode, List.append_nil])
  | returning _ hexec _ => exact hlaid _ hexec hcode

end

variable {items : List Stmt} {r : Routine} {env : Setting} {b e n : Nat} {α : Type} {w w' : World}
  {image : Image} {a : α}

theorem Tables.Source.laid {T : Tables} {d : Callable} (h : T.Source items r d) :
    ∃ role scope, T.Inside items d role scope ∧
      Laid (r.Acts T ⟨role, scope, r.result⟩) 0 r.code.size (effectsIn d.code) := by
  cases h with
  | function hitem hnamed =>
    obtain ⟨_, _, _, hbody, -⟩ := hnamed.body
    exact ⟨_, _, .function, hbody.result_eq ▸ hbody.code.laid⟩
  | method hclass hitem hnamed =>
    obtain ⟨_, _, _, hbody, -⟩ := hnamed.body
    exact ⟨_, _, .method hclass, hbody.result_eq ▸ hbody.code.laid⟩
  | constructor hclass _ _ => exact ⟨_, _, .constructor hclass, .nil (Nat.zero_le _)⟩

/-! ## Locations -/

/-- Where a value is kept. -/
inductive Location where
  | slot (index : Nat)
  | field (object : HeapId) (member : Nat)
  | element (array : HeapId) (index : Nat)

namespace Location

def Holds (m : Machine) (v : Value) : Location → Prop
  | slot index => m.frame.slots[index]? = some v
  | field object member => m.world.heap.field object member = .ok v
  | element array index => m.world.heap.element array index = .ok v

/-- A value has been written to a location, and nothing else has changed in the variables and the
heap. -/
def Writes (m m' : Machine) (v : Value) : Location → Prop
  | slot index => index < m.frame.slots.size ∧
    m'.frame.slots = m.frame.slots.setIfInBounds index v ∧
    m'.world.heap = m.world.heap
  | field object member => m.world.heap.setField object member v = (.ok (), m'.world.heap) ∧
    m'.frame.slots = m.frame.slots
  | element array index => m.world.heap.setElement array index v = (.ok (), m'.world.heap) ∧
    m'.frame.slots = m.frame.slots

end Location

/-- The location that operands on the stack, the top first, address for a place. -/
inductive Place.Locates : Place → List Value → Location → Prop
  | slot {kind slot} : Locates (.slot kind slot) [] (.slot slot.toNat)
  | field {kind member object} : Locates (.field kind member) [.objectRef object]
    (.field object member.toNat)
  | element {kind index array} :
    Locates (.element kind) [.int index, .objectRef array] (.element array index.toNatClampNeg)

/-! ## Runs through an assignment -/

section

variable (env : Setting) (T : Tables) (H : Home) (Γ : Locals) (r : Routine)

/-- The code of an expression is run through once and leaves a value. -/
structure Machine.Evaluates (callers : Array Frame) (x : Expr) (t : TypeId) (b e n : Nat)
    (m m' : Machine) (v : Value) : Prop where
  code : ∃ code, Computes T H Γ (.expr x t) b code ∧ r.HasCode b code ∧ e = b + code.length
  passes : m.Passes env r callers b e n m'
  operands : m'.frame.operands = v :: m.frame.operands

/-- A target is addressed: what it is made of is evaluated, from left to right and each once, and
leaves the operands that address a location. -/
inductive Machine.Addresses (callers : Array Frame) (m : Machine) :
    Expr → TypeId → Nat → Nat → Nat → Machine → List Value → Location → Prop
  | named {span name slot t b} :
    Γ name = some (slot, t) → Addresses callers m (.ident span name) t b b 0 m [] (.slot slot.toNat)
  | member {span name cls self t info slot member b object m'} :
    Γ name = none → H.role.class? = some cls → T.scopes.classInfo? cls = some info →
    T.HasMember info name member t → Γ "this" = some (slot, self) →
    m.frame.slots[slot.toNat]? = some (.objectRef object) → m.Passes env r callers b (b + 1) 1 m' →
    Addresses callers m (.ident span name) t b (b + 1) 1 m' [.objectRef object]
      (.field object member.toNat)
  | property {span x name cls t info member b e n object m'} :
    Machine.Evaluates env T H Γ r callers x cls b e n m m' (.objectRef object) →
    T.scopes.classInfo? cls = some info → T.HasMember info name member t →
    Addresses callers m (.property span x name) t b e n m' [.objectRef object]
      (.field object member.toNat)
  | element {span x y cls t found b e1 e2 e n1 n2 n3 array index v m1 m2 m'} :
    Machine.Evaluates env T H Γ r callers x cls b e1 n1 m m1 (.objectRef array) →
    T.types.element? cls = some t → Machine.Evaluates env T H Γ r callers y found e1 e2 n2 m1 m2 v →
    primitives.isAssignable found .int = true → e = e2 + (primitives.convert found .int).length →
    m2.Passes env r callers e2 e n3 m' →
    Addresses callers m (.index span x y) t b e (n1 + (n2 + n3)) m' [.int index, .objectRef array]
      (.element array index.toNatClampNeg)

/-- What a run through `target op= value` does, step after step. -/
inductive Machine.Updates (op : ArithOp) (target value : Expr) (b e n : Nat) (m m' : Machine) : Prop
  | intro {t i ops loc old v new e1 e2 e3 n1 n2 n3 m1 m2 m3 m4 w}
      (addressed : Machine.Addresses env T H Γ r m.callers m target t b e1 n1 m1 ops loc)
      (operands : m1.frame.operands = ops ++ m.frame.operands) (holds : loc.Holds m1 old)
      (reads : m1.Passes env r m.callers e1 e2 n2 m2)
        (read : m2.frame.operands = old :: m1.frame.operands)
      (evaluated : Machine.Evaluates env T H Γ r m.callers value t e2 e3 n3 m2 m3 v)
      (operation : primitives.operation? (.arith op) t = some (i, t)) (world : w.Alike m3.world)
      (operated : operate env i [v, old] w = .ok [new] m4.world)
      (operates : m3.Passes env r m.callers e3 (e3 + 1) 1 m4)
        (slots : m4.frame.slots = m.frame.slots)
      (writes : loc.Writes m4 m' new) (stores : m4.Passes env r m.callers (e3 + 1) e 1 m')
      (steps : n = n1 + (n2 + (n3 + 2))) (restored : m'.frame.operands = m.frame.operands) :
    Updates op target value b e n m m'

end

/-- A run through a stretch of code in one frame: it begins in front of the stretch, never returns
from the frame, and ends when the frame comes behind the stretch for the first time. -/
structure Machine.Arrives (env : Setting) (r : Routine) (b e n : Nat) (m m' : Machine) : Prop where
  start : m.At r m.callers b
  run : m.run env n = (.paused, m')
  stop : m'.At r m.callers e
  keeps : ∀ j ≤ n, m.callers.size ≤ (m.run env j).2.callers.size
  first : ∀ j < n, ¬ (m.run env j).2.At r m.callers e

theorem Machine.Arrives.clears {m m' : Machine} (h : m.Arrives env r b e n m') :
    m.Clears env r m.callers e n :=
  ⟨⟨m', e, h.run, h.stop, Nat.le_refl e⟩, h.keeps⟩

/-! ### Places -/

theorem Operation.Ensures.of_ok {op : Operation α} {post : α → World → Prop} {err : RunError → Prop}
    (h : op.Ensures w post err) (hok : op w = .ok a w') : post a w' := by
  unfold Ensures at h
  rwa [hok] at h

theorem World.onHeap_eq {f : Heap → α × Heap} (h : w.onHeap f = (a, w')) :
    f w.heap = (a, w'.heap) := by
  cases h
  rfl

section

variable {env : Setting} {kind : Kind} {v : Value} {w w' : World} {results : List Value}

open Operation.Ensures

variable {member : UInt16} {id : HeapId}

theorem operate_getField (h : operate env (.getField kind member) [v] w = .ok results w') :
    ∃ id, v = .objectRef id ∧ ∃ old, w.heap.field id member.toNat = .ok old ∧ results = [old] := by
  have hget : (operate env (.getField kind member) [v]).Ensures w (fun results _ =>
      ∃ id, v = .objectRef id ∧ ∃ old, w.heap.field id member.toNat = .ok old ∧ results = [old])
      fun _ => True :=
    bind (object (fun id hid => bind (readHeap (fun old hold => pure ⟨id, hid, old, hold, rfl⟩)
      fun _ _ => trivial)) trivial)
  exact hget.of_ok h

theorem operate_getElement {position : Value}
    (h : operate env (.getElement kind) [position, v] w = .ok results w') :
    ∃ n id, position = .int n ∧ v = .objectRef id ∧
      ∃ old, w.heap.element id n.toNatClampNeg = .ok old ∧ results = [old] := by
  have hget : (operate env (.getElement kind) [position, v]).Ensures w (fun results _ =>
      ∃ n id, position = .int n ∧ v = .objectRef id ∧
        ∃ old, w.heap.element id n.toNatClampNeg = .ok old ∧ results = [old]) fun _ => True :=
    bind (index (fun n hn => bind (object (fun id hid => bind (readHeap
      (fun old hold => pure ⟨n, id, hn, hid, old, hold, rfl⟩) fun _ _ => trivial)) trivial))
      (fun _ => trivial) fun _ => trivial)
  exact hget.of_ok h

theorem operate_setField (h : operate env (.setField kind member) [v, .objectRef id] w =
    .ok results w') :
    w.heap.setField id member.toNat v = (.ok (), w'.heap) := by
  have hset : (operate env (.setField kind member) [v, .objectRef id]).Ensures w (fun _ w' =>
      w.heap.setField id member.toNat v = (.ok (), w'.heap)) fun _ => True :=
    bind (ofKind (fun _ => bind (object (fun _ hid => bind (onWorld (fun _ _ hw => pure (by
      cases hid
      exact World.onHeap_eq hw)) fun _ _ _ => trivial)) trivial)) fun _ => trivial)
  exact hset.of_ok h

theorem operate_setElement {n : Int64}
    (h : operate env (.setElement kind) [v, .int n, .objectRef id] w = .ok results w') :
    w.heap.setElement id n.toNatClampNeg v = (.ok (), w'.heap) := by
  have hset : (operate env (.setElement kind) [v, .int n, .objectRef id]).Ensures w (fun _ w' =>
      w.heap.setElement id n.toNatClampNeg v = (.ok (), w'.heap)) fun _ => True :=
    bind (ofKind (fun _ => bind (index (fun _ hn => bind (object (fun _ hid =>
      bind (onWorld (fun _ _ hw => pure (by
        cases hn
        cases hid
        exact World.onHeap_eq hw)) fun _ _ _ => trivial)) trivial))
      (fun _ => trivial) fun _ => trivial)) fun _ => trivial)
  exact hset.of_ok h

end

section

variable {T : Tables} {H : Home} {Γ : Locals} {env : Setting} {r : Routine} {callers : Array Frame}
  {b k n : Nat} {slots : Array Value} {ops rest : List Value} {m m' : Machine} {place : Place}
  {types : List TypeId} {t : TypeId}

/-- Operands are copied, and the copy is used up by another instruction. -/
theorem Machine.Stands.peeks {i i' : Instruction} (hm : m.Stands r callers b slots (ops ++ rest))
    (henv : env.Links T) (henc : Layout.Encodes r.code r.body) (hi : r.code[b]? = some i)
    (hi' : r.code[b + 1]? = some i') (htakes : Takes T i types (types ++ types))
    (htakes' : Takes T i' types [t]) (hcall : ∀ c, i ≠ .call c) (hcall' : ∀ c, i' ≠ .call c)
    (hcopies : ∀ w, operate env i ops w = .ok (ops ++ ops) w) (hlen : ops.length = types.length)
    (hclears : m.Clears env r callers (b + 2) n) :
    ∃ v w w' m', 2 ≤ n ∧ w.heap = m.world.heap ∧ operate env i' ops w = .ok [v] w' ∧
      m.Passes env r callers b (b + 2) 2 m' ∧
      m'.Stands r callers (b + 2) slots (v :: (ops ++ rest)) := by
  obtain ⟨hpos, m1, hstep⟩ := hclears.step henc hm.toAt (Nat.lt_add_of_pos_right Nat.two_pos)
  obtain ⟨results, w, hw, hop, -, hm1⟩ := hm.operates henc _ hi henv htakes hcall hlen hstep
  rw [hcopies] at hop
  cases hop
  rw [List.append_assoc] at hm1
  have hfirst := Machine.Passes.of_step hm.toAt (Nat.lt_succ_self b) hstep hm1.toAt
  obtain ⟨hpos', m2, hstep'⟩ := (hclears.passed hfirst hpos).step henc hm1.toAt
    (Nat.lt_succ_self (b + 1))
  obtain ⟨results, w', hw', hop', hone, hm2⟩ :=
    hm1.operates henc _ hi' henv htakes' hcall' hlen hstep'
  obtain ⟨v, rfl⟩ := List.length_eq_one_iff.mp hone
  exact ⟨v, w', _, m2, by omega, hw'.heap.trans hw.heap, hop',
    hfirst.trans (.of_step hm1.toAt (Nat.lt_succ_self _) hstep' hm2.toAt), hm2⟩

/-- The old value is read, and what addresses it stays on the stack. -/
theorem Place.Holds.reads (h : place.Holds T Γ types t) (henv : env.Links T)
    (henc : Layout.Encodes r.code r.body) (hcode : r.HasCode b place.read)
    (hm : m.Stands r callers b slots (ops ++ rest)) (hlen : ops.length = types.length)
    (hclears : m.Clears env r callers (b + place.read.length) n) :
    ∃ loc old m', place.read.length ≤ n ∧ place.Locates ops loc ∧ loc.Holds m old ∧
      m.Passes env r callers b (b + place.read.length) place.read.length m' ∧
      m'.Stands r callers (b + place.read.length) slots (old :: (ops ++ rest)) := by
  cases h with
  | slot hname =>
    obtain rfl := List.eq_nil_of_length_eq_zero hlen
    obtain ⟨hpos, m1, hstep⟩ := hclears.step henc hm.toAt (Nat.lt_succ_self b)
    obtain ⟨v, hv, -, hm1⟩ := hm.loads henc hcode.one hstep
    rw [← hm.slots_eq] at hv
    exact ⟨_, v, m1, hpos, .slot, hv, .of_step hm.toAt (Nat.lt_succ_self b) hstep hm1.toAt, hm1⟩
  | field hinfo hmember =>
    obtain ⟨v, rfl⟩ := List.length_eq_one_iff.mp hlen
    obtain ⟨old, w, w', m', hle, hw, hop, hpasses, hm'⟩ :=
      hm.peeks henv henc hcode.cons.1 hcode.cons.2.one
      .dup (.getField hinfo hmember) (by nofun) (by nofun) (fun _ => rfl) hlen hclears
    obtain ⟨id, rfl, _, hold, heq⟩ := operate_getField hop
    obtain rfl := List.head_eq_of_cons_eq heq
    rw [hw] at hold
    exact ⟨_, old, m', hle, .field, hold, hpasses, hm'⟩
  | element hel =>
    obtain ⟨p, v, rfl⟩ := List.length_eq_two.mp hlen
    obtain ⟨old, w, w', m', hle, hw, hop, hpasses, hm'⟩ :=
      hm.peeks henv henc hcode.cons.1 hcode.cons.2.one
      .dup2 (.getElement hel) (by nofun) (by nofun) (fun _ => rfl) hlen hclears
    obtain ⟨i, id, rfl, rfl, _, hold, heq⟩ := operate_getElement hop
    obtain rfl := List.head_eq_of_cons_eq heq
    rw [hw] at hold
    exact ⟨_, old, m', hle, .element, hold, hpasses, hm'⟩

/-- A value is written to the location that the operands address. -/
theorem Place.Holds.writes {loc : Location} {v : Value} (h : place.Holds T Γ types t)
    (hloc : place.Locates ops loc) (henv : env.Links T) (henc : Layout.Encodes r.code r.body)
    (hi : r.code[k]? = some place.store) (hm : m.Stands r callers k slots (v :: (ops ++ rest)))
    (hstep : Exec.step env m = .ok .next m') :
    loc.Writes m m' v ∧ m'.At r callers (k + 1) ∧ m'.frame.operands = rest := by
  cases hloc with
  | slot =>
    obtain ⟨hlt, hw, hm'⟩ := hm.stores henc hi hstep
    have hslots := hm'.slots_eq
    rw [← hm.slots_eq] at hlt hslots
    exact ⟨⟨hlt, hslots, hw.heap⟩, hm'.toAt, hm'.operands⟩
  | @field _ _ id =>
    cases h with
    | field hinfo hmember =>
      obtain ⟨results, w, hw, hop, hnone, hm'⟩ := hm.operates henc [v, .objectRef id] hi henv
        (.setField hinfo hmember) (by nofun) rfl hstep
      obtain rfl := List.eq_nil_of_length_eq_zero hnone
      exact ⟨⟨hw.heap ▸ operate_setField hop, hm'.slots_eq.trans hm.slots_eq.symm⟩, hm'.toAt,
        hm'.operands⟩
  | @element _ i id =>
    cases h with
    | element hel =>
      obtain ⟨results, w, hw, hop, hnone, hm'⟩ := hm.operates henc [v, .int i, .objectRef id] hi
        henv (.setElement hel) (by nofun) rfl hstep
      obtain rfl := List.eq_nil_of_length_eq_zero hnone
      exact ⟨⟨hw.heap ▸ operate_setElement hop, hm'.slots_eq.trans hm.slots_eq.symm⟩, hm'.toAt,
        hm'.operands⟩

/-! ### Targets and values -/

variable (henv : env.Answers T) (henc : Layout.Encodes r.code r.body) {code : List Instruction}
  {target : Expr}

include henv henc

theorem Computes.evaluates {x : Expr} (h : Computes T H Γ (.expr x t) b code)
    (hcode : r.HasCode b code)
    (hm : m.Stands r callers b slots rest) (hclears : m.Clears env r callers (b + code.length) n) :
    ∃ j m' v, j ≤ n ∧ m.Evaluates env T H Γ r callers x t b (b + code.length) j m' v ∧
      m'.Stands r callers (b + code.length) slots (v :: rest) := by
  have hnone : m.Stands r callers b slots ([] ++ rest) := hm
  obtain ⟨j, m', vs, hj, hpasses, hm', hone⟩ :=
    (h.stackCode []).traverses henv henc hcode hnone rfl hclears
  obtain ⟨v, rfl⟩ := List.length_eq_one_iff.mp hone
  exact ⟨j, m', v, hj, ⟨⟨code, h, hcode, rfl⟩, hpasses, by rw [hm'.operands, hm.operands]; rfl⟩,
    hm'⟩

theorem Addresses.addresses (h : Addresses T H Γ target place t b code) (hcode : r.HasCode b code)
    (hm : m.Stands r callers b slots rest) (hclears : m.Clears env r callers (b + code.length) n) :
    ∃ j m' ops types, j ≤ n ∧ m.Passes env r callers b (b + code.length) j m' ∧
      m'.Stands r callers (b + code.length) slots (ops ++ rest) ∧ place.Holds T Γ types t ∧
      ops.length = types.length ∧ ∀ loc, place.Locates ops loc →
        m.Addresses env T H Γ r callers target t b (b + code.length) j m' ops loc := by
  cases h with
  | named hname =>
    refine ⟨0, m, [], [], Nat.zero_le n, .done hm.toAt, hm, .slot hname, rfl, fun loc hloc => ?_⟩
    cases hloc
    exact .named hname
  | member hname hcls hinfo hmember hself =>
    obtain ⟨hpos, m', hstep⟩ := hclears.step henc hm.toAt (Nat.lt_succ_self b)
    obtain ⟨v, hv, -, hm'⟩ := hm.loads henc hcode.one hstep
    have hpasses := Machine.Passes.of_step hm.toAt (Nat.lt_succ_self b) hstep hm'.toAt
    refine ⟨1, m', [v], _, hpos, hpasses, hm', .field hinfo hmember, rfl, fun loc hloc => ?_⟩
    cases hloc
    rw [← hm.slots_eq] at hv
    exact .member hname hcls hinfo hmember hself hv hpasses
  | property hobject hinfo hmember =>
    obtain ⟨j, m', v, hj, heval, hm'⟩ := hobject.evaluates henv henc hcode hm hclears
    refine ⟨j, m', [v], _, hj, heval.passes, hm', .field hinfo hmember, rfl, fun loc hloc => ?_⟩
    cases hloc
    exact .property heval hinfo hmember
  | @index _ _ _ array _ found _ ca cp harray hel hposition hassign =>
    obtain ⟨ha, hrest⟩ := hcode.append
    obtain ⟨hp, hc⟩ := hrest.append
    have hend : b + (ca ++ (cp ++ primitives.convert found .int)).length =
        b + ca.length + cp.length + (primitives.convert found .int).length := by
      simp
      omega
    rw [hend] at hclears ⊢
    obtain ⟨j1, m1, v1, hj1, heval1, hm1⟩ :=
      harray.evaluates henv henc ha hm (hclears.mono (by omega))
    have hclears1 := hclears.passed heval1.passes hj1
    obtain ⟨j2, m2, v2, hj2, heval2, hm2⟩ :=
      hposition.evaluates henv henc hp hm1 (hclears1.mono (by omega))
    have hconvert : StackCode T H Γ (b + ca.length + cp.length) (primitives.convert found .int)
      [found] [.int] := .assign hassign
    have hone : m2.Stands r callers _ slots ([v2] ++ v1 :: rest) := hm2
    obtain ⟨j3, m3, vs, hj3, hpasses, hm3, hone⟩ := hconvert.traverses henv henc hc hone rfl
      (hclears1.passed heval2.passes hj2)
    obtain ⟨p, rfl⟩ := List.length_eq_one_iff.mp hone
    refine ⟨j1 + (j2 + j3), m3, [p, v1], _, by omega,
      heval1.passes.trans (heval2.passes.trans hpasses), hm3, .element hel, rfl, fun loc hloc => ?_⟩
    cases hloc
    exact .element heval1 hel heval2 hassign rfl hpasses

/-- A run through the code of an assignment with an operator. -/
theorem Acts.updates {span : Span} {op : ArithOp} {value : Expr}
    (h : Acts T H Γ (.assign span (some op) target value) b code) (hcode : r.HasCode b code)
    (harrives : m.Arrives env r b (b + code.length) n m') :
    m.Updates env T H Γ r op target value b (b + code.length) n m' := by
  cases h with
  | value hvalue => cases hvalue
  | @compound _ _ _ _ place t i _ ca cv haddr hvalue hop =>
    obtain ⟨ha, hrest⟩ := hcode.append
    obtain ⟨hread, hrest⟩ := hrest.append
    obtain ⟨hv, hrest⟩ := hrest.append
    obtain ⟨hi, hstore⟩ := hrest.cons
    have hend : b + (ca ++ (place.read ++ (cv ++ [i, place.store]))).length =
        b + ca.length + place.read.length + cv.length + 1 + 1 := by
      simp
      omega
    rw [hend] at harrives ⊢
    have hm : m.Stands r m.callers b m.frame.slots m.frame.operands := ⟨harrives.start, rfl, rfl⟩
    have hclears := harrives.clears
    obtain ⟨n1, m1, ops, types, hn1, hpasses1, hm1, hplace, hlen, haddresses⟩ :=
      haddr.addresses henv henc ha hm (hclears.mono (by omega))
    have hclears1 := hclears.passed hpasses1 hn1
    obtain ⟨loc, old, m2, hn2, hloc, hholds, hpasses2, hm2⟩ :=
      hplace.reads henv.toLinks henc hread hm1 hlen (hclears1.mono (by omega))
    have hclears2 := hclears1.passed hpasses2 hn2
    obtain ⟨n3, m3, v, hn3, heval, hm3⟩ := hvalue.evaluates henv henc hv hm2
      (hclears2.mono (by omega))
    have hclears3 := hclears2.passed heval.passes hn3
    obtain ⟨hpos4, m4, hstep4⟩ := hclears3.step henc hm3.toAt (by omega)
    have hcall : ∀ c, i ≠ .call c := by
      rintro c rfl
      rcases operation?_cases hop with ⟨_, -, hi, -⟩ | ⟨_, -, hi, -⟩ | ⟨-, hi, -⟩ <;> cases hi
    obtain ⟨results, w, hw, hoperate, hone, hm4⟩ := hm3.operates henc [v, old] hi henv.toLinks
      (.operation hop) hcall rfl hstep4
    obtain ⟨new, rfl⟩ := List.length_eq_one_iff.mp hone
    have hpasses4 := Machine.Passes.of_step hm3.toAt (Nat.lt_succ_self _) hstep4 hm4.toAt
    have hclears4 := hclears3.passed hpasses4 hpos4
    obtain ⟨hpos5, m5, hstep5⟩ := hclears4.step henc hm4.toAt (Nat.lt_succ_self _)
    obtain ⟨hwrites, hm5, hoperands⟩ := hplace.writes hloc henv.toLinks henc hstore.one hm4 hstep5
    have hpasses5 := Machine.Passes.of_step hm4.toAt (Nat.lt_succ_self _) hstep5 hm5
    have hall := hpasses1.trans (hpasses2.trans (heval.passes.trans (hpasses4.trans hpasses5)))
    -- The first time that the frame is behind the code is the end of the run.
    have hsteps : n1 + (place.read.length + (n3 + (1 + 1))) = n := by
      refine Nat.le_antisymm (by omega) (Nat.le_of_not_lt fun hlt => harrives.first _ hlt ?_)
      rw [hall.run]
      exact hm5
    rw [hsteps] at hall
    obtain ⟨-, rfl⟩ := Prod.mk.inj (hall.run.symm.trans harrives.run)
    exact .intro (haddresses loc hloc) hm1.operands hholds hpasses2
      (by rw [hm2.operands, hm1.operands]) heval
      hop hw hoperate hpasses4 hm4.slots_eq hwrites hpasses5 hsteps.symm hoperands

end

/-! ## Compiled scripts -/

/-- In a script that has been compiled with the primitive types and whose names are plain, every
assignment has code of its own in the routine that it stands in. Let a machine be in front of the
code of an assignment `target op= value`, with whatever on its stack, in its slots and in its heap,
and let it run until the frame is behind that code. Then it has evaluated what the target is made
of, once and before all else; has read the old value, evaluated the value once and applied the
operator to the two; and has written the result to the location that was addressed at first. Its
stack is as it was. -/
theorem compound_addresses_once {items : List Stmt} {options : CompileOptions} {journal : Journal}
    {image : Image} {env : Setting} (hplain : PlainNames items)
    (h : (Script.compile ⟨items⟩ options .primitives journal).1 = .ok image)
    (hprogram : env.program = .load image)
    (hnatives : env.natives.toList.map Native.signature = options.natives) :
    ∃ T : Tables, image.Compiled items T ∧
      (∀ d ∈ callables items, ∃ c params result r, T.Meant items c d params result ∧
        env.program.routines[c]? = some r ∧ T.Source items r d ∧
        ∃ role scope, T.Inside items d role scope ∧
          Laid (r.Acts T ⟨role, scope, r.result⟩) 0 r.code.size (effectsIn d.code)) ∧
      Laid (image.main.Acts T ⟨.main, .top, .void⟩) 0 image.main.code.size
        (effectsIn (items.filter Stmt.isCode)) ∧
      ∀ r ∈ image.main :: image.routines, ∀ H Γ span op target value b code,
        Acts T H Γ (.assign span (some op) target value) b code → r.HasCode b code →
        ∀ (n : Nat) (m m' : Machine), m.Arrives env r b (b + code.length) n m' →
          m.Updates env T H Γ r op target value b (b + code.length) n m' := by
  obtain ⟨T, hT, hcompiled⟩ := compile_compiled h
  obtain ⟨P, hP⟩ : ∃ P : Plan T False, P.CoversImage image := hcompiled.planned False.elim
  have hserves := hP.serves hcompiled hplain hprogram (hnatives.trans hT.symm)
  refine ⟨T, hcompiled, fun d hd => ?_, ?_,
    fun r hr H Γ span op target value b code hacts hcode n m m' => ?_⟩
  · obtain ⟨c, params, result, hmeant⟩ := hcompiled.meant_of_mem hplain hd
    obtain ⟨r, hr, hsource, -, -⟩ := hcompiled.resolved hplain hmeant
    exact ⟨c, params, result, r, hmeant, hprogram ▸ hr, hsource, hsource.laid⟩
  · obtain ⟨Γ, Δ, hruns, -⟩ := hcompiled.main
    obtain ⟨code, hcode, hexec⟩ := hruns.code
    have hhas := image.main.hasCode_self
    rw [hcode] at hhas
    refine (hexec.laid hhas.append.1).widen le_rfl ?_
    rw [← Array.length_toList, hcode]
    simp
  · have henc : Layout.Encodes r.code r.body := by
      rcases hr with _ | ⟨_, hr⟩
      · exact hP.main.encoded
      · exact (hP.routines r hr).1.encoded
    exact hacts.updates hserves.answers henc hcode

/-- Top-level code is at one index after some steps, and after some more at another one for the
first time. -/
def Image.crosses (image : Image) (k b e n : Nat) : Bool :=
  let reached (steps : Nat) := ((Context.forMain (.load image) 0).start {}).run
    (.ofImage image {}) steps
  decide ((reached (k + n)).1 = .paused) && (reached k).2.callers.isEmpty &&
    (reached (k + n)).2.callers.isEmpty &&
    image.main.body.offsets[b]? == some (reached k).2.frame.pc &&
    image.main.body.offsets[e]? == some (reached (k + n)).2.frame.pc &&
    (List.range n).all fun j => image.main.body.offsets[e]? != some (reached (k + j)).2.frame.pc

theorem Image.crosses_arrives {k : Nat} (h : image.crosses k b e n = true) :
    ∃ m m', ((Context.forMain (.load image) 0).start {}).run (.ofImage image {}) k = (.paused, m) ∧
      ((Context.forMain (.load image) 0).start {}).run (.ofImage image {}) (k + n) = (.paused, m') ∧
      m.Arrives (.ofImage image {}) image.main b e n m' := by
  simp only [crosses, Bool.and_eq_true, decide_eq_true_eq, Array.isEmpty_iff, beq_iff_eq,
    List.all_eq_true, List.mem_range, bne_iff_ne] at h
  obtain ⟨⟨⟨⟨⟨hpaused, hcallers⟩, hback⟩, hstart⟩, hstop⟩, hfirst⟩ := h
  generalize hs : (Context.forMain (.load image) 0).start {} = s at *
  have hroutine : s.frame.routine = image.main := hs ▸ rfl
  have hend : s.run (.ofImage image {}) (k + n) =
    (.paused, (s.run (.ofImage image {}) (k + n)).2) :=
    Prod.ext hpaused rfl
  have hpaused : (s.run (.ofImage image {}) k).1 = .paused := by
    by_contra hends
    rw [← Machine.run_stable hends (Nat.le_add_right k n)] at hends
    exact hends hpaused
  have hm : s.run (.ofImage image {}) k = (.paused, (s.run (.ofImage image {}) k).2) :=
    Prod.ext hpaused rfl
  have hzero : s.callers = #[] := hs ▸ rfl
  refine ⟨_, _, hm, hend, ⟨(Machine.run_outermost hzero hm hcallers).trans hroutine, hstart, rfl⟩,
    (Machine.run_add hm n).symm.trans hend,
      ⟨(Machine.run_outermost hzero hend hback).trans hroutine, hstop,
    hback.trans hcallers.symm⟩, fun j _ => ?_, fun j hj hat => hfirst j hj ?_⟩
  · rw [hcallers]
    exact Nat.zero_le _
  · rw [Machine.run_add hm]
    exact hat.pc

open Build in
/-- A variable from which its double is taken. -/
def doubling : List Stmt :=
  [var "int" "x" (some (int 7)),
    expr (assignOp (some .sub) (ident "x") (binary (.arith .mul) (ident "x") (int 2)))]

theorem compound_addresses_once_doubling : PlainNames doubling ∧
    ∃ image, (Script.compile ⟨doubling⟩).1 = .ok image ∧ ∃ T Γ m m',
      ((Context.forMain (.load image) 0).start {}).run (.ofImage image {}) 2 = (.paused, m) ∧
      m.Arrives (.ofImage image {}) image.main 2 8 6 m' ∧
      m.Updates (.ofImage image {}) T ⟨.main, .top, .void⟩ Γ image.main .sub (.ident default "x")
        (.binary default (.arith .mul) (.ident default "x") (.int default 2)) 2 8 6 m' ∧
      m'.frame.slots = #[.int (-7)] := by
  have hplain : PlainNames doubling := by decide
  refine ⟨hplain, ?_⟩
  have hok : ((Script.compile ⟨doubling⟩).1).toOption.any (fun image =>
      image.main.code.toList = [.pushByte 7, .store .int 0] ++
        ([.load .int 0, .load .int 0, .pushByte 2,
          .arith .int .mul, .arith .int .sub, .store .int 0] ++ [.stop]) ∧ image.crosses 2 2 8 6 ∧
        (((Context.forMain (.load image) 0).start {}).run (.ofImage image {}) 8).2.frame.slots =
          #[.int (-7)]) = true := by decide +kernel
  obtain ⟨image, himage, hok⟩ := exists_of_any hok
  obtain ⟨hcode, hcrosses, hslots⟩ := of_decide_eq_true hok
  obtain ⟨m, m', hm, hm', harrives⟩ := Image.crosses_arrives hcrosses
  have hprogram : (Setting.ofImage image {}).program = .load image := rfl
  obtain ⟨T, -, -, -, hupdates⟩ := compound_addresses_once hplain himage hprogram rfl
  have hhas := image.main.hasCode_self
  rw [hcode] at hhas
  let Γ : Locals := Locals.empty.set "x" 0 .int
  have hvalue : Computes T ⟨.main, .top, .void⟩ Γ (.expr (.binary default (.arith .mul)
      (.ident default "x") (.int default 2)) .int) 3
        ([.load .int 0] ++ ([.pushByte 2] ++ [.arith .int .mul])) :=
    .binary rfl (.named rfl) (.immediate rfl) rfl
  have hacts :
      Acts T ⟨.main, .top, .void⟩ Γ (.assign default (some .sub) (.ident default "x") _) 2 _ :=
    .compound (.named rfl) hvalue rfl
  refine ⟨image, himage, T, Γ, m, m', hm, harrives, hupdates image.main (.head _) _ Γ _ _ _ _ 2 _
    hacts hhas.append.2.append.1 6 m m' harrives, ?_⟩
  rwa [hm'] at hslots

open Build in
/-- Names for which two functions share a constant: the second one takes the place of the first. -/
def clashing : List Stmt :=
  [classDecl "int,C" [], classDecl "C" [],
    function "f" [("int", "a"), ("C", "b")] "int" [ret (some (int 5))],
    function "f" [("int,C", "o")] "int" [ret (some (int 5))],
    var "C" "c" (some (newObject "C")), var "int" "x" (some (int 10)),
    expr (assignOp (some .add) (ident "x") (call "f" [int 1, ident "c"]))]

/-- The call takes one argument too few off the stack. The other one is taken for the old value,
which stays there: instead of 15 it is 6 that is written. -/
theorem compound_mistakes_argument : ∃ image, (Script.compile ⟨clashing⟩).1 = .ok image ∧
    image.main.HasCode 5 [.load .int 1, .pushByte 1, .load .ref 0, .call 4, .arith .int .add,
      .store .int 1] ∧
    ∃ m m' : Machine, m.Arrives (.ofImage image {}) image.main 5 11 9 m' ∧
    m.frame.slots[1]? = some (.int 10) ∧
      m'.frame.slots[1]? = some (.int 6) ∧ m.frame.operands = [] ∧ m'.frame.operands = [.int 10] ∧
      ∀ T H Γ op target value, ¬ m.Updates (.ofImage image {}) T H Γ image.main op target value 5 11
        9 m' := by
  have hok : ((Script.compile ⟨clashing⟩).1).toOption.any (fun image =>
      let first := (((Context.forMain (.load image) 0).start {}).run (.ofImage image {}) 8).2.frame
      let last := (((Context.forMain (.load image) 0).start {}).run (.ofImage image {}) 17).2.frame
      image.main.code.toList = [.newObject 2, .call 3, .store .ref 0, .pushByte 10,
        .store .int 1] ++
          ([.load .int 1, .pushByte 1, .load .ref 0, .call 4, .arith .int .add, .store .int 1] ++
            [.stop]) ∧
        image.crosses 8 5 11 9 ∧ first.slots[1]? = some (.int 10) ∧ last.slots[1]? = some (.int 6) ∧
        first.operands = [] ∧ last.operands = [.int 10]) = true := by decide +kernel
  obtain ⟨image, himage, hok⟩ := exists_of_any hok
  obtain ⟨hcode, hcrosses, hold, hnew, hempty, hleft⟩ := of_decide_eq_true hok
  obtain ⟨m, m', hm, hm', harrives⟩ := Image.crosses_arrives hcrosses
  rw [hm] at hold hempty
  rw [hm'] at hnew hleft
  have hhas := image.main.hasCode_self
  rw [hcode] at hhas
  refine ⟨image, himage, hhas.append.2.append.1, m, m', harrives, hold, hnew, hempty, hleft, ?_⟩
  intro T H Γ op target value hupdates
  have hrestored : m'.frame.operands = m.frame.operands := by
    cases hupdates
    assumption
  cases hleft.symm.trans (hrestored.trans hempty)

end Bytescript
