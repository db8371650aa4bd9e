import Bytescript.Proofs.Flow
import Bytescript.Proofs.Machine.Effects
import Mathlib.Algebra.GroupWithZero.Nat

/-!
# Operands

Most instructions take operands off the stack, act on the world and leave results on the stack. What
they do is the same whatever lies below their operands: `operate` says it without a machine, and
`operate_spec` that a machine does it. Of the machine there remains to be seen whether the results
have room on the stack.
-/

namespace Bytescript

open TypeTable (primitives)

/-! ## Without a machine -/

/-- What acts on the world and may fail. -/
abbrev Operation := EStateM RunError World

namespace Operation

def int : Value → Operation Int64
  | .int n => return n
  | v => throw (.typeMismatch .int v)

def float : Value → Operation Double
  | .float x => return x
  | v => throw (.typeMismatch .float v)

def object : Value → Operation HeapId
  | .objectRef id => return id
  | v => throw (.typeMismatch .ref v)

def string : Value → Operation HeapId
  | .stringRef id => return id
  | v => throw (.typeMismatch .ref v)

def reference (v : Value) : Operation HeapId :=
  match v.heapId? with
  | some id => return id
  | none => throw (.typeMismatch .ref v)

def index (v : Value) : Operation Nat := do
  let n ← int v
  if n < 0 then throw (.negativeIndex n) else return n.toNatClampNeg

def ofKind (kind : Kind) (v : Value) : Operation Value :=
  if v.hasKind kind then return v else throw (.typeMismatch kind v)

def onWorld {ε α : Type} (cause : ε → RunError) (f : World → Except ε α × World) : Operation α :=
  fun w =>
    match f w with
    | (.ok a, w) => .ok a w
    | (.error e, w) => .error (cause e) w

def readHeap {α : Type} (f : Heap → Except HeapError α) : Operation α :=
  fun w =>
    match f w.heap with
    | .ok a => .ok a w
    | .error e => .error (.heap e) w

def onHeap {α : Type} (f : Heap → Except HeapError α × Heap) : Operation α :=
  onWorld .heap (·.onHeap f)

def allocate (p : Payload) : Operation HeapId := onWorld .heap (·.allocate p)

def constant (env : Setting) (c : UInt16) : Operation Value :=
  match env.program.pool.get c with
  | .error e => throw (.pool e)
  | .ok (.integer n) => return .int n
  | .ok (.float x) => return .float x
  | .ok (.string s) => return .stringRef (← allocate (.string s))
  | .ok _ => throw (.unpushableConstant c)

def arith (op : ArithOp) (kind : Kind) (b a : Value) : Operation Value :=
  match kind with
  | .float => do
    let b ← float b
    let a ← float a
    return .float (op.onFloats a b)
  | _ => do
    let b ← int b
    let a ← int a
    match op.onInts a b with
    | .ok n => return .int n
    | .error e => throw e

def sameReference (a b : Value) : Operation Bool :=
  match a, b with
  | .stringRef a, .stringRef b => readHeap (·.stringsEqual a b)
  | a, b => return a.equal b

def compare (cmp : Comparison) (kind : Kind) (b a : Value) : Operation Bool :=
  match kind with
  | .int => do
    let b ← int b
    let a ← int a
    return cmp.onInts a b
  | .float => do
    let b ← float b
    let a ← float a
    return cmp.onFloats a b
  | .ref => do
    let same ← sameReference a b
    return if cmp = .ne then !same else same

def callNative (env : Setting) (native : UInt16) (args : List Value) : Operation Value :=
  match env.natives[native.toNat]? with
  | none => throw (.unresolvedNative native)
  | some native => onWorld (.nativeFailure native.signature.name) (native.run args)

end Operation

open Operation in
/-- What an instruction that is no jump, no call of a routine and concerns no variable does to its
operands, the top of the stack first. -/
def operate (env : Setting) : Instruction → List Value → Operation (List Value)
  | .pushByte n, [] => return [.int n.toInt64]
  | .pushShort n, [] => return [.int n.toInt64]
  | .pushConst c, [] => return [← constant env c]
  | .pushVoid, [] => return [.void]
  | .pop, [_] => return []
  | .dup, [v] => return [v, v]
  | .dup2, [a, b] => return [a, b, a, b]
  | .getField _ member, [v] => do
    let object ← object v
    return [← readHeap (·.field object member.toNat)]
  | .setField kind member, [v, target] => do
    let v ← ofKind kind v
    let object ← object target
    onHeap (·.setField object member.toNat v)
    return []
  | .arith kind op, [b, a] => return [← arith op kind b a]
  | .neg .float, [v] => return [.float (← float v).neg]
  | .neg _, [v] => return [.int (-(← int v))]
  | .concat, [b, a] => do
    let right ← string b
    let left ← string a
    return [.stringRef (← onWorld .heap (·.concat left right))]
  | .compare kind cmp, [b, a] => return [.ofBool (← compare cmp kind b a)]
  | .not, [v] => return [.ofBool ((← int v) == 0)]
  | .intToFloat, [v] => return [.float (.ofInt (← int v))]
  | .floatToInt, [v] => return [.int (← float v).toInt]
  | .callNative native, args => return [← callNative env native args.reverse]
  | .newArray kind, [v] => do
    let n ← int v
    if n < 0 then throw (.negativeLength n)
    return [.objectRef (← allocate (.array (.replicate n.toNatClampNeg (.initial kind))))]
  | .getElement _, [position, v] => do
    let index ← index position
    let array ← object v
    return [← readHeap (·.element array index)]
  | .setElement kind, [v, position, target] => do
    let v ← ofKind kind v
    let index ← index position
    let array ← object target
    onHeap (·.setElement array index v)
    return []
  | .arrayLength, [v] => do
    let array ← object v
    return [.int (.ofNat (← readHeap (·.arraySize array)))]
  | .newObject layout, [] =>
    match env.program.shapes[layout]? with
    | none => throw (.unresolvedClass layout)
    | some shape => return [.objectRef (← allocate (.object layout shape.fields))]
  | .delete, [v] => do
    let id ← reference v
    let _ ← onWorld .heap (·.release id)
    return []
  | _, _ => throw .stackUnderflow

theorem operate_pushConst (env : Setting) (c : UInt16) :
    operate env (.pushConst c) [] = do return [← Operation.constant env c] := rfl

theorem operate_callNative (env : Setting) (native : UInt16) (args : List Value) :
    operate env (.callNative native) args =
      do return [← Operation.callNative env native args.reverse] := rfl

theorem operate_newObject (env : Setting) (layout : UInt16) : operate env (.newObject layout) [] =
    match env.program.shapes[layout]? with
    | none => throw (.unresolvedClass layout)
    | some shape => do return [.objectRef (← Operation.allocate (.object layout shape.fields))] :=
      rfl

/-! ### Outcomes -/

/-- An operation ends well with a result and a world that meet a condition, or with an error that
meets one. -/
def Operation.Ensures {α : Type} (op : Operation α) (w : World) (post : α → World → Prop)
    (err : RunError → Prop) : Prop :=
  match op w with
  | .ok a w' => post a w'
  | .error e _ => err e

namespace Operation.Ensures

variable {α β : Type} {op : Operation α} {f : α → Operation β} {w : World} {a : α}
  {post : α → World → Prop} {next : β → World → Prop} {err : RunError → Prop} {v : Value}

theorem pure (h : post a w) : Ensures (Pure.pure a) w post err := h

variable {e : RunError} {kind : Kind} {b : Value}

theorem throw (h : err e) : Ensures (MonadExcept.throw e) w post err := h

theorem bind (h : op.Ensures w (fun a w' => (f a).Ensures w' next err) err) :
    Ensures (op >>= f) w next err := by
  unfold Ensures at h ⊢
  simp only [Bind.bind, EStateM.bind]
  cases hop : op w with
  | ok a w' =>
    rw [hop] at h
    exact h
  | error e w' =>
    rw [hop] at h
    exact h

theorem int {post : Int64 → World → Prop} (h : ∀ n, v = .int n → post n w)
    (he : v.hasKind .int = false → err (.typeMismatch .int v)) : Ensures (int v) w post err := by
  cases v <;> first | exact h _ rfl | exact he rfl

theorem float {post : Double → World → Prop} (h : ∀ x, v = .float x → post x w)
    (he : v.hasKind .float = false → err (.typeMismatch .float v)) :
    Ensures (float v) w post err := by
  cases v <;> first | exact h _ rfl | exact he rfl

theorem object {post : HeapId → World → Prop} (h : ∀ id, v = .objectRef id → post id w)
    (he : err (.typeMismatch .ref v)) : Ensures (object v) w post err := by
  cases v <;> first | exact h _ rfl | exact he

theorem string {post : HeapId → World → Prop} (h : ∀ id, v = .stringRef id → post id w)
    (he : err (.typeMismatch .ref v)) : Ensures (string v) w post err := by
  cases v <;> first | exact h _ rfl | exact he

theorem reference {post : HeapId → World → Prop} (h : ∀ id, v.heapId? = some id → post id w)
    (he : err (.typeMismatch .ref v)) : Ensures (reference v) w post err := by
  cases v <;> first | exact h _ rfl | exact he

theorem index {post : Nat → World → Prop} (h : ∀ n, v = .int n → post n.toNatClampNeg w)
    (he : v.hasKind .int = false → err (.typeMismatch .int v))
    (hneg : ∀ n, err (.negativeIndex n)) : Ensures (index v) w post err := by
  refine bind (int (fun n hn => ?_) he)
  split
  · exact throw (hneg n)
  · exact pure (h n hn)

theorem ofKind {post : Value → World → Prop} (h : v.hasKind kind = true → post v w)
    (he : v.hasKind kind = false → err (.typeMismatch kind v)) :
    Ensures (ofKind kind v) w post err := by
  unfold Operation.ofKind
  cases hkind : v.hasKind kind with
  | true => exact pure (h hkind)
  | false => exact throw (he hkind)

theorem onWorld {ε : Type} {cause : ε → RunError} {f : World → Except ε α × World}
    (h : ∀ a w', f w = (.ok a, w') → post a w')
    (he : ∀ e w', f w = (.error e, w') → err (cause e)) : Ensures (onWorld cause f) w post err := by
  unfold Ensures Operation.onWorld
  cases hf : f w with
  | mk r w' =>
    cases r with
    | ok a => exact h a w' hf
    | error e => exact he e w' hf

theorem readHeap {f : Heap → Except HeapError α} (h : ∀ a, f w.heap = .ok a → post a w)
    (he : ∀ e, f w.heap = .error e → err (.heap e)) : Ensures (readHeap f) w post err := by
  unfold Ensures Operation.readHeap
  cases hf : f w.heap with
  | ok a => exact h a hf
  | error e => exact he e hf

theorem arith {op : ArithOp} {a : Value} {post : Value → World → Prop} (hkind : kind ≠ .ref)
    (h : ∀ v, v.hasKind kind = true → post v w)
    (ha : a.hasKind kind = false → err (.typeMismatch kind a))
    (hb : b.hasKind kind = false → err (.typeMismatch kind b)) (hzero : err .divisionByZero) :
    Ensures (arith op kind b a) w post err := by
  cases kind with
  | float => exact bind (float (fun _ _ => bind (float (fun _ _ => pure (h _ rfl)) ha)) hb)
  | ref => exact absurd rfl hkind
  | int =>
    refine bind (int (fun n _ => bind (int (fun m _ => ?_) ha)) hb)
    cases hop : op.onInts m n with
    | ok r => exact pure (h _ rfl)
    | error e => exact throw (ArithOp.onInts_error hop ▸ hzero)

theorem compare {cmp : Comparison} {a : Value} {post : Bool → World → Prop} (h : ∀ r, post r w)
    (ha : kind ≠ .ref → a.hasKind kind = false → err (.typeMismatch kind a))
    (hb : kind ≠ .ref → b.hasKind kind = false → err (.typeMismatch kind b))
    (hstrings : ∀ x y e, a = .stringRef x → b = .stringRef y → w.heap.stringsEqual x y = .error e →
      err (.heap e)) : Ensures (Operation.compare cmp kind b a) w post err := by
  cases kind with
  | float =>
    exact bind (float (fun _ _ => bind (float (fun _ _ => pure (h _)) (ha (by decide))))
      (hb (by decide)))
  | int =>
    exact bind (int (fun _ _ => bind (int (fun _ _ => pure (h _)) (ha (by decide))))
      (hb (by decide)))
  | ref =>
    refine bind ?_
    cases a <;> cases b <;> try exact pure (pure (h _))
    next x y =>
      have hread : Ensures (Operation.readHeap (·.stringsEqual x y)) w
          (fun same w' => Ensures (Pure.pure (if cmp = .ne then !same else same)) w' post err)
            err :=
        readHeap (fun _ _ => pure (h _)) fun e he => hstrings x y e rfl rfl he
      exact hread

end Operation.Ensures

/-- The errors that come from operands, the heap or a native. -/
def RunError.isOperational : RunError → Bool
  | divisionByZero | typeMismatch _ _ | negativeLength _ | negativeIndex _
  | nativeFailure _ _ | heap _ => true
  | _ => false

/-- The errors that come from something that is missing. -/
def RunError.isStructural : RunError → Bool
  | stackUnderflow | badSlot _ _ | corruptFrame | unresolvedCall _ | unresolvedNative _
  | unresolvedClass _ | unpushableConstant _ | pool _ | decode _ => true
  | _ => false

theorem RunError.not_structural {e : RunError} (h : e.isOperational = true) :
    e.isStructural = false := by
  cases e <;> first | rfl | cases h

/-- A setting has the constants, the natives and the classes that a script was compiled with. -/
structure Setting.Links (env : Setting) (T : Tables) : Prop where
  pool : env.program.pool.entries = T.pool
  natives : env.natives.toList.map Native.signature = T.natives
  shapes : ∀ cls info, T.scopes.classInfo? cls = some info →
    ∃ shape, env.program.shapes[info.scopes.constant]? = some shape

variable {env : Setting} {T : Tables} {i : Instruction} {ins outs : List TypeId} {args : List Value}

theorem Setting.Links.constant (h : env.Links T) {c : UInt16} {k : Constant}
    (hk : T.pool[c.toNat]? = some k) : env.program.pool.get c = .ok k := by
  rw [Pool.get, h.pool, hk]

theorem Setting.Links.native (h : env.Links T) {index : UInt16} {n : NativeSignature}
    (hn : T.natives[index.toNat]? = some n) :
    ∃ native, env.natives[index.toNat]? = some native ∧ native.signature = n := by
  rw [← h.natives, List.getElem?_map, Array.getElem?_toList] at hn
  exact Option.map_eq_some_iff.mp hn

/-! ## On a machine -/

/-- An action of machines takes certain operands off the stack and does with them what an operation
does. -/
def Mirrors {α : Type} (act : Exec α) (vs vs' : List Value) (op : Operation α) : Prop :=
  ∀ (m : Machine) (w : World),
    match op w with
    | .ok a w' => act (m.put vs w) = .ok a (m.put vs' w')
    | .error e _ => ∃ m', act (m.put vs w) = .error e m'

namespace Mirrors

variable {α β : Type} {act : Exec α} {f : α → Exec β} {op : Operation α} {g : α → Operation β}
  {v : Value} {vs vs' vs'' : List Value}

theorem pure (a : α) : Mirrors (Pure.pure a) vs vs (Pure.pure a) := fun _ _ => rfl

theorem throw (e : RunError) :
    Mirrors (α := α) (MonadExcept.throw e) vs vs' (MonadExcept.throw e) :=
  fun m w => ⟨m.put vs w, rfl⟩

theorem bind (h : Mirrors act vs vs' op) (hf : ∀ a, Mirrors (f a) vs' vs'' (g a)) :
    Mirrors (act >>= f) vs vs'' (op >>= g) := by
  intro m w
  have hact := h m w
  simp only [Bind.bind, EStateM.bind]
  cases hop : op w with
  | ok a w' =>
    rw [hop] at hact
    rw [hact]
    exact hf a m w'
  | error e w' =>
    rw [hop] at hact
    obtain ⟨m', hm'⟩ := hact
    rw [hm']
    exact ⟨m', rfl⟩

theorem pop : Mirrors Exec.pop (v :: vs) vs (Pure.pure v) := by
  intro m w
  simp [Exec.pop, Machine.put, Pure.pure, EStateM.pure]

/-- A value is taken off the stack and looked at. -/
theorem popAs {look : Value → Exec α} {op : Value → Operation α}
    (h : ∀ v, Mirrors (look v) vs vs' (op v)) : Mirrors (Exec.pop >>= look) (v :: vs) vs' (op v) :=
  fun m w => (pop.bind h) m w

theorem popInt : Mirrors Exec.popInt (v :: vs) vs (Operation.int v) :=
  popAs fun v => by cases v <;> first | exact pure _ | exact throw _

theorem popFloat : Mirrors Exec.popFloat (v :: vs) vs (Operation.float v) :=
  popAs fun v => by cases v <;> first | exact pure _ | exact throw _

theorem popObject : Mirrors Exec.popObject (v :: vs) vs (Operation.object v) :=
  popAs fun v => by cases v <;> first | exact pure _ | exact throw _

theorem popString : Mirrors Exec.popString (v :: vs) vs (Operation.string v) :=
  popAs fun v => by cases v <;> first | exact pure _ | exact throw _

theorem popReference : Mirrors Exec.popReference (v :: vs) vs (Operation.reference v) :=
  popAs fun v => by cases v <;> first | exact pure _ | exact throw _

variable {kind : Kind} {env : Setting} {a b : Value}

theorem popKind : Mirrors (Exec.popKind kind) (v :: vs) vs (Operation.ofKind kind v) :=
  popAs fun v => by
    unfold Operation.ofKind
    split
    · exact pure v
    · exact throw _

theorem popIndex : Mirrors Exec.popIndex (v :: vs) vs (Operation.index v) :=
  popInt.bind fun n => by
    split
    · exact throw _
    · exact pure _

theorem popMany (args : List Value) :
    Mirrors (Exec.popMany args.length) (args ++ vs) vs (Pure.pure args.reverse.toArray) := by
  intro m w
  have hsize : (args ++ vs).reverse.toArray.size = args.length + vs.length := by
    simp [Nat.add_comm]
  have htaken : (args ++ vs).reverse.toArray.extract vs.length (args.length + vs.length) =
      args.reverse.toArray := by simp [List.take_of_length_le]
  have hkept : (args ++ vs).reverse.toArray.shrink vs.length = vs.reverse.toArray := by simp
  simp only [Exec.popMany, Machine.put, hsize, Nat.add_sub_cancel_left, htaken, hkept]
  rw [if_neg (by omega)]
  rfl

theorem onWorld {ε : Type} {cause : ε → RunError} {f : World → Except ε α × World} :
    Mirrors (Exec.onWorld cause f) vs vs (Operation.onWorld cause f) := by
  intro m w
  simp only [Operation.onWorld, Exec.onWorld, Machine.put]
  generalize f w = r
  obtain ⟨_ | _, w'⟩ := r
  · exact ⟨_, rfl⟩
  · rfl

theorem readHeap {f : Heap → Except HeapError α} :
    Mirrors (Exec.readHeap f) vs vs (Operation.readHeap f) := by
  have hget : ∀ m w, Exec.readHeap f (Machine.put m vs w) =
      (match f w.heap with
        | .ok a => Pure.pure a
        | .error e => MonadExcept.throw (RunError.heap e) : Exec α) (m.put vs w) := fun _ _ => rfl
  intro m w
  rw [hget, Operation.readHeap]
  cases f w.heap with
  | ok a => rfl
  | error e => exact ⟨_, rfl⟩

theorem peek {below : Nat} (h : vs[below]? = some v) :
    Mirrors (Exec.peek below) vs vs (Pure.pure v) := by
  intro m w
  obtain ⟨hlt, hv⟩ := getElem_of_getElem? h
  have hpeek : Exec.peek below (m.put vs w) =
      (if h : below < (vs.reverse.toArray).size then
        Pure.pure (vs.reverse.toArray)[vs.reverse.toArray.size - 1 - below]
      else MonadExcept.throw RunError.stackUnderflow : Exec Value) (m.put vs w) := rfl
  have hbelow : vs.length - 1 - (vs.length - 1 - below) = below := by omega
  rw [hpeek, dif_pos (by simpa using hlt)]
  simp only [List.size_toArray, List.getElem_toArray, List.length_reverse, List.getElem_reverse,
    hbelow, hv]
  rfl

theorem constant {c : UInt16} : Mirrors (Exec.constant env c) vs vs (Operation.constant env c) := by
  unfold Exec.constant Operation.constant
  cases env.program.pool.get c with
  | error e => exact throw _
  | ok value =>
    cases value with
    | string s => exact bind onWorld fun _ => pure _
    | integer n => exact pure _
    | float x => exact pure _
    | _ => exact throw _

theorem arith {op : ArithOp} :
    Mirrors (Exec.arith op kind) (b :: a :: vs) vs (Operation.arith op kind b a) := by
  have hints : Mirrors (do
      let b ← Exec.popInt
      let a ← Exec.popInt
      match op.onInts a b with
      | .ok n => return Value.int n
      | .error e => MonadExcept.throw e) (b :: a :: vs) vs (Operation.arith op .int b a) :=
    popInt.bind fun b => popInt.bind fun a => by
      split
      · exact pure _
      · exact throw _
  cases kind with
  | float => exact popFloat.bind fun b => popFloat.bind fun a => pure _
  | int => exact hints
  | ref => exact hints

theorem sameReference : Mirrors (Exec.sameReference a b) vs vs (Operation.sameReference a b) := by
  cases a <;> cases b <;> try exact pure _
  next a b => exact (readHeap : Mirrors (Exec.readHeap (·.stringsEqual a b)) vs vs _)

theorem compare {cmp : Comparison} :
    Mirrors (Exec.compare cmp kind) (b :: a :: vs) vs (Operation.compare cmp kind b a) := by
  cases kind with
  | float => exact popFloat.bind fun b => popFloat.bind fun a => pure _
  | int => exact popInt.bind fun b => popInt.bind fun a => pure _
  | ref => exact popAs fun b => popAs fun a => sameReference.bind fun _ => pure _

theorem callNative {index : UInt16} {native : Native} {args : List Value}
    (h : env.natives[index.toNat]? = some native)
    (hlen : args.length = native.signature.params.length) :
    Mirrors (Exec.callNative env index) (args ++ vs) vs
      (Operation.callNative env index args.reverse) := by
  simp only [Exec.callNative, Operation.callNative, h, ← hlen]
  exact (popMany args).bind fun _ => onWorld

end Mirrors

/-- An instruction takes operands off the stack and does with them what an operation does, whose
results it leaves on the stack if there is room. -/
def Follows (limit : Nat) (act : Exec Flow) (vs rest : List Value) (op : Operation (List Value)) :
    Prop :=
  ∀ (m : Machine) (w : World),
    match op w with
    | .ok results w' =>
      if results ≠ [] ∧ limit < rest.length + results.length then
        ∃ m', act (m.put vs w) = .error (.stackOverflow limit) m'
      else act (m.put vs w) = .ok .next (m.put (results ++ rest) w')
    | .error e _ => ∃ m', act (m.put vs w) = .error e m'

namespace Follows

variable {α : Type} {limit : Nat} {act : Exec α} {f : α → Exec Flow} {op : Operation α}
  {g : α → Operation (List Value)} {v : Value} {vs vs' rest : List Value}

theorem bind (h : Mirrors act vs vs' op) (hf : ∀ a, Follows limit (f a) vs' rest (g a)) :
    Follows limit (act >>= f) vs rest (op >>= g) := by
  intro m w
  have hact := h m w
  simp only [Bind.bind, EStateM.bind]
  cases hop : op w with
  | ok a w' =>
    rw [hop] at hact
    rw [hact]
    exact hf a m w'
  | error e w' =>
    rw [hop] at hact
    obtain ⟨m', hm'⟩ := hact
    rw [hm']
    exact ⟨m', rfl⟩

theorem none : Follows limit (pure .next) rest rest (pure []) := fun _ _ => rfl

theorem push_eq (m : Machine) (w : World) : Exec.push limit v (m.put rest w) =
    if limit ≤ rest.length then .error (.stackOverflow limit) (m.put rest w)
    else .ok () (m.put (v :: rest) w) := by
  simp [Exec.push, Machine.put]

theorem push : Follows limit (do Exec.push limit v; return .next) rest rest (pure [v]) := by
  intro m w
  simp only [Bind.bind, EStateM.bind, push_eq]
  by_cases hroom : limit ≤ rest.length
  · rw [if_pos hroom]
    simp only [pure, EStateM.pure]
    rw [if_pos ⟨List.cons_ne_nil _ _, by simp; omega⟩]
    exact ⟨_, rfl⟩
  · rw [if_neg hroom]
    simp only [pure, EStateM.pure]
    rw [if_neg (by simp; omega)]
    rfl

/-- A value is put on the stack if there is room. -/
theorem push_next (limit : Nat) (v : Value) (m : Machine) :
    (do Exec.push limit v; return .next : Exec Flow) m = if limit ≤ m.frame.stack.size then
      .error (.stackOverflow limit) m else .ok .next (m.put (v :: m.frame.operands) m.world) := by
  have hpush : Exec.push limit v (m.put m.frame.operands m.world) = _ := push_eq m m.world
  rw [m.put_self, Frame.operands_length] at hpush
  split at hpush
  next hfull => rw [if_pos hfull, Exec.bind_of_error hpush]
  next hroom =>
    rw [if_neg hroom, Exec.bind_of_ok hpush]
    rfl

/-- One value is computed and left on the stack. -/
theorem value {act : Exec Value} {op : Operation Value} (h : Mirrors act vs rest op) :
    Follows limit (do Exec.push limit (← act); return .next) vs rest (do return [← op]) :=
  bind h fun _ => push

/-- What is left on the stack may lie on operands that stay there. -/
theorem onTop {act : Exec Flow} {results kept : List Value} (hne : results ≠ [])
    (h : Follows limit act vs (kept ++ rest) (pure results)) :
    Follows limit act vs rest (pure (results ++ kept)) := by
  intro m w
  have hact := h m w
  simp only [pure, EStateM.pure] at hact ⊢
  have hlen : rest.length + (results ++ kept).length = (kept ++ rest).length + results.length := by
    simp
    omega
  have hne' : results ++ kept ≠ [] := List.append_ne_nil_of_left_ne_nil hne _
  rw [hlen, List.append_assoc]
  by_cases hroom : limit < (kept ++ rest).length + results.length
  · rw [if_pos ⟨hne', hroom⟩]
    rwa [if_pos ⟨hne, hroom⟩] at hact
  · rw [if_neg fun h => hroom h.2]
    rwa [if_neg fun h => hroom h.2] at hact

theorem push_push {a b : Value} :
    Follows limit (do Exec.push limit b; Exec.push limit a; return .next) rest rest
      (pure [a, b]) := by
  intro m w
  have hpush := onTop (List.cons_ne_nil a []) (push : Follows limit _ ([b] ++ rest) _ (pure [a])) m
    w
  by_cases hroom : limit ≤ rest.length
  · simp only [pure, EStateM.pure, Bind.bind, EStateM.bind, push_eq, if_pos hroom]
    rw [if_pos ⟨List.cons_ne_nil _ _, by simp; omega⟩]
    exact ⟨_, rfl⟩
  · simp only [Bind.bind, EStateM.bind, push_eq (v := b), if_neg hroom]
    exact hpush

end Follows

/-- An instruction does with its operands what its operation does, and an operation that is given as
many operands as it takes leaves as many results as it promises. -/
theorem operate_spec (henv : env.Links T) (h : Takes T i ins outs) (hcall : ∀ c, i ≠ .call c)
    (hlen : args.length = ins.length) :
    (∀ rest,
      Follows env.limits.stack (Exec.perform env i) (args ++ rest) rest (operate env i args)) ∧
      ∀ w, (operate env i args).Ensures w (fun results _ => results.length = outs.length)
        fun e => e.isOperational = true := by
  cases h with
  | pushByte | pushBool | pushShort | pushVoid =>
    obtain rfl := List.eq_nil_of_length_eq_zero hlen
    exact ⟨fun _ => .push, fun _ => .pure rfl⟩
  | integer hk | float hk =>
    obtain rfl := List.eq_nil_of_length_eq_zero hlen
    refine ⟨fun _ => .value .constant, fun _ => ?_⟩
    simp only [operate_pushConst, Operation.constant, henv.constant hk]
    exact .pure rfl
  | string hk =>
    obtain rfl := List.eq_nil_of_length_eq_zero hlen
    refine ⟨fun _ => .value .constant, fun _ => ?_⟩
    simp only [operate_pushConst, Operation.constant, henv.constant hk]
    exact .bind (.bind (.onWorld (fun _ _ _ => .pure (.pure rfl)) fun _ _ _ => rfl))
  | pop =>
    obtain ⟨v, rfl⟩ := List.length_eq_one_iff.mp hlen
    exact ⟨fun _ => .bind .pop fun _ => .none, fun _ => .pure rfl⟩
  | dup =>
    obtain ⟨v, rfl⟩ := List.length_eq_one_iff.mp hlen
    exact ⟨fun _ => .bind (.peek rfl) fun _ => .onTop (List.cons_ne_nil _ _) .push,
      fun _ => .pure rfl⟩
  | dup2 =>
    obtain ⟨a, b, rfl⟩ := List.length_eq_two.mp hlen
    exact ⟨fun _ => .bind (.peek rfl) fun _ => .bind (.peek rfl) fun _ =>
      .onTop (List.cons_ne_nil _ _) .push_push, fun _ => .pure rfl⟩
  | getField =>
    obtain ⟨v, rfl⟩ := List.length_eq_one_iff.mp hlen
    exact ⟨fun _ => .bind .popObject fun _ => .value .readHeap, fun _ =>
      .bind (.object (fun _ _ => .bind (.readHeap (fun _ _ => .pure rfl) fun _ _ => rfl)) rfl)⟩
  | setField =>
    obtain ⟨a, b, rfl⟩ := List.length_eq_two.mp hlen
    exact ⟨fun _ => .bind .popKind fun _ => .bind .popObject fun _ => .bind .onWorld fun _ => .none,
      fun _ => .bind (.ofKind (fun _ => .bind (.object (fun _ _ =>
        .bind (.onWorld (fun _ _ _ => .pure rfl) fun _ _ _ => rfl)) rfl)) fun _ => rfl)⟩
  | operation hop =>
    obtain ⟨a, b, rfl⟩ := List.length_eq_two.mp hlen
    rcases operation?_cases hop with ⟨aop, ht, rfl, -⟩ | ⟨cmp, -, rfl, -⟩ | ⟨-, rfl, -⟩
    · have hkind : primitives.kindOf _ ≠ .ref := kindOf_number ht
      exact ⟨fun _ => .value .arith,
        fun _ => .bind (.arith hkind (fun _ _ => .pure rfl) (fun _ => rfl) (fun _ => rfl) rfl)⟩
    · exact ⟨fun _ => .bind .compare fun _ => .push, fun _ => .bind (.compare (fun _ => .pure rfl)
        (fun _ _ => rfl) (fun _ _ => rfl) fun _ _ _ _ _ _ => rfl)⟩
    · exact ⟨fun _ => .bind .popString fun _ => .bind .popString fun _ => .bind .onWorld fun _ =>
          .push,
        fun _ => .bind (.string (fun _ _ => .bind (.string (fun _ _ =>
          .bind (.onWorld (fun _ _ _ => .pure rfl) fun _ _ _ => rfl)) rfl)) rfl)⟩
  | neg ht =>
    obtain ⟨v, rfl⟩ := List.length_eq_one_iff.mp hlen
    rcases ht with rfl | rfl
    · exact ⟨fun _ => .bind .popInt fun _ => .push,
        fun _ => .bind (.int (fun _ _ => .pure rfl) fun _ => rfl)⟩
    · exact ⟨fun _ => .bind .popFloat fun _ => .push,
        fun _ => .bind (.float (fun _ _ => .pure rfl) fun _ => rfl)⟩
  | not | intToFloat =>
    obtain ⟨v, rfl⟩ := List.length_eq_one_iff.mp hlen
    exact ⟨fun _ => .bind .popInt fun _ => .push,
      fun _ => .bind (.int (fun _ _ => .pure rfl) fun _ => rfl)⟩
  | floatToInt =>
    obtain ⟨v, rfl⟩ := List.length_eq_one_iff.mp hlen
    exact ⟨fun _ => .bind .popFloat fun _ => .push,
      fun _ => .bind (.float (fun _ _ => .pure rfl) fun _ => rfl)⟩
  | call hcallee =>
    cases hcallee with
    | function => exact absurd rfl (hcall _)
    | method => exact absurd rfl (hcall _)
    | native hn hparams =>
      obtain ⟨native, hnative, rfl⟩ := henv.native hn
      have hcount := congrArg List.length hparams
      rw [List.length_map, List.length_map] at hcount
      refine ⟨fun _ => .value (.callNative hnative ?_), fun _ => ?_⟩
      · rw [hlen, List.length_reverse, hcount]
      · simp only [operate_callNative, Operation.callNative, hnative]
        exact .bind (.onWorld (fun _ _ _ => .pure rfl) fun _ _ _ => rfl)
  | construct => exact absurd rfl (hcall _)
  | newObject hinfo =>
    obtain rfl := List.eq_nil_of_length_eq_zero hlen
    obtain ⟨shape, hshape⟩ := henv.shapes _ _ hinfo
    simp only [Exec.perform, operate_newObject, hshape]
    exact ⟨fun _ => .bind .onWorld fun _ => .push,
      fun _ => .bind (.onWorld (fun _ _ _ => .pure rfl) fun _ _ _ => rfl)⟩
  | newArray =>
    obtain ⟨v, rfl⟩ := List.length_eq_one_iff.mp hlen
    refine ⟨fun _ => .bind .popInt fun n => ?_, fun _ => .bind (.int (fun n _ => ?_) fun _ => rfl)⟩
    · dsimp only
      split
      · exact fun m w => ⟨_, rfl⟩
      · exact .bind .onWorld fun _ => .push
    · split
      · exact .throw rfl
      · exact .bind (.onWorld (fun _ _ _ => .pure rfl) fun _ _ _ => rfl)
  | getElement =>
    obtain ⟨a, b, rfl⟩ := List.length_eq_two.mp hlen
    exact ⟨fun _ => .bind .popIndex fun _ => .bind .popObject fun _ => .value .readHeap,
      fun _ => .bind (.index (fun _ _ => .bind (.object (fun _ _ =>
        .bind (.readHeap (fun _ _ => .pure rfl) fun _ _ => rfl)) rfl)) (fun _ => rfl) fun _ => rfl)⟩
  | setElement =>
    obtain ⟨a, b, c, rfl⟩ := List.length_eq_three.mp hlen
    exact ⟨fun _ => .bind .popKind fun _ => .bind .popIndex fun _ => .bind .popObject fun _ =>
        .bind .onWorld fun _ => .none,
      fun _ => .bind (.ofKind (fun _ => .bind (.index (fun _ _ => .bind (.object (fun _ _ =>
        .bind (.onWorld (fun _ _ _ => .pure rfl) fun _ _ _ => rfl)) rfl)) (fun _ => rfl)
        fun _ => rfl)) fun _ => rfl)⟩
  | arrayLength =>
    obtain ⟨v, rfl⟩ := List.length_eq_one_iff.mp hlen
    exact ⟨fun _ => .bind .popObject fun _ => .bind .readHeap fun _ => .push, fun _ =>
      .bind (.object (fun _ _ => .bind (.readHeap (fun _ _ => .pure rfl) fun _ _ => rfl)) rfl)⟩
  | delete =>
    obtain ⟨v, rfl⟩ := List.length_eq_one_iff.mp hlen
    exact ⟨fun _ => .bind .popReference fun _ => .bind .onWorld fun _ => .none,
      fun _ => .bind (.reference (fun _ _ =>
        .bind (.onWorld (fun _ _ _ => .pure rfl) fun _ _ _ => rfl)) rfl)⟩

/-! ## Other instructions -/

/-- Whether a jump is taken if there is this number on the stack. -/
def Trigger.test : Trigger → Int64 → Bool
  | .always, _ => true
  | .ifTrue, n => n != 0
  | .ifFalse, n => n == 0

namespace Exec

variable {env : Setting} {m : Machine} {v : Value} {rest : List Value} {kind : Kind} {slot : UInt16}
  {trigger : Trigger}

theorem perform_load (hv : m.frame.slots[slot.toNat]? = some v) :
    perform env (.load kind slot) m = (do push env.limits.stack v; return .next : Exec Flow) m := by
  have hread : readSlot slot m = .ok v m := by
    have hget : (get : Exec Machine) m = .ok m m := rfl
    rw [readSlot, bind_of_ok hget, hv]
    rfl
  rw [perform, bind_of_ok hread]

theorem pop_eq (hargs : m.frame.operands = v :: rest) : pop m = .ok v (m.put rest m.world) := by
  have hpop : Mirrors pop (v :: rest) rest (Pure.pure v) := Mirrors.pop
  have hpop := hpop m m.world
  rwa [← hargs, m.put_self] at hpop

theorem slotIndex_eq (hlt : slot.toNat < m.frame.slots.size) :
    slotIndex slot m = .ok slot.toNat m := by
  have hget : slotIndex slot m = (if slot.toNat < m.frame.slots.size then pure slot.toNat
      else throw (.badSlot slot m.frame.slots.size) : Exec Nat) m := rfl
  rw [hget, if_pos hlt]
  rfl

theorem perform_store (hlt : slot.toNat < m.frame.slots.size) (hargs : m.frame.operands = v :: rest)
    (hkind : v.hasKind kind = true) :
    perform env (.store kind slot) m = .ok .next ((m.put rest m.world).store slot.toNat v) := by
  have hpop : popKind kind m = .ok v (m.put rest m.world) := by
    rw [popKind, bind_of_ok (pop_eq hargs), if_pos hkind]
    rfl
  rw [perform, bind_of_ok (slotIndex_eq hlt), bind_of_ok hpop]
  rfl

theorem perform_store_error (env : Setting) (hlt : slot.toNat < m.frame.slots.size)
    (hargs : m.frame.operands = v :: rest) (hkind : v.hasKind kind = false) :
    ∃ m', perform env (.store kind slot) m = .error (.typeMismatch kind v) m' := by
  have hpop : popKind kind m = .error (.typeMismatch kind v) (m.put rest m.world) := by
    rw [popKind, bind_of_ok (pop_eq hargs), if_neg (by rw [hkind]; decide)]
    rfl
  refine ⟨m.put rest m.world, ?_⟩
  rw [perform, bind_of_ok (slotIndex_eq hlt), bind_of_error hpop]

theorem triggered_eq (htrigger : trigger ≠ .always) :
    triggered trigger = (do return trigger.test (← popInt)) := by
  cases trigger with
  | always => exact absurd rfl htrigger
  | ifTrue => rfl
  | ifFalse => rfl

theorem perform_branch {offset : UInt32} {n : Int64} (htrigger : trigger ≠ .always)
    (hargs : m.frame.operands = .int n :: rest) :
    perform env (.jump trigger offset) m = .ok .next (if trigger.test n then
      (m.put rest m.world).goTo offset.toNat else m.put rest m.world) := by
  have hpop : popInt m = .ok n (m.put rest m.world) := bind_of_ok (pop_eq hargs)
  have htriggered : triggered trigger m = .ok (trigger.test n) (m.put rest m.world) := by
    rw [triggered_eq htrigger]
    exact bind_of_ok hpop
  rw [perform, bind_of_ok htriggered]
  cases trigger.test n <;> rfl

theorem perform_branch_error (env : Setting) (offset : UInt32) (htrigger : trigger ≠ .always)
    (hargs : m.frame.operands = v :: rest) (hkind : v.hasKind .int = false) :
    ∃ m', perform env (.jump trigger offset) m = .error (.typeMismatch .int v) m' := by
  have hpop : popInt m = .error (.typeMismatch .int v) (m.put rest m.world) := by
    rw [popInt, bind_of_ok (pop_eq hargs)]
    cases v <;> first | rfl | cases hkind
  have htriggered : triggered trigger m = .error (.typeMismatch .int v) (m.put rest m.world) := by
    rw [triggered_eq htrigger]
    exact bind_of_error hpop
  exact ⟨_, by rw [perform, bind_of_error htriggered]⟩

theorem perform_call {c : UInt16} {callee : Routine} {args : List Value}
    (hcallee : env.program.routines[c]? = some callee) (hargs : m.frame.operands = args ++ rest)
    (hlen : args.length = callee.params.length) : perform env (.call c) m =
      if env.limits.frames ≤ m.callers.size + 1 then .error (.frameOverflow env.limits.frames) m
      else .ok .next ⟨m.id, .call callee m.frame.pc args.reverse.toArray,
        m.callers.push (m.put rest m.world).frame, m.pc, m.world⟩ := by
  have hpop : Mirrors (popMany args.length) (args ++ rest) rest _ := Mirrors.popMany args
  have hpop := hpop m m.world
  rw [← hargs, m.put_self, hlen] at hpop
  have hcall := call_found (m := m) hcallee
  rw [perform]
  split
  next hdeep =>
    rw [if_pos hdeep] at hcall
    rw [bind_of_error hcall]
  next hdeep =>
    rw [if_neg hdeep] at hcall
    rw [bind_of_ok (hcall.trans (bind_of_ok hpop))]
    rfl

variable (hargs : m.frame.operands = [.int (.ofNat m.frame.returnAddress)])
  (hback : m.frame.returnAddress < 2 ^ 64)

include hargs hback

/-- The return address is taken off the stack before anything else. -/
theorem ret_eq : ret env v m =
      (leave >>= fun left => if left = true then do
        push env.limits.stack v
        pure Flow.next
      else pure (Flow.leave v) : Exec Flow) (m.put [] m.world) := by
  have haddress : (Int64.ofNat m.frame.returnAddress).toUInt64.toNat =
    (m.put [] m.world).frame.returnAddress :=
    Nat.mod_eq_of_lt hback
  have hget : (get : Exec Machine) (m.put [] m.world) = .ok _ (m.put [] m.world) := rfl
  simp only [ret]
  rw [bind_of_ok (pop_eq hargs)]
  dsimp only
  rw [bind_of_ok hget, if_neg (not_not.mpr haddress)]

theorem ret_leave (hcallers : m.callers = #[]) :
    ret env v m = .ok (.leave v) (m.put [] m.world) := by
  have hleave : leave (m.put [] m.world) = .ok false (m.put [] m.world) := by
    simp only [leave, Machine.put, hcallers]
    rfl
  rw [ret_eq hargs hback, bind_of_ok hleave]
  rfl

/-- Returning to a frame is pushing a value there. -/
theorem ret_push {callers : Array Frame} {caller : Frame}
    (hcallers : m.callers = callers.push caller) :
    ret env v m = (do push env.limits.stack v; return .next : Exec Flow)
      ⟨m.id, { caller with pc := m.frame.returnAddress }, callers, m.pc, m.world⟩ := by
  have hleave : leave (m.put [] m.world) = .ok true ⟨m.id,
      { caller with pc := m.frame.returnAddress }, callers, m.pc, m.world⟩ := by
    simp only [leave, Machine.put, hcallers, Array.back?_push, Array.pop_push]
  rw [ret_eq hargs hback, bind_of_ok hleave, if_pos rfl]

end Exec

end Bytescript
