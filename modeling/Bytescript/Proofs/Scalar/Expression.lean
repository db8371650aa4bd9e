import Bytescript.Proofs.Machine.Progress
import Bytescript.Proofs.ReferenceTypes
import Bytescript.Proofs.Scalar.Semantics

/-!
# The code of scalar expressions

A machine in front of the code of a scalar expression computes the value of the expression
(`Computes.yields`): it comes behind the code with the value on top of its stack, all else as it
was, or it fails where the expression divides by zero. There has to be room on the stack for what
the expression needs (`Expr.height`).
-/

namespace Bytescript

open TypeTable (primitives)

/-! ## Arithmetic -/

/-- Arithmetic on 64 bits is arithmetic on integers, wrapped. -/
theorem ArithOp.onInts_eq (op : ArithOp) (a b : Int64) : op.onInts a b =
    if op.divides && b = 0 then .error .divisionByZero else .ok
      (.ofInt (op.exact a.toInt b.toInt)) := by
  have ha := Int64.minValue_le_toInt a
  have hb := Int64.minValue_le_toInt b
  cases op with
  | add | sub | mul => simp [onInts, divides, exact]
  | div =>
    have hdiv := Int64.ofInt_tdiv ha (Int64.toInt_le a) hb (Int64.toInt_le b)
    by_cases hzero : b = 0
    · simp [onInts, divides, hzero]
    · simp only [onInts, divides, exact, hzero]
      simpa using hdiv.symm
  | mod =>
    have hmod := Int64.ofInt_tmod ha (Int64.toInt_le a) hb (Int64.toInt_le b)
    by_cases hzero : b = 0
    · simp [onInts, divides, hzero]
    · simp only [onInts, divides, exact, hzero]
      simpa using hmod.symm

theorem Comparison.onInts_eq (cmp : Comparison) (a b : Int64) :
    cmp.onInts a b = cmp.holds a.toInt b.toInt := by
  cases cmp <;> simp [onInts, holds, Int64.lt_iff_toInt_lt, Int64.le_iff_toInt_le, Int64.toInt_inj]

/-- Short literals stand in the code itself. -/
theorem immediate?_value {v : Int64} {i : Instruction} (h : Draft.immediate? v = some i) :
    (∃ n, i = .pushByte n ∧ n.toInt64 = v) ∨ ∃ n, i = .pushShort n ∧ n.toInt64 = v := by
  simp only [Draft.immediate?] at h
  split at h
  next hn =>
    cases h
    refine .inl ⟨_, rfl, ?_⟩
    rw [← Int64.toInt_inj, Int8.toInt_toInt64, Int8.toInt_ofInt_of_le hn.1 (by omega)]
  · split at h
    next hn =>
      cases h
      refine .inr ⟨_, rfl, ?_⟩
      rw [← Int64.toInt_inj, Int16.toInt_toInt64, Int16.toInt_ofInt_of_le hn.1 (by omega)]
    · cases h

/-! ## Types -/

variable {s t : ScalarType}

theorem ScalarType.id_inj (h : s.id = t.id) : s = t := by
  revert h
  cases s <;> cases t <;> decide

/-- Only a cast makes code. -/
theorem ScalarType.convert_assignable (h : primitives.isAssignable s.id t.id = true) :
    primitives.convert s.id t.id = [] ∧ (t = .bool → s = .bool) := by
  revert h
  cases s <;> cases t <;> decide

namespace Scalar

variable {v : Scalar}

theorem eq_int (h : v.type.id = .int) : ∃ n, v = .int n := by
  have htype : v.type = .int := ScalarType.id_inj h
  cases v with
  | int n => exact ⟨n, rfl⟩
  | bool b => cases htype

theorem eq_bool (h : v.type.id = .bool) : ∃ b, v = .bool b := by
  have htype : v.type = .bool := ScalarType.id_inj h
  cases v with
  | int n => cases htype
  | bool b => exact ⟨b, rfl⟩

theorem type_cast (v : Scalar) (t : ScalarType) : (v.cast t).type = t := by
  cases v <;> cases t <;> rfl

/-- What converts by itself is represented as before. -/
theorem value_cast (h : t = .bool → v.type = .bool) : (v.cast t).value = v.value := by
  cases t with
  | int => cases v <;> rfl
  | bool =>
    cases v with
    | int n => cases h rfl
    | bool b => rfl

end Scalar

theorem TypeTable.Sound.meaning_scalar {types : TypeTable} (h : types.Sound) {term : TypeTerm}
    (ht : term.scalar? = some t) : types.meaning .top term = some t.id := by
  have hint : types.lookup .top (primitives.name .int) = some .int := h.lookup_primitive (by decide)
  have hbool : types.lookup .top (primitives.name .bool) = some .bool :=
    h.lookup_primitive (by decide)
  unfold TypeTerm.scalar? at ht
  split at ht
  · cases ht
    exact hint
  · cases ht
    exact hbool
  · cases ht

/-! ## Variables -/

/-- The variables that can be named are those that are bound, and their slots hold what they are
bound to. -/
structure Locals.Holds (Γ : Locals) (S : Bindings) (slots : Array Value) : Prop where
  names : ∀ name, name ∈ S.map Prod.fst ↔ (Γ name).isSome = true
  nodup : (S.map Prod.fst).Nodup
  value : ∀ name slot t, Γ name = some (slot, t) →
    ∃ v, S.lookup name = some v ∧ v.type.id = t ∧ slots[slot.toNat]? = some v.value

/-! ## What a machine computes -/

/-- A machine comes to what an expression means, or it fails if that is a division by zero. -/
def Machine.Yields {α : Type} (env : Setting) (m : Machine) (result : Except Trap α)
    (post : α → Machine → Prop) : Prop :=
  match result with
  | .ok a => m.Advances env 0 (post a)
  | .error .division => m.Fails env .divisionByZero
  | .error .stuck => False

namespace Machine.Yields

variable {α β : Type} {env : Setting} {m m' : Machine} {result : Except Trap α}
  {f : α → Except Trap β} {post next : α → Machine → Prop} {post' : β → Machine → Prop}
  {P : Machine → Prop} {least : Nat} {a : α}

theorem refl (h : post a m) : m.Yields env (.ok a) post := Advances.refl h

theorem of_advances (h : m.Advances env least P) (hP : ∀ m', P m' → m'.Yields env result post) :
    m.Yields env result post := by
  match result with
  | .ok a => exact (h.trans hP).of_le (Nat.zero_le _)
  | .error .division => exact h.fails hP
  | .error .stuck =>
    obtain ⟨_, m', -, -, hm'⟩ := h
    exact hP m' hm'

theorem of_step (h : ∃ m', Exec.step env m = .ok .next m' ∧ P m')
    (hP : ∀ m', P m' → m'.Yields env result post) : m.Yields env result post := by
  obtain ⟨m', hstep, hm'⟩ := h
  exact of_advances (.step hstep hm') hP

theorem bind (h : m.Yields env result post)
    (hpost : ∀ a m', post a m' → m'.Yields env (f a) post') :
    m.Yields env (result >>= f) post' := by
  match result with
  | .ok a => exact of_advances h (hpost a)
  | .error .division => exact h
  | .error .stuck => exact h

/-- A machine goes on with what it has come to. -/
theorem andThen (h : m.Yields env result post)
    (hpost : ∀ a m', post a m' → m'.Yields env (.ok a) next) : m.Yields env result next := by
  rw [← bind_pure result]
  exact h.bind hpost

theorem mono (h : m.Yields env result post) (hpost : ∀ a m', post a m' → next a m') :
    m.Yields env result next := by
  match result with
  | .ok a => exact Advances.mono h (hpost a)
  | .error .division => exact h
  | .error .stuck => exact h

end Machine.Yields

/-- A setting in which the top-level code of a compiled script runs. -/
structure Setting.Hosts (env : Setting) (T : Tables) (H : Home) (r : Routine) : Prop where
  main : H.role = .main
  top : H.typeScope = .top
  types : T.types.Sound
  pool : env.program.pool.entries = T.pool
  encoded : Layout.Encodes r.code r.body

/-- A value lies on top of the stack. -/
def Machine.HasTop (r : Routine) (k : Nat) (slots : Array Value) (vs : List Value) (t : TypeId)
    (v : Scalar) (m : Machine) : Prop :=
  v.type.id = t ∧ m.Stands r #[] k slots (v.value :: vs)

section

variable {env : Setting} {T : Tables} {H : Home} {r : Routine} {m : Machine} {k : Nat}
  {slots : Array Value} {vs : List Value}

namespace Machine.Stands

open Follows Mirrors

variable (henc : Layout.Encodes r.code r.body)

include henc

variable {i : Instruction} {a b n : Int64} {op : BinaryOp} {c : Bool}

theorem pushInt (hm : m.Stands r #[] k slots vs) (hi : r.code[k]? = some i)
    (h : (∃ b, i = .pushByte b ∧ b.toInt64 = n) ∨ ∃ s, i = .pushShort s ∧ s.toInt64 = n)
    (hroom : vs.length < env.limits.stack) :
    ∃ m', Exec.step env m = .ok .next m' ∧ m'.Stands r #[] (k + 1) slots (.int n :: vs) := by
  rcases h with ⟨b, rfl, rfl⟩ | ⟨s, rfl, rfl⟩
  · exact computes henc hm hi rfl push (fun _ => rfl) hroom
  · exact computes henc hm hi rfl push (fun _ => rfl) hroom

theorem pushBool {b : Bool} (hm : m.Stands r #[] k slots vs) (hi : r.code[k]? = some (boolByte b))
    (hroom : vs.length < env.limits.stack) :
    ∃ m', Exec.step env m = .ok .next m' ∧ m'.Stands r #[] (k + 1) slots
      ((Scalar.bool b).value :: vs) :=
  pushInt henc hm hi (.inl ⟨_, rfl, by cases b <;> rfl⟩) hroom

theorem arith {o : ArithOp} (hm : m.Stands r #[] k slots (.int b :: .int a :: vs))
    (hi : r.code[k]? = some (.arith .int o)) (hroom : vs.length < env.limits.stack) :
    m.Yields env ((BinaryOp.arith o).eval (.int a) (.int b))
      (Machine.HasTop r (k + 1) slots vs .int) := by
  have hop := o.onInts_eq a b
  rw [BinaryOp.eval]
  split
  next hzero =>
    rw [if_pos hzero] at hop
    refine rejects henc hm hi rfl (Follows.value Mirrors.arith) fun w => ?_
    simp only [Operation.arith, Operation.int, pure_bind, hop]
    rfl
  next hzero =>
    rw [if_neg hzero] at hop
    have hok : ∀ w, (do return [← Operation.arith o .int (.int b) (.int a)] : Operation
      (List Value)) w =
        .ok [.int (.ofInt (o.exact a.toInt b.toInt))] w := by
      intro w
      simp only [Operation.arith, Operation.int, pure_bind, hop]
      rfl
    exact .of_step (computes henc hm hi rfl (Follows.value Mirrors.arith) hok hroom)
      fun m' hm' => .refl ⟨rfl, hm'⟩

theorem compare {cmp : Comparison} (hm : m.Stands r #[] k slots (.int b :: .int a :: vs))
    (hi : r.code[k]? = some (.compare .int cmp)) (hroom : vs.length < env.limits.stack) :
    ∃ m', Exec.step env m = .ok .next m' ∧
      m'.Stands r #[] (k + 1) slots ((Scalar.bool (cmp.holds a.toInt b.toInt)).value :: vs) := by
  rw [← Comparison.onInts_eq]
  exact computes henc hm hi rfl (Follows.bind Mirrors.compare fun _ => push) (fun _ => rfl) hroom

/-- An operator on two values of one type. -/
theorem operator {a b : Scalar} {t result : TypeId} (ha : a.type.id = t) (hb : b.type.id = t)
    (hop : primitives.operation? op t = some (i, result))
    (hm : m.Stands r #[] k slots (b.value :: a.value :: vs)) (hi : r.code[k]? = some i)
    (hroom : vs.length < env.limits.stack) :
    m.Yields env (op.eval a b) (Machine.HasTop r (k + 1) slots vs result) := by
  subst ha
  cases a with
  | int a =>
    obtain ⟨b, rfl⟩ := Scalar.eq_int hb
    cases op with
    | arith o =>
      cases hop
      exact arith henc hm hi hroom
    | compare cmp =>
      cases hop
      exact .of_step (compare henc hm hi hroom) fun m' hm' => .refl ⟨rfl, hm'⟩
    | and | or => cases hop
  | bool a =>
    obtain ⟨b, rfl⟩ := Scalar.eq_bool hb
    cases op with
    | arith o => cases o <;> cases hop
    | compare cmp =>
      cases cmp with
      | eq | ne =>
        cases hop
        refine .of_step (compare henc hm hi hroom) fun m' hm' => .refl ⟨rfl, ?_⟩
        cases a <;> cases b <;> exact hm'
      | lt | le | gt | ge => cases hop
    | and | or => cases hop

theorem neg (hm : m.Stands r #[] k slots (.int n :: vs)) (hi : r.code[k]? = some (.neg .int))
    (hroom : vs.length < env.limits.stack) : ∃ m', Exec.step env m = .ok .next m' ∧
      m'.Stands r #[] (k + 1) slots ((Scalar.int (.ofInt (-n.toInt))).value :: vs) := by
  have hneg : Int64.ofInt (-n.toInt) = -n := by simp
  rw [hneg]
  exact computes henc hm hi rfl (Follows.bind popInt fun _ => push) (fun _ => rfl) hroom

theorem not (hm : m.Stands r #[] k slots ((Scalar.bool c).value :: vs))
    (hi : r.code[k]? = some .not)
    (hroom : vs.length < env.limits.stack) : ∃ m', Exec.step env m = .ok .next m' ∧
      m'.Stands r #[] (k + 1) slots ((Scalar.bool !c).value :: vs) := by
  have hstep := computes henc hm hi rfl (Follows.bind popInt fun _ => push) (fun _ => rfl) hroom
  cases c <;> exact hstep

/-- A conditional jump, in the forms that operators and statements use it. -/
theorem test {trigger : Trigger} {short : Bool} {j : Nat}
    (hop : Lower.shortcut? op = some (trigger, short))
    (hm : m.Stands r #[] k slots ((Scalar.bool c).value :: vs))
    (hi : r.code[k]? = some (.jump trigger j.toUInt32)) (hj : j ≤ r.code.size) :
    ∃ m', Exec.step env m = .ok .next m' ∧ m'.Stands r #[] (if c = short then j else k + 1) slots
      vs := by
  have htest : trigger ≠ .always ∧ trigger.test (if c then 1 else 0) = (c == short) := by
    cases op with
    | and =>
      cases hop
      cases c <;> decide
    | or =>
      cases hop
      cases c <;> decide
    | arith | compare => cases hop
  obtain ⟨m', hstep, hm'⟩ := branch henc htest.1 hm hi hj env
  refine ⟨m', hstep, ?_⟩
  rw [htest.2] at hm'
  cases c <;> cases short <;> exact hm'

/-- The code of a cast. -/
theorem cast {v : Scalar} (hm : m.Stands r #[] k slots (v.value :: vs))
    (hcode : r.HasCode k (primitives.convert v.type.id t.id))
    (hroom : vs.length + 2 ≤ env.limits.stack) :
    m.Yields env (.ok (v.cast t))
      (Machine.HasTop r (k + (primitives.convert v.type.id t.id).length) slots vs t.id) := by
  rcases Bool.eq_false_or_eq_true (primitives.isAssignable v.type.id t.id) with hassign | hassign
  · obtain ⟨hnil, hbool⟩ := ScalarType.convert_assignable hassign
    refine .refl ⟨by rw [v.type_cast], ?_⟩
    rw [hnil, Scalar.value_cast fun ht => hbool ht]
    exact hm
  · obtain ⟨n, rfl⟩ : ∃ n, v = .int n := by
      cases v with
      | int n => exact ⟨n, rfl⟩
      | bool b => cases t <;> cases hassign
    obtain rfl : t = .bool := by cases t <;> first | rfl | cases hassign
    have hpush := hcode.cons
    refine .of_step (pushInt henc hm hpush.1 (.inl ⟨0, rfl, rfl⟩) hroom) fun m1 hm1 => ?_
    refine .of_step (compare henc hm1 hpush.2.one (Nat.lt_of_succ_lt hroom)) fun m2 hm2 =>
      .refl ⟨rfl, ?_⟩
    rw [← Comparison.onInts_eq] at hm2
    exact hm2

end Machine.Stands

variable {span : Span} {op : BinaryOp} {left right : Expr} {trigger : Trigger} {short : Bool}

theorem Expr.eval_shortcut (S : Bindings) (h : Lower.shortcut? op = some (trigger, short)) :
    (Expr.binary span op left right).eval S = do
      if (← left.holds S) = short then return .bool short else return .bool (← right.holds S) := by
  cases op with
  | and =>
    obtain ⟨-, rfl⟩ := Prod.mk.inj (Option.some.inj h)
    simp only [eval, holds, bind_assoc]
    refine bind_congr fun v => bind_congr fun c => ?_
    cases c <;> rfl
  | or =>
    obtain ⟨-, rfl⟩ := Prod.mk.inj (Option.some.inj h)
    simp only [eval, holds, bind_assoc]
  | arith | compare => cases h

theorem Expr.eval_binary (S : Bindings) (h : Lower.shortcut? op = none) :
    (Expr.binary span op left right).eval S = (do op.eval (← left.eval S) (← right.eval S)) := by
  cases op with
  | and | or => cases h
  | arith | compare => rfl

/-- The value of a condition. -/
theorem Machine.Yields.truth {result : Except Trap Scalar}
    (h : m.Yields env result (Machine.HasTop r k slots vs .bool)) :
    m.Yields env (do (← result).truth) fun c m' =>
      m'.Stands r #[] k slots ((Scalar.bool c).value :: vs) := by
  refine h.bind fun v m' hm' => ?_
  obtain ⟨c, rfl⟩ := Scalar.eq_bool hm'.1
  exact .refl hm'.2

/-- The right operand is left out where the left one settles the result. -/
theorem Machine.Yields.shortcut (henc : Layout.Encodes r.code r.body)
    {left right : Except Trap Bool}
    {op : BinaryOp} {trigger : Trigger} {short : Bool} {n other stop : Nat}
    (hop : Lower.shortcut? op = some (trigger, short)) (hother : other = k + 1 + n + 3)
    (hstop : stop = other + 1) (hjump : r.code[k]? = some (.jump trigger other.toUInt32))
    (hcode : r.HasCode (k + 1 + n) [.jump trigger other.toUInt32, boolByte !short,
      .jump .always stop.toUInt32, boolByte short]) (hroom : vs.length < env.limits.stack)
    (hleft : m.Yields env left fun c m' => m'.Stands r #[] k slots ((Scalar.bool c).value :: vs))
    (hright : ∀ m' : Machine, m'.Stands r #[] (k + 1) slots vs → m'.Yields env right fun c m' =>
      m'.Stands r #[] (k + 1 + n) slots ((Scalar.bool c).value :: vs)) :
    m.Yields env (do if (← left) = short then return Scalar.bool short else return .bool (← right))
      (Machine.HasTop r stop slots vs .bool) := by
  obtain ⟨hjump', hcode⟩ := hcode.cons
  obtain ⟨hlong, hcode⟩ := hcode.cons
  obtain ⟨hskip, hcode⟩ := hcode.cons
  have hshort := hcode.one
  have hlt := (getElem_of_getElem? hshort).1
  -- both jumps for the short result meet in front of the instruction that pushes it
  have hpushed : ∀ m' : Machine, m'.Stands r #[] other slots vs →
      m'.Yields env (.ok (.bool short)) (Machine.HasTop r stop slots vs .bool) := by
    intro m' hm'
    subst hother hstop
    exact .of_step (hm'.pushBool henc hshort hroom) fun m'' hm'' => .refl ⟨rfl, hm''⟩
  refine hleft.bind fun c m1 hm1 => .of_step (hm1.test henc hop hjump (by omega)) fun m2 hm2 => ?_
  by_cases hc : c = short
  · rw [if_pos hc] at hm2 ⊢
    exact hpushed m2 hm2
  · rw [if_neg hc] at hm2 ⊢
    refine (hright m2 hm2).bind fun d m3 hm3 =>
      .of_step (hm3.test henc hop hjump' (by omega)) fun m4 hm4 => ?_
    by_cases hd : d = short
    · rw [if_pos hd] at hm4
      exact hd ▸ hpushed m4 hm4
    · rw [if_neg hd] at hm4
      obtain rfl : d = !short := by cases d <;> cases short <;> first | rfl | exact absurd rfl hd
      refine .of_step (hm4.pushBool henc hlong hroom) fun m5 hm5 => ?_
      exact .of_step (hm5.jump henc hskip (by omega) env) fun m6 hm6 => .refl ⟨rfl, hm6⟩

theorem Expr.height_pos (e : Expr) : 0 < e.height := by
  fun_induction Expr.height e <;> omega

theorem Computes.yields (hH : env.Hosts T H r) {Γ : Locals} {S : Bindings} (hΓ : Γ.Holds S slots)
    {e : Expr}
    {t : TypeId} {b : Nat} {code : List Instruction} (h : Computes T H Γ (.expr e t) b code)
    (hscalar : e.scalar = true) (hcode : r.HasCode b code)
    (hroom : vs.length + e.height ≤ env.limits.stack)
    (hm : m.Stands r #[] b slots vs) :
    m.Yields env (e.eval S) (Machine.HasTop r (b + code.length) slots vs t) := by
  have henc := hH.encoded
  generalize hwork : Work.expr e t = work at h
  induction h generalizing e t vs m with
  | immediate hi =>
    cases hwork
    exact .of_step (hm.pushInt henc hcode.one (immediate?_value hi) hroom) fun m' hm' =>
      .refl ⟨rfl, hm'⟩
  | @integer _ v c _ hc =>
    cases hwork
    have hconstant : ∀ w, (do return [← Operation.constant env c] : Operation (List Value)) w =
        .ok [.int v] w := by
      intro w
      simp only [Operation.constant, Pool.get, hH.pool, hc]
      rfl
    exact .of_step (hm.computes henc hcode.one rfl (Follows.value Mirrors.constant) hconstant hroom)
      fun m' hm' => .refl ⟨rfl, hm'⟩
  | bool =>
    cases hwork
    exact .of_step (hm.pushBool henc hcode.one hroom) fun m' hm' => .refl ⟨rfl, hm'⟩
  | named hname =>
    cases hwork
    obtain ⟨v, hlookup, htype, hslot⟩ := hΓ.value _ _ _ hname
    rw [Expr.eval, Bindings.read, hlookup]
    exact .of_step (hm.load henc hcode.one hslot hroom) fun m' hm' => .refl ⟨htype, hm'⟩
  | member _ hclass =>
    rw [hH.main] at hclass
    cases hclass
  | self hclass =>
    rw [hH.main] at hclass
    cases hclass
  | @neg _ e _ _ _ ht _ ih =>
    cases hwork
    have hparts := hcode.append
    have hpos := e.height_pos
    refine (ih (e := e) hscalar hparts.1 hroom hm rfl).bind fun v m1 hm1 => ?_
    rw [Expr.height] at hroom
    rw [List.length_append, ← Nat.add_assoc]
    rcases ht with rfl | rfl
    · obtain ⟨n, rfl⟩ := Scalar.eq_int hm1.1
      exact .of_step (hm1.2.neg henc hparts.2.one (by omega)) fun m2 hm2 => .refl ⟨rfl, hm2⟩
    · cases v <;> cases hm1.1
  | @not _ e _ _ _ ih =>
    cases hwork
    have hparts := hcode.append
    have hpos := e.height_pos
    refine (ih (e := e) hscalar hparts.1 hroom hm rfl).bind fun v m1 hm1 => ?_
    rw [Expr.height] at hroom
    rw [List.length_append, ← Nat.add_assoc]
    obtain ⟨c, rfl⟩ := Scalar.eq_bool hm1.1
    exact .of_step (hm1.2.not henc hparts.2.one (by omega)) fun m2 hm2 => .refl ⟨rfl, hm2⟩
  | @shortcut _ op left right trigger short b cl cr other stop hop _ _ hother hstop ihl ihr =>
    cases hwork
    obtain ⟨hleft, hright⟩ := Bool.and_eq_true_iff.mp hscalar
    obtain ⟨hcl, htail⟩ := hcode.append
    obtain ⟨hjump, htail⟩ := htail.cons
    obtain ⟨hcr, htail⟩ := htail.append
    have hpos := left.height_pos
    rw [Expr.height] at hroom
    have hend : stop = b + (cl ++ .jump trigger other.toUInt32 ::
      (cr ++ [.jump trigger other.toUInt32,
        boolByte !short, .jump .always stop.toUInt32, boolByte short])).length := by
      simp only [List.length_append, List.length_cons, List.length_nil]
      omega
    rw [Expr.eval_shortcut S hop, ← hend]
    refine .shortcut henc hop hother hstop hjump htail (by omega)
      (ihl (e := left) hleft hcl (by omega) hm rfl).truth fun m' hm' => ?_
    exact (ihr (e := right) hright hcr (by omega) hm' rfl).truth
  | @binary _ op left right _ _ _ _ cl cr hop _ _ hi ihl ihr =>
    cases hwork
    obtain ⟨hleft, hright⟩ := Bool.and_eq_true_iff.mp hscalar
    obtain ⟨hcl, htail⟩ := hcode.append
    obtain ⟨hcr, htail⟩ := htail.append
    have hpos := left.height_pos
    rw [Expr.height] at hroom
    rw [Expr.eval_binary S hop]
    refine (ihl (e := left) hleft hcl (by omega) hm rfl).bind fun x m1 hm1 => ?_
    have hroom1 : (x.value :: vs).length + right.height ≤ env.limits.stack := by
      rw [List.length_cons]
      omega
    refine (ihr (e := right) hright hcr hroom1 hm1.2 rfl).bind fun y m2 hm2 => ?_
    refine (hm2.2.operator henc hm1.1 hm2.1 hi htail.one (by omega)).mono fun z m3 hm3 =>
      ⟨hm3.1, ?_⟩
    exact hm3.2.at_index (by simp only [List.length_append, List.length_singleton]; omega)
  | @cast _ term e _ _ _ _ hterm _ _ ih =>
    cases hwork
    obtain ⟨hscalar, he⟩ := Bool.and_eq_true_iff.mp hscalar
    obtain ⟨t, ht⟩ := Option.isSome_iff_exists.mp hscalar
    obtain ⟨hce, hconvert⟩ := hcode.append
    rw [hH.top, hH.types.meaning_scalar ht] at hterm
    cases hterm
    rw [Expr.height] at hroom
    rw [Expr.eval, ht]
    refine (ih (e := e) he hce (by omega) hm rfl).bind fun v m1 hm1 => ?_
    obtain ⟨rfl, hm1⟩ := hm1
    rw [List.length_append, ← Nat.add_assoc]
    exact hm1.cast henc hconvert (by omega)
  | _ =>
    cases hwork
    all_goals cases hscalar

end

end Bytescript
