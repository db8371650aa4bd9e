import Bytescript.Proofs.Flow

/-!
# Flow through expressions

The code of an expression leaves one value of its type on the stack and what lay there before under
it, and the code of arguments leaves one value for each (`Computes.flows`).
-/

namespace Bytescript

open TypeTable (primitives)

/-- The variables that can be named have the types of their slots and are live; inside of a class,
one of them is the receiver. -/
structure Locals.Fits (Γ : Locals) (H : Home) (Δ : List TypeId) (L : Nat → Prop) : Prop where
  slot : ∀ name slot t, Γ name = some (slot, t) → Δ[slot.toNat]? = some t ∧ L slot.toNat
  self : ∀ cls, H.role.class? = some cls → ∃ slot, Γ "this" = some (slot, cls)

namespace Flows

variable {T : Tables} {H : Home} {Δ : List TypeId} {E : Annotation → Prop} {b : Nat} {Γ : Locals}
  {L : Nat → Prop} {st : List TypeId} {name : String} {slot : UInt16} {t : TypeId}

theorem named {kind : Kind} (hΓ : Γ.Fits H Δ L) (h : Γ name = some (slot, t))
    (hkind : kind ≠ .ref → kind = primitives.kindOf t) :
    Flows T H Δ E b [.load kind slot] ⟨st, L⟩ ⟨t :: st, L⟩ :=
  have ⟨ht, hlive⟩ := hΓ.slot name slot t h
  .load ht hlive hkind

theorem reference (hΓ : Γ.Fits H Δ L) (h : Γ name = some (slot, t)) :
    Flows T H Δ E b [.load .ref slot] ⟨st, L⟩ ⟨t :: st, L⟩ :=
  named hΓ h fun hne => absurd rfl hne

theorem self {cls self : TypeId} (hΓ : Γ.Fits H Δ L) (hcls : H.role.class? = some cls)
    (h : Γ "this" = some (slot, self)) : Flows T H Δ E b
    [.load .ref slot] ⟨st, L⟩ ⟨cls :: st, L⟩ := by
  obtain ⟨slot', h'⟩ := hΓ.self cls hcls
  cases h.symm.trans h'
  exact reference hΓ h

/-- The second operand of a logical operator is computed only if it matters. -/
theorem shortcut {op : BinaryOp} {trigger : Trigger} {short : Bool} {cl cr : List Instruction}
    {other stop : Nat} (hop : Lower.shortcut? op = some (trigger, short))
    (hl : ∀ E : Annotation → Prop, Flows T H Δ E b cl ⟨st, L⟩ ⟨.bool :: st, L⟩)
    (hr : ∀ E : Annotation → Prop,
      Flows T H Δ E (b + cl.length + 1) cr ⟨st, L⟩ ⟨.bool :: st, L⟩)
    (hother : other = b + cl.length + 1 + cr.length + 3) (hstop : stop = other + 1) :
    Flows T H Δ E b (cl ++ .jump trigger other.toUInt32 :: (cr ++ [.jump trigger other.toUInt32,
      boolByte !short, .jump .always stop.toUInt32, boolByte short])) ⟨st, L⟩ ⟨.bool :: st, L⟩ := by
  have htrigger : trigger ≠ .always := by
    rintro rfl
    cases op <;> simp [Lower.shortcut?] at hop
  have hcode : cl ++ .jump trigger other.toUInt32 :: (cr ++ [.jump trigger other.toUInt32,
      boolByte !short, .jump .always stop.toUInt32, boolByte short]) =
      (cl ++ ([.jump trigger other.toUInt32] ++ (cr ++ ([.jump trigger other.toUInt32] ++
        ([boolByte !short] ++ [.jump .always stop.toUInt32]))))) ++ [boolByte short] := by simp
  rw [hcode]
  refine toEnd (append (q := ⟨st, L⟩) (toEnd ?_) (plain .pushBool))
  refine (hl _).append ((branch htrigger fun G hE => ?_).append ((hr _).append
    ((branch htrigger fun G hE => ?_).append ((plain .pushBool).append (jump fun G hE => ?_)))))
  · exact hE.2.at (by simp; omega)
  · exact hE.2.at (by simp; omega)
  · exact hE.1.2.at (by simp; omega)

end Flows

/-! ## Code on the stack -/

/-- Code that takes values off the stack and leaves others there. It reads variables and calls, but
stores nothing and jumps only forward. -/
inductive StackCode (T : Tables) (H : Home) (Γ : Locals) :
    Nat → List Instruction → List TypeId → List TypeId → Prop
  | skip {b ins outs} : List.Forall₂ TypeId.Serves ins outs →
    StackCode T H Γ b [] ins outs
  | plain {b i ins outs st} : Takes T i ins outs →
    StackCode T H Γ b [i] (ins ++ st) (outs ++ st)
  | named {b kind name slot t st} :
    Γ name = some (slot, t) → (kind ≠ .ref → kind = primitives.kindOf t) →
    StackCode T H Γ b [.load kind slot] st (t :: st)
  | self {b cls self slot st} : H.role.class? = some cls →
    Γ "this" = some (slot, self) → StackCode T H Γ b [.load .ref slot] st (cls :: st)
  | append {b c d ins mid outs} : StackCode T H Γ b c ins mid →
    StackCode T H Γ (b + c.length) d mid outs → StackCode T H Γ b (c ++ d) ins outs
  | shortcut {b other stop op trigger short cl cr st} :
    Lower.shortcut? op = some (trigger, short) → StackCode T H Γ b cl st (.bool :: st) →
    StackCode T H Γ (b + cl.length + 1) cr st (.bool :: st) →
    other = b + cl.length + 1 + cr.length + 3 → stop = other + 1 →
    StackCode T H Γ b (cl ++ .jump trigger other.toUInt32 :: (cr ++ [.jump trigger other.toUInt32,
      boolByte !short, .jump .always stop.toUInt32, boolByte short])) st (.bool :: st)

namespace StackCode

variable {T : Tables} {H : Home} {Γ : Locals} {b : Nat} {st : List TypeId} {found target : TypeId}

theorem flows {Δ : List TypeId} {L : Nat → Prop} {code : List Instruction} {ins outs : List TypeId}
    (h : StackCode T H Γ b code ins outs) (hΓ : Γ.Fits H Δ L) (E : Annotation → Prop) :
    Flows T H Δ E b code ⟨ins, L⟩ ⟨outs, L⟩ := by
  induction h generalizing E with
  | skip hserves => exact .nil ⟨hserves, fun _ => id⟩
  | plain htakes => exact .plain htakes
  | named hname hkind => exact .named hΓ hname hkind
  | self hcls hself => exact .self hΓ hcls hself
  | append _ _ ih ih' => exact (ih E).append (ih' E)
  | shortcut hop _ _ hother hstop ihl ihr => exact .shortcut hop ihl ihr hother hstop

theorem nil : StackCode T H Γ b [] st st := .skip (List.forall₂_same.mpr fun _ _ => .inl rfl)

/-- Values are converted in place. -/
theorem convert (h : (primitives.conversion found target).isSome = true) :
    StackCode T H Γ b (primitives.convert found target) (found :: st) (target :: st) := by
  have toFloat : ∀ {b : Nat} {t : TypeId}, primitives.kindOf t = .int →
      StackCode T H Γ b [.intToFloat] (t :: st) (.double :: st) := fun ht => plain (.intToFloat ht)
  have toInt : ∀ {b : Nat}, StackCode T H Γ b [.floatToInt] (.double :: st) (.int :: st) :=
    plain .floatToInt
  have toBool : ∀ {b : Nat}, StackCode T H Γ b [.pushByte 0, .compare .int .ne] (.int :: st)
      (.bool :: st) := fun {b} => by
    have hzero : StackCode T H Γ b [.pushByte 0] (.int :: st) (.int :: .int :: st) :=
      plain .pushByte
    have hne : primitives.operation? (.compare .ne) .int = some (.compare .int .ne, .bool) := by
      decide
    exact hzero.append (plain (.operation hne))
  rcases TypeTable.primitives_regular.conversion_isSome_iff.mp h with
    rfl | ⟨rfl | rfl | rfl, rfl | rfl | rfl⟩
  · exact Lower.convert_self found ▸ nil
  · exact nil
  · exact toFloat (by decide)
  · exact toBool
  · exact toInt
  · exact nil
  · exact toInt.append toBool
  · exact skip (.cons (.inr ⟨rfl, rfl⟩) (List.forall₂_same.mpr fun _ _ => .inl rfl))
  · exact toFloat (by decide)
  · exact nil

theorem assign (h : primitives.isAssignable found target = true) :
    StackCode T H Γ b (primitives.convert found target) (found :: st) (target :: st) := by
  refine convert ?_
  rw [TypeTable.isAssignable, decide_eq_true_eq] at h
  rw [h]
  rfl

/-- A method takes its arguments and, from under them, its receiver. -/
theorem callOn {i : Instruction} {cls result : TypeId} {params : List TypeId}
    (h : Callee T i (cls :: params) result) :
    StackCode T H Γ b [i] (params.reverse ++ cls :: st) (result :: st) := by
  have hcall := Takes.call h
  rw [List.reverse_cons] at hcall
  have hcode : StackCode T H Γ b [i] (params.reverse ++ [cls] ++ st) (result :: st) := plain hcall
  rwa [List.append_assoc] at hcode

end StackCode

/-- The types of what is left on the stack, the top first. -/
def Work.leaves : Work → List TypeId
  | .expr _ type => [type]
  | .args _ _ types => types.reverse

section

variable {T : Tables} {H : Home} {Γ : Locals} {work : Work} {b : Nat} {code : List Instruction}

theorem Computes.stackCode (h : Computes T H Γ work b code) (st : List TypeId) :
    StackCode T H Γ b code st (work.leaves ++ st) := by
  induction h generalizing st with
  | @immediate _ v i b hi =>
    unfold Draft.immediate? at hi
    dsimp only at hi
    split at hi
    · cases hi
      exact .plain .pushByte
    · split at hi
      · cases hi
        exact .plain .pushShort
      · cases hi
  | integer hpool => exact .plain (.integer hpool)
  | float hpool => exact .plain (.float hpool)
  | string hpool => exact .plain (.string hpool)
  | bool => exact .plain .pushBool
  | named hname => exact .named hname fun _ => rfl
  | member _ hcls hinfo hmember hself =>
    exact (StackCode.self hcls hself).append (.plain (.getField hinfo hmember))
  | self _ hself => exact .named hself fun hne => absurd rfl hne
  | neg ht _ ih => exact (ih st).append (.plain (.neg ht))
  | not _ ih => exact (ih st).append (.plain .not)
  | shortcut hop _ _ hother hstop ihl ihr => exact .shortcut hop (ihl st) (ihr st) hother hstop
  | @binary _ _ _ _ t _ _ _ _ _ _ _ _ hi ihl ihr =>
    exact (ihl st).append ((ihr (t :: st)).append (.plain (.operation hi)))
  | call hsel _ ih => exact (ih st).append (.plain (.call hsel.function))
  | @callSelf _ _ _ cls _ _ _ _ _ _ _ _ hcls hinfo hsel hself _ ih =>
    exact (StackCode.self hcls hself).append ((ih (cls :: st)).append (.callOn (hsel.method hinfo)))
  | callNative _ _ hcallee _ ih => exact (ih st).append (.plain (.call hcallee))
  | @methodCall _ _ _ _ cls _ _ _ _ _ _ _ hinfo hsel _ ihr ih =>
    exact (ihr st).append ((ih (cls :: st)).append (.callOn (hsel.method hinfo)))
  | length _ hel ih => exact (ih st).append (.plain (.arrayLength hel))
  | property _ hinfo hmember ih => exact (ih st).append (.plain (.getField hinfo hmember))
  | newObject _ hinfo =>
    exact (StackCode.plain (.newObject hinfo)).append (.plain (.construct hinfo))
  | newArray hel _ _ hassign harray ih =>
    exact (ih st).append ((StackCode.assign hassign).append (.plain (.newArray hel harray)))
  | @index _ _ _ t _ _ _ _ _ _ hel _ hassign iha ihp =>
    exact (iha st).append ((ihp (t :: st)).append
      ((StackCode.assign hassign).append (.plain (.getElement hel))))
  | cast _ _ hconv ih => exact (ih st).append (.convert hconv)
  | nil => exact .nil
  | @cons _ _ _ type _ types _ _ _ _ hassign _ ihe ihs =>
    have hall := ((ihe st).append (StackCode.assign hassign)).append (ihs (type :: st))
    rw [Work.leaves, List.reverse_cons, List.append_assoc types.reverse]
    exact hall

theorem Computes.flows {Δ : List TypeId} {L : Nat → Prop} (h : Computes T H Γ work b code)
    (hΓ : Γ.Fits H Δ L) (E : Annotation → Prop) (st : List TypeId) :
    Flows T H Δ E b code ⟨st, L⟩ ⟨work.leaves ++ st, L⟩ := (h.stackCode st).flows hΓ E

end

end Bytescript
