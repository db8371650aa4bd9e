import Bytescript.Proofs.Machine.Typing

/-!
# Runs keep to static types

All along a run of the top-level code, values are of their static types: the declared type for a
variable, the type of the member for a member of an object, the element type of the array for an
element. No step fails because a value is of another type.

Slots of the heap tell their entries apart by a generation of 32 bits. A reference is taken for
another one after it has come around, so this is about runs with fewer deletions than that.
-/

namespace Bytescript

open TypeTable (primitives)
open Lower (ClassInfo)

/-! ## Natives -/

section

variable {T : Tables} {n : Native} {t : TypeId}

/-- A native that answers values of a primitive type. -/
theorem Native.Typed.of_result (hT : T.types.Sound) (ht : t.index < 5)
    (hname : n.signature.result = primitives.name t)
    (hrun : ∀ τ k w args v w', w.heap.HasTypes T τ k → k < 2 ^ 32 → n.run args w = (.ok v, w') →
      ∃ τ', τ.Le τ' ∧ w'.heap.HasTypes T τ' k ∧ v.HasType τ' t) : n.Typed T := by
  intro params result _ hresult τ k w args v w' hh hk _ hv
  rw [hname, hT.lookup_primitive ht] at hresult
  cases hresult
  exact hrun τ k w args v w' hh hk hv

theorem Native.Typed.of_printing (hT : T.types.Sound) (hname : n.signature.result = "void")
    (hrun : ∀ args w, ∃ text, n.run args w = printing text w) : n.Typed T := by
  refine .of_result (t := .void) hT (by decide) hname fun τ k w args v w' hh _ hv => ?_
  obtain ⟨text, htext⟩ := hrun args w
  rw [htext] at hv
  cases text with
  | error e => cases hv
  | ok line =>
    cases hv
    exact ⟨τ, .refl τ, hh, by rfl⟩

theorem Native.builtins_typed (hT : T.types.Sound) : ∀ n ∈ Native.builtins, n.Typed T := by
  intro n hn
  simp only [Native.builtins, List.mem_toArray, List.mem_cons, List.not_mem_nil, or_false] at hn
  rcases hn with rfl | rfl | rfl | rfl | rfl
  · exact .of_printing hT rfl fun _ _ => ⟨_, rfl⟩
  · exact .of_printing hT rfl fun _ _ => ⟨_, rfl⟩
  · exact .of_printing hT rfl fun _ _ => ⟨_, rfl⟩
  · refine .of_result (t := .string) hT (by decide) rfl fun τ k w args v w' hh hk hv => ?_
    simp only [Native.intToString] at hv
    split at hv
    · cases hv
    next number _ =>
      have hheap := w.allocate_heap (.string (toString number.toInt))
      split at hv
      next id w1 hallocate =>
        cases hv
        rw [hallocate] at hheap
        obtain ⟨hle, hh'⟩ := hh.insert hk hheap.symm (t := .string) (by rfl)
        exact ⟨_, hle, hh', rfl, Function.update_self ..⟩
      · cases hv
  · refine .of_result (t := .int) hT (by decide) rfl fun τ k w args v w' hh _ hv => ?_
    obtain ⟨hresult, rfl⟩ := Prod.mk.inj hv
    cases htext : Native.stringArg args w.heap 0 with
    | error e =>
      rw [htext] at hresult
      cases hresult
    | ok text =>
      rw [htext] at hresult
      cases hresult
      exact ⟨τ, .refl τ, hh, .int⟩

end

/-- A compiled script that has been loaded with natives that are known. -/
theorem Image.Compiled.setting_types {items : List Stmt} {T : Tables} {image : Image}
    {env : Setting}
    (h : image.Compiled items T) (hplain : PlainNames items) (hnames : (simpleNames items).Nodup)
    (henv : env.Links T) (hprogram : env.program = .load image)
    (hnatives : ∀ n ∈ env.natives, n ∈ Native.builtins) : env.Types T where
  toLinks := henv
  fields cls info shape hinfo hshape := by
    obtain ⟨⟨name, body, hclass⟩, -, -⟩ := h.classes cls info hinfo
    obtain ⟨i, hi, hrealises⟩ := h.shape_resolved hplain hclass
    rw [hprogram, hi] at hshape
    cases hshape
    exact hrealises.kinds_eq
  members cls info name m t hinfo hmember := by
    obtain ⟨-, hnumbered, -⟩ := h.classes cls info hinfo
    exact hnumbered.memberTypes hmember
  classes cls info hinfo := ⟨h.class_ge hinfo, h.class_not_array hinfo⟩
  arrays t el hel := h.sound.element?_ge hel
  elements s term el array hterm harray := h.element?_eq hplain hnames hterm harray
  typed n hn := Native.builtins_typed h.sound n (hnatives n hn)

/-! ## Machines -/

/-- How many deletions the next instruction makes. -/
def Machine.deletesNext (m : Machine) : Nat :=
  match m.ahead with
  | .ok (i, _) => i.deletions
  | .error _ => 0

/-- How many deletions are executed in a number of steps. -/
def Machine.deletions (start : Machine) (env : Setting) : Nat → Nat
  | 0 => 0
  | n + 1 => start.deletions env n +
    match start.run env n with
    | (.paused, m) => m.deletesNext
    | _ => 0

section

variable {T : Tables} {P : Plan T True} {env : Setting} {τ τ' : HeapTypes} {k : Nat}
  {m m' : Machine}

/-- A machine all of whose values are of their static types, `k` deletions after its start. -/
structure Machine.Typed (P : Plan T True) (τ : HeapTypes) (k : Nat) (m : Machine) : Prop where
  fits : m.Fits P (Value.HasType τ) fun _ _ => Value.HasType τ
  heap : m.world.heap.HasTypes T τ k

theorem Carries.typed (hτ : τ.Le τ') : Carries T True m (Value.HasType τ) (Value.HasType τ')
    (fun _ _ => Value.HasType τ) fun _ _ => Value.HasType τ' where
  values _ _ hv := hv.mono hτ
  serves _ _ _ hserves hv := hv.serves hserves
  slots _ _ _ _ _ hv := hv.mono hτ
  loads hv := hv.mono hτ
  stores _ hv _ := hv.mono hτ
  enters hlive := absurd hlive (Locals.empty_not_live _)
  void := by rfl

variable {i : Instruction} {next : Nat} {w : World}

/-- The arguments of an instruction are of the types that it takes. -/
theorem Machine.Typed.args (hm : m.Typed P τ k) {ins st : List TypeId} {L : Nat → Prop}
    (hf : P.Fetches m ⟨ins ++ st, L⟩ i next w) {args rest : List Value}
    (hargs : m.frame.operands = args ++ rest) (hlen : args.length = ins.length) :
    List.Forall₂ (Value.HasType τ) ins args := by
  obtain ⟨p, hruns⟩ := hm.fits.runs
  obtain rfl := hruns.point.unique hf.point hruns.covered
  obtain ⟨args', rest', hsplit, hins, -⟩ := hruns.toFits.split
  obtain ⟨rfl, -⟩ := List.append_inj (hargs.symm.trans hsplit) (hlen.trans hins.length_eq)
  exact hins

theorem Plan.Fetches.deletesNext {p : Point} (hf : P.Fetches m p i next w)
    (hjump : i.jumpTarget? = none) : m.deletesNext = i.deletions := by
  rw [Machine.deletesNext, hf.decodes, Instruction.placed_of_not_jump hjump]

theorem Machine.Typed.step (hP : P.Serves env) (henv : env.Types T) (hm : m.Typed P τ k)
    (hk : k < 2 ^ 32)
    (hstep : Exec.step env m = .ok .next m') : ∃ τ', m'.Typed P τ' (k + m.deletesNext) := by
  have hdoes := step_does hP hm.fits
  rw [hstep] at hdoes
  cases hdoes with
  | plain hf htakes hcall hargs hlen hop hcount hnext =>
    have htyped := operate_typed henv htakes hcall (hf.heap ▸ hm.heap) hk (hm.args hf hargs hlen)
    rw [Operation.Ensures, hop] at htyped
    obtain ⟨τ', hle, hheap, hresults⟩ := htyped
    refine ⟨τ', (Carries.typed hle).computes hm.fits hf hargs hlen hnext fun _ => hresults, ?_⟩
    rw [hf.deletesNext htakes.not_jump]
    exact hheap
  | moves hmoves =>
    refine ⟨τ, (Carries.typed (.refl τ)).moves hm.fits hmoves, ?_⟩
    rw [hmoves.heap]
    exact hm.heap.mono (Nat.le_add_right _ _)

/-- What a step may fail with. -/
theorem Machine.Typed.error (hP : P.Serves env) (henv : env.Types T) (hm : m.Typed P τ k)
    (hk : k < 2 ^ 32)
    {e : RunError} (hstep : Exec.step env m = .error e m') : e.isTypeError = false ∧
    (e.isOutOfBounds = true →
      ∃ i next, m.ahead = .ok (i, next) ∧ i.isIndexing = true) := by
  have hdoes := step_does hP hm.fits
  rw [hstep] at hdoes
  cases hdoes with
  | @fails i ins outs st L args rest next _ w w' _ hf htakes hcall hargs hlen hop =>
    have htyped := operate_typed henv htakes hcall (hf.heap ▸ hm.heap) hk (hm.args hf hargs hlen)
    rw [Operation.Ensures, hop] at htyped
    refine ⟨htyped.typed, fun hbounds => ⟨i, next, ?_, htyped.inside hbounds⟩⟩
    rw [hf.decodes, Instruction.placed_of_not_jump htakes.not_jump]
  | @rejects i t st L v rest next w _ hf hargs hkind =>
    have hargs : List.Forall₂ (Value.HasType τ) [t] [v] := hm.args hf hargs rfl
    obtain _ | ⟨hv, -⟩ := hargs
    rw [hv.hasKind] at hkind
    cases hkind
  | full | deep | past => exact ⟨rfl, fun hbounds => absurd hbounds Bool.false_ne_true⟩

/-- All along a run, values are of their static types. -/
theorem Machine.Typed.run {start : Machine} (hP : P.Serves env) (henv : env.Types T)
    (hstart : start.Typed P τ 0) {n : Nat} (hrun : start.run env n = (.paused, m))
    (hdeletes : start.deletions env n < 2 ^ 32) : ∃ τ', m.Typed P τ' (start.deletions env n) := by
  induction n generalizing m with
  | zero =>
    cases hrun
    exact ⟨τ, hstart⟩
  | succ n ih =>
    obtain ⟨m1, hm1, hstep⟩ := run_paused hrun
    rw [deletions, hm1] at hdeletes ⊢
    have hlt : start.deletions env n < 2 ^ 32 := Nat.lt_of_le_of_lt (Nat.le_add_right _ _) hdeletes
    obtain ⟨τ1, htyped⟩ := ih hm1 hlt
    exact htyped.step hP henv hlt hstep

end

/-! ## Loads -/

/-- Instructions that load a value from a slot, a member or an element. -/
def Instruction.isLoad : Instruction → Bool
  | load _ _ | getField _ _ | getElement _ => true
  | _ => false

/-- The static type of what the next instruction loads: that of the slot, or that of the member or
the elements that the type of the reference on the stack has. -/
inductive Plan.Reads {T : Tables} (P : Plan T True) (image : Image) (m : Machine) : TypeId → Prop
  | slot {kind slot next t} :
    m.ahead = .ok (.load kind slot, next) →
    (P.slots m.frame.routine)[slot.toNat]? = some t → P.Reads image m t
  | member {kind i next c member st L} :
    m.ahead = .ok (.getField kind i, next) →
    P.At m.frame ⟨c.type :: st, L⟩ → c ∈ image.classes.values → c.members[i.toNat]? = some member →
    P.Reads image m member.type
  | element {kind next array el st L} :
    m.ahead = .ok (.getElement kind, next) →
    P.At m.frame ⟨.int :: array :: st, L⟩ → image.types.element? array = some el →
    P.Reads image m el

/-- What a value of a static type is like at run time. A reference may be to nothing at all, or to
an entry that has been deleted. -/
structure Value.Described (image : Image) (h : Heap) (t : TypeId) (v : Value) : Prop where
  int : t = .int → ∃ n, v = .int n
  bool : t = .bool → v = .int 0 ∨ v = .int 1
  double : t = .double → ∃ x, v = .float x
  string : t = .string → v = .void ∨
    ∃ id, v = .stringRef id ∧ ∀ p, h.find? id = some p → ∃ text, p = .string text
  object : ∀ c ∈ image.classes.values, c.type = t → v = .void ∨ ∃ id, v = .objectRef id ∧
    ∀ p, h.find? id = some p → ∃ fields, p = .object c.constant fields ∧
    fields.size = c.members.size
  array : ∀ el, image.types.element? t = some el → v = .void ∨
    ∃ id, v = .objectRef id ∧ ∀ p, h.find? id = some p → ∃ elements, p = .array elements

section

variable {items : List Stmt} {T : Tables} {image : Image} {P : Plan T True} {env : Setting}
  {τ : HeapTypes} {k : Nat} {m m' : Machine} {t : TypeId} {v : Value} {i : Instruction} {next : Nat}

/-- The image of a class, from either side. -/
theorem Image.Compiled.class_info (h : image.Compiled items T) {c : ClassImage}
    (hc : c ∈ image.classes.values) :
    ∃ info body, T.scopes.classInfo? c.type = some info ∧ c.Realises T T.scopes info body := by
  obtain ⟨key, hkey⟩ := mem_values.mp hc
  rcases h.images.built key c hkey with hempty | ⟨name, info, body, hclass, -, hreal⟩
  · simp at hempty
  · obtain ⟨_, _, hat⟩ := hclass.classAt
    exact ⟨info, body, hreal.type_eq ▸ hat.found, hreal⟩

theorem Value.HasType.described (h : image.Compiled items T) (hv : v.HasType τ t) {heap : Heap}
    (hheap : heap.HasTypes T τ k) : v.Described image heap t where
  int := by
    rintro rfl
    cases v <;> first | exact ⟨_, rfl⟩ | cases hv.hasKind
  bool := by
    rintro rfl
    obtain ⟨n, rfl⟩ : ∃ n, v = .int n := by cases v <;> first | exact ⟨_, rfl⟩ | cases hv.hasKind
    rcases hv with hint | ⟨-, rfl | rfl⟩
    · cases hint
    · exact .inl rfl
    · exact .inr rfl
  double := by
    rintro rfl
    cases v <;> first | exact ⟨_, rfl⟩ | cases hv.hasKind
  string := by
    rintro rfl
    refine hv.of_string.imp_right ?_
    rintro ⟨id, rfl, hid⟩
    refine ⟨id, rfl, fun p hp => ?_⟩
    have hpayload := hheap.entries id _ p hid hp
    cases p with
    | string text => exact ⟨text, rfl⟩
    | array elements =>
      obtain ⟨el, hel, -⟩ := hpayload
      exact absurd (h.sound.element?_ge hel) (by decide)
    | object layout fields =>
      obtain ⟨info, hinfo, -, -⟩ := hpayload
      exact absurd (h.class_ge hinfo) (by decide)
  object c hc ht := by
    obtain ⟨info, body, hinfo, hreal⟩ := h.class_info hc
    rw [ht] at hinfo
    refine (hv.of_reference (h.class_ge hinfo)).imp_right ?_
    rintro ⟨id, rfl, hid⟩
    refine ⟨id, rfl, fun p hp => ?_⟩
    have hpayload := hheap.entries id _ p hid hp
    cases p with
    | string text =>
      obtain rfl : t = .string := hpayload
      exact absurd (h.class_ge hinfo) (by decide)
    | array elements =>
      obtain ⟨el, hel, -⟩ := hpayload
      cases (h.class_not_array hinfo).symm.trans hel
    | object layout fields =>
      obtain ⟨info', hinfo', rfl, hfields⟩ := hpayload
      cases hinfo.symm.trans hinfo'
      refine ⟨fields, by rw [hreal.constant_eq], ?_⟩
      have hlen := hfields.length_eq
      rw [← hreal.memberTypes, List.length_map] at hlen
      exact hlen.symm
  array el hel := by
    rw [h.types_eq] at hel
    refine (hv.of_reference (h.sound.element?_ge hel)).imp_right ?_
    rintro ⟨id, rfl, hid⟩
    refine ⟨id, rfl, fun p hp => ?_⟩
    have hpayload := hheap.entries id _ p hid hp
    cases p with
    | string text =>
      obtain rfl : t = .string := hpayload
      exact absurd (h.sound.element?_ge hel) (by decide)
    | array elements => exact ⟨elements, rfl⟩
    | object layout fields =>
      obtain ⟨info, hinfo, -, -⟩ := hpayload
      cases (h.class_not_array hinfo).symm.trans hel

theorem Takes.of_isLoad {ins outs : List TypeId} (h : Takes T i ins outs)
    (hload : i.isLoad = true) :
    (∃ kind slot cls t info name, i = .getField kind slot ∧ ins = [cls] ∧ outs = [t] ∧
      T.scopes.classInfo? cls = some info ∧ T.HasMember info name slot t) ∨
    ∃ kind array el, i = .getElement kind ∧ ins = [.int, array] ∧ outs = [el] ∧
      T.types.element? array = some el := by
  cases h with
  | getField hinfo hmember => exact .inl ⟨_, _, _, _, _, _, rfl, rfl, rfl, hinfo, hmember⟩
  | getElement hel => exact .inr ⟨_, _, _, rfl, rfl, rfl, hel⟩
  | operation hop =>
    rcases operation?_cases hop with ⟨_, -, rfl, -⟩ | ⟨_, -, rfl, -⟩ | ⟨-, rfl, -⟩ <;> cases hload
  | call hcallee => cases hcallee <;> cases hload
  | _ => cases hload

theorem Plan.Moves.of_isLoad (h : P.Moves m m')
    (hi : m.ahead = .ok (i, next)) (hload : i.isLoad = true) :
    ∃ kind slot t v st L w, i = .load kind slot ∧ (P.slots m.frame.routine)[slot.toNat]? = some t ∧
      P.At m.frame ⟨st, L⟩ ∧ L slot.toNat ∧ m.frame.slots[slot.toNat]? = some v ∧
      m' = (m.fetched next w).put (v :: m.frame.operands) w := by
  have hother : ∀ {i' : Instruction} {p : Point} {next' : Nat} {w : World},
    P.Fetches m p i' next' w →
      i'.isLoad = false → False := by
    intro i' p next' w hf hfalse
    cases hi.symm.trans hf.decodes
    have hplaced : (i'.placed m.frame.routine.body.offsets).isLoad = i'.isLoad :=
      by cases i' <;> rfl
    cases hload.symm.trans (hplaced.trans hfalse)
  cases h with
  | load hf ht hlive hv _ =>
    cases hi.symm.trans hf.decodes
    exact ⟨_, _, _, _, _, _, _, rfl, ht, hf.point, hlive, hv, rfl⟩
  | store hf => exact (hother hf rfl).elim
  | @jump i' _ _ _ _ hf hjump => exact (hother hf (by cases i' <;> first | rfl | cases hjump)).elim
  | @branch i' _ _ _ _ _ _ _ hf hjump =>
    exact (hother hf (by cases i' <;> first | rfl | cases hjump)).elim
  | call hf => exact (hother hf rfl).elim
  | @ret i' _ _ _ _ _ _ hf hret => exact (hother hf (by cases i' <;> first | rfl | cases hret)).elim

/-! ### The types of loads -/

variable {kind : Kind} {slot : UInt16} {st : List TypeId} {L : Nat → Prop}

theorem Plan.reads_slot (hi : m.ahead = .ok (.load kind slot, next))
    (ht : (P.slots m.frame.routine)[slot.toNat]? = some t) (t' : TypeId) : P.Reads image m t' ↔
      t' = t := by
  refine ⟨fun hreads => ?_, ?_⟩
  · cases hreads with
    | slot hdecode ht' =>
      cases hi.symm.trans hdecode
      exact Option.some.inj (ht'.symm.trans ht)
    | member hdecode | element hdecode => cases hi.symm.trans hdecode
  · rintro rfl
    exact .slot hi ht

theorem Plan.reads_member (h : image.Compiled items T) (hplain : PlainNames items)
    (hcovers : P.Covers m.frame.routine) {cls : TypeId} {info : ClassInfo}
    (hi : m.ahead = .ok (.getField kind slot, next))
    (hat : P.At m.frame ⟨cls :: st, L⟩) (hinfo : T.scopes.classInfo? cls = some info)
    (ht : (T.memberTypes info)[slot.toNat]? = some t) (t' : TypeId) : P.Reads image m t' ↔
      t' = t := by
  have hmember : ∀ {c : ClassImage} {body : List Stmt}, c.Realises T T.scopes info body →
      (c.members[slot.toNat]?).map Member.type = some t := by
    intro c body hreal
    rw [← Array.getElem?_toList, ← List.getElem?_map, hreal.memberTypes]
    exact ht
  refine ⟨fun hreads => ?_, ?_⟩
  · cases hreads with
    | member hdecode hat' hc hmember' =>
      cases hi.symm.trans hdecode
      cases hat.unique hat' hcovers
      obtain ⟨info', body, hinfo', hreal⟩ := h.class_info hc
      cases hinfo.symm.trans hinfo'
      have htype := hmember hreal
      rw [hmember'] at htype
      exact Option.some.inj htype
    | slot hdecode | element hdecode => cases hi.symm.trans hdecode
  · rintro rfl
    obtain ⟨⟨name, body, hclass⟩, -, -⟩ := h.classes cls info hinfo
    obtain ⟨c, hc, hreal⟩ := h.realises hplain hclass
    obtain ⟨member, hmember', rfl⟩ := Option.map_eq_some_iff.mp (hmember hreal)
    obtain rfl : c.type = cls := hreal.type_eq.trans (ScopeTable.classInfo?_type hinfo)
    exact .member hi hat hc hmember'

theorem Plan.reads_element (h : image.Compiled items T) (hcovers : P.Covers m.frame.routine)
    {array : TypeId} (hi : m.ahead = .ok (.getElement kind, next))
    (hat : P.At m.frame ⟨.int :: array :: st, L⟩) (ht : T.types.element? array = some t)
    (t' : TypeId) : P.Reads image m t' ↔ t' = t := by
  rw [← h.types_eq] at ht
  refine ⟨fun hreads => ?_, ?_⟩
  · cases hreads with
    | element hdecode hat' ht' =>
      cases hat.unique hat' hcovers
      exact Option.some.inj (ht'.symm.trans ht)
    | slot hdecode | member hdecode => cases hi.symm.trans hdecode
  · rintro rfl
    exact .element hi hat ht

/-- What is loaded is of the one type that the load has. -/
theorem Machine.Typed.loads (hP : P.Serves env) (henv : env.Types T) (h : image.Compiled items T)
    (hplain : PlainNames items) (hm : m.Typed P τ k) (hk : k < 2 ^ 32)
    (hstep : Exec.step env m = .ok .next m')
    (hi : m.ahead = .ok (i, next)) (hload : i.isLoad = true) :
    ∃ t v rest, (∀ t', P.Reads image m t' ↔ t' = t) ∧ m'.frame.operands = v :: rest ∧
      v.Described image m'.world.heap t := by
  obtain ⟨p, hruns⟩ := hm.fits.runs
  have hdoes := step_does hP hm.fits
  rw [hstep] at hdoes
  cases hdoes with
  | plain hf htakes hcall hargs hlen hop hcount hnext =>
    have hdecodes := hf.decodes
    rw [Instruction.placed_of_not_jump htakes.not_jump] at hdecodes
    cases hi.symm.trans hdecodes
    have htyped := operate_typed henv htakes hcall (hf.heap ▸ hm.heap) hk (hm.args hf hargs hlen)
    rw [Operation.Ensures, hop] at htyped
    obtain ⟨τ', -, hheap, hresults⟩ := htyped
    rcases htakes.of_isLoad hload with ⟨kind, slot, cls, t, info, name, rfl, rfl, rfl, hinfo,
      hmember⟩ | ⟨kind, array, el, rfl, rfl, rfl, hel⟩
    · obtain _ | ⟨hv, _ | _⟩ := hresults
      have ht := henv.members _ _ _ _ _ hinfo hmember
      exact ⟨t, _, _, Plan.reads_member h hplain hruns.covered hi hf.point hinfo ht,
        Machine.put_operands .., hv.described h hheap⟩
    · obtain _ | ⟨hv, _ | _⟩ := hresults
      exact ⟨el, _, _, Plan.reads_element h hruns.covered hi hf.point hel,
        Machine.put_operands .., hv.described h hheap⟩
  | moves hmoves =>
    obtain ⟨kind, slot, t, v, st, L, w, rfl, ht, hat, hlive, hv, rfl⟩ := hmoves.of_isLoad hi hload
    obtain rfl := hruns.point.unique hat hruns.covered
    refine ⟨t, v, _, Plan.reads_slot hi ht, Machine.put_operands .., ?_⟩
    rw [hmoves.heap]
    exact (hruns.slots _ t v ht hlive hv).described h hm.heap

end

/-- All along a run of the top-level code of a compiled script, static types describe values: those
of slots are the declared ones, and a step that loads a value from a slot, a member or an element
leaves one on the stack that is as its type says. No step fails because a value is of another type
than its static one, and only the index of an array can be out of bounds. -/
theorem compile_typed {items : List Stmt} {options : CompileOptions} {journal : Journal}
    {image : Image}
    (h : (Script.compile ⟨items⟩ options .primitives journal).1 = .ok image)
    (hplain : PlainNames items)
    (hscoped : scopedAll items = true) (hnames : (simpleNames items).Nodup) :
    ∃ (T : Tables) (P : Plan T True), image.Compiled items T ∧ P.CoversImage image ∧
    P.Declares items image ∧
      ∀ env : Setting, env.program = .load image →
      env.natives.toList.map Native.signature = options.natives →
        (∀ n ∈ env.natives, n ∈ Native.builtins) → ∀ (id : Nat) (w : World), w.heap.Sound →
        let start := (Context.forMain env.program id).start w
        ∀ n m, start.run env n = (.paused, m) → start.deletions env n < 2 ^ 32 →
          (∀ i next m', decodeAt m.frame.routine.body.bytes m.frame.pc = .ok (i, next) →
            i.isLoad = true →
            Exec.step env m = .ok .next m' → ∃ t v rest, (∀ t', P.Reads image m t' ↔ t' = t) ∧
              m'.frame.operands = v :: rest ∧ v.Described image m'.world.heap t) ∧
          ∀ e m', Exec.step env m = .error e m' → e.isTypeError = false ∧ (e.isOutOfBounds = true →
            ∃ i next, decodeAt m.frame.routine.body.bytes m.frame.pc = .ok (i, next) ∧
            i.isIndexing = true) := by
  obtain ⟨T, hT, hcompiled⟩ := compile_compiled h
  obtain ⟨P, hP, hdeclares⟩ : ∃ P : Plan T True, P.CoversImage image ∧ P.Declares items image :=
    hcompiled.planned_slots fun _ => hscoped
  refine ⟨T, P, hcompiled, hP, hdeclares, ?_⟩
  intro env hprogram hsignatures hnatives id w hsound start n m hrun hdeletes
  have hserves := hP.serves hcompiled hplain hprogram (hsignatures.trans hT.symm)
  have henv := hcompiled.setting_types hplain hnames hserves.toLinks hprogram hnatives
  have hstart : start.Typed P (fun _ => none) 0 := by
    obtain ⟨_, _, hruns, -⟩ := hcompiled.main
    have hheap : start.world.heap = w.heap := (World.note_alike _ _ _).heap
    refine ⟨?_, .empty (hheap ▸ hsound)⟩
    have hfits := hP.forMain_fits (V := Value.HasType fun _ => none)
      (S := fun _ _ => Value.HasType fun _ => none)
      (fun _ _ _ hserves hv => hv.serves hserves) (fun i _ hlive =>
        absurd hlive (Locals.empty_not_live i))
      id w hruns.params_eq
    rw [← hprogram] at hfits
    exact hfits
  obtain ⟨τ, htyped⟩ := hstart.run hserves henv hrun hdeletes
  refine ⟨fun i next m' hi hload hstep => ?_, fun e m' hstep => ?_⟩
  · exact htyped.loads hserves henv hcompiled hplain hdeletes hstep hi hload
  · exact htyped.error hserves henv hdeletes hstep

open Build in
/-- A reference outlives its object, and an array takes the object's place in the heap. -/
def recycling : List Stmt :=
  [classDecl "Node" [var "Node" "next" none], var "Node" "a" (some (newObject "Node")),
    var "Node" "b" (some (ident "a")), delete (ident "a"),
    varTyped (arrayOf "bool") "cells" (some (newArray "bool" (int 2))),
    expr (assign (ident "a") (ident "b"))]

/-- The reference is loaded as one to an object of its class, and what lies in the object's place is
not taken for it. -/
theorem compile_typed_recycling : ∃ image, (Script.compile ⟨recycling⟩).1 = .ok image ∧
    ∃ c ∈ image.classes.values, c.name = "Node" ∧ ∃ m m' rest,
      ((Context.forMain (.load image) 0).start {}).run (.ofImage image {}) 13 = (.paused, m) ∧
      Exec.step (.ofImage image {}) m = .ok .next m' ∧
      m'.frame.operands = .objectRef ⟨0, 0⟩ :: rest ∧
      m'.world.heap.find? ⟨0, 1⟩ = some (.array #[.int 0, .int 0]) ∧
      (Value.objectRef ⟨0, 0⟩).Described image m'.world.heap c.type := by
  have hok : ((Script.compile ⟨recycling⟩).1).toOption.any (fun image =>
      let start := (Context.forMain (.load image) 0).start {}
      let m := (start.run (.ofImage image {}) 13).2
      let after := start.run (.ofImage image {}) 14
      (m.callers.size = 0 ∧ start.deletions (.ofImage image {}) 13 = 1 ∧
        decodeAt m.frame.routine.body.bytes m.frame.pc = .ok (.load .ref 1, 20)) ∧
      (image.classes.values.any fun c =>
        c.name = "Node" ∧ image.types.meaning .top (.named "Node") = some c.type) ∧
      after.1 = .paused ∧ after.2.frame.operands = [.objectRef ⟨0, 0⟩] ∧
      after.2.world.heap.find? ⟨0, 1⟩ = some (.array #[.int 0, .int 0])) = true := by decide +kernel
  obtain ⟨image, himage, hok⟩ := exists_of_any hok
  obtain ⟨⟨hcallers, hdeletes, hdecode⟩, hclass, hpaused, hoperands, hheap⟩ := of_decide_eq_true hok
  obtain ⟨c, hc, hnamed⟩ := List.any_eq_true.mp hclass
  obtain ⟨hname, hmeaning⟩ := of_decide_eq_true hnamed
  obtain ⟨m, hm, hstep⟩ := Machine.run_paused (Prod.ext hpaused rfl)
  rw [hm] at hcallers hdecode
  obtain ⟨T, P, hcompiled, -, hdeclares, htyped⟩ :=
    compile_typed himage (by decide) (by decide) (by decide)
  -- the slot is that of the second declaration
  have hslot : (P.slots m.frame.routine)[(1 : UInt16).toNat]? = some c.type := by
    obtain ⟨ds, hslots, hds⟩ := hdeclares.main
    obtain ⟨_, _, hruns, -⟩ := hcompiled.main
    rw [Machine.run_outermost rfl hm (Array.eq_empty_of_size_eq_zero hcallers)]
    rw [show declaredTypes recycling = [.named "Node", .named "Node",
      Build.arrayOf "bool"] from rfl] at hds
    obtain _ | ⟨-, _ | ⟨hnode, -⟩⟩ := hds
    rw [← hcompiled.types_eq, hmeaning] at hnode
    show (P.slots image.main)[1]? = _
    rw [hslots, hruns.params_eq]
    exact hnode.symm
  obtain ⟨hloads, -⟩ := htyped (.ofImage image {}) rfl rfl
    (fun _ hmem => absurd hmem (Array.not_mem_empty _)) 0 {} (Heap.sound_empty {}) 13 m hm
    (hdeletes ▸ by decide)
  obtain ⟨t, v, rest, hreads, hloaded, hdescribed⟩ := hloads _ _ _ hdecode rfl hstep
  obtain ⟨rfl, -⟩ := List.cons.inj (hloaded.symm.trans hoperands)
  rw [← (hreads _).mp (.slot hdecode hslot)] at hdescribed
  exact ⟨image, himage, c, hc, hname, m, _, _, hm, hstep, hoperands, hheap, hdescribed⟩

end Bytescript
