import Bytescript.Proofs.Decoding
import Bytescript.Code.Layout

/-!
# Decoding undoes encoding

Encoding settles the form of every instruction, lays the instructions out one behind the other, and
writes their bytes. The forms are settled when a round changes none of them (`settle_stable`: each
round before that widens a jump, and there are enough rounds for every jump). From there on
everything is local: the offset of an instruction is the number of bytes before it
(`offsets_getElem?`), the bytes of an instruction read back as that instruction
(`decodeAt_bytesOf`), and so does the whole code (`encode_decodes`).
-/

namespace Bytescript

/-- The instruction as it is read back from bytes: the target of a jump is an offset. -/
def Instruction.placed (offsets : Array Nat) : Instruction → Instruction
  | .jump trigger target => .jump trigger (offsets.getD target.toNat 0).toUInt32
  | i => i

theorem Instruction.eq_jump_of_placed {i : Instruction} {trigger : Trigger} {target : UInt32}
    {offsets : Array Nat}
    (h : .jump trigger target = i.placed offsets) : ∃ target, i = .jump trigger target := by
  cases i <;> cases h
  exact ⟨_, rfl⟩

theorem Instruction.eq_of_placed {i j : Instruction} {offsets : Array Nat}
    (h : j = i.placed offsets) (hj : j.jumpTarget? = none) : i = j := by
  cases i <;> first | exact h.symm | (subst h; cases hj)

namespace Layout

/-! ## Rounds that succeed -/

variable {ε α β : Type} {code : Array Instruction} {ops : Array Opcode} {wide wide' : Array Bool}
  {offs : Array Nat} {k fuel j pc n a : Nat} {i : Instruction} {w isWide : Bool} {op : Opcode}
  {bytes : Array UInt8} {list : List UInt8} {marks : Array Mark} {body : Body}

theorem mapM_ok {f : α → Except ε β} {xs : List α} {ys : List β} (h : xs.mapM f = .ok ys) :
    ys.length = xs.length ∧ ∀ (i : Nat) x, xs[i]? = some x → ∃ y, ys[i]? = some y ∧
    f x = .ok y := by
  induction xs generalizing ys with
  | nil =>
    obtain rfl : [] = ys := Except.ok.inj h
    exact ⟨rfl, fun i x hx => by simp at hx⟩
  | cons a as ih =>
    rw [List.mapM_cons] at h
    cases ha : f a with
    | error e => rw [ha] at h; cases h
    | ok b =>
      rw [ha] at h
      cases has : as.mapM f with
      | error e =>
        simp only [has, bind, Except.bind] at h
        cases h
      | ok bs =>
        simp only [has, bind, Except.bind] at h
        obtain rfl : b :: bs = ys := Except.ok.inj h
        obtain ⟨hlen, hget⟩ := ih has
        refine ⟨by simp [hlen], fun i x hx => ?_⟩
        cases i with
        | zero =>
          obtain rfl : a = x := by simpa using hx
          exact ⟨b, rfl, ha⟩
        | succ i => simpa using hget i x (by simpa using hx)

theorem array_mapM_ok {f : α → Except ε β} {xs : Array α} {ys : Array β} (h : xs.mapM f = .ok ys) :
    ys.size = xs.size ∧ ∀ (i : Nat) x, xs[i]? = some x → ∃ y, ys[i]? = some y ∧ f x = .ok y := by
  have hl : xs.toList.mapM f = .ok ys.toList := by
    rw [← Array.toList_mapM, h]; rfl
  simpa using mapM_ok hl

/-- Every instruction has the opcode listed for it, and every jump aims at the code or its end. -/
theorem opcodes_ok (h : opcodes code = .ok ops) :
    ops.size = code.size ∧ ∀ (k : Nat) i, code[k]? = some i →
      i.opcode? = ops[k]? ∧ ∀ t, i.jumpTarget? = some t → t.toNat ≤ code.size := by
  obtain ⟨hsize, hget⟩ := array_mapM_ok h
  refine ⟨by simpa using hsize, fun k i hk => ?_⟩
  obtain ⟨op, hop, hat⟩ := hget k (i, k) (by simp [hk])
  simp only [opcodeAt] at hat
  cases hi : i.opcode? with
  | none => simp [hi] at hat
  | some op' =>
    simp only [hi] at hat
    cases ht : i.jumpTarget? with
    | none =>
      simp only [ht] at hat
      obtain rfl : op' = op := Except.ok.inj hat
      exact ⟨hop.symm, nofun⟩
    | some t =>
      simp only [ht] at hat
      split at hat
      · cases hat
      · obtain rfl : op' = op := Except.ok.inj hat
        refine ⟨hop.symm, fun t' h => ?_⟩
        cases h
        omega

/-- What a round does to the form of each instruction. -/
theorem round_ok (h : round code ops wide = .ok wide') (hlen : wide.size = code.size) :
    wide'.size = wide.size ∧ ∀ (k : Nat) i w, code[k]? = some i → wide[k]? = some w →
      ∃ w', wide'[k]? = some w' ∧ widen (offsets ops wide) k i w = .ok w' := by
  obtain ⟨hsize, hget⟩ := array_mapM_ok h
  refine ⟨by simpa [hlen] using hsize, fun k i w hi hw => ?_⟩
  exact hget k ((i, w), k) (by simp [hi, hw, Array.getElem?_zip_eq_some])

/-- A round never narrows, and it leaves alone all but jumps. -/
theorem widen_ok {w' : Bool} (h : widen offs k i w = .ok w') :
    (w = true → w' = true) ∧ (i.jumpTarget? = none → w' = w) := by
  unfold widen at h
  cases ht : i.jumpTarget? with
  | none =>
    simp only [ht] at h
    cases h
    exact ⟨id, fun _ => rfl⟩
  | some t =>
    simp only [ht] at h
    split at h
    · cases h
    · cases h
      exact ⟨fun hw => by simp [hw], nofun⟩

/-! ## Enough rounds -/

/-- How many jumps are still narrow. -/
def narrowJumps : List Instruction → List Bool → Nat
  | i :: code, w :: wide =>
    (if i.jumpTarget?.isSome && !w then 1 else 0) + narrowJumps code wide
  | _, _ => 0

/-- Widening reduces the narrow jumps, and strictly so unless nothing changes. -/
theorem narrowJumps_lt {code : List Instruction} {wide wide' : List Bool}
    (hlen : wide.length = code.length) (hlen' : wide'.length = code.length)
    (h : ∀ (k : Nat) i w w', code[k]? = some i → wide[k]? = some w → wide'[k]? = some w' →
      (w = true → w' = true) ∧ (i.jumpTarget? = none → w' = w)) :
    narrowJumps code wide' ≤ narrowJumps code wide ∧
      (wide' ≠ wide → narrowJumps code wide' < narrowJumps code wide) := by
  induction code generalizing wide wide' with
  | nil =>
    rw [List.length_nil, List.length_eq_zero_iff] at hlen hlen'
    subst hlen hlen'
    exact ⟨Nat.le_refl _, fun hne => absurd rfl hne⟩
  | cons i code ih =>
    obtain ⟨w, ws, rfl⟩ := List.exists_cons_of_length_eq_add_one hlen
    obtain ⟨w', ws', rfl⟩ := List.exists_cons_of_length_eq_add_one hlen'
    have hlen : ws.length = code.length := by simpa using hlen
    have hlen' : ws'.length = code.length := by simpa using hlen'
    obtain ⟨hle, hlt⟩ := ih hlen hlen' fun k => h (k + 1)
    obtain ⟨hkeep, hplain⟩ := h 0 i w w' rfl rfl rfl
    clear ih h
    simp only [narrowJumps, ne_eq, List.cons.injEq, not_and]
    cases hi : i.jumpTarget? with
    | none =>
      obtain rfl := hplain hi
      simpa using ⟨hle, hlt⟩
    | some t =>
      cases w <;> cases w' <;> simp at hkeep ⊢ <;> first | exact ⟨hle, hlt⟩ | omega

theorem narrowJumps_le (code : List Instruction) (wide : List Bool) (n : Nat) :
    n + narrowJumps code wide ≤
      code.foldl (fun n i => if i.jumpTarget?.isSome then n + 1 else n) n := by
  induction code generalizing wide n with
  | nil => simp [narrowJumps]
  | cons i code ih =>
    have hnil := ih [] (if i.jumpTarget?.isSome then n + 1 else n)
    cases wide with
    | nil =>
      by_cases hi : i.jumpTarget?.isSome = true <;>
        simp [narrowJumps, hi] at hnil ⊢ <;> omega
    | cons w ws =>
      have hcons := ih ws (if i.jumpTarget?.isSome then n + 1 else n)
      by_cases hi : i.jumpTarget?.isSome = true <;> cases w <;>
        simp [narrowJumps, hi] at hcons ⊢ <;> omega

/-- A round that changes anything widens a jump. -/
theorem round_narrowJumps_lt (h : round code ops wide = .ok wide') (hlen : wide.size = code.size)
    (hne : wide' ≠ wide) : narrowJumps code.toList wide'.toList <
      narrowJumps code.toList wide.toList := by
  obtain ⟨hsize, hround⟩ := round_ok h hlen
  have hstep : ∀ (k : Nat) i w w', code.toList[k]? = some i → wide.toList[k]? = some w →
      wide'.toList[k]? = some w' → (w = true → w' = true) ∧ (i.jumpTarget? = none → w' = w) := by
    intro k i w w' hi hw hw'
    simp only [Array.getElem?_toList] at hi hw hw'
    obtain ⟨w'', hw'', hwiden⟩ := hround k i w hi hw
    cases hw'.symm.trans hw''
    exact widen_ok hwiden
  exact (narrowJumps_lt (by simpa using hlen) (by simpa [hsize] using hlen) hstep).2
    fun heq => hne (Array.toList_inj.mp heq)

/-- There are no more narrow jumps than jumps. -/
theorem narrowJumps_le_jumpCount (code : Array Instruction) (wide : Array Bool) :
    narrowJumps code.toList wide.toList ≤ jumpCount code := by
  have := narrowJumps_le code.toList wide.toList 0
  rw [jumpCount, ← Array.foldl_toList]
  omega

/-- As long as there are more rounds than narrow jumps, the rounds end with forms that a further
round does not change. Only jumps have been widened on the way. -/
theorem settle_stable {out : Array Bool} (hlen : wide.size = code.size)
    (hfuel : narrowJumps code.toList wide.toList < fuel) (h : settle code ops fuel wide = .ok out) :
    round code ops out = .ok out ∧ out.size = code.size ∧
      ∀ (k : Nat) i, code[k]? = some i → i.jumpTarget? = none → out[k]? = wide[k]? := by
  induction fuel generalizing wide with
  | zero => omega
  | succ fuel ih =>
    simp only [settle] at h
    cases hr : round code ops wide with
    | error e => simp [hr] at h
    | ok wide' =>
      simp only [hr] at h
      obtain ⟨hsize, hround⟩ := round_ok hr hlen
      split at h
      next heq =>
        cases h
        exact ⟨by rw [hr, heq], hlen, fun _ _ _ _ => rfl⟩
      next hne =>
        have hlt := round_narrowJumps_lt hr hlen hne
        obtain ⟨hstable, hout, hplain⟩ := ih (hsize.trans hlen) (by omega) h
        refine ⟨hstable, hout, fun k i hi hnone => ?_⟩
        have hk : k < wide.size := hlen ▸ (getElem_of_getElem? hi).1
        obtain ⟨w', hw', hwiden⟩ := hround k i wide[k] hi (Array.getElem?_eq_getElem hk)
        rw [hplain k i hi hnone, hw', (widen_ok hwiden).2 hnone, Array.getElem?_eq_getElem hk]

/-- The final forms: everything fits the form it has, and only what has an index is wide. -/
theorem forms_ok (h : forms code ops = .ok wide) :
    wide.size = code.size ∧ ∀ (k : Nat) i w, code[k]? = some i → wide[k]? = some w →
      (∀ t, i.jumpTarget? = some t → (offsets ops wide).getD t.toNat 0 ≤ 65535 ∧
        (w = false → (offsets ops wide).getD t.toNat 0 ≤ 255)) ∧
      (i.jumpTarget? = none → w = i.index?.any (255 < ·)) := by
  obtain ⟨hstable, hsize, hplain⟩ :=
    settle_stable (by simp) (Nat.lt_succ_of_le (narrowJumps_le_jumpCount code _)) h
  refine ⟨hsize, fun k i w hi hw => ⟨fun t ht => ?_, fun hnone => ?_⟩⟩
  · obtain ⟨w', hw', hwiden⟩ := (round_ok hstable hsize).2 k i w hi hw
    cases hw.symm.trans hw'
    simp only [widen, ht] at hwiden
    split at hwiden
    · cases hwiden
    next hle =>
      refine ⟨by omega, fun hfalse => ?_⟩
      have := Except.ok.inj hwiden
      subst hfalse
      simpa using this
  · have := hplain k i hi hnone
    rw [hw, Array.getElem?_map, hi] at this
    simpa [startsWide, hnone] using this

/-! ## Offsets -/

/-- How many bytes each instruction takes. -/
def sizes (ops : Array Opcode) (wide : Array Bool) : List Nat :=
  (ops.zip wide).toList.map fun (op, isWide) => size op isWide

theorem getElem?_sizes (hop : ops[k]? = some op) (hwide : wide[k]? = some isWide) :
    (sizes ops wide)[k]? = some (size op isWide) := by
  have hzip : (ops.zip wide)[k]? = some (op, isWide) := by
    simp [Array.getElem?_zip_eq_some, hop, hwide]
  simp only [sizes, List.getElem?_map, Array.getElem?_toList, hzip, Option.map_some]

theorem foldl_offsets (steps : List (Opcode × Bool)) (before : Array Nat) (offset : Nat) :
    let f := fun (acc : Array Nat × Nat) (step : Opcode × Bool) =>
      (acc.1.push acc.2, acc.2 + size step.1 step.2)
    let ns := steps.map fun step => size step.1 step.2
    let r := steps.foldl f (before, offset)
    r.2 = offset + ns.sum ∧
      r.1.toList = before.toList ++ (List.range ns.length).map fun k =>
        offset + (ns.take k).sum := by
  induction steps generalizing before offset with
  | nil => simp
  | cons step steps ih =>
    obtain ⟨hoff, hbefore⟩ := ih (before.push offset) (offset + size step.1 step.2)
    simp only [List.foldl_cons, List.map_cons, List.sum_cons, List.length_cons,
      List.range_succ_eq_map] at hoff hbefore ⊢
    refine ⟨by omega, ?_⟩
    rw [hbefore]
    simp [Function.comp_def, Nat.add_assoc]

/-- There is an offset for every instruction and one for the end. -/
theorem offsets_size (ops : Array Opcode) (wide : Array Bool) :
    (offsets ops wide).size = (sizes ops wide).length + 1 := by
  have h := (foldl_offsets (ops.zip wide).toList #[] 0).2
  simp only [Array.foldl_toList] at h
  have hlen := congrArg List.length h
  simpa [offsets, sizes] using hlen

/-- The offset of an instruction is the number of bytes before it. -/
theorem offsets_getElem? (ops : Array Opcode) (wide : Array Bool)
    (hk : k ≤ (sizes ops wide).length) :
    (offsets ops wide)[k]? = some ((sizes ops wide).take k).sum := by
  obtain ⟨hoff, hbefore⟩ := foldl_offsets (ops.zip wide).toList #[] 0
  simp only [Array.foldl_toList, Nat.zero_add] at hoff hbefore
  have hlist : (offsets ops wide).toList =
      ((List.range (sizes ops wide).length).map fun k => ((sizes ops wide).take k).sum) ++
        [(sizes ops wide).sum] := by
    simp only [offsets, Array.toList_push, hbefore, hoff, sizes]
    rfl
  rw [← Array.getElem?_toList, hlist]
  by_cases hlt : k < (sizes ops wide).length
  · rw [List.getElem?_append_left (by simpa using hlt)]
    simp [hlt]
  · obtain rfl : k = (sizes ops wide).length := by omega
    simp

theorem size_pos (op : Opcode) (isWide : Bool) : 0 < size op isWide := by
  unfold size
  omega

/-- Every instruction takes at least one byte, so offsets increase. -/
theorem offsets_lt (ops : Array Opcode) (wide : Array Bool) (hjk : j < k)
    (hk : k ≤ (sizes ops wide).length) :
    ((sizes ops wide).take j).sum < ((sizes ops wide).take k).sum := by
  have hpos : ∀ n ∈ sizes ops wide, 0 < n := by
    intro n hn
    obtain ⟨⟨op, w⟩, -, rfl⟩ := List.mem_map.mp hn
    exact size_pos op w
  generalize sizes ops wide = ns at *
  induction ns generalizing j k with
  | nil => simp at hk; omega
  | cons n ns ih =>
    obtain ⟨k, rfl⟩ : ∃ k', k = k' + 1 := ⟨k - 1, by omega⟩
    have hn : 0 < n := hpos n (by simp)
    cases j with
    | zero => simp only [List.take_zero, List.sum_nil, List.take_succ_cons, List.sum_cons]; omega
    | succ j =>
      have := @ih k j (by omega) (by simpa using hk) fun m hm =>
        hpos m (.tail _ hm)
      simp only [List.take_succ_cons, List.sum_cons]
      omega

/-! ## Instructions -/

/-- The operand of an instruction that has an index. -/
def indexValue (offs : Array Nat) (i : Instruction) : Nat :=
  match i.jumpTarget? with
  | some target => offs.getD target.toNat 0
  | none => (i.index?.getD 0).toNat

/-- The index fits the form that the instruction takes, and without an index that is the narrow
one. -/
structure Fits (offs : Array Nat) (isWide : Bool) (i : Instruction) : Prop where
  short : indexValue offs i < 65536
  narrow : isWide = false → indexValue offs i ≤ 255
  plain : i.index? = none → isWide = false

theorem index?_lt {n : UInt32} (hjump : i.jumpTarget? = none) (h : i.index? = some n) :
    n.toNat < 65536 := by
  cases i <;> cases h <;>
    first | (rw [UInt16.toNat_toUInt32]; exact UInt16.toNat_lt _) | cases hjump

theorem Fits.of_forms
    (hjump : ∀ t, i.jumpTarget? = some t → offs.getD t.toNat 0 ≤ 65535 ∧
      (isWide = false → offs.getD t.toNat 0 ≤ 255))
    (hother : i.jumpTarget? = none → isWide = i.index?.any (255 < ·)) : Fits offs isWide i := by
  cases ht : i.jumpTarget? with
  | some t =>
    obtain ⟨hshort, hnarrow⟩ := hjump t ht
    refine ⟨by simp only [indexValue, ht]; omega, by simpa only [indexValue, ht] using hnarrow, ?_⟩
    intro hnone
    cases i <;> first | cases hnone; done | cases ht
  | none =>
    have hw := hother ht
    cases hi : i.index? with
    | none =>
      rw [hi] at hw
      exact ⟨by simp [indexValue, ht, hi], by simp [indexValue, ht, hi], fun _ => hw⟩
    | some n =>
      refine ⟨by simpa [indexValue, ht, hi] using index?_lt ht hi, fun hfalse => ?_, by simp [hi]⟩
      have : ¬ 255 < n := by simpa [hi, hfalse] using hw
      simpa [indexValue, ht, hi, UInt32.lt_iff_toNat_lt] using this

theorem littleEndian_indexBytes (hn : n < 65536) (hnarrow : isWide = false → n ≤ 255) :
    littleEndian (indexBytes isWide n) = n := by
  cases isWide with
  | true =>
    show n % 256 + 256 * (n / 256 % 256 + 256 * 0) = n
    omega
  | false =>
    show n % 256 + 256 * 0 = n
    have := hnarrow rfl
    omega

theorem indexBytes_length (isWide : Bool) (n : Nat) :
    (indexBytes isWide n).length = if isWide then 2 else 1 := by
  cases isWide <;> rfl

/-- An instruction has an operand as it is read back. -/
theorem operandBytes_operand (hop : i.opcode? = some op) (hfits : Fits offs isWide i) :
    Operand isWide (operandBytes offs isWide i) (i.placed offs) := by
  have hindex := littleEndian_indexBytes hfits.short hfits.narrow
  have hlength := indexBytes_length isWide (indexValue offs i)
  have hplain := hfits.plain
  have hshort := hfits.short
  cases i with
  | pushByte v =>
    obtain rfl := hplain rfl
    exact .byte (Decoding.toInt8_eq_iff.mp rfl)
  | pushShort v =>
    obtain rfl := hplain rfl
    have hv : littleEndian (indexBytes true _) = _ :=
      littleEndian_indexBytes v.toUInt16.toNat_lt nofun
    exact .short ((congrArg _ hv).trans (Decoding.toInt16_eq_iff.mp rfl))
  | jump trigger target =>
    exact .index rfl hlength
      (hindex.trans (Nat.mod_eq_of_lt (Nat.lt_trans hshort (by decide))).symm)
  | pushConst | load | store | getField | setField | call | callNative | newObject =>
    exact .index rfl hlength hindex
  | _ =>
    obtain rfl := hplain rfl
    exact .none rfl nofun nofun

/-- Every instruction takes as many bytes as its opcode and form say. -/
theorem bytesOf_length (hop : i.opcode? = some op) :
    (bytesOf offs op isWide i).length = size op isWide := by
  have hoperand : (operandBytes offs isWide i).length = op.operandBytes isWide := by
    cases i with
    | arith kind | neg kind => cases kind <;> cases hop <;> rfl
    | compare kind cmp => cases kind <;> cases cmp <;> cases hop <;> rfl
    | _ => cases hop; cases isWide <;> rfl
  simp only [bytesOf, List.length_append, List.length_cons, hoperand, size]
  cases isWide <;> simp <;> omega

/-- The bytes of an instruction read back as the instruction. -/
theorem decodeAt_bytesOf (hop : i.opcode? = some op) (hfits : Fits offs isWide i)
    (h : BytesAt bytes pc (bytesOf offs op isWide i)) :
    decodeAt bytes pc = .ok (i.placed offs, pc + size op isWide) := by
  have hplaced : (i.placed offs).opcode? = some op := by
    rw [← hop]
    cases i <;> rfl
  have hoperand := operandBytes_operand hop hfits
  refine decodeAt_eq_ok.mpr ⟨_, ?_, h, by rw [bytesOf_length hop]⟩
  cases isWide with
  | true => exact .wide hplaced hoperand
  | false => exact .narrow hplaced hoperand

/-! ## Whole code -/

/-- The instructions with their opcodes and forms. -/
def lined (code : Array Instruction) (ops : Array Opcode) (wide : Array Bool) :
    List ((Instruction × Opcode) × Bool) :=
  ((code.zip ops).zip wide).toList

theorem foldl_append_toList (f : α → List UInt8) (xs : List α) (bytes : Array UInt8) :
    (xs.foldl (fun (bytes : Array UInt8) x => bytes ++ f x) bytes).toList =
      bytes.toList ++ xs.flatMap f := by
  induction xs generalizing bytes with
  | nil => simp
  | cons x xs ih => simp [ih]

theorem flatMap_split (f : α → List UInt8) {xs : List α} {x : α} (h : xs[k]? = some x) :
    xs.flatMap f = (xs.take k).flatMap f ++ (f x ++ (xs.drop (k + 1)).flatMap f) := by
  obtain ⟨hk, rfl⟩ := getElem_of_getElem? h
  rw [← List.flatMap_cons, ← List.drop_eq_getElem_cons hk, ← List.flatMap_append,
    List.take_append_drop]

theorem bytesAt_of_append {before rest : List UInt8} (h : bytes.toList = before ++ (list ++ rest)) :
    BytesAt bytes before.length list := by
  refine BytesAt.iff_getElem?.mpr fun j b hj => ?_
  rw [← Array.getElem?_toList, h, List.getElem?_append_right (by omega), Nat.add_sub_cancel_left,
    List.getElem?_append_left (getElem_of_getElem? hj).1, hj]

/-- What a successful encoding consists of. -/
theorem encode_ok (h : encode code marks = .ok body) :
    ∃ ops wide, opcodes code = .ok ops ∧ forms code ops = .ok wide ∧
      body.offsets = offsets ops wide ∧ body.offsets.back?.getD 0 < UInt32.size ∧
      body.bytes.toList = (lined code ops wide).flatMap
        fun x => bytesOf body.offsets x.1.2 x.2 x.1.1 := by
  unfold encode at h
  cases hops : opcodes code with
  | error e => simp [hops, bind, Except.bind] at h
  | ok ops =>
    cases hforms : forms code ops with
    | error e => simp [hops, hforms, bind, Except.bind] at h
    | ok wide =>
      simp only [hops, hforms, bind, Except.bind] at h
      split at h
      · cases h
      next hsize =>
        cases h
        refine ⟨ops, wide, rfl, hforms, rfl, Nat.lt_of_not_le hsize, ?_⟩
        refine Eq.trans ?_ (foldl_append_toList _ (lined code ops wide) #[])
        rw [lined, Array.foldl_toList]

theorem getElem?_lined (hops : ops.size = code.size) (hwide : wide.size = code.size)
    (hi : code[k]? = some i) :
    ∃ op w, ops[k]? = some op ∧ wide[k]? = some w ∧
    (lined code ops wide)[k]? = some ((i, op), w) := by
  have hk : k < code.size := (getElem_of_getElem? hi).1
  have hop := Array.getElem?_eq_getElem (hops ▸ hk)
  have hw := Array.getElem?_eq_getElem (hwide ▸ hk)
  refine ⟨_, _, hop, hw, ?_⟩
  rw [lined, Array.getElem?_toList]
  simp [Array.getElem?_zip_eq_some, hi, hop, hw]

/-- The lined-up instructions have the sizes that offsets are counted in. -/
theorem map_length_lined (offs : Array Nat) (hops : opcodes code = .ok ops)
    (hwide : wide.size = code.size) :
    (lined code ops wide).map (fun x => (bytesOf offs x.1.2 x.2 x.1.1).length) =
      sizes ops wide := by
  obtain ⟨hsize, hop⟩ := opcodes_ok hops
  apply List.ext_getElem?
  intro k
  by_cases hk : k < code.size
  · have hi := Array.getElem?_eq_getElem hk
    obtain ⟨op, w, hopk, hw, hline⟩ := getElem?_lined hsize hwide hi
    have hlen : (bytesOf offs op w code[k]).length = size op w :=
      bytesOf_length ((hop k _ hi).1.trans hopk)
    simp only [List.getElem?_map, hline, getElem?_sizes hopk hw, Option.map_some, hlen]
  · simp [lined, sizes, hk, hsize, hwide]

/-- The bytes of the instructions before an index are as many as the offset of the index says. -/
theorem length_flatMap_lined (offs : Array Nat) (hops : opcodes code = .ok ops)
    (hwide : wide.size = code.size) (k : Nat) :
    (((lined code ops wide).take k).flatMap fun x => bytesOf offs x.1.2 x.2 x.1.1).length =
      ((sizes ops wide).take k).sum := by
  rw [List.length_flatMap, ← map_length_lined offs hops hwide, List.map_take]

/-- At the offset of an instruction stand its bytes. -/
theorem bytesAt_lined (hops : opcodes code = .ok ops) (hwide : wide.size = code.size)
    (hbytes : bytes.toList = (lined code ops wide).flatMap fun x => bytesOf offs x.1.2 x.2 x.1.1)
    (hline : (lined code ops wide)[k]? = some ((i, op), w)) :
    BytesAt bytes ((sizes ops wide).take k).sum (bytesOf offs op w i) := by
  rw [flatMap_split _ hline] at hbytes
  rw [← length_flatMap_lined offs hops hwide k]
  exact bytesAt_of_append hbytes

/-- What encoding promises: offsets that begin at zero, increase and end with the bytes, and at each
of them the instruction, with the offset of its target if it is a jump. -/
structure Encodes (code : Array Instruction) (body : Body) : Prop where
  size : body.offsets.size = code.size + 1
  zero : body.offsets[0]? = some 0
  lt : ∀ (j k a b : Nat), j < k → body.offsets[j]? = some a → body.offsets[k]? = some b → a < b
  last : body.offsets[code.size]? = some body.bytes.size
  short : body.bytes.size < UInt32.size
  decode : ∀ (k : Nat) i, code[k]? = some i → ∃ a b, body.offsets[k]? = some a ∧
    body.offsets[k + 1]? = some b ∧ decodeAt body.bytes a = .ok (i.placed body.offsets, b)
  target : ∀ (k : Nat) i t, code[k]? = some i → i.jumpTarget? = some t →
    (i.placed body.offsets).jumpTarget?.map UInt32.toNat = body.offsets[t.toNat]?

theorem encode_encodes (h : encode code marks = .ok body) : Encodes code body := by
  obtain ⟨ops, wide, hops, hforms, hoffs, hshort, hbytes⟩ := encode_ok h
  obtain ⟨hwide, hform⟩ := forms_ok hforms
  obtain ⟨hsize, hop⟩ := opcodes_ok hops
  have hlen : (sizes ops wide).length = code.size := by simp [sizes, hsize, hwide]
  have hget : ∀ k, k ≤ code.size → body.offsets[k]? = some ((sizes ops wide).take k).sum := by
    intro k hk
    rw [hoffs, offsets_getElem? ops wide (by omega)]
  have hbound : body.offsets.size = code.size + 1 := by rw [hoffs, offsets_size, hlen]
  have hlast : body.offsets[code.size]? = some body.bytes.size := by
    have := length_flatMap_lined body.offsets hops hwide (lined code ops wide).length
    rw [List.take_length, ← hbytes, Array.length_toList] at this
    rw [hget _ (Nat.le_refl _), this]
    simp [lined, hsize, hwide]
  refine ⟨hbound, by simpa using hget 0 (by omega), ?_, hlast, ?_, ?_, ?_⟩
  · intro j k a b hjk ha hb
    have hk : k < body.offsets.size := (getElem_of_getElem? hb).1
    rw [hget j (by omega)] at ha
    rw [hget k (by omega)] at hb
    cases ha
    cases hb
    exact offsets_lt ops wide hjk (by omega)
  · rw [Array.back?_eq_getElem?, hbound, Nat.add_sub_cancel, hlast] at hshort
    exact hshort
  · intro k i hi
    have hk : k < code.size := (getElem_of_getElem? hi).1
    obtain ⟨op, w, hopk, hw, hline⟩ := getElem?_lined hsize hwide hi
    have hfits := Fits.of_forms (hoffs ▸ (hform k i w hi hw).1) (hform k i w hi hw).2
    have hdecode := decodeAt_bytesOf ((hop k i hi).1.trans hopk) hfits
      (bytesAt_lined hops hwide hbytes hline)
    refine ⟨_, _, hget k (by omega), hget (k + 1) (by omega), ?_⟩
    rw [hdecode, List.take_add_one, getElem?_sizes hopk hw, List.sum_append]
    simp
  · intro k i t hi ht
    cases i <;> cases ht
    have htarget := (hop k _ hi).2 t rfl
    obtain ⟨op, w, hopk, hw, -⟩ := getElem?_lined hsize hwide hi
    have hreach := ((hform k _ w hi hw).1 t rfl).1
    rw [← hoffs] at hreach
    have hsome := hget t.toNat htarget
    rw [Array.getD_eq_getD_getElem?, hsome] at hreach
    simp only [Instruction.placed, Instruction.jumpTarget?, Array.getD_eq_getD_getElem?, hsome]
    simp only [Option.getD_some, Option.map_some, Nat.toUInt32_eq, UInt32.toNat_ofNat'] at hreach ⊢
    congr 1
    omega

/-- Each step of decoding reads one instruction more, up to the end of the code. -/
theorem Encodes.decodeItems (h : Encodes code body) (read : Array Decoded)
    (hpc : body.offsets[k]? = some pc) (hfuel : code.size ≤ k + fuel) :
    (decodeItems body.bytes fuel pc read).toList.map Decoded.item =
      read.toList.map Decoded.item ++
        (code.toList.drop k).map fun i => .ok (i.placed body.offsets) := by
  have hk : k < body.offsets.size := (getElem_of_getElem? hpc).1
  have hbound := h.size
  induction fuel generalizing k pc read with
  | zero =>
    rw [List.drop_eq_nil_of_le (by simp; omega)]
    simp [decodeItems]
  | succ fuel ih =>
    by_cases hend : k = code.size
    · subst hend
      cases hpc.symm.trans h.last
      simp [decodeItems]
    · have hlt : k < code.size := by omega
      obtain ⟨a, next, ha, hnext, hdecode⟩ := h.decode k _ (Array.getElem?_eq_getElem hlt)
      cases hpc.symm.trans ha
      have hin : pc < body.bytes.size := h.lt _ _ _ _ hlt hpc h.last
      have hread : Decoded.read body.bytes pc = ⟨pc, .ok (code[k].placed body.offsets), next⟩ := by
        simp [Decoded.read, hdecode]
      have hbefore : k < code.toList.length := by simpa using hlt
      rw [decodeItems, if_pos hin, hread,
        ih (read.push _) hnext (by omega) (by omega), List.drop_eq_getElem_cons hbefore]
      simp

/-- There are at least as many bytes as instructions. -/
theorem Encodes.size_le (h : Encodes code body) (hpc : body.offsets[k]? = some pc) : k ≤ pc := by
  induction k generalizing pc with
  | zero => omega
  | succ k ih =>
    have hk : k < body.offsets.size := by
      have := (getElem_of_getElem? hpc).1
      omega
    have hbefore := Array.getElem?_eq_getElem hk
    have := h.lt _ _ _ _ (Nat.lt_succ_self k) hbefore hpc
    have := ih hbefore
    omega

theorem Encodes.offset_le (h : Encodes code body) (hk : body.offsets[k]? = some a) :
    a ≤ body.bytes.size := by
  have hlt := (getElem_of_getElem? hk).1
  rw [h.size] at hlt
  rcases Nat.lt_or_eq_of_le (Nat.le_of_lt_succ hlt) with hlt | rfl
  · exact Nat.le_of_lt (h.lt _ _ _ _ hlt hk h.last)
  · exact Nat.le_of_eq (Option.some.inj (hk.symm.trans h.last))

theorem Encodes.offset_inj (h : Encodes code body) (hj : body.offsets[j]? = some a)
    (hk : body.offsets[k]? = some a) : j = k := by
  rcases Nat.lt_trichotomy j k with hlt | rfl | hlt
  · exact absurd (h.lt _ _ _ _ hlt hj hk) (Nat.lt_irrefl a)
  · rfl
  · exact absurd (h.lt _ _ _ _ hlt hk hj) (Nat.lt_irrefl a)

/-- At an offset stands an instruction, or the code ends there. -/
theorem Encodes.reads (h : Encodes code body) (hk : body.offsets[k]? = some a) :
    (∃ i next, code[k]? = some i ∧ body.offsets[k + 1]? = some next ∧ a < body.bytes.size ∧
      decodeAt body.bytes a = .ok (i.placed body.offsets, next)) ∨
    k = code.size ∧ a = body.bytes.size := by
  have hlt := (getElem_of_getElem? hk).1
  rw [h.size] at hlt
  rcases Nat.lt_or_eq_of_le (Nat.le_of_lt_succ hlt) with hlt | rfl
  · have hi := Array.getElem?_eq_getElem hlt
    obtain ⟨b, next, hb, hnext, hdecode⟩ := h.decode k _ hi
    cases hb.symm.trans hk
    exact .inl ⟨_, next, hi, hnext, h.lt _ _ _ _ hlt hk h.last, hdecode⟩
  · exact .inr ⟨rfl, Option.some.inj (hk.symm.trans h.last)⟩

/-- What is decoded at an offset within the code is the instruction that stands there. -/
theorem Encodes.reads_lt (h : Encodes code body) (hk : body.offsets[k]? = some a)
    (hin : a < body.bytes.size) {next : Nat} (hdecode : decodeAt body.bytes a = .ok (i, next)) :
    ∃ i0, code[k]? = some i0 ∧ body.offsets[k + 1]? = some next ∧ i = i0.placed body.offsets := by
  rcases h.reads hk with ⟨i0, _, hi0, hnext, -, hread⟩ | ⟨-, hend⟩
  · rw [hread] at hdecode
    cases hdecode
    exact ⟨i0, hi0, hnext, rfl⟩
  · exact absurd hin (Nat.not_lt.mpr (Nat.le_of_eq hend.symm))

end Layout

/-- **Decoding undoes encoding.** The offsets of encoded code begin at zero, increase strictly and
end with the bytes. At the offset of each instruction stands that instruction, up to the offset of
the next one, where a jump to an index has become a jump to the offset of that index. Decoding from
the beginning therefore reads the instructions of the code, one by one and without an error. -/
theorem encode_decodes {code : Array Instruction} {marks : Array Mark} {body : Body}
    (h : encode code marks = .ok body) :
    body.offsets.size = code.size + 1 ∧ body.offsets[0]? = some 0 ∧
      body.offsets.toList.Pairwise (· < ·) ∧ body.offsets.back? = some body.bytes.size ∧
      (∀ (k : Nat) i, code[k]? = some i → ∃ pc next, body.offsets[k]? = some pc ∧
        body.offsets[k + 1]? = some next ∧
        decodeAt body.bytes pc = .ok (i.placed body.offsets, next) ∧
        ∀ t, i.jumpTarget? = some t →
          (i.placed body.offsets).jumpTarget?.map UInt32.toNat = body.offsets[t.toNat]?) ∧
      (decodeFrom body.bytes 0).map Decoded.item =
        code.map fun i => .ok (i.placed body.offsets) := by
  have henc := Layout.encode_encodes h
  refine ⟨henc.size, henc.zero, ?_, ?_, ?_, ?_⟩
  · rw [List.pairwise_iff_getElem]
    intro j k hj hk hjk
    exact henc.lt j k _ _ hjk (by simp at hj ⊢) (by simp at hk ⊢)
  · rw [Array.back?_eq_getElem?, henc.size]
    exact henc.last
  · intro k i hi
    obtain ⟨pc, next, hpc, hnext, hdecode⟩ := henc.decode k i hi
    exact ⟨pc, next, hpc, hnext, hdecode, fun t ht => henc.target k i t hi ht⟩
  · apply Array.toList_inj.mp
    have hfuel : code.size ≤ 0 + body.bytes.size := by
      have := henc.size_le henc.last
      omega
    simpa [decodeFrom] using henc.decodeItems #[] henc.zero hfuel

theorem encode_decodes_loop :
    ∃ body, encode #[.pushByte 1, .jump .ifTrue 3, .pushConst 300, .jump .always 0, .stop] #[] =
        .ok body ∧ body.offsets = #[0, 2, 4, 8, 10, 11] ∧
      (decodeFrom body.bytes 0).map Decoded.item = #[.ok (.pushByte 1), .ok (.jump .ifTrue 8),
        .ok (.pushConst 300), .ok (.jump .always 0), .ok .stop] := by
  have hoffs : (encode #[.pushByte 1, .jump .ifTrue 3, .pushConst 300, .jump .always 0, .stop]
      #[]).toOption.map Body.offsets = some #[0, 2, 4, 8, 10, 11] := by decide +kernel
  cases hok : encode #[.pushByte 1, .jump .ifTrue 3, .pushConst 300, .jump .always 0,
    .stop] #[] with
  | error e => rw [hok] at hoffs; cases hoffs
  | ok body =>
      rw [hok] at hoffs
      have hoffs : body.offsets = #[0, 2, 4, 8, 10, 11] := Option.some.inj hoffs
      refine ⟨body, rfl, hoffs, ?_⟩
      rw [(encode_decodes hok).2.2.2.2.2, hoffs]
      simp [Instruction.placed]

end Bytescript
