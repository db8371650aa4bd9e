import Mathlib.Algebra.Group.Int.Defs
import Mathlib.Algebra.GroupWithZero.Nat
import Bytescript.Code.Decoding

/-!
# Decoding arbitrary bytes

Decoding reads exactly the bytes of an instruction: what it makes of them is determined by them
alone, and it makes an instruction of every sequence that has one of the forms of `Written`
(`decodeAt_eq_ok`). Where it fails, it has read at least one byte and none beyond the end
(`decodeAt_stops`), so that a walk through any bytes, which goes on behind each error, comes to
their end.
-/

namespace Bytescript

variable {bytes : Array UInt8} {pc next : Nat} {i : Instruction} {op : Opcode} {isWide : Bool}

/-! ## Written forms -/

/-- The number that bytes stand for, the lowest first. -/
def littleEndian : List UInt8 → Nat
  | [] => 0
  | b :: rest => b.toNat + 256 * littleEndian rest

theorem littleEndian_lt (list : List UInt8) : littleEndian list < 256 ^ list.length := by
  induction list with
  | nil => exact Nat.one_pos
  | cons b rest ih =>
    have hb := b.toNat_lt
    rw [littleEndian, List.length_cons, Nat.pow_succ]
    omega

/-- The operand of an instruction: none, an immediate in two's complement, or an index of one byte,
or of two if the instruction is wide. -/
inductive Operand : Bool → List UInt8 → Instruction → Prop
  | none {i : Instruction} : i.index? = none → (∀ n, i ≠ .pushByte n) → (∀ n, i ≠ .pushShort n) →
    Operand false [] i
  | byte {b n} : (littleEndian [b] : Int) = n.toInt % 2 ^ 8 → Operand false [b] (.pushByte n)
  | short {low high n} : (littleEndian [low, high] : Int) = n.toInt % 2 ^ 16 →
    Operand false [low, high] (.pushShort n)
  | index {isWide operand i n} : i.index? = some n →
    operand.length = (if isWide then 2 else 1) → littleEndian operand = n.toNat →
    Operand isWide operand i

/-- The bytes of an instruction: its opcode and its operand, and `wide` before them if it is wide.
-/
inductive Written (i : Instruction) : List UInt8 → Prop
  | narrow {op : Opcode} {operand : List UInt8} : i.opcode? = some op → Operand false operand i →
    Written i (op.toByte :: operand)
  | wide {op : Opcode} {operand : List UInt8} : i.opcode? = some op → Operand true operand i →
    Written i (Opcode.wide.toByte :: op.toByte :: operand)

/-- The bytes from an offset on begin with a list. -/
def BytesAt (bytes : Array UInt8) (pc : Nat) : List UInt8 → Prop
  | [] => True
  | b :: rest => bytes[pc]? = some b ∧ BytesAt bytes (pc + 1) rest

namespace BytesAt

variable {list : List UInt8}

theorem iff_getElem? : BytesAt bytes pc list ↔ ∀ (j : Nat) b, list[j]? = some b →
    bytes[pc + j]? = some b := by
  induction list generalizing pc with
  | nil => simp [BytesAt]
  | cons b rest ih =>
    rw [BytesAt, ih]
    constructor
    · rintro ⟨hb, hrest⟩ j c hc
      cases j with
      | zero => cases hc; exact hb
      | succ j => rw [Nat.add_comm j, ← Nat.add_assoc]; exact hrest j c hc
    · intro h
      refine ⟨h 0 b rfl, fun j c hc => ?_⟩
      rw [Nat.add_assoc, Nat.add_comm 1]
      exact h (j + 1) c hc

/-- The end of the list is not behind the end of the bytes. -/
theorem le_size (h : BytesAt bytes pc list) (hne : list ≠ []) : pc + list.length ≤ bytes.size := by
  have hpos := List.length_pos_iff.mpr hne
  have hlast := iff_getElem?.mp h _ _ (List.getElem?_eq_getElem (Nat.sub_one_lt_of_lt hpos))
  have hlt := (getElem_of_getElem? hlast).1
  omega

theorem append (h : BytesAt bytes pc list) (more : Array UInt8) :
    BytesAt (bytes ++ more) pc list := by
  rw [iff_getElem?] at h ⊢
  intro j b hb
  obtain ⟨hlt, rfl⟩ := getElem_of_getElem? (h j b hb)
  rw [Array.getElem?_append_left hlt, Array.getElem?_eq_getElem hlt]

theorem extract : BytesAt bytes pc (bytes.extract pc next).toList := by
  rw [iff_getElem?]
  intro j b hb
  rw [Array.getElem?_toList, Array.getElem?_extract] at hb
  split at hb
  · exact hb
  · cases hb

theorem extract_eq (h : BytesAt bytes pc list) (hne : list ≠ []) :
    (bytes.extract pc (pc + list.length)).toList = list := by
  have hle := h.le_size hne
  refine List.ext_getElem? fun j => ?_
  rw [Array.getElem?_toList, Array.getElem?_extract, Nat.min_eq_left hle, Nat.add_sub_cancel_left]
  split
  next hj => rw [iff_getElem?.mp h j _ (List.getElem?_eq_getElem hj), List.getElem?_eq_getElem hj]
  next hj => rw [List.getElem?_eq_none (Nat.le_of_not_lt hj)]

end BytesAt

/-! ## Reading -/

namespace Decoding

theorem bind_eq_ok {ε α β : Type} {x : Except ε α} {f : α → Except ε β} {b : β} :
    (x >>= f) = .ok b ↔ ∃ a, x = .ok a ∧ f a = .ok b := by
  cases x with
  | error e => exact ⟨nofun, fun ⟨_, h, _⟩ => nomatch h⟩
  | ok a =>
    refine ⟨fun h => ⟨a, rfl, h⟩, ?_⟩
    rintro ⟨_, h, hf⟩
    cases h
    exact hf

theorem readByte_eq_ok {b : UInt8} : readByte bytes pc = .ok b ↔ bytes[pc]? = some b := by
  unfold readByte
  cases bytes[pc]? with
  | none => exact ⟨nofun, nofun⟩
  | some c => exact ⟨fun h => by cases h; rfl, fun h => by cases h; rfl⟩

theorem ofByte?_eq_some {b : UInt8} : Opcode.ofByte? b = some op ↔ b = op.toByte := by
  refine ⟨fun h => ?_, fun h => h ▸ Opcode.ofByte?_toByte op⟩
  have hall : ∀ n : Fin Opcode.all.size, (Opcode.all[n]).toByte.toNat = n := by decide
  obtain ⟨hlt, hop⟩ := getElem_of_getElem? h
  have hb := hall ⟨b.toNat, hlt⟩
  rw [Fin.getElem_fin, hop] at hb
  exact (UInt8.toNat_inj.mp hb).symm

theorem readOpcode_eq_ok : readOpcode bytes pc = .ok op ↔ bytes[pc]? = some op.toByte := by
  refine bind_eq_ok.trans ⟨?_, fun h => ⟨_, readByte_eq_ok.mpr h, ?_⟩⟩
  · rintro ⟨b, hb, hop⟩
    split at hop
    next hbyte =>
      cases hop
      rw [readByte_eq_ok.mp hb, ofByte?_eq_some.mp hbyte]
    · cases hop
  · rw [ofByte?_eq_some.mpr rfl]
    rfl

theorem short_toNat (low high : UInt8) :
    (low.toUInt16 ||| (high.toUInt16 <<< 8)).toNat = littleEndian [low, high] := by
  have hlow := low.toNat_lt
  have hhigh := high.toNat_lt
  have hsmall : high.toNat <<< 8 < 65536 := by
    rw [Nat.shiftLeft_eq]
    omega
  rw [UInt16.toNat_or, UInt16.toNat_shiftLeft, UInt8.toNat_toUInt16, UInt8.toNat_toUInt16,
    show UInt16.toNat 8 % 16 = 8 from rfl, Nat.mod_eq_of_lt hsmall, Nat.or_comm,
    ← Nat.shiftLeft_add_eq_or_of_lt hlow, Nat.shiftLeft_eq, littleEndian, littleEndian,
      littleEndian]
  omega

theorem readShort_eq_ok {n : UInt16} : readShort bytes pc = .ok n ↔
    ∃ low high, BytesAt bytes pc [low, high] ∧ n.toNat = littleEndian [low, high] := by
  refine bind_eq_ok.trans ⟨?_, ?_⟩
  · rintro ⟨low, hlow, h⟩
    obtain ⟨high, hhigh, h⟩ := bind_eq_ok.mp h
    cases h
    exact ⟨low, high, ⟨readByte_eq_ok.mp hlow, readByte_eq_ok.mp hhigh, trivial⟩,
      short_toNat low high⟩
  · rintro ⟨low, high, ⟨hlow, hhigh, -⟩, hn⟩
    refine ⟨low, readByte_eq_ok.mpr hlow, bind_eq_ok.mpr ⟨high, readByte_eq_ok.mpr hhigh, ?_⟩⟩
    exact congrArg Except.ok (UInt16.toNat_inj.mp ((short_toNat low high).trans hn.symm))

theorem readIndex_eq_ok {index : UInt16} : readIndex bytes isWide pc = .ok index ↔
    ∃ operand, operand.length = (if isWide then 2 else 1) ∧ index.toNat = littleEndian operand ∧
      BytesAt bytes pc operand := by
  cases isWide with
  | true =>
    refine readShort_eq_ok.trans ⟨fun ⟨low, high, hat, hn⟩ => ⟨_, rfl, hn, hat⟩, ?_⟩
    rintro ⟨operand, hlength, hn, hat⟩
    match operand, hlength with
    | [low, high], _ => exact ⟨low, high, hat, hn⟩
  | false =>
    refine bind_eq_ok.trans ⟨?_, ?_⟩
    · rintro ⟨b, hb, h⟩
      cases h
      exact ⟨[b], rfl, UInt8.toNat_toUInt16 b, readByte_eq_ok.mp hb, trivial⟩
    · rintro ⟨operand, hlength, hn, hat⟩
      obtain ⟨b, rfl⟩ := List.length_eq_one_iff.mp hlength
      exact ⟨b, readByte_eq_ok.mpr hat.1, congrArg Except.ok (UInt16.toNat_inj.mp hn.symm)⟩

/-! ## Instructions -/

theorem plain?_eq_some : plain? op = some i ↔
    i.opcode? = some op ∧ i.index? = none ∧ (∀ n, i ≠ .pushByte n) ∧ ∀ n, i ≠ .pushShort n := by
  constructor
  · intro h
    cases op with
    | arith kind | neg kind | compare kind =>
      cases kind <;> cases h <;> exact ⟨rfl, rfl, nofun, nofun⟩
    | _ => cases h <;> exact ⟨rfl, rfl, nofun, nofun⟩
  · rintro ⟨hop, hindex, hbyte, hshort⟩
    cases i with
    | pushByte n => exact absurd rfl (hbyte n)
    | pushShort n => exact absurd rfl (hshort n)
    | arith kind | neg kind => cases kind <;> cases hop <;> rfl
    | compare kind cmp => cases kind <;> cases cmp <;> cases hop <;> rfl
    | _ => first | (cases hop; rfl) | cases hindex

theorem indexed?_eq_some {index : UInt16} :
    indexed? index op = some i ↔ i.opcode? = some op ∧ i.index? = some index.toUInt32 := by
  constructor
  · intro h
    cases op <;> cases h <;> exact ⟨rfl, rfl⟩
  · rintro ⟨hop, hindex⟩
    cases i with
    | jump => cases hop; cases hindex; rfl
    | pushConst | load | store | getField | setField | call | callNative | newObject =>
      cases hop
      rw [UInt16.toUInt32_inj.mp (Option.some.inj hindex)]
      rfl
    | _ => cases hindex

theorem ne_wide (h : i.opcode? = some op) : op ≠ .wide := by
  rintro rfl
  cases i with
  | arith kind | neg kind => cases kind <;> cases h
  | compare kind cmp => cases kind <;> cases cmp <;> cases h
  | _ => cases h

/-- What opcodes have an index. -/
theorem isScalable_iff (h : i.opcode? = some op) : op.isScalable = true ↔
    i.index?.isSome = true := by
  cases i with
  | arith kind | neg kind => cases kind <;> cases h <;> exact Iff.rfl
  | compare kind cmp => cases kind <;> cases cmp <;> cases h <;> exact Iff.rfl
  | _ => cases h; exact Iff.rfl

/-- Two's complement. -/
theorem toInt8_eq_iff {b : UInt8} {n : Int8} :
    b.toInt8 = n ↔ (b.toNat : Int) = n.toInt % 2 ^ 8 := by
  have hn : n.toInt % 2 ^ 8 = n.toUInt8.toNat := by
    rw [Int8.toInt, BitVec.toInt_eq_toNat_bmod]
    exact Int.bmod_emod.trans (Int.emod_eq_of_lt (Int.natCast_nonneg _)
      (Int.ofNat_lt.mpr n.toBitVec.isLt))
  rw [hn, Int.natCast_inj, UInt8.toNat_inj]
  exact ⟨fun h => h ▸ rfl, fun h => h ▸ rfl⟩

theorem toInt16_eq_iff {m : UInt16} {n : Int16} :
    m.toInt16 = n ↔ (m.toNat : Int) = n.toInt % 2 ^ 16 := by
  have hn : n.toInt % 2 ^ 16 = n.toUInt16.toNat := by
    rw [Int16.toInt, BitVec.toInt_eq_toNat_bmod]
    exact Int.bmod_emod.trans (Int.emod_eq_of_lt (Int.natCast_nonneg _)
      (Int.ofNat_lt.mpr n.toBitVec.isLt))
  rw [hn, Int.natCast_inj, UInt16.toNat_inj]
  exact ⟨fun h => h ▸ rfl, fun h => h ▸ rfl⟩

/-- What stands behind an opcode is read if and only if it is an operand of the instruction. -/
theorem withOperand_eq_ok (hwide : isWide = true → op.isScalable = true) :
    withOperand bytes op isWide pc = .ok (i, next) ↔ i.opcode? = some op ∧
      ∃ operand, Operand isWide operand i ∧ BytesAt bytes pc operand ∧
      next = pc + operand.length := by
  have hnarrow : op.isScalable = false → isWide = false := fun h => by
    cases isWide with
    | true => exact absurd (hwide rfl) (by rw [h]; exact Bool.false_ne_true)
    | false => rfl
  constructor
  · intro h
    unfold withOperand at h
    split at h
    · obtain rfl := hnarrow rfl
      obtain ⟨b, hb, h⟩ := bind_eq_ok.mp h
      cases h
      exact ⟨rfl, [b], .byte (toInt8_eq_iff.mp rfl), ⟨readByte_eq_ok.mp hb, trivial⟩, rfl⟩
    · obtain rfl := hnarrow rfl
      obtain ⟨n, hn, h⟩ := bind_eq_ok.mp h
      cases h
      obtain ⟨low, high, hat, hvalue⟩ := readShort_eq_ok.mp hn
      exact ⟨rfl, [low, high], .short (hvalue ▸ toInt16_eq_iff.mp rfl), hat, rfl⟩
    · split at h
      next hplain =>
        cases h
        obtain ⟨hopcode, hindex, hbyte, hshort⟩ := plain?_eq_some.mp hplain
        obtain rfl := hnarrow (Bool.eq_false_iff.mpr fun hscalable => by
          rw [isScalable_iff hopcode, hindex] at hscalable
          cases hscalable)
        exact ⟨hopcode, [], .none hindex hbyte hshort, trivial, rfl⟩
      · obtain ⟨index, hread, h⟩ := bind_eq_ok.mp h
        split at h
        next hindexed =>
          cases h
          obtain ⟨hopcode, hindex⟩ := indexed?_eq_some.mp hindexed
          obtain ⟨operand, hlength, hvalue, hat⟩ := readIndex_eq_ok.mp hread
          exact ⟨hopcode, operand, .index hindex hlength (hvalue ▸ UInt16.toNat_toUInt32 index),
            hat, by rw [hlength]⟩
        · cases h
  · rintro ⟨hopcode, operand, hoperand, hat, rfl⟩
    cases hoperand with
    | byte hn =>
      cases hopcode
      refine bind_eq_ok.mpr ⟨_, readByte_eq_ok.mpr hat.1, ?_⟩
      rw [toInt8_eq_iff.mpr hn]
      rfl
    | @short low high n hn =>
      cases hopcode
      have hread : readShort bytes pc = .ok _ :=
        readShort_eq_ok.mpr ⟨low, high, hat, short_toNat low high⟩
      refine bind_eq_ok.mpr ⟨_, hread, ?_⟩
      rw [toInt16_eq_iff.mpr ((congrArg _ (short_toNat low high)).trans hn)]
      rfl
    | none hindex hbyte hshort =>
      have hplain := plain?_eq_some.mpr ⟨hopcode, hindex, hbyte, hshort⟩
      unfold withOperand
      split
      · cases hplain
      · cases hplain
      · rw [hplain]
        rfl
    | @index _ _ _ n hindex hlength hvalue =>
      have hshort : n.toNat < 65536 := by
        have hlt := littleEndian_lt operand
        rw [hlength, hvalue] at hlt
        cases isWide <;> simp at hlt <;> omega
      have hn : n.toUInt16.toUInt32 = n := UInt32.toNat_inj.mp
        (by simpa using Nat.mod_eq_of_lt hshort)
      have hread : readIndex bytes isWide pc = .ok n.toUInt16 :=
        readIndex_eq_ok.mpr ⟨operand, hlength, by rw [hvalue, ← UInt16.toNat_toUInt32, hn], hat⟩
      have hindexed : indexed? n.toUInt16 op = some i :=
        indexed?_eq_some.mpr ⟨hopcode, hn.symm ▸ hindex⟩
      unfold withOperand
      split
      · cases hindexed
      · cases hindexed
      · split
        next hplain =>
          obtain ⟨hopcode', hindex', -⟩ := plain?_eq_some.mp hplain
          have hsome := (isScalable_iff hopcode').mp
            ((isScalable_iff hopcode).mpr (by rw [hindex]; rfl))
          rw [hindex'] at hsome
          cases hsome
        · refine bind_eq_ok.mpr ⟨_, hread, ?_⟩
          rw [hindexed, hlength]
          rfl

end Decoding

open Decoding

/-- Decoding reads the bytes of an instruction, if they stand there, and nothing else. -/
theorem decodeAt_eq_ok : decodeAt bytes pc = .ok (i, next) ↔
    ∃ form, Written i form ∧ BytesAt bytes pc form ∧ next = pc + form.length := by
  have hnarrow : ∀ {op : Opcode}, false = true → op.isScalable = true := nofun
  refine bind_eq_ok.trans ⟨?_, ?_⟩
  · rintro ⟨op, hop, h⟩
    have hat := readOpcode_eq_ok.mp hop
    split at h
    next hwide =>
      subst hwide
      obtain ⟨op, hop, h⟩ := bind_eq_ok.mp h
      split at h
      next hscalable =>
        obtain ⟨hopcode, operand, hoperand, hbytes, rfl⟩ :=
          (withOperand_eq_ok fun _ => hscalable).mp h
        exact ⟨_, .wide hopcode hoperand, ⟨hat, readOpcode_eq_ok.mp hop, hbytes⟩,
          Nat.add_right_comm ..⟩
      · cases h
    · obtain ⟨hopcode, operand, hoperand, hbytes, rfl⟩ := (withOperand_eq_ok hnarrow).mp h
      exact ⟨_, .narrow hopcode hoperand, ⟨hat, hbytes⟩, Nat.add_right_comm ..⟩
  · rintro ⟨form, hform, hat, rfl⟩
    cases hform with
    | @narrow op operand hopcode hoperand =>
      refine ⟨op, readOpcode_eq_ok.mpr hat.1, ?_⟩
      rw [if_neg (ne_wide hopcode)]
      exact (withOperand_eq_ok hnarrow).mpr ⟨hopcode, operand, hoperand, hat.2,
        Nat.add_right_comm _ operand.length 1⟩
    | @wide op operand hopcode hoperand =>
      have hscalable : op.isScalable = true := by
        cases hoperand with
        | index hindex => exact (isScalable_iff hopcode).mpr (by rw [hindex]; rfl)
      refine ⟨.wide, readOpcode_eq_ok.mpr hat.1, ?_⟩
      rw [if_pos rfl]
      refine bind_eq_ok.mpr ⟨op, readOpcode_eq_ok.mpr hat.2.1, ?_⟩
      rw [if_pos hscalable]
      exact (withOperand_eq_ok fun _ => hscalable).mpr
        ⟨hopcode, operand, hoperand, hat.2.2, Nat.add_right_comm _ operand.length 2⟩

theorem Written.ne_nil {form : List UInt8} (h : Written i form) : form ≠ [] := by
  cases h <;> exact List.cons_ne_nil _ _

theorem Written.opcode {form : List UInt8} (h : Written i form) : i.opcode?.isSome = true := by
  cases h with
  | narrow hop | wide hop => rw [hop]; rfl

theorem decodeAt_lt (h : decodeAt bytes pc = .ok (i, next)) : pc < next ∧ next ≤ bytes.size := by
  obtain ⟨form, hform, hat, rfl⟩ := decodeAt_eq_ok.mp h
  exact ⟨Nat.lt_add_of_pos_right (List.length_pos_iff.mpr hform.ne_nil), hat.le_size hform.ne_nil⟩

/-! ## Errors -/

/-- If reading fails, it has come to an offset at least, and not beyond the end of the bytes. -/
def Stops {α : Type} (bytes : Array UInt8) (pc : Nat) (x : Except DecodeError α) : Prop :=
  ∀ e, x = .error e → pc ≤ e.resume ∧ e.resume ≤ bytes.size

namespace Stops

variable {α β : Type} {x : Except DecodeError α} {f : α → Except DecodeError β}

theorem bind (hx : Stops bytes pc x) (hf : ∀ a, x = .ok a → Stops bytes pc (f a)) :
    Stops bytes pc (x >>= f) := by
  cases x with
  | error e => exact fun e' he => hx e' (by cases he; rfl)
  | ok a => exact hf a rfl

theorem mono (h : Stops bytes next x) (hle : pc ≤ next) : Stops bytes pc x :=
  fun e he => ⟨Nat.le_trans hle (h e he).1, (h e he).2⟩

theorem pure {a : α} : Stops bytes pc (Pure.pure a) := nofun

/-- Bytes are missing at the end only. -/
theorem readByte (h : pc ≤ bytes.size) : Stops bytes bytes.size (Decoding.readByte bytes pc) := by
  intro e he
  unfold Decoding.readByte at he
  split at he
  · cases he
  next hnone =>
    cases he
    exact ⟨Array.getElem?_eq_none_iff.mp hnone, h⟩

theorem lt_size {b : UInt8} (h : Decoding.readByte bytes pc = .ok b) : pc < bytes.size :=
  (getElem_of_getElem? (readByte_eq_ok.mp h)).1

theorem readOpcode (h : pc ≤ bytes.size) :
    Stops bytes (min (pc + 1) bytes.size) (Decoding.readOpcode bytes pc) := by
  refine bind ((readByte h).mono (Nat.min_le_right ..)) fun b hb e he => ?_
  split at he
  · cases he
  · cases he
    exact ⟨Nat.min_le_left .., lt_size hb⟩

theorem readShort (h : pc ≤ bytes.size) : Stops bytes bytes.size (Decoding.readShort bytes pc) :=
  bind (readByte h) fun _ hb => bind (readByte (lt_size hb)) fun _ _ => pure

theorem readIndex (h : pc ≤ bytes.size) :
    Stops bytes bytes.size (Decoding.readIndex bytes isWide pc) := by
  unfold Decoding.readIndex
  split
  · exact readShort h
  · exact bind (readByte h) fun _ _ => pure

theorem withOperand (h : pc ≤ bytes.size) (hop : op ≠ .wide) :
    Stops bytes bytes.size (Decoding.withOperand bytes op isWide pc) := by
  unfold Decoding.withOperand
  split
  · exact bind (readByte h) fun _ _ => pure
  · exact bind (readShort h) fun _ _ => pure
  · split
    · exact pure
    next hplain =>
      refine bind (readIndex h) fun index _ => ?_
      split
      · exact pure
      next hindexed =>
        cases op <;>
          first | exact absurd rfl hop | cases hplain; done | cases hindexed; done | contradiction

end Stops

/-- Where there are bytes, an error has read at least one of them. -/
theorem decodeAt_stops (h : pc < bytes.size) : Stops bytes (pc + 1) (decodeAt bytes pc) := by
  have hfirst := Stops.readOpcode (Nat.le_of_lt h)
  rw [Nat.min_eq_left h] at hfirst
  refine hfirst.bind fun op _ => ?_
  split
  · refine ((Stops.readOpcode h).mono (by omega)).bind fun op hop => ?_
    have hlt : pc + 1 < bytes.size := (getElem_of_getElem? (readOpcode_eq_ok.mp hop)).1
    split
    next hscalable =>
      refine (Stops.withOperand hlt ?_).mono h
      rintro rfl
      cases hscalable
    · intro e he
      cases he
      exact ⟨Nat.le_succ _, hlt⟩
  next hne => exact (Stops.withOperand h hne).mono h

/-! ## Walks -/

/-- An item is what decoding gives at its offset, and the walk goes on behind what has been read. -/
def Decoded.Stands (d : Decoded) (bytes : Array UInt8) : Prop :=
  decodeAt bytes d.offset = (·, d.next) <$> d.item ∧ ∀ e, d.item = .error e → d.next = e.resume

theorem Decoded.read_stands : (read bytes pc).Stands bytes := by
  unfold read
  split
  next h => exact ⟨h, nofun⟩
  next h => exact ⟨h, fun e he => by cases he; rfl⟩

theorem Decoded.read_offset : (read bytes pc).offset = pc := by
  unfold read
  split <;> rfl

/-- What stands at an offset ends behind it, be it an instruction or an error. -/
theorem Decoded.read_lt (h : pc < bytes.size) : pc < (read bytes pc).next ∧
    (read bytes pc).next ≤ bytes.size := by
  unfold read
  split
  next hread => exact decodeAt_lt hread
  next hread => exact decodeAt_stops h _ hread

/-- The items from an offset on, one behind the other up to the end of the bytes. -/
inductive Walk (bytes : Array UInt8) : Nat → List Decoded → Prop
  | done {pc : Nat} : bytes.size ≤ pc → Walk bytes pc []
  | item {pc rest} : pc < bytes.size → Walk bytes (Decoded.read bytes pc).next rest →
    Walk bytes pc (Decoded.read bytes pc :: rest)

namespace Walk

variable {items : List Decoded}

theorem length_le (h : Walk bytes pc items) : items.length ≤ bytes.size - pc := by
  induction h with
  | done => exact Nat.zero_le _
  | item hlt _ ih =>
    have hnext := Decoded.read_lt hlt
    rw [List.length_cons]
    omega

theorem progress (h : Walk bytes pc items) :
    ∀ d ∈ items, d.Stands bytes ∧ d.offset < d.next ∧ d.next ≤ bytes.size := by
  induction h with
  | done => exact nofun
  | item hlt _ ih =>
    rintro d (_ | ⟨_, hd⟩)
    · refine ⟨Decoded.read_stands, ?_⟩
      rw [Decoded.read_offset]
      exact Decoded.read_lt hlt
    · exact ih d hd

end Walk

/-- There is fuel enough, since every item takes a byte. -/
theorem decodeItems_walk {fuel : Nat} (hfuel : bytes.size ≤ pc + fuel) (before : Array Decoded) :
    ∃ items, Walk bytes pc items ∧ (decodeItems bytes fuel pc before).toList =
      before.toList ++ items := by
  induction fuel generalizing pc before with
  | zero => exact ⟨[], .done hfuel, by rw [decodeItems, List.append_nil]⟩
  | succ fuel ih =>
    rw [decodeItems]
    split
    next hlt =>
      have hnext := Decoded.read_lt hlt
      have hleft : bytes.size ≤ (Decoded.read bytes pc).next + fuel := by omega
      obtain ⟨items, hwalk, hitems⟩ := ih hleft (before.push (.read bytes pc))
      exact ⟨_, .item hlt hwalk, by rw [hitems]; simp⟩
    next hge => exact ⟨[], .done (Nat.le_of_not_lt hge), (List.append_nil _).symm⟩

theorem decodeFrom_walk (bytes : Array UInt8) (pc : Nat) :
    Walk bytes pc (decodeFrom bytes pc).toList := by
  obtain ⟨items, hwalk, hitems⟩ := decodeItems_walk (Nat.le_add_left bytes.size pc) #[]
  rw [decodeFrom, hitems]
  exact hwalk

/-- **Decoding is exact.** What decodes is an instruction in one of its written forms, whatever
stands behind it, and every written form decodes. A walk through any bytes has the items that
decoding gives where they begin; it moves on with every item, also behind errors, but not past the
end, so that it comes to the end within as many items as there are bytes. -/
theorem decode_exact (bytes : Array UInt8) :
    (∀ pc i next, decodeAt bytes pc = .ok (i, next) →
      pc < next ∧ next ≤ bytes.size ∧ i.opcode?.isSome = true ∧
      Written i (bytes.extract pc next).toList ∧
        ∀ more, decodeAt (bytes ++ more) pc = .ok (i, next)) ∧
    (∀ pc i next, next ≤ bytes.size → Written i (bytes.extract pc next).toList →
      decodeAt bytes pc = .ok (i, next)) ∧
    ∀ pc, Walk bytes pc (decodeFrom bytes pc).toList ∧
      (∀ d ∈ decodeFrom bytes pc, d.Stands bytes ∧ d.offset < d.next ∧ d.next ≤ bytes.size) ∧
      (decodeFrom bytes pc).size ≤ bytes.size - pc := by
  refine ⟨fun pc i next h => ?_, fun pc i next hnext h => ?_, fun pc => ?_⟩
  · obtain ⟨hlt, hle⟩ := decodeAt_lt h
    obtain ⟨form, hform, hat, rfl⟩ := decodeAt_eq_ok.mp h
    refine ⟨hlt, hle, hform.opcode, (hat.extract_eq hform.ne_nil).symm ▸ hform, fun more => ?_⟩
    exact decodeAt_eq_ok.mpr ⟨form, hform, hat.append more, rfl⟩
  · refine decodeAt_eq_ok.mpr ⟨_, h, .extract, ?_⟩
    have hpos := List.length_pos_iff.mpr h.ne_nil
    rw [Array.length_toList, Array.size_extract] at hpos ⊢
    omega
  · have hwalk := decodeFrom_walk bytes pc
    exact ⟨hwalk, fun d hd => hwalk.progress d (Array.mem_toList_iff.mpr hd), hwalk.length_le⟩

/-- Two prefixes, a byte that is no opcode, a wide load, and an opcode whose operand is missing. -/
example : (decodeFrom #[0, 0, 200, 0, 10, 1, 1, 5] 0).toList.map
    (fun d => (d.offset, d.item, d.next)) =
    [(0, .error (.misplacedWide 0 .wide), 2), (2, .error (.unknownOpcode 2 200), 3),
      (3, .ok (.load .int 257), 7), (7, .error (.truncated 8), 8)] := rfl

end Bytescript
