import Mathlib.Algebra.Order.BigOperators.Group.List
import Mathlib.Algebra.Order.Ring.Nat
import Bytescript.Proofs.Encoding

/-!
# The forms that encoding settles on

There may be several choices of forms under which every jump fits: where code ends near the offset
255, widening a jump can move its own target out of the reach of one byte, so that both forms of it
are justified. Encoding finds the shortest of them all.

Rounds only ever widen what is wide in every consistent choice (`round_below`), since offsets grow
with the forms (`offsets_le`). What they end with is therefore below all of these choices
(`Rounds.minimal`), and an offset that is out of reach on the way is out of reach in each of them.
-/

namespace Bytescript

namespace Layout

/-! ## Choices of forms -/

/-- All but jumps have the form that their index needs, and narrow jumps aim at offsets of one
byte. -/
structure Consistent (code : Array Instruction) (ops : Array Opcode) (wide : Array Bool) :
    Prop where
  size : wide.size = code.size
  plain : ∀ (k : Nat) i, code[k]? = some i → i.jumpTarget? = none →
    (wide[k]? = some true ↔ ∃ n, i.index? = some n ∧ 255 < n.toNat)
  narrow : ∀ (k : Nat) i t, code[k]? = some i → i.jumpTarget? = some t → wide[k]? = some false →
    (offsets ops wide).getD t.toNat 0 ≤ 255

/-- Whatever is wide in the first choice is wide in the second. -/
def Below (wide wide' : Array Bool) : Prop :=
  ∀ k : Nat, wide[k]? = some true → wide'[k]? = some true

theorem size_le_size (op : Opcode) {w w' : Bool} (h : w = true → w' = true) :
    size op w ≤ size op w' := by
  cases w <;> cases w'
  · exact le_rfl
  · cases op <;> simp [size, Opcode.operandBytes, Opcode.isScalable]
  · cases h rfl
  · exact le_rfl

variable {wide : Array Bool} {code : Array Instruction} {ε α β : Type} {ops : Array Opcode}
  {e : EncodeError}

/-- Wider forms move everything further back. -/
theorem offsets_le (ops : Array Opcode) {wide' : Array Bool} (hsize : wide.size = wide'.size)
    (h : Below wide wide') (k : Nat) : (offsets ops wide).getD k 0 ≤
    (offsets ops wide').getD k 0 := by
  have hlen : (sizes ops wide).length = (sizes ops wide').length := by simp [sizes, hsize]
  by_cases hk : k ≤ (sizes ops wide).length
  · rw [Array.getD_eq_getD_getElem?, Array.getD_eq_getD_getElem?, offsets_getElem? ops wide hk,
      offsets_getElem? ops wide' (hlen ▸ hk), Option.getD_some, Option.getD_some]
    refine List.Forall₂.sum_le_sum (List.forall₂_take k (List.forall₂_iff_get.mpr ⟨hlen, ?_⟩))
    intro j hj hj'
    simp only [sizes, List.length_map, Array.length_toList, Array.size_zip] at hj hj'
    simp only [sizes, List.get_eq_getElem, List.getElem_map, Array.getElem_toList,
      Array.getElem_zip]
    refine size_le_size _ fun hw => ?_
    have hw' := h j (by rw [Array.getElem?_eq_getElem (by omega), hw])
    rw [Array.getElem?_eq_getElem (by omega)] at hw'
    exact Option.some.inj hw'
  · have hnone : ∀ w : Array Bool, (sizes ops w).length = (sizes ops wide).length →
        (offsets ops w)[k]? = none := fun w hw =>
      Array.getElem?_eq_none (by rw [offsets_size]; omega)
    rw [Array.getD_eq_getD_getElem?, Array.getD_eq_getD_getElem?, hnone _ rfl, hnone _ hlen.symm]

/-! ## Rounds -/

/-- The rounds that are made from some forms on, how many of them, and how they end. There is no
bound on their number here. -/
inductive Rounds (code : Array Instruction) (ops : Array Opcode) :
    Nat → Array Bool → Except EncodeError (Array Bool) → Prop where
  | fails {wide : Array Bool} {e : EncodeError} : round code ops wide = .error e →
      Rounds code ops 1 wide (.error e)
  | settles {wide : Array Bool} : round code ops wide = .ok wide → Rounds code ops 1 wide (.ok wide)
  | widens {n wide wide' r} :
      round code ops wide = .ok wide' → wide' ≠ wide → Rounds code ops n wide' r →
      Rounds code ops (n + 1) wide r

/-- Each round but the last widens a jump. -/
theorem settle_rounds (ops : Array Opcode) {fuel : Nat} (hlen : wide.size = code.size)
    (hfuel : narrowJumps code.toList wide.toList < fuel) :
    ∃ n ≤ narrowJumps code.toList wide.toList + 1,
      Rounds code ops n wide (settle code ops fuel wide) := by
  induction fuel generalizing wide with
  | zero => omega
  | succ fuel ih =>
    simp only [settle]
    cases hr : round code ops wide with
    | error e => exact ⟨1, by omega, .fails hr⟩
    | ok wide' =>
      by_cases heq : wide' = wide
      · subst heq
        simp only [↓reduceIte]
        exact ⟨1, by omega, .settles hr⟩
      · have hlt := round_narrowJumps_lt hr hlen heq
        obtain ⟨n, hn, hrounds⟩ := ih ((round_ok hr hlen).1.trans hlen) (by omega)
        simp only [heq, ↓reduceIte]
        exact ⟨n + 1, by omega, .widens hr heq hrounds⟩

theorem forms_rounds (code : Array Instruction) (ops : Array Opcode) :
    ∃ n ≤ jumpCount code + 1, Rounds code ops n (code.map startsWide) (forms code ops) := by
  have hle := narrowJumps_le_jumpCount code (code.map startsWide)
  obtain ⟨n, hn, hrounds⟩ := settle_rounds ops (by simp) (Nat.lt_succ_of_le hle)
  exact ⟨n, by omega, hrounds⟩

theorem mapM_error {f : α → Except ε β} {xs : List α} {e : ε} (h : xs.mapM f = .error e) :
    ∃ x ∈ xs, f x = .error e := by
  induction xs with
  | nil => cases h
  | cons a as ih =>
    rw [List.mapM_cons] at h
    cases ha : f a with
    | error e' =>
      simp only [ha, bind, Except.bind] at h
      cases h
      exact ⟨a, .head _, ha⟩
    | ok b =>
      cases has : as.mapM f with
      | error e' =>
        simp only [ha, has, bind, Except.bind] at h
        cases h
        obtain ⟨x, hx, hfx⟩ := ih has
        exact ⟨x, List.mem_cons_of_mem a hx, hfx⟩
      | ok bs => simp [ha, has, bind, Except.bind, pure, Except.pure] at h

theorem array_mapM_error {f : α → Except ε β} {xs : Array α} {e : ε} (h : xs.mapM f = .error e) :
    ∃ x ∈ xs, f x = .error e := by
  have hl : xs.toList.mapM f = .error e := by rw [← Array.toList_mapM, h]; rfl
  simpa using mapM_error hl

/-- The jump `i` at the index `k` aims beyond the reach of two bytes. -/
def OutOfReach (code : Array Instruction) (offsets : Array Nat) : Prop :=
  ∃ (k : Nat) (i : Instruction) (t : UInt32), code[k]? = some i ∧ i.jumpTarget? = some t ∧
    65535 < offsets.getD t.toNat 0

theorem round_error (h : round code ops wide = .error e) :
    OutOfReach code (offsets ops wide) ∧ ∃ index offset, e = .offsetOverflow index offset := by
  obtain ⟨⟨⟨i, w⟩, k⟩, hmem, hwiden⟩ := array_mapM_error h
  have hget : (code.zip wide)[k]? = some (i, w) :=
    by simpa [Array.mem_zipIdx_iff_getElem?] using hmem
  have hi : code[k]? = some i := (Array.getElem?_zip_eq_some.mp hget).1
  simp only [widen] at hwiden
  cases ht : i.jumpTarget? with
  | none => simp [ht] at hwiden
  | some t =>
    simp only [ht] at hwiden
    split at hwiden
    next hfar => exact ⟨⟨k, i, t, hi, ht, hfar⟩, _, _, (Except.error.inj hwiden).symm⟩
    · cases hwiden

/-! ## Below every consistent choice -/

section

variable {code : Array Instruction} {ops : Array Opcode} {wide w : Array Bool}

/-- The forms that rounds start with are below every consistent choice. -/
theorem Consistent.startsWide_below (hw : Consistent code ops w) :
    Below (code.map startsWide) w := by
  intro k hk
  rw [Array.getElem?_map, Option.map_eq_some_iff] at hk
  obtain ⟨i, hi, hstarts⟩ := hk
  simp only [startsWide, Bool.and_eq_true, Option.isNone_iff_eq_none] at hstarts
  obtain ⟨hnone, hany⟩ := hstarts
  refine (hw.plain k i hi hnone).mpr ?_
  cases hn : i.index? with
  | none => simp [hn] at hany
  | some n => exact ⟨n, rfl, by simpa [hn, UInt32.lt_iff_toNat_lt] using hany⟩

/-- A round widens only jumps that are wide in every consistent choice. -/
theorem round_below {wide' : Array Bool} (hr : round code ops wide = .ok wide')
    (hlen : wide.size = code.size) (hw : Consistent code ops w) (hbelow : Below wide w) :
    Below wide' w := by
  intro k hk
  obtain ⟨hsize, hround⟩ := round_ok hr hlen
  have hlt : k < code.size := by
    have := (getElem_of_getElem? hk).1
    omega
  have hi := Array.getElem?_eq_getElem hlt
  have hb := Array.getElem?_eq_getElem (hlen ▸ hlt)
  obtain ⟨b', hb', hwiden⟩ := hround k _ _ hi hb
  obtain rfl : true = b' := Option.some.inj (hk.symm.trans hb')
  simp only [widen] at hwiden
  cases ht : code[k].jumpTarget? with
  | none =>
    simp only [ht] at hwiden
    exact hbelow k (by rw [hb, Except.ok.inj hwiden])
  | some t =>
    simp only [ht] at hwiden
    split at hwiden
    · cases hwiden
    have hcause := Except.ok.inj hwiden
    rw [Bool.or_eq_true, decide_eq_true_eq] at hcause
    rcases hcause with hold | hfar
    · exact hbelow k (by rw [hb, hold])
    · -- the target is no nearer in the other choice, where the jump has to be wide then
      have hle := offsets_le ops (hlen.trans hw.size.symm) hbelow t.toNat
      have hkw : k < w.size := hw.size.symm ▸ hlt
      have hform := Array.getElem?_eq_getElem hkw
      cases hwk : w[k] with
      | true => rw [hform, hwk]
      | false =>
        have := hw.narrow k _ t hi ht (by rw [hform, hwk])
        omega

/-- However the rounds end, it is no worse than in any consistent choice. -/
theorem Rounds.minimal {n : Nat} {r : Except EncodeError (Array Bool)}
    (h : Rounds code ops n wide r)
    (hlen : wide.size = code.size) (hw : Consistent code ops w) (hbelow : Below wide w) :
    (∀ out, r = .ok out → Below out w) ∧
      ∀ e, r = .error e → OutOfReach code (offsets ops w) := by
  induction h with
  | fails hr =>
    refine ⟨nofun, fun _ _ => ?_⟩
    obtain ⟨⟨k, i, t, hi, ht, hfar⟩, -⟩ := round_error hr
    exact ⟨k, i, t, hi, ht, hfar.trans_le
      (offsets_le _ (hlen.trans hw.size.symm) hbelow t.toNat)⟩
  | settles _ => exact ⟨fun out heq => Except.ok.inj heq ▸ hbelow, nofun⟩
  | widens hr _ _ ih => exact ih ((round_ok hr hlen).1.trans hlen) (round_below hr hlen hw hbelow)

end

/-- The rounds fail for no other reason than a jump that is out of reach. -/
theorem Rounds.error {n : Nat} {r : Except EncodeError (Array Bool)} (h : Rounds code ops n wide r)
    (he : r = .error e) : ∃ index offset, e = .offsetOverflow index offset := by
  induction h with
  | fails hr => exact Except.error.inj he ▸ (round_error hr).2
  | settles _ => cases he
  | widens _ _ _ ih => exact ih he

/-! ## The settled forms -/

section

variable {code : Array Instruction} {ops : Array Opcode} {wide : Array Bool}

theorem forms_consistent (h : forms code ops = .ok wide) : Consistent code ops wide := by
  obtain ⟨hsize, hform⟩ := forms_ok h
  refine ⟨hsize, fun k i hi hnone => ?_, fun k i t hi ht hfalse =>
    ((hform k i false hi hfalse).1 t ht).2 rfl⟩
  have hk : k < wide.size := hsize.symm ▸ (getElem_of_getElem? hi).1
  have hw := Array.getElem?_eq_getElem hk
  rw [hw, (hform k i _ hi hw).2 hnone]
  cases i.index? with
  | none => simp
  | some n => simp [UInt32.lt_iff_toNat_lt]

theorem forms_below (h : forms code ops = .ok wide) {w : Array Bool} (hw : Consistent code ops w) :
    Below wide w := by
  obtain ⟨n, -, hrounds⟩ := forms_rounds code ops
  exact (hrounds.minimal (by simp) hw hw.startsWide_below).1 wide h

variable {k : Nat} {i : Instruction} {t : UInt32}

/-- A jump that could be narrow may be made so. -/
theorem Consistent.narrowed (hw : Consistent code ops wide) (hi : code[k]? = some i)
    (ht : i.jumpTarget? = some t) (hnear : (offsets ops wide).getD t.toNat 0 ≤ 255) :
    Consistent code ops (wide.setIfInBounds k false) := by
  have hget : ∀ {j : Nat}, j ≠ k → (wide.setIfInBounds k false)[j]? = wide[j]? := fun hj =>
    Array.getElem?_setIfInBounds_ne hj.symm
  have hbelow : Below (wide.setIfInBounds k false) wide := by
    intro j hj
    by_cases hjk : j = k
    · subst hjk
      rw [Array.getElem?_setIfInBounds_self] at hj
      split at hj <;> cases hj
    · rwa [hget hjk] at hj
  have hle := offsets_le ops (by simp) hbelow
  refine ⟨by simpa using hw.size, fun j i' hi' hnone => ?_, fun j i' t' hi' ht' hfalse => ?_⟩
  · have hjk : j ≠ k := by
      rintro rfl
      cases hi.symm.trans hi'
      rw [ht] at hnone
      cases hnone
    rw [hget hjk]
    exact hw.plain j i' hi' hnone
  · refine (hle t'.toNat).trans ?_
    by_cases hjk : j = k
    · subst hjk
      cases hi.symm.trans hi'
      cases ht.symm.trans ht'
      exact hnear
    · exact hw.narrow j i' t' hi' ht' (hget hjk ▸ hfalse)

/-- A jump is wide only where its target needs it: otherwise there were a shorter choice. -/
theorem forms_jump (h : forms code ops = .ok wide) (hi : code[k]? = some i)
    (ht : i.jumpTarget? = some t) :
    wide[k]? = some true ↔ 255 < (offsets ops wide).getD t.toNat 0 := by
  have hw := forms_consistent h
  have hk : k < wide.size := hw.size.symm ▸ (getElem_of_getElem? hi).1
  constructor
  · intro hwide
    by_contra hnear
    have hnarrow := forms_below h (hw.narrowed hi ht (not_lt.mp hnear)) k hwide
    rw [Array.getElem?_setIfInBounds_self, if_pos hk] at hnarrow
    cases hnarrow
  · intro hfar
    have hform := Array.getElem?_eq_getElem hk
    cases hwk : wide[k] with
    | true => rw [hform, hwk]
    | false =>
      have := hw.narrow k i t hi ht (by rw [hform, hwk])
      omega

end

/-! ## Encoding -/

/-- Every instruction has an opcode, and every jump aims at the code or its end. -/
def Valid (code : Array Instruction) : Prop :=
  ∀ i ∈ code, i.opcode?.isSome = true ∧ i.jumpTarget?.all (·.toNat ≤ code.size) = true

instance (code : Array Instruction) : Decidable (Valid code) :=
  inferInstanceAs (Decidable (∀ i ∈ code, _))

theorem Valid.opcodes (h : Valid code) :
    ∃ ops, Layout.opcodes code = .ok ops ∧ ops.map some = code.map Instruction.opcode? := by
  cases hops : Layout.opcodes code with
  | error e =>
    obtain ⟨⟨i, k⟩, hmem, hat⟩ := array_mapM_error hops
    have hi : i ∈ code := by
      rw [Array.mem_zipIdx_iff_getElem?] at hmem
      exact Array.mem_of_getElem? hmem
    obtain ⟨hop, htarget⟩ := h i hi
    obtain ⟨op, hop⟩ := Option.isSome_iff_exists.mp hop
    simp only [opcodeAt, hop] at hat
    cases ht : i.jumpTarget? with
    | none => simp [ht] at hat
    | some t =>
      rw [ht, Option.all_some, decide_eq_true_eq] at htarget
      simp [ht, not_lt.mpr htarget] at hat
  | ok ops =>
    obtain ⟨hsize, hop⟩ := opcodes_ok hops
    refine ⟨ops, rfl, Array.ext_getElem? fun k => ?_⟩
    rw [Array.getElem?_map, Array.getElem?_map]
    by_cases hk : k < code.size
    · have hi := Array.getElem?_eq_getElem hk
      have hopk := Array.getElem?_eq_getElem (hsize.symm ▸ hk : k < ops.size)
      rw [hi, hopk, Option.map_some, Option.map_some, (hop k _ hi).1, hopk]
    · rw [Array.getElem?_eq_none (by omega), Array.getElem?_eq_none (by omega)]
      rfl

/-- The first byte of a jump tells its form. -/
theorem bytesOf_jump {offs : Array Nat} {op : Opcode} {isWide : Bool} {i : Instruction} {t : UInt32}
    (hop : i.opcode? = some op) (ht : i.jumpTarget? = some t) :
    (bytesOf offs op isWide i)[0]? = some Opcode.wide.toByte ↔ isWide = true := by
  cases i <;> cases ht
  next trigger =>
    cases hop
    cases isWide <;> cases trigger <;> simp [bytesOf] <;> decide

/-- Where every instruction has an opcode, encoding fails because the forms do not settle, or
because the settled layout is too long. -/
theorem encode_error {marks : Array Mark} (hops : opcodes code = .ok ops)
    (h : encode code marks = .error e) :
    forms code ops = .error e ∨ ∃ wide, forms code ops = .ok wide ∧
      UInt32.size ≤ (offsets ops wide).back?.getD 0 ∧
      e = .tooLong ((offsets ops wide).back?.getD 0) := by
  unfold encode at h
  cases hforms : forms code ops with
  | error e' =>
    simp only [hops, hforms, bind, Except.bind] at h
    exact .inl (congrArg _ (Except.error.inj h))
  | ok wide =>
    simp only [hops, hforms, bind, Except.bind] at h
    split at h
    next hlong => exact .inr ⟨wide, rfl, hlong, (Except.error.inj h).symm⟩
    · cases h

/-- The last offset is that of the end of the code. -/
theorem offsets_back (hops : ops.size = code.size) (hwide : wide.size = code.size) :
    (offsets ops wide).back?.getD 0 = (offsets ops wide).getD code.size 0 := by
  have hsize : (offsets ops wide).size = code.size + 1 := by
    rw [offsets_size]
    simp [sizes, hops, hwide]
  rw [Array.back?_eq_getElem?, hsize, Nat.add_sub_cancel, Array.getD_eq_getD_getElem?]

end Layout

open Layout in
/-- **Encoding is as short as it can be.** For code in which every instruction has an opcode and
every jump a target, the rounds that settle the forms end after at most one round more than there
are jumps. If the code is encoded, then by a consistent choice of forms, no offset is greater than
under any other consistent choice, and a jump has the wide form exactly where its target needs it.
If it is refused because a jump is out of reach, then every consistent choice has a jump that is out
of reach; and if because it is too long, it is so under every consistent choice. -/
theorem encode_shortest {code : Array Instruction} (hcode : Valid code) (marks : Array Mark) :
    ∃ ops : Array Opcode, ops.map some = code.map Instruction.opcode? ∧
      (∃ n ≤ jumpCount code + 1, Rounds code ops n (code.map startsWide) (forms code ops)) ∧
      match encode code marks with
      | .ok body =>
          (∃ wide, Consistent code ops wide ∧ body.offsets = offsets ops wide) ∧
          (∀ wide, Consistent code ops wide →
            ∀ k, body.offsets.getD k 0 ≤ (offsets ops wide).getD k 0) ∧
          ∀ (k : Nat) i t pc, code[k]? = some i → i.jumpTarget? = some t →
            body.offsets[k]? = some pc →
            (body.bytes[pc]? = some Opcode.wide.toByte ↔ 255 < body.offsets.getD t.toNat 0)
      | .error (.offsetOverflow _ _) =>
          ∀ wide, Consistent code ops wide → OutOfReach code (offsets ops wide)
      | .error (.tooLong _) =>
          ∀ wide, Consistent code ops wide → UInt32.size ≤ (offsets ops wide).getD code.size 0
      | .error _ => False := by
  obtain ⟨ops, hops, hmap⟩ := hcode.opcodes
  obtain ⟨hsize, hop⟩ := opcodes_ok hops
  obtain ⟨n, hn, hrounds⟩ := forms_rounds code ops
  refine ⟨ops, hmap, ⟨n, hn, hrounds⟩, ?_⟩
  cases hencode : encode code marks with
  | error e =>
      rcases encode_error hops hencode with hforms | ⟨wide, hforms, hlong, rfl⟩
      · obtain ⟨index, offset, rfl⟩ := hrounds.error hforms
        intro w hw
        exact (hrounds.minimal (by simp) hw hw.startsWide_below).2 _ hforms
      · intro w hw
        have hwide := (forms_consistent hforms).size
        rw [offsets_back hsize hwide] at hlong
        exact hlong.trans
          (offsets_le _ (hwide.trans hw.size.symm) (forms_below hforms hw) code.size)
  | ok body =>
      obtain ⟨ops', wide, hops', hforms, hoffs, -, hbytes⟩ := encode_ok hencode
      cases hops.symm.trans hops'
      have hcons := forms_consistent hforms
      refine ⟨⟨wide, hcons, hoffs⟩, fun w hw k => ?_, fun k i t pc hi ht hpc => ?_⟩
      · rw [hoffs]
        exact offsets_le _ (hcons.size.trans hw.size.symm) (forms_below hforms hw) k
      · obtain ⟨op, isWide, hopk, hw, hline⟩ := getElem?_lined hsize hcons.size hi
        have hk : k < code.size := (getElem_of_getElem? hi).1
        have hplace : body.offsets[k]? = some ((sizes ops wide).take k).sum := by
          rw [hoffs, offsets_getElem? ops wide (by simp [sizes, hsize, hcons.size]; omega)]
        cases hplace.symm.trans hpc
        have hopcode : i.opcode? = some op := (hop k i hi).1.trans hopk
        -- the byte at the offset is the first of the bytes of the jump
        have hfirst : body.bytes[((sizes ops wide).take k).sum]? =
            (bytesOf body.offsets op isWide i)[0]? := by
          have hbytesAt := bytesAt_lined hops hcons.size hbytes hline
          have hpos : 0 < (bytesOf body.offsets op isWide i).length := by
            rw [bytesOf_length hopcode]
            exact size_pos op isWide
          have hget := List.getElem?_eq_getElem hpos
          rw [hget]
          exact BytesAt.iff_getElem?.mp hbytesAt 0 _ hget
        rw [hfirst, bytesOf_jump hopcode ht, hoffs, ← forms_jump hforms hi ht, hw,
          Option.some.injEq]

/-- A jump over 252 bytes, which fits one byte unless it is made wide itself, and behind them one to
the end, which does not. -/
def edgeCode : Array Instruction :=
  #[.jump .always 64] ++ Array.replicate 63 (.pushConst 300) ++ #[.jump .ifTrue 65, .stop]

theorem encode_shortest_edge : Layout.Valid edgeCode ∧ ∃ body, encode edgeCode #[] = .ok body ∧
    body.offsets.getD 64 0 = 254 ∧ body.offsets.getD 65 0 = 258 ∧
    body.bytes[0]? ≠ some Opcode.wide.toByte ∧ body.bytes[254]? = some Opcode.wide.toByte := by
  have hvalid : Layout.Valid edgeCode := by decide +kernel
  have hoffs : (encode edgeCode #[]).toOption.map (fun b => (b.offsets[0]?, b.offsets[64]?,
      b.offsets[65]?)) = some (some 0, some 254, some 258) := by decide +kernel
  obtain ⟨ops, -, -, hmatch⟩ := encode_shortest hvalid #[]
  cases hok : encode edgeCode #[] with
  | error e => rw [hok] at hoffs; cases hoffs
  | ok body =>
      simp only [hok] at hmatch hoffs
      obtain ⟨-, -, hjump⟩ := hmatch
      simp only [Except.toOption, Option.map_some, Option.some.injEq, Prod.mk.injEq] at hoffs
      obtain ⟨h0, h64, h65⟩ := hoffs
      have hfirst := hjump 0 (.jump .always 64) 64 0 (by decide +kernel) rfl h0
      have hsecond := hjump 64 (.jump .ifTrue 65) 65 254 (by decide +kernel) rfl h64
      have h64' : body.offsets.getD 64 0 = 254 := by rw [Array.getD_eq_getD_getElem?, h64]; rfl
      have h65' : body.offsets.getD 65 0 = 258 := by rw [Array.getD_eq_getD_getElem?, h65]; rfl
      refine ⟨hvalid, body, rfl, h64', h65', fun hwide => ?_, hsecond.mpr (h65' ▸ by decide)⟩
      have := hfirst.mp hwide
      rw [show (64 : UInt32).toNat = 64 from rfl, h64'] at this
      omega

end Bytescript
