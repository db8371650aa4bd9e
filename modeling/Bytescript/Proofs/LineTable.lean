import Bytescript.Proofs.Encoding

/-!
# Line tables

A line table gives back the marks that were put into it. What a builder keeps are the entries at
which the mark changes (`kept`), and its bytes spell these as differences (`rows`). A reader that
stands at one entry reads the next one (`next?_row`), as long as lines and columns are below `2 ^
31`, so that twice their difference still fits into 32 bits. Following the entries up to an offset
(`inForce`) then finds the same mark among the entries kept as among all of them.
-/

namespace Bytescript

/-! ## Numbers in groups of seven bits -/

theorem last_group {n : Nat} (h : n < 128) :
    n.toUInt8 &&& 0x80 = 0 ∧ (n.toUInt8 &&& 0x7f).toUInt32.toNat = n := by
  have hall : ∀ n < 128, n.toUInt8 &&& 0x80 = 0 ∧ (n.toUInt8 &&& 0x7f).toUInt32.toNat = n :=
    by decide
  exact hall n h

theorem more_group {n : Nat} (h : n < 128) :
    (n + 128).toUInt8 &&& 0x80 ≠ 0 ∧ ((n + 128).toUInt8 &&& 0x7f).toUInt32.toNat = n := by
  have hall : ∀ n < 128,
      (n + 128).toUInt8 &&& 0x80 ≠ 0 ∧ ((n + 128).toUInt8 &&& 0x7f).toUInt32.toNat = n := by decide
  exact hall n h

/-- A group is added above the bits that have been read. -/
theorem or_group {read : UInt32} (group : UInt32) {k : Nat} (hk : 7 * k < 32)
    (hread : read.toNat < 2 ^ (7 * k)) (hfits : group.toNat * 2 ^ (7 * k) < 2 ^ 32) :
    (read ||| group <<< UInt32.ofNat (7 * k)).toNat = read.toNat + group.toNat * 2 ^ (7 * k) := by
  have hshift : (UInt32.ofNat (7 * k)).toNat % 32 = 7 * k := by
    rw [UInt32.toNat_ofNat']
    omega
  rw [UInt32.toNat_or, UInt32.toNat_shiftLeft, hshift, Nat.shiftLeft_eq, Nat.mod_eq_of_lt hfits,
    Nat.or_comm, Nat.mul_comm group.toNat, ← Nat.two_pow_add_eq_or_of_lt hread, Nat.add_comm]

/-- Reading goes on behind `k` groups, which held the bits of `read`. -/
theorem readGroups_groups (rest : List UInt8) {n k : Nat} {read : UInt32} (fuel : Nat)
    (hk : k + fuel = 5)
    (hread : read.toNat < 2 ^ (7 * k)) (hn : n * 2 ^ (7 * k) < 2 ^ 32) (hpos : k = 0 ∨ 0 < n) :
    readGroups fuel (UInt32.ofNat (7 * k)) read (groups n ++ rest) =
      some (UInt32.ofNat (read.toNat + n * 2 ^ (7 * k)), rest) := by
  induction fuel generalizing n k read with
  | zero =>
    have hlt : 1 * 2 ^ (7 * k) ≤ n * 2 ^ (7 * k) := Nat.mul_le_mul_right _ (by omega)
    have hk : k = 5 := by omega
    subst hk
    omega
  | succ fuel ih =>
    have hbits : 7 * k < 32 := by omega
    have hone : 0 < 2 ^ (7 * k) := Nat.two_pow_pos _
    rw [groups]
    by_cases hlast : n < 128
    · obtain ⟨hstop, hgroup⟩ := last_group hlast
      have hor := or_group (n.toUInt8 &&& 0x7f).toUInt32 hbits hread (by rw [hgroup]; exact hn)
      rw [hgroup] at hor
      rw [if_pos hlast, List.singleton_append, readGroups]
      simp only [hstop, if_true]
      rw [← hor, UInt32.ofNat_toNat]
    · obtain ⟨hmore, hgroup⟩ := more_group (Nat.mod_lt n (by decide : 128 > 0))
      have hsplit : n = n % 128 + 128 * (n / 128) := (Nat.mod_add_div n 128).symm
      have hpow : 2 ^ (7 * (k + 1)) = 128 * 2 ^ (7 * k) :=
        by rw [Nat.mul_add, Nat.pow_add, Nat.mul_comm]
      have hsum : n * 2 ^ (7 * k) = n % 128 * 2 ^ (7 * k) + n / 128 * 2 ^ (7 * (k + 1)) := by
        rw [hpow, ← Nat.mul_assoc, ← Nat.add_mul, Nat.mul_comm (n / 128), ← hsplit]
      have hor := or_group ((n % 128 + 128).toUInt8 &&& 0x7f).toUInt32 hbits hread
        (by rw [hgroup]; omega)
      rw [hgroup] at hor
      have hnext : UInt32.ofNat (7 * k) + 7 = UInt32.ofNat (7 * (k + 1)) := by
        rw [Nat.mul_add, UInt32.ofNat_add]
        rfl
      have hlow : n % 128 * 2 ^ (7 * k) ≤ 127 * 2 ^ (7 * k) := Nat.mul_le_mul_right _ (by omega)
      rw [if_neg hlast, List.cons_append, readGroups]
      simp only [hmore, if_false, hnext]
      rw [ih (by omega) (by rw [hor, hpow]; omega) (by omega) (.inr (by omega)), hor, hsum,
        Nat.add_assoc]

theorem readNumber_groups (n : UInt32) (rest : List UInt8) :
    readNumber (groups n.toNat ++ rest) = some (n, rest) := by
  have hread := @readGroups_groups rest n.toNat 0 0 5 rfl (by decide) (by simpa using n.toNat_lt)
    (.inl rfl)
  simpa [readNumber] using hread

theorem groups_ne_nil (n : Nat) : groups n ≠ [] := by
  rw [groups]
  split <;> simp

theorem unfoldSign_foldSign {n : Int} (hlow : -2 ^ 31 < n) (hhigh : n < 2 ^ 31) :
    unfoldSign (foldSign n) = n := by
  have hfold : (foldSign n).toNat = if 0 ≤ n then (2 * n).toNat else (-2 * n - 1).toNat := by
    unfold foldSign
    split
    · rw [Nat.toUInt32_eq, UInt32.toNat_ofNat']
      omega
    · rw [Nat.toUInt32_eq, UInt32.toNat_ofNat']
      omega
  rw [unfoldSign, hfold]
  split
  · split <;> omega
  · split <;> omega

/-! ## Entries -/

/-- Lines and columns that differences can be taken of. -/
def Mark.IsShort (m : Mark) : Prop := m.line.toNat < 2 ^ 31 ∧ m.column.toNat < 2 ^ 31

instance (m : Mark) : Decidable m.IsShort := inferInstanceAs (Decidable (_ ∧ _))

namespace LineTable

/-- The bytes of an entry that comes after another one. -/
def row (last e : UInt32 × Mark) : List UInt8 :=
  groups (e.1 - last.1).toNat ++ groups (foldSign (e.2.line.toNat - last.2.line.toNat)).toNat
    ++ groups (foldSign (e.2.column.toNat - last.2.column.toNat)).toNat

def rows : UInt32 × Mark → List (UInt32 × Mark) → List UInt8
  | _, [] => []
  | last, e :: es => row last e ++ rows e es

/-- The entries at which the mark changes. -/
def kept : Option Mark → List (UInt32 × Mark) → List (UInt32 × Mark)
  | _, [] => []
  | last, e :: es => if last = some e.2 then kept last es else e :: kept (some e.2) es

theorem bytes_add (b : Builder) (entries : List (UInt32 × Mark)) :
    (entries.foldl (fun (b : Builder) e => b.add e.1 e.2) b).bytes.toList =
      b.bytes.toList ++ rows (b.offset, b.mark.getD .unknown) (kept b.mark entries) := by
  induction entries generalizing b with
  | nil => exact (List.append_nil _).symm
  | cons e es ih =>
    rw [List.foldl_cons, ih, kept, Builder.add]
    split
    · rfl
    · simp [rows, row]

theorem kept_subset (last : Option Mark) (es : List (UInt32 × Mark)) : kept last es ⊆ es := by
  induction es generalizing last with
  | nil => exact List.Subset.refl _
  | cons e es ih =>
    rw [kept]
    split
    · exact List.subset_cons_of_subset _ (ih last)
    · exact List.cons_subset_cons _ (ih _)

/-! ## Reading -/

/-- Where a reader stands that has read an entry. -/
def Cursor.at (e : UInt32 × Mark) : Cursor := ⟨e.1, e.2.line.toNat, e.2.column.toNat⟩

theorem Cursor.at_mark (e : UInt32 × Mark) : (Cursor.at e).mark = e.2 := by
  have hword : ∀ w : UInt32, UInt32.ofInt w.toNat = w := by
    intro w
    have hlt := w.toNat_lt
    have hmod : ((w.toNat : Int) % 2 ^ 32).toNat = w.toNat := by omega
    rw [UInt32.ofInt, hmod, UInt32.ofNat_toNat]
  simp [Cursor.mark, Cursor.at, hword]

variable {last e : UInt32 × Mark}

theorem next?_row (hlast : last.2.IsShort) (he : e.2.IsShort) (rest : List UInt8) :
    (Cursor.at last).next? (row last e ++ rest) = some (Cursor.at e, rest) := by
  obtain ⟨hline, hcolumn⟩ := hlast
  obtain ⟨hline', hcolumn'⟩ := he
  have hline := unfoldSign_foldSign (n := e.2.line.toNat - last.2.line.toNat) (by omega) (by omega)
  have hcolumn := unfoldSign_foldSign (n := e.2.column.toNat - last.2.column.toNat) (by omega)
    (by omega)
  rw [row, List.append_assoc, List.append_assoc, Cursor.next?, readNumber_groups]
  simp only [Option.bind_eq_bind, Option.bind_some, readNumber_groups, hline, hcolumn, Cursor.at]
  have hoffset : last.1 + (e.1 - last.1) = e.1 := by rw [UInt32.add_comm, UInt32.sub_add_cancel]
  rw [hoffset, Int.add_comm, Int.sub_add_cancel, Int.add_comm, Int.sub_add_cancel]
  rfl

/-- The mark in force at an offset if entries are followed in order up to the first one beyond it.
-/
def inForce (target : UInt32) : Option Mark → List (UInt32 × Mark) → Option Mark
  | best, [] => best
  | best, e :: es => if target < e.1 then best else inForce target (some e.2) es

theorem search_rows (target : UInt32) {es : List (UInt32 × Mark)} (best : Option Mark)
    (hlast : last.2.IsShort) (hes : ∀ e ∈ es, e.2.IsShort) {fuel : Nat} (hfuel : es.length ≤ fuel) :
    search target fuel (Cursor.at last) best (rows last es) = inForce target best es := by
  induction es generalizing last best fuel with
  | nil => cases fuel <;> rfl
  | cons e es ih =>
    obtain ⟨he, hes⟩ := List.forall_mem_cons.mp hes
    obtain ⟨fuel, rfl⟩ : ∃ n, fuel = n + 1 := ⟨fuel - 1, by simp at hfuel; omega⟩
    have hne : rows last (e :: es) ≠ [] := by
      rw [rows, row]
      simp [groups_ne_nil]
    rw [search.eq_3 _ _ _ _ _ hne, rows, next?_row hlast he]
    simp only [inForce, Cursor.at_mark]
    rw [ih _ he hes (by simpa using hfuel)]
    rfl

theorem length_le_rows (last : UInt32 × Mark) (es : List (UInt32 × Mark)) :
    es.length ≤ (rows last es).length := by
  induction es generalizing last with
  | nil => exact Nat.le_refl _
  | cons e es ih =>
    have hpos := List.length_pos_iff.mpr (groups_ne_nil (e.1 - last.1).toNat)
    have hrest := ih e
    simp only [rows, row, List.length_append, List.length_cons]
    omega

/-! ## Marks in force -/

variable {target : UInt32} {es : List (UInt32 × Mark)}

theorem inForce_beyond (best : Option Mark) (hes : ∀ e ∈ es, target < e.1) :
    inForce target best es = best := by
  cases es with
  | nil => rfl
  | cons e es => rw [inForce, if_pos (hes e List.mem_cons_self)]

/-- Entries that repeat the mark before them make no difference. -/
theorem inForce_kept (hsorted : es.Pairwise fun a b => a.1 ≤ b.1) (last : Option Mark) :
    inForce target last (kept last es) = inForce target last es := by
  induction es generalizing last with
  | nil => rfl
  | cons e es ih =>
    obtain ⟨hle, hsorted⟩ := List.pairwise_cons.mp hsorted
    rw [kept, inForce]
    split
    next hsame =>
      split
      next hlt =>
        exact inForce_beyond _ fun e' he' => UInt32.lt_of_lt_of_le hlt
          (hle e' (kept_subset _ _ he'))
      · rw [ih hsorted, hsame]
    · rw [inForce, ih hsorted]

/-- The mark in force at an offset is that of the last entry that is not beyond it. -/
theorem inForce_eq (hsorted : es.Pairwise fun a b => a.1 ≤ b.1) (best : Option Mark) :
    inForce target best es = ((es.filter (·.1 ≤ target)).getLast?.map Prod.snd).or best := by
  induction es generalizing best with
  | nil => rfl
  | cons e es ih =>
    obtain ⟨hle, hsorted⟩ := List.pairwise_cons.mp hsorted
    rw [inForce]
    split
    next hlt =>
      have hnone : (e :: es).filter (·.1 ≤ target) = [] := by
        refine List.filter_eq_nil_iff.mpr (List.forall_mem_cons.mpr ⟨?_, fun e' he' => ?_⟩)
        · simpa using hlt
        · simpa using UInt32.lt_of_lt_of_le hlt (hle e' he')
      rw [hnone]
      rfl
    next hle =>
      rw [ih hsorted, List.filter_cons_of_pos (by simpa using hle), List.getLast?_cons]
      cases (es.filter (·.1 ≤ target)).getLast? <;> rfl

/-- A table gives back the marks that were put into it. -/
theorem lookup_ofEntries (hsorted : es.Pairwise fun a b => a.1 ≤ b.1)
    (hshort : ∀ e ∈ es, e.2.IsShort) (target : UInt32) : (ofEntries es).lookup target =
      ((es.filter (·.1 ≤ target)).getLast?.map Prod.snd).filter Mark.isKnown := by
  have hbytes : (ofEntries es).bytes.toList = rows (0, .unknown) (kept none es) := bytes_add {} es
  rw [lookup, ← Array.length_toList, hbytes]
  change (search target _ (Cursor.at (0, .unknown)) none _).filter _ = _
  rw [search_rows target none (by decide) (fun e he => hshort e (kept_subset _ _ he))
    (length_le_rows _ _), inForce_kept hsorted, inForce_eq hsorted, Option.or_none]

/-- Of entries that stand in order the last one up to an offset is the one that the offset lies
behind. -/
theorem last_upTo {before after : List (UInt32 × Mark)} (he : e.1 ≤ target)
    (hafter : ∀ e' ∈ after, target < e'.1) :
    ((before ++ e :: after).filter (·.1 ≤ target)).getLast? = some e := by
  have hnone : after.filter (·.1 ≤ target) = [] :=
    List.filter_eq_nil_iff.mpr fun e' he' => by simpa using hafter e' he'
  rw [List.filter_append, List.filter_cons_of_pos (by simpa using he), hnone, List.getLast?_concat]

/-! ## The lines of encoded code -/

/-- What the table of some code is made of: the offset and the mark of every instruction. -/
def codeEntries (offsets : Array Nat) (marks : Array Mark) : List (UInt32 × Mark) :=
  offsets.pop.zipIdx.toList.map fun x => (x.1.toUInt32, marks.getD x.2 .unknown)

theorem encode_lines {code : Array Instruction} {marks : Array Mark} {body : Body}
    (h : encode code marks = .ok body) : body.lines = ofEntries
    (codeEntries body.offsets marks) := by
  unfold encode at h
  cases hops : Layout.opcodes code with
  | error e => simp [hops, bind, Except.bind] at h
  | ok ops =>
    cases hforms : Layout.forms code ops with
    | error e => simp [hops, hforms, bind, Except.bind] at h
    | ok wide =>
      simp only [hops, hforms, bind, Except.bind] at h
      split at h
      · cases h
      · cases h
        rw [ofEntries, codeEntries, List.foldl_map, Array.foldl_toList]

theorem getElem?_codeEntries {offsets : Array Nat} (marks : Array Mark) {k : Nat}
    (hk : k + 1 < offsets.size) :
    (codeEntries offsets marks)[k]? = some ((offsets[k]).toUInt32, marks.getD k .unknown) := by
  have hpop : offsets.pop[k]? = some offsets[k] := by
    rw [Array.getElem?_pop, if_pos (by omega), Array.getElem?_eq_getElem (by omega)]
  simp only [codeEntries, List.getElem?_map, Array.getElem?_toList, Array.getElem?_zipIdx, hpop,
    Option.map_some, Nat.zero_add]

theorem length_codeEntries (offsets : Array Nat) (marks : Array Mark) :
    (codeEntries offsets marks).length = offsets.size - 1 := by
  simp [codeEntries]

section

variable {code : Array Instruction} {body : Body} (h : Layout.Encodes code body)

include h

theorem toNat_offset {k a : Nat} (hk : body.offsets[k]? = some a) : a.toUInt32.toNat = a := by
  have hle := h.offset_le hk
  have hshort := h.short
  rw [Nat.toUInt32_eq, UInt32.toNat_ofNat', Nat.mod_eq_of_lt (Nat.lt_of_le_of_lt hle hshort)]

/-- Instructions stand in the order of their offsets. -/
theorem codeEntries_lt (marks : Array Mark) {j k : Nat} {d e : UInt32 × Mark} (hjk : j < k)
    (hj : (codeEntries body.offsets marks)[j]? = some d)
    (hk : (codeEntries body.offsets marks)[k]? = some e) : d.1 < e.1 := by
  have hlt := (getElem_of_getElem? hk).1
  rw [length_codeEntries] at hlt
  rw [getElem?_codeEntries marks (by omega)] at hj hk
  cases hj
  cases hk
  have hj : body.offsets[j]? = some body.offsets[j] := Array.getElem?_eq_getElem (by omega)
  have hk : body.offsets[k]? = some body.offsets[k] := Array.getElem?_eq_getElem (by omega)
  rw [UInt32.lt_iff_toNat_lt, toNat_offset h hj, toNat_offset h hk]
  exact h.lt j k _ _ hjk hj hk

theorem codeEntries_sorted (marks : Array Mark) :
    (codeEntries body.offsets marks).Pairwise fun a b => a.1 ≤ b.1 := by
  rw [List.pairwise_iff_getElem]
  intro j k hj hk hjk
  exact UInt32.le_of_lt
    (codeEntries_lt h marks hjk (List.getElem?_eq_getElem hj) (List.getElem?_eq_getElem hk))

theorem lookup_codeEntries {marks : Array Mark} {k a b : Nat} {pc : UInt32}
    (ha : body.offsets[k]? = some a)
    (hb : body.offsets[k + 1]? = some b) (hle : a ≤ pc.toNat) (hlt : pc.toNat < b) :
    ((codeEntries body.offsets marks).filter (·.1 ≤ pc)).getLast? =
      some (a.toUInt32, marks.getD k .unknown) := by
  obtain ⟨hk, rfl⟩ := getElem_of_getElem? hb
  have hentry := getElem?_codeEntries marks hk
  obtain ⟨hk', hget⟩ := getElem_of_getElem? hentry
  rw [(getElem_of_getElem? ha).2] at hget
  have hsplit : codeEntries body.offsets marks = (codeEntries body.offsets marks).take k ++
      (codeEntries body.offsets marks)[k] :: (codeEntries body.offsets marks).drop (k + 1) := by
    rw [List.getElem_cons_drop, List.take_append_drop]
  rw [hsplit, hget]
  refine last_upTo ?_ fun e he => ?_
  · rw [UInt32.le_iff_toNat_le, toNat_offset h ha]
    exact hle
  · obtain ⟨i, hi⟩ := List.mem_iff_getElem?.mp he
    rw [List.getElem?_drop] at hi
    have hnext : (body.offsets[k + 1]).toUInt32 ≤ e.1 := by
      by_cases hzero : i = 0
      · have hlast := (getElem_of_getElem? hi).1
        rw [length_codeEntries] at hlast
        subst hzero
        rw [Nat.add_zero, getElem?_codeEntries marks (by omega)] at hi
        cases hi
        exact UInt32.le_refl _
      · have hlast := (getElem_of_getElem? hi).1
        rw [length_codeEntries] at hlast
        exact UInt32.le_of_lt
          (codeEntries_lt h marks (by omega : k + 1 < k + 1 + i)
            (getElem?_codeEntries marks (by omega)) hi)
    refine UInt32.lt_of_lt_of_le ?_ hnext
    rw [UInt32.lt_iff_toNat_lt, toNat_offset h hb]
    exact hlt

end

/-- A table loses nothing: at every offset it has the mark of the last entry up to there, if that is
known, and so the table of encoded code has, at every byte of an instruction, the mark of the
instruction. -/
theorem lookup_lossless :
    (∀ es : List (UInt32 × Mark), es.Pairwise (fun a b => a.1 ≤ b.1) → (∀ e ∈ es, e.2.IsShort) →
      ∀ target, (ofEntries es).lookup target =
        ((es.filter (·.1 ≤ target)).getLast?.map Prod.snd).filter Mark.isKnown) ∧
    ∀ code marks body, encode code marks = .ok body →
      (∀ (k : Nat) m, k < code.size → marks[k]? = some m → m.IsShort) →
      ∀ (k a b : Nat) (pc : UInt32), body.offsets[k]? = some a → body.offsets[k + 1]? = some b →
        a ≤ pc.toNat → pc.toNat < b → body.lines.lookup pc = marks[k]?.filter Mark.isKnown := by
  refine ⟨fun es hsorted hshort => lookup_ofEntries hsorted hshort, ?_⟩
  intro code marks body hencode hshort k a b pc ha hb hle hlt
  have h := Layout.encode_encodes hencode
  have hentries : ∀ e ∈ codeEntries body.offsets marks, e.2.IsShort := by
    intro e he
    obtain ⟨i, hi⟩ := List.mem_iff_getElem?.mp he
    have hlast := (getElem_of_getElem? hi).1
    rw [length_codeEntries, h.size] at hlast
    rw [getElem?_codeEntries marks (by rw [h.size]; omega)] at hi
    cases hi
    rw [Array.getD_eq_getD_getElem?]
    cases hm : marks[i]? with
    | none => exact show Mark.unknown.IsShort by decide
    | some m => exact hshort i m hlast hm
  rw [encode_lines hencode, lookup_ofEntries (codeEntries_sorted h marks) hentries,
    lookup_codeEntries h ha hb hle hlt, Array.getD_eq_getD_getElem?]
  cases marks[k]? with
  | none => rfl
  | some m => rfl

/-- Lines and columns that move back and forth, two entries at one offset, and code with a mark for
the first of its two instructions only. -/
theorem lookup_lossless_backwards :
    ([(0, ⟨1, 1⟩), (3, ⟨900, 70⟩), (3, ⟨2, 5⟩), (400, ⟨1, 20⟩)] : List (UInt32 × Mark)).Pairwise
        (fun a b => a.1 ≤ b.1) ∧
      (∀ e ∈ ([(0, ⟨1, 1⟩), (3, ⟨900, 70⟩), (3, ⟨2, 5⟩), (400, ⟨1, 20⟩)] : List (UInt32 × Mark)),
        e.2.IsShort) ∧
      (ofEntries [(0, ⟨1, 1⟩), (3, ⟨900, 70⟩), (3, ⟨2, 5⟩), (400, ⟨1, 20⟩)]).lookup 399 =
        some ⟨2, 5⟩ ∧
      ∃ body, encode #[.pushByte 1, .stop] #[⟨7, 3⟩] = .ok body ∧
        body.lines.lookup 1 = some ⟨7, 3⟩ ∧ body.lines.lookup 2 = none := by
  have hsorted : ([(0, ⟨1, 1⟩), (3, ⟨900, 70⟩), (3, ⟨2, 5⟩), (400, ⟨1, 20⟩)] :
      List (UInt32 × Mark)).Pairwise (fun a b => a.1 ≤ b.1) := by decide
  have hshort : ∀ e ∈ ([(0, ⟨1, 1⟩), (3, ⟨900, 70⟩), (3, ⟨2, 5⟩), (400, ⟨1, 20⟩)] :
      List (UInt32 × Mark)), e.2.IsShort := by decide
  refine ⟨hsorted, hshort, lookup_lossless.1 _ hsorted hshort 399, ?_⟩
  have hoffs : (encode #[.pushByte 1, .stop] #[⟨7, 3⟩]).toOption.map Body.offsets =
    some #[0, 2, 3] := by
    decide +kernel
  cases hok : encode #[.pushByte 1, .stop] #[⟨7, 3⟩] with
  | error e => rw [hok] at hoffs; cases hoffs
  | ok body =>
      rw [hok] at hoffs
      have hoffs : body.offsets = #[0, 2, 3] := Option.some.inj hoffs
      have hmarks : ∀ (k : Nat) m, k < 2 → (#[⟨7, 3⟩] : Array Mark)[k]? = some m → m.IsShort := by
        intro k m _ hm
        obtain rfl : m = ⟨7, 3⟩ := by simpa using Array.mem_of_getElem? hm
        decide
      have hlookup := lookup_lossless.2 _ _ _ hok hmarks
      rw [hoffs] at hlookup
      exact ⟨body, rfl, hlookup 0 0 2 1 rfl rfl (by decide) (by decide),
        hlookup 1 2 3 2 rfl rfl (by decide) (by decide)⟩

end LineTable

end Bytescript
