import Bytescript.Proofs.Heap.Store

/-!
# Ages of references

The slot of a deleted entry is used again, and a new reference to it is told from the old ones by
how often the slot has been emptied. The age of a reference (`Heap.Age`) is how often its slot has
been emptied since the reference was handed out: it never goes down, it goes up by one at most with
each deletion, and a reference that is older than zero names nothing. Generations have 32 bits, so
all this holds for as long as fewer than `2 ^ 32` entries are deleted; until then no reference is
handed out twice, and those to deleted entries stay without meaning (`Heap.after_stale`).
-/

namespace Bytescript

namespace Heap

variable {h h' : Heap} {id fresh : HeapId} {p : Payload} {d : Nat}

/-! ## Generations -/

/-- How often the entries of a slot have been deleted, modulo `2 ^ 32`. -/
def generation? (h : Heap) (i : Nat) : Option UInt32 := h.slots[i]?.map HeapSlot.generation

/-- A new entry has the generation of its slot. -/
theorem Sound.insert_generation (hs : h.Sound) (hin : h.insert p = (.ok id, h')) :
    h'.generation? id.index = some id.generation ∧ ∀ i g, h.generation? i = some g →
      h'.generation? i = some g := by
  unfold Heap.insert at hin
  split at hin
  · cases hin
  · split at hin
    next settings slots live _ =>
      obtain ⟨hid, rfl⟩ := Prod.mk.inj hin
      cases hid
      refine ⟨by simp [generation?], fun i g hg => ?_⟩
      obtain ⟨slot, hslot, rfl⟩ := Option.map_eq_some_iff.mp hg
      have hlt : i < slots.size := (getElem_of_getElem? hslot).1
      rw [generation?, Array.getElem?_push, if_neg (Nat.ne_of_lt hlt), hslot, Option.map_some]
    next settings slots index free live _ =>
      obtain ⟨hid, rfl⟩ := Prod.mk.inj hin
      cases hid
      have hsame : ∀ i, generation? ⟨settings, slots.modify index (HeapSlot.fill p), free,
        live + 1⟩ i =
          generation? ⟨settings, slots, index :: free, live⟩ i := by
        intro i
        rw [generation?, generation?, Array.getElem?_modify]
        split
        · cases slots[i]? <;> rfl
        · rfl
      refine ⟨?_, fun i g hg => (hsame i).trans hg⟩
      obtain ⟨slot, hslot, -⟩ := (hs.mem_free index).mp (.head _)
      rw [hsame, generation?, Array.getD_eq_getD_getElem?,
        show slots[index]? = some slot from hslot]
      rfl

theorem delete_generation (hdelete : h.delete id = (.ok p, h')) :
    h.generation? id.index = some id.generation ∧
    ∀ i, h'.generation? i = if i = id.index then some (id.generation + 1) else h.generation? i := by
  unfold delete at hdelete
  split at hdelete
  · cases hdelete
  next q hq =>
    obtain ⟨-, rfl⟩ := Prod.mk.inj hdelete
    have hslot := find?_eq_some.mp hq
    refine ⟨by rw [generation?, hslot]; rfl, fun i => ?_⟩
    rw [generation?, Array.getElem?_modify]
    split
    next heq =>
      subst heq
      rw [hslot, if_pos rfl]
      rfl
    next hne =>
      rw [if_neg (Ne.symm hne)]
      rfl

theorem setAt_generation (h : Heap) (id : HeapId) (index : Nat) (v : Value) (i : Nat) :
    (h.setAt id index v).generation? i = h.generation? i := by
  rw [generation?, setAt, generation?, Array.getElem?_modify]
  split
  · cases h.slots[i]? <;> rfl
  · rfl

/-- The reference to a new entry named nothing before. -/
theorem Sound.insert_ok (hs : h.Sound) (hin : h.insert p = (.ok id, h')) :
    h.find? id = none ∧ Becomes h h' (Function.update h.find? id (some p)) := by
  rcases hs.insert p with ⟨-, herror⟩ | ⟨-, id', h'', hok, hnone, hbecomes⟩
  · cases hin.symm.trans herror
  · cases hin.symm.trans hok
    exact ⟨hnone, hbecomes⟩

theorem Sound.delete_ok (hs : h.Sound) (hdelete : h.delete id = (.ok p, h')) :
    h.find? id = some p ∧ Becomes h h' (Function.update h.find? id none) := by
  rcases hs.delete id with ⟨-, herror⟩ | ⟨_, _, hp, hok, hbecomes⟩
  · cases hdelete.symm.trans herror
  · cases hdelete.symm.trans hok
    exact ⟨hp, hbecomes⟩

/-! ## Ages -/

/-- The slot of a reference has been emptied `d` times since the reference was handed out. -/
def Age (h : Heap) (id : HeapId) (d : Nat) : Prop :=
  h.generation? id.index = some (id.generation + UInt32.ofNat d) ∧ (d = 0 → h.find? id ≠ none)

namespace Age

theorem eq_zero (hd : d < 2 ^ 32) {g : UInt32} (h : g + UInt32.ofNat d = g) : d = 0 := by
  have hzero : UInt32.ofNat d = 0 := (UInt32.add_right_inj g).mp (h.trans (UInt32.add_zero g).symm)
  have hnat := congrArg UInt32.toNat hzero
  rw [UInt32.toNat_ofNat', UInt32.toNat_zero] at hnat
  omega

/-- What a reference named is gone once it is older than zero. -/
theorem find?_eq_none (hage : h.Age id d) (hpos : 0 < d) (hd : d < 2 ^ 32) : h.find? id = none := by
  cases hp : h.find? id with
  | none => rfl
  | some p =>
    have hgen : h.generation? id.index = some id.generation := by
      rw [generation?, find?_eq_some.mp hp]
      rfl
    have := eq_zero hd (Option.some.inj (hage.1.symm.trans hgen))
    omega

theorem inserted (hs : h.Sound) (hin : h.insert p = (.ok fresh, h')) : h'.Age fresh 0 := by
  refine ⟨?_, fun _ => ?_⟩
  · rw [(hs.insert_generation hin).1]
    exact congrArg some (UInt32.add_zero _).symm
  · rw [(hs.insert_ok hin).2.find?, Function.update_self]
    exact Option.some_ne_none p

theorem deleted (hdelete : h.delete id = (.ok p, h')) : h'.Age id 1 := by
  obtain ⟨hgen, hnext⟩ := delete_generation hdelete
  exact ⟨by rw [hnext, if_pos rfl]; rfl, by nofun⟩

variable (hage : h.Age id d) (hs : h.Sound)

include hage hs

/-- A reference that is handed out is a new one. -/
theorem ne_fresh (hd : d < 2 ^ 32) (hin : h.insert p = (.ok fresh, h')) :
    id ≠ fresh := by
  rintro rfl
  obtain ⟨hgen, hkeep⟩ := hs.insert_generation hin
  have hzero := eq_zero hd (Option.some.inj ((hkeep _ _ hage.1).symm.trans hgen))
  exact hage.2 hzero (hs.insert_ok hin).1

theorem insert (hin : h.insert p = (.ok fresh, h')) : h'.Age id d := by
  refine ⟨(hs.insert_generation hin).2 _ _ hage.1, fun hzero => ?_⟩
  rw [(hs.insert_ok hin).2.find?, Function.update_apply]
  split
  · exact Option.some_ne_none p
  · exact hage.2 hzero

theorem delete {gone : HeapId} (hdelete : h.delete gone = (.ok p, h')) :
    if id.index = gone.index then h'.Age id (d + 1) else h'.Age id d := by
  obtain ⟨hgen, hnext⟩ := delete_generation hdelete
  split
  next hindex =>
    refine ⟨?_, by nofun⟩
    have heq := Option.some.inj (hgen.symm.trans (hindex ▸ hage.1))
    rw [hnext, if_pos hindex, heq, UInt32.ofNat_add, UInt32.add_assoc]
    rfl
  next hindex =>
    refine ⟨by rw [hnext, if_neg hindex, hage.1], fun hzero => ?_⟩
    rw [(hs.delete_ok hdelete).2.find?, Function.update_of_ne fun hid =>
      hindex (congrArg HeapId.index hid)]
    exact hage.2 hzero

theorem setAt {target : HeapId} (hp : h.find? target = some p) (index : Nat)
    (v : Value) : (h.setAt target index v).Age id d := by
  refine ⟨(setAt_generation ..).trans hage.1, fun hzero => ?_⟩
  rw [(hs.setAt hp index v).find?, Function.update_apply]
  split
  · exact Option.some_ne_none _
  · exact hage.2 hzero

end Age

/-! ## Histories -/

/-- The reference that an operation has handed out. -/
def issued? : Except HeapError HeapAnswer → Option HeapId
  | .ok (.id id) => some id
  | _ => none

/-- Whether an operation has deleted an entry. -/
def isDeletion : Except HeapError HeapAnswer → Bool
  | .ok (.payload _) => true
  | _ => false

/-- What an operation answers and does, as far as references go. -/
inductive Turns (h : Heap) : Except HeapError HeapAnswer → Heap → Prop
  | issues {p : Payload} {id : HeapId} {h' : Heap} : h.insert p = (.ok id, h') →
    Turns h (.ok (.id id)) h'
  | ends {id : HeapId} {p : Payload} {h' : Heap} : h.delete id = (.ok p, h') →
    Turns h (.ok (.payload p)) h'
  | stores {id : HeapId} {p : Payload} (index : Nat) (v : Value) : h.find? id = some p →
    Turns h (.ok .done) (h.setAt id index v)
  | rests {answer} : (∀ id, answer ≠ .ok (.id id)) →
    (∀ p, answer ≠ .ok (.payload p)) → Turns h answer h

/-- An answer that neither hands out a reference nor tells of a deletion. -/
theorem rests_plain {answer : Except HeapError HeapAnswer} (hid : issued? answer = none)
    (hpayload : isDeletion answer = false) : h.Turns answer h := by
  refine .rests (fun id heq => ?_) fun p heq => ?_
  · rw [heq] at hid
    cases hid
  · rw [heq] at hpayload
    cases hpayload

theorem turns_create (h : Heap) (p : Payload) :
    h.Turns (h.perform (.create p)).1 (h.perform (.create p)).2 := by
  simp only [perform]
  cases hin : h.insert p with
  | mk r h' =>
    cases r with
    | ok id => exact .issues hin
    | error e =>
      have heq : h' = h := by
        unfold insert at hin
        split at hin
        · exact (Prod.mk.inj hin).2.symm
        · split at hin <;> cases hin
      subst heq
      exact rests_plain rfl rfl

theorem rests_map {α : Type} (r : Except HeapError α) {f : α → HeapAnswer}
    (hid : ∀ a, issued? (.ok (f a)) = none)
    (hpayload : ∀ a, isDeletion (.ok (f a)) = false) : h.Turns (r.map f) h := by
  cases r with
  | error e => exact rests_plain rfl rfl
  | ok a => exact rests_plain (hid a) (hpayload a)

theorem perform_turns (h : Heap) (op : HeapOp) : h.Turns (h.perform op).1 (h.perform op).2 := by
  cases op with
  | create p => exact h.turns_create p
  | concat left right =>
    simp only [perform, concat]
    split
    · exact rests_plain rfl rfl
    · exact h.turns_create _
  | delete id =>
    simp only [perform]
    cases hdelete : h.delete id with
    | mk r h' =>
      cases r with
      | ok p => exact .ends hdelete
      | error e =>
        have heq : h' = h := by
          unfold delete at hdelete
          split at hdelete
          · exact (Prod.mk.inj hdelete).2.symm
          · cases hdelete
        subst heq
        exact rests_plain rfl rfl
  | setElement id index v =>
    simp only [perform, setElement, store, arraySize]
    rcases h.array_cases id with ⟨vs, hvs, heq⟩ | ⟨e, -, heq⟩
    · simp only [heq, bind, Except.bind, pure, Except.pure]
      split
      · exact .stores index v hvs
      · exact rests_plain rfl rfl
    · simp only [heq, bind, Except.bind]
      exact rests_plain rfl rfl
  | setField id index v =>
    simp only [perform, setField, store, fieldCount]
    rcases h.object_cases id with ⟨c, vs, hvs, heq⟩ | ⟨e, -, heq⟩
    · simp only [heq, bind, Except.bind, pure, Except.pure]
      split
      · exact .stores index v hvs
      · exact rests_plain rfl rfl
    · simp only [heq, bind, Except.bind]
      exact rests_plain rfl rfl
  | contains id => exact rests_plain rfl rfl
  | liveCount => exact rests_plain rfl rfl
  | tag | string | stringsEqual | layoutOf | field | arraySize | element =>
    exact rests_map _ (fun _ => rfl) fun _ => rfl

/-- What some operations answer, one after the other. -/
def answers (h : Heap) : List HeapOp → List (Except HeapError HeapAnswer)
  | [] => []
  | op :: ops => (h.perform op).1 :: (h.perform op).2.answers ops

/-- The references that some operations hand out, in order. -/
def issued (h : Heap) (ops : List HeapOp) : List HeapId := (h.answers ops).filterMap issued?

/-- How many entries some operations delete. -/
def deletions (h : Heap) (ops : List HeapOp) : Nat := (h.answers ops).countP isDeletion

theorem deletions_cons (h : Heap) (op : HeapOp) (ops : List HeapOp) : h.deletions (op :: ops) =
    (h.perform op).2.deletions ops + if isDeletion (h.perform op).1 then 1 else 0 :=
  List.countP_cons ..

theorem deletions_append (h : Heap) (ops later : List HeapOp) :
    h.deletions (ops ++ later) = h.deletions ops + (h.after ops).deletions later := by
  induction ops generalizing h with
  | nil => exact (Nat.zero_add _).symm
  | cons op ops ih =>
    rw [List.cons_append, deletions_cons, deletions_cons, ih]
    exact Nat.add_right_comm ..

theorem Age.perform (hage : h.Age id d) (hs : h.Sound) (op : HeapOp) :
    ∃ d', d ≤ d' ∧ d' ≤ d + (if isDeletion (h.perform op).1 then 1 else 0) ∧
    (h.perform op).2.Age id d' := by
  have hturns := h.perform_turns op
  generalize (h.perform op).1 = answer, (h.perform op).2 = h' at hturns ⊢
  cases hturns with
  | issues hin => exact ⟨d, Nat.le_refl d, Nat.le_refl d, hage.insert hs hin⟩
  | stores index v hp => exact ⟨d, Nat.le_refl d, Nat.le_refl d, hage.setAt hs hp index v⟩
  | rests => exact ⟨d, Nat.le_refl d, Nat.le_add_right .., hage⟩
  | @ends gone _ _ hdelete =>
    have hnext := hage.delete hs hdelete
    split at hnext
    · exact ⟨d + 1, Nat.le_succ d, le_rfl, hnext⟩
    · exact ⟨d, Nat.le_refl d, Nat.le_succ d, hnext⟩

theorem Sound.perform (hs : h.Sound) (op : HeapOp) : (h.perform op).2.Sound := by
  obtain ⟨s, hbecomes, -⟩ := hs.performs op
  exact hbecomes.sound

/-- Operations make a reference older by at most the number of their deletions. -/
theorem Age.after (hage : h.Age id d) (hs : h.Sound) (ops : List HeapOp) :
    ∃ d', d ≤ d' ∧ d' ≤ d + h.deletions ops ∧ (h.after ops).Age id d' := by
  induction ops generalizing h d with
  | nil => exact ⟨d, Nat.le_refl d, Nat.le_refl d, hage⟩
  | cons op ops ih =>
    obtain ⟨d1, hle1, hup1, hage1⟩ := hage.perform hs op
    obtain ⟨d2, hle2, hup2, hage2⟩ := ih hage1 (hs.perform op)
    refine ⟨d2, hle1.trans hle2, ?_, hage2⟩
    rw [deletions_cons]
    omega

/-- No reference that has an age is handed out again. -/
theorem Age.not_issued (hage : h.Age id d) (hs : h.Sound) {ops : List HeapOp}
    (hd : d + h.deletions ops < 2 ^ 32) : id ∉ h.issued ops := by
  induction ops generalizing h d with
  | nil => exact List.not_mem_nil
  | cons op ops ih =>
    obtain ⟨d', -, hup, hage'⟩ := hage.perform hs op
    rw [deletions_cons] at hd
    have hrest := ih hage' (hs.perform op) (by omega)
    intro hmem
    obtain ⟨answer, hanswer, hid⟩ := List.mem_filterMap.mp hmem
    rcases hanswer with _ | ⟨_, hlater⟩
    · have hturns := h.perform_turns op
      generalize (h.perform op).1 = answer, (h.perform op).2 = h' at hturns hid
      cases hturns with
      | issues hin =>
        cases hid
        exact hage.ne_fresh hs (by omega) hin rfl
      | ends | stores => cases hid
      | rests hno =>
        unfold issued? at hid
        split at hid
        · exact hno _ rfl
        · cases hid
    · exact hrest (List.mem_filterMap.mpr ⟨answer, hlater, hid⟩)

/-- The references that are handed out differ from each other, and fit into 32 bits. -/
theorem Sound.issued (hs : h.Sound) (hmax : h.settings.maxEntries ≤ 2 ^ 32) {ops : List HeapOp}
    (hd : h.deletions ops < 2 ^ 32) : (h.issued ops).Nodup ∧ ∀ id ∈ h.issued ops,
      id.index < 2 ^ 32 := by
  induction ops generalizing h with
  | nil => exact ⟨.nil, nofun⟩
  | cons op ops ih =>
    obtain ⟨s, hbecomes, -⟩ := hs.performs op
    rw [deletions_cons] at hd
    obtain ⟨hnodup, hindex⟩ := ih hbecomes.sound (hbecomes.settings ▸ hmax) (by omega)
    cases hid : issued? (h.perform op).1 with
    | none =>
      have heq : h.issued (op :: ops) = (h.perform op).2.issued ops := List.filterMap_cons_none hid
      rw [heq]
      exact ⟨hnodup, hindex⟩
    | some id =>
      have heq : h.issued (op :: ops) = id :: (h.perform op).2.issued ops :=
        List.filterMap_cons_some hid
      have hage : (h.perform op).2.Age id 0 := by
        have hturns := h.perform_turns op
        generalize (h.perform op).1 = answer, (h.perform op).2 = h' at hturns hid
        cases hturns with
        | issues hin =>
          cases hid
          exact .inserted hs hin
        | ends | stores => cases hid
        | rests hno =>
          unfold issued? at hid
          split at hid
          · exact absurd rfl (hno _)
          · cases hid
      rw [heq, List.nodup_cons, List.forall_mem_cons]
      exact ⟨⟨hage.not_issued hbecomes.sound (by omega), hnodup⟩,
        hbecomes.sound.index_lt (hbecomes.settings ▸ hmax) (hage.2 rfl), hindex⟩

/-! ## References to what was deleted -/

end Heap

/-- The references that an operation goes through to an entry, in order. -/
def HeapOp.follows : HeapOp → List HeapId
  | .create _ | .liveCount | .contains _ => []
  | .concat left right | .stringsEqual left right => [left, right]
  | .delete id | .setElement id _ _ | .setField id _ _ | .tag id | .string id | .layoutOf id
  | .field id _ | .arraySize id | .element id _ => [id]

namespace Heap

variable {h : Heap} {id : HeapId}

/-- Nothing goes through a reference: whatever tries to fails and says so, unless it has failed
before at another reference that had to name a string. -/
structure Stale (h : Heap) (id : HeapId) : Prop where
  contains : h.contains id = false
  fails : ∀ op, op.follows.head? = some id → (h.perform op).1 = .error (.freed id)
  failsSecond : ∀ op left, op.follows = [left, id] → ∀ text, h.string left = .ok text →
    (h.perform op).1 = .error (.freed id)
  failsFirst : ∀ op left, op.follows = [left, id] → ∀ e, h.string left = .error e →
    (h.perform op).1 = .error e

theorem stale_of_none (hnone : h.find? id = none) : h.Stale id := by
  have hget := get_freed hnone
  have hstring : h.string id = .error (.freed id) := by rw [string, hget]; rfl
  have harray : h.array id = .error (.freed id) := by rw [array, hget]; rfl
  have hobject : h.object id = .error (.freed id) := by rw [object, hget]; rfl
  refine ⟨by rw [contains, hnone]; rfl, fun op hop => ?_, fun op left hop text htext => ?_,
    fun op left hop e he => ?_⟩
  · cases op with
    | create | liveCount | contains => cases hop
    | _ =>
      cases hop
      simp only [perform, concat, delete, setElement, setField, store, tag, stringsEqual,
        layoutOf, field, arraySize, fieldCount, element, hnone, hget, hstring, harray,
        hobject]
      rfl
  · cases op with
    | concat a b | stringsEqual a b =>
      obtain ⟨rfl, rfl⟩ : a = left ∧ b = id := by simpa [HeapOp.follows] using hop
      simp only [perform, concat, stringsEqual, htext, hstring]
      rfl
    | _ => cases hop
  · cases op with
    | concat a b | stringsEqual a b =>
      obtain ⟨rfl, rfl⟩ : a = left ∧ b = id := by simpa [HeapOp.follows] using hop
      simp only [perform, concat, stringsEqual, he]
      rfl
    | _ => cases hop

/-- Up to `2 ^ 32` deletions, whatever came before, references are handed out once only, and those
to what was deleted stay stale. -/
theorem after_stale (settings : HeapSettings) (hmax : settings.maxEntries ≤ 2 ^ 32)
    (past ops : List HeapOp) (hdeletions : (after { settings } past).deletions ops < 2 ^ 32) :
    ((after { settings } past).issued ops).Nodup ∧
      (∀ id ∈ (after { settings } past).issued ops, id.index < 2 ^ 32) ∧
      ∀ before id later, ops = before ++ .delete id :: later →
        (∃ p, (((after { settings } past).after before).delete id).1 = .ok p) →
        ((after { settings } past).after ops).Stale id := by
  obtain ⟨hs, hsettings⟩ := (sound_empty settings).after past
  generalize after { settings } past = h at hs hsettings hdeletions
  obtain ⟨hnodup, hindex⟩ := hs.issued (hsettings ▸ hmax) hdeletions
  refine ⟨hnodup, hindex, ?_⟩
  rintro before id later rfl ⟨p, hp⟩
  have hsound := (hs.after before).1
  have hdelete : (h.after before).delete id = (.ok p, ((h.after before).perform (.delete id)).2) :=
    Prod.ext hp rfl
  obtain ⟨d, hpos, hup, hage⟩ := (Age.deleted hdelete).after (hsound.perform _) later
  have hcounts : isDeletion ((h.after before).perform (.delete id)).1 = true := by
    rw [perform, hp]
    rfl
  rw [deletions_append, deletions_cons, if_pos hcounts] at hdeletions
  have hafter : h.after (before ++ .delete id :: later) =
      ((h.after before).perform (.delete id)).2.after later := List.foldl_append ..
  rw [hafter]
  exact stale_of_none (hage.find?_eq_none hpos (by omega))

/-- One slot for three entries: the reference to the first stays stale while the slot is used again.
-/
theorem after_stale_reuse : (1 : Nat) ≤ 2 ^ 32 ∧
    deletions { settings := { maxEntries := 1 } } [.create (.string "a"), .delete ⟨0, 0⟩,
      .create (.array #[.void]), .delete ⟨0, 1⟩, .create (.string "b")] < 2 ^ 32 ∧
    (issued { settings := { maxEntries := 1 } } [.create (.string "a"), .delete ⟨0, 0⟩,
      .create (.array #[.void]), .delete ⟨0, 1⟩, .create (.string "b")]).Nodup ∧
    Stale (after { settings := { maxEntries := 1 } } [.create (.string "a"), .delete ⟨0, 0⟩,
      .create (.array #[.void]), .delete ⟨0, 1⟩, .create (.string "b")]) ⟨0, 0⟩ := by
  have hdeletions : deletions { settings := { maxEntries := 1 } }
      [.create (.string "a"), .delete ⟨0, 0⟩, .create (.array #[.void]), .delete ⟨0, 1⟩,
        .create (.string "b")] < 2 ^ 32 := by decide
  have hstale := after_stale { maxEntries := 1 } (by decide) [] _ hdeletions
  exact ⟨by decide, hdeletions, hstale.1, hstale.2.2 [.create (.string "a")] ⟨0, 0⟩ _ rfl ⟨_, rfl⟩⟩

/-- A deleted string is not what the error is about if the string to go before it is an array. -/
theorem concat_fails_first : ¬ ∀ (before : List HeapOp) (id : HeapId) (op : HeapOp),
    deletions {} (before ++ [.delete id]) < 2 ^ 32 →
    (∃ p, ((after {} before).delete id).1 = .ok p) →
    id ∈ op.follows → ((after {} (before ++ [.delete id])).perform op).1 = .error (.freed id) := by
  intro hall
  have hfreed := hall [.create (.array #[]), .create (.string "a")] ⟨1, 0⟩ (.concat ⟨0, 0⟩ ⟨1, 0⟩)
    (by decide) ⟨.string "a", rfl⟩ (by decide)
  have hkind :
    ((after {} ([.create (.array #[]), .create (.string "a")] ++ [.delete ⟨1, 0⟩])).perform
      (.concat ⟨0, 0⟩ ⟨1, 0⟩)).1 = .error (.wrongKind ⟨0, 0⟩ .string .array) := rfl
  cases hfreed.symm.trans hkind

end Heap

end Bytescript
