import Bytescript.Proofs.Lowering.Image
import Mathlib.Data.List.Forall2

/-!
# Flow of types

What is known at an index of compiled code is a `Point`: the types of the values on the operand
stack and the slots that hold values of their types. An `Annotation` gives points to indices, and
`Checks` says what an instruction asks of the points at its own index and at those where it may go
on.

`Flows` is the same for a piece of code, which can be composed with others: whatever the annotation
is elsewhere, the piece can be annotated such that it leads from one point to another. Jumps out of
the piece rest on an assumption about the annotation there.
-/

namespace Bytescript

open TypeTable (primitives)

/-! ## Kinds -/

variable {t : TypeId} {G : Annotation} {k b : Nat} {p q : Point} {ps ps' : List Point}
  {i : Instruction}

theorem kindOf_eq_int (h : primitives.kindOf t = .int) : t = .int ∨ t = .bool := by
  rw [TypeTable.primitives_regular.kindOf_eq, TypeId.kind] at h
  split at h
  · assumption
  · split at h <;> cases h

theorem kindOf_eq_float (h : primitives.kindOf t = .float) : t = .double := by
  rw [TypeTable.primitives_regular.kindOf_eq, TypeId.kind] at h
  split at h
  · cases h
  · split at h
    · assumption
    · cases h

theorem kindOf_number (h : t = .int ∨ t = .double) : primitives.kindOf t ≠ .ref := by
  rcases h with rfl | rfl <;> decide

/-- What an operator does: arithmetic on numbers, joining strings, or comparing, where all but
numbers can only be compared for equality. -/
theorem operation?_cases {op : BinaryOp} {result : TypeId}
    (h : primitives.operation? op t = some (i, result)) :
    (∃ o, (t = .int ∨ t = .double) ∧ i = .arith (primitives.kindOf t) o ∧ result = t) ∨
    (∃ cmp, (t = .int ∨ t = .double ∨ t ≠ .void ∧ (cmp = .eq ∨ cmp = .ne)) ∧
      i = .compare (primitives.kindOf t) cmp ∧ result = .bool) ∨
    t = .string ∧ i = .concat ∧ result = .string := by
  unfold TypeTable.operation? at h
  simp only [TypeTable.primitives_regular.resolve] at h
  simp only [TypeTable.primitives_regular.kindOf_eq]
  split at h
  next ht =>
    split at h
    next o =>
      cases h
      exact .inl ⟨o, ht, rfl, rfl⟩
    next cmp =>
      cases h
      exact .inr (.inl ⟨cmp, ht.imp_right .inl, rfl, rfl⟩)
    · cases h
  · split at h
    next ht =>
      cases h
      exact .inr (.inr ⟨ht.1, rfl, ht.1⟩)
    · split at h
      · cases h
      next hvoid =>
        split at h
        · cases h
          exact .inr (.inl ⟨.eq, .inr (.inr ⟨hvoid, .inl rfl⟩), rfl, rfl⟩)
        · cases h
          exact .inr (.inl ⟨.ne, .inr (.inr ⟨hvoid, .inr rfl⟩), rfl, rfl⟩)
        · cases h

/-! ## Points -/

structure Point where
  /-- The types of the values on the stack, the top first. -/
  stack : List TypeId
  /-- The slots that hold values of their types. -/
  live : Nat → Prop

/-- Values of one type serve as values of another without being changed. -/
def TypeId.Serves (a b : TypeId) : Prop := a = b ∨ a = .bool ∧ b = .int

theorem TypeId.Serves.trans {a b c : TypeId} (h : a.Serves b) (h' : b.Serves c) : a.Serves c := by
  rcases h with rfl | ⟨rfl, rfl⟩
  · exact h'
  · rcases h' with rfl | ⟨h, -⟩
    · exact .inr ⟨rfl, rfl⟩
    · cases h

/-- Whatever is known at the second point is known at the first. -/
structure Point.Refines (p q : Point) : Prop where
  stack : List.Forall₂ TypeId.Serves p.stack q.stack
  live : ∀ i, q.live i → p.live i

namespace Point.Refines

theorem refl (p : Point) : p.Refines p :=
  ⟨List.forall₂_same.mpr fun _ _ => .inl rfl, fun _ => id⟩

theorem trans {r : Point} (h : p.Refines q) (h' : q.Refines r) : p.Refines r where
  stack := by
    have aux : ∀ {a b c : List TypeId}, List.Forall₂ TypeId.Serves a b →
        List.Forall₂ TypeId.Serves b c → List.Forall₂ TypeId.Serves a c := by
      intro a b c hab
      induction hab generalizing c with
      | nil => exact fun hbc => hbc
      | cons hd _ ih =>
        intro hbc
        obtain ⟨_, _, hd', htl, rfl⟩ := List.forall₂_cons_left_iff.mp hbc
        exact .cons (hd.trans hd') (ih htl)
    exact aux h.stack h'.stack
  live i hi := h.live i (h'.live i hi)

variable {st : List TypeId} {L : Nat → Prop}

theorem of_live {L' : Nat → Prop} (h : ∀ i, L' i → L i) :
    Point.Refines ⟨st, L⟩ ⟨st, L'⟩ := ⟨(refl ⟨st, L⟩).stack, h⟩

end Point.Refines

/-! ## Instructions -/

/-- The types of what an instruction takes off the stack and of what it leaves there, the top first.
Variables and jumps are none of its business. -/
inductive Takes (T : Tables) : Instruction → List TypeId → List TypeId → Prop
  | pushByte {n} : Takes T (.pushByte n) [] [.int]
  | pushBool {b : Bool} : Takes T (boolByte b) [] [.bool]
  | pushShort {n} : Takes T (.pushShort n) [] [.int]
  | integer {c v} : T.pool[c.toNat]? = some (.integer v) →
    Takes T (.pushConst c) [] [.int]
  | float {c v} : T.pool[c.toNat]? = some (.float v) →
    Takes T (.pushConst c) [] [.double]
  | string {c v} : T.pool[c.toNat]? = some (.string v) →
    Takes T (.pushConst c) [] [.string]
  | pushVoid {t : TypeId} : primitives.kindOf t = .ref → Takes T .pushVoid [] [t]
  | pop {t : TypeId} : Takes T .pop [t] []
  | dup {t : TypeId} : Takes T .dup [t] [t, t]
  | dup2 {a b} : Takes T .dup2 [a, b] [a, b, a, b]
  | getField {cls t info name m kind} :
    T.scopes.classInfo? cls = some info → T.HasMember info name m t →
    Takes T (.getField kind m) [cls] [t]
  | setField {cls t info name m} :
    T.scopes.classInfo? cls = some info → T.HasMember info name m t →
    Takes T (.setField (primitives.kindOf t) m) [t, cls] []
  | operation {op t result i} : primitives.operation? op t = some (i, result) →
    Takes T i [t, t] [result]
  | neg {t : TypeId} : t = .int ∨ t = .double → Takes T (.neg (primitives.kindOf t)) [t] [t]
  | not : Takes T .not [.bool] [.bool]
  | intToFloat {t : TypeId} : primitives.kindOf t = .int → Takes T .intToFloat [t] [.double]
  | floatToInt : Takes T .floatToInt [.double] [.int]
  | call {i params result} : Callee T i params result →
    Takes T i params.reverse [result]
  | construct {cls info} : T.scopes.classInfo? cls = some info →
    Takes T (.call info.constructor) [cls] [cls]
  | newObject {cls info} : T.scopes.classInfo? cls = some info →
    Takes T (.newObject info.scopes.constant) [] [cls]
  | newArray {s term el array} :
    T.types.meaning s term = some el → T.types.generic? .array [el] = some array →
    Takes T (.newArray (primitives.kindOf el)) [.int] [array]
  | getElement {t el kind} : T.types.element? t = some el →
    Takes T (.getElement kind) [.int, t] [el]
  | setElement {t el} : T.types.element? t = some el →
    Takes T (.setElement (primitives.kindOf el)) [el, .int, t] []
  | arrayLength {t el} : T.types.element? t = some el → Takes T .arrayLength [t] [.int]
  | delete {t : TypeId} : t ≠ .void → primitives.kindOf t = .ref → Takes T .delete [t] []

/-- Instructions that compute or call, and neither read a slot nor go elsewhere. -/
def Instruction.isComputing : Instruction → Bool
  | .noOp | .stop | .load _ _ | .store _ _ | .jump _ _ | .ret | .retVoid => false
  | _ => true

theorem Takes.isComputing {T : Tables} {ins outs : List TypeId} (h : Takes T i ins outs) :
    i.isComputing = true := by
  cases h with
  | operation hop =>
    rcases operation?_cases hop with ⟨_, -, rfl, -⟩ | ⟨_, -, rfl, -⟩ | ⟨-, rfl, -⟩ <;> rfl
  | call hcallee => cases hcallee <;> rfl
  | _ => rfl

abbrev Annotation := Nat → Option Point

/-- What is known at a point is enough for going on at an index. -/
def Accepts (G : Annotation) (k : Nat) (p : Point) : Prop := ∃ q, G k = some q ∧ p.Refines q

theorem Accepts.mono (h : Accepts G k q) (hp : p.Refines q) :
    Accepts G k p := h.imp fun _ hr => ⟨hr.1, hp.trans hr.2⟩

theorem Accepts.at {k' : Nat} (h : Accepts G k p) (hk : k = k') : Accepts G k' p := hk ▸ h

/-- What an instruction at an index asks of the points there and where it may go on. The slots of
the routine have the types `Δ`. -/
inductive Checks (T : Tables) (H : Home) (Δ : List TypeId) (G : Annotation) (k : Nat) :
    Point → Instruction → Prop
  | plain {i : Instruction} {ins outs st : List TypeId} {L : Nat → Prop} : Takes T i ins outs →
    Accepts G (k + 1) ⟨outs ++ st, L⟩ → Checks T H Δ G k ⟨ins ++ st, L⟩ i
  | load {kind slot t st L} :
    Δ[slot.toNat]? = some t → L slot.toNat → Accepts G (k + 1) ⟨t :: st, L⟩ →
    (kind ≠ .ref → kind = primitives.kindOf t) → Checks T H Δ G k ⟨st, L⟩ (.load kind slot)
  | store {slot t st L} :
    Δ[slot.toNat]? = some t → Accepts G (k + 1) ⟨st, fun i => i = slot.toNat ∨ L i⟩ →
    Checks T H Δ G k ⟨t :: st, L⟩ (.store (primitives.kindOf t) slot)
  | jump {target p} : Accepts G target p →
    Checks T H Δ G k p (.jump .always target.toUInt32)
  | branch {trigger target st L} :
    trigger ≠ .always → Accepts G target ⟨st, L⟩ → Accepts G (k + 1) ⟨st, L⟩ →
    Checks T H Δ G k ⟨.bool :: st, L⟩ (.jump trigger target.toUInt32)
  | ret {L} : H.role ≠ .main → Checks T H Δ G k ⟨[H.result], L⟩ .ret
  | retVoid {L} : H.role ≠ .main → H.result = .void → Checks T H Δ G k ⟨[], L⟩ .retVoid
  | stop {L} : H.role = .main → Checks T H Δ G k ⟨[], L⟩ .stop

/-! ## Pieces of code -/

/-- A piece of an annotation stands at an index. -/
def Located (G : Annotation) (b : Nat) (ps : List Point) : Prop :=
  ∀ (j : Nat) p, ps[j]? = some p → G (b + j) = some p

theorem Located.append (h : Located G b (ps ++ ps')) :
    Located G b ps ∧ Located G (b + ps.length) ps' := by
  refine ⟨fun j p hj => h j p ?_, fun j p hj => ?_⟩
  · obtain ⟨hlt, -⟩ := getElem_of_getElem? hj
    rwa [List.getElem?_append_left hlt]
  · rw [Nat.add_assoc]
    refine h (ps.length + j) p ?_
    rwa [List.getElem?_append_right (Nat.le_add_right _ _), Nat.add_sub_cancel_left]

/-- Code that is annotated so can be entered with `p`, if `q` is what is known behind it. -/
def Entered (p : Point) (q : Point) : List Point → Prop
  | [] => p.Refines q
  | first :: _ => p.Refines first

theorem Entered.append {r : Point} (h : Entered p q ps) (h' : Entered q r ps') :
    Entered p r (ps ++ ps') := by
  cases ps with
  | nil =>
    cases ps' with
    | nil => exact Point.Refines.trans h h'
    | cons => exact Point.Refines.trans h h'
  | cons => exact h

theorem Entered.accepts (h : Entered p q ps) (hloc : Located G b ps)
    (hend : Accepts G (b + ps.length) q) : Accepts G b p := by
  cases ps with
  | nil => exact hend.mono h
  | cons first rest => exact ⟨first, hloc 0 first rfl, h⟩

/-- Code at the index `b` leads from `p` to `q` with the annotation `ps`, if the annotation around
it is as `E` says. -/
structure Annotated (T : Tables) (H : Home) (Δ : List TypeId) (E : Annotation → Prop) (b : Nat)
    (code : List Instruction) (p q : Point) (ps : List Point) : Prop where
  length : ps.length = code.length
  entered : Entered p q ps
  checks : ∀ G, Located G b ps → Accepts G (b + code.length) q → E G →
    ∀ (j : Nat) i, code[j]? = some i → ∃ r, ps[j]? = some r ∧ Checks T H Δ G (b + j) r i

/-- Code at the index `b` leads from `p` to `q`, if the annotation around it is as `E` says. -/
def Flows (T : Tables) (H : Home) (Δ : List TypeId) (E : Annotation → Prop) (b : Nat)
    (code : List Instruction) (p q : Point) : Prop :=
  ∃ ps, Annotated T H Δ E b code p q ps

section

variable {T : Tables} {H : Home} {Δ : List TypeId} {E E' : Annotation → Prop} {b : Nat}
  {c c1 c2 : List Instruction} {p q r s : Point} {ps ps' : List Point}

namespace Annotated

theorem start (h : Annotated T H Δ E b c p q ps) (hloc : Located G b ps)
    (hend : Accepts G (b + c.length) q) : Accepts G b p :=
  h.entered.accepts hloc (h.length ▸ hend)

theorem append (h : Annotated T H Δ E b c1 p q ps)
    (h' : Annotated T H Δ E (b + c1.length) c2 q r ps') :
    Annotated T H Δ E b (c1 ++ c2) p r (ps ++ ps') where
  length := by simp [h.length, h'.length]
  entered := h.entered.append h'.entered
  checks G hloc hend hE j i hj := by
    obtain ⟨hloc, hloc'⟩ := hloc.append
    rw [h.length] at hloc'
    rw [List.length_append, ← Nat.add_assoc] at hend
    by_cases hlt : j < c1.length
    · rw [List.getElem?_append_left hlt] at hj
      rw [List.getElem?_append_left (h.length ▸ hlt)]
      exact h.checks G hloc (h'.start hloc' hend) hE j i hj
    · obtain ⟨d, rfl⟩ := Nat.exists_eq_add_of_le (Nat.not_lt.mp hlt)
      rw [List.getElem?_append_right (by omega), Nat.add_sub_cancel_left] at hj
      rw [List.getElem?_append_right (by rw [h.length]; omega), h.length, Nat.add_sub_cancel_left,
        ← Nat.add_assoc]
      exact h'.checks G hloc' hend hE d i hj

theorem single {i : Instruction} (h : ∀ G, Accepts G (b + 1) q → E G → Checks T H Δ G b p i) :
    Annotated T H Δ E b [i] p q [p] where
  length := rfl
  entered := .refl p
  checks G _ hend hE j i' hj := by
    cases j with
    | zero =>
      cases hj
      exact ⟨p, rfl, h G hend hE⟩
    | succ j => simp at hj

/-- What is assumed may follow from the annotation itself. -/
theorem discharge (h : Annotated T H Δ E' b c p q ps)
    (hE : ∀ G, Located G b ps → Accepts G (b + c.length) q → E G → E' G) :
    Annotated T H Δ E b c p q ps :=
  { h with checks := fun G hloc hend h1 => h.checks G hloc hend (hE G hloc hend h1) }

end Annotated

namespace Flows

variable {st : List TypeId} {L : Nat → Prop} {slot : UInt16} {target : Nat}

theorem nil (h : p.Refines q) : Flows T H Δ E b [] p q :=
  ⟨[], rfl, h, fun _ _ _ _ j _ hj => by simp at hj⟩

theorem append (h : Flows T H Δ E b c1 p q) (h' : Flows T H Δ E (b + c1.length) c2 q r) :
    Flows T H Δ E b (c1 ++ c2) p r := by
  obtain ⟨ps, h⟩ := h
  obtain ⟨ps', h'⟩ := h'
  exact ⟨ps ++ ps', h.append h'⟩

theorem assume (h : Flows T H Δ E b c p q) (hE : ∀ G, E' G → E G) : Flows T H Δ E' b c p q := by
  obtain ⟨ps, h⟩ := h
  exact ⟨ps, h.discharge fun G _ _ => hE G⟩

theorem refine_right (h : Flows T H Δ E b c p q) (hr : q.Refines r) : Flows T H Δ E b c p r := by
  have hnil : Flows T H Δ E (b + c.length) [] q r := nil hr
  have happend := h.append hnil
  rwa [List.append_nil] at happend

/-- Code may jump to its own beginning. -/
theorem fromStart (h : Flows T H Δ (fun G => E G ∧ Accepts G b p) b c p q) :
    Flows T H Δ E b c p q := by
  obtain ⟨ps, h⟩ := h
  exact ⟨ps, h.discharge fun G hloc hend hE => ⟨hE, h.start hloc hend⟩⟩

/-- Code may jump behind itself. -/
theorem toEnd (h : Flows T H Δ (fun G => E G ∧ Accepts G (b + c.length) q) b c p q) :
    Flows T H Δ E b c p q := by
  obtain ⟨ps, h⟩ := h
  exact ⟨ps, h.discharge fun _ _ hend hE => ⟨hE, hend⟩⟩

/-! ### Single instructions -/

theorem plain {i : Instruction} {ins outs : List TypeId} (h : Takes T i ins outs) :
    Flows T H Δ E b [i] ⟨ins ++ st, L⟩ ⟨outs ++ st, L⟩ :=
  ⟨_, .single fun _ hend _ => .plain h hend⟩

theorem load {kind : Kind} (ht : Δ[slot.toNat]? = some t) (hlive : L slot.toNat)
    (hkind : kind ≠ .ref → kind = primitives.kindOf t) :
    Flows T H Δ E b [.load kind slot] ⟨st, L⟩ ⟨t :: st, L⟩ :=
  ⟨_, .single fun _ hend _ => .load ht hlive hend hkind⟩

theorem store (ht : Δ[slot.toNat]? = some t) :
    Flows T H Δ E b [.store (primitives.kindOf t) slot] ⟨t :: st, L⟩
      ⟨st, fun i => i = slot.toNat ∨ L i⟩ :=
  ⟨_, .single fun _ hend _ => .store ht hend⟩

theorem jump (h : ∀ G, E G → Accepts G target p) :
    Flows T H Δ E b [.jump .always target.toUInt32] p q :=
  ⟨_, .single fun G _ hE => .jump (h G hE)⟩

theorem branch {trigger : Trigger} (ht : trigger ≠ .always)
    (h : ∀ G, E G → Accepts G target ⟨st, L⟩) :
    Flows T H Δ E b [.jump trigger target.toUInt32] ⟨.bool :: st, L⟩ ⟨st, L⟩ :=
  ⟨_, .single fun G hend hE => .branch ht (h G hE) hend⟩

/-- A jump over a piece of code, which is then reached from behind. -/
theorem around (E' : Annotation → Prop)
    (hE : ∀ G, E G → Accepts G (b + 1) q → Accepts G (b + 1 + c1.length) r → E' G)
    (h1 : Flows T H Δ E' (b + 1) c1 q r) (h2 : Flows T H Δ E' (b + 1 + c1.length) c2 r s) :
    Flows T H Δ E b (.jump .always (b + 1 + c1.length).toUInt32 :: (c1 ++ c2)) r s := by
  obtain ⟨ps1, h1⟩ := h1
  obtain ⟨ps2, h2⟩ := h2
  let entry : Annotation → Prop := fun G => E' G ∧ Accepts G (b + 1 + c1.length) r
  have hjump : Annotated T H Δ entry b [.jump .always (b + 1 + c1.length).toUInt32] r q [r] :=
    .single fun _ _ hE => .jump hE.2
  have hrest : Annotated T H Δ entry (b + 1) (c1 ++ c2) q s (ps1 ++ ps2) :=
    (h1.append h2).discharge fun _ _ _ hE => hE.1
  refine ⟨_, (hjump.append hrest).discharge fun G hloc hend hE' => ?_⟩
  obtain ⟨-, hloc⟩ := hloc.append
  obtain ⟨hloc1, hloc2⟩ := hloc.append
  rw [h1.length] at hloc2
  rw [List.singleton_append, List.length_cons, List.length_append, Nat.add_comm _ 1,
    ← Nat.add_assoc, ← Nat.add_assoc] at hend
  have hentry := h2.start hloc2 hend
  exact ⟨hE G hE' (h1.start hloc1 hentry) hentry, hentry⟩

/-! ### Whole routines -/

/-- Code that flows without assumptions can be annotated. -/
theorem annotation {code : List Instruction} (h : Flows T H Δ (fun _ => True) 0 code p q) :
    ∃ G : Annotation, (∀ k, code.length < k → G k = none) ∧ Accepts G 0 p ∧
      ∀ (k : Nat) i, code[k]? = some i → ∃ r, G k = some r ∧ Checks T H Δ G k r i := by
  obtain ⟨ps, h⟩ := h
  let G : Annotation := fun k => (ps ++ [q])[k]?
  have hloc : Located G 0 ps := by
    intro j r hj
    obtain ⟨hlt, -⟩ := getElem_of_getElem? hj
    rw [Nat.zero_add, ← hj]
    exact List.getElem?_append_left hlt
  have hend : Accepts G (0 + code.length) q := by
    refine ⟨q, ?_, .refl q⟩
    rw [Nat.zero_add, ← h.length]
    exact List.getElem?_concat_length
  refine ⟨G, fun k hk => ?_, h.start hloc hend, fun k i hi => ?_⟩
  · refine List.getElem?_eq_none ?_
    rw [List.length_append, h.length]
    exact hk
  · obtain ⟨r, hr, hchecks⟩ := h.checks G hloc hend trivial k i hi
    rw [Nat.zero_add] at hchecks
    exact ⟨r, Nat.zero_add k ▸ hloc k r hr, hchecks⟩

end Flows

end

end Bytescript
