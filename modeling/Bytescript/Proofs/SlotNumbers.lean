import Bytescript.Proofs.Nesting

/-!
# Slot numbers

A table is used here in whatever way its operations allow: scopes are opened in any scope and at any
depth, removed from any depth on, and names are declared in scopes that may be gone already. The
slots that a root gives to variables are still numbered without gaps, in the order in which the
variables are declared (`Counted.dense`), and the count of a scope is the number of variables that
its root has ever had (`Counted.slots`).

What a call does to a table is said once (`Handles`), together with the variable that it places. The
scopes on a path and their kinds never change, so a scope has the same slot root for good.
-/

namespace Bytescript

/-- What can be asked of a table. A compiler asks for some of this only. -/
inductive ScopeCall where
  | block (parent : ScopeId) (depth : Nat)
  | body (parent : ScopeId) (depth : Nat)
  | remove (depth : Nat)
  | perform (op : ScopeOp)
deriving DecidableEq, Repr

/-- A variable that a slot has been given to. -/
structure Placement where
  scope : ScopeId
  root : ScopeId
  name : String
  type : TypeId
  slot : UInt16
deriving DecidableEq, Repr

def Placement.symbol (p : Placement) : Symbol := ⟨p.name, p.type, .variable p.slot⟩

/-- The variables of a root in the order in which they were declared. -/
def Placement.under (root : ScopeId) (ps : List Placement) : List Placement :=
  ps.filter (·.root = root)

namespace ScopeTable

variable (t : ScopeTable)

def answer : ScopeCall → ScopeAnswer × ScopeTable
  | .block parent depth =>
    let r := t.pushBlock parent depth
    (.opened r.1, r.2)
  | .body parent depth =>
    let r := t.pushRoot parent depth
    (.opened r.1, r.2)
  | .remove depth => (.done, t.remove depth)
  | .perform op => t.perform op

/-- The scopes that a call names exist. They may have been removed. -/
def Knows : ScopeCall → Prop
  | .block parent _ | .body parent _ | .perform (.openBody parent) => parent.index < t.size
  | .remove _ | .perform .openBlock | .perform .close => True
  | .perform (.variable s _ _) | .perform (.function s _ _ _ _) | .perform (.method s _ _ _ _)
  | .perform (.classType s _ _ _ _ _) => s.index < t.size

instance : (call : ScopeCall) → Decidable (t.Knows call)
  | .block parent _ | .body parent _ | .perform (.openBody parent) =>
    inferInstanceAs (Decidable (parent.index < t.size))
  | .remove _ | .perform .openBlock | .perform .close => inferInstanceAs (Decidable True)
  | .perform (.variable s _ _) | .perform (.function s _ _ _ _) | .perform (.method s _ _ _ _)
  | .perform (.classType s _ _ _ _ _) => inferInstanceAs (Decidable (s.index < t.size))

/-- The variable that a call places, if it does. -/
def places (call : ScopeCall) : List Placement :=
  match call, (t.answer call).1 with
  | .perform (.variable s name type), .slot slot => [⟨s, t.slotRoot s, name, type, slot⟩]
  | _, _ => []

def outcome (t : ScopeTable) : List ScopeCall → ScopeTable
  | [] => t
  | call :: calls => (t.answer call).2.outcome calls

/-- The variables that calls place, in order. -/
def placements (t : ScopeTable) : List ScopeCall → List Placement
  | [] => []
  | call :: calls => t.places call ++ (t.answer call).2.placements calls

/-- Each of the calls names scopes that exist when its turn comes. -/
def KnowsAll (t : ScopeTable) : List ScopeCall → Prop
  | [] => True
  | call :: calls => t.Knows call ∧ (t.answer call).2.KnowsAll calls

instance decidableKnowsAll (t : ScopeTable) :
    (calls : List ScopeCall) → Decidable (t.KnowsAll calls)
  | [] => inferInstanceAs (Decidable True)
  | call :: calls =>
    have := decidableKnowsAll (t.answer call).2 calls
    inferInstanceAs (Decidable (t.Knows call ∧ (t.answer call).2.KnowsAll calls))

/-- The variables that a scope declares, as they were declared. -/
def ownVariables (id : ScopeId) : List Symbol :=
  (t.scope id).symbols.toList.filter fun sym => sym.slot?.isSome

/-! ## What a call does -/

/-- What can become of a table, and the variables that are placed. -/
inductive Handles (t : ScopeTable) : List Placement → ScopeTable → Prop where
  | keeps : Handles t [] t
  | opens (parent : ScopeId) (depth : Nat) (kind : ScopeKind) :
    Handles t [] (t.push parent depth kind).2
  | removes (depth : Nat) : Handles t [] (t.remove depth)
  | enters (s : ScopeId) (sym : Symbol) (hsym : sym.slot? = none) : Handles t [] (t.declare s sym)
  | joins (s : ScopeId) (sym : Symbol) (depth : Nat) (classes : List (TypeId × ScopeId × Nat))
      (hsym : sym.slot? = none) : Handles t [] { (t.openTables s depth).declare s sym with classes }
  | gives (p : Placement) (hs : p.scope.index < t.size) (hroot : p.root = t.slotRoot p.scope)
      (hslot : p.slot = (t.slotCount p.scope).toUInt16)
      (hlimit : t.slotCount p.scope < ScopeError.slotLimit) :
      Handles t [p] ((t.takeSlot p.root).declare p.scope p.symbol)

variable {t : ScopeTable} {calls : List ScopeCall} {n : Nat}

theorem handles {call : ScopeCall} (hcall : t.Knows call) :
    t.Handles (t.places call) (t.answer call).2 := by
  cases call with
  | block parent depth => exact .opens parent depth .block
  | body parent depth => exact .opens parent depth .root
  | remove depth => exact .removes depth
  | perform op =>
    have hspec := t.perform_spec op
    simp only [places, answer]
    generalize t.perform op = r at hspec
    cases hspec with
    | refuses =>
      cases op <;> exact .keeps
    | opensBlock => exact .opens t.current _ .block
    | opensBody parent => exact .opens parent _ .root
    | closes => exact .removes t.depth
    | gives s name type _ hlimit =>
      exact .gives ⟨s, t.slotRoot s, name, type, (t.slotCount s).toUInt16⟩ hcall rfl rfl hlimit
    | function s | method s => exact .enters s _ rfl
    | joins s name qualified type types constant classes => exact .joins s _ _ classes rfl

/-! ## What stays -/

theorem declare_ownVariables {s : ScopeId} (hs : s.index < t.size) (sym : Symbol) (j : ScopeId) :
    (t.declare s sym).ownVariables j =
      t.ownVariables j ++ if j = s ∧ sym.slot?.isSome = true then [sym] else [] := by
  rw [ownVariables, declare_scope]
  by_cases hj : j = s
  · subst hj
    rw [if_pos ⟨rfl, hs⟩]
    by_cases hsym : sym.slot?.isSome = true <;> simp [hsym, ownVariables]
  · rw [if_neg fun h => hj h.1, if_neg fun h => hj h.1, List.append_nil, ownVariables]

/-! ## Counting -/

theorem under_append (root : ScopeId) (ps qs : List Placement) :
    Placement.under root (ps ++ qs) = Placement.under root ps ++ Placement.under root qs :=
  List.filter_append ..

theorem under_singleton (root : ScopeId) (p : Placement) :
    Placement.under root [p] = if p.root = root then [p] else [] := by
  by_cases hp : p.root = root <;> simp [Placement.under, hp]

/-- A table in which the given variables have been placed, from first to last. -/
structure Counted (t : ScopeTable) (ps : List Placement) : Prop extends Laid t where
  placed : ∀ p ∈ ps, p.scope.index < t.size ∧ t.slotRoot p.scope = p.root
  slots : ∀ root, (t.scope root).slots = (Placement.under root ps).length
  dense : ∀ root, (Placement.under root ps).map (·.slot.toNat) =
    List.range (Placement.under root ps).length
  limit : ∀ root, (Placement.under root ps).length ≤ ScopeError.slotLimit
  shown : ∀ j, ∀ sym ∈ t.ownVariables j, ∃ p ∈ ps, p.scope = j ∧ p.symbol = sym
  members : ∀ j, (t.scope j).kind = .members →
    t.ownVariables j = (ps.filter (·.scope = j)).map Placement.symbol

theorem counted_empty : ({} : ScopeTable).Counted [] := by
  have hvariables : ∀ j, ({} : ScopeTable).ownVariables j = [] := by
    intro j
    rcases empty_scope j with rfl | ⟨-, hdefault⟩
    · rfl
    · rw [ownVariables, hdefault]
      rfl
  refine ⟨laid_empty, nofun, fun root => ?_, fun _ => rfl, fun _ => Nat.zero_le _,
    fun j sym hsym => ?_, fun j _ => hvariables j⟩
  · rcases empty_scope root with rfl | ⟨-, hdefault⟩
    · rfl
    · rw [hdefault]
      rfl
  · rw [hvariables] at hsym
    cases hsym

namespace Counted

variable {t : ScopeTable} {ps : List Placement} (h : t.Counted ps)

include h

theorem slotCount (j : ScopeId) : t.slotCount j = (Placement.under (t.slotRoot j) ps).length :=
  h.slots _

variable {t' : ScopeTable}

/-- Nothing is counted anew where scopes keep their places and variables are at most removed, but
none of a class. -/
theorem congr (hsize : t'.size = t.size) (hactive : t'.active ⊆ t.active)
    (hshape : ∀ j, (t'.scope j).path = (t.scope j).path ∧ (t'.scope j).kind = (t.scope j).kind ∧
      (t'.scope j).slots = (t.scope j).slots)
    (hvariables : ∀ j, t'.ownVariables j ⊆ t.ownVariables j)
    (hmembers : ∀ j, (t.scope j).kind = .members → t'.ownVariables j = t.ownVariables j) :
    t'.Counted ps where
  toLaid := h.toLaid.congr hsize hactive fun j => ⟨(hshape j).1, (hshape j).2.1⟩
  placed p hp := by
    rw [hsize, slotRoot_congr (hshape p.scope).1 fun j _ => (hshape j).2.1]
    exact h.placed p hp
  slots root := (hshape root).2.2.trans (h.slots root)
  dense := h.dense
  limit := h.limit
  shown j sym hsym := h.shown j sym (hvariables j hsym)
  members j hj := by
    rw [(hshape j).2.1] at hj
    rw [hmembers j hj, h.members j hj]

theorem push (parent : ScopeId) (depth : Nat) (kind : ScopeKind) :
    (t.push parent depth kind).2.Counted ps := by
  have hold : ∀ {j : ScopeId}, j.index < t.size →
  (t.push parent depth kind).2.scope j = t.scope j :=
    push_scope_old
  -- nothing has been placed in the new scope, nor does it count for anything yet
  have hfresh : ∀ {j : ScopeId}, t.size ≤ j.index → ps.filter (·.scope = j) = [] := by
    intro j hj
    refine List.filter_eq_nil_iff.mpr fun p hp heq => ?_
    have := (h.placed p hp).1
    rw [of_decide_eq_true heq] at this
    omega
  have hunder : ∀ {j : ScopeId}, t.size ≤ j.index → Placement.under j ps = [] := by
    intro j hj
    refine List.filter_eq_nil_iff.mpr fun p hp heq => ?_
    have := h.slotRoot_lt p.scope
    rw [(h.placed p hp).2, of_decide_eq_true heq] at this
    omega
  have hvariables : ∀ j, (t.push parent depth kind).2.ownVariables j = t.ownVariables j := by
    intro j
    rw [ownVariables, push_scope, ownVariables]
    split
    next hj =>
      rw [scope_eq_default (Nat.le_of_eq hj.symm)]
      rfl
    · rfl
  refine ⟨h.toLaid.push, fun p hp => ?_, fun root => ?_, h.dense, h.limit,
    fun j sym hsym => h.shown j sym (hvariables j ▸ hsym), fun j hj => ?_⟩
  · obtain ⟨hlt, hroot⟩ := h.placed p hp
    refine ⟨by rw [push_size]; omega, ?_⟩
    rw [slotRoot_congr (congrArg Scope.path (hold hlt)) fun j hj => ?_, hroot]
    rw [hold (h.path_lt hj)]
  · rw [push_scope]
    split
    next heq => rw [hunder (Nat.le_of_eq heq.symm), List.length_nil]
    · exact h.slots root
  · rw [hvariables]
    by_cases hlt : j.index < t.size
    · rw [hold hlt] at hj
      exact h.members j hj
    · rw [hfresh (Nat.le_of_not_lt hlt), ownVariables, scope_eq_default (Nat.le_of_not_lt hlt)]
      rfl

theorem remove (depth : Nat) : (t.remove depth).Counted ps := by
  have hshape := remove_shape t depth
  refine h.congr (remove_size t depth) (List.dropWhile_suffix _).subset
    (fun j => ⟨(hshape j).1, (hshape j).2.2.1, (hshape j).2.2.2.1⟩) (fun j => ?_) fun j hj => ?_
  · have hmem := (hshape j).2.2.2.2
    simp only [List.mem_cons, List.not_mem_nil, or_false] at hmem
    rcases hmem with heq | heq <;> rw [ownVariables, heq]
    · exact List.Subset.refl _
    · exact List.nil_subset _
  · rw [ownVariables, remove_scope, ownVariables]
    intro hactive
    have := (h.active j hactive).2.2
    rw [hj] at this
    cases this

theorem declare (s : ScopeId) {sym : Symbol} (hsym : sym.slot? = none) :
    (t.declare s sym).Counted ps := by
  have hvariables : ∀ j, (t.declare s sym).ownVariables j = t.ownVariables j := by
    intro j
    rw [ownVariables, declare_scope, ownVariables]
    split
    · simp [hsym]
    · rfl
  refine h.congr (declare_size t s sym) (List.Subset.refl _) (fun j => ?_)
    (fun j => by rw [hvariables]; exact List.Subset.refl _) fun j _ => hvariables j
  rw [declare_scope]
  split <;> exact ⟨rfl, rfl, rfl⟩

/-- The next slot of a root is one that it has not given to anything yet. -/
theorem give {p : Placement} (hs : p.scope.index < t.size) (hroot : p.root = t.slotRoot p.scope)
    (hslot : p.slot = (t.slotCount p.scope).toUInt16)
    (hlimit : t.slotCount p.scope < ScopeError.slotLimit) :
    ((t.takeSlot p.root).declare p.scope p.symbol).Counted (ps ++ [p]) := by
  have hlt : p.root.index < t.size := hroot ▸ h.slotRoot_lt p.scope
  have hcount : t.slotCount p.scope = (Placement.under p.root ps).length :=
    by rw [h.slotCount, hroot]
  rw [hcount] at hslot hlimit
  have hnumber : p.slot.toNat = (Placement.under p.root ps).length := by
    rw [hslot, Nat.toUInt16_eq, UInt16.toNat_ofNat']
    exact Nat.mod_eq_of_lt hlimit
  have hshape : ∀ j, (((t.takeSlot p.root).declare p.scope p.symbol).scope j).path =
    (t.scope j).path ∧
      (((t.takeSlot p.root).declare p.scope p.symbol).scope j).kind = (t.scope j).kind := by
    intro j
    obtain ⟨hpath, -, hkind, -, -⟩ := takeSlot_shape t p.root j
    rw [declare_scope]
    split <;> exact ⟨hpath, hkind⟩
  have hvariables : ∀ j, ((t.takeSlot p.root).declare p.scope p.symbol).ownVariables j =
      t.ownVariables j ++ if p.scope = j then [p.symbol] else [] := by
    intro j
    rw [declare_ownVariables (by rwa [takeSlot_size])]
    congr 1
    · rw [ownVariables, (takeSlot_shape t p.root j).2.2.2.2, ownVariables]
    · simp only [Placement.symbol, Symbol.slot?, Option.isSome_some, and_true, eq_comm]
  have hsize : ((t.takeSlot p.root).declare p.scope p.symbol).size = t.size := by
    rw [declare_size, takeSlot_size]
  refine ⟨h.toLaid.congr hsize (List.Subset.refl _) hshape, fun q hq => ?_, fun root => ?_,
    fun root => ?_, fun root => ?_, fun j sym hsym => ?_, fun j hj => ?_⟩
  · rw [hsize, slotRoot_congr (hshape q.scope).1 fun j _ => (hshape j).2]
    rcases List.mem_append.mp hq with hq | hq
    · exact h.placed q hq
    · rw [List.mem_singleton.mp hq]
      exact ⟨hs, hroot.symm⟩
  · have hslots : (((t.takeSlot p.root).declare p.scope p.symbol).scope root).slots =
        ((t.takeSlot p.root).scope root).slots := by
      rw [declare_scope]
      split <;> rfl
    rw [hslots, takeSlot_scope, under_append, under_singleton, List.length_append, ← h.slots root]
    by_cases heq : p.root = root
    · subst heq
      rw [if_pos ⟨rfl, hlt⟩, if_pos rfl]
      rfl
    · rw [if_neg fun hr => heq hr.1.symm, if_neg heq]
      rfl
  · rw [under_append, under_singleton, List.map_append, h.dense root, List.length_append]
    by_cases heq : p.root = root
    · subst heq
      rw [if_pos rfl, List.map_singleton, hnumber, List.length_singleton, List.range_succ]
    · rw [if_neg heq]
      simp
  · rw [under_append, under_singleton, List.length_append]
    by_cases heq : p.root = root
    · subst heq
      rw [if_pos rfl]
      exact hlimit
    · rw [if_neg heq]
      exact h.limit root
  · rw [hvariables] at hsym
    rcases List.mem_append.mp hsym with hsym | hsym
    · obtain ⟨q, hq, hj, hsymbol⟩ := h.shown j sym hsym
      exact ⟨q, List.mem_append_left _ hq, hj, hsymbol⟩
    · split at hsym
      next hj => exact ⟨p, List.mem_append_right _ (.head _), hj, (List.mem_singleton.mp hsym).symm⟩
      · cases hsym
  · rw [(hshape j).2] at hj
    rw [hvariables, h.members j hj, List.filter_append, List.map_append]
    by_cases hp : p.scope = j <;> simp [hp]

theorem handles {qs : List Placement} (hh : t.Handles qs t') : t'.Counted (ps ++ qs) := by
  cases hh with
  | keeps => simpa using h
  | opens parent depth kind => simpa using h.push parent depth kind
  | removes depth => simpa using h.remove depth
  | enters s sym hsym => simpa using h.declare s hsym
  | joins s sym depth classes hsym =>
    have hopened : (t.openTables s depth).Counted ps :=
      (h.push s depth .members).push _ depth .methods
    have hdeclared := hopened.declare s hsym
    rw [List.append_nil]
    exact hdeclared.congr rfl (List.Subset.refl _) (fun _ => ⟨rfl, rfl, rfl⟩)
      (fun _ => List.Subset.refl _) fun _ _ => rfl
  | gives p hs hroot hslot hlimit => exact h.give hs hroot hslot hlimit

theorem answer {call : ScopeCall} (hcall : t.Knows call) :
    (t.answer call).2.Counted (ps ++ t.places call) :=
  h.handles (ScopeTable.handles hcall)

end Counted

theorem Counted.outcome {ps : List Placement} (h : t.Counted ps) (hcalls : t.KnowsAll calls) :
    (t.outcome calls).Counted (ps ++ t.placements calls) := by
  induction calls generalizing t ps with
  | nil => simpa [placements, outcome] using h
  | cons call calls ih =>
    rw [placements, ← List.append_assoc]
    exact ih (h.answer hcalls.1) hcalls.2

section

variable {t : ScopeTable} {ps : List Placement} (h : t.Counted ps)

include h

theorem Counted.increasing (root : ScopeId) :
    (Placement.under root ps).Pairwise fun p q => p.slot.toNat < q.slot.toNat := by
  have hrange := @List.pairwise_lt_range (Placement.under root ps).length
  rw [← h.dense root] at hrange
  exact List.pairwise_map.mp hrange

/-- The members of a class whose variables are all its own, in the order of their declaration. -/
theorem Counted.members_eq {j : ScopeId} (hj : j.index < t.size)
    (hkind : (t.scope j).kind = .members) (hdirect : ∀ p ∈ Placement.under j ps, p.scope = j) :
    t.members j = (Placement.under j ps).map Placement.symbol := by
  have hsame : ps.filter (·.scope = j) = Placement.under j ps := by
    refine List.filter_congr fun p hp => decide_eq_decide.mpr ⟨fun hscope => ?_, fun hroot => ?_⟩
    · rw [← (h.placed p hp).2, hscope, h.slotRoot_members ⟨hj, hkind⟩]
    · exact hdirect p (List.mem_filter.mpr ⟨hp, decide_eq_true hroot⟩)
  have hvariables := h.members j hkind
  rw [hsame] at hvariables
  rw [← hvariables]
  refine List.mergeSort_of_pairwise ?_
  change (t.ownVariables j).Pairwise _
  rw [hvariables, List.pairwise_map]
  exact (h.increasing j).imp fun hlt =>
    decide_eq_true (UInt16.le_iff_toNat_le.mpr (Nat.le_of_lt hlt))

end

/-! ## Tables that calls make -/

/-- **Slots are given without gaps and only once.** However a table is used, the variables of each
slot root get the slots 0, 1, 2, ... as they are declared, wherever their scopes are and whether or
not these are still there. A root with no slot left refuses every variable and the table stays as it
is. The count of a scope is the number of variables that its root has had, every variable in the
table is one of them, and the members of a class whose variables are all its own are these from
first to last. -/
theorem outcome_slots {calls : List ScopeCall} (hcalls : ({} : ScopeTable).KnowsAll calls) :
    let t := ({} : ScopeTable).outcome calls
    let ps := ({} : ScopeTable).placements calls
    let given (root : ScopeId) := Placement.under root ps
    (∀ root, (given root).map (·.slot.toNat) = List.range (given root).length ∧
      ((given root).map (·.slot)).Nodup ∧ (given root).length ≤ ScopeError.slotLimit) ∧
    (∀ p ∈ ps, p.scope.index < t.size ∧ t.slotRoot p.scope = p.root) ∧
    (∀ id, ∀ sym ∈ (t.scope id).symbols, sym.slot?.isSome = true →
      ∃ p ∈ ps, p.scope = id ∧ p.symbol = sym) ∧
    (∀ id, t.slotCount id = (given (t.slotRoot id)).length) ∧
    (∀ id name type,
      (¬ t.Taken id name → (given (t.slotRoot id)).length < ScopeError.slotLimit →
        (t.insertVariable id name type).1 = .ok (given (t.slotRoot id)).length.toUInt16) ∧
      ((given (t.slotRoot id)).length = ScopeError.slotLimit → t.insertVariable id name type =
        (.error (if t.Taken id name then .redeclared name else .tooManySlots), t)) ∧
      ∀ e, (t.insertVariable id name type).1 = .error e → (t.insertVariable id name type).2 = t) ∧
    ∀ id, id.index < t.size → (t.scope id).kind = .members → (∀ p ∈ given id, p.scope = id) →
      t.members id = (given id).map Placement.symbol ∧
      (t.members id).map Symbol.slot? = (List.range (given id).length).map fun k =>
        some k.toUInt16 := by
  have h := counted_empty.outcome hcalls
  rw [List.nil_append] at h
  refine ⟨fun root => ⟨h.dense root, ?_, h.limit root⟩, h.placed, fun id sym hsym hslot => ?_,
    h.slotCount, fun id name type => ⟨fun htaken hlimit => ?_, fun hfull => ?_, fun e he => ?_⟩,
    fun id hid hkind hdirect => ?_⟩
  · exact List.pairwise_map.mpr ((h.increasing root).imp fun hlt heq =>
    Nat.ne_of_lt hlt (congrArg _ heq))
  · exact h.shown id sym (List.mem_filter.mpr ⟨Array.mem_toList_iff.mpr hsym, hslot⟩)
  · rw [insertVariable_eq, if_neg htaken, h.slotCount, if_pos hlimit]
  · rw [insertVariable_eq, h.slotCount, if_neg (Nat.not_lt.mpr (Nat.le_of_eq hfull.symm))]
    split <;> rfl
  · exact perform_refused _ (.variable id name type) (congrArg (ScopeAnswer.of .slot) he)
  · have hmembers := h.members_eq hid hkind hdirect
    refine ⟨hmembers, ?_⟩
    rw [hmembers, ← h.dense id, List.map_map, List.map_map]
    refine List.map_congr_left fun p _ => ?_
    change some p.slot = some p.slot.toNat.toUInt16
    rw [Nat.toUInt16_eq, UInt16.ofNat_toNat]

/-- A class, a body and two blocks that are used by turns. A variable is declared in a block that
has been removed, and another one is refused. -/
def crossedCalls : List ScopeCall :=
  [.perform (.classType .top "C" "C" ⟨5⟩ ⟨1⟩ 0), .perform (.variable ⟨1⟩ "a" .int), .block .top 3,
    .perform (.variable ⟨3⟩ "x" .int), .perform (.variable ⟨1⟩ "b" .double), .remove 1, .body ⟨2⟩ 0,
    .perform (.variable ⟨4⟩ "y" .int), .block .top 1, .perform (.variable ⟨5⟩ "x" .int),
    .perform (.variable ⟨3⟩ "z" .int), .perform (.variable ⟨5⟩ "x" .int)]

theorem outcome_slots_crossed : ({} : ScopeTable).KnowsAll crossedCalls ∧
    (({} : ScopeTable).outcome crossedCalls).slotCount ⟨3⟩ = 3 ∧
    ((({} : ScopeTable).outcome crossedCalls).insertVariable ⟨3⟩ "x" .int).1 = .ok 3 ∧
    ((({} : ScopeTable).outcome crossedCalls).members ⟨1⟩).map Symbol.slot? = [some 0, some 1] := by
  have hcalls : ({} : ScopeTable).KnowsAll crossedCalls := by decide
  obtain ⟨-, -, -, hcount, hinsert, hmembers⟩ := outcome_slots hcalls
  refine ⟨hcalls, (hcount ⟨3⟩).trans (by decide), ?_, ?_⟩
  · exact (hinsert ⟨3⟩ "x" .int).1 (by decide) (by decide)
  · exact (hmembers ⟨1⟩ (by decide) (by decide) (by decide)).2.trans (by decide)

/-! ## A root with no slot left -/

/-- As many names as are needed, of which no two are the same. -/
def lengthName (n : Nat) : String := String.ofList (List.replicate n 'a')

theorem lengthName_inj {m : Nat} (h : lengthName m = lengthName n) : m = n := by
  have := congrArg (fun s => s.toList.length) h
  simpa [lengthName] using this

/-- Declares variables at the top level. -/
def fillingCalls (n : Nat) : List ScopeCall :=
  (List.range n).map fun k => .perform (.variable .top (lengthName k) .int)

def lengthSymbol (n : Nat) : Symbol := ⟨lengthName n, .int, .variable n.toUInt16⟩

/-- What becomes of the table. -/
def filled (n : Nat) : ScopeTable :=
  let symbols := ((List.range n).map lengthSymbol).toArray
  { scopes := #[{ path := [.top], depth := 0, kind := .root, slots := n, symbols }] }

theorem filled_symbols (n : Nat) :
    ((filled n).scope .top).symbols = ((List.range n).map lengthSymbol).toArray := rfl

theorem filled_lookup {k : Nat} {p : Symbol → Bool}
    (hp : ∀ sym, p sym = true → sym.name = lengthName k)
    (hk : n ≤ k) : ((filled n).scope .top).symbols.find? p = none := by
  rw [filled_symbols, Array.find?_eq_none]
  intro sym hsym hfound
  simp only [List.mem_toArray, List.mem_map, List.mem_range] at hsym
  obtain ⟨m, hm, rfl⟩ := hsym
  have := lengthName_inj (hp _ hfound)
  omega

theorem filled_free (n : Nat) : ¬ (filled n).Taken .top (lengthName n) := by
  have hhere : (filled n).lookupHere .top (lengthName n) = none :=
    filled_lookup (fun sym => of_decide_eq_true) (Nat.le_refl n)
  have hvariable : (filled n).lookupVariable .top (lengthName n) = none := by
    have hown : ((filled n).scope .top).symbols.find? (isVariable (lengthName n)) = none :=
      filled_lookup (fun sym hsym => of_decide_eq_true ((Bool.and_eq_true ..).mp hsym).2)
        (Nat.le_refl n)
    change (filled n).lookupVariableOn (lengthName n) [.top] = none
    rw [lookupVariableOn, hown]
    rfl
  simp [Taken, hhere, hvariable]

theorem filled_succ (hn : n < ScopeError.slotLimit) :
    (filled n).answer (.perform (.variable .top (lengthName n) .int)) =
      (.slot n.toUInt16, filled (n + 1)) := by
  have hcount : (filled n).slotCount .top = n := rfl
  simp only [answer, perform, insertVariable_eq, if_neg (filled_free n), hcount, if_pos hn]
  refine congrArg (Prod.mk _) ?_
  have hsymbols : ((List.range (n + 1)).map lengthSymbol).toArray =
      ((List.range n).map lengthSymbol).toArray.push (lengthSymbol n) := by
    rw [List.range_succ, List.map_append, List.map_singleton, List.push_toArray]
  conv => rhs; rw [filled, hsymbols]
  rfl

theorem outcome_append (t : ScopeTable) (calls calls' : List ScopeCall) :
    t.outcome (calls ++ calls') = (t.outcome calls).outcome calls' := by
  induction calls generalizing t with
  | nil => rfl
  | cons call calls ih => exact ih _

theorem knowsAll_append {calls' : List ScopeCall} (h : t.KnowsAll calls)
    (h' : (t.outcome calls).KnowsAll calls') : t.KnowsAll (calls ++ calls') := by
  induction calls generalizing t with
  | nil => exact h'
  | cons call calls ih => exact ⟨h.1, ih h.2 h'⟩

theorem outcome_filling (hn : n ≤ ScopeError.slotLimit) :
    ({} : ScopeTable).KnowsAll (fillingCalls n) ∧
    ({} : ScopeTable).outcome (fillingCalls n) = filled n := by
  induction n with
  | zero => exact ⟨trivial, rfl⟩
  | succ n ih =>
    obtain ⟨hknows, hfilled⟩ := ih (Nat.le_of_lt hn)
    have hsplit : fillingCalls (n + 1) = fillingCalls n ++
        [.perform (.variable .top (lengthName n) .int)] := by
      rw [fillingCalls, List.range_succ, List.map_append, List.map_singleton, fillingCalls]
    rw [hsplit, outcome_append, hfilled]
    refine ⟨knowsAll_append hknows ⟨?_, trivial⟩, ?_⟩
    · rw [hfilled]
      exact Nat.one_pos
    · rw [outcome, outcome, filled_succ hn]

theorem filled_redeclares (hn : 0 < n) :
    (filled n).insertVariable .top (lengthName 0) .int =
      (.error (.redeclared (lengthName 0)), filled n) := by
  have hfirst : ((filled n).lookupHere .top (lengthName 0)).isSome = true := by
    rw [lookupHere, filled_symbols, Array.find?_isSome]
    exact ⟨lengthSymbol 0, by simpa using ⟨0, hn, rfl⟩, decide_eq_true rfl⟩
  rw [insertVariable_eq, if_pos (by simp [Taken, hfirst])]

theorem outcome_filling_redeclares (hn : n ≤ ScopeError.slotLimit) (hpos : 0 < n) :
    let t := ({} : ScopeTable).outcome (fillingCalls n)
    ({} : ScopeTable).KnowsAll (fillingCalls n) ∧ t.slotCount .top = n ∧
      t.insertVariable .top (lengthName 0) .int = (.error (.redeclared (lengthName 0)), t) := by
  obtain ⟨hknows, hfilled⟩ := outcome_filling hn
  refine ⟨hknows, by rw [hfilled]; rfl, ?_⟩
  rw [hfilled, filled_redeclares hpos]

/-- A taken name is what a root with no slot left complains of first. -/
theorem redeclared_when_full :
    let t := ({} : ScopeTable).outcome (fillingCalls ScopeError.slotLimit)
    ({} : ScopeTable).KnowsAll (fillingCalls ScopeError.slotLimit) ∧
      t.slotCount .top = ScopeError.slotLimit ∧
      t.insertVariable .top (lengthName 0) .int = (.error (.redeclared (lengthName 0)), t) :=
  outcome_filling_redeclares (Nat.le_refl _) (by decide)

end ScopeTable

end Bytescript
