import Bytescript.Proofs.Scopes

/-!
# Nested scopes

The compiler opens a block inside the scope it is in, and a body inside the top level or the methods
of a class. Either gets the depth one above that of the innermost open scope, and scopes are removed
by the depth of the innermost one. This file is about tables that have been used in this way, with
names declared in any scope that is still there (`ScopeTable.Runs`).

Scopes are numbered as they come, so those that are open have falling numbers and depths from the
inside out (`Nested.inward`). That is why a removal takes the innermost scope and nothing else
(`Nested.remove_depth`).

What an operation can do to a table is said once (`Nested.performs`), and the invariant follows from
it for all runs (`Nested.after`).

A class can be declared in a block, and its scopes stay when the block is gone. Names are then still
looked up along a path through the removed block, which declares nothing any more (`Nested.gone`).
The search for a variable does not get that far: up to the next slot root, all scopes around a
living one are living (`Nested.frames`).
-/

namespace Bytescript

/-! ## Operations -/

inductive ScopeOp where
  /-- A block in the current scope. -/
  | openBlock
  /-- The body of a function or a method. -/
  | openBody (parent : ScopeId)
  | close
  | variable (scope : ScopeId) (name : String) (type : TypeId)
  | function (scope : ScopeId) (name : String) (result : TypeId) (params : List TypeId)
      (constant : UInt16)
  | method (scope : ScopeId) (name : String) (result : TypeId) (params : List TypeId)
      (constant : UInt16)
  | classType (scope : ScopeId) (name qualified : String) (type : TypeId) (types : TypeScopeId)
      (constant : UInt16)
deriving DecidableEq, Repr

inductive ScopeAnswer where
  | done
  | opened (scope : ScopeId)
  | slot (n : UInt16)
  | parts (scopes : ClassScopes)
  | refused (e : ScopeError)
deriving DecidableEq, Repr

/-- The answer to something that may be refused. -/
def ScopeAnswer.of {α : Type} (answer : α → ScopeAnswer) : Except ScopeError α → ScopeAnswer
  | .ok a => answer a
  | .error e => .refused e

/-- The symbol that an operation has declared, with its scope. -/
def ScopeOp.declares : ScopeOp → ScopeAnswer → List (ScopeId × Symbol)
  | .variable s name type, .slot n => [(s, ⟨name, type, .variable n⟩)]
  | .function s name result params constant, .done =>
    [(s, ⟨name, result, .function params constant⟩)]
  | .method s name result params constant, .done => [(s, ⟨name, result, .method params constant⟩)]
  | .classType s name _ type _ _, .parts scopes => [(s, ⟨name, type, .classRole scopes⟩)]
  | _, _ => []

/-- Only callables share a name within a scope, and only with other parameters. -/
def Symbol.Apart (a b : Symbol) : Prop :=
  a.name = b.name → ∃ p q, a.params? = some p ∧ b.params? = some q ∧ p ≠ q

namespace ScopeTable

variable (t : ScopeTable)

/-- The innermost open scope. -/
def current : ScopeId := t.active.head?.getD .top

/-- How deep the innermost open scope is. -/
def depth : Nat := (t.active.head?.map fun c => (t.scope c).depth).getD 0

/-- Operations with the depths and the parents that the compiler uses. -/
def perform : ScopeOp → ScopeAnswer × ScopeTable
  | .openBlock =>
    let r := t.pushBlock t.current (t.depth + 1)
    (.opened r.1, r.2)
  | .openBody parent =>
    let r := t.pushRoot parent (t.depth + 1)
    (.opened r.1, r.2)
  | .close => (.done, t.remove t.depth)
  | .variable s name type =>
    let r := t.insertVariable s name type
    (.of .slot r.1, r.2)
  | .function s name result params constant =>
    let r := t.insertFunction s name result params constant
    (.of (fun _ => .done) r.1, r.2)
  | .method s name result params constant =>
    let r := t.insertMethod s name result params constant
    (.of (fun _ => .done) r.1, r.2)
  | .classType s name qualified type types constant =>
    let r := t.insertClass s name qualified type types constant
    (.of .parts r.1, r.2)

/-- Scopes that have been opened and not removed. -/
def Living (id : ScopeId) : Prop := id.index < t.size ∧ t.isAlive id = true

instance (id : ScopeId) : Decidable (t.Living id) :=
  inferInstanceAs (Decidable (id.index < t.size ∧ t.isAlive id = true))

def after (ops : List ScopeOp) : ScopeTable :=
  ops.foldl (fun t op => (t.perform op).2) t

/-- Bodies are opened inside the top level or the methods of a class, something is open when a scope
is removed, and names are declared in scopes that are there. -/
def Allows : ScopeOp → Prop
  | .openBlock => True
  | .openBody parent => parent = .top ∨ (t.scope parent).kind = .methods ∧ parent.index < t.size
  | .close => t.active ≠ []
  | .variable s _ _ | .function s _ _ _ _ | .method s _ _ _ _ | .classType s _ _ _ _ _ =>
    t.Living s

instance : (op : ScopeOp) → Decidable (t.Allows op)
  | .openBlock => inferInstanceAs (Decidable True)
  | .openBody parent => inferInstanceAs
      (Decidable (parent = .top ∨ (t.scope parent).kind = .methods ∧ parent.index < t.size))
  | .close => inferInstanceAs (Decidable (t.active ≠ []))
  | .variable s _ _ | .function s _ _ _ _ | .method s _ _ _ _ | .classType s _ _ _ _ _ =>
    inferInstanceAs (Decidable (t.Living s))

/-- Each of the operations is allowed when its turn comes. -/
def Runs (t : ScopeTable) : List ScopeOp → Prop
  | [] => True
  | op :: ops => t.Allows op ∧ (t.perform op).2.Runs ops

instance decidableRuns (t : ScopeTable) : (ops : List ScopeOp) → Decidable (t.Runs ops)
  | [] => inferInstanceAs (Decidable True)
  | op :: ops =>
    have := decidableRuns (t.perform op).2 ops
    inferInstanceAs (Decidable (t.Allows op ∧ (t.perform op).2.Runs ops))

/-! ## Frames -/

/-- A path up to its first slot root. -/
def frameOn (t : ScopeTable) : List ScopeId → List ScopeId
  | [] => []
  | id :: rest => if (t.scope id).kind.ownsSlots then [id] else id :: t.frameOn rest

/-- The scopes that share their slots with a scope, from it up to its slot root. -/
def frame (id : ScopeId) : List ScopeId := t.frameOn (t.path id)

theorem frameOn_subset (path : List ScopeId) : t.frameOn path ⊆ path := by
  induction path with
  | nil => exact List.nil_subset _
  | cons id rest ih =>
    rw [frameOn]
    split
    · exact List.cons_subset.mpr ⟨.head _, List.nil_subset _⟩
    · exact List.cons_subset_cons id ih

variable {t : ScopeTable}

theorem frameOn_congr {t' : ScopeTable} {path : List ScopeId}
    (h : ∀ j ∈ path, (t'.scope j).kind = (t.scope j).kind) : t'.frameOn path = t.frameOn path := by
  induction path with
  | nil => rfl
  | cons id rest ih =>
    rw [frameOn, frameOn, h id List.mem_cons_self, ih fun j hj => h j (List.mem_cons_of_mem id hj)]

theorem lookupVariableOn_eq (t : ScopeTable) (name : String) (path : List ScopeId) :
    t.lookupVariableOn name path =
      (t.frameOn path).findSome? fun s => (t.scope s).symbols.find? (isVariable name) := by
  induction path with
  | nil => rfl
  | cons id rest ih =>
    simp only [lookupVariableOn, frameOn]
    cases hfind : (t.scope id).symbols.find? (isVariable name) with
    | some v => by_cases howns : (t.scope id).kind.ownsSlots <;> simp [howns, hfind]
    | none => by_cases howns : (t.scope id).kind.ownsSlots <;> simp [howns, hfind, ih]

/-! ## The invariant -/

/-- What holds of a table however its scopes have been opened and removed. -/
structure Nested (t : ScopeTable) : Prop extends Laid t where
  inward : t.active.Pairwise fun a b => b.index < a.index ∧ (t.scope b).depth < (t.scope a).depth
  alive : ∀ j, t.Living j ↔ j ∈ t.active ∨ t.Persistent j
  frames : ∀ j, t.Living j → ∀ r ∈ t.frame j, t.Living r
  classes : ∀ j, (t.scope j).kind.isTransient = false →
    ∀ r ∈ t.frame j, (t.scope r).kind.isTransient = false
  gone : ∀ j, ¬ t.Living j → (t.scope j).symbols = #[]
  apart : ∀ j, (t.scope j).symbols.toList.Pairwise Symbol.Apart

namespace Nested

variable {t : ScopeTable} (h : t.Nested)

include h

theorem living_current : t.Living t.current := by
  rw [h.alive, current]
  cases hactive : t.active with
  | nil => exact .inr ⟨h.top.1, .inl rfl⟩
  | cons c rest => exact .inl (.head _)

theorem living_parent {parent : ScopeId} (hop : t.Allows (.openBody parent)) : t.Living parent := by
  refine (h.alive parent).mpr (.inr ?_)
  rcases hop with rfl | ⟨hkind, hsize⟩
  · exact ⟨h.top.1, .inl rfl⟩
  · exact ⟨hsize, .inr (by rw [hkind]; rfl)⟩

theorem depth_lt {j : ScopeId} (hj : j ∈ t.active) : (t.scope j).depth < t.depth + 1 := by
  have hinward := h.inward
  rw [depth]
  cases hactive : t.active with
  | nil => rw [hactive] at hj; cases hj
  | cons c rest =>
    rw [hactive] at hj hinward
    rcases hj with _ | ⟨_, hj⟩
    · exact Nat.lt_succ_self _
    · exact Nat.lt_succ_of_lt ((List.pairwise_cons.mp hinward).1 j hj).2

/-- Scopes that keep their places stay nested when living ones get symbols that go with theirs. -/
theorem congr {t' : ScopeTable} (hsize : t'.size = t.size) (hactive : t'.active = t.active)
    (hshape : ∀ j, (t'.scope j).path = (t.scope j).path ∧ (t'.scope j).depth = (t.scope j).depth ∧
      (t'.scope j).kind = (t.scope j).kind ∧ t'.isAlive j = t.isAlive j)
    (hgone : ∀ j, ¬ t.Living j → (t'.scope j).symbols = #[])
    (hapart : ∀ j, (t'.scope j).symbols.toList.Pairwise Symbol.Apart) : t'.Nested := by
  have hpath : ∀ j, t'.path j = t.path j := fun j => (hshape j).1
  have hkind : ∀ j, (t'.scope j).kind = (t.scope j).kind := fun j => (hshape j).2.2.1
  have hliving : ∀ j, t'.Living j ↔ t.Living j := fun j => by
    rw [Living, Living, hsize, (hshape j).2.2.2]
  have hframe : ∀ j, t'.frame j = t.frame j := by
    intro j
    rw [frame, frame, hpath, frameOn_congr fun r _ => hkind r]
  refine ⟨h.toLaid.congr hsize (fun _ => hactive ▸ id) fun j => ⟨hpath j, hkind j⟩, ?_, ?_, ?_, ?_,
    ?_, hapart⟩
  · rw [hactive]
    refine h.inward.imp fun {a b} hab => ?_
    rw [(hshape a).2.1, (hshape b).2.1]
    exact hab
  · intro j
    rw [hliving, hactive, Persistent, hsize, hkind]
    exact h.alive j
  · intro j hj r hr
    rw [hliving] at hj ⊢
    exact h.frames j hj r (hframe j ▸ hr)
  · intro j hj r hr
    rw [hkind] at hj ⊢
    exact h.classes j hj r (hframe j ▸ hr)
  · intro j hj
    exact hgone j (mt (hliving j).mpr hj)

end Nested

/-! ### Opening -/

section

variable {t : ScopeTable} {parent : ScopeId} {depth : Nat} {kind : ScopeKind}

theorem living_push_new : (t.push parent depth kind).2.Living ⟨t.size⟩ := by
  rw [Living, push_size, isAlive, push_scope_new]
  exact ⟨Nat.lt_succ_self _, rfl⟩

variable {j : ScopeId}

theorem living_push (hj : j.index ≠ t.size) : (t.push parent depth kind).2.Living j ↔
    t.Living j := by
  rw [Living, Living, push_size, isAlive, push_scope, if_neg hj]
  refine and_congr_left fun _ => ?_
  omega

theorem persistent_push (hj : j.index ≠ t.size) :
    (t.push parent depth kind).2.Persistent j ↔ t.Persistent j := by
  rw [Persistent, Persistent, push_scope, if_neg hj, push_size]
  refine and_congr_left fun _ => ?_
  omega

theorem Nested.frame_push (h : t.Nested) (hj : j.index ≠ t.size) :
    (t.push parent depth kind).2.frame j = t.frame j := by
  have hpath : (t.push parent depth kind).2.path j = t.path j := by
    rw [path, push_scope, if_neg hj, path]
  rw [frame, hpath]
  exact frameOn_congr fun r hr => by rw [push_scope_old (h.path_lt hr)]

theorem Nested.frame_push_new (h : t.Nested) : (t.push parent depth kind).2.frame ⟨t.size⟩ =
    if kind.ownsSlots then [⟨t.size⟩] else ⟨t.size⟩ :: t.frame parent := by
  have hpath : (t.push parent depth kind).2.path ⟨t.size⟩ = ⟨t.size⟩ :: t.path parent := by
    rw [path, push_scope_new]
  have hrest : (t.push parent depth kind).2.frameOn (t.path parent) = t.frame parent :=
    frameOn_congr fun r hr => by rw [push_scope_old (h.path_lt hr)]
  rw [frame, hpath, frameOn, push_scope_new, hrest]

theorem Nested.inward_push (h : t.Nested)
    (hdepth : kind.isTransient = true → ∀ a ∈ t.active, (t.scope a).depth < depth) :
    (t.push parent depth kind).2.active.Pairwise fun a b => b.index < a.index ∧
      ((t.push parent depth kind).2.scope b).depth <
        ((t.push parent depth kind).2.scope a).depth := by
  have hold : t.active.Pairwise fun a b => b.index < a.index ∧
      ((t.push parent depth kind).2.scope b).depth <
        ((t.push parent depth kind).2.scope a).depth := by
    refine h.inward.imp_of_mem fun {a b} ha hb hab => ?_
    rwa [push_scope_old (h.active a ha).1, push_scope_old (h.active b hb).1]
  rw [push_active]
  split
  next hkind =>
    refine List.pairwise_cons.mpr ⟨fun a ha => ?_, hold⟩
    rw [push_scope_new, push_scope_old (h.active a ha).1]
    exact ⟨(h.active a ha).1, hdepth hkind a ha⟩
  · exact hold

theorem Nested.alive_push (h : t.Nested) : ∀ j, (t.push parent depth kind).2.Living j ↔
    j ∈ (t.push parent depth kind).2.active ∨ (t.push parent depth kind).2.Persistent j := by
  refine forall_scope t.size ?_ fun j hj => ?_
  · refine iff_of_true living_push_new ?_
    rw [push_active]
    by_cases hkind : kind.isTransient = true
    · rw [if_pos hkind]
      exact .inl (.head _)
    · refine .inr ⟨by rw [push_size]; exact Nat.lt_succ_self _, .inr ?_⟩
      rwa [push_scope_new, ← Bool.not_eq_true]
  · rw [living_push hj, mem_active_push hj, persistent_push hj]
    exact h.alive j

theorem Nested.frames_push (h : t.Nested) (hparent : t.Living parent) : ∀ j,
    (t.push parent depth kind).2.Living j →
      ∀ r ∈ (t.push parent depth kind).2.frame j, (t.push parent depth kind).2.Living r := by
  have hstays : ∀ r, t.Living r → (t.push parent depth kind).2.Living r :=
    fun r hr => (living_push (Nat.ne_of_lt hr.1)).mpr hr
  refine forall_scope t.size (fun hnew r hr => ?_) fun j hj hliving r hr => ?_
  · rw [h.frame_push_new] at hr
    split at hr
    · rw [List.mem_singleton.mp hr]
      exact hnew
    · rcases hr with _ | ⟨_, hr⟩
      · exact hnew
      · exact hstays r (h.frames parent hparent r hr)
  · rw [living_push hj] at hliving
    rw [h.frame_push hj] at hr
    exact hstays r (h.frames j hliving r hr)

theorem Nested.classes_push (h : t.Nested)
    (hmethods : kind = .methods → (t.scope parent).kind.isTransient = false) : ∀ j,
    ((t.push parent depth kind).2.scope j).kind.isTransient = false →
      ∀ r ∈ (t.push parent depth kind).2.frame j,
        ((t.push parent depth kind).2.scope r).kind.isTransient = false := by
  refine forall_scope t.size (fun hnew r hr => ?_) fun j hj hkind r hr => ?_
  · rw [h.frame_push_new] at hr
    split at hr
    · rw [List.mem_singleton.mp hr]
      exact hnew
    next howns =>
      rcases hr with _ | ⟨_, hr⟩
      · exact hnew
      · have hpath := frameOn_subset _ _ hr
        rw [push_scope_new] at hnew
        rw [push_scope_old (h.path_lt hpath)]
        refine h.classes parent (hmethods ?_) r hr
        cases kind with
        | methods => rfl
        | members => exact absurd rfl howns
        | block | root => cases hnew
  · rw [h.frame_push hj] at hr
    rw [push_scope, if_neg hj] at hkind
    rw [push_scope_old (h.path_lt (frameOn_subset _ _ hr))]
    exact h.classes j hkind r hr

theorem Nested.push (h : t.Nested) (hparent : t.Living parent)
    (hmethods : kind = .methods → (t.scope parent).kind.isTransient = false)
    (hdepth : kind.isTransient = true → ∀ a ∈ t.active, (t.scope a).depth < depth) :
    (t.push parent depth kind).2.Nested := by
  refine ⟨h.toLaid.push, h.inward_push hdepth, h.alive_push, h.frames_push hparent,
    h.classes_push hmethods, ?_, ?_⟩
  · refine forall_scope t.size (fun _ => ?_) fun j hj hgone => ?_
    · rw [push_scope_new]
    · rw [living_push hj] at hgone
      rw [push_scope, if_neg hj]
      exact h.gone j hgone
  · refine forall_scope t.size ?_ fun j hj => ?_
    · rw [push_scope_new]
      exact List.Pairwise.nil
    · rw [push_scope, if_neg hj]
      exact h.apart j

end

/-! ### Removing -/

namespace Nested

variable {t : ScopeTable} (h : t.Nested) {c : ScopeId} {rest : List ScopeId}
  (hactive : t.active = c :: rest)

include h hactive

variable {j : ScopeId}

theorem lt_innermost (hj : j ∈ rest) : j.index < c.index ∧
    (t.scope j).depth < (t.scope c).depth := by
  have hinward := h.inward
  rw [hactive] at hinward
  exact (List.pairwise_cons.mp hinward).1 j hj

theorem innermost_not_mem : c ∉ rest :=
  fun hc => Nat.lt_irrefl _ (h.lt_innermost hactive hc).1

/-- The innermost scope goes, and no other one. -/
theorem remove_depth : t.remove t.depth =
    { t with scopes := t.scopes.modify c.index Scope.close, active := rest } := by
  have hdepth : t.depth = (t.scope c).depth := by rw [depth, hactive]; rfl
  refine remove_head hactive (Nat.le_of_eq hdepth) fun j hj => ?_
  rw [hdepth]
  exact (h.lt_innermost hactive hj).2

theorem remove_active : (t.remove t.depth).active = rest := by
  rw [h.remove_depth hactive]

theorem remove_scope_ne (hj : j ≠ c) : (t.remove t.depth).scope j = t.scope j := by
  rw [h.remove_depth hactive]
  exact (close_scope t c j).trans (if_neg fun heq => hj heq.1)

theorem remove_scope_self : (t.remove t.depth).scope c = Scope.close (t.scope c) := by
  rw [h.remove_depth hactive]
  refine (close_scope t c c).trans (if_pos ⟨rfl, (h.active c ?_).1⟩)
  rw [hactive]
  exact .head _

theorem living_remove (j : ScopeId) : (t.remove t.depth).Living j ↔ t.Living j ∧ j ≠ c := by
  rw [Living, remove_size, isAlive]
  by_cases hj : j = c
  · rw [hj, h.remove_scope_self hactive]
    simp [Scope.close]
  · rw [h.remove_scope_ne hactive hj]
    simp [hj, Living, isAlive]

/-- Nothing but the innermost scope itself shares its slots with it. -/
theorem innermost_not_frame (hj : t.Living j) (hne : j ≠ c) : c ∉ t.frame j := by
  intro hc
  have hlt : c.index < j.index := by
    obtain ⟨outer, houter, hbelow⟩ := h.paths j hj.1
    have hpath := frameOn_subset _ _ hc
    rw [houter] at hpath
    rcases hpath with _ | ⟨_, hpath⟩
    · exact absurd rfl hne
    · exact hbelow c hpath
  have htransient := (h.active c (hactive ▸ (.head _))).2.2
  rcases (h.alive j).mp hj with hopen | ⟨-, rfl | hkind⟩
  · -- the other open scopes are older than the innermost one
    rw [hactive] at hopen
    rcases hopen with _ | ⟨_, hopen⟩
    · exact hne rfl
    · exact Nat.lt_asymm hlt (h.lt_innermost hactive hopen).1
  · exact Nat.not_lt_zero _ hlt
  · rw [h.classes j hkind c hc] at htransient
    cases htransient

theorem remove : (t.remove t.depth).Nested := by
  have hshape := remove_shape t t.depth
  have hpath : ∀ j, (t.remove t.depth).path j = t.path j := fun j => (hshape j).1
  have hkind : ∀ j, ((t.remove t.depth).scope j).kind = (t.scope j).kind :=
    fun j => (hshape j).2.2.1
  have hframe : ∀ j, (t.remove t.depth).frame j = t.frame j := by
    intro j
    rw [frame, frame, hpath, frameOn_congr fun r _ => hkind r]
  refine ⟨h.toLaid.remove t.depth, ?_, ?_, ?_, ?_, ?_, ?_⟩
  · have hinward := h.inward
    rw [hactive] at hinward
    rw [h.remove_active hactive]
    refine (List.pairwise_cons.mp hinward).2.imp fun {a b} hab => ?_
    rwa [(hshape a).2.1, (hshape b).2.1]
  · intro j
    have hstays : (t.remove t.depth).Persistent j ↔ t.Persistent j := by
      rw [Persistent, Persistent, remove_size, hkind]
    rw [h.living_remove hactive, h.alive, h.remove_active hactive, hstays, hactive, List.mem_cons]
    constructor
    · rintro ⟨(rfl | hj) | hj, hne⟩
      · exact absurd rfl hne
      · exact .inl hj
      · exact .inr hj
    · rintro (hj | hj)
      · exact ⟨.inl (.inr hj), fun heq => h.innermost_not_mem hactive (heq ▸ hj)⟩
      · refine ⟨.inr hj, ?_⟩
        rintro rfl
        exact h.not_active hj (hactive ▸ (.head _))
  · intro j hj r hr
    rw [h.living_remove hactive] at hj ⊢
    rw [hframe] at hr
    refine ⟨h.frames j hj.1 r hr, ?_⟩
    rintro rfl
    exact h.innermost_not_frame hactive hj.1 hj.2 hr
  · intro j hj r hr
    rw [hkind] at hj ⊢
    exact h.classes j hj r (hframe j ▸ hr)
  · intro j hj
    by_cases hjc : j = c
    · rw [hjc, h.remove_scope_self hactive]
      rfl
    · rw [h.remove_scope_ne hactive hjc]
      exact h.gone j fun hliving => hj ((h.living_remove hactive j).mpr ⟨hliving, hjc⟩)
  · intro j
    by_cases hjc : j = c
    · rw [hjc, h.remove_scope_self hactive]
      exact List.Pairwise.nil
    · rw [h.remove_scope_ne hactive hjc]
      exact h.apart j

end Nested

/-! ### Declaring -/

theorem takeSlot_shape (t : ScopeTable) (r j : ScopeId) :
    ((t.takeSlot r).scope j).path = (t.scope j).path ∧
      ((t.takeSlot r).scope j).depth = (t.scope j).depth ∧
      ((t.takeSlot r).scope j).kind = (t.scope j).kind ∧ (t.takeSlot r).isAlive j = t.isAlive j ∧
      ((t.takeSlot r).scope j).symbols = (t.scope j).symbols := by
  rw [isAlive, takeSlot_scope]
  split <;> exact ⟨rfl, rfl, rfl, rfl, rfl⟩

theorem Nested.takeSlot (h : t.Nested) (r : ScopeId) : (t.takeSlot r).Nested := by
  have hsymbols : ∀ j, ((t.takeSlot r).scope j).symbols = (t.scope j).symbols :=
    fun j => (takeSlot_shape t r j).2.2.2.2
  refine h.congr (takeSlot_size t r) rfl (fun j => ?_) (fun j hj => ?_) fun j => ?_
  · obtain ⟨hpath, hdepth, hkind, halive, -⟩ := takeSlot_shape t r j
    exact ⟨hpath, hdepth, hkind, halive⟩
  · rw [hsymbols]
    exact h.gone j hj
  · rw [hsymbols]
    exact h.apart j

theorem Nested.declare (h : t.Nested) {c : ScopeId} {sym : Symbol} (hc : t.Living c)
    (hapart : ∀ other ∈ (t.scope c).symbols, other.Apart sym) : (t.declare c sym).Nested := by
  refine h.congr (declare_size t c sym) rfl (fun j => ?_) (fun j hj => ?_) fun j => ?_
  · rw [isAlive, declare_scope]
    split <;> exact ⟨rfl, rfl, rfl, rfl⟩
  · rw [declare_scope, if_neg]
    · exact h.gone j hj
    · rintro ⟨rfl, -⟩
      exact hj hc
  · rw [declare_scope]
    split
    next hj =>
      rw [Array.toList_push, List.pairwise_append]
      refine ⟨h.apart j, List.pairwise_singleton _ _, fun other hother new hnew => ?_⟩
      rw [List.mem_singleton.mp hnew]
      exact hapart other (hj.1 ▸ Array.mem_toList_iff.mp hother)
    · exact h.apart j

/-! ## What an operation does -/

/-- The table with the two scopes of a class inside `c`. -/
def openTables (t : ScopeTable) (c : ScopeId) (depth : Nat) : ScopeTable :=
  ((t.push c depth .members).2.push ⟨t.size⟩ depth .methods).2

/-- What the next class symbol knows about its scopes. -/
def nextParts (t : ScopeTable) (qualified : String) (types : TypeScopeId) (constant : UInt16) :
    ClassScopes :=
  { qualified, members := ⟨t.size⟩, methods := ⟨t.size + 1⟩, types, constant }

/-- What operations make of a table, and the symbols that they declare. -/
inductive Yields (t : ScopeTable) : List (ScopeId × Symbol) → ScopeTable → Prop where
  | keeps : Yields t [] t
  | opens (parent : ScopeId) (kind : ScopeKind) : t.Living parent → kind.isTransient = true →
      Yields t [] (t.push parent (t.depth + 1) kind).2
  | closes (c : ScopeId) (rest : List ScopeId) : t.active = c :: rest →
    Yields t [] (t.remove t.depth)
  | enters (u : ScopeTable) (c : ScopeId) (sym : Symbol) : (u = t ∨ ∃ r, u = t.takeSlot r) →
      t.Living c → (∀ other ∈ (t.scope c).symbols, other.Apart sym) →
      Yields t [(c, sym)] (u.declare c sym)
  | joins (c : ScopeId) (sym : Symbol) (depth : Nat) (classes : List (TypeId × ScopeId × Nat)) :
      t.Living c → (∀ other ∈ (t.scope c).symbols, other.Apart sym) →
      Yields t [(c, sym)] { (t.openTables c depth).declare c sym with classes }

section

variable {t : ScopeTable} {s : ScopeId}

theorem lookupHere_eq_none {name : String} :
    t.lookupHere s name = none ↔ ∀ sym ∈ (t.scope s).symbols, sym.name ≠ name := by
  rw [lookupHere, Array.find?_eq_none]
  simp

variable {sym : Symbol} {params : List TypeId}

/-- A name that nothing in the scope has yet goes with all that is there. -/
theorem apart_of_lookupHere (hfree : t.lookupHere s sym.name = none) :
    ∀ other ∈ (t.scope s).symbols, other.Apart sym :=
  fun other hother heq => absurd heq (lookupHere_eq_none.mp hfree other hother)

theorem apart_of_clash {symbols : Array Symbol} (hparams : sym.params? = some params)
    (hclash : clash? symbols sym.name params = none) : ∀ other ∈ symbols, other.Apart sym := by
  intro other hother heq
  have hnone := List.findSome?_eq_none_iff.mp hclash other (Array.mem_toList_iff.mpr hother)
  rw [if_pos heq] at hnone
  split at hnone
  next p hp =>
    split at hnone
    · cases hnone
    next hne => exact ⟨p, params, hp, hparams, hne⟩
  · cases hnone

/-- A name that no variable of a scope can have: a variable of the same root that can be seen from
there has it, or anything in the scope itself. -/
def Taken (t : ScopeTable) (id : ScopeId) (name : String) : Prop :=
  (t.lookupVariable id name).isSome || (t.lookupHere id name).isSome

instance (t : ScopeTable) (id : ScopeId) (name : String) : Decidable (t.Taken id name) :=
  inferInstanceAs (Decidable (_ = true))

/-- A variable is refused if its name is taken or its root has no slot left, in this order, and gets
the next slot otherwise. -/
theorem insertVariable_eq (t : ScopeTable) (id : ScopeId) (name : String) (type : TypeId) :
    t.insertVariable id name type =
      if t.Taken id name then (.error (.redeclared name), t)
      else if t.slotCount id < ScopeError.slotLimit then (.ok (t.slotCount id).toUInt16,
          (t.takeSlot (t.slotRoot id)).declare id ⟨name, type, .variable (t.slotCount id).toUInt16⟩)
      else (.error .tooManySlots, t) := rfl

theorem insertClass_cases (t : ScopeTable) (s : ScopeId) (name qualified : String) (type : TypeId)
    (types : TypeScopeId) (constant : UInt16) :
    (t.lookupHere s name).isSome = true ∧
      t.insertClass s name qualified type types constant = (.error (.redeclared name), t) ∨
    t.lookupHere s name = none ∧ ∃ classes,
      t.insertClass s name qualified type types constant =
        (.ok (t.nextParts qualified types constant), { (t.openTables s (t.scope s).depth).declare s
            ⟨name, type, .classRole (t.nextParts qualified types constant)⟩ with classes }) := by
  have hmethods :
    ((t.push s (t.scope s).depth .members).2.push ⟨t.size⟩ (t.scope s).depth .methods).1 =
      ⟨t.size + 1⟩ := congrArg ScopeId.mk (push_size t s (t.scope s).depth .members)
  unfold insertClass
  split
  next hclash => exact .inl ⟨hclash, rfl⟩
  next hfree =>
    refine .inr ⟨by simpa using hfree, ?_⟩
    rw [nextParts, ← hmethods]
    exact ⟨_, rfl⟩

/-- What an operation answers and makes of a table. -/
inductive Performs (t : ScopeTable) : ScopeOp → ScopeAnswer × ScopeTable → Prop where
  | refuses (op : ScopeOp) (e : ScopeError) : Performs t op (.refused e, t)
  | opensBlock : Performs t .openBlock (.opened ⟨t.size⟩, (t.push t.current (t.depth + 1) .block).2)
  | opensBody (parent : ScopeId) :
      Performs t (.openBody parent) (.opened ⟨t.size⟩, (t.push parent (t.depth + 1) .root).2)
  | closes : Performs t .close (.done, t.remove t.depth)
  | gives (s : ScopeId) (name : String) (type : TypeId) : t.lookupHere s name = none →
      t.slotCount s < ScopeError.slotLimit →
      Performs t (.variable s name type) (.slot (t.slotCount s).toUInt16,
        (t.takeSlot (t.slotRoot s)).declare s ⟨name, type, .variable (t.slotCount s).toUInt16⟩)
  | function (s : ScopeId) (name : String) (result : TypeId) (params : List TypeId)
    (constant : UInt16) :
      clash? (t.scope s).symbols name params = none →
      Performs t (.function s name result params constant)
        (.done, t.declare s ⟨name, result, .function params constant⟩)
  | method (s : ScopeId) (name : String) (result : TypeId) (params : List TypeId)
    (constant : UInt16) :
      clash? (t.scope s).symbols name params = none →
      Performs t (.method s name result params constant)
        (.done, t.declare s ⟨name, result, .method params constant⟩)
  | joins (s : ScopeId) (name qualified : String) (type : TypeId) (types : TypeScopeId)
    (constant : UInt16)
      (classes : List (TypeId × ScopeId × Nat)) : t.lookupHere s name = none →
      Performs t (.classType s name qualified type types constant)
        (.parts (t.nextParts qualified types constant),
          { (t.openTables s (t.scope s).depth).declare s
              ⟨name, type, .classRole (t.nextParts qualified types constant)⟩ with classes })

theorem perform_spec (t : ScopeTable) (op : ScopeOp) : t.Performs op (t.perform op) := by
  cases op with
  | openBlock => exact .opensBlock
  | openBody parent => exact .opensBody parent
  | close => exact .closes
  | «variable» s name type =>
    simp only [perform, insertVariable_eq]
    split
    · exact .refuses _ _
    next hfree =>
      split
      next hlimit =>
        simp only [Taken, Bool.or_eq_true, not_or, Bool.not_eq_true, Option.isSome_eq_false_iff,
          Option.isNone_iff_eq_none] at hfree
        exact .gives s name type hfree.2 hlimit
      · exact .refuses _ _
  | function s name result params constant =>
    simp only [perform, insertFunction, insertCallable]
    split
    · exact .refuses _ _
    next hclash => exact .function s name result params constant hclash
  | method s name result params constant =>
    simp only [perform, insertMethod, insertCallable]
    split
    · exact .refuses _ _
    next hclash => exact .method s name result params constant hclash
  | classType s name qualified type types constant =>
    simp only [perform]
    rcases insertClass_cases t s name qualified type types constant with
      ⟨-, heq⟩ | ⟨hfree, classes, heq⟩
    · rw [heq]
      exact .refuses _ _
    · rw [heq]
      exact .joins s name qualified type types constant classes hfree

/-- What is refused changes nothing. -/
theorem perform_refused (t : ScopeTable) (op : ScopeOp) {e : ScopeError}
    (h : (t.perform op).1 = .refused e) : (t.perform op).2 = t := by
  have hspec := t.perform_spec op
  generalize t.perform op = r at hspec h
  cases hspec with
  | refuses => rfl
  | _ => cases h

theorem Nested.performs (h : t.Nested) {op : ScopeOp} (hop : t.Allows op) :
    t.Yields (op.declares (t.perform op).1) (t.perform op).2 := by
  have hspec := t.perform_spec op
  generalize t.perform op = r at hspec
  cases hspec with
  | refuses _ e =>
    have hnone : op.declares (.refused e) = [] := by cases op <;> rfl
    exact hnone ▸ .keeps
  | opensBlock => exact .opens t.current .block h.living_current rfl
  | opensBody parent => exact .opens parent .root (h.living_parent hop) rfl
  | closes =>
    obtain ⟨c, rest, hactive⟩ := List.exists_cons_of_ne_nil hop
    exact .closes c rest hactive
  | gives s name type hfree _ =>
    exact .enters _ s ⟨name, type, .variable _⟩ (.inr ⟨_, rfl⟩) hop (apart_of_lookupHere hfree)
  | function s name result params constant hclash | method s name result params constant hclash =>
    exact .enters t s _ (.inl rfl) hop (apart_of_clash rfl hclash)
  | joins s name qualified type types constant classes hfree =>
    exact .joins s ⟨name, type, .classRole _⟩ _ classes hop (apart_of_lookupHere hfree)

end

section

variable {t : ScopeTable}

theorem openTables_size (c : ScopeId) (depth : Nat) : (t.openTables c depth).size = t.size + 2 := by
  rw [openTables, push_size, push_size]

theorem openTables_scope (depth : Nat) (c : ScopeId) {j : ScopeId} (hj : j.index < t.size) :
    (t.openTables c depth).scope j = t.scope j := by
  rw [openTables, push_scope_old (by rw [push_size]; omega), push_scope_old hj]

theorem Nested.openTables (h : t.Nested) {c : ScopeId} (hc : t.Living c) (depth : Nat) :
    (t.openTables c depth).Nested := by
  have hmembers : (t.push c depth .members).2.Nested := h.push hc nofun nofun
  refine hmembers.push living_push_new (fun _ => ?_) nofun
  rw [push_scope_new]
  rfl

end

namespace Yields

variable {t t' : ScopeTable} {syms : List (ScopeId × Symbol)} (hy : t.Yields syms t')

include hy

theorem nested (h : t.Nested) : t'.Nested := by
  cases hy with
  | keeps => exact h
  | opens parent kind halive hkind =>
    refine h.push halive (fun hmethods => ?_) fun _ a ha => h.depth_lt ha
    rw [hmethods] at hkind
    cases hkind
  | closes c rest hactive => exact h.remove hactive
  | enters u c sym hu halive hapart =>
    rcases hu with rfl | ⟨r, rfl⟩
    · exact h.declare halive hapart
    · obtain ⟨-, -, -, halive', hsymbols⟩ := takeSlot_shape t r c
      refine (h.takeSlot r).declare ⟨by rw [takeSlot_size]; exact halive.1,
        halive'.trans halive.2⟩ ?_
      rwa [hsymbols]
  | joins c sym depth classes halive hapart =>
    have hscope := openTables_scope depth c halive.1
    have hdeclared : ((t.openTables c depth).declare c sym).Nested := by
      refine (h.openTables halive depth).declare ⟨?_, ?_⟩ (by rwa [hscope])
      · rw [openTables_size]
        exact Nat.lt_add_right 2 halive.1
      · rw [isAlive, hscope]
        exact halive.2
    exact hdeclared.congr rfl rfl (fun _ => ⟨rfl, rfl, rfl, rfl⟩) hdeclared.gone hdeclared.apart

theorem size_le (h : t.Nested) : t.size ≤ t'.size := by
  cases hy with
  | keeps => exact Nat.le_refl _
  | opens parent kind _ _ =>
    rw [push_size]
    exact Nat.le_succ _
  | closes c rest hactive => exact Nat.le_of_eq (remove_size t _).symm
  | enters u c sym hu _ _ =>
    rw [declare_size]
    rcases hu with rfl | ⟨r, rfl⟩
    · exact Nat.le_refl _
    · exact Nat.le_of_eq (takeSlot_size t r).symm
  | joins c sym depth classes _ _ =>
    have hsize : ({ (t.openTables c depth).declare c sym with classes } : ScopeTable).size =
      (t.openTables c depth).size := declare_size _ c sym
    rw [hsize, openTables_size]
    omega

/-- The innermost scope may go and a new one may come. -/
theorem active (h : t.Nested) : t'.active = t.active ∨ t'.active = ⟨t.size⟩ :: t.active ∨
    ∃ c, t.active = c :: t'.active := by
  cases hy with
  | keeps => exact .inl rfl
  | opens parent kind _ hkind => exact .inr (.inl (if_pos hkind))
  | closes c rest hactive => exact .inr (.inr ⟨c, by rw [hactive, h.remove_active hactive]⟩)
  | enters u c sym hu _ _ => rcases hu with rfl | ⟨r, rfl⟩ <;> exact .inl rfl
  | joins c sym depth classes _ _ => exact .inl rfl

end Yields

/-! ## What a run does -/

section

variable {t : ScopeTable} {ops : List ScopeOp}

theorem after_cons (op : ScopeOp) : t.after (op :: ops) = (t.perform op).2.after ops := rfl

theorem Nested.after (h : t.Nested) (hops : t.Runs ops) : (t.after ops).Nested := by
  induction ops generalizing t with
  | nil => exact h
  | cons op ops ih => exact ih ((h.performs hops.1).nested h) hops.2

theorem Nested.size_le (h : t.Nested) (hops : t.Runs ops) : t.size ≤ (t.after ops).size := by
  induction ops generalizing t with
  | nil => exact Nat.le_refl _
  | cons op ops ih =>
    have hy := h.performs hops.1
    exact Nat.le_trans (hy.size_le h) (ih (hy.nested h) hops.2)

theorem nested_empty : ({} : ScopeTable).Nested := by
  have hliving : ({} : ScopeTable).Living .top := ⟨Nat.one_pos, rfl⟩
  refine ⟨laid_empty, List.Pairwise.nil, ?_, ?_, ?_, ?_, ?_⟩
  · intro j
    rcases empty_scope j with rfl | ⟨hne, -⟩
    · exact iff_of_true hliving (.inr ⟨Nat.one_pos, .inl rfl⟩)
    · refine iff_of_false (fun hj => hne hj.1) ?_
      rintro (hj | hj)
      · cases hj
      · exact hne hj.1
  · intro j hj r hr
    rcases empty_scope j with rfl | ⟨hne, -⟩
    · rw [List.mem_singleton.mp hr]
      exact hliving
    · exact absurd hj.1 hne
  · intro j hj
    rcases empty_scope j with rfl | ⟨-, hdefault⟩
    · cases hj
    · rw [hdefault] at hj
      cases hj
  · intro j _
    rcases empty_scope j with rfl | ⟨-, hdefault⟩
    · rfl
    · rw [hdefault]
      rfl
  · intro j
    rcases empty_scope j with rfl | ⟨-, hdefault⟩
    · exact List.Pairwise.nil
    · rw [hdefault]
      exact List.Pairwise.nil

end

end ScopeTable

end Bytescript
