import Bytescript.Proofs.Visibility

/-!
# Environments

What the compiler has in mind when it opens and removes scopes is a stack of environments. The
innermost block or body is on top, and removing it is taking the top off; below the stack are the
environments of the top level and of the classes, which stay. There are no depths, no flags and no
removed scopes here (`Environments`).

A table of scopes that is used as in `ScopeTable.Runs` stands for such a stack
(`ScopeTable.environments`). Each operation does to the table what it does to the stack and gets the
same answer (`Nested.simulates`), and names mean the same in both (`Nested.finds_eq`).
-/

namespace Bytescript

/-- What there is to know of a scope. Those that were around it may be gone. -/
structure Environment where
  id : ScopeId
  /-- This scope and those around it, from the inside out. -/
  path : List ScopeId
  kind : ScopeKind
  slots : Nat := 0
  symbols : Array Symbol := #[]
deriving Inhabited

structure Environments where
  /-- How many scopes there have been. -/
  count : Nat := 1
  /-- The open blocks and bodies, innermost first. -/
  stack : List Environment := []
  /-- The top level and the scopes of classes. -/
  lasting : List Environment := [{ id := .top, path := [.top], kind := .root }]

/-- Environments from the inside out, up to the first slot root. -/
def Environment.upToRoot : List Environment → List Environment
  | [] => []
  | e :: rest => if e.kind.ownsSlots then [e] else e :: upToRoot rest

namespace Environments

variable (E : Environments) (id : ScopeId)

def find : Option Environment := (E.stack ++ E.lasting).find? (·.id = id)

def get : Environment := (E.find id).getD default

/-- The environments around a scope that are still there, from the inside out. -/
def around : List Environment := (E.get id).path.filterMap E.find

/-! ## Looking up -/

def lookup (name : String) : Option Symbol :=
  (E.around id).findSome? fun e => e.symbols.findRev? (·.name = name)

def lookupVariable (name : String) : Option Symbol :=
  (Environment.upToRoot (E.around id)).findSome? fun e =>
    e.symbols.find? (ScopeTable.isVariable name)

def lookupFunctions (name : String) : List Symbol :=
  (E.around id).flatMap fun e => e.symbols.toList.filter fun sym => sym.isFunction && sym.name =
    name

def finds (name : String) : Option Symbol × Option Symbol × List Symbol :=
  (E.lookup id name, E.lookupVariable id name, E.lookupFunctions id name)

def slotRoot : ScopeId :=
  (((Environment.upToRoot (E.around id)).find? (·.kind.ownsSlots)).map (·.id)).getD .top

/-! ## Operations -/

/-- An environment inside another one, which has nothing in it yet. -/
def inside (parent : ScopeId) (kind : ScopeKind) : Environment :=
  { id := ⟨E.count⟩, path := ⟨E.count⟩ :: (E.get parent).path, kind }

def push (parent : ScopeId) (kind : ScopeKind) : Environments :=
  { E with count := E.count + 1, stack := E.inside parent kind :: E.stack }

def add (parent : ScopeId) (kind : ScopeKind) : Environments :=
  { E with count := E.count + 1, lasting := E.lasting ++ [E.inside parent kind] }

def pop : Environments := { E with stack := E.stack.tail }

def alter (f : Environment → Environment) : Environments :=
  { E with
    stack := E.stack.map fun e => if e.id = id then f e else e
    lasting := E.lasting.map fun e => if e.id = id then f e else e }

def declare (sym : Symbol) : Environments :=
  E.alter id fun e => { e with symbols := e.symbols.push sym }

def takeSlot : Environments := E.alter id fun e => { e with slots := e.slots + 1 }

/-- Whether an environment itself has something of this name. -/
def has (name : String) : Bool := (E.get id).symbols.any (·.name = name)

def declareVariable (name : String) (type : TypeId) : ScopeAnswer × Environments :=
  if (E.lookupVariable id name).isSome || E.has id name then (.refused (.redeclared name), E)
  else
    let slots := (E.get (E.slotRoot id)).slots
    if slots < ScopeError.slotLimit then
      (.slot slots.toUInt16,
        (E.takeSlot (E.slotRoot id)).declare id ⟨name, type, .variable slots.toUInt16⟩)
    else (.refused .tooManySlots, E)

def declareCallable (sym : Symbol) : ScopeAnswer × Environments :=
  match ScopeTable.clash? (E.get id).symbols sym.name (sym.params?.getD []) with
  | some e => (.refused e, E)
  | none => (.done, E.declare id sym)

def declareClass (name qualified : String) (type : TypeId) (types : TypeScopeId)
    (constant : UInt16) : ScopeAnswer × Environments :=
  if E.has id name then (.refused (.redeclared name), E)
  else
    let members : ScopeId := ⟨E.count⟩
    let methods : ScopeId := ⟨E.count + 1⟩
    let parts : ClassScopes := { qualified, members, methods, types, constant }
    (.parts parts,
      ((E.add id .members).add members .methods).declare id ⟨name, type, .classRole parts⟩)

def perform : ScopeOp → ScopeAnswer × Environments
  | .openBlock => (.opened ⟨E.count⟩, E.push ((E.stack.head?.map (·.id)).getD .top) .block)
  | .openBody parent => (.opened ⟨E.count⟩, E.push parent .root)
  | .close => (.done, E.pop)
  | .variable s name type => E.declareVariable s name type
  | .function s name result params constant =>
    E.declareCallable s ⟨name, result, .function params constant⟩
  | .method s name result params constant =>
    E.declareCallable s ⟨name, result, .method params constant⟩
  | .classType s name qualified type types constant =>
    E.declareClass s name qualified type types constant

def after (E : Environments) (ops : List ScopeOp) : Environments :=
  ops.foldl (fun E op => (E.perform op).2) E

def answers (E : Environments) : List ScopeOp → List ScopeAnswer
  | [] => []
  | op :: ops => (E.perform op).1 :: (E.perform op).2.answers ops

end Environments

namespace ScopeTable

def answers (t : ScopeTable) : List ScopeOp → List ScopeAnswer
  | [] => []
  | op :: ops => (t.perform op).1 :: (t.perform op).2.answers ops

/-! ## The stack that a table stands for -/

def environment (t : ScopeTable) (id : ScopeId) : Environment :=
  let s := t.scope id
  { id, path := s.path, kind := s.kind, slots := s.slots, symbols := s.symbols }

/-- The scopes that are never removed, oldest first. -/
def lasting (t : ScopeTable) : List ScopeId :=
  ((List.range t.size).map ScopeId.mk).filter fun j => j = .top ∨
  (t.scope j).kind.isTransient = false

def environments (t : ScopeTable) : Environments where
  count := t.size
  stack := t.active.map t.environment
  lasting := t.lasting.map t.environment

theorem mem_lasting {t : ScopeTable} {j : ScopeId} : j ∈ t.lasting ↔ t.Persistent j := by
  rw [lasting, List.mem_filter, decide_eq_true_eq, Persistent]
  refine and_congr_left fun _ => ?_
  simp only [List.mem_map, List.mem_range]
  constructor
  · rintro ⟨n, hn, rfl⟩
    exact hn
  · exact fun hj => ⟨j.index, hj, rfl⟩

theorem lasting_congr {t t' : ScopeTable} (hsize : t'.size = t.size)
    (hkind : ∀ j, (t'.scope j).kind = (t.scope j).kind) : t'.lasting = t.lasting := by
  rw [lasting, lasting, hsize]
  exact List.filter_congr fun j _ => by rw [hkind]

theorem find?_environment (t : ScopeTable) (ids : List ScopeId) (j : ScopeId) :
    (ids.map t.environment).find? (·.id = j) =
      if j ∈ ids then some (t.environment j) else none := by
  induction ids with
  | nil => rfl
  | cons id ids ih =>
    rw [List.map_cons, List.find?_cons]
    by_cases hid : id = j
    · subst hid
      simp [environment]
    · have hne : (t.environment id).id ≠ j := hid
      simp [hne, ih, Ne.symm hid]

namespace Nested

variable {t : ScopeTable} (h : t.Nested)

theorem find?_frame (j : ScopeId) : (t.path j).find? (fun r => (t.scope r).kind.ownsSlots) =
    (t.frame j).find? fun r => (t.scope r).kind.ownsSlots := by
  rw [frame]
  induction t.path j with
  | nil => rfl
  | cons r rest ih =>
    rw [frameOn]
    by_cases howns : (t.scope r).kind.ownsSlots = true <;> simp [howns, ih]

include h

theorem find_eq (j : ScopeId) :
    t.environments.find j = if t.Living j then some (t.environment j) else none := by
  rw [Environments.find, environments, List.find?_append, find?_environment, find?_environment]
  by_cases hj : t.Living j
  · rw [if_pos hj]
    rcases (h.alive j).mp hj with hactive | hlasting
    · simp [hactive]
    · rw [if_pos (mem_lasting.mpr hlasting)]
      split <;> rfl
  · obtain ⟨hactive, hlasting⟩ := not_or.mp (mt (h.alive j).mpr hj)
    rw [if_neg hj, if_neg hactive, if_neg (mt mem_lasting.mp hlasting), Option.none_or]

variable {j c s : ScopeId} {α : Type}

/-! ### Looking up -/

theorem flatMap_around {f : Array Symbol → List α} (hf : f #[] = []) (path : List ScopeId) :
    (path.filterMap t.environments.find).flatMap (fun e => f e.symbols) =
      path.flatMap fun r => f (t.scope r).symbols := by
  induction path with
  | nil => rfl
  | cons r rest ih =>
    rw [List.filterMap_cons, h.find_eq, List.flatMap_cons]
    by_cases hr : t.Living r
    · rw [if_pos hr, List.flatMap_cons, ih]
      rfl
    · rw [if_neg hr, h.gone r hr, hf, List.nil_append, ih]

/-- Up to the next slot root nothing is missing. -/
theorem upToRoot_filterMap {path : List ScopeId} (hpath : ∀ r ∈ t.frameOn path, t.Living r) :
    Environment.upToRoot (path.filterMap t.environments.find) =
      (t.frameOn path).map t.environment := by
  induction path with
  | nil => rfl
  | cons r rest ih =>
    rw [frameOn] at hpath ⊢
    have hr : t.Living r := by
      split at hpath <;> exact hpath r (.head _)
    rw [List.filterMap_cons, h.find_eq, if_pos hr]
    by_cases howns : (t.scope r).kind.ownsSlots = true
    · rw [if_pos howns]
      exact if_pos howns
    · rw [if_neg howns] at hpath ⊢
      rw [List.map_cons, ← ih fun q hq => hpath q (List.mem_cons_of_mem r hq)]
      exact if_neg howns

section

variable (hj : t.Living j)

include hj

theorem get_eq : t.environments.get j = t.environment j := by
  rw [Environments.get, h.find_eq, if_pos hj, Option.getD_some]

theorem around_eq : t.environments.around j = (t.path j).filterMap t.environments.find := by
  rw [Environments.around, h.get_eq hj]
  rfl

theorem upToRoot_around :
    Environment.upToRoot (t.environments.around j) = (t.frame j).map t.environment := by
  rw [h.around_eq hj]
  exact h.upToRoot_filterMap (h.frames j hj)

theorem lookupVariable_eq (name : String) :
    t.environments.lookupVariable j name = t.lookupVariable j name := by
  rw [Environments.lookupVariable, h.upToRoot_around hj, List.findSome?_map, lookupVariable,
    lookupVariableOn_eq]
  rfl

theorem finds_eq : t.environments.finds j = t.finds j := by
  funext name
  have hlookup : t.environments.lookup j name = t.lookup j name := by
    -- what is found first is the head of all that can be found
    have hhead : ∀ {β : Type} (l : List β) (g : β → Option Symbol),
        l.findSome? g = (l.flatMap fun b => (g b).toList).head? := by simp [List.head?_flatMap]
    rw [Environments.lookup, h.around_eq hj, lookup, hhead, hhead]
    exact congrArg _ (h.flatMap_around (f := fun syms => (syms.findRev? (·.name = name)).toList)
      (by simp) _)
  have hfunctions : t.environments.lookupFunctions j name = t.lookupFunctions j name := by
    rw [Environments.lookupFunctions, h.around_eq hj]
    exact h.flatMap_around
      (f := fun syms => syms.toList.filter fun sym => sym.isFunction && sym.name = name) rfl
        (t.path j)
  rw [Environments.finds, hlookup, hfunctions, h.lookupVariable_eq hj, finds]

theorem slotRoot_eq : t.environments.slotRoot j = t.slotRoot j := by
  rw [Environments.slotRoot, h.upToRoot_around hj, List.find?_map, Option.map_map, slotRoot,
    find?_frame]
  exact congrArg (Option.getD · ScopeId.top) Option.map_id'

theorem living_slotRoot : t.Living (t.slotRoot j) := by
  rw [slotRoot, find?_frame]
  cases hfind : (t.frame j).find? fun r => (t.scope r).kind.ownsSlots with
  | none => exact (h.alive .top).mpr (.inr ⟨h.top.1, .inl rfl⟩)
  | some r => exact h.frames j hj r (List.mem_of_find?_eq_some hfind)

theorem has_eq (name : String) :
    t.environments.has j name = (t.lookupHere j name).isSome := by
  rw [Environments.has, h.get_eq hj, lookupHere, Bool.eq_iff_iff, Array.find?_isSome,
    Array.any_eq_true']
  rfl

end

/-! ### Operations -/

/-- What is done to one scope is done to its environment. -/
theorem alter_eq {f : Environment → Environment} {g : Scope → Scope}
    (hkind : ∀ s, (g s).kind = s.kind)
    (hf : ∀ u : ScopeTable, u.scope c = g (t.scope c) → u.environment c = f (t.environment c)) :
    ({ t with scopes := t.scopes.modify c.index g } : ScopeTable).environments =
      t.environments.alter c f := by
  have hsize : ({ t with scopes := t.scopes.modify c.index g } : ScopeTable).size = t.size :=
    Array.size_modify ..
  have hmap : ∀ ids : List ScopeId, (∀ j ∈ ids, j.index < t.size) →
      ids.map ({ t with scopes := t.scopes.modify c.index g } : ScopeTable).environment =
        (ids.map t.environment).map fun e => if e.id = c then f e else e := by
    intro ids hids
    rw [List.map_map]
    refine List.map_congr_left fun j hj => ?_
    by_cases hjc : j = c
    · subst hjc
      exact (hf _ ((scope_modify ..).trans (if_pos ⟨rfl, hids j hj⟩))).trans (if_pos rfl).symm
    · rw [environment, scope_modify, if_neg fun heq => hjc heq.1]
      exact (if_neg hjc).symm
  have hlasting : ({ t with scopes := t.scopes.modify c.index g } : ScopeTable).lasting =
    t.lasting := by
    refine lasting_congr hsize fun j => ?_
    rw [scope_modify]
    split
    · exact hkind _
    · rfl
  rw [Environments.alter, environments, environments, hlasting, hsize]
  congr 1
  · exact hmap _ fun j hj => (h.active j hj).1
  · exact hmap _ fun j hj => (mem_lasting.mp hj).1

theorem declare_eq (c : ScopeId) (sym : Symbol) :
    (t.declare c sym).environments = t.environments.declare c sym :=
  h.alter_eq (fun _ => rfl) fun u heq => by rw [environment, heq]; rfl

theorem takeSlot_eq (r : ScopeId) : (t.takeSlot r).environments = t.environments.takeSlot r :=
  h.alter_eq (fun _ => rfl) fun u heq => by rw [environment, heq]; rfl

section

variable {parent : ScopeId} (hparent : t.Living parent) (depth : Nat) {kind : ScopeKind}

theorem lasting_push : (t.push parent depth kind).2.lasting =
    if kind.isTransient then t.lasting else t.lasting ++ [⟨t.size⟩] := by
  have hne : (⟨t.size⟩ : ScopeId) ≠ .top := by
    intro heq
    have hpos := h.top.1
    rw [← heq] at hpos
    exact Nat.lt_irrefl _ hpos
  rw [lasting, push_size, List.range_succ, List.map_append, List.filter_append, lasting]
  have hold : ((List.range t.size).map ScopeId.mk).filter
        (fun j => j = .top ∨ ((t.push parent depth kind).2.scope j).kind.isTransient = false) =
      ((List.range t.size).map ScopeId.mk).filter
        fun j => j = .top ∨ (t.scope j).kind.isTransient = false := by
    refine List.filter_congr fun j hj => ?_
    obtain ⟨n, hn, rfl⟩ := List.mem_map.mp hj
    rw [push_scope_old (List.mem_range.mp hn)]
  rw [hold]
  by_cases hkind : kind.isTransient = true
  · simp [hkind, hne, push_scope_new]
  · simp [hkind, push_scope_new]

omit h in
theorem environment_push {ids : List ScopeId} (hids : ∀ j ∈ ids, j.index < t.size) :
    ids.map (t.push parent depth kind).2.environment = ids.map t.environment := by
  refine List.map_congr_left fun j hj => ?_
  rw [environment, push_scope_old (hids j hj)]
  rfl

include hparent

theorem inside_eq : t.environments.inside parent kind =
    (t.push parent depth kind).2.environment ⟨t.size⟩ := by
  rw [environment, push_scope_new, Environments.inside, h.get_eq hparent]
  rfl

theorem push_eq (hkind : kind.isTransient = true) :
    (t.push parent depth kind).2.environments = t.environments.push parent kind := by
  rw [environments, h.lasting_push, push_active, if_pos hkind, if_pos hkind, push_size,
    List.map_cons, environment_push depth fun j hj => (h.active j hj).1,
    environment_push depth fun j hj => (mem_lasting.mp hj).1, ← h.inside_eq hparent depth]
  rfl

theorem add_eq (hkind : kind.isTransient = false) :
    (t.push parent depth kind).2.environments = t.environments.add parent kind := by
  have hkind' : ¬ kind.isTransient = true := by rw [hkind]; exact Bool.false_ne_true
  rw [environments, h.lasting_push, push_active, if_neg hkind', if_neg hkind', push_size,
    List.map_append, environment_push depth fun j hj => (h.active j hj).1,
    environment_push depth fun j hj => (mem_lasting.mp hj).1, List.map_singleton,
    ← h.inside_eq hparent depth]
  rfl

end

theorem openTables_eq (hc : t.Living c) (depth : Nat) :
    (t.openTables c depth).environments =
      (t.environments.add c .members).add ⟨t.size⟩ .methods := by
  have hmembers : (t.push c depth .members).2.Nested := h.push hc nofun nofun
  rw [ScopeTable.openTables, hmembers.add_eq living_push_new depth rfl, h.add_eq hc depth rfl]

theorem pop_eq {rest : List ScopeId} (hactive : t.active = c :: rest) :
    (t.remove t.depth).environments = t.environments.pop := by
  have hmap : ∀ ids : List ScopeId, c ∉ ids →
      ids.map (t.remove t.depth).environment = ids.map t.environment := by
    intro ids hids
    refine List.map_congr_left fun j hj => ?_
    rw [environment, h.remove_scope_ne hactive fun heq => hids (heq ▸ hj)]
    rfl
  have hlasting := lasting_congr (remove_size t t.depth) fun j => (remove_shape t t.depth j).2.2.1
  have hopen : c ∉ t.lasting :=
    fun hc => h.not_active (mem_lasting.mp hc) (hactive ▸ (.head _))
  rw [environments, h.remove_active hactive, hlasting, remove_size,
    hmap _ (h.innermost_not_mem hactive), hmap _ hopen, Environments.pop, environments, hactive]
  rfl

theorem declareVariable_eq (hs : t.Living s) (name : String) (type : TypeId) :
    t.environments.declareVariable s name type = (.of .slot (t.insertVariable s name type).1,
      (t.insertVariable s name type).2.environments) := by
  rw [Environments.declareVariable, h.lookupVariable_eq hs, h.has_eq hs, h.slotRoot_eq hs,
    h.get_eq (h.living_slotRoot hs), insertVariable]
  split
  · rfl
  · dsimp only [environment]
    split
    · rw [(h.takeSlot _).declare_eq, h.takeSlot_eq]
      rfl
    · rfl

theorem declareCallable_eq (hs : t.Living s) (sym : Symbol) :
    t.environments.declareCallable s sym = (.of (fun _ => .done) (t.insertCallable s sym).1,
      (t.insertCallable s sym).2.environments) := by
  rw [Environments.declareCallable, h.get_eq hs, insertCallable, environment]
  dsimp only
  cases clash? (t.scope s).symbols sym.name (sym.params?.getD []) with
  | some e => rfl
  | none =>
    rw [← h.declare_eq]
    rfl

theorem declareClass_eq (hs : t.Living s) (name qualified : String) (type : TypeId)
    (types : TypeScopeId) (constant : UInt16) :
    t.environments.declareClass s name qualified type types constant =
      (.of .parts (t.insertClass s name qualified type types constant).1,
        (t.insertClass s name qualified type types constant).2.environments) := by
  rw [Environments.declareClass, h.has_eq hs]
  rcases insertClass_cases t s name qualified type types constant with
    ⟨hclash, heq⟩ | ⟨hfree, classes, heq⟩
  · rw [if_pos hclash, heq]
    rfl
  · have htables := (h.openTables hs (t.scope s).depth).declare_eq s
      ⟨name, type, .classRole (t.nextParts qualified types constant)⟩
    rw [h.openTables_eq hs] at htables
    rw [hfree, heq]
    exact Prod.ext rfl htables.symm

/-- An operation does the same to a table and to the stack that it stands for. -/
theorem simulates {op : ScopeOp} (hop : t.Allows op) :
    t.environments.perform op = ((t.perform op).1, (t.perform op).2.environments) := by
  cases op with
  | openBlock =>
    have hcurrent : (t.environments.stack.head?.map (·.id)).getD .top = t.current := by
      rw [environments, current, List.head?_map, Option.map_map]
      exact congrArg (Option.getD · ScopeId.top) Option.map_id'
    rw [Environments.perform, hcurrent, ← h.push_eq h.living_current (t.depth + 1) rfl]
    rfl
  | openBody parent =>
    have hparent : t.Living parent := h.living_parent hop
    rw [Environments.perform, ← h.push_eq hparent (t.depth + 1) rfl]
    rfl
  | close =>
    obtain ⟨c, rest, hactive⟩ := List.exists_cons_of_ne_nil hop
    rw [Environments.perform, ← h.pop_eq hactive]
    rfl
  | «variable» s name type => exact h.declareVariable_eq hop name type
  | function s name result params constant | method s name result params constant =>
    exact h.declareCallable_eq hop _
  | classType s name qualified type types constant =>
    exact h.declareClass_eq hop name qualified type types constant

/-- A run of operations gets the same answers from a table and from the stack that it stands for. -/
theorem simulates_all {ops : List ScopeOp} (hops : t.Runs ops) :
    t.environments.answers ops = t.answers ops ∧
      t.environments.after ops = (t.after ops).environments := by
  induction ops generalizing t with
  | nil => exact ⟨rfl, rfl⟩
  | cons op ops ih =>
    have hstep := h.simulates hops.1
    obtain ⟨hanswers, hafter⟩ := ih ((h.performs hops.1).nested h) hops.2
    refine ⟨?_, ?_⟩
    · rw [Environments.answers, answers, hstep, hanswers]
    · rw [after_cons, ← hafter, Environments.after, List.foldl_cons, hstep]
      rfl

end Nested

/-- A table that is used as the compiler does stands for a stack of environments, which gives the
same answers and finds the same for every name. A removal takes exactly the innermost scope. When a
scope that has been opened is removed again, names mean in the older scopes what they meant before
it was opened, but for the symbols that these have been given since. The variable that is found is
the innermost one of its name, not beyond the next slot root. A variable is refused as declared
already exactly if one is found, or if the scope itself has something of the name. What is refused
changes nothing. -/
theorem refines_environments {ops : List ScopeOp} (hops : ({} : ScopeTable).Runs ops) :
    let t := ({} : ScopeTable).after ops
    (Environments.answers {} ops = ({} : ScopeTable).answers ops ∧
      Environments.after {} ops = t.environments ∧
      ∀ s, t.Living s → t.environments.finds s = t.finds s) ∧
    (∀ c rest, t.active = c :: rest → (t.remove t.depth).active = rest ∧
      (∀ j, (t.remove t.depth).Living j ↔ t.Living j ∧ j ≠ c) ∧
      ∀ j, j ≠ c → (t.remove t.depth).scope j = t.scope j) ∧
    (∀ op inner, op.opens = true → t.Runs (op :: inner) →
      (t.after (op :: inner)).active.head? = some ⟨t.size⟩ →
      let t' := ((t.after (op :: inner)).perform .close).2
      t'.active = t.active ∧ ∀ s, s.index < t.size → (t'.Living s ↔ t.Living s) ∧
        t'.finds s = (t.declareAll (t.declared (op :: inner))).finds s) ∧
    (∀ s name v, t.lookupVariable s name = some v ↔ t.Sees s name v) ∧
    (∀ s name type, (t.insertVariable s name type).1 = .error (.redeclared name) ↔
      (∃ v, t.Sees s name v) ∨ ∃ sym ∈ (t.scope s).symbols, sym.name = name) ∧
    ∀ op e, (t.perform op).1 = .refused e → (t.perform op).2 = t := by
  have ht := nested_empty.after hops
  obtain ⟨hanswers, hafter⟩ := nested_empty.simulates_all hops
  refine ⟨⟨hanswers, hafter, fun s hs => ht.finds_eq hs⟩, fun c rest hactive => ?_,
    fun op inner hop hruns hinnermost => ?_, fun s name v => ht.lookupVariable_iff,
    fun s name type => ?_, fun op e => perform_refused _ op⟩
  · exact ⟨ht.remove_active hactive, ht.living_remove hactive, fun j => ht.remove_scope_ne hactive⟩
  · obtain ⟨hactive, -⟩ := ht.innermost_again hop hruns hinnermost
    exact ⟨(ht.after hruns).remove_active hactive, fun s hs =>
      ⟨ht.restores_living hop hruns hinnermost hs,
        funext (ht.restores_finds hop hruns hinnermost hs)⟩⟩
  · rw [insertVariable_redeclared]
    simp only [ht.lookupVariable_iff]

/-- A class with a member, two functions of one name, and the body of a method of the class. -/
def bodyOps : List ScopeOp :=
  [.classType .top "A" "A" ⟨5⟩ .top 0, .variable ⟨1⟩ "x" .int, .variable .top "y" .int,
    .function .top "f" .int [.int] 1, .function .top "f" .double [.double] 2, .openBody ⟨2⟩,
    .variable ⟨3⟩ "this" ⟨5⟩]

/-- In a block of the body: a variable, a class, a variable of the same name in the body around the
block, one more function at the top, and a block inside it in which the name of the variable is
refused. -/
def blockOps : List ScopeOp :=
  [.variable ⟨4⟩ "y" .int, .classType ⟨4⟩ "B" "A.B" ⟨6⟩ .top 3, .variable ⟨3⟩ "y" .double,
    .function .top "f" .void [] 4, .openBlock, .variable ⟨7⟩ "y" .int, .close]

theorem refines_environments_block : ({} : ScopeTable).Runs bodyOps ∧
    (({} : ScopeTable).after bodyOps).Runs (.openBlock :: blockOps) ∧
    (({} : ScopeTable).after bodyOps).finds ⟨3⟩ "y" =
      (some ⟨"y", .int, .variable 0⟩, none, []) ∧
    ((Environments.after {} bodyOps).lookupFunctions ⟨3⟩ "f").map (·.type) = [.int, .double] ∧
    (((({} : ScopeTable).after bodyOps).after (.openBlock :: blockOps)).perform .close).2.finds
      ⟨3⟩ "y" = (some ⟨"y", .double, .variable 2⟩, some ⟨"y", .double, .variable 2⟩, []) ∧
    ((((({} : ScopeTable).after bodyOps).after (.openBlock :: blockOps)).perform
      .close).2.lookupFunctions ⟨3⟩ "f").map (·.type) = [.int, .double, .void] ∧
    (({} : ScopeTable).after bodyOps).Sees ⟨3⟩ "this" ⟨"this", ⟨5⟩, .variable 0⟩ := by
  have hops : ({} : ScopeTable).Runs bodyOps := by decide
  have hruns : (({} : ScopeTable).after bodyOps).Runs (.openBlock :: blockOps) := by decide
  obtain ⟨⟨-, hafter, hsame⟩, -, hrestores, hsees, -, -⟩ := refines_environments hops
  obtain ⟨-, hfinds⟩ := hrestores .openBlock blockOps rfl hruns (by decide)
  obtain ⟨-, hfinds⟩ := hfinds ⟨3⟩ (by decide)
  have hliving : (({} : ScopeTable).after bodyOps).Living ⟨3⟩ := by decide
  have hoverloads := congrArg (·.2.2) (congrFun (hsame ⟨3⟩ hliving) "f")
  have hlater := congrArg (·.2.2) (congrFun hfinds "f")
  refine ⟨hops, hruns, by decide, ?_, ?_, ?_, (hsees _ _ _).mp (by decide)⟩
  · rw [hafter]
    refine (congrArg (List.map (·.type)) hoverloads).trans ?_
    decide
  · rw [hfinds]
    decide
  · refine (congrArg (List.map (·.type)) hlater).trans ?_
    decide

end ScopeTable

end Bytescript
