import Bytescript.Proofs.Scopes

/-!
# Scopes of classes

Declaring a class or a callable adds symbols to scopes that stay. Nothing declared before is lost,
every new symbol is known (`ClassDeclared.symbols`), and the members of a class are numbered in the
order in which they were declared (`Numbered`).
-/

namespace Bytescript

namespace ScopeTable

/-! ## Declaring symbols -/

section

variable {t t' : ScopeTable} {id : ScopeId} {sym : Symbol}

theorem declare_mem {j : ScopeId} {other : Symbol}
    (h : other ∈ ((t.declare id sym).scope j).symbols) :
    other ∈ (t.scope j).symbols ∨ j = id ∧ other = sym := by
  rw [declare_scope] at h
  split at h
  next hj =>
    rcases Array.mem_push.mp h with h | rfl
    · exact .inl h
    · exact .inr ⟨hj.1, rfl⟩
  · exact .inl h

theorem mem_declare (hid : id.index < t.size) : sym ∈ ((t.declare id sym).scope id).symbols := by
  rw [declare_scope, if_pos ⟨rfl, hid⟩]
  exact Array.mem_push_self

theorem declare_shape (j : ScopeId) :
    ((t.declare id sym).scope j).path = (t.scope j).path ∧
      ((t.declare id sym).scope j).kind = (t.scope j).kind ∧
      ((t.declare id sym).scope j).slots = (t.scope j).slots := by
  rw [declare_scope]
  split <;> exact ⟨rfl, rfl, rfl⟩

theorem OwnsMembers.declare {j : ScopeId} (h : t.OwnsMembers j) :
    (t.declare id sym).OwnsMembers j :=
  ⟨by rw [declare_size]; exact h.1, by rw [(declare_shape j).2.1]; exact h.2⟩

theorem Sound.declare (h : t.Sound) (hparts : ∀ parts, sym.class? = some parts →
      t.OwnsMembers parts.members ∧ t.Persistent parts.methods)
    (hfun : sym.isFunction = true → id = .top) : (t.declare id sym).Sound := by
  refine h.congr (declare_size t id sym) (List.Subset.refl _)
    (fun j => ⟨(declare_shape j).1, (declare_shape j).2.1⟩) rfl fun j other hmem => ?_
  rcases declare_mem hmem with hmem | ⟨rfl, rfl⟩
  · exact .inl hmem
  · exact .inr ⟨hparts, hfun⟩

theorem grows_declare : Grows t (t.declare id sym) := by
  refine ⟨fun j hj => ⟨⟨by rw [declare_size]; exact hj.1,
    by rw [(declare_shape j).2.1]; exact hj.2⟩, ?_⟩, fun _ _ hl => hl⟩
  rw [declare_scope]
  split
  · exact ⟨[sym], Array.toList_push⟩
  · exact ⟨[], (List.append_nil _).symm⟩

theorem insertCallable_ok {u : Unit} (h : t.insertCallable id sym = (.ok u, t')) :
    t' = t.declare id sym ∧ clash? (t.scope id).symbols sym.name (sym.params?.getD []) = none := by
  unfold insertCallable at h
  split at h
  · cases h
  next hclash =>
    cases h
    exact ⟨rfl, hclash⟩

end

/-! ## Numbering members -/

/-- The slots of the members of every class are numbered from zero. -/
def Numbered (t : ScopeTable) : Prop :=
  ∀ j, (t.scope j).kind = .members → (t.scope j).slots ≤ 65536 ∧
    (t.scope j).symbols.toList.filterMap Symbol.slot? =
      (List.range (t.scope j).slots).map Nat.toUInt16

variable {t t' : ScopeTable} {id : ScopeId} {name : String} {type : TypeId} {parts : ClassScopes}

theorem Numbered.declare (h : t.Numbered) {sym : Symbol} (hsym : sym.slot? = none) :
    (t.declare id sym).Numbered := by
  intro j hj
  rw [(declare_shape j).2.1] at hj
  obtain ⟨hslots, hsymbols⟩ := h j hj
  rw [(declare_shape j).2.2, ← hsymbols, declare_scope]
  refine ⟨hslots, ?_⟩
  split
  · simp [hsym]
  · rfl

/-- A member gets the next number of its class. -/
theorem Declared.numbered {c : ScopeId} {slot : UInt16} (h : Declared c name type slot t t')
    (ht : t.Sound) (hc : t.OwnsMembers c) (hnumbered : t.Numbered) : t'.Numbered := by
  have hroot : t.slotRoot c = c := ht.slotRoot_members hc
  have hroot' : t'.slotRoot c = c := (h.framed.slotRoot ht hc.1).trans hroot
  have hslots : (t'.scope c).slots = (t.scope c).slots + 1 := by
    have := h.slotCount
    rwa [ScopeTable.slotCount, ScopeTable.slotCount, hroot, hroot'] at this
  intro j hj
  by_cases hlt : j.index < t.size
  · obtain ⟨-, -, hkind⟩ := h.framed.shape j hlt
    rw [hkind] at hj
    by_cases hjc : j = c
    · subst hjc
      have hslot : slot = (t.scope j).slots.toUInt16 := by
        rw [h.slot_eq, ScopeTable.slotCount, hroot]
      have hlimit := h.limit
      rw [ScopeTable.slotCount, hroot] at hlimit
      rw [h.symbols, hslots, Array.toList_push, List.filterMap_append, (hnumbered j hj).2,
        List.range_succ, List.map_append, hslot]
      exact ⟨hlimit, rfl⟩
    · rw [h.framed.symbols j hlt hjc, h.framed.slots j hlt (hroot.symm ▸ hjc)]
      exact hnumbered j hj
  · rw [scope_eq_default (h.size ▸ Nat.le_of_not_lt hlt)] at hj
    cases hj

/-! ## Declaring classes -/

/-- Since the table was `t`, a class has been declared, with scopes for its members and methods. -/
structure ClassKept (name : String) (type : TypeId) (parts : ClassScopes) (t t' : ScopeTable) :
    Prop where
  sound : t'.Sound
  grows : Grows t t'
  size : t'.size = t.size + 2
  active : t'.active = t.active
  members : t'.OwnsMembers parts.members
  methods : t'.Persistent parts.methods
  found : t'.lookupClass type = some ⟨name, type, .classRole parts⟩
  slots : (t'.scope .top).slots = (t.scope .top).slots
  keys : ∀ key place, t'.classes.lookup key = some place →
    key = type ∨ t.classes.lookup key = some place
  numbered : t.Numbered → t'.Numbered

/-- The class has got its constructor, under the name `init`, and no other symbols. -/
structure ClassDeclared (name : String) (type : TypeId) (parts : ClassScopes) (init : String)
    (constructor : UInt16) (t t' : ScopeTable) : Prop extends ClassKept name type parts t t' where
  constructs : t'.lookupHere parts.methods init = some ⟨init, type, .method [] constructor⟩
  symbols : ∀ j sym, sym ∈ (t'.scope j).symbols → sym ∈ (t.scope j).symbols ∨
    sym = ⟨name, type, .classRole parts⟩ ∨
    j = parts.methods ∧ sym = ⟨init, type, .method [] constructor⟩

theorem ClassKept.declare {v : ScopeTable} {j : ScopeId} {sym : Symbol}
    (h : ClassKept name type parts t v) (hclass : sym.class? = none) (hfun : sym.isFunction = false)
    (hslot : sym.slot? = none) : ClassKept name type parts t (v.declare j sym) where
  sound := h.sound.declare (fun p hp => by rw [hclass] at hp; cases hp)
    (fun hf => by rw [hfun] at hf; cases hf)
  grows := h.grows.trans grows_declare
  size := (declare_size v j sym).trans h.size
  active := h.active
  members := h.members.declare
  methods := (grows_declare.symbols _ h.methods).1
  found := grows_declare.lookupClass h.sound h.found
  slots := (declare_shape _).2.2.trans h.slots
  keys := h.keys
  numbered hn := (h.numbered hn).declare hslot

theorem Sound.withClass (h : t.Sound) (hid : t.Persistent id) (type : TypeId) (position : Nat) :
    ({ t with classes := (type, id, position) :: t.classes } : ScopeTable).Sound where
  toLaid := ⟨h.top, h.paths, h.active⟩
  rooted := h.rooted
  classes other j p hl := by
    rw [List.lookup_cons] at hl
    split at hl
    · obtain ⟨rfl, -⟩ := Prod.mk.inj (Option.some.inj hl)
      exact hid
    · exact h.classes other j p hl
  parts := h.parts
  functions := h.functions

/-- The scopes of the members and methods of a class have been opened inside `id`. -/
structure PartsOpened (parts : ClassScopes) (t u : ScopeTable) : Prop where
  sound : u.Sound
  grows : Grows t u
  size : u.size = t.size + 2
  active : u.active = t.active
  classes : u.classes = t.classes
  old : ∀ j : ScopeId, j.index < t.size → u.scope j = t.scope j
  new : ∀ j : ScopeId, t.size ≤ j.index → (u.scope j).symbols = #[] ∧ (u.scope j).slots = 0
  members : u.OwnsMembers parts.members
  methods : u.Persistent parts.methods
  members_ge : t.size ≤ parts.members.index
  methods_ge : t.size ≤ parts.methods.index

/-- Opens the scopes of the members and methods of a class inside `id`. -/
def openParts (t : ScopeTable) (id : ScopeId) : ScopeTable :=
  ((t.push id (t.scope id).depth .members).2.push ⟨t.size⟩ (t.scope id).depth .methods).2

theorem Sound.openParts (h : t.Sound) (hid : id.index < t.size)
    (hmembers : parts.members = ⟨t.size⟩)
    (hmethods : parts.methods = ⟨t.size + 1⟩) : PartsOpened parts t (t.openParts id) where
  sound := (h.push hid).push (by rw [push_size]; exact Nat.lt_succ_self _)
  grows := grows_push.trans grows_push
  size := by rw [ScopeTable.openParts, push_size, push_size]
  active := rfl
  classes := rfl
  old j hj := by
    rw [ScopeTable.openParts, push_scope_old (by rw [push_size]; omega), push_scope_old hj]
  new j hj := by
    rw [ScopeTable.openParts, push_scope]
    split
    · exact ⟨rfl, rfl⟩
    · rw [push_scope]
      split
      · exact ⟨rfl, rfl⟩
      · rw [scope_eq_default hj]
        exact ⟨rfl, rfl⟩
  members := by
    rw [ScopeTable.openParts, hmembers]
    refine ⟨by rw [push_size, push_size]; exact Nat.lt_add_of_pos_right Nat.two_pos, ?_⟩
    rw [push_scope_old (by simp), push_scope_new]
  methods := by
    rw [ScopeTable.openParts, hmethods]
    refine ⟨by rw [push_size, push_size]; exact Nat.lt_succ_self _, .inr ?_⟩
    rw [push_scope, if_pos (by simp)]
    rfl
  members_ge := Nat.le_of_eq (by rw [hmembers])
  methods_ge := by rw [hmethods]; exact Nat.le_succ _

/-- Enters the symbol of a class, which can be found by its type from then on. -/
def enterClass (u : ScopeTable) (id : ScopeId) (name : String) (type : TypeId)
    (parts : ClassScopes) : ScopeTable :=
  { u.declare id ⟨name, type, .classRole parts⟩ with
    classes := (type, id, (u.scope id).symbols.size) :: u.classes }

namespace PartsOpened

variable {u : ScopeTable} (hopen : PartsOpened parts t u)

include hopen

theorem numbered (hn : t.Numbered) : u.Numbered := by
  intro j hj
  by_cases hlt : j.index < t.size
  · rw [hopen.old j hlt] at hj ⊢
    exact hn j hj
  · obtain ⟨hsymbols, hslots⟩ := hopen.new j (Nat.le_of_not_lt hlt)
    rw [hsymbols, hslots]
    exact ⟨Nat.zero_le _, rfl⟩

theorem enterClass (h : t.Sound) (hid : t.Persistent id) (hfresh : t.classes.lookup type = none) :
    ClassKept name type parts t (u.enterClass id name type parts) := by
  have hidu : u.Persistent id := (hopen.grows.symbols id hid).1
  have hdeclare : (u.declare id ⟨name, type, .classRole parts⟩).Sound :=
    hopen.sound.declare (fun p hp => by cases hp; exact ⟨hopen.members, hopen.methods⟩)
      (by simp [Symbol.isFunction])
  refine {
    sound := hdeclare.withClass (grows_declare.symbols id hidu).1 _ _
    grows := hopen.grows.trans ⟨grows_declare.symbols, fun key place hl => ?grows⟩
    size := (declare_size u id _).trans hopen.size
    active := hopen.active
    members := OwnsMembers.declare hopen.members
    methods := (grows_declare.symbols _ hopen.methods).1
    found := ?found
    slots := (declare_shape _).2.2.trans (by rw [hopen.old _ h.top.1])
    keys := fun key place hl => ?keys
    numbered := fun hn => Numbered.declare (hopen.numbered hn) rfl }
  case grows =>
    have hkey : key ≠ type := by
      rintro rfl
      rw [hopen.classes, hfresh] at hl
      cases hl
    exact (List.lookup_cons ..).trans (by rw [beq_eq_false_iff_ne.mpr hkey]; exact hl)
  case found =>
    have hplace : (u.enterClass id name type parts).classes.lookup type =
        some (id, (u.scope id).symbols.size) := List.lookup_cons_self ..
    have hscope : (u.enterClass id name type parts).scope id = _ := declare_scope u id _ _
    rw [if_pos ⟨rfl, hidu.1⟩] at hscope
    simp [lookupClass, hplace, hscope, Symbol.class?]
  case keys =>
    replace hl : List.lookup key ((type, id, (u.scope id).symbols.size) :: u.classes) =
      some place := hl
    rw [List.lookup_cons] at hl
    split at hl
    next hkey => exact .inl (eq_of_beq hkey)
    · rw [hopen.classes] at hl
      exact .inr hl

theorem enterClass_mem {j : ScopeId} {sym : Symbol}
    (hmem : sym ∈ ((u.enterClass id name type parts).scope j).symbols) :
    sym ∈ (t.scope j).symbols ∨ sym = ⟨name, type, .classRole parts⟩ := by
  rcases declare_mem hmem with hmem | ⟨-, rfl⟩
  · by_cases hj : j.index < t.size
    · rw [hopen.old j hj] at hmem
      exact .inl hmem
    · rw [(hopen.new j (Nat.le_of_not_lt hj)).1] at hmem
      cases Array.not_mem_empty _ hmem
  · exact .inr rfl

/-- The class has no method yet. -/
theorem enterClass_methods (hid : id.index < t.size) :
    ((u.enterClass id name type parts).scope parts.methods).symbols = #[] := by
  have hne : parts.methods ≠ id := by
    rintro rfl
    exact Nat.not_lt_of_le hopen.methods_ge hid
  have hscope : (u.enterClass id name type parts).scope parts.methods = _ := declare_scope u id _ _
  rw [if_neg (fun h => hne h.1)] at hscope
  rw [hscope, (hopen.new _ hopen.methods_ge).1]

end PartsOpened

/-- A class that is declared gets the next two scopes. -/
theorem insertClass_eq {t1 : ScopeTable} {qualified : String} {types : TypeScopeId}
    {constant : UInt16}
    (hin : t.insertClass id name qualified type types constant = (.ok parts, t1)) :
    parts = ⟨qualified, ⟨t.size⟩, ⟨t.size + 1⟩, types, constant⟩ ∧
      t1 = (t.openParts id).enterClass id name type parts := by
  unfold insertClass at hin
  split at hin
  · cases hin
  · obtain ⟨hparts, rfl⟩ := Prod.mk.inj hin
    obtain rfl := Except.ok.inj hparts
    refine ⟨?_, rfl⟩
    rw [← push_size t id (t.scope id).depth .members]
    rfl

theorem insertClass_ok {t1 : ScopeTable} {qualified init : String} {types : TypeScopeId}
    {constant constructor : UInt16} {u : Unit} (h : t.Sound) (hid : t.Persistent id)
    (hfresh : t.classes.lookup type = none)
    (hin : t.insertClass id name qualified type types constant = (.ok parts, t1))
    (hinit : t1.insertMethod parts.methods init type [] constructor = (.ok u, t')) :
    parts.qualified = qualified ∧ parts.types = types ∧ parts.constant = constant ∧
      ClassDeclared name type parts init constructor t t' := by
  obtain ⟨hparts, rfl⟩ := insertClass_eq hin
  obtain ⟨rfl, -⟩ := insertCallable_ok hinit
  have hopen : PartsOpened parts t (t.openParts id) :=
    h.openParts hid.1 (by rw [hparts]) (by rw [hparts])
  have hkept : ClassKept name type parts t _ := hopen.enterClass h hid hfresh
  refine ⟨by rw [hparts], by rw [hparts], by rw [hparts], hkept.declare rfl rfl rfl, ?_, ?_⟩
  · rw [lookupHere, declare_scope, if_pos ⟨rfl, hkept.methods.1⟩, hopen.enterClass_methods hid.1]
    simp
  · intro j sym hmem
    rcases declare_mem hmem with hmem | ⟨rfl, rfl⟩
    · exact (hopen.enterClass_mem hmem).imp_right .inl
    · exact .inr (.inr ⟨rfl, rfl⟩)

end ScopeTable

end Bytescript
