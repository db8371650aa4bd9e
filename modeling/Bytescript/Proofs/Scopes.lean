import Bytescript.Scopes

/-!
# What statements do to scopes

Compiling looks names up in a table of scopes and changes it on the way. Two views of the table are
enough to reason about this. Inside a routine, `ScopeTable.locals` gives the variables that can be
named; declaring one sets it there (`locals_insertVariable`), and what is declared in a block is
gone behind it. Across routines, the classes and functions that are declared stay
(`ScopeTable.Grows`).

A statement only adds variables to the scope it stands in and takes slots of the root of that scope
(`ScopeTable.Framed`).
-/

namespace Bytescript

/-- The variables of a routine that can be named at some place of it. -/
def Locals : Type := String → Option (UInt16 × TypeId)

def Locals.set (Γ : Locals) (name : String) (slot : UInt16) (type : TypeId) : Locals :=
  fun n => if n = name then some (slot, type) else Γ n

namespace ScopeTable

def locals (t : ScopeTable) (id : ScopeId) : Locals :=
  fun name => (t.lookupVariable id name).map fun sym => (sym.slot?.getD 0, sym.type)

/-- Scopes that are never removed. -/
def Persistent (t : ScopeTable) (id : ScopeId) : Prop :=
  id.index < t.size ∧ (id = .top ∨ (t.scope id).kind.isTransient = false)

/-- The scopes of the members of classes. -/
def OwnsMembers (t : ScopeTable) (id : ScopeId) : Prop :=
  id.index < t.size ∧ (t.scope id).kind = .members

variable {t t' t2 : ScopeTable} {id j r c : ScopeId} {sym : Symbol} {name : String} {type : TypeId}
  {slot : UInt16} {depth : Nat} {path : List ScopeId}

theorem OwnsMembers.persistent (h : t.OwnsMembers id) : t.Persistent id :=
  ⟨h.1, .inr (by rw [h.2]; rfl)⟩

/-- Scopes are inside older ones, and only blocks and bodies are open. -/
structure Laid (t : ScopeTable) : Prop where
  top : ScopeId.top.index < t.size ∧ (t.scope .top).kind = .root
  paths : ∀ j, j.index < t.size →
    ∃ outer, t.path j = j :: outer ∧ ∀ r ∈ outer, r.index < j.index
  active : ∀ j ∈ t.active, j.index < t.size ∧ j ≠ .top ∧ (t.scope j).kind.isTransient = true

/-- All scopes are inside the outermost one, classes and their symbols are in scopes that stay, and
functions are declared at the top level. -/
structure Sound (t : ScopeTable) : Prop extends Laid t where
  rooted : ∀ j, j.index < t.size → ∃ inner, t.path j = inner ++ [.top] ∧ .top ∉ inner
  classes : ∀ type id position, t.classes.lookup type = some (id, position) → t.Persistent id
  parts : ∀ j sym parts, sym ∈ (t.scope j).symbols → sym.class? = some parts →
    t.OwnsMembers parts.members ∧ t.Persistent parts.methods
  functions : ∀ j sym, sym ∈ (t.scope j).symbols → sym.isFunction = true → j = .top

theorem Sound.persistent_top (h : t.Sound) : t.Persistent .top :=
  ⟨h.top.1, .inl rfl⟩

theorem ScopeId.eq_of_index {a b : ScopeId} (h : a.index = b.index) : a = b := by
  cases a; cases b; simp_all

theorem scope_eq_default (hj : t.size ≤ j.index) : t.scope j = default := by
  rw [scope, Array.getD_eq_getD_getElem?, Array.getElem?_eq_none hj, Option.getD_none]

/-- What holds of one scope and of all others. -/
theorem forall_scope (n : Nat) {P : ScopeId → Prop} (hn : P ⟨n⟩) (hother : ∀ j, j.index ≠ n → P j)
    (j : ScopeId) : P j := by
  by_cases hj : j.index = n
  · rwa [ScopeId.eq_of_index (show j.index = (⟨n⟩ : ScopeId).index from hj)]
  · exact hother j hj

/-- A new table has the top level and no other scope. -/
theorem empty_scope (j : ScopeId) : j = .top ∨ ¬ j.index < 1 ∧
    ({} : ScopeTable).scope j = default := by
  by_cases hj : j.index < 1
  · exact .inl (ScopeId.eq_of_index (Nat.lt_one_iff.mp hj))
  · exact .inr ⟨hj, scope_eq_default (Nat.le_of_not_lt hj)⟩

theorem laid_empty : ({} : ScopeTable).Laid := by
  refine ⟨⟨Nat.one_pos, rfl⟩, fun j hj => ?_, nofun⟩
  rcases empty_scope j with rfl | ⟨hne, -⟩
  · exact ⟨[], rfl, nofun⟩
  · exact absurd hj hne

theorem Laid.path_lt (h : t.Laid) (hr : r ∈ t.path j) : r.index < t.size := by
  by_cases hj : j.index < t.size
  · obtain ⟨outer, hpath, houter⟩ := h.paths j hj
    rw [hpath] at hr
    rcases hr with _ | ⟨_, hr⟩
    · exact hj
    · have := houter r hr
      omega
  · rw [path, scope_eq_default (Nat.le_of_not_lt hj)] at hr
    cases hr

theorem Laid.slotRoot_lt (h : t.Laid) (j : ScopeId) : (t.slotRoot j).index < t.size := by
  unfold slotRoot
  cases hf : (t.path j).find? fun s => (t.scope s).kind.ownsSlots with
  | none => exact h.top.1
  | some r => exact h.path_lt (List.mem_of_find?_eq_some hf)

/-- The scopes of members are their own roots. -/
theorem Laid.slotRoot_members (h : t.Laid) (hj : t.OwnsMembers j) : t.slotRoot j = j := by
  obtain ⟨outer, houter, -⟩ := h.paths j hj.1
  rw [slotRoot, houter, List.find?_cons_of_pos (by rw [hj.2]; rfl), Option.getD_some]

theorem Laid.not_active (h : t.Laid) (hj : t.Persistent j) : j ∉ t.active := by
  intro hmem
  obtain ⟨-, hne, hkind⟩ := h.active j hmem
  rcases hj.2 with rfl | hk
  · exact hne rfl
  · rw [hk] at hkind
    cases hkind

/-! ## Looking names up in changed tables -/

theorem lookupVariableOn_congr
    (h : ∀ j ∈ path, (t'.scope j).kind = (t.scope j).kind ∧
      (t'.scope j).symbols = (t.scope j).symbols)
    (name : String) : t'.lookupVariableOn name path = t.lookupVariableOn name path := by
  induction path with
  | nil => rfl
  | cons j rest ih =>
    obtain ⟨hkind, hsymbols⟩ := h j (.head _)
    simp only [lookupVariableOn, hkind, hsymbols,
      ih fun r hr => h r (List.mem_cons_of_mem j hr)]

theorem find?_ownsSlots_congr (h : ∀ j ∈ path, (t'.scope j).kind = (t.scope j).kind) :
    path.find? (fun s => (t'.scope s).kind.ownsSlots) =
      path.find? fun s => (t.scope s).kind.ownsSlots := by
  induction path with
  | nil => rfl
  | cons j rest ih =>
    rw [List.find?_cons, List.find?_cons, h j List.mem_cons_self,
      ih fun r hr => h r (List.mem_cons_of_mem j hr)]

theorem slotRoot_congr (hpath : t'.path c = t.path c)
    (hkind : ∀ j ∈ t.path c, (t'.scope j).kind = (t.scope j).kind) :
    t'.slotRoot c = t.slotRoot c := by
  rw [slotRoot, slotRoot, hpath, find?_ownsSlots_congr hkind]

theorem lookupVariable_congr (hpath : t'.path c = t.path c) (h : ∀ j ∈ t.path c,
      (t'.scope j).kind = (t.scope j).kind ∧ (t'.scope j).symbols = (t.scope j).symbols)
    (name : String) : t'.lookupVariable c name = t.lookupVariable c name := by
  rw [lookupVariable, hpath, lookupVariableOn_congr h, lookupVariable]

theorem locals_congr (hpath : t'.path c = t.path c) (h : ∀ j ∈ t.path c,
    (t'.scope j).kind = (t.scope j).kind ∧ (t'.scope j).symbols = (t.scope j).symbols) :
    t'.locals c = t.locals c := by
  funext name
  rw [locals, lookupVariable_congr hpath h, locals]

/-! ## What stays -/

/-- A table later on: the scopes of classes and of the top level keep their symbols. -/
structure Grows (t t' : ScopeTable) : Prop where
  symbols : ∀ j, t.Persistent j →
    t'.Persistent j ∧ ∃ more, (t'.scope j).symbols.toList = (t.scope j).symbols.toList ++ more
  classes : ∀ type place, t.classes.lookup type = some place → t'.classes.lookup type = some place

theorem Grows.refl (t : ScopeTable) : Grows t t :=
  ⟨fun _ hj => ⟨hj, [], (List.append_nil _).symm⟩, fun _ _ => id⟩

theorem Grows.trans {t'' : ScopeTable} (h : Grows t t') (h' : Grows t' t'') : Grows t t'' := by
  refine ⟨fun j hj => ?_, fun type place hl => h'.classes _ _ (h.classes _ _ hl)⟩
  obtain ⟨hj', more, hmore⟩ := h.symbols j hj
  obtain ⟨hj'', more', hmore'⟩ := h'.symbols j hj'
  exact ⟨hj'', more ++ more', by rw [hmore', hmore, List.append_assoc]⟩

theorem Grows.mem (h : Grows t t') (hj : t.Persistent j) (hsym : sym ∈ (t.scope j).symbols) :
    sym ∈ (t'.scope j).symbols := by
  obtain ⟨-, more, hmore⟩ := h.symbols j hj
  rw [← Array.mem_toList_iff] at hsym ⊢
  rw [hmore]
  exact List.mem_append_left _ hsym

theorem Grows.lookupHere (h : Grows t t') (hj : t.Persistent j)
    (hl : t.lookupHere j name = some sym) : t'.lookupHere j name = some sym := by
  obtain ⟨-, more, hmore⟩ := h.symbols j hj
  simp only [ScopeTable.lookupHere, ← Array.find?_toList] at hl ⊢
  rw [hmore, List.find?_append, hl, Option.some_or]

theorem Grows.lookupClass (h : Grows t t') (ht : t.Sound) (hl : t.lookupClass type = some sym) :
    t'.lookupClass type = some sym := by
  simp only [ScopeTable.lookupClass, Option.bind_eq_bind, Option.bind_eq_some_iff] at hl ⊢
  obtain ⟨⟨id, position⟩, hplace, found, hfound, hl⟩ := hl
  refine ⟨(id, position), h.classes _ _ hplace, found, ?_, hl⟩
  obtain ⟨-, more, hmore⟩ := h.symbols id (ht.classes _ _ _ hplace)
  simp only [← Array.getElem?_toList] at hfound ⊢
  rw [hmore, List.getElem?_append_left (getElem_of_getElem? hfound).1, hfound]

/-! ## What a statement changes -/

/-- Only the scope `c` has got symbols, which are variables, and only its slot root has given out
slots. Scopes that came and went are not open any more. -/
structure Framed (c : ScopeId) (t t' : ScopeTable) : Prop where
  size : t.size ≤ t'.size
  active : t'.active = t.active
  classes : t'.classes = t.classes
  shape : ∀ j, j.index < t.size → (t'.scope j).path = (t.scope j).path ∧
    (t'.scope j).depth = (t.scope j).depth ∧ (t'.scope j).kind = (t.scope j).kind
  symbols : ∀ j, j.index < t.size → j ≠ c → (t'.scope j).symbols = (t.scope j).symbols
  added : ∃ vars, (t'.scope c).symbols.toList = (t.scope c).symbols.toList ++ vars ∧
    ∀ v ∈ vars, v.slot?.isSome = true
  slots : ∀ j, j.index < t.size → j ≠ t.slotRoot c → (t'.scope j).slots = (t.scope j).slots

theorem Framed.refl (c : ScopeId) (t : ScopeTable) : Framed c t t where
  size := Nat.le_refl _
  active := rfl
  classes := rfl
  shape _ _ := ⟨rfl, rfl, rfl⟩
  symbols _ _ _ := rfl
  added := ⟨[], (List.append_nil _).symm, fun _ hv => absurd hv List.not_mem_nil⟩
  slots _ _ _ := rfl

section

variable {c : ScopeId} {t t' : ScopeTable} (h : Framed c t t')

include h

theorem Framed.slotRoot (ht : t.Sound) (hj : j.index < t.size) : t'.slotRoot j = t.slotRoot j :=
  slotRoot_congr (h.shape j hj).1 fun r hr => (h.shape r (ht.path_lt hr)).2.2

theorem Framed.trans {t'' : ScopeTable} (h' : Framed c t' t'') (ht : t.Sound)
    (hc : c.index < t.size) : Framed c t t'' := by
  have hle := h.size
  refine ⟨Nat.le_trans h.size h'.size, h'.active.trans h.active, h'.classes.trans h.classes, ?_, ?_,
    ?_, ?_⟩
  · intro j hj
    obtain ⟨hp, hd, hk⟩ := h.shape j hj
    obtain ⟨hp', hd', hk'⟩ := h'.shape j (by omega)
    exact ⟨hp'.trans hp, hd'.trans hd, hk'.trans hk⟩
  · intro j hj hne
    rw [h'.symbols j (by omega) hne, h.symbols j hj hne]
  · obtain ⟨vars, hvars, hslots⟩ := h.added
    obtain ⟨vars', hvars', hslots'⟩ := h'.added
    refine ⟨vars ++ vars', by rw [hvars', hvars, List.append_assoc], fun v hv => ?_⟩
    rcases List.mem_append.mp hv with hv | hv
    · exact hslots v hv
    · exact hslots' v hv
  · intro j hj hne
    rw [h'.slots j (by omega) (by rwa [h.slotRoot ht hc]), h.slots j hj hne]

theorem Framed.grows : Grows t t' := by
  refine ⟨fun j hj => ?_, fun type place hl => by rw [h.classes, hl]⟩
  have hle := h.size
  have hlt := hj.1
  refine ⟨⟨by omega, by rw [(h.shape j hlt).2.2]; exact hj.2⟩, ?_⟩
  by_cases hjc : j = c
  · subst hjc
    obtain ⟨vars, hvars, -⟩ := h.added
    exact ⟨vars, hvars⟩
  · exact ⟨[], by rw [h.symbols j hlt hjc, List.append_nil]⟩

/-- The variables of a scope further out, and those of a scope that is none of them, stay. -/
theorem Framed.locals_eq (ht : t.Sound) (hj : j.index < t.size) (hne : c ∉ t.path j) :
    t'.locals j = t.locals j :=
  locals_congr (h.shape j hj).1 fun r hr =>
    ⟨(h.shape r (ht.path_lt hr)).2.2, h.symbols r (ht.path_lt hr) fun hrc => hne (hrc ▸ hr)⟩

end

/-! ## Functions and methods -/

/-- The functions and methods that a scope declares, in the order of their declaration. -/
def callables (t : ScopeTable) (id : ScopeId) : List Symbol :=
  (t.scope id).symbols.toList.filter fun sym => sym.callee?.isSome

theorem Framed.callables (h : Framed c t t') (hj : j.index < t.size) :
    t'.callables j = t.callables j := by
  by_cases hjc : j = c
  · subst hjc
    obtain ⟨vars, heq, hvars⟩ := h.added
    have hnone : vars.filter (fun sym => sym.callee?.isSome) = [] := by
      refine List.filter_eq_nil_iff.mpr fun sym hsym => ?_
      have hslot := hvars sym hsym
      obtain ⟨name, type, role⟩ := sym
      cases role <;> simp_all [Symbol.slot?, Symbol.callee?]
    rw [callables, heq, List.filter_append, hnone, List.append_nil, callables]
  · rw [ScopeTable.callables, h.symbols j hj hjc, ScopeTable.callables]

/-- From wherever a function is called, the functions of its name are those of the top level. -/
theorem Sound.lookupFunctions (h : t.Sound) (hid : id.index < t.size) (name : String) :
    t.lookupFunctions id name =
      (t.callables .top).filter fun sym => sym.isFunction && sym.name = name := by
  obtain ⟨inner, hpath, hinner⟩ := h.rooted id hid
  have hnone : inner.flatMap (fun s => (t.scope s).symbols.toList.filter
      fun sym => sym.isFunction && sym.name = name) = [] := by
    refine List.flatMap_eq_nil_iff.mpr fun j hj => List.filter_eq_nil_iff.mpr fun sym hsym hfun =>
      ?_
    rw [Bool.and_eq_true] at hfun
    obtain rfl := h.functions j sym (Array.mem_toList_iff.mp hsym) hfun.1
    exact hinner hj
  rw [ScopeTable.lookupFunctions, hpath, List.flatMap_append, hnone, List.nil_append,
    List.flatMap_singleton, callables, List.filter_filter]
  refine List.filter_congr fun sym _ => ?_
  obtain ⟨name, type, role⟩ := sym
  cases role <;> simp [Symbol.isFunction, Symbol.callee?]

theorem lookupMethods_eq (t : ScopeTable) (id : ScopeId) (name : String) : t.lookupMethods id name =
    (t.callables id).filter fun sym => sym.isMethod && sym.name = name := by
  rw [lookupMethods, callables, List.filter_filter]
  refine List.filter_congr fun sym _ => ?_
  obtain ⟨name, type, role⟩ := sym
  cases role <;> simp [Symbol.isMethod, Symbol.callee?]

/-! ## Declaring a variable -/

theorem scope_modify (t : ScopeTable) (c j : ScopeId) (f : Scope → Scope) :
    ({ t with scopes := t.scopes.modify c.index f } : ScopeTable).scope j =
      if j = c ∧ j.index < t.size then f (t.scope j) else t.scope j := by
  simp only [scope, Array.getD_eq_getD_getElem?, Array.getElem?_modify]
  by_cases hj : j.index < t.size
  · by_cases hc : j = c
    · subst hc
      have hj' : j.index < t.scopes.size := hj
      simp [hj, hj']
    · have : c.index ≠ j.index := fun heq => hc (ScopeId.eq_of_index heq.symm)
      simp [hc, this]
  · have hj' : ¬ j.index < t.scopes.size := hj
    simp [hj, hj']

theorem declare_scope (t : ScopeTable) (c j : ScopeId) (sym : Symbol) :
    (t.declare c sym).scope j =
      if j = c ∧ j.index < t.size then
        { t.scope j with symbols := (t.scope j).symbols.push sym } else t.scope j :=
  scope_modify t c j _

theorem takeSlot_scope (t : ScopeTable) (c j : ScopeId) :
    (t.takeSlot c).scope j =
      if j = c ∧ j.index < t.size then { t.scope j with slots := (t.scope j).slots + 1 }
      else t.scope j :=
  scope_modify t c j _

@[simp]
theorem declare_size (t : ScopeTable) (c : ScopeId) (sym : Symbol) :
    (t.declare c sym).size = t.size := by
  simp [declare, size]

@[simp]
theorem takeSlot_size (t : ScopeTable) (c : ScopeId) : (t.takeSlot c).size = t.size := by
  simp [takeSlot, size]

section

variable (hsize : t'.size = t.size) (hactive : t'.active ⊆ t.active)
  (hshape : ∀ j, (t'.scope j).path = (t.scope j).path ∧ (t'.scope j).kind = (t.scope j).kind)

include hsize hactive hshape

theorem Laid.congr (h : t.Laid) : t'.Laid where
  top := ⟨hsize ▸ h.top.1, (hshape _).2 ▸ h.top.2⟩
  paths j hj := by
    rw [path, (hshape j).1]
    exact h.paths j (hsize ▸ hj)
  active j hj := by
    rw [(hshape j).2, hsize]
    exact h.active j (hactive hj)

/-- A table stays sound when scopes keep their places and what they get is in its place. -/
theorem Sound.congr (h : t.Sound) (hclasses : t'.classes = t.classes)
    (hsymbols : ∀ j sym, sym ∈ (t'.scope j).symbols → sym ∈ (t.scope j).symbols ∨
      (∀ parts, sym.class? = some parts → t.OwnsMembers parts.members ∧
        t.Persistent parts.methods) ∧
        (sym.isFunction = true → j = .top)) : t'.Sound := by
  have hkeep : ∀ j, t.Persistent j → t'.Persistent j := by
    rintro j ⟨hlt, hkind⟩
    exact ⟨hsize ▸ hlt, by rwa [(hshape j).2]⟩
  refine ⟨h.toLaid.congr hsize hactive hshape, fun j hj => ?_,
    fun type id position hl => hkeep id (h.classes type id position (hclasses ▸ hl)),
    fun j sym parts hsym hparts => ?_, fun j sym hsym hfun => ?_⟩
  · rw [path, (hshape j).1]
    exact h.rooted j (hsize ▸ hj)
  · have hplaces := (hsymbols j sym hsym).elim (h.parts j sym parts · hparts) (·.1 parts hparts)
    exact ⟨⟨hsize ▸ hplaces.1.1, by rw [(hshape _).2]; exact hplaces.1.2⟩, hkeep _ hplaces.2⟩
  · exact (hsymbols j sym hsym).elim (h.functions j sym · hfun) (·.2 hfun)

end

/-- A variable has been declared in the next slot. -/
structure Declared (c : ScopeId) (name : String) (type : TypeId) (slot : UInt16)
    (t t' : ScopeTable) : Prop where
  fresh : t.locals c name = none
  freshHere : t.lookupHere c name = none
  limit : t.slotCount c < 65536
  slot_eq : slot = (t.slotCount c).toUInt16
  sound : t'.Sound
  framed : Framed c t t'
  locals : t'.locals c = (t.locals c).set name slot type
  slotCount : t'.slotCount c = t.slotCount c + 1
  size : t'.size = t.size
  symbols : (t'.scope c).symbols = (t.scope c).symbols.push ⟨name, type, .variable slot⟩

theorem Declared.lookupHere (h : Declared c name type slot t t') :
    t'.lookupHere c name = some ⟨name, type, .variable slot⟩ := by
  have hfresh := h.freshHere
  rw [ScopeTable.lookupHere] at hfresh
  rw [ScopeTable.lookupHere, h.symbols, Array.find?_push, hfresh]
  simp

theorem insertVariable_ok (h : t.Sound) (hc : c.index < t.size)
    (hin : t.insertVariable c name type = (.ok slot, t')) : Declared c name type slot t t' := by
  unfold insertVariable at hin
  split at hin
  · cases hin
  next hfresh =>
  simp only at hin
  split at hin
  next hlimit =>
    obtain ⟨hslot, ht'⟩ := Prod.mk.inj hin
    have hslot := Except.ok.inj hslot
    simp only [Bool.or_eq_true, not_or, Bool.not_eq_true, Option.isSome_eq_false_iff,
      Option.isNone_iff_eq_none] at hfresh
    have hroot : (t.slotRoot c).index < t.size := h.slotRoot_lt c
    have hscope : ∀ j, t'.scope j =
        { t.scope j with
          slots := if j = t.slotRoot c then (t.scope j).slots + 1 else (t.scope j).slots
          symbols := if j = c then (t.scope j).symbols.push ⟨name, type, .variable slot⟩
            else (t.scope j).symbols } := by
      intro j
      rw [← ht', declare_scope, takeSlot_scope, takeSlot_size, hslot]
      by_cases hjc : j = c
      · have hj : j.index < t.size := hjc ▸ hc
        by_cases hjr : j = t.slotRoot c
        · rw [if_pos ⟨hjc, hj⟩, if_pos ⟨hjr, hj⟩, if_pos hjr, if_pos hjc]
        · rw [if_pos ⟨hjc, hj⟩, if_neg (fun h => hjr h.1), if_neg hjr, if_pos hjc]
      · rw [if_neg (fun h => hjc h.1), if_neg hjc]
        by_cases hjr : j = t.slotRoot c
        · rw [if_pos ⟨hjr, hjr ▸ hroot⟩, if_pos hjr]
        · rw [if_neg (fun h => hjr h.1), if_neg hjr]
    have hsize : t'.size = t.size := by rw [← ht', declare_size, takeSlot_size]
    have hactive : t'.active = t.active := by rw [← ht']; rfl
    have hclasses : t'.classes = t.classes := by rw [← ht']; rfl
    have hpath : t'.path c = t.path c := by simp only [path, hscope]
    have hslotRoot : t'.slotRoot c = t.slotRoot c :=
      slotRoot_congr hpath fun r _ => by rw [hscope]
    have hframed : Framed c t t' := by
      refine ⟨by omega, hactive, hclasses, fun j _ => by rw [hscope]; exact ⟨rfl, rfl, rfl⟩, ?_, ?_,
        ?_⟩
      · intro j _ hjc
        rw [hscope, if_neg hjc]
      · refine ⟨[⟨name, type, .variable slot⟩], ?_, ?_⟩
        · rw [hscope, if_pos rfl, Array.toList_push]
        · intro v hv
          rw [List.mem_singleton.mp hv]
          rfl
      · intro j _ hjr
        rw [hscope, if_neg hjr]
    refine ⟨by rw [locals, hfresh.1, Option.map_none], hfresh.2, hlimit, hslot.symm, ?_,
      hframed, ?_, ?_, hsize, by rw [hscope, if_pos rfl]⟩
    · refine h.congr hsize (fun j hj => hactive ▸ hj) (fun j => by rw [hscope]; exact ⟨rfl, rfl⟩)
        hclasses fun j sym hsym => ?_
      rw [hscope] at hsym
      dsimp only at hsym
      split at hsym
      · rcases Array.mem_push.mp hsym with hsym | rfl
        · exact .inl hsym
        · exact .inr ⟨nofun, nofun⟩
      · exact .inl hsym
    · funext n
      -- the scopes further out are as before, and the new symbol comes behind the old ones
      obtain ⟨outer, houter, hlt⟩ := h.paths c hc
      have hrest : t'.lookupVariableOn n outer = t.lookupVariableOn n outer := by
        apply lookupVariableOn_congr
        intro r hr
        have hrc : r ≠ c := fun heq => by have := hlt r hr; rw [heq] at this; omega
        rw [hscope, if_neg hrc]
        exact ⟨rfl, rfl⟩
      have hnone := hfresh.1
      simp only [locals, lookupVariable, Locals.set, hpath, houter,
        lookupVariableOn, hscope, ↓reduceIte, Array.find?_push, hrest] at hnone ⊢
      cases hfind : (t.scope c).symbols.find? (isVariable n) with
      | some v =>
        have hn : n ≠ name := by
          rintro rfl
          rw [hfind] at hnone
          cases hnone
        simp [hn]
      | none =>
        by_cases hn : n = name
        · subst hn
          simp [isVariable, Symbol.slot?]
        · have : isVariable n ⟨name, type, .variable slot⟩ = false := by
            simp [isVariable, Symbol.slot?, Ne.symm hn]
          simp [hn, this]
    · simp only [slotCount, hslotRoot, hscope, if_pos]
  next => cases (Prod.mk.inj hin).1

/-! ## Opening and removing scopes -/

section

variable (t : ScopeTable) (parent : ScopeId) (depth : Nat) (kind : ScopeKind)

theorem push_scope (j : ScopeId) :
    (t.push parent depth kind).2.scope j =
      if j.index = t.size then { path := j :: t.path parent, depth, kind } else t.scope j := by
  simp only [push, scope, size, Array.getD_eq_getD_getElem?,
    Array.getElem?_push]
  by_cases hj : j.index = t.scopes.size
  · cases j
    simp_all
  · rw [if_neg hj, if_neg hj]

@[simp]
theorem push_size : (t.push parent depth kind).2.size = t.size + 1 := by
  simp [push, size]

theorem push_active : (t.push parent depth kind).2.active =
    if kind.isTransient then ⟨t.size⟩ :: t.active else t.active := rfl

variable {t parent depth kind}

theorem mem_active_push (hj : j.index ≠ t.size) : j ∈ (t.push parent depth kind).2.active ↔
    j ∈ t.active := by
  rw [push_active]
  split
  · have hne : j ≠ ⟨t.size⟩ := fun heq => hj (congrArg ScopeId.index heq)
    simp [hne]
  · exact Iff.rfl

theorem push_scope_old (hj : j.index < t.size) :
    (t.push parent depth kind).2.scope j = t.scope j := by
  rw [push_scope, if_neg (by omega)]

theorem push_scope_new :
    (t.push parent depth kind).2.scope ⟨t.size⟩ =
      { path := ⟨t.size⟩ :: t.path parent, depth, kind } := by
  rw [push_scope, if_pos rfl]

theorem Laid.push (h : t.Laid) : (t.push parent depth kind).2.Laid := by
  have htop := h.top.1
  refine ⟨⟨by rw [push_size]; omega, by rw [push_scope_old htop]; exact h.top.2⟩,
    forall_scope t.size (fun _ => ?_) fun j hj hlt => ?_, forall_scope t.size (fun hmem => ?_)
      fun j hj hmem => ?_⟩
  · exact ⟨t.path parent, by rw [path, push_scope_new], fun r hr => h.path_lt hr⟩
  · rw [push_size] at hlt
    rw [path, push_scope, if_neg hj]
    exact h.paths j (by omega)
  · rw [push_scope_new, push_size]
    refine ⟨Nat.lt_succ_self _, fun heq => ?_, ?_⟩
    · rw [← heq] at htop
      exact Nat.lt_irrefl _ htop
    · rw [push_active] at hmem
      split at hmem
      · assumption
      · exact absurd (h.active _ hmem).1 (Nat.lt_irrefl _)
  · obtain ⟨hlt, hne, hkind⟩ := h.active j ((mem_active_push hj).mp hmem)
    rw [push_scope_old hlt, push_size]
    exact ⟨Nat.lt_succ_of_lt hlt, hne, hkind⟩

theorem Sound.push (h : t.Sound) (hparent : parent.index < t.size) :
    (t.push parent depth kind).2.Sound := by
  have htop := h.top.1
  have hkeep : ∀ j, t.Persistent j → (t.push parent depth kind).2.Persistent j := by
    rintro j ⟨hlt, hk⟩
    exact ⟨by rw [push_size]; omega, by rwa [push_scope_old hlt]⟩
  have hsymbols : ∀ j sym, sym ∈ ((t.push parent depth kind).2.scope j).symbols →
      sym ∈ (t.scope j).symbols := by
    intro j sym hsym
    rw [push_scope] at hsym
    split at hsym
    · cases Array.not_mem_empty _ hsym
    · exact hsym
  refine ⟨h.toLaid.push, ?_, fun type id position hl => hkeep id (h.classes type id position hl),
    ?_, fun j sym hsym => h.functions j sym (hsymbols j sym hsym)⟩
  · intro j hj
    rw [push_size] at hj
    by_cases hnew : j.index = t.size
    · obtain ⟨inner, hpath, hinner⟩ := h.rooted parent hparent
      refine ⟨j :: inner, by rw [path, push_scope, if_pos hnew, hpath, List.cons_append], ?_⟩
      simp only [List.mem_cons, not_or]
      exact ⟨fun heq => by rw [← heq] at hnew; omega, hinner⟩
    · rw [path, push_scope_old (by omega)]
      exact h.rooted j (by omega)
  · intro j sym parts hsym hparts
    obtain ⟨hmembers, hmethods⟩ := h.parts j sym parts (hsymbols j sym hsym) hparts
    refine ⟨⟨by rw [push_size]; exact Nat.lt_succ_of_lt hmembers.1, ?_⟩, hkeep _ hmethods⟩
    rw [push_scope_old hmembers.1]
    exact hmembers.2

theorem grows_push : Grows t (t.push parent depth kind).2 := by
  refine ⟨fun j hj => ?_, fun _ _ => id⟩
  have hlt := hj.1
  rw [push_scope_old hlt]
  exact ⟨⟨by rw [push_size]; omega, by rw [push_scope_old hlt]; exact hj.2⟩, [],
    (List.append_nil _).symm⟩

/-- In a new block the same variables can be named as around it. -/
theorem locals_pushBlock (h : t.Sound) :
    (t.push parent depth .block).2.locals ⟨t.size⟩ = t.locals parent := by
  funext name
  simp only [locals, lookupVariable, path, push_scope_new,
    lookupVariableOn, ScopeKind.ownsSlots, Bool.false_eq_true, ↓reduceIte]
  rw [lookupVariableOn_congr]
  · rfl
  · intro r hr
    rw [push_scope_old (h.path_lt hr)]
    exact ⟨rfl, rfl⟩

theorem slotRoot_pushBlock (h : t.Sound) :
    (t.push parent depth .block).2.slotRoot ⟨t.size⟩ = t.slotRoot parent := by
  have hpath : (t.push parent depth .block).2.path ⟨t.size⟩ = ⟨t.size⟩ :: t.path parent := by
    rw [path, push_scope_new]
  rw [slotRoot, slotRoot, hpath,
    List.find?_cons_of_neg (by rw [push_scope_new]; exact Bool.false_ne_true)]
  exact congrArg (Option.getD · ScopeId.top)
    (find?_ownsSlots_congr fun r hr => by rw [push_scope_old (h.path_lt hr)])

/-- A new body has no variables yet. -/
theorem locals_pushRoot : (t.push parent depth .root).2.locals ⟨t.size⟩ = fun _ => none := by
  funext name
  simp only [locals, lookupVariable, path, push_scope_new,
    lookupVariableOn, ScopeKind.ownsSlots, ↓reduceIte]
  rfl

theorem slotRoot_pushRoot : (t.push parent depth .root).2.slotRoot ⟨t.size⟩ = ⟨t.size⟩ := by
  simp only [slotRoot, path, push_scope_new, List.find?_cons,
    ScopeKind.ownsSlots, Option.getD_some]

end

/-- The scope `b` has been opened inside `c`, something was compiled in it, and it is removed again.
-/
structure Enclosed (c b : ScopeId) (t t1 t2 t3 : ScopeTable) : Prop where
  sound : t3.Sound
  size : t.size ≤ t3.size
  active : t3.active = t.active
  classes : t3.classes = t.classes
  shape : ∀ j, j.index < t.size → (t3.scope j).path = (t.scope j).path ∧
    (t3.scope j).depth = (t.scope j).depth ∧ (t3.scope j).kind = (t.scope j).kind ∧
    (t3.scope j).symbols = (t.scope j).symbols
  slots : ∀ j, (t3.scope j).slots = (t2.scope j).slots
  keepSlots : ∀ j, j.index < t.size → j ≠ t1.slotRoot b → (t3.scope j).slots = (t.scope j).slots

theorem close_scope (t : ScopeTable) (b j : ScopeId) :
    ({ t with scopes := t.scopes.modify b.index Scope.close } : ScopeTable).scope j =
      if j = b ∧ j.index < t.size then Scope.close (t.scope j) else t.scope j :=
  scope_modify t b j _

/-- A removal closes scopes and leaves the others alone. -/
theorem remove_closes (t : ScopeTable) (depth : Nat) : (t.remove depth).size = t.size ∧ ∀ j,
    (t.remove depth).scope j = t.scope j ∨ j ∈ t.active ∧
    (t.remove depth).scope j = Scope.close (t.scope j) := by
  have hfold : ∀ (list : List ScopeId) (u v : ScopeTable),
      v.scopes = list.foldl (fun scopes id => scopes.modify id.index Scope.close) u.scopes →
      v.size = u.size ∧
        ∀ j, v.scope j = u.scope j ∨ j ∈ list ∧ v.scope j = Scope.close (u.scope j) := by
    intro list
    induction list with
    | nil => exact fun u v hv => ⟨congrArg Array.size hv, fun j => .inl (by rw [scope, hv]; rfl)⟩
    | cons c rest ih =>
      intro u v hv
      obtain ⟨hsize, hscope⟩ := ih { u with scopes := u.scopes.modify c.index Scope.close } v hv
      refine ⟨hsize.trans (Array.size_modify ..), fun j => ?_⟩
      have hj := hscope j
      rw [close_scope] at hj
      split at hj
      next heq => exact .inr ⟨heq.1 ▸ (.head _), hj.elim id (·.2)⟩
      · exact hj.imp_right fun hclosed => ⟨List.mem_cons_of_mem c hclosed.1, hclosed.2⟩
  obtain ⟨hsize, hscope⟩ := hfold (t.leaving depth) t (t.remove depth) rfl
  exact ⟨hsize, fun j => (hscope j).imp_right fun hj => ⟨List.takeWhile_subset _ hj.1, hj.2⟩⟩

theorem remove_scope (hj : j ∉ t.active) (depth : Nat) : (t.remove depth).scope j = t.scope j :=
  ((remove_closes t depth).2 j).resolve_right fun h => hj h.1

theorem remove_size (t : ScopeTable) (depth : Nat) : (t.remove depth).size = t.size :=
  (remove_closes t depth).1

theorem remove_shape (t : ScopeTable) (depth : Nat) (j : ScopeId) :
    ((t.remove depth).scope j).path = (t.scope j).path ∧
    ((t.remove depth).scope j).depth = (t.scope j).depth ∧
      ((t.remove depth).scope j).kind = (t.scope j).kind ∧
      ((t.remove depth).scope j).slots = (t.scope j).slots ∧
      ((t.remove depth).scope j).symbols ∈ [(t.scope j).symbols, #[]] := by
  rcases (remove_closes t depth).2 j with heq | ⟨-, heq⟩ <;> simp [heq, Scope.close]

/-- Of the open scopes only the innermost one is deep enough to go. -/
theorem remove_head {rest : List ScopeId} (hactive : t.active = c :: rest)
    (hc : depth ≤ (t.scope c).depth) (hrest : ∀ j ∈ rest, (t.scope j).depth < depth) :
    t.remove depth = { t with scopes := t.scopes.modify c.index Scope.close, active := rest } := by
  have hstay : (rest.takeWhile fun id => depth ≤ (t.scope id).depth) = [] ∧
      (rest.dropWhile fun id => depth ≤ (t.scope id).depth) = rest := by
    cases rest with
    | nil => exact ⟨rfl, rfl⟩
    | cons j rest =>
      have := Nat.not_le.mpr (hrest j (.head _))
      simp [this]
  simp only [remove, leaving, staying, hactive, List.takeWhile_cons,
    List.dropWhile_cons, hc, decide_true, ↓reduceIte, hstay.1, hstay.2, List.foldl_cons,
      List.foldl_nil]

theorem Laid.remove (h : t.Laid) (depth : Nat) : (t.remove depth).Laid :=
  h.congr (remove_size t depth) (List.dropWhile_suffix _).subset fun j =>
    have hshape := remove_shape t depth j
    ⟨hshape.1, hshape.2.2.1⟩

theorem Sound.remove (h : t.Sound) (depth : Nat) : (t.remove depth).Sound := by
  have hshape := remove_shape t depth
  refine h.congr (remove_size t depth) (List.dropWhile_suffix _).subset
    (fun j => ⟨(hshape j).1, (hshape j).2.2.1⟩) rfl fun j sym hsym => .inl ?_
  have hmem := (hshape j).2.2.2.2
  simp only [List.mem_cons, List.not_mem_nil, or_false] at hmem
  rcases hmem with heq | heq
  · rwa [heq] at hsym
  · rw [heq] at hsym
    cases Array.not_mem_empty _ hsym

theorem remove_ok {kind : ScopeKind} (h : t.Sound) (hkind : kind.isTransient = true)
    (hdepth : ∀ j ∈ t.active, (t.scope j).depth < depth) (h2 : t2.Sound)
    (hframed : Framed ⟨t.size⟩ (t.push c depth kind).2 t2) :
    Enclosed c ⟨t.size⟩ t (t.push c depth kind).2 t2 (t2.remove depth) := by
  have hnew : (⟨t.size⟩ : ScopeId).index < (t.push c depth kind).2.size := by simp
  have hlt2 : t.size < t2.size := by
    have := hframed.size
    rw [push_size] at this
    omega
  have hactive : t2.active = ⟨t.size⟩ :: t.active := by
    rw [hframed.active, push_active, if_pos hkind]
  have hbdepth : (t2.scope ⟨t.size⟩).depth = depth := by
    rw [(hframed.shape _ hnew).2.1, push_scope_new]
  have hold : ∀ j, j.index < t.size → (t2.scope j).depth = (t.scope j).depth := by
    intro j hj
    rw [(hframed.shape j (by rw [push_size]; omega)).2.1, push_scope_old hj]
  -- all other open scopes are further out, so only the new one goes
  have hremove : t2.remove depth =
      { t2 with scopes := t2.scopes.modify t.size Scope.close, active := t.active } := by
    refine remove_head hactive (Nat.le_of_eq hbdepth.symm) fun j hj => ?_
    rw [hold j (h.active j hj).1]
    exact hdepth j hj
  have hscope : ∀ j, (t2.remove depth).scope j =
      if j = ⟨t.size⟩ ∧ j.index < t2.size then Scope.close (t2.scope j) else t2.scope j := by
    intro j
    rw [hremove, ← close_scope t2 ⟨t.size⟩ j]
    rfl
  have hslots := fun j => (remove_shape t2 depth j).2.2.2.1
  refine ⟨h2.remove depth, by rw [remove_size]; omega, by rw [hremove], hframed.classes, ?_, hslots,
    ?_⟩
  · intro j hj
    have hj1 : j.index < (t.push c depth kind).2.size := by rw [push_size]; omega
    have hne : j ≠ ⟨t.size⟩ := fun heq => by rw [heq] at hj; exact Nat.lt_irrefl _ hj
    obtain ⟨hp, hd, hk⟩ := hframed.shape j hj1
    rw [hscope, if_neg (fun h => hne h.1), hp, hd, hk, hframed.symbols j hj1 hne, push_scope_old hj]
    exact ⟨rfl, rfl, rfl, rfl⟩
  · intro j hj hroot
    rw [hslots j, hframed.slots j (by rw [push_size]; omega) hroot, push_scope_old hj]

section

variable {c b : ScopeId} {t t1 t2 t3 : ScopeTable} (h : Enclosed c b t t1 t2 t3)

include h

theorem Enclosed.framed (j : ScopeId)
    (hroot : ∀ r, r.index < t.size → r ≠ t.slotRoot j → r ≠ t1.slotRoot b) (hj : j.index < t.size) :
    Framed j t t3 := by
  refine ⟨h.size, h.active, h.classes, fun r hr => ?_, fun r hr _ => (h.shape r hr).2.2.2,
    ⟨[], by rw [(h.shape j hj).2.2.2, List.append_nil], fun _ hv => absurd hv List.not_mem_nil⟩,
    fun r hr hne => h.keepSlots r hr (hroot r hr hne)⟩
  obtain ⟨hp, hd, hk, -⟩ := h.shape r hr
  exact ⟨hp, hd, hk⟩

variable {j : ScopeId}

theorem Enclosed.locals_eq (ht : t.Sound) (hj : j.index < t.size) : t3.locals j = t.locals j :=
  locals_congr (h.shape j hj).1 fun r hr => (h.shape r (ht.path_lt hr)).2.2

theorem Enclosed.slotRoot_eq (ht : t.Sound) (hj : j.index < t.size) :
    t3.slotRoot j = t.slotRoot j :=
  slotRoot_congr (h.shape j hj).1 fun r hr => (h.shape r (ht.path_lt hr)).2.2.1

end

theorem Sound.grows_remove (h : t.Sound) (depth : Nat) : Grows t (t.remove depth) := by
  refine ⟨fun j hj => ?_, fun _ _ => id⟩
  have hscope := remove_scope (h.not_active hj) depth
  exact ⟨⟨by rw [remove_size]; exact hj.1, by rw [hscope]; exact hj.2⟩, [],
    by rw [hscope, List.append_nil]⟩

theorem Sound.callables_remove (h : t.Sound) (depth : Nat) (hj : t.Persistent j) :
    (t.remove depth).callables j = t.callables j := by
  rw [callables, remove_scope (h.not_active hj), callables]

/-- The variables of the top level are those of its scope alone. -/
theorem Sound.locals_top (h : t.Sound) (hscope : t'.scope .top = t.scope .top) :
    t'.locals .top = t.locals .top := by
  obtain ⟨outer, houter, hlt⟩ := h.paths .top h.top.1
  have hnil : outer = [] := List.eq_nil_iff_forall_not_mem.mpr fun r hr =>
    absurd (hlt r hr) (Nat.not_lt_zero _)
  refine locals_congr (congrArg Scope.path hscope) fun r hr => ?_
  rw [houter, hnil] at hr
  rw [List.mem_singleton.mp hr, hscope]
  exact ⟨rfl, rfl⟩

theorem Sound.locals_top_push (h : t.Sound) (parent : ScopeId) (depth : Nat) (kind : ScopeKind) :
    (t.push parent depth kind).2.locals .top = t.locals .top :=
  h.locals_top (push_scope_old h.top.1)

theorem Sound.locals_top_remove (h : t.Sound) (depth : Nat) :
    (t.remove depth).locals .top = t.locals .top :=
  h.locals_top (remove_scope (h.not_active h.persistent_top) depth)

/-- What a block declares is gone behind it; the slots it has taken stay taken. -/
theorem block_ok (h : t.Sound) (hc : c.index < t.size)
    (hdepth : ∀ j ∈ t.active, (t.scope j).depth < depth)
    (h2 : t2.Sound) (hframed : Framed ⟨t.size⟩ (t.pushBlock c depth).2 t2) :
    (t2.remove depth).Sound ∧ Framed c t (t2.remove depth) ∧
      (t2.remove depth).locals c = t.locals c ∧
      (t2.remove depth).slotCount c = t2.slotCount ⟨t.size⟩ := by
  have henc := remove_ok h rfl hdepth h2 hframed
  have hroot : (t.push c depth .block).2.slotRoot ⟨t.size⟩ = t.slotRoot c := slotRoot_pushBlock h
  have hroot2 : t2.slotRoot ⟨t.size⟩ = t.slotRoot c := by
    rw [hframed.slotRoot (h.push hc) (by simp [pushBlock])]
    exact hroot
  refine ⟨henc.sound, henc.framed c (fun r _ hne => by rwa [hroot]) hc, henc.locals_eq h hc, ?_⟩
  rw [slotCount, henc.slotRoot_eq h hc, henc.slots, slotCount, hroot2]

/-- A routine leaves the scopes around it as they were. -/
theorem root_ok {parent : ScopeId} (h : t.Sound)
    (hdepth : ∀ j ∈ t.active, (t.scope j).depth < depth)
    (h2 : t2.Sound) (hframed : Framed ⟨t.size⟩ (t.pushRoot parent depth).2 t2) :
    (t2.remove depth).Sound ∧ ∀ c, c.index < t.size → Framed c t (t2.remove depth) ∧
      (t2.remove depth).locals c = t.locals c ∧ (t2.remove depth).slotCount c = t.slotCount c := by
  have henc := remove_ok h rfl hdepth h2 hframed
  have hne : ∀ r : ScopeId, r.index < t.size →
  r ≠ (t.push parent depth .root).2.slotRoot ⟨t.size⟩ := by
    intro r hr heq
    rw [slotRoot_pushRoot] at heq
    rw [heq] at hr
    exact Nat.lt_irrefl _ hr
  refine ⟨henc.sound, fun c hc => ⟨henc.framed c (fun r hr _ => hne r hr) hc, henc.locals_eq h hc,
    ?_⟩⟩
  have hlt := h.slotRoot_lt c
  rw [slotCount, henc.slotRoot_eq h hc, henc.keepSlots _ hlt (hne _ hlt),
    slotCount]

end ScopeTable

end Bytescript
