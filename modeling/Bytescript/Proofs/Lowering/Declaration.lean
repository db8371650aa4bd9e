import Bytescript.Proofs.ClassScopes
import Bytescript.Proofs.Lowering.Routine

/-!
# Declarations

Before any code is compiled, classes, members and heads are declared. This module says what the
tables know then. Every class of the script, at whatever depth, is found under its name and has
constants for itself and its constructor (`Tables.Declared`); every symbol goes back to the item
that it was declared by (`Tables.Traces`).
-/

namespace Bytescript

open Lower (ClassInfo constructorName)

/-! ## Classes of a script -/

/-- A class that is found under a name in a scope of types, with the constants that stand for it and
for its constructor. -/
structure Tables.ClassAt (T : Tables) (r : TypeScopeId) (name qualified : String)
    (info : ClassInfo) : Prop where
  lookup : T.types.lookup r name = some info.type
  entry : ∃ e, T.types.entries[info.type.index]? = some e ∧ e.kind = .classType
  found : T.scopes.classInfo? info.type = some info
  qualified_eq : info.scopes.qualified = qualified
  constant : T.pool[info.scopes.constant.toNat]? = some (.classRef qualified)
  constructor : T.pool[info.constructor.toNat]? =
    some (.method (qualified ++ "." ++ constructorName))
  init : T.scopes.lookupHere info.scopes.methods constructorName =
    some ⟨constructorName, info.type, .method [] info.constructor⟩

variable {T : Tables} {r : TypeScopeId} {name outer : String} {info : ClassInfo}
  {items more : List Stmt} {j : ScopeId} {sym : Symbol}

theorem Tables.ClassAt.unique {qualified qualified' : String} {info' : ClassInfo}
    (h : T.ClassAt r name qualified info) (h' : T.ClassAt r name qualified' info') :
    info = info' := by
  have htype : info.type = info'.type := Option.some.inj (h.lookup.symm.trans h'.lookup)
  exact Option.some.inj (h.found.symm.trans (htype ▸ h'.found))

/-- `T.HasClass r outer items name info body`: among the items, or inside of classes among them, is
a class with that name and body. The names of the items are looked up in `r` and qualified by what
stands in `outer`. -/
inductive Tables.HasClass (T : Tables) : TypeScopeId → String → List Stmt → String → ClassInfo →
    List Stmt → Prop
  | here {r outer items span name body info} :
    .classDecl span name body ∈ items → T.ClassAt r name (outer ++ name) info →
    T.HasClass r outer items name info body
  | inside {r outer items span name inner body within info info'} :
    .classDecl span name body ∈ items → T.ClassAt r name (outer ++ name) info →
    T.HasClass info.scopes.types (outer ++ name ++ ".") body inner info' within →
    T.HasClass r outer items inner info' within

theorem Tables.HasClass.mono {body : List Stmt} (h : T.HasClass r outer items name info body)
    (hsub : ∀ s ∈ items, s ∈ more) : T.HasClass r outer more name info body := by
  cases h with
  | here hmem hat => exact .here (hsub _ hmem) hat
  | inside hmem hat hin => exact .inside (hsub _ hmem) hat hin

def Stmt.className? : Stmt → Option String
  | .classDecl _ name _ => some name
  | _ => none

/-- The names of the classes among the items. -/
def classNames (items : List Stmt) : List String := items.filterMap Stmt.className?

mutual

/-- Every class among the items is known under a name of its own, and so is every class inside of
it. -/
def Tables.Declared (T : Tables) (r : TypeScopeId) (outer : String) : List Stmt → Prop
  | [] => True
  | s :: rest =>
    T.ItemDeclared r outer s ∧ (∀ name, s.className? = some name → name ∉ classNames rest) ∧
      T.Declared r outer rest

def Tables.ItemDeclared (T : Tables) (r : TypeScopeId) (outer : String) : Stmt → Prop
  | .classDecl _ name body =>
    ∃ info, T.ClassAt r name (outer ++ name) info ∧
      T.Declared info.scopes.types (outer ++ name ++ ".") body
  | _ => True

end

/-- A class is among the items, or inside of a class among them. -/
def Tables.IsClass (T : Tables) (r : TypeScopeId) (outer : String) (items : List Stmt)
    (info : ClassInfo) : Prop :=
  ∃ name body, T.HasClass r outer items name info body

/-- The item is in the body of such a class. -/
def Tables.ClassItem (T : Tables) (r : TypeScopeId) (outer : String) (items : List Stmt)
    (info : ClassInfo) (item : Stmt) : Prop :=
  ∃ name body, T.HasClass r outer items name info body ∧ item ∈ body

theorem Tables.IsClass.mono (h : T.IsClass r outer items info) (hsub : ∀ s ∈ items, s ∈ more) :
    T.IsClass r outer more info :=
  h.imp fun _ => Exists.imp fun _ hclass => hclass.mono hsub

theorem Tables.ClassItem.mono {item : Stmt} (h : T.ClassItem r outer items info item)
    (hsub : ∀ s ∈ items, s ∈ more) : T.ClassItem r outer more info item :=
  h.imp fun _ => Exists.imp fun _ hclass => ⟨hclass.1.mono hsub, hclass.2⟩

/-! ## Symbols of a script -/

/-- What a symbol in a scope has been declared by, if the classes of the script are `C`, their items
`P`, and its functions are `F`. -/
inductive Tables.Traces (T : Tables) (C : ClassInfo → Prop) (P : ClassInfo → Stmt → Prop)
    (F : Stmt → Prop) : ScopeId → Symbol → Prop
  | stored {j : ScopeId} {sym : Symbol} : sym.slot?.isSome = true → T.Traces C P F j sym
  | named {j : ScopeId} {name : String} {info : ClassInfo} :
    C info → T.Traces C P F j ⟨name, info.type, .classRole info.scopes⟩
  | constructor {info : ClassInfo} : C info →
    T.Traces C P F info.scopes.methods ⟨constructorName, info.type, .method [] info.constructor⟩
  | method {info span head code params result c} :
    P info (.function span head code) → T.types.HeadMeans info.scopes.types head params result →
    T.pool[c.toNat]? = some (.method (info.scopes.qualified ++ "." ++ head.name ++
      T.types.signature params)) →
    T.Traces C P F info.scopes.methods ⟨head.name, result, .method params c⟩
  | function {span head code params result c} :
    F (.function span head code) → T.types.HeadMeans .top head params result →
    T.pool[c.toNat]? = some (.function (head.name ++ T.types.signature params)) →
    T.Traces C P F .top ⟨head.name, result, .function params c⟩

theorem Tables.Traces.mono {C C' : ClassInfo → Prop} {P P' : ClassInfo → Stmt → Prop}
    {F F' : Stmt → Prop}
    (h : T.Traces C P F j sym) (hC : ∀ info, C info → C' info)
    (hP : ∀ info item, P info item → P' info item)
    (hF : ∀ item, F item → F' item) : T.Traces C' P' F' j sym := by
  cases h with
  | stored h => exact .stored h
  | named h => exact .named (hC _ h)
  | constructor h => exact .constructor (hC _ h)
  | method h hhead hpool => exact .method (hP _ _ h) hhead hpool
  | function h hhead hpool => exact .function (hF _ h) hhead hpool

/-! ## States before any code -/

/-- The second state comes after the first, and only declarations have been made meanwhile: of
symbols that are `P` and, at the top level, of no variables. -/
structure Declares (P : Tables → ScopeId → Symbol → Prop) (s s' : Lowering) : Prop where
  ready : s'.Ready
  types : s.types.Grows s'.types
  pool : s.pool.Grows s'.pool
  scopes : s.scopes.Grows s'.scopes
  active : s'.scopes.active = s.scopes.active
  slots : (s'.scopes.scope .top).slots = (s.scopes.scope .top).slots
  globals : ∀ sym ∈ (s'.scopes.scope .top).symbols, sym.slot?.isSome = true →
    sym ∈ (s.scopes.scope .top).symbols
  numbered : s.scopes.Numbered → s'.scopes.Numbered
  symbols : ∀ T : Tables, s'.Within T → ∀ j sym, sym ∈ (s'.scopes.scope j).symbols →
    sym ∈ (s.scopes.scope j).symbols ∨ P T j sym
  code : s'.code = s.code
  rest : s' = { s with
    types := s'.types
    scopes := s'.scopes
    pool := s'.pool
    site := { s.site with draft := s'.site.draft } }

namespace Declares

variable {P Q : Tables → ScopeId → Symbol → Prop} {s s1 s' : Lowering}

theorem within (h : Declares P s s') (hT : s'.Within T) : s.Within T where
  sound := hT.sound
  types := h.types.trans hT.types
  pool i c hi := hT.pool i c (h.pool i c hi)
  scopes := h.scopes.trans hT.scopes

theorem mono (h : Declares P s s') (hPQ : ∀ T, s'.Within T → ∀ j sym, P T j sym → Q T j sym) :
    Declares Q s s' :=
  { h with symbols := fun T hT j sym hsym =>
    (h.symbols T hT j sym hsym).imp_right (hPQ T hT j sym) }

theorem trans (h : Declares P s s1) (h' : Declares P s1 s') : Declares P s s' where
  ready := h'.ready
  types := h.types.trans h'.types
  pool i c hi := h'.pool i c (h.pool i c hi)
  scopes := h.scopes.trans h'.scopes
  active := h'.active.trans h.active
  slots := h'.slots.trans h.slots
  globals sym hsym hvar := h.globals sym (h'.globals sym hsym hvar) hvar
  numbered hn := h'.numbered (h.numbered hn)
  symbols T hT j sym hsym := by
    rcases h'.symbols T hT j sym hsym with hsym | hsym
    · exact h.symbols T (h'.within hT) j sym hsym
    · exact .inr hsym
  code := h'.code.trans h.code
  rest := by
    have h1 := h.rest
    have h2 := h'.rest
    generalize s1.types = types at *
    generalize s1.scopes = scopes at *
    generalize s1.pool = pool at *
    generalize s1.site.draft = draft at *
    subst h1
    exact h2

end Declares

theorem Emits.declares {P : Tables → ScopeId → Symbol → Prop} {s s' : Lowering} (h : Emits s s' [])
    (hs : s.Ready) : Declares P s s' where
  ready := h.ready hs
  types := h.types.toGrows
  pool := h.pool
  scopes := by rw [h.scopes]; exact .refl _
  active := by rw [h.scopes]
  slots := by rw [h.scopes]
  globals sym hsym _ := by rwa [h.scopes] at hsym
  numbered hn := by rwa [h.scopes]
  symbols T _ j sym hsym := .inl (by rwa [h.scopes] at hsym)
  code := by rw [h.code_eq, List.append_nil]
  rest := by
    have h1 := h.scopes
    have h2 := h.rest
    generalize s'.types = types at *
    generalize s'.scopes = scopes at *
    generalize s'.pool = pool at *
    generalize s'.site.draft = draft at *
    subst h1
    exact h2

/-! ## Declaring classes -/

/-- The types of declared classes are there. -/
def Lowering.Keyed (s : Lowering) : Prop :=
  ∀ type place, s.scopes.classes.lookup type = some place → type.index < s.types.size

/-- The symbols of a class and of its constructor. -/
def ClassSymbols (name : String) (info : ClassInfo) (_ : Tables) (j : ScopeId) (sym : Symbol) :
    Prop :=
  sym = ⟨name, info.type, .classRole info.scopes⟩ ∨
    j = info.scopes.methods ∧ sym = ⟨constructorName, info.type, .method [] info.constructor⟩

/-- A class has been declared, its members not yet. -/
structure ClassAdded (r : TypeScopeId) (name qualified : String) (info : ClassInfo)
    (s s' : Lowering) : Prop extends Declares (ClassSymbols name info) s s' where
  keyed : s'.Keyed
  fresh : s.types.lookup r name = none
  typeScopes : s.types.scopes.size ≤ s'.types.scopes.size
  inner : info.scopes.types.index < s'.types.scopes.size
  members : s'.scopes.OwnsMembers info.scopes.members
  bound : s'.types.lookup r name = some info.type
  entries : ∀ (i : Nat) e, s'.types.entries[i]? = some e → e.kind = .classType →
    s.types.entries[i]? = some e ∨ info.type = ⟨i⟩ ∧ e.name = name
  known : ∀ T : Tables, s'.Within T → T.ClassAt r name qualified info

/-- What the symbols of the classes among some items go back to. -/
def ClassesTraced (r : TypeScopeId) (outer : String) (items : List Stmt) (T : Tables) (j : ScopeId)
    (sym : Symbol) : Prop :=
  T.Traces (T.IsClass r outer items) (fun _ _ => False) (fun _ => False) j sym

theorem ClassesTraced.mono (h : ClassesTraced r outer items T j sym)
    (hsub : ∀ s ∈ items, s ∈ more) : ClassesTraced r outer more T j sym :=
  Tables.Traces.mono h (fun _ hclass => hclass.mono hsub) (fun _ _ => id) fun _ => id

/-- The classes among some items have been declared, with those inside of them. -/
structure ClassesAdded (r : TypeScopeId) (outer : String) (items : List Stmt) (s s' : Lowering) :
    Prop extends Declares (ClassesTraced r outer items) s s' where
  keyed : s'.Keyed
  typeScopes : s.types.scopes.size ≤ s'.types.scopes.size
  fresh : ∀ name ∈ classNames items, s.types.lookup r name = none
  bound : ∀ name ∈ classNames items, ∃ type, s'.types.lookup r name = some type
  entries : ∀ T : Tables, s'.Within T → ∀ (i : Nat) e, s'.types.entries[i]? = some e →
    e.kind = .classType → s.types.entries[i]? = some e ∨
      ∃ info body, T.HasClass r outer items e.name info body ∧ info.type = ⟨i⟩
  known : ∀ T : Tables, s'.Within T → T.Declared r outer items

namespace ClassesAdded

variable {r : TypeScopeId} {outer : String} {s s1 s' : Lowering}

/-- There are no classes, and nothing happens. -/
theorem none (hs : s.Ready) (hkeyed : s.Keyed) (hitems : ∀ T : Tables, T.Declared r outer items)
    (hnames : classNames items = []) : ClassesAdded r outer items s s where
  toDeclares := (Emits.refl hs.toTidy).declares hs
  keyed := hkeyed
  typeScopes := Nat.le_refl _
  fresh name h := by rw [hnames] at h; cases h
  bound name h := by rw [hnames] at h; cases h
  entries _ _ _ _ he _ := .inl he
  known T _ := hitems T

theorem cons {a : Stmt} {rest : List Stmt} (h : ClassesAdded r outer [a] s s1)
    (h' : ClassesAdded r outer rest s1 s') : ClassesAdded r outer (a :: rest) s s' where
  toDeclares := (h.toDeclares.mono fun _ _ _ _ ht => ht.mono fun _ hm =>
      List.mem_cons.mpr (.inl (List.mem_singleton.mp hm))).trans
    (h'.toDeclares.mono fun _ _ _ _ ht => ht.mono fun _ => List.mem_cons_of_mem _)
  keyed := h'.keyed
  typeScopes := Nat.le_trans h.typeScopes h'.typeScopes
  fresh name hname := by
    rw [classNames, ← List.singleton_append, List.filterMap_append] at hname
    rcases List.mem_append.mp hname with hname | hname
    · exact h.fresh name hname
    · cases hl : s.types.lookup r name with
      | none => rfl
      | some type =>
        have := h.types.lookup _ _ _ hl
        rw [h'.fresh name hname] at this
        cases this
  bound name hname := by
    rw [classNames, ← List.singleton_append, List.filterMap_append] at hname
    rcases List.mem_append.mp hname with hname | hname
    · obtain ⟨type, hl⟩ := h.bound name hname
      exact ⟨type, h'.types.lookup _ _ _ hl⟩
    · exact h'.bound name hname
  entries T hT i e he hkind := by
    rcases h'.entries T hT i e he hkind with he | ⟨info, body, hclass, hid⟩
    · rcases h.entries T (h'.within hT) i e he hkind with he | ⟨info, body, hclass, hid⟩
      · exact .inl he
      · exact .inr ⟨info, body, hclass.mono fun _ hm =>
          List.mem_cons.mpr (.inl (List.mem_singleton.mp hm)), hid⟩
    · exact .inr ⟨info, body, hclass.mono fun _ => List.mem_cons_of_mem _, hid⟩
  known T hT := by
    refine ⟨(h.known T (h'.within hT)).1, fun name hname hmem => ?_, h'.known T hT⟩
    obtain ⟨type, hl⟩ := h.bound name (List.mem_filterMap.mpr ⟨a, .head _, hname⟩)
    rw [h'.fresh name hmem] at hl
    cases hl

/-- A class and the classes inside of it. -/
theorem single {span : Span} {body : List Stmt} (h : ClassAdded r name (outer ++ name) info s s1)
    (h' : ClassesAdded info.scopes.types (outer ++ name ++ ".") body s1 s') :
    ClassesAdded r outer [.classDecl span name body] s s' where
  toDeclares := by
    have hmem : Stmt.classDecl span name body ∈ [Stmt.classDecl span name body] :=
      .head _
    refine (h.toDeclares.mono fun T hT j sym hsym => ?_).trans
      (h'.toDeclares.mono fun T hT j sym hsym => ?_)
    · have hclass : T.IsClass r outer [.classDecl span name body] info :=
        ⟨name, body, .here hmem (h.known T hT)⟩
      rcases hsym with rfl | ⟨rfl, rfl⟩
      · exact .named hclass
      · exact .constructor hclass
    · exact Tables.Traces.mono hsym
        (fun _ ⟨n, within, hclass⟩ => ⟨n, within, .inside hmem (h.known T (h'.within hT)) hclass⟩)
        (fun _ _ => id) fun _ => id
  keyed := h'.keyed
  typeScopes := Nat.le_trans h.typeScopes h'.typeScopes
  fresh n hn := by
    obtain rfl : n = name := by simpa [classNames, Stmt.className?] using hn
    exact h.fresh
  bound n hn := by
    obtain rfl : n = name := by simpa [classNames, Stmt.className?] using hn
    exact ⟨_, h'.types.lookup _ _ _ h.bound⟩
  entries T hT i e he hkind := by
    have hmem : Stmt.classDecl span name body ∈ [Stmt.classDecl span name body] :=
      .head _
    have hknown := h.known T (h'.within hT)
    rcases h'.entries T hT i e he hkind with he | ⟨info', body', hclass, hid⟩
    · rcases h.entries i e he hkind with he | ⟨hid, rfl⟩
      · exact .inl he
      · exact .inr ⟨info, body, .here hmem hknown, hid⟩
    · exact .inr ⟨info', body', .inside hmem hknown hclass, hid⟩
  known T hT := ⟨⟨info, h.known T (h'.within hT), h'.known T hT⟩, fun _ _ => List.not_mem_nil,
    trivial⟩

end ClassesAdded

namespace Lower

variable {s s' : Lowering} {span : Span} {qualified : String} {id : ScopeId} {parts : ClassScopes}

/-- What declaring a class does, step by step. -/
theorem declareClass_stages (h : declareClass span name qualified id r s = .ok parts s') :
    ∃ type types index constructor s2 s3 t1 t', s.types.insert r name .classType none =
      (.ok type, types) ∧
      constant (.classRef qualified) { s with types := (types.newScope r).2 } = .ok index s2 ∧
      constant (.method (qualified ++ "." ++ constructorName)) s2 = .ok constructor s3 ∧
      s3.types = (types.newScope r).2 ∧
      s.scopes.insertClass id name qualified type (types.newScope r).1 index = (.ok parts, t1) ∧
      t1.insertMethod parts.methods constructorName type [] constructor = (.ok (), t') ∧
      s' = { s3 with scopes := t' } := by
  simp only [declareClass, bind_ok, get_bind] at h
  obtain ⟨type, s1, h1, h⟩ := h
  obtain ⟨types, hin, rfl⟩ := onTypes_ok h1
  simp only [modify_ok, pure_ok] at h
  obtain ⟨_, _, rfl, index, s2, h2, constructor, s3, h3, parts, s4, h4, _, s5, h5, rfl, rfl⟩ := h
  obtain ⟨t1, hinsert, rfl⟩ := onScopes_ok h4
  obtain ⟨t', hinit, rfl⟩ := onScopes_ok h5
  obtain ⟨_, -, heq2⟩ := constant_add h2
  obtain ⟨_, -, heq3⟩ := constant_add h3
  refine ⟨type, types, index, constructor, s2, s3, t1, t', hin, h2, h3, ?_, ?_, hinit, rfl⟩
  · rw [heq3, heq2]
  · rwa [heq3, heq2] at hinsert

theorem declareClass_ok (h : declareClass span name qualified id r s = .ok parts s') (hs : s.Ready)
    (hkeyed : s.Keyed) (hid : s.scopes.Persistent id) (hr : r.index < s.types.scopes.size) :
    ∃ info, info.scopes = parts ∧ ClassAdded r name qualified info s s' := by
  obtain ⟨type', types, index, constructor, s2, s3, t1, t', hin, h2, h3, htypes, hinsert, hinit,
    rfl⟩ :=
    declareClass_stages h
  have hent := hs.types.enterClass hr hin
  obtain ⟨hemit2, hindex⟩ := constant_ok h2 ⟨hent.sound, hs.pool⟩
  obtain ⟨hemit3, hconstructor⟩ := constant_ok h3 hemit2.tidy
  have hemit := hemit2.trans hemit3
  have hkey : s.scopes.classes.lookup type' = none := by
    cases hl : s.scopes.classes.lookup type' with
    | none => rfl
    | some place =>
      have := hkeyed _ _ hl
      rw [hent.index] at this
      exact absurd this (Nat.lt_irrefl _)
  obtain ⟨hqualified, hinner, hconstant, hclass⟩ :=
    ScopeTable.insertClass_ok hs.scopes hid hkey hinsert hinit
  rw [← htypes] at hent
  refine ⟨⟨type', parts, constructor⟩, rfl, ?_⟩
  refine {
    ready := ⟨⟨hemit.tidy.types, hemit.tidy.pool⟩, hclass.sound, ?_⟩
    types := hent.grows
    pool := hemit.pool
    scopes := hclass.grows
    active := hclass.active
    slots := hclass.slots
    globals := ?_
    numbered := hclass.numbered
    symbols := fun _ _ j sym hsym => hclass.symbols j sym hsym
    code := ?_
    rest := ?_
    keyed := ?_
    fresh := hent.fresh
    typeScopes := hent.scopes
    inner := by rw [hinner]; exact hent.inner
    members := hclass.members
    bound := hent.bound
    entries := fun i e he _ => hent.entries i e he
    known := ?_ }
  · have hscope : s3.site.scope = s.site.scope := hemit.scope
    rw [hscope, hclass.size]
    exact Nat.lt_add_right 2 hs.scope_lt
  · intro sym hsym hvar
    rcases hclass.symbols .top sym hsym with hsym | rfl | ⟨-, rfl⟩
    · exact hsym
    · cases hvar
    · cases hvar
  · exact hemit.code_eq.trans (List.append_nil _)
  · exact congrArg (fun s : Lowering => { s with scopes := t' }) hemit.rest
  · intro key place hl
    rcases hclass.keys key place hl with rfl | hl
    · exact hent.size
    · exact Nat.lt_of_lt_of_le (hkeyed _ _ hl) hent.grows.size
  · intro T hT
    have hinfo : t'.classInfo? type' = some ⟨type', parts, constructor⟩ := by
      simp [ScopeTable.classInfo?, hclass.found, hclass.constructs, Symbol.class?, Symbol.callee?]
    exact {
      lookup := hT.types.lookup _ _ _ hent.bound
      entry := hent.entry.imp fun e he => ⟨hT.types.entries _ e he.1, he.2⟩
      found := hT.scopes.classInfo? hclass.sound hinfo
      qualified_eq := hqualified
      constant := by
        rw [hconstant]
        exact hT.pool _ _ (hemit3.pool _ _ hindex)
      constructor := hT.pool _ _ hconstructor
      init := hT.scopes.lookupHere hclass.methods hclass.constructs }

mutual

theorem declareClasses_ok :
    ∀ (items : List Stmt) {id : ScopeId} {r : TypeScopeId} {outer : String} {u : Unit}
      {s s' : Lowering}, declareClasses id r outer items s = .ok u s' → s.Ready → s.Keyed →
      s.scopes.Persistent id → r.index < s.types.scopes.size → ClassesAdded r outer items s s'
  | [], _, _, _, _, _, _, h, hs, hkeyed, _, _ => by
    simp only [declareClasses, pure_ok] at h
    obtain ⟨-, rfl⟩ := h
    exact .none hs hkeyed (fun _ => trivial) rfl
  | a :: rest, _, _, _, _, _, _, h, hs, hkeyed, hid, hr => by
    simp only [declareClasses, bind_ok] at h
    obtain ⟨_, s1, h1, h2⟩ := h
    have ha := declareNested_ok a h1 hs hkeyed hid hr
    exact ha.cons (declareClasses_ok rest h2 ha.ready ha.keyed (ha.scopes.symbols _ hid).1
      (Nat.lt_of_lt_of_le hr ha.typeScopes))

theorem declareNested_ok :
    ∀ (item : Stmt) {id : ScopeId} {r : TypeScopeId} {outer : String} {u : Unit} {s s' : Lowering},
      declareNested id r outer item s = .ok u s' → s.Ready → s.Keyed → s.scopes.Persistent id →
      r.index < s.types.scopes.size → ClassesAdded r outer [item] s s'
  | item, _, _, _, _, _, _, h, hs, hkeyed, hid, hr => by
    cases item with
    | classDecl span name body =>
      simp only [declareNested, bind_ok] at h
      obtain ⟨parts, s1, h1, h2⟩ := h
      obtain ⟨info, rfl, hclass⟩ := declareClass_ok h1 hs hkeyed hid hr
      exact .single hclass
        (declareClasses_ok body h2 hclass.ready hclass.keyed hclass.members.persistent hclass.inner)
    | _ =>
      cases h
      exact .none hs hkeyed (fun _ => ⟨trivial, fun _ _ => List.not_mem_nil, trivial⟩) rfl

end

end Lower

end Bytescript
