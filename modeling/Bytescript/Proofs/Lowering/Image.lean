import Bytescript.Proofs.Lowering.Script

/-!
# Compiled images

The three passes together: what an image consists of, told by the script and the tables at the end
of compiling (`Image.Compiled`). From here on, nothing is said about compiling itself.
-/

namespace Bytescript

open Lower (ClassInfo constructorName)

/-- The tables of a state. -/
def Lowering.tables (s : Lowering) (natives : List NativeSignature) : Tables where
  types := s.types
  pool := s.pool.entries
  scopes := s.scopes
  natives := natives

theorem Lowering.Ready.ends {s : Lowering} (h : s.Ready) (natives : List NativeSignature) :
    s.Ends natives (s.tables natives) :=
  ⟨⟨h.types, .refl _, fun _ _ => id, .refl _⟩, rfl, fun _ _ => rfl⟩

namespace ScopeTable

theorem empty_symbols (j : ScopeId) : (({} : ScopeTable).scope j).symbols = #[] := by
  rcases j with ⟨_ | _⟩ <;> rfl

theorem empty_sound : ({} : ScopeTable).Sound where
  toLaid := laid_empty
  rooted j hj := by
    obtain ⟨index⟩ := j
    obtain rfl : index = 0 := Nat.lt_one_iff.mp hj
    exact ⟨[], rfl, List.not_mem_nil⟩
  classes _ _ _ h := nomatch h
  parts j sym parts hsym := by
    rw [empty_symbols] at hsym
    cases Array.not_mem_empty _ hsym
  functions j sym hsym := by
    rw [empty_symbols] at hsym
    cases Array.not_mem_empty _ hsym

theorem empty_numbered : ({} : ScopeTable).Numbered := by
  intro j hj
  rcases j with ⟨_ | _⟩ <;> cases hj

end ScopeTable

/-! ## Images -/

/-- What every symbol of a script goes back to. -/
def Tables.Known (T : Tables) (items : List Stmt) (j : ScopeId) (sym : Symbol) : Prop :=
  T.Traces (T.IsClass .top "" items) (T.ClassItem .top "" items) (· ∈ items) j sym

/-- The members of a class are numbered in the order in which its scope has them. -/
def Tables.MembersNumbered (T : Tables) (info : ClassInfo) : Prop :=
  ∃ n, n ≤ 65536 ∧ (T.scopes.scope info.scopes.members).symbols.toList.filterMap Symbol.slot? =
    (List.range n).map Nat.toUInt16

/-- The top-level code runs the statements among the items and stops. -/
structure Routine.RunsItems (T : Tables) (items : List Stmt) (Γ : Locals) (Δ : List TypeId)
    (r : Routine) : Prop where
  params_eq : r.params = []
  slots_eq : r.slots = Δ.length
  encoded : ∃ marks, encode r.code marks = .ok r.body
  code : ∃ code, r.code.toList = code ++ [.stop] ∧
    Executes T ⟨.main, .top, .void⟩ none (.stmts (items.filter Stmt.isCode)) .empty [] 0 code Γ Δ

/-- The tables hold what the items of a script declare. -/
structure Tables.Outlined (T : Tables) (items : List Stmt) : Prop where
  declared : T.Declared .top "" items
  heads : T.HeadsDistinct .top items
  announced : ∀ span head code, .function span head code ∈ items →
    Owner.script.Announces T.types T.scopes head
  classKnown : ∀ name info body, T.HasClass .top "" items name info body → T.ClassKnown info body

/-- An image has been compiled from the items of a script; at the end the tables were `T`. -/
structure Image.Compiled (items : List Stmt) (T : Tables) (image : Image) : Prop
    extends T.Outlined items where
  sound : T.types.Sound
  types_eq : image.types = T.types
  pool_eq : image.pool.entries = T.pool
  pool_inj : ∀ (i j : UInt16) c, T.pool[i.toNat]? = some c → T.pool[j.toNat]? = some c → i = j
  classTypes : ∀ (i : Nat) e, T.types.entries[i]? = some e → e.kind = .classType →
    ∃ info body, T.HasClass .top "" items e.name info body ∧ info.type = ⟨i⟩
  symbols : ∀ sym ∈ (T.scopes.scope .top).symbols, T.Known items .top sym
  classes : ∀ type info, T.scopes.classInfo? type = some info → T.IsClass .top "" items info ∧
    T.MembersNumbered info ∧ ∀ sym ∈ (T.scopes.scope info.scopes.methods).symbols,
      T.Known items info.scopes.methods sym
  main : ∃ Γ Δ, image.main.RunsItems T items Γ Δ ∧
    ∀ name : String, image.globals[name]? = (Γ name).map fun found => ⟨found.1, found.2⟩
  functions : RoutinesAdded T .function .top "" .function items ∅ image.functions
  images : ImagesAdded T T.scopes .top "" items ∅ image.classes

variable {T : Tables} {r : TypeScopeId} {outer : String} {items : List Stmt}
  {options : CompileOptions} {journal : Journal} {image : Image}

theorem Tables.HasClass.classAt {name : String} {body : List Stmt} {info : ClassInfo}
    (h : T.HasClass r outer items name info body) :
    ∃ r' qualified, T.ClassAt r' name qualified info := by
  induction h with
  | here _ hat => exact ⟨_, _, hat⟩
  | inside _ _ _ ih => exact ih

/-! ## Declarations -/

/-- The tables after all declarations have been made. -/
structure Tables.Complete (B : Tables) (items : List Stmt) : Prop where
  scopes : B.scopes.Sound
  numbered : B.scopes.Numbered
  declared : B.Declared .top "" items

/-- What was declared is still known later, when tables have grown. -/
structure Tables.Foresees (B : Tables) (items : List Stmt) (T : Tables) : Prop
    extends T.Outlined items where
  symbols : ∀ j sym, sym ∈ (B.scopes.scope j).symbols → T.Known items j sym
  classTypes : ∀ (i : Nat) e, B.types.entries[i]? = some e → e.kind = .classType →
    ∃ info body, T.HasClass .top "" items e.name info body ∧ info.type = ⟨i⟩

namespace Lowering.Follows

variable {s : Lowering} {B T : Tables} {type : TypeId} {info : ClassInfo}

/-- Classes are known by what was declared. -/
theorem class_symbol (hs : s.Follows B) (h : s.scopes.classInfo? type = some info) :
    (B.scopes.OwnsMembers info.scopes.members ∧ B.scopes.Persistent info.scopes.methods) ∧
      ∃ j sym, sym ∈ (B.scopes.scope j).symbols ∧ sym.class? = some info.scopes ∧
      sym.type = type := by
  simp only [ScopeTable.classInfo?, Option.bind_eq_bind, Option.bind_eq_some_iff] at h
  obtain ⟨sym, hsym, parts, hparts, _, -, _, -, h⟩ := h
  cases h
  obtain ⟨j, position, hplace, hmem, htype⟩ := ScopeTable.lookupClass_mem hsym
  rw [hs.classes] at hplace
  have hmem : sym ∈ (B.scopes.scope j).symbols := by
    refine (hs.symbols j (hs.sound.classes _ _ _ hplace).1 sym hmem).resolve_right fun hvar => ?_
    obtain ⟨name, type, role⟩ := sym
    cases role <;> simp [Symbol.slot?, Symbol.class?] at hvar hparts
  exact ⟨hs.sound.parts j sym parts hmem hparts, j, sym, hmem, hparts, htype⟩

theorem isClass (hs : s.Follows B) {natives : List NativeSignature} {items : List Stmt}
    (hB : B.Foresees items (s.tables natives)) (h : s.scopes.classInfo? type = some info) :
    (s.tables natives).IsClass .top "" items info := by
  obtain ⟨-, j, sym, hmem, hclass, htype⟩ := hs.class_symbol h
  have hknown := hB.symbols j sym hmem
  cases hknown with
  | stored hvar =>
    obtain ⟨name, type, role⟩ := sym
    cases role <;> simp [Symbol.slot?, Symbol.class?] at hvar hclass
  | named hinfo =>
    obtain ⟨name, body, hhas⟩ := hinfo
    obtain ⟨r, qualified, hat⟩ := hhas.classAt
    obtain rfl : _ = type := htype
    cases hat.found.symm.trans h
    exact ⟨name, body, hhas⟩
  | constructor _ => cases hclass
  | method _ _ _ => cases hclass
  | function _ _ _ => cases hclass

end Lowering.Follows

/-- The members of a class can be read in a later table. -/
theorem ImagesAdded.later {scopes : ScopeTable} {map map' : Std.TreeMap String ClassImage}
    (h : ImagesAdded T scopes r outer items map map')
    (hmembers : ∀ info, T.IsClass r outer items info →
      T.scopes.members info.scopes.members = scopes.members info.scopes.members) :
    ImagesAdded T T.scopes r outer items map map' where
  built key image himage := by
    refine (h.built key image himage).imp_right fun ⟨name, info, body, hclass, hkey, hreal⟩ =>
      ⟨name, info, body, hclass, hkey, { hreal with members_eq := ?_ }⟩
    rw [hreal.members_eq, hmembers info ⟨name, body, hclass⟩]
  present := h.present
  kept := h.kept

namespace Lower

/-- The state in which a script begins to be compiled. -/
theorem start_ready (journal : Journal) : ({ types := .primitives, journal } : Lowering).Ready :=
  ⟨⟨TypeTable.primitives_sound, Pool.Builder.empty_sound⟩, ScopeTable.empty_sound, Nat.zero_lt_one⟩

variable {items : List Stmt} {journal : Journal}

theorem declarations_ok {u v : Unit} {s1 s2 : Lowering}
    (h1 : declareClasses .top .top "" items { types := .primitives, journal } = .ok u s1)
    (h2 : items.forM declareItem s1 = .ok v s2) (natives : List NativeSignature) :
    Declares (fun T j sym => T.Known items j sym) { types := .primitives, journal } s2 ∧
      (s2.tables natives).Complete items ∧
      ∀ T : Tables, s2.Within T → (s2.tables natives).Foresees items T := by
  have hs := start_ready journal
  have hadd1 := declareClasses_ok items h1 hs (fun _ _ h => nomatch h) hs.scopes.persistent_top
    TypeTable.primitives_sound.top_lt
  have hadd2 := declareItems_ok h2 hadd1.ready hadd1.known
  have hd1 : Declares (fun T j sym => T.Known items j sym) _ s1 :=
    hadd1.toDeclares.mono fun _ _ _ _ h =>
      Tables.Traces.mono h (fun _ => id) (fun _ _ h => h.elim) fun _ h => h.elim
  have hd2 : Declares (fun T j sym => T.Known items j sym) s1 s2 :=
    hadd2.toDeclares.mono fun _ _ _ _ h =>
      Tables.Traces.mono h (fun _ => id) (fun _ _ h => h.elim (fun h => nomatch h.1) id) fun _ h =>
        h.2
  have hd := hd1.trans hd2
  refine ⟨hd, ⟨hd.ready.scopes, hd.numbered ScopeTable.empty_numbered,
    hadd1.known _ (hd2.within (hd.ready.ends natives).toWithin)⟩, fun T hT => ?_⟩
  have hT1 := hd2.within hT
  refine ⟨⟨hadd1.known T hT1, hadd2.heads.distinct T hT, fun span head code hmem => ?_,
    hadd2.inner T hT⟩, fun j sym hsym => ?_, fun i e he hkind => ?_⟩
  · obtain ⟨params, result, index, hmeans, hsym⟩ := hadd2.heads.present T hT span head code hmem
    exact ⟨params, result, index, hmeans, hT.scopes.mem hd.ready.scopes.persistent_top hsym⟩
  · rcases hd.symbols T hT j sym hsym with hsym | hknown
    · have hsym : sym ∈ (({} : ScopeTable).scope j).symbols := hsym
      rw [ScopeTable.empty_symbols] at hsym
      cases Array.not_mem_empty _ hsym
    · exact hknown
  · have he := hadd2.extended.classes i e he hkind
    rcases hadd1.entries T hT1 i e he hkind with he | hclass
    · rw [TypeTable.primitives_kind he] at hkind
      cases hkind
    · exact hclass

/-- The state after all declarations is ready for the top-level code. -/
theorem declared_placed {P : Tables → ScopeId → Symbol → Prop} {s : Lowering}
    (h : Declares P { types := .primitives, journal } s) : s.Placed ∧ s.site.scope = .top ∧
      s.home = ⟨.main, .top, .void⟩ ∧ s.site.loops = [] ∧ s.code = [] ∧ s.locals = .empty ∧
      s.slotCount = 0 ∧ s.functions = ∅ ∧ s.classes = ∅ ∧ s.GlobalsAgree := by
  have hscope : s.site.scope = .top := by rw [h.rest]
  have hglobals : s.globals = ∅ := by rw [h.rest]
  have hactive : s.scopes.active = [] := h.active
  have hslots : (s.scopes.scope .top).slots = 0 := h.slots
  obtain ⟨outer, hpath, -⟩ := h.ready.scopes.paths .top h.ready.scopes.top.1
  have hkind : (s.scopes.scope .top).kind.ownsSlots = true := by
    rw [h.ready.scopes.top.2]
    rfl
  have hlocals : s.scopes.locals .top = .empty := by
    funext name
    have hnone : (s.scopes.scope .top).symbols.find? (ScopeTable.isVariable name) = none := by
      rw [Array.find?_eq_none]
      intro sym hsym hvar
      have hvar := (Bool.and_eq_true _ _).mp hvar
      cases Array.not_mem_empty _ (h.globals sym hsym hvar.1)
    rw [ScopeTable.locals, ScopeTable.lookupVariable, hpath, ScopeTable.lookupVariableOn]
    simp only [hnone, hkind, ↓reduceIte, Option.map_none]
    rfl
  refine ⟨⟨h.ready, ?_, ?_⟩, hscope, ?_, ?_, h.code, ?_, ?_, ?_, ?_, ?_⟩
  · intro j hj
    rw [hactive] at hj
    cases hj
  · intro _
    rw [h.rest]
  · rw [Lowering.home, h.rest]
  · rw [h.rest]
  · rw [Lowering.locals, hscope, hlocals]
  · rw [Lowering.slotCount, hscope, ScopeTable.slotCount, ScopeTable.slotRoot, hpath,
      List.find?_cons_of_pos (by exact hkind)]
    exact hslots
  · rw [h.rest]
  · rw [h.rest]
  · intro name
    rw [hglobals, hlocals]
    simp [Locals.empty]

end Lower

/-- The states through which a script is compiled: at first, with its classes declared, with all
that it declares, and with all its items compiled. -/
structure Script.Stages (items : List Stmt) (options : CompileOptions) (types : TypeTable)
    (image : Image) (s0 s1 s2 s3 : Lowering) : Prop where
  start : ∃ journal, s0 = { types, journal }
  classes : Lower.declareClasses .top .top "" items s0 = .ok () s1
  heads : items.forM Lower.declareItem s1 = .ok () s2
  items : items.forM (Lower.item options) s2 = .ok () s3
  main : ∃ s s', Lower.finish options "<top-level>"
    { s3.site with draft := s3.site.draft.emit .stop } [] none (s3.scopes.slotCount .top) s =
      .ok image.main s'
  functions_eq : image.functions = s3.functions
  classes_eq : image.classes = s3.classes
  globals_eq : image.globals = s3.globals
  types_eq : image.types = s3.types
  pool_eq : image.pool = s3.pool.finish

theorem Script.compile_stages {types : TypeTable}
    (h : (Script.compile ⟨items⟩ options types journal).1 = .ok image) :
    ∃ s0 s1 s2 s3, Script.Stages items options types image s0 s1 s2 s3 := by
  obtain ⟨s', h⟩ : ∃ s, Lower.script options items { types, journal } = .ok image s := by
    unfold Script.compile at h
    split at h
    next hscript =>
      cases h
      exact ⟨_, hscript⟩
    · cases h
  simp only [Lower.script, Lower.mainCode, Lower.note, Lower.bind_ok, Lower.modify_ok,
    Lower.get_bind, Lower.pure_ok] at h
  obtain ⟨_, s0, hs0, _, _, ⟨_, s1, h1, _, s2, h2, _, s3, h3, h4⟩, site, s5, h5, main, s6, h6,
    _, _, rfl, rfl, rfl⟩ := h
  cases h4
  cases h5
  have hfinish := h6
  obtain ⟨_, _, rfl, -, -⟩ := Lower.finish_ok h6
  exact ⟨s0, s1, s2, s3, ⟨_, hs0.symm⟩, h1, h2, h3, ⟨_, _, hfinish⟩, rfl, rfl, rfl, rfl, rfl⟩

open Lower in
/-- A script that compiles with the primitive types has been compiled. -/
theorem compile_compiled (h : (Script.compile ⟨items⟩ options .primitives journal).1 = .ok image) :
    ∃ T : Tables, T.natives = options.natives ∧ image.Compiled items T := by
  obtain ⟨s0, s1, s2, s3, hstages⟩ := Script.compile_stages h
  obtain ⟨journal, rfl⟩ := hstages.start
  obtain ⟨_, _, hmain⟩ := hstages.main
  obtain ⟨_, body, -, hbody, hmain⟩ := finish_ok hmain
  obtain ⟨hd, hcomplete, hforesees⟩ := declarations_ok hstages.classes hstages.heads options.natives
  obtain ⟨hs2, hscope, hhome, hloops, hcode, hlocals, hcount, hfunctions, hclasses, hglobals⟩ :=
    declared_placed hd
  have hB : s2.Follows (s2.tables options.natives) := by
    refine ⟨hcomplete.scopes, .refl _, fun _ _ => id, .refl _, Nat.le_refl _, rfl,
      fun _ _ _ hsym => .inl hsym, fun j hj => ⟨?_, rfl⟩⟩
    rintro rfl
    have := hj.2
    rw [hscope, hcomplete.scopes.top.2] at this
    cases this
  obtain ⟨hadv, ⟨code, hcode3, hexec⟩, hadd⟩ :=
    items_ok hstages.items hs2 hloops hB hcomplete.declared
  have hB3 := hB.advance hadv
  have hT3 := hadv.ready.ends options.natives
  have hforesees := hforesees _ (hadv.ends hT3).toWithin
  obtain ⟨Δ, hΔ, hexec⟩ := hexec [] (by rw [hcount]; rfl)
  have hexec := hexec _ hT3
  obtain ⟨hroutines, himages⟩ := hadd _ hT3
  rw [hhome, hlocals, hcode] at hexec
  rw [hfunctions] at hroutines
  rw [hclasses] at himages
  have hscope3 : s3.site.scope = .top := hadv.scope.trans hscope
  have hlocals3 : s3.locals = s3.scopes.locals .top := by rw [Lowering.locals, hscope3]
  have hold : ∀ j : ScopeId, j.index < s2.scopes.size → ∀ sym ∈ (s3.scopes.scope j).symbols,
      (s3.tables options.natives).Known items j sym := fun j hj sym hsym =>
    (hB3.symbols j hj sym hsym).elim (hforesees.symbols j sym) .stored
  refine ⟨s3.tables options.natives, rfl, {
    sound := hadv.ready.types
    types_eq := hstages.types_eq
    pool_eq := by rw [hstages.pool_eq]; rfl
    pool_inj := fun i j c => hadv.ready.pool.index_inj
    toOutlined := hforesees.toOutlined
    classTypes := fun i e he hkind =>
      hforesees.classTypes i e (hadv.types.classes i e he hkind) hkind
    symbols := fun sym hsym => hold .top hcomplete.scopes.top.1 sym hsym
    classes := fun type info hinfo => ⟨hB3.isClass hforesees hinfo, ?_, fun sym hsym => ?_⟩
    main := ⟨s3.locals, Δ, hmain ▸ ⟨rfl, ?_, ⟨_, hbody⟩, code, ?_, hexec⟩, fun name => ?_⟩
    functions := hstages.functions_eq ▸ hroutines
    images := hstages.classes_eq ▸ himages.later fun info hclass => ?_ }⟩
  · obtain ⟨⟨hmembers, -⟩, -⟩ := hB3.class_symbol hinfo
    obtain ⟨hle, hnumbered⟩ := hcomplete.numbered _ hmembers.2
    exact ⟨_, hle, (congrArg (fun a : Array Symbol => a.toList.filterMap Symbol.slot?)
      (hB3.members _ hmembers).2).trans hnumbered⟩
  · obtain ⟨⟨-, hmethods⟩, -⟩ := hB3.class_symbol hinfo
    exact hold _ hmethods.1 sym hsym
  · rw [hΔ, Lowering.slotCount, hscope3]
  · change (s3.site.draft.code.push .stop).toList = _
    rw [Array.toList_push]
    exact congrArg (· ++ [.stop]) (hcode3.trans (by rw [hcode, List.nil_append]))
  · rw [hstages.globals_eq, hlocals3]
    exact hadv.globals hglobals name
  · obtain ⟨name, body, hhas⟩ := hclass
    obtain ⟨r, qualified, hat⟩ := hhas.classAt
    exact hB3.membersOf (hB3.class_symbol hat.found).1.1

end Bytescript
