import Bytescript.Proofs.Lowering.Heads

/-!
# The code of scripts

The last pass compiles the bodies of functions, methods and constructors and, in between, the
top-level code. Each body ends up in the image under its full name, and nothing else does
(`RoutinesAdded`, `ImagesAdded`); the top-level code is that of the statements among the items
(`compile_compiled`).
-/

namespace Bytescript

open Lower (ClassInfo constructorName)

theorem getElem?_insert_string {α : Type} (map : Std.TreeMap String α) (key a : String) (v : α) :
    (map.insert key v)[a]? = if key = a then some v else map[a]? := by
  simp [Std.TreeMap.getElem?_insert]

/-! ## Routines by name -/

/-- A routine has been compiled from a head and a body, and its full name has a constant. -/
structure Routine.Named (T : Tables) (role : SiteRole) (r : TypeScopeId) (stem : String)
    (tag : String → Constant) (head : FunctionHead) (code : List Stmt) (key : String)
    (rt : Routine) : Prop where
  body : ∃ params result Δ, rt.HasBody T role r head code params result Δ ∧
    key = stem ++ head.name ++ T.types.signature params
  name_eq : rt.name = key
  constant : ∃ c, rt.constant = some c ∧ T.pool[c.toNat]? = some (tag key)

/-- The functions among the items have been added to routines by name. -/
structure RoutinesAdded (T : Tables) (role : SiteRole) (r : TypeScopeId) (stem : String)
    (tag : String → Constant) (items : List Stmt) (map map' : Std.TreeMap String Routine) :
    Prop where
  built : ∀ (key : String) (rt : Routine), map'[key]? = some rt → map[key]? = some rt ∨
    ∃ span head code, .function span head code ∈ items ∧ rt.Named T role r stem tag head code key
  present : ∀ span head code params result, .function span head code ∈ items →
    T.types.HeadMeans r head params result →
    ∃ rt, map'[stem ++ head.name ++ T.types.signature params]? = some rt
  kept : ∀ (key : String) rt, map[key]? = some rt → ∃ rt', map'[key]? = some rt'

namespace RoutinesAdded

variable {T : Tables} {role : SiteRole} {r : TypeScopeId} {stem : String} {tag : String → Constant}
  {map map₁ map' : Std.TreeMap String Routine}

theorem none {items : List Stmt} (h : ∀ a ∈ items, ∀ span head code, a ≠ .function span head code) :
    RoutinesAdded T role r stem tag items map map where
  built _ _ hrt := .inl hrt
  present span head code _ _ hmem := absurd rfl (h _ hmem span head code)
  kept _ rt hrt := ⟨rt, hrt⟩

theorem single {span : Span} {head : FunctionHead} {code : List Stmt} {key : String} {rt : Routine}
    (h : rt.Named T role r stem tag head code key) :
    RoutinesAdded T role r stem tag [.function span head code] map (map.insert key rt) where
  built key' rt' hrt' := by
    rw [getElem?_insert_string] at hrt'
    split at hrt'
    next hkey =>
      cases hrt'
      exact .inr ⟨span, head, code, .head _, hkey ▸ h⟩
    · exact .inl hrt'
  present span' head' code' params result hmem hmeans := by
    cases List.mem_singleton.mp hmem
    obtain ⟨params', result', Δ, hbody, hkey⟩ := h.body
    obtain ⟨rfl, -⟩ := hmeans.unique hbody.meaning
    exact ⟨rt, by rw [getElem?_insert_string, if_pos hkey]⟩
  kept key' rt' hrt' := by
    rw [getElem?_insert_string]
    split
    · exact ⟨rt, rfl⟩
    · exact ⟨rt', hrt'⟩

theorem cons {a : Stmt} {rest : List Stmt} (h : RoutinesAdded T role r stem tag [a] map map₁)
    (h' : RoutinesAdded T role r stem tag rest map₁ map') :
    RoutinesAdded T role r stem tag (a :: rest) map map' where
  built key rt hrt := by
    rcases h'.built key rt hrt with hrt | ⟨span, head, code, hmem, hnamed⟩
    · rcases h.built key rt hrt with hrt | ⟨span, head, code, hmem, hnamed⟩
      · exact .inl hrt
      · exact .inr ⟨span, head, code, List.mem_cons.mpr (.inl (List.mem_singleton.mp hmem)), hnamed⟩
    · exact .inr ⟨span, head, code, .tail _ hmem, hnamed⟩
  present span head code params result hmem hmeans := by
    rcases hmem with _ | ⟨_, hmem⟩
    · obtain ⟨rt, hrt⟩ := h.present span head code params result (.head _) hmeans
      exact h'.kept _ rt hrt
    · exact h'.present span head code params result hmem hmeans
  kept key rt hrt := by
    obtain ⟨rt1, hrt1⟩ := h.kept key rt hrt
    exact h'.kept key rt1 hrt1

end RoutinesAdded

/-! ## Classes by name -/

/-- The image of a class has been made from its body. The members are those in a table of scopes. -/
structure ClassImage.Realises (T : Tables) (scopes : ScopeTable) (info : ClassInfo)
    (body : List Stmt) (image : ClassImage) : Prop where
  name_eq : image.name = info.scopes.qualified
  type_eq : image.type = info.type
  constant_eq : image.constant = info.scopes.constant
  members_eq : image.members.toList = (scopes.members info.scopes.members).map fun sym =>
    ⟨sym.name, sym.type, TypeTable.primitives.kindOf sym.type⟩
  constructor : ∃ Δ, image.constructor.Constructs T info body Δ
  constructor_name : image.constructor.name = info.scopes.qualified ++ "." ++ constructorName
  constructor_constant : image.constructor.constant = some info.constructor
  methods : RoutinesAdded T (.method info.type) info.scopes.types (info.scopes.qualified ++ ".")
    .method body ∅ image.methods

/-- The classes among the items, and those inside of them, have been added to classes by name. -/
structure ImagesAdded (T : Tables) (scopes : ScopeTable) (r : TypeScopeId) (outer : String)
    (items : List Stmt) (map map' : Std.TreeMap String ClassImage) : Prop where
  built : ∀ (key : String) (image : ClassImage), map'[key]? = some image → map[key]? = some image ∨
    ∃ name info body, T.HasClass r outer items name info body ∧ info.scopes.qualified = key ∧
      image.Realises T scopes info body
  present : ∀ name info body, T.HasClass r outer items name info body →
    ∃ image, map'[info.scopes.qualified]? = some image
  kept : ∀ (key : String) image, map[key]? = some image → ∃ image', map'[key]? = some image'

namespace ImagesAdded

variable {T : Tables} {scopes : ScopeTable} {r : TypeScopeId} {outer : String}
  {map map₁ map' : Std.TreeMap String ClassImage}

theorem none {items : List Stmt} (h : ∀ a ∈ items, ∀ span name body,
    a ≠ .classDecl span name body) :
    ImagesAdded T scopes r outer items map map where
  built _ _ himage := .inl himage
  present name info body hclass := by
    cases hclass with
    | here hmem _ => exact absurd rfl (h _ hmem _ _ _)
    | inside hmem _ _ => exact absurd rfl (h _ hmem _ _ _)
  kept _ image himage := ⟨image, himage⟩

theorem single {span : Span} {name : String} {body : List Stmt} {info : ClassInfo}
    {image : ClassImage}
    (h : ImagesAdded T scopes info.scopes.types (outer ++ name ++ ".") body map map₁)
    (hat : T.ClassAt r name (outer ++ name) info) (himage : image.Realises T scopes info body) :
    ImagesAdded T scopes r outer [.classDecl span name body] map
      (map₁.insert image.name image) where
  built key image' himage' := by
    have hmem : Stmt.classDecl span name body ∈ [Stmt.classDecl span name body] :=
      .head _
    rw [getElem?_insert_string] at himage'
    split at himage'
    next hkey =>
      cases himage'
      exact .inr ⟨name, info, body, .here hmem hat, himage.name_eq.symm.trans hkey, himage⟩
    · rcases h.built key image' himage' with himage' | ⟨name', info', body', hclass, hkey, hreal⟩
      · exact .inl himage'
      · exact .inr ⟨name', info', body', .inside hmem hat hclass, hkey, hreal⟩
  present name' info' body' hclass := by
    rw [getElem?_insert_string]
    split
    · exact ⟨image, rfl⟩
    next hkey =>
      cases hclass with
      | here hmem hat' =>
        cases List.mem_singleton.mp hmem
        obtain rfl := hat.unique hat'
        exact absurd himage.name_eq hkey
      | inside hmem hat' hin =>
        cases List.mem_singleton.mp hmem
        obtain rfl := hat.unique hat'
        exact h.present _ _ _ hin
  kept key image' himage' := by
    rw [getElem?_insert_string]
    split
    · exact ⟨image, rfl⟩
    · exact h.kept key image' himage'

theorem cons {a : Stmt} {rest : List Stmt} (h : ImagesAdded T scopes r outer [a] map map₁)
    (h' : ImagesAdded T scopes r outer rest map₁ map') :
    ImagesAdded T scopes r outer (a :: rest) map map' where
  built key image himage := by
    rcases h'.built key image himage with himage | ⟨name, info, body, hclass, hkey⟩
    · rcases h.built key image himage with himage | ⟨name, info, body, hclass, hkey⟩
      · exact .inl himage
      · exact .inr ⟨name, info, body, hclass.mono fun _ hm =>
          List.mem_cons.mpr (.inl (List.mem_singleton.mp hm)), hkey⟩
    · exact .inr ⟨name, info, body, hclass.mono fun _ => List.mem_cons_of_mem _, hkey⟩
  present name info body hclass := by
    have hsplit : T.HasClass r outer [a] name info body ∨
        T.HasClass r outer rest name info body := by
      cases hclass with
      | here hmem hat =>
        rcases hmem with _ | ⟨_, hmem⟩
        · exact .inl (.here (.head _) hat)
        · exact .inr (.here hmem hat)
      | inside hmem hat hin =>
        rcases hmem with _ | ⟨_, hmem⟩
        · exact .inl (.inside (.head _) hat hin)
        · exact .inr (.inside hmem hat hin)
    rcases hsplit with hclass | hclass
    · obtain ⟨image, himage⟩ := h.present name info body hclass
      exact h'.kept _ image himage
    · exact h'.present name info body hclass
  kept key image himage := by
    obtain ⟨image1, himage1⟩ := h.kept key image himage
    exact h'.kept key image1 himage1

end ImagesAdded

/-- Whether an item is part of the top-level code. -/
def Stmt.isCode : Stmt → Bool
  | .function .. | .classDecl .. => false
  | _ => true

/-- Statements one after the other have their code one after the other. -/
theorem Executes.append {T : Tables} {H : Home} {loop : Option LoopEnds} {l1 l2 : List Stmt}
    {Γ Γ1 Γ2 : Locals} {Δ Δ1 Δ2 : List TypeId} {b : Nat} {c1 c2 : List Instruction}
    (h : Executes T H loop (.stmts l1) Γ Δ b c1 Γ1 Δ1)
    (h' : Executes T H loop (.stmts l2) Γ1 Δ1 (b + c1.length) c2 Γ2 Δ2) :
    Executes T H loop (.stmts (l1 ++ l2)) Γ Δ b (c1 ++ c2) Γ2 Δ2 := by
  induction l1 generalizing Γ Δ b c1 with
  | nil =>
    cases h
    exact h'
  | cons a rest ih =>
    cases h with
    | cons ha hrest =>
      rw [List.append_assoc]
      refine .cons ha (ih hrest ?_)
      rwa [List.length_append, ← Nat.add_assoc] at h'

/-! ## Away from the top-level code -/

/-- The second state comes after the first, nothing has been added to the top-level code, but
routines may have been finished. -/
structure Detours (s s' : Lowering) : Prop extends Advances s s' [] where
  code : s'.code = s.code
  locals : s'.locals = s.locals
  slotCount : s'.slotCount = s.slotCount

theorem Aside.detours {s s' : Lowering} (h : Aside s s') : Detours s s' :=
  ⟨h.toAdvances, h.code, h.locals, h.slotCount⟩

namespace Detours

variable {s s1 s' : Lowering}

theorem refl (hs : s.Ready) : Detours s s := ((Emits.refl hs.toTidy).aside hs).detours

theorem trans (h : Detours s s1) (h' : Detours s1 s') (hs : s.Placed) : Detours s s' where
  toAdvances := h.toAdvances.trans h'.toAdvances hs
  code := h'.code.trans h.code
  locals := h'.locals.trans h.locals
  slotCount := h'.slotCount.trans h.slotCount

/-- What has been finished is kept apart from everything else. -/
theorem withFinished (h : Detours s s') (functions : Std.TreeMap String Routine)
    (classes : Std.TreeMap String ClassImage) : Detours s { s' with functions, classes } :=
  { h with ready := ⟨⟨h.ready.types, h.ready.pool⟩, h.ready.scopes, h.ready.scope_lt⟩ }

end Detours

/-- A state comes after the tables `B` in which everything has been declared, and the members of
classes are still the same. -/
structure Lowering.Follows (s : Lowering) (B : Tables) : Prop where
  sound : B.scopes.Sound
  types : B.types.Grows s.types
  pool : ∀ (i : Nat) c, B.pool[i]? = some c → s.pool.entries[i]? = some c
  scopes : B.scopes.Grows s.scopes
  size : B.scopes.size ≤ s.scopes.size
  classes : s.scopes.classes = B.scopes.classes
  symbols : ∀ j, j.index < B.scopes.size → ∀ sym ∈ (s.scopes.scope j).symbols,
    sym ∈ (B.scopes.scope j).symbols ∨ sym.slot?.isSome = true
  members : ∀ j, B.scopes.OwnsMembers j → j ≠ s.site.scope ∧
    (s.scopes.scope j).symbols = (B.scopes.scope j).symbols

namespace Lowering.Follows

variable {s s' : Lowering} {B T : Tables}

theorem advance {ps : List Nat} (hs : s.Follows B) (h : Advances s s' ps) : s'.Follows B where
  sound := hs.sound
  types := hs.types.trans h.types.toGrows
  pool i c hi := h.pool i c (hs.pool i c hi)
  scopes := hs.scopes.trans h.scopes.grows
  size := Nat.le_trans hs.size h.scopes.size
  classes := h.scopes.classes.trans hs.classes
  symbols j hj sym hsym := by
    have hlt := Nat.lt_of_lt_of_le hj hs.size
    by_cases hc : j = s.site.scope
    · subst hc
      obtain ⟨vars, heq, hvars⟩ := h.scopes.added
      rw [← Array.mem_toList_iff, heq] at hsym
      rcases List.mem_append.mp hsym with hsym | hsym
      · exact hs.symbols _ hj sym (Array.mem_toList_iff.mp hsym)
      · exact .inr (hvars sym hsym)
    · rw [h.scopes.symbols j hlt hc] at hsym
      exact hs.symbols j hj sym hsym
  members j hj := by
    obtain ⟨hne, hsymbols⟩ := hs.members j hj
    exact ⟨h.scope.symm ▸ hne,
      (h.scopes.symbols j (Nat.lt_of_lt_of_le hj.1 hs.size) hne).trans hsymbols⟩

theorem membersOf (hs : s.Follows B) {j : ScopeId} (hj : B.scopes.OwnsMembers j) :
    s.scopes.members j = B.scopes.members j := by
  rw [ScopeTable.members, (hs.members j hj).2, ScopeTable.members]

variable {r : TypeScopeId} {name : String} {info : ClassInfo}

theorem classAt (hs : s.Follows B) (hT : s.Within T) {qualified : String}
    (h : B.ClassAt r name qualified info) : T.ClassAt r name qualified info where
  lookup := hT.types.lookup _ _ _ (hs.types.lookup _ _ _ h.lookup)
  entry := h.entry.imp fun e he => ⟨hT.types.entries _ e (hs.types.entries _ e he.1), he.2⟩
  found := (hs.scopes.trans hT.scopes).classInfo? hs.sound h.found
  qualified_eq := h.qualified_eq
  constant := hT.pool _ _ (hs.pool _ _ h.constant)
  constructor := hT.pool _ _ (hs.pool _ _ h.constructor)
  init := (hs.scopes.trans hT.scopes).lookupHere (hs.sound.classInfo?_parts h.found).2 h.init

/-- The class that a declared item is found to be. -/
theorem classNamed (hs : s.Follows B) (ht : s.Tidy) {span span' : Span} {outer : String}
    {body : List Stmt} (h : Lower.classNamed r span name s = .ok info s')
    (hknown : B.ItemDeclared r outer (.classDecl span' name body)) :
    s' = s ∧ B.ClassAt r name (outer ++ name) info ∧
      B.Declared info.scopes.types (outer ++ name ++ ".") body := by
  obtain ⟨rfl, type, hlookup, hinfo⟩ := Lower.classNamed_ok h ht
  obtain ⟨info', hat, hbody⟩ := hknown
  obtain rfl : info'.type = type :=
    Option.some.inj ((hs.types.lookup _ _ _ hat.lookup).symm.trans hlookup)
  cases (hs.scopes.classInfo? hs.sound hat.found).symm.trans hinfo
  exact ⟨rfl, hat, hbody⟩

end Lowering.Follows

/-! ## Compiling bodies -/

namespace Lower

section

variable {options : CompileOptions} {s s1 s2 s' : Lowering} {span : Span} {r : TypeScopeId}
  {head : FunctionHead} {name : String} {code : List Stmt} {rt built : Routine} {info : ClassInfo}
    {u : Unit}
  {methods : Std.TreeMap String Routine}

/-- The steps that compile a body under its full name. -/
theorem namedBody_ok {role : SiteRole} {parent : ScopeId} {stem : String} {tag : String → Constant}
    {params : List TypeId} {result : TypeId} {index : UInt16}
    (h1 : resolveHead r span head s = .ok (params, result) s1)
    (hname : name = stem ++ head.name ++ s1.types.signature params)
    (h2 : constant (tag name) s1 = .ok index s2)
    (h3 : body options span role parent r head name index code s2 = .ok rt s') (hs : s.Placed)
    (hparent : s.scopes.Persistent parent) :
    Aside s s' ∧ ∀ T : Tables, s'.Ends options.natives T →
      rt.Named T role r stem tag head code name := by
  obtain ⟨hemit1, hmeans⟩ := resolveHead_ok h1 hs.toTidy
  obtain ⟨hemit2, hindex⟩ := constant_ok h2 hemit1.tidy
  have hemit := hemit1.trans hemit2
  have haside := hemit.aside hs.toReady
  obtain ⟨haside', hrt, hconstant, declared, result', Δ, hbody⟩ :=
    body_ok h3 (haside.placed hs) (hemit.scopes ▸ hparent)
  refine ⟨haside.trans haside' hs, fun T hT => ?_⟩
  have hbody := hbody T hT
  have hT2 := haside'.ends hT
  have hT1 := hemit2.ends hT2
  have hmeans' := hT1.headMeans hemit1.tidy hmeans
  obtain ⟨rfl, rfl⟩ := hmeans'.unique hbody.meaning
  refine ⟨⟨params, result, Δ, hbody, ?_⟩, hrt, index, hconstant, hT2.pool _ _ hindex⟩
  rw [hT1.types.signature hemit1.tidy.types.toRegular hT.sound.toRegular
    (hemit1.tidy.types.meanings_lt hmeans.1)]
  exact hname

theorem method_ok (h : method options info span head code s = .ok (name, rt) s') (hs : s.Placed)
    (hmethods : s.scopes.Persistent info.scopes.methods) :
    Aside s s' ∧ ∀ T : Tables, s'.Ends options.natives T →
      rt.Named T (.method info.type) info.scopes.types (info.scopes.qualified ++ ".") .method head
        code name := by
  simp only [method, methodName, mangle, bind_ok, get_bind, pure_ok] at h
  obtain ⟨⟨params, result⟩, s1, h1, name', s2, ⟨hname, rfl⟩, index, s3, h3, rt', s4, h4,
    heq, rfl⟩ := h
  cases heq
  exact namedBody_ok h1 hname.symm h3 h4 hs hmethods

theorem function_ok (h : function options span head code s = .ok u s') (hs : s.Placed) :
    Detours s s' ∧ s'.classes = s.classes ∧ ∀ T : Tables, s'.Ends options.natives T →
      RoutinesAdded T .function .top "" .function [.function span head code] s.functions
        s'.functions := by
  simp only [function, mangle, bind_ok, get_bind, pure_ok, modify_ok] at h
  obtain ⟨⟨params, result⟩, s1, h1, name, s2, ⟨hname, rfl⟩, index, s3, h3, rt, s4, h4,
    rfl⟩ := h
  have hname : name = "" ++ head.name ++ s1.types.signature params := by
    rw [String.empty_append]
    exact hname.symm
  obtain ⟨haside, hnamed⟩ := namedBody_ok h1 hname h3 h4 hs hs.scopes.persistent_top
  refine ⟨haside.detours.withFinished _ _, haside.classes, fun T hT => ?_⟩
  rw [← haside.functions]
  exact .single (hnamed T ⟨⟨hT.sound, hT.types, hT.pool, hT.scopes⟩, hT.natives_eq, hT.callables⟩)

/-! ## Compiling classes -/

/-- The items of a class have been compiled, its methods added to those already there. -/
def ClassCompiled (natives : List NativeSignature) (B : Tables) (info : ClassInfo) (outer : String)
    (items : List Stmt) (methods methods' : Std.TreeMap String Routine) (s s' : Lowering) : Prop :=
  Detours s s' ∧ s'.functions = s.functions ∧ ∀ T : Tables, s'.Ends natives T →
    RoutinesAdded T (.method info.type) info.scopes.types (info.scopes.qualified ++ ".") .method
      items
        methods methods' ∧
      ImagesAdded T B.scopes info.scopes.types outer items s.classes s'.classes

/-- A class has been compiled with all that is inside of it. -/
def ClassImaged (natives : List NativeSignature) (B : Tables) (r : TypeScopeId) (outer : String)
    (item : Stmt) (s s' : Lowering) : Prop :=
  Detours s s' ∧ s'.functions = s.functions ∧ ∀ T : Tables, s'.Ends natives T →
    ImagesAdded T B.scopes r outer [item] s.classes s'.classes

theorem finishClass_ok (h : finishClass info built methods s = .ok u s') :
    ∃ image : ClassImage, s' = { s with classes := s.classes.insert image.name image } ∧
      image = { name := info.scopes.qualified, type := info.type, constant := info.scopes.constant,
                members := ((s.scopes.members info.scopes.members).map fun sym =>
                  ⟨sym.name, sym.type, s.types.kindOf sym.type⟩).toArray,
                constructor := built, methods } := by
  simp only [finishClass, membersOf, bind_ok, get_bind, pure_ok, modify_ok] at h
  obtain ⟨_, _, ⟨rfl, rfl⟩, rfl⟩ := h
  exact ⟨_, rfl, rfl⟩

theorem class_ok {B : Tables} {outer : String} {body : List Stmt} (hs : s.Placed) (hB : s.Follows B)
    (hat : B.ClassAt r name (outer ++ name) info)
    (h1 : constructor options info span body s = .ok built s1)
    (h2 : s1.Placed → s1.Follows B → B.scopes.Persistent info.scopes.methods →
      ClassCompiled options.natives B info (outer ++ name ++ ".") body ∅ methods s1 s2)
    (h3 : finishClass info built methods s2 = .ok u s') :
    ClassImaged options.natives B r outer (.classDecl span name body) s s' := by
  obtain ⟨hmembers, hmethods⟩ := hs.scopes.classInfo?_parts
    (hB.scopes.classInfo? hB.sound hat.found)
  obtain ⟨haside, hname, hconstant, Δ, hbuilt⟩ := constructor_ok h1 hs hmembers.persistent hmethods
  have hB1 := hB.advance haside.toAdvances
  obtain ⟨hdetour, hfunctions, hcompiled⟩ :=
    h2 (haside.placed hs) hB1 (hB.sound.classInfo?_parts hat.found).2
  have hB2 := hB1.advance hdetour.toAdvances
  obtain ⟨image, rfl, himage⟩ := finishClass_ok h3
  refine ⟨(haside.detours.trans hdetour hs).withFinished _ _, hfunctions.trans haside.functions,
    fun T hT => ?_⟩
  have hT2 : s2.Ends options.natives T :=
    ⟨⟨hT.sound, hT.types, hT.pool, hT.scopes⟩, hT.natives_eq, hT.callables⟩
  have hT1 := hdetour.ends hT2
  obtain ⟨hmethods, himages⟩ := hcompiled T hT2
  rw [haside.classes] at himages
  refine himages.single (hB2.classAt hT2.toWithin hat) ?_
  rw [himage]
  exact {
    name_eq := rfl
    type_eq := rfl
    constant_eq := rfl
    members_eq := by
      simp only [hB2.membersOf (hB.sound.classInfo?_parts hat.found).1, hdetour.ready.types.kindOf]
    constructor := ⟨Δ, hbuilt T hT1⟩
    constructor_name := hname
    constructor_constant := hconstant
    methods := hmethods }

end

mutual

theorem classItems_ok {options : CompileOptions} {B : Tables} :
    ∀ (items : List Stmt) {info : ClassInfo} {outer : String}
      {methods methods' : Std.TreeMap String Routine} {s s' : Lowering},
      classItems options info methods items s = .ok methods' s' → s.Placed → s.Follows B →
      B.scopes.Persistent info.scopes.methods → B.Declared info.scopes.types outer items →
      ClassCompiled options.natives B info outer items methods methods' s s'
  | [], _, _, _, _, _, _, h, hs, _, _, _ => by
    simp only [classItems, pure_ok] at h
    obtain ⟨rfl, rfl⟩ := h
    exact ⟨.refl hs.toReady, rfl, fun _ _ =>
      ⟨.none fun _ h => (nomatch h), .none fun _ h => (nomatch h)⟩⟩
  | a :: rest, _, _, _, _, _, _, h, hs, hB, hinfo, hknown => by
    simp only [classItems, bind_ok] at h
    obtain ⟨methods1, s1, h1, h2⟩ := h
    obtain ⟨hd1, hf1, hadd1⟩ := classItem_ok a h1 hs hB hinfo hknown.1
    obtain ⟨hd2, hf2, hadd2⟩ := classItems_ok rest h2 (hd1.placed hs) (hB.advance hd1.toAdvances)
      hinfo hknown.2.2
    refine ⟨hd1.trans hd2 hs, hf2.trans hf1, fun T hT => ?_⟩
    obtain ⟨hm1, hi1⟩ := hadd1 T (hd2.ends hT)
    obtain ⟨hm2, hi2⟩ := hadd2 T hT
    exact ⟨hm1.cons hm2, hi1.cons hi2⟩

theorem classItem_ok {options : CompileOptions} {B : Tables} :
    ∀ (item : Stmt) {info : ClassInfo} {outer : String}
      {methods methods' : Std.TreeMap String Routine} {s s' : Lowering},
      classItem options info methods item s = .ok methods' s' → s.Placed → s.Follows B →
      B.scopes.Persistent info.scopes.methods → B.ItemDeclared info.scopes.types outer item →
      ClassCompiled options.natives B info outer [item] methods methods' s s'
  | item, info, outer, methods, methods', s, s', h, hs, hB, hinfo, hknown => by
    cases item with
    | function span head code =>
      simp only [classItem, bind_ok, pure_ok] at h
      obtain ⟨⟨name, rt⟩, s1, h1, rfl, rfl⟩ := h
      obtain ⟨haside, hnamed⟩ := method_ok h1 hs (hB.scopes.symbols _ hinfo).1
      refine ⟨haside.detours, haside.functions, fun T hT => ⟨.single (hnamed T hT), ?_⟩⟩
      rw [haside.classes]
      exact .none (by simp)
    | classDecl span name items =>
      simp only [classItem, bind_ok, pure_ok] at h
      obtain ⟨inner, s1, h1, built, s2, h2, inside, s3, h3, _, s4, h4, rfl, rfl⟩ := h
      obtain ⟨rfl, hat, hbody⟩ := hB.classNamed hs.toTidy h1 hknown
      obtain ⟨hd, hf, hadd⟩ := class_ok hs hB hat h2
        (fun hs2 hB2 hinfo2 => classItems_ok items h3 hs2 hB2 hinfo2 hbody) h4
      exact ⟨hd, hf, fun T hT => ⟨.none (by simp), hadd T hT⟩⟩
    | _ =>
      simp only [classItem, pure_ok] at h
      obtain ⟨rfl, rfl⟩ := h
      exact ⟨.refl hs.toReady, rfl, fun _ _ => ⟨.none (by simp), .none (by simp)⟩⟩

end

/-! ## Compiling items -/

/-- Top-level items have been compiled: the statements among them into code, the others into
routines. -/
def ItemsCompiled (natives : List NativeSignature) (B : Tables) (items : List Stmt)
    (s s' : Lowering) : Prop :=
  Advances s s' [] ∧ (∃ code, s'.code = s.code ++ code ∧ Slotted natives s s' fun T Δ Δ' =>
    Executes T s.home none (.stmts (items.filter Stmt.isCode)) s.locals Δ s.code.length code
      s'.locals Δ') ∧
  ∀ T : Tables, s'.Ends natives T →
    RoutinesAdded T .function .top "" .function items s.functions s'.functions ∧
      ImagesAdded T B.scopes .top "" items s.classes s'.classes

section

variable {options : CompileOptions} {B : Tables} {s s1 s' : Lowering} {item : Stmt} {u : Unit}

theorem ItemsCompiled.detour (h : Detours s s') (hitem : item.isCode = false)
    (hadd : ∀ T : Tables, s'.Ends options.natives T →
      RoutinesAdded T .function .top "" .function [item] s.functions s'.functions ∧
    ImagesAdded T B.scopes .top "" [item] s.classes s'.classes) :
    ItemsCompiled options.natives B [item] s s' := by
  refine ⟨h.toAdvances, ⟨[], by rw [h.code, List.append_nil], fun Δ hΔ => ⟨Δ, ?_, fun T _ => ?_⟩⟩,
    hadd⟩
  · rw [hΔ, h.slotCount]
  · rw [List.filter_cons_of_neg (by simp [hitem]), h.locals]
    exact .nil

theorem item_ok (h : Lower.item options item s = .ok u s') (hs : s.Placed)
    (hloops : s.site.loops = []) (hB : s.Follows B) (hknown : B.ItemDeclared .top "" item) :
    ItemsCompiled options.natives B [item] s s' := by
  have hcode : item.isCode = true → stmt options.natives item s = .ok u s' →
      ItemsCompiled options.natives B [item] s s' := by
    intro hitem h
    obtain ⟨code, hproc, hcode, hexec⟩ := ((stmt_ok item h hs).single hs).outside hloops
    refine ⟨hproc.toAdvances, ⟨code, hcode, ?_⟩, fun T hT => ?_⟩
    · rwa [List.filter_cons_of_pos hitem]
    · rw [hproc.functions, hproc.classes]
      refine ⟨.none fun a ha => ?_, .none fun a ha => ?_⟩ <;>
      · rw [List.mem_singleton.mp ha]
        rintro _ _ _ rfl
        cases hitem
  cases item with
  | function span head code =>
    obtain ⟨hd, hclasses, hadd⟩ := function_ok h hs
    refine .detour hd rfl fun T hT => ⟨hadd T hT, ?_⟩
    rw [hclasses]
    exact .none (by simp)
  | classDecl span name items =>
    simp only [Lower.item, bind_ok] at h
    obtain ⟨info, s1, h1, built, s2, h2, methods, s3, h3, h4⟩ := h
    obtain ⟨rfl, hat, hbody⟩ := hB.classNamed hs.toTidy h1 hknown
    obtain ⟨hd, hf, hadd⟩ := class_ok hs hB hat h2
      (fun hs2 hB2 hinfo2 => classItems_ok items h3 hs2 hB2 hinfo2 hbody) h4
    refine .detour hd rfl fun T hT => ⟨?_, hadd T hT⟩
    rw [hf]
    exact .none (by simp)
  | _ => exact hcode rfl h

theorem ItemsCompiled.cons {natives : List NativeSignature} {a : Stmt} {rest : List Stmt}
    (h : ItemsCompiled natives B [a] s s1) (h' : ItemsCompiled natives B rest s1 s')
    (hs : s.Placed) : ItemsCompiled natives B (a :: rest) s s' := by
  obtain ⟨hadv, ⟨code, hcode, hexec⟩, hadd⟩ := h
  obtain ⟨hadv', ⟨code', hcode', hexec'⟩, hadd'⟩ := h'
  refine ⟨hadv.trans hadv' hs, ⟨code ++ code', by rw [hcode', hcode, List.append_assoc],
    fun Δ hΔ => ?_⟩, fun T hT => ?_⟩
  · obtain ⟨Δ1, hΔ1, hexec⟩ := hexec Δ hΔ
    obtain ⟨Δ', hΔ', hexec'⟩ := hexec' Δ1 hΔ1
    refine ⟨Δ', hΔ', fun T hT => ?_⟩
    have h1 := hexec T (hadv'.ends hT)
    have h2 := hexec' T hT
    rw [hadv.home, hcode, List.length_append] at h2
    rw [← List.singleton_append, List.filter_append]
    exact h1.append h2
  · obtain ⟨hr, hi⟩ := hadd T (hadv'.ends hT)
    obtain ⟨hr', hi'⟩ := hadd' T hT
    exact ⟨hr.cons hr', hi.cons hi'⟩

theorem items_ok {items : List Stmt} (h : items.forM (Lower.item options) s = .ok u s')
    (hs : s.Placed)
    (hloops : s.site.loops = []) (hB : s.Follows B) (hknown : B.Declared .top "" items) :
    ItemsCompiled options.natives B items s s' := by
  induction items generalizing s with
  | nil =>
    cases h
    exact ⟨(Detours.refl hs.toReady).toAdvances, ⟨[], (List.append_nil _).symm,
      fun Δ hΔ => ⟨Δ, hΔ, fun _ _ => .nil⟩⟩,
      fun _ _ => ⟨.none fun _ h => (nomatch h), .none fun _ h => (nomatch h)⟩⟩
  | cons a rest ih =>
    simp only [List.forM_eq_forM, List.forM_cons, bind_ok] at h ih
    obtain ⟨_, s1, h1, h2⟩ := h
    have ha := item_ok h1 hs hloops hB hknown.1
    have hadv := ha.1
    refine ha.cons (ih h2 (hadv.placed hs) ?_ (hB.advance hadv) hknown.2.2) hs
    rw [hadv.loops, hloops]
    rfl

end

end Lower

end Bytescript
