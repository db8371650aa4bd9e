import Bytescript.Proofs.Lowering.Steps

/-!
# What names are compiled to

Each look-up that compiling makes is read off the tables at the end of compiling. A type term means
there what it was resolved to (`Resolving.resolveType`), a class that was found is found again, and
a call was compiled to what the final tables select for it (`Selects`), a symbol or a native
(`Callee`).
-/

namespace Bytescript

/-- The tables at the end of compiling. -/
structure Tables where
  types : TypeTable
  pool : Array Constant
  scopes : ScopeTable
  natives : List NativeSignature

/-- The tables of a state have grown into the final ones. -/
structure Lowering.Within (s : Lowering) (T : Tables) : Prop where
  sound : T.types.Sound
  types : s.types.Grows T.types
  pool : ∀ (i : Nat) c, s.pool.entries[i]? = some c → T.pool[i]? = some c
  scopes : s.scopes.Grows T.scopes

variable {s s' : Lowering}

theorem Moves.within {T : Tables} (h : Moves s s') (hT : s'.Within T) : s.Within T where
  sound := hT.sound
  types := h.types.toGrows.trans hT.types
  pool i c hi := hT.pool i c (h.pool i c hi)
  scopes := h.scopes ▸ hT.scopes

/-- A state in which all functions and methods are declared has grown into the final tables. -/
structure Lowering.Ends (s : Lowering) (natives : List NativeSignature) (T : Tables) : Prop
    extends s.Within T where
  natives_eq : T.natives = natives
  callables : ∀ j, s.scopes.Persistent j → T.scopes.callables j = s.scopes.callables j

theorem Moves.ends {s s' : Lowering} {natives : List NativeSignature} {T : Tables} (h : Moves s s')
    (hT : s'.Ends natives T) : s.Ends natives T where
  toWithin := h.within hT.toWithin
  natives_eq := hT.natives_eq
  callables := h.scopes ▸ hT.callables

namespace Lower

/-! ## Types -/

section

variable {s s' : Lowering} {span : Span} {id : TypeId}

theorem generic_ok {kind : TypeKind} {args : List TypeId} (h : generic span kind args s = .ok id s')
    (ht : s.Tidy) (hargs : ∀ a ∈ args, a.index < s.types.size) :
    Emits s s' [] ∧ s'.types.generic? kind args = some id := by
  obtain ⟨types, hin, rfl⟩ := onTypes_ok h
  obtain ⟨hsound, hgrows, hid⟩ := ht.types.insertGeneric hargs hin
  exact ⟨⟨⟨⟨hsound, ht.pool⟩, hgrows, fun _ _ hi => hi, rfl⟩, (List.append_nil _).symm⟩, hid⟩

/-- A way to get from state to state on which what has a meaning keeps it, and a structural type
that is asked for gets one. -/
structure Resolving (Inv : Lowering → Prop) (Rel : Lowering → Lowering → Prop) : Prop where
  refl : ∀ {s}, Inv s → Rel s s
  trans : ∀ {s s' s''}, Rel s s' → Rel s' s'' → Rel s s''
  inv : ∀ {s s'}, Rel s s' → Inv s → Inv s'
  answers : ∀ {s s'}, Rel s s' → Inv s → s.types.Answers s'.types
  generic : ∀ {span kind args id s s'}, generic span kind args s = .ok id s' → Inv s →
    s.types.Applies kind args → Rel s s' ∧ s'.types.generic? kind args = some id

end

namespace Resolving

variable {Inv : Lowering → Prop} {Rel : Lowering → Lowering → Prop} (hR : Resolving Inv Rel)
  {scope : TypeScopeId} {span : Span}

include hR

section

variable {s : Lowering} (hs : Inv s)

include hs

theorem meaning_lt {term : TypeTerm} {id : TypeId} (h : s.types.meaning scope term = some id) :
    id.index < s.types.size := ((hR.answers (hR.refl hs) hs).meaning h).2

theorem meanings_lt {terms : List TypeTerm} {ids : List TypeId}
    (h : s.types.meanings scope terms = some ids) : ∀ id ∈ ids, id.index < s.types.size :=
  ((hR.answers (hR.refl hs) hs).meanings h).2

end

mutual

/-- The type that a term is resolved to is what it means from then on. -/
theorem resolveType : ∀ {term : TypeTerm} {id : TypeId} {s s' : Lowering},
    resolveType scope span term s = .ok id s' → Inv s →
      Rel s s' ∧ s'.types.meaning scope term = some id
  | .named name, id, s, s', h, hs => by
    rw [Lower.resolveType, get_bind] at h
    cases hl : s.types.lookup scope name with
    | none => simp [hl] at h
    | some found =>
      simp only [hl, ite_ok, pure_ok, fail_ok, and_false, or_false] at h
      obtain ⟨-, rfl, rfl⟩ := h
      exact ⟨hR.refl hs, by simpa only [TypeTable.meaning] using hl⟩
  | .array element, id, s, s', h, hs => by
    simp only [Lower.resolveType, bind_ok] at h
    obtain ⟨a, s1, h1, h⟩ := h
    obtain ⟨hrel1, ha⟩ := resolveType h1 hs
    have hs1 := hR.inv hrel1 hs
    obtain ⟨hrel2, hid⟩ := hR.generic h hs1 (.array (hR.meaning_lt hs1 ha))
    obtain ⟨ha, -⟩ := (hR.answers hrel2 hs1).meaning ha
    exact ⟨hR.trans hrel1 hrel2, by simp [TypeTable.meaning, ha, hid]⟩
  | .tuple elements, id, s, s', h, hs => by
    simp only [Lower.resolveType, bind_ok] at h
    obtain ⟨as, s1, h1, h⟩ := h
    obtain ⟨hrel1, has⟩ := resolveTypes h1 hs
    have hs1 := hR.inv hrel1 hs
    obtain ⟨hrel2, hid⟩ := hR.generic h hs1 ⟨.inr (.inl rfl), nofun, hR.meanings_lt hs1 has⟩
    obtain ⟨has, -⟩ := (hR.answers hrel2 hs1).meanings has
    exact ⟨hR.trans hrel1 hrel2, by simp [TypeTable.meaning, has, hid]⟩
  | .function params result, id, s, s', h, hs => by
    simp only [Lower.resolveType, bind_ok] at h
    obtain ⟨as, s1, h1, r, s2, h2, h⟩ := h
    obtain ⟨hrel1, has⟩ := resolveTypes h1 hs
    have hs1 := hR.inv hrel1 hs
    obtain ⟨hrel2, hr⟩ := resolveType h2 hs1
    have hs2 := hR.inv hrel2 hs1
    obtain ⟨has, -⟩ := (hR.answers hrel2 hs1).meanings has
    have hlt : ∀ b ∈ as ++ [r], b.index < s2.types.size := by
      intro b hb
      rcases List.mem_append.mp hb with hb | hb
      · exact hR.meanings_lt hs2 has b hb
      · exact List.mem_singleton.mp hb ▸ hR.meaning_lt hs2 hr
    obtain ⟨hrel3, hid⟩ := hR.generic h hs2 ⟨.inr (.inr rfl), fun _ => by simp, hlt⟩
    have hanswers := hR.answers hrel3 hs2
    exact ⟨hR.trans (hR.trans hrel1 hrel2) hrel3,
      by simp [TypeTable.meaning, (hanswers.meanings has).1, (hanswers.meaning hr).1, hid]⟩

theorem resolveTypes : ∀ {terms : List TypeTerm} {ids : List TypeId} {s s' : Lowering},
    resolveTypes scope span terms s = .ok ids s' → Inv s →
      Rel s s' ∧ s'.types.meanings scope terms = some ids
  | [], ids, s, s', h, hs => by
    simp only [Lower.resolveTypes, pure_ok] at h
    obtain ⟨rfl, rfl⟩ := h
    exact ⟨hR.refl hs, by simp [TypeTable.meanings]⟩
  | term :: terms, ids, s, s', h, hs => by
    simp only [Lower.resolveTypes, bind_ok, pure_ok] at h
    obtain ⟨a, s1, h1, as, s2, h2, rfl, rfl⟩ := h
    obtain ⟨hrel1, ha⟩ := resolveType h1 hs
    have hs1 := hR.inv hrel1 hs
    obtain ⟨hrel2, has⟩ := resolveTypes h2 hs1
    exact ⟨hR.trans hrel1 hrel2,
      by simp [TypeTable.meanings, ((hR.answers hrel2 hs1).meaning ha).1, has]⟩

end

variable {P : TypeId → Prop} (hP : ∀ {s id}, Inv s → ¬ s.types.same id .void = true → P id)
  {s s' : Lowering}

include hP

theorem variableType {name : String} {term : TypeTerm} {id : TypeId}
    (h : variableType scope span name term s = .ok id s') (hs : Inv s) :
    Rel s s' ∧ s'.types.meaning scope term = some id ∧ P id := by
  simp only [Lower.variableType, bind_ok, isSame_bind, fails_ok, pure_ok] at h
  obtain ⟨a, s1, h1, hsame, rfl, rfl⟩ := h
  obtain ⟨hrel, ha⟩ := hR.resolveType h1 hs
  exact ⟨hrel, ha, hP (hR.inv hrel hs) hsame⟩

theorem paramTypes {params : List Param} {ids : List TypeId}
    (h : params.mapM (fun p => Lower.variableType scope span p.name p.type) s = .ok ids s')
    (hs : Inv s) :
    Rel s s' ∧ s'.types.meanings scope (params.map Param.type) = some ids ∧ ∀ id ∈ ids, P id := by
  induction params generalizing s ids with
  | nil =>
    simp only [List.mapM_nil, pure_ok] at h
    obtain ⟨rfl, rfl⟩ := h
    exact ⟨hR.refl hs, by simp [TypeTable.meanings], fun _ hid => absurd hid List.not_mem_nil⟩
  | cons p params ih =>
    simp only [List.mapM_cons, bind_ok, pure_ok] at h
    obtain ⟨a, s1, h1, as, s2, h2, rfl, rfl⟩ := h
    obtain ⟨hrel1, ha, hvoid⟩ := hR.variableType hP h1 hs
    have hs1 := hR.inv hrel1 hs
    obtain ⟨hrel2, has, hvoids⟩ := ih h2 hs1
    exact ⟨hR.trans hrel1 hrel2, by simp [TypeTable.meanings, ((hR.answers hrel2 hs1).meaning ha).1,
      has], List.forall_mem_cons.mpr ⟨hvoid, hvoids⟩⟩

theorem resolveHead {head : FunctionHead} {params : List TypeId} {result : TypeId}
    (h : resolveHead scope span head s = .ok (params, result) s') (hs : Inv s) :
    Rel s s' ∧ s'.types.meanings scope (head.params.map Param.type) = some params ∧
      s'.types.meaning scope head.result = some result ∧ ∀ id ∈ params, P id := by
  simp only [Lower.resolveHead, bind_ok, pure_ok, Prod.mk.injEq] at h
  obtain ⟨ids, s1, h1, r, s2, h2, ⟨rfl, rfl⟩, rfl⟩ := h
  obtain ⟨hrel1, hids, hvoids⟩ := hR.paramTypes hP h1 hs
  have hs1 := hR.inv hrel1 hs
  obtain ⟨hrel2, hr⟩ := hR.resolveType h2 hs1
  exact ⟨hR.trans hrel1 hrel2, ((hR.answers hrel2 hs1).meanings hids).1, hr, hvoids⟩

end Resolving

theorem emits_resolving : Resolving Lowering.Tidy (Emits · · []) where
  refl := .refl
  trans := .trans
  inv h _ := h.tidy
  answers h hs := h.types.toGrows.answers hs.types h.tidy.types
  generic h hs ha := generic_ok h hs ha.args

section

variable {s s' : Lowering} {span : Span} {id : TypeId} {scope : TypeScopeId}

theorem resolveType_ok {term : TypeTerm} (h : resolveType scope span term s = .ok id s')
    (ht : s.Tidy) :
    Emits s s' [] ∧ s'.types.meaning scope term = some id := emits_resolving.resolveType h ht

theorem ne_void_of_tidy (ht : s.Tidy) (h : ¬ s.types.same id .void = true) : id ≠ .void := by
  rwa [ht.types.same, decide_eq_true_eq] at h

theorem variableType_ok {name : String} {term : TypeTerm}
    (h : variableType scope span name term s = .ok id s') (ht : s.Tidy) :
    Emits s s' [] ∧ s'.types.meaning scope term = some id ∧ id ≠ .void :=
  emits_resolving.variableType ne_void_of_tidy h ht

end

end Lower

/-- What a head means: the types of the parameters, which have values, and of the result. -/
def TypeTable.HeadMeans (t : TypeTable) (scope : TypeScopeId) (head : FunctionHead)
    (params : List TypeId) (result : TypeId) : Prop :=
  t.meanings scope (head.params.map Param.type) = some params ∧
    t.meaning scope head.result = some result ∧ ∀ id ∈ params, id ≠ .void

theorem Lower.resolveHead_ok {scope : TypeScopeId} {span : Span} {head : FunctionHead}
    {params : List TypeId}
    {result : TypeId} (h : resolveHead scope span head s = .ok (params, result) s') (ht : s.Tidy) :
    Emits s s' [] ∧ s'.types.HeadMeans scope head params result :=
  emits_resolving.resolveHead ne_void_of_tidy h ht

namespace Lowering.Within

variable {s : Lowering} {T : Tables} (hT : s.Within T) (ht : s.Tidy)

include hT ht

variable {scope : TypeScopeId}

theorem meaning {term : TypeTerm} {id : TypeId} (h : s.types.meaning scope term = some id) :
    T.types.meaning scope term = some id :=
  hT.types.meaning ht.types hT.sound h

theorem headMeans {head : FunctionHead} {params : List TypeId} {result : TypeId}
    (h : s.types.HeadMeans scope head params result) : T.types.HeadMeans scope head params result :=
  ⟨hT.types.meanings ht.types hT.sound h.1, hT.meaning ht h.2.1, h.2.2⟩

end Lowering.Within

/-! ## Classes -/

/-- What is known about the class of a type. -/
def ScopeTable.classInfo? (t : ScopeTable) (type : TypeId) : Option Lower.ClassInfo := do
  let scopes ← (← t.lookupClass type).class?
  let constructor ← (← t.lookupHere scopes.methods Lower.constructorName).callee?
  return { type, scopes, constructor }

namespace ScopeTable

variable {t : ScopeTable} {type : TypeId} {info : Lower.ClassInfo}

theorem lookupClass_mem {sym : Symbol} (h : t.lookupClass type = some sym) :
    ∃ j position, t.classes.lookup type = some (j, position) ∧ sym ∈ (t.scope j).symbols ∧
      sym.type = type := by
  simp only [lookupClass, Option.bind_eq_bind, Option.bind_eq_some_iff] at h
  obtain ⟨⟨j, position⟩, hplace, found, hfound, h⟩ := h
  split at h
  next hsym =>
    cases h
    exact ⟨j, position, hplace, Array.mem_of_getElem? hfound, hsym.1⟩
  · cases h

theorem Sound.classInfo?_parts (ht : t.Sound) (h : t.classInfo? type = some info) :
    t.OwnsMembers info.scopes.members ∧ t.Persistent info.scopes.methods := by
  simp only [classInfo?, Option.bind_eq_bind, Option.bind_eq_some_iff] at h
  obtain ⟨sym, hsym, scopes, hscopes, ctor, hctor, callee, hcallee, h⟩ := h
  cases h
  obtain ⟨j, position, -, hmem, -⟩ := lookupClass_mem hsym
  exact ht.parts j sym scopes hmem hscopes

theorem Grows.classInfo? {t' : ScopeTable} (h : t.Grows t') (ht : t.Sound)
    (hinfo : t.classInfo? type = some info) : t'.classInfo? type = some info := by
  obtain ⟨-, hmethods⟩ := ht.classInfo?_parts hinfo
  simp only [ScopeTable.classInfo?, Option.bind_eq_bind, Option.bind_eq_some_iff] at hinfo ⊢
  obtain ⟨sym, hsym, scopes, hscopes, ctor, hctor, callee, hcallee, hinfo⟩ := hinfo
  cases hinfo
  exact ⟨sym, h.lookupClass ht hsym, scopes, hscopes, ctor, h.lookupHere hmethods hctor, callee,
    hcallee, rfl⟩

theorem classInfo?_type (h : t.classInfo? type = some info) : info.type = type := by
  simp only [classInfo?, Option.bind_eq_bind, Option.bind_eq_some_iff] at h
  obtain ⟨_, -, _, -, _, -, _, -, h⟩ := h
  cases h
  rfl

end ScopeTable

namespace Lower

section

variable {s s' : Lowering} {type : TypeId} {span : Span} {info : ClassInfo}

theorem classOfType?_ok {info? : Option ClassInfo} (h : classOfType? type s = .ok info? s')
    (ht : s.Tidy) :
    s' = s ∧ info? = s.scopes.classInfo? type := by
  have : classOfType? type s = .ok (s.scopes.classInfo? (s.types.resolve type)) s := rfl
  rw [this, ht.types.resolve] at h
  cases h
  exact ⟨rfl, rfl⟩

theorem classOf_ok (h : classOf span type s = .ok info s') (ht : s.Tidy) :
    s' = s ∧ s.scopes.classInfo? type = some info := by
  simp only [classOf, bind_ok] at h
  obtain ⟨info?, s1, h1, h⟩ := h
  obtain ⟨rfl, rfl⟩ := classOfType?_ok h1 ht
  cases hinfo : s1.scopes.classInfo? type with
  | none => simp [hinfo] at h
  | some found =>
    simp only [hinfo, pure_ok] at h
    obtain ⟨rfl, rfl⟩ := h
    exact ⟨rfl, rfl⟩

theorem classNamed_ok {scope : TypeScopeId} {name : String}
    (h : classNamed scope span name s = .ok info s') (ht : s.Tidy) :
    s' = s ∧ ∃ type, s.types.lookup scope name = some type ∧
      s.scopes.classInfo? type = some info := by
  rw [classNamed, get_bind] at h
  cases hl : s.types.lookup scope name with
  | none => simp [hl] at h
  | some type =>
    simp only [hl, bind_ok] at h
    obtain ⟨info?, s1, h1, h⟩ := h
    obtain ⟨rfl, rfl⟩ := classOfType?_ok h1 ht
    cases hinfo : s1.scopes.classInfo? type with
    | none => simp [hinfo] at h
    | some found =>
      simp only [hinfo, pure_ok] at h
      obtain ⟨rfl, rfl⟩ := h
      exact ⟨rfl, type, rfl, hinfo⟩

end

end Lower

/-! ## Members -/

/-- A class has a member of a name in a slot. -/
def Tables.HasMember (T : Tables) (info : Lower.ClassInfo) (name : String) (slot : UInt16)
    (type : TypeId) : Prop :=
  T.scopes.lookupHere info.scopes.members name = some ⟨name, type, .variable slot⟩

namespace Lower

section

variable {s s' : Lowering} {info : ClassInfo} {name : String} {found : Option (UInt16 × TypeId)}

theorem member?_ok (h : member? info name s = .ok found s') :
    s' = s ∧ ∀ slot type, found = some (slot, type) →
      s.scopes.lookupHere info.scopes.members name = some ⟨name, type, .variable slot⟩ := by
  cases h
  refine ⟨rfl, fun slot type hfound => ?_⟩
  simp only [Option.bind_eq_bind, Option.bind_eq_some_iff] at hfound
  obtain ⟨sym, hsym, slot', hslot, hfound⟩ := hfound
  cases hfound
  have hname : sym.name = name := by
    simpa using Array.find?_some hsym
  obtain ⟨name', type', role⟩ := sym
  cases role <;> simp [Symbol.slot?] at hslot
  subst hslot
  cases hname
  exact hsym

theorem member_ok {span : Span} {slot : UInt16} {type : TypeId}
    (h : member span info name s = .ok (slot, type) s') :
    s' = s ∧ s.scopes.lookupHere info.scopes.members name = some ⟨name, type, .variable slot⟩ := by
  simp only [member, bind_ok] at h
  obtain ⟨found, s1, h1, h⟩ := h
  obtain ⟨rfl, hfound⟩ := member?_ok h1
  cases found with
  | none => simp at h
  | some found =>
    simp only [pure_ok] at h
    obtain ⟨rfl, rfl⟩ := h
    exact ⟨rfl, hfound slot type rfl⟩

theorem localNamed?_ok (h : localNamed? name s = .ok found s') :
    s' = s ∧ found = s.scopes.locals s.site.scope name := by
  cases h
  refine ⟨rfl, ?_⟩
  unfold ScopeTable.locals
  cases s.scopes.lookupVariable s.site.scope name <;> rfl

end

end Lower

/-! ## Callees -/

/-- What a call instruction may stand for, with all that it takes off the stack, the first lowest,
and what it leaves there: a function, a method with its receiver, or a native. -/
inductive Callee (T : Tables) : Instruction → List TypeId → TypeId → Prop
  | function {name params result index} :
    ⟨name, result, .function params index⟩ ∈ (T.scopes.scope .top).symbols →
    Callee T (.call index) params result
  | method {type info name params result index} :
    T.scopes.classInfo? type = some info →
    ⟨name, result, .method params index⟩ ∈ (T.scopes.scope info.scopes.methods).symbols →
    Callee T (.call index) (type :: params) result
  | native {n params result index} :
    T.natives[index.toNat]? = some n →
    n.params.map (T.types.lookup .top) = params.map some →
    T.types.lookup .top n.result = some result →
    Callee T (.callNative index) params result

namespace Lower

variable {sym : Symbol} {c : Candidate}

theorem ofSymbol?_eq_some (h : Candidate.ofSymbol? sym = some c) :
    (sym.isFunction = true → sym = ⟨sym.name, c.result, .function c.params c.callee⟩) ∧
      (sym.isMethod = true → sym = ⟨sym.name, c.result, .method c.params c.callee⟩) := by
  obtain ⟨name, type, role⟩ := sym
  constructor <;> intro hrole <;> cases role <;> simp [Symbol.isFunction, Symbol.isMethod] at hrole
  all_goals
    simp only [Candidate.ofSymbol?, Symbol.params?, Symbol.callee?, Option.bind_eq_bind,
      Option.bind_some, Option.pure_def, Option.some.injEq] at h
    subst h
    rfl

end Lower

namespace Tables

open Lower (Candidate ClassInfo)

/-- The functions of a name, as a call of it sees them. -/
def functionsNamed (T : Tables) (name : String) : List Candidate :=
  ((T.scopes.callables .top).filter fun sym => sym.isFunction && sym.name = name).filterMap
    Candidate.ofSymbol?

/-- The methods of a name that a class has, as a call of it sees them. -/
def methodsNamed (T : Tables) (info : ClassInfo) (name : String) : List Candidate :=
  ((T.scopes.callables info.scopes.methods).filter fun sym =>
    sym.isMethod && sym.name = name).filterMap Candidate.ofSymbol?

variable {T : Tables} {name : String} {c : Candidate}

theorem mem_functionsNamed :
    c ∈ T.functionsNamed name ↔
      ⟨name, c.result, .function c.params c.callee⟩ ∈ (T.scopes.scope .top).symbols := by
  simp only [functionsNamed, ScopeTable.callables, List.mem_filterMap, List.mem_filter,
    Array.mem_toList_iff, Bool.and_eq_true, decide_eq_true_eq]
  constructor
  · rintro ⟨sym, ⟨⟨hmem, -⟩, hfun, rfl⟩, hc⟩
    rwa [← (Lower.ofSymbol?_eq_some hc).1 hfun]
  · exact fun h => ⟨_, ⟨⟨h, rfl⟩, rfl, rfl⟩, rfl⟩

theorem mem_methodsNamed {info : ClassInfo} :
    c ∈ T.methodsNamed info name ↔
      ⟨name, c.result, .method c.params c.callee⟩ ∈
        (T.scopes.scope info.scopes.methods).symbols := by
  simp only [methodsNamed, ScopeTable.callables, List.mem_filterMap, List.mem_filter,
    Array.mem_toList_iff, Bool.and_eq_true, decide_eq_true_eq]
  constructor
  · rintro ⟨sym, ⟨⟨hmem, -⟩, hmethod, rfl⟩, hc⟩
    rwa [← (Lower.ofSymbol?_eq_some hc).2 hmethod]
  · exact fun h => ⟨_, ⟨⟨h, rfl⟩, rfl, rfl⟩, rfl⟩

end Tables

/-- What is called with arguments of the given types, out of some candidates: the only one that
takes so many arguments or, if several do, one that takes arguments of just these types. -/
inductive Selects (candidates : List Lower.Candidate) (found : List TypeId) (c : Lower.Candidate) :
    Prop
  | only : candidates.filter (·.params.length = found.length) = [c] → Selects candidates found c
  | among : 2 ≤ (candidates.filter (·.params.length = found.length)).length → c ∈ candidates →
    c.params = found → Selects candidates found c

namespace Selects

variable {T : Tables} {found : List TypeId} {c : Lower.Candidate}
  {candidates : List Lower.Candidate} {name : String}

theorem mem (h : Selects candidates found c) : c ∈ candidates := by
  cases h with
  | only h => exact (List.mem_filter.mp (h ▸ List.mem_singleton_self c)).1
  | among _ h _ => exact h

theorem length_eq (h : Selects candidates found c) : c.params.length = found.length := by
  cases h with
  | only h =>
    have hmem : c ∈ candidates.filter (·.params.length = found.length) :=
      h ▸ List.mem_singleton_self c
    simpa using (List.mem_filter.mp hmem).2
  | among _ _ h => rw [h]

theorem function (h : Selects (T.functionsNamed name) found c) :
    Callee T (.call c.callee) c.params c.result :=
  .function (Tables.mem_functionsNamed.mp h.mem)

theorem method {cls : TypeId} {info : Lower.ClassInfo}
    (h : Selects (T.methodsNamed info name) found c) (hinfo : T.scopes.classInfo? cls = some info) :
    Callee T (.call c.callee) (cls :: c.params) c.result :=
  .method hinfo (Tables.mem_methodsNamed.mp h.mem)

end Selects

namespace Lower

section

variable {s s' : Lowering} {name : String} {found : List Candidate} {type : TypeId} {span : Span}

theorem functionsNamed_ok (h : functionsNamed name s = .ok found s') (hs : s.scopes.Sound)
    (hscope : s.site.scope.index < s.scopes.size) :
    s' = s ∧ ∀ natives (T : Tables), s.Ends natives T → found = T.functionsNamed name := by
  cases h
  refine ⟨rfl, fun natives T hT => ?_⟩
  rw [Tables.functionsNamed, hT.callables _ hs.persistent_top, hs.lookupFunctions hscope]

theorem methodsNamed_ok {info : ClassInfo} (h : methodsNamed info name s = .ok found s')
    (hs : s.scopes.Sound) (hinfo : s.scopes.classInfo? type = some info) :
    s' = s ∧ ∀ natives (T : Tables), s.Ends natives T → found = T.methodsNamed info name := by
  cases h
  refine ⟨rfl, fun natives T hT => ?_⟩
  rw [Tables.methodsNamed, hT.callables _ (hs.classInfo?_parts hinfo).2,
    ScopeTable.lookupMethods_eq]

theorem nativeType_ok (h : nativeType span name s = .ok type s') :
    s' = s ∧ s.types.lookup .top name = some type := by
  rw [nativeType, get_bind] at h
  cases hl : s.types.lookup .top name with
  | none => simp [hl] at h
  | some found =>
    simp only [hl, pure_ok] at h
    obtain ⟨rfl, rfl⟩ := h
    exact ⟨rfl, rfl⟩

theorem nativeTypes_ok {names : List String} {types : List TypeId}
    (h : names.mapM (nativeType span) s = .ok types s') :
    s' = s ∧ names.map (s.types.lookup .top) = types.map some := by
  induction names generalizing s types with
  | nil =>
    simp only [List.mapM_nil, pure_ok] at h
    obtain ⟨rfl, rfl⟩ := h
    exact ⟨rfl, rfl⟩
  | cons name names ih =>
    simp only [List.mapM_cons, bind_ok, pure_ok] at h
    obtain ⟨a, s1, h1, as, s2, h2, rfl, rfl⟩ := h
    obtain ⟨rfl, ha⟩ := nativeType_ok h1
    obtain ⟨rfl, has⟩ := ih h2
    exact ⟨rfl, by rw [List.map_cons, List.map_cons, ha, has]⟩

theorem nativesNamed_ok {natives : List NativeSignature}
    (h : nativesNamed natives span name s = .ok found s') :
    s' = s ∧ ∀ c ∈ found, ∀ T : Tables, s.Ends natives T →
      Callee T (.callNative c.callee) c.params c.result := by
  have hplaces : ∀ x ∈ natives.zipIdx.filter (fun x => x.1.name = name), natives[x.2]? = some x.1 :=
    fun x hx => List.mem_zipIdx_iff_getElem?.mp (List.mem_filter.mp hx).1
  unfold nativesNamed at h
  revert h
  generalize natives.zipIdx.filter (fun x => x.1.name = name) = list at hplaces
  intro h
  induction list generalizing s found with
  | nil =>
    simp only [List.mapM_nil, pure_ok] at h
    obtain ⟨rfl, rfl⟩ := h
    exact ⟨rfl, fun c hc => absurd hc List.not_mem_nil⟩
  | cons x list ih =>
    simp only [List.mapM_cons, bind_ok, ite_ok, fail_ok, pure_ok] at h
    obtain ⟨c, s1, h1, cs, s2, h2, rfl, rfl⟩ := h
    simp only [false_and, exists_false, and_false, false_or] at h1
    obtain ⟨hlt, params, s3, h3, result, s4, h4, rfl, rfl⟩ := h1
    obtain ⟨rfl, hparams⟩ := nativeTypes_ok h3
    obtain ⟨rfl, hresult⟩ := nativeType_ok h4
    obtain ⟨rfl, hrest⟩ := ih (fun y hy => hplaces y (List.mem_cons_of_mem x hy)) h2
    refine ⟨rfl, fun c hc T hT => ?_⟩
    rcases hc with _ | ⟨_, hc⟩
    · have hindex : x.2.toUInt16.toNat = x.2 := by
        have : x.2 < 65536 := Nat.lt_of_not_le hlt
        rw [Nat.toUInt16_eq, UInt16.toNat_ofNat']
        omega
      have hlift : x.1.params.map (T.types.lookup .top) = params.map some := by
        rw [← hparams]
        apply List.map_congr_left
        intro n hn
        have : s2.types.lookup .top n ∈ params.map some := hparams ▸ List.mem_map_of_mem hn
        obtain ⟨id, -, hid⟩ := List.mem_map.mp this
        rw [← hid, hT.types.lookup _ _ _ hid.symm]
      exact .native (by rw [hT.natives_eq, hindex]; exact hplaces x (.head _)) hlift
        (hT.types.lookup _ _ _ hresult)
    · exact hrest c hc T hT

end

end Lower

end Bytescript
