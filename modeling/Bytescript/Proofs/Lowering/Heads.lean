import Bytescript.Proofs.Lowering.Declaration

/-!
# Heads and members

Once the classes are there, the members of each and the heads of methods and functions are declared.
No two heads in one place have the same name and the same types of parameters
(`Tables.HeadsDistinct`), and every symbol declared is known to go back to an item of the script
(`MembersTraced`).
-/

namespace Bytescript

open Lower (ClassInfo constructorName)

variable {params : List TypeId} {head : FunctionHead} {result type : TypeId} {o : Owner}
  {s : Lowering} {t : ScopeTable}

theorem TypeTable.Grows.signature {t t' : TypeTable} (h : t.Grows t') (ht : t.Regular)
    (ht' : t'.Regular)
    (hparams : ∀ p ∈ params, p.index < t.size) : t'.signature params = t.signature params := by
  have hnames : params.map (fun p => t'.name (t'.resolve p)) =
      params.map fun p => t.name (t.resolve p) := by
    refine List.map_congr_left fun p hp => ?_
    rw [ht.resolve, ht'.resolve, TypeTable.name, TypeTable.name, h.get (hparams p hp)]
  rw [TypeTable.signature, TypeTable.signature, hnames]

namespace ScopeTable

variable {name : String} {params : List TypeId}

theorem clash?_eq_none {symbols : Array Symbol} :
    clash? symbols name params = none ↔
      ∀ sym ∈ symbols, sym.name = name → ∃ other, sym.params? = some other ∧ other ≠ params := by
  simp only [clash?, List.findSome?_eq_none_iff, Array.mem_toList_iff]
  refine forall_congr' fun sym => imp_congr_right fun _ => ?_
  by_cases hname : sym.name = name
  · simp only [hname, ↓reduceIte, forall_const]
    cases sym.params? with
    | none => simp
    | some other => by_cases ho : other = params <;> simp [ho]
  · simp [hname]

theorem Grows.clash? {t t' : ScopeTable} (h : t.Grows t') {j : ScopeId} (hj : t.Persistent j)
    (hc : clash? (t'.scope j).symbols name params = none) :
    clash? (t.scope j).symbols name params = none := by
  rw [clash?_eq_none] at hc ⊢
  exact fun sym hsym => hc sym (h.mem hj hsym)

end ScopeTable

/-! ## Heads that do not clash -/

/-- Of the functions among the items, no two have the same name and the same types of parameters. -/
def Tables.HeadsDistinct (T : Tables) (r : TypeScopeId) (items : List Stmt) : Prop :=
  items.Pairwise fun a b => ∀ span span' head head' code code' params result result',
    a = .function span head code → b = .function span' head' code' →
    T.types.HeadMeans r head params result → T.types.HeadMeans r head' params result' →
    head.name ≠ head'.name

theorem TypeTable.HeadMeans.unique {t : TypeTable} {r : TypeScopeId} {params' : List TypeId}
    {result' : TypeId} (h : t.HeadMeans r head params result)
    (h' : t.HeadMeans r head params' result') : params = params' ∧ result = result' :=
  ⟨Option.some.inj (h.1.symm.trans h'.1), Option.some.inj (h.2.1.symm.trans h'.2.1)⟩

/-- Where items stand: at the top level or in a class. -/
inductive Owner where
  | script
  | ofClass (info : ClassInfo)

namespace Owner

/-- The scope that names of types are looked up in. -/
def types : Owner → TypeScopeId
  | script => .top
  | ofClass info => info.scopes.types

/-- The scope of functions or methods. -/
def callables : Owner → ScopeId
  | script => .top
  | ofClass info => info.scopes.methods

/-- What the heads among the items are declared as. -/
def role : Owner → List TypeId → UInt16 → Role
  | script => .function
  | ofClass _ => .method

theorem role_params (o : Owner) (name : String) (type : TypeId) (params : List TypeId)
    (index : UInt16) : (⟨name, type, o.role params index⟩ : Symbol).params? = some params := by
  cases o <;> rfl

end Owner

/-- A head has been declared in a table of scopes. -/
def Owner.Announces (o : Owner) (types : TypeTable) (scopes : ScopeTable) (head : FunctionHead) :
    Prop :=
  ∃ params result index, types.HeadMeans o.types head params result ∧
    ⟨head.name, result, o.role params index⟩ ∈ (scopes.scope o.callables).symbols

/-- Between two states the heads among the items have been declared. -/
structure HeadsAdded (o : Owner) (items : List Stmt) (s s' : Lowering) : Prop where
  fresh : ∀ T : Tables, s'.Within T → ∀ span head code, .function span head code ∈ items →
    ∃ params result, T.types.HeadMeans o.types head params result ∧
      ScopeTable.clash? (s.scopes.scope o.callables).symbols head.name params = none
  present : ∀ T : Tables, s'.Within T → ∀ span head code, .function span head code ∈ items →
    o.Announces T.types s'.scopes head
  distinct : ∀ T : Tables, s'.Within T → T.HeadsDistinct o.types items

namespace HeadsAdded

variable {o : Owner} {s s1 s' : Lowering}

theorem none {items : List Stmt} (h : ∀ a ∈ items, ∀ span head code, a ≠ .function span head code) :
    HeadsAdded o items s s' where
  fresh _ _ span head code hmem := absurd rfl (h _ hmem span head code)
  present _ _ span head code hmem := absurd rfl (h _ hmem span head code)
  distinct _ _ := List.pairwise_of_forall_mem_list fun a ha _ _ span _ head _ code _ _ _ _ heq =>
    absurd heq (h a ha span head code)

theorem cons {P : Tables → ScopeId → Symbol → Prop} {a : Stmt} {rest : List Stmt}
    (h : HeadsAdded o [a] s s1) (h' : HeadsAdded o rest s1 s') (hd : Declares P s s1)
    (hd' : Declares P s1 s') (ho : s.scopes.Persistent o.callables) :
    HeadsAdded o (a :: rest) s s' where
  fresh T hT span head code hmem := by
    rcases hmem with _ | ⟨_, hmem⟩
    · exact h.fresh T (hd'.within hT) span head code (.head _)
    · obtain ⟨params, result, hmeans, hclash⟩ := h'.fresh T hT span head code hmem
      exact ⟨params, result, hmeans, hd.scopes.clash? ho hclash⟩
  present T hT span head code hmem := by
    rcases hmem with _ | ⟨_, hmem⟩
    · obtain ⟨params, result, index, hmeans, hsym⟩ :=
        h.present T (hd'.within hT) span head code (.head _)
      exact ⟨params, result, index, hmeans, hd'.scopes.mem (hd.scopes.symbols _ ho).1 hsym⟩
    · exact h'.present T hT span head code hmem
  distinct T hT := by
    refine List.pairwise_cons.mpr ⟨?_, h'.distinct T hT⟩
    rintro b hb span span' head head' code code' params result result' rfl rfl hmeans hmeans' hname
    obtain ⟨params1, _, index, hmeans1, hsym⟩ :=
      h.present T (hd'.within hT) span head code (.head _)
    obtain ⟨rfl, rfl⟩ := hmeans.unique hmeans1
    obtain ⟨params', result'', hmeans'', hclash⟩ := h'.fresh T hT span' head' code' hb
    obtain ⟨rfl, -⟩ := hmeans'.unique hmeans''
    obtain ⟨other, hother, hne⟩ := ScopeTable.clash?_eq_none.mp hclash _ hsym hname
    exact hne (Option.some.inj (hother.symm.trans (o.role_params _ _ _ _)))

end HeadsAdded

/-- A head has been declared in the scope `j`, with a constant for its full name. -/
structure HeadAdded (j : ScopeId) (r : TypeScopeId) (head : FunctionHead) (stem : String)
    (tag : String → Constant) (role : List TypeId → UInt16 → Role) (params : List TypeId)
    (result : TypeId) (index : UInt16) (s s' : Lowering) : Prop extends
    Declares (fun _ i sym => i = j ∧ sym = ⟨head.name, result, role params index⟩) s s' where
  extended : s.types.Extends s'.types
  fresh : ScopeTable.clash? (s.scopes.scope j).symbols head.name params = none
  present : s.scopes.Persistent j →
    ⟨head.name, result, role params index⟩ ∈ (s'.scopes.scope j).symbols
  known : ∀ T : Tables, s'.Within T → T.types.HeadMeans r head params result ∧
    T.pool[index.toNat]? = some (tag (stem ++ T.types.signature params))

theorem HeadAdded.heads {span : Span} {code : List Stmt} {stem : String} {tag : String → Constant}
    {index : UInt16} {s' : Lowering}
    (h : HeadAdded o.callables o.types head stem tag o.role params result index s s')
    (ho : s.scopes.Persistent o.callables) : HeadsAdded o [.function span head code] s s' where
  fresh T hT span' head' code' hmem := by
    cases List.mem_singleton.mp hmem
    exact ⟨params, result, (h.known T hT).1, h.fresh⟩
  present T hT span' head' code' hmem := by
    cases List.mem_singleton.mp hmem
    exact ⟨params, result, index, (h.known T hT).1, h.present ho⟩
  distinct _ _ := List.pairwise_singleton ..

namespace Lower

section

variable {s s1 s2 s' : Lowering} {span : Span} {params : List TypeId} {u : Unit}

theorem addCallable_ok {id : ScopeId} {sym : Symbol}
    (h : onScopes span (·.insertCallable id sym) s = .ok u s') (hs : s.Ready)
    (hsym : sym.params? = some params) (hfun : sym.isFunction = true → id = .top) :
    Declares (fun _ j other => j = id ∧ other = sym) s s' ∧
      ScopeTable.clash? (s.scopes.scope id).symbols sym.name params = none ∧
      (s.scopes.Persistent id → sym ∈ (s'.scopes.scope id).symbols) := by
  obtain ⟨t, hin, rfl⟩ := onScopes_ok h
  obtain ⟨rfl, hclash⟩ := ScopeTable.insertCallable_ok hin
  rw [hsym, Option.getD_some] at hclash
  have hrole : sym.slot? = none ∧ sym.class? = none := by
    obtain ⟨name, type, role⟩ := sym
    cases role <;> simp_all [Symbol.params?, Symbol.slot?, Symbol.class?]
  refine ⟨{
    ready := ⟨⟨hs.types, hs.pool⟩, hs.scopes.declare (fun p hp => ?_) hfun,
      Nat.lt_of_lt_of_eq hs.scope_lt (ScopeTable.declare_size ..).symm⟩
    types := .refl _
    pool := fun _ _ hi => hi
    scopes := ScopeTable.grows_declare
    active := rfl
    slots := (ScopeTable.declare_shape _).2.2
    globals := fun other hother hvar => ?_
    numbered := fun hn => hn.declare hrole.1
    symbols := fun _ _ j other hother => ScopeTable.declare_mem hother
    code := rfl
    rest := rfl }, hclash, fun hid => ScopeTable.mem_declare hid.1⟩
  · rw [hrole.2] at hp
    cases hp
  · rcases ScopeTable.declare_mem hother with hother | ⟨-, rfl⟩
    · exact hother
    · rw [hrole.1] at hvar
      cases hvar

/-- The steps that declare a head. -/
theorem declareHead_ok {j : ScopeId} {r : TypeScopeId} {head : FunctionHead} {stem name : String}
    {tag : String → Constant} {role : List TypeId → UInt16 → Role} {result : TypeId}
    {index : UInt16}
    (h1 : resolveHead r span head s = .ok (params, result) s1)
    (hname : name = stem ++ s1.types.signature params) (h2 : constant (tag name) s1 = .ok index s2)
    (h3 : onScopes span (·.insertCallable j ⟨head.name, result, role params index⟩) s2 = .ok u s')
    (hs : s.Ready) (hrole : ∀ name type, (⟨name, type, role params index⟩ : Symbol).params? =
      some params)
    (hfun : ∀ name type, (⟨name, type, role params index⟩ : Symbol).isFunction = true → j = .top) :
    HeadAdded j r head stem tag role params result index s s' := by
  obtain ⟨hemit1, hmeans⟩ := resolveHead_ok h1 hs.toTidy
  obtain ⟨hemit2, hindex⟩ := constant_ok h2 hemit1.tidy
  have hemit := hemit1.trans hemit2
  obtain ⟨hadd, hclash, hmem⟩ := addCallable_ok h3 (hemit.ready hs) (hrole _ _) (hfun _ _)
  rw [hemit.scopes] at hclash hmem
  have hextended : s.types.Extends s'.types := by
    obtain ⟨t, -, rfl⟩ := onScopes_ok h3
    exact hemit.types
  refine ⟨(hemit.declares hs).trans hadd, hextended, hclash, hmem, fun T hT => ?_⟩
  have hT2 := hadd.within hT
  have hT1 := hemit2.within hT2
  refine ⟨hT1.headMeans hemit1.tidy hmeans, ?_⟩
  rw [hT1.types.signature hemit1.tidy.types.toRegular hT.sound.toRegular
    (hemit1.tidy.types.meanings_lt hmeans.1), ← hname]
  exact hT2.pool _ _ hindex

end

end Lower

/-! ## Members -/

/-- What the symbols declared by some items, and by the classes among them, go back to. -/
def MembersTraced (o : Owner) (outer : String) (items : List Stmt) (T : Tables) (j : ScopeId)
    (sym : Symbol) : Prop :=
  T.Traces (T.IsClass o.types outer items)
    (fun info item => o = .ofClass info ∧ item ∈ items ∨ T.ClassItem o.types outer items info item)
    (fun item => o = .script ∧ item ∈ items) j sym

/-- The variables among the items are members of the class that the items stand in. -/
def Owner.HasMembers (o : Owner) (types : TypeTable) (scopes : ScopeTable) (items : List Stmt) :
    Prop :=
  ∀ info, o = .ofClass info → ∀ span name term init, .var span name term init ∈ items →
    ∃ type slot, types.meaning info.scopes.types term = some type ∧
      scopes.lookupHere info.scopes.members name = some ⟨name, type, .variable slot⟩

/-- All that a class declares is known. -/
structure Tables.ClassKnown (T : Tables) (info : ClassInfo) (body : List Stmt) : Prop where
  distinct : T.HeadsDistinct info.scopes.types body
  heads : ∀ span head code, .function span head code ∈ body →
    (Owner.ofClass info).Announces T.types T.scopes head
  members : (Owner.ofClass info).HasMembers T.types T.scopes body

/-- The scopes that items are declared in stay. -/
structure Owner.Stays (o : Owner) (scopes : ScopeTable) : Prop where
  callables : scopes.Persistent o.callables
  members : ∀ info, o = .ofClass info → scopes.Persistent info.scopes.members

theorem Owner.Stays.grows {t' : ScopeTable} (h : o.Stays t) (hgrows : t.Grows t') : o.Stays t' :=
  ⟨(hgrows.symbols _ h.callables).1, fun info ho => (hgrows.symbols _ (h.members info ho)).1⟩

theorem Owner.stays_script (h : t.Sound) : Owner.script.Stays t :=
  ⟨h.persistent_top, fun _ ho => nomatch ho⟩

theorem Owner.stays_class (h : t.Sound) {info : ClassInfo} (hinfo : t.classInfo? type = some info) :
    (Owner.ofClass info).Stays t := by
  obtain ⟨hmembers, hmethods⟩ := h.classInfo?_parts hinfo
  refine ⟨hmethods, fun _ ho => ?_⟩
  obtain rfl := Owner.ofClass.inj ho
  exact hmembers.persistent

/-- Members and heads have been declared, also in the classes inside. -/
structure MembersAdded (o : Owner) (outer : String) (items : List Stmt) (s s' : Lowering) : Prop
    extends Declares (MembersTraced o outer items) s s' where
  extended : s.types.Extends s'.types
  heads : HeadsAdded o items s s'
  members : ∀ T : Tables, s'.Within T → o.HasMembers T.types s'.scopes items
  inner : ∀ T : Tables, s'.Within T → ∀ name info body,
    T.HasClass o.types outer items name info body → T.ClassKnown info body

namespace MembersAdded

variable {o : Owner} {outer : String} {s s1 s' : Lowering}

theorem nil (hs : s.Ready) : MembersAdded o outer [] s s := by
  refine ⟨(Emits.refl hs.toTidy).declares hs, .refl _, .none fun _ h => (nomatch h),
    fun _ _ _ _ _ _ _ _ h => (nomatch h), fun T _ _ _ _ hc => ?_⟩
  cases hc with
  | here hmem _ => cases hmem
  | inside hmem _ _ => cases hmem

theorem cons {a : Stmt} {rest : List Stmt} (h : MembersAdded o outer [a] s s1)
    (h' : MembersAdded o outer rest s1 s') (ho : o.Stays s.scopes) :
    MembersAdded o outer (a :: rest) s s' := by
  have hmono : ∀ {items : List Stmt} {s s' : Lowering},
      Declares (MembersTraced o outer items) s s' → (∀ i ∈ items, i ∈ a :: rest) →
      Declares (MembersTraced o outer (a :: rest)) s s' := fun hd hsub =>
    hd.mono fun _ _ _ _ ht => Tables.Traces.mono ht (fun _ hc => hc.mono hsub)
      (fun _ _ hc => hc.imp (And.imp_right (hsub _)) (·.mono hsub)) fun _ => And.imp_right (hsub _)
  have hhead : ∀ i ∈ [a], i ∈ a :: rest :=
    fun i hi => List.mem_cons.mpr (.inl (List.mem_singleton.mp hi))
  have hd := hmono h.toDeclares hhead
  have hd' := hmono h'.toDeclares fun _ => List.mem_cons_of_mem _
  refine ⟨hd.trans hd', h.extended.trans h'.extended, h.heads.cons h'.heads hd hd' ho.callables,
    fun T hT info hinfo span name term init hmem => ?_, fun T hT name info' body hclass => ?_⟩
  · rcases hmem with _ | ⟨_, hmem⟩
    · obtain ⟨type, slot, hterm, hlookup⟩ :=
        h.members T (hd'.within hT) info hinfo span name term init (.head _)
      exact ⟨type, slot, hterm, hd'.scopes.lookupHere ((ho.grows hd.scopes).members info hinfo)
        hlookup⟩
    · exact h'.members T hT info hinfo span name term init hmem
  cases hclass with
  | here hmem hat =>
    rcases hmem with _ | ⟨_, hmem⟩
    · exact h.inner T (hd'.within hT) _ _ _ (.here (.head _) hat)
    · exact h'.inner T hT _ _ _ (.here hmem hat)
  | inside hmem hat hin =>
    rcases hmem with _ | ⟨_, hmem⟩
    · exact h.inner T (hd'.within hT) _ _ _ (.inside (.head _) hat hin)
    · exact h'.inner T hT _ _ _ (.inside hmem hat hin)

/-- An item that is no class. -/
theorem plain {a : Stmt} (h : Declares (MembersTraced o outer [a]) s s')
    (hextended : s.types.Extends s'.types) (hheads : HeadsAdded o [a] s s')
    (hmembers : ∀ T : Tables, s'.Within T → o.HasMembers T.types s'.scopes [a])
    (hclass : ∀ span name body, a ≠ .classDecl span name body) : MembersAdded o outer [a] s s' where
  toDeclares := h
  extended := hextended
  heads := hheads
  members := hmembers
  inner T _ name info body hc := by
    cases hc with
    | here hmem _ => exact absurd (List.mem_singleton.mp hmem).symm (hclass _ _ _)
    | inside hmem _ _ => exact absurd (List.mem_singleton.mp hmem).symm (hclass _ _ _)

/-- A class, whose members have been declared. -/
theorem nested {span : Span} {name : String} {body : List Stmt} {info : ClassInfo}
    (h : MembersAdded (.ofClass info) (outer ++ name ++ ".") body s s')
    (hinfo : (Owner.ofClass info).Stays s.scopes)
    (hat : ∀ T : Tables, s'.Within T → T.ClassAt o.types name (outer ++ name) info) :
    MembersAdded o outer [.classDecl span name body] s s' := by
  have hmem : Stmt.classDecl span name body ∈ [Stmt.classDecl span name body] :=
    .head _
  have hstays := hinfo.grows h.scopes
  refine ⟨h.toDeclares.mono fun T hT j sym hsym => ?_, h.extended, .none fun i hi => ?_,
    fun T hT _ _ _ _ _ _ h => (nomatch List.mem_singleton.mp h), fun T hT n info' body' hclass =>
      ?_⟩
  · refine Tables.Traces.mono hsym (fun _ ⟨n, b, hc⟩ => ⟨n, b, .inside hmem (hat T hT) hc⟩)
      (fun info' item hitem => .inr ?_) fun _ h => nomatch h.1
    rcases hitem with ⟨heq, hitem⟩ | ⟨n, b, hc, hitem⟩
    · obtain rfl := Owner.ofClass.inj heq
      exact ⟨name, body, .here hmem (hat T hT), hitem⟩
    · exact ⟨n, b, .inside hmem (hat T hT) hc, hitem⟩
  · rw [List.mem_singleton.mp hi]
    exact fun _ _ _ heq => nomatch heq
  · cases hclass with
    | here hm hat' =>
      cases List.mem_singleton.mp hm
      obtain rfl := (hat T hT).unique hat'
      refine ⟨h.heads.distinct T hT, fun span head code hmem => ?_,
        fun info' ho span name term init hmem => ?_⟩
      · obtain ⟨params, result, index, hmeans, hsym⟩ := h.heads.present T hT span head code hmem
        exact ⟨params, result, index, hmeans, hT.scopes.mem hstays.callables hsym⟩
      · obtain ⟨type, slot, hterm, hlookup⟩ := h.members T hT info' ho span name term init hmem
        exact ⟨type, slot, hterm, hT.scopes.lookupHere (hstays.members info' ho) hlookup⟩
    | inside hm hat' hin =>
      cases List.mem_singleton.mp hm
      obtain rfl := (hat T hT).unique hat'
      exact h.inner T hT _ _ _ hin

end MembersAdded

/-- A member has been declared, which is no variable of the top level. -/
theorem ScopeTable.Declared.declares {P : Tables → ScopeId → Symbol → Prop} {c : ScopeId}
    {name : String}
    {slot : UInt16} (h : ScopeTable.Declared c name type slot s.scopes t) (hs : s.Ready)
    (hc : s.scopes.OwnsMembers c) (hP : ∀ T, P T c ⟨name, type, .variable slot⟩) :
    Declares P s { s with scopes := t } := by
  have hroot := hs.scopes.slotRoot_members hc
  have htop : .top ≠ c := by
    rintro rfl
    have := hs.scopes.top.2
    rw [hc.2] at this
    cases this
  have hlt := hs.scopes.top.1
  refine {
    ready := ⟨⟨hs.types, hs.pool⟩, h.sound, Nat.lt_of_lt_of_eq hs.scope_lt h.size.symm⟩
    types := .refl _
    pool := fun _ _ => id
    scopes := h.framed.grows
    active := h.framed.active
    slots := h.framed.slots _ hlt (hroot.symm ▸ htop)
    globals := fun sym hsym _ => by rwa [h.framed.symbols _ hlt htop] at hsym
    numbered := h.numbered hs.scopes hc
    symbols := fun T _ j sym hsym => ?_
    code := rfl
    rest := rfl }
  have hsym : sym ∈ (t.scope j).symbols := hsym
  by_cases hjc : j = c
  · subst hjc
    rw [h.symbols] at hsym
    rcases Array.mem_push.mp hsym with hsym | rfl
    · exact .inl hsym
    · exact .inr (hP T)
  · by_cases hj : j.index < s.scopes.size
    · rw [h.framed.symbols j hj hjc] at hsym
      exact .inl hsym
    · rw [ScopeTable.scope_eq_default (h.size ▸ Nat.le_of_not_lt hj)] at hsym
      cases Array.not_mem_empty _ hsym

namespace Lower

variable {span : Span} {info : ClassInfo} {s s' : Lowering} {head : FunctionHead} {u : Unit}

/-- The class that a declared item is found to be. -/
theorem classNamed_known {r : TypeScopeId} {span' : Span} {name outer : String} {body : List Stmt}
    (h : classNamed r span name s = .ok info s') (hs : s.Ready)
    (hknown : ∀ T : Tables, s.Within T → T.ItemDeclared r outer (.classDecl span' name body)) :
    s' = s ∧ s.scopes.classInfo? info.type = some info ∧ ∀ T : Tables, s.Within T →
      T.ClassAt r name (outer ++ name) info ∧
      T.Declared info.scopes.types (outer ++ name ++ ".") body := by
  obtain ⟨rfl, type, hlookup, hinfo⟩ := classNamed_ok h hs.toTidy
  obtain rfl := ScopeTable.classInfo?_type hinfo
  refine ⟨rfl, hinfo, fun T hT => ?_⟩
  obtain ⟨info', hat, hbody⟩ := hknown T hT
  have htype : info.type = info'.type :=
    Option.some.inj ((hT.types.lookup _ _ _ hlookup).symm.trans hat.lookup)
  have hfound := hT.scopes.classInfo? hs.scopes hinfo
  rw [htype] at hfound
  cases hat.found.symm.trans hfound
  exact ⟨hat, hbody⟩

theorem declareMethod_ok (h : declareMethod info span head s = .ok u s') (hs : s.Ready) :
    ∃ params result index, HeadAdded info.scopes.methods info.scopes.types head
      (info.scopes.qualified ++ "." ++ head.name) .method .method params result index s s' := by
  simp only [declareMethod, methodName, mangle, bind_ok, get_bind, pure_ok] at h
  obtain ⟨⟨params, result⟩, s1, h1, name, s2, ⟨hname, rfl⟩, index, s3, h3, h4⟩ := h
  exact ⟨params, result, index, declareHead_ok h1 hname.symm h3 h4 hs (fun _ _ => rfl)
    (by rintro _ _ ⟨⟩)⟩

theorem declareFunction_ok (h : declareFunction span head s = .ok u s') (hs : s.Ready) :
    ∃ params result index,
      HeadAdded .top .top head head.name .function .function params result index s s' := by
  simp only [declareFunction, mangle, bind_ok, get_bind, pure_ok] at h
  obtain ⟨⟨params, result⟩, s1, h1, name, s2, ⟨hname, rfl⟩, index, s3, h3, h4⟩ := h
  exact ⟨params, result, index, declareHead_ok h1 hname.symm h3 h4 hs (fun _ _ => rfl) fun _ _ _ =>
    rfl⟩

mutual

theorem declareMember_ok :
    ∀ (item : Stmt) {info : ClassInfo} {outer : String} {u : Unit} {s s' : Lowering},
      declareMember info item s = .ok u s' → s.Ready → s.scopes.classInfo? info.type = some info →
      (∀ T : Tables, s.Within T → T.ItemDeclared info.scopes.types outer item) →
      MembersAdded (.ofClass info) outer [item] s s'
  | item, info, outer, u, s, s', h, hs, hinfo, hknown => by
    obtain ⟨hmembers, hmethods⟩ := hs.scopes.classInfo?_parts hinfo
    cases item with
    | var span name term init =>
      simp only [declareMember, bind_ok, pure_ok] at h
      obtain ⟨type, s1, h1, slot, s2, h2, -, rfl⟩ := h
      obtain ⟨hemit, hterm, -⟩ := variableType_ok h1 hs.toTidy
      obtain ⟨t, hin, rfl⟩ := onScopes_ok h2
      have hs1 := hemit.ready hs
      rw [← hemit.scopes] at hmembers
      have hd := ScopeTable.insertVariable_ok hs1.scopes hmembers.1 hin
      have hdeclares := hd.declares
        (P := MembersTraced (.ofClass info) outer [.var span name term init]) hs1 hmembers
        fun T => .stored rfl
      refine .plain ((hemit.declares hs).trans hdeclares) hemit.types (.none (by simp))
        (fun T hT info' ho span' name' term' init' hmem => ?_) (by simp)
      obtain rfl := Owner.ofClass.inj ho
      cases List.mem_singleton.mp hmem
      exact ⟨type, slot, (hdeclares.within hT).meaning hemit.tidy hterm, hd.lookupHere⟩
    | function span head code =>
      obtain ⟨params, result, index, hhead⟩ := declareMethod_ok h hs
      refine .plain (hhead.toDeclares.mono fun T hT j sym hsym => ?_) hhead.extended
        (hhead.heads (o := .ofClass info) hmethods)
        (fun T hT _ _ _ _ _ _ h => (nomatch List.mem_singleton.mp h)) (by simp)
      obtain ⟨rfl, rfl⟩ := hsym
      obtain ⟨hmeans, hpool⟩ := hhead.known T hT
      exact .method (.inl ⟨rfl, List.mem_singleton_self (Stmt.function span head code)⟩) hmeans
        hpool
    | classDecl span name body =>
      simp only [declareMember, bind_ok] at h
      obtain ⟨within, s1, h1, h2⟩ := h
      obtain ⟨rfl, hwithin, hat⟩ := classNamed_known h1 hs hknown
      have hadd := declareMembers_ok body h2 hs hwithin fun T hT => (hat T hT).2
      exact hadd.nested (Owner.stays_class hs.scopes hwithin) fun T hT => (hat T (hadd.within hT)).1
    | _ => simp [declareMember] at h

theorem declareMembers_ok :
    ∀ (items : List Stmt) {info : ClassInfo} {outer : String} {u : Unit} {s s' : Lowering},
      declareMembers info items s = .ok u s' → s.Ready → s.scopes.classInfo? info.type = some info →
      (∀ T : Tables, s.Within T → T.Declared info.scopes.types outer items) →
      MembersAdded (.ofClass info) outer items s s'
  | [], _, _, _, _, _, h, hs, _, _ => by
    simp only [declareMembers, pure_ok] at h
    obtain ⟨-, rfl⟩ := h
    exact .nil hs
  | a :: rest, _, _, _, _, _, h, hs, hinfo, hknown => by
    simp only [declareMembers, bind_ok] at h
    obtain ⟨_, s1, h1, h2⟩ := h
    have ha := declareMember_ok a h1 hs hinfo fun T hT => (hknown T hT).1
    exact ha.cons (declareMembers_ok rest h2 ha.ready (ha.scopes.classInfo? hs.scopes hinfo)
      fun T hT => (hknown T (ha.within hT)).2.2) (Owner.stays_class hs.scopes hinfo)

end

theorem declareItem_ok {item : Stmt} (h : declareItem item s = .ok u s') (hs : s.Ready)
    (hknown : ∀ T : Tables, s.Within T → T.ItemDeclared .top "" item) :
    MembersAdded .script "" [item] s s' := by
  cases item with
  | classDecl span name body =>
    simp only [declareItem, bind_ok] at h
    obtain ⟨info, s1, h1, h2⟩ := h
    obtain ⟨rfl, hinfo, hat⟩ := classNamed_known h1 hs hknown
    have hadd := declareMembers_ok body h2 hs hinfo fun T hT => (hat T hT).2
    exact hadd.nested (Owner.stays_class hs.scopes hinfo) fun T hT => (hat T (hadd.within hT)).1
  | function span head code =>
    obtain ⟨params, result, index, hhead⟩ := declareFunction_ok h hs
    refine .plain (hhead.toDeclares.mono fun T hT j sym hsym => ?_) hhead.extended
      (hhead.heads (o := .script) hs.scopes.persistent_top) (fun T hT _ ho => (nomatch ho))
        (by simp)
    obtain ⟨rfl, rfl⟩ := hsym
    obtain ⟨hmeans, hpool⟩ := hhead.known T hT
    exact .function ⟨rfl, List.mem_singleton_self (Stmt.function span head code)⟩ hmeans hpool
  | _ =>
    cases h
    exact .plain ((Emits.refl hs.toTidy).declares hs) (.refl _) (.none (by simp))
      (fun T hT _ ho => (nomatch ho)) (by simp)

theorem declareItems_ok {items : List Stmt} (h : items.forM declareItem s = .ok u s') (hs : s.Ready)
    (hknown : ∀ T : Tables, s.Within T → T.Declared .top "" items) :
    MembersAdded .script "" items s s' := by
  induction items generalizing s with
  | nil =>
    cases h
    exact .nil hs
  | cons a rest ih =>
    simp only [List.forM_eq_forM, List.forM_cons, bind_ok] at h ih
    obtain ⟨_, s1, h1, h2⟩ := h
    have ha := declareItem_ok h1 hs fun T hT => (hknown T hT).1
    exact ha.cons (ih h2 ha.ready fun T hT => (hknown T (ha.within hT)).2.2)
      (Owner.stays_script hs.scopes)

end Lower

end Bytescript
