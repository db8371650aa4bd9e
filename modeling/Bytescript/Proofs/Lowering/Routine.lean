import Bytescript.Proofs.Lowering.Statement

/-!
# The code of routines

A function or a method stores its arguments and then runs its body (`BodyCode`); a constructor
stores the new object, runs the initialisers of its members and returns it (`ConstructorCode`).

A routine is compiled away from the code around it, which is afterwards as it was (`Aside`).
-/

namespace Bytescript

open TypeTable (primitives) in
/-- The code that stores arguments in the slots of the parameters, the first argument first. -/
inductive Receives : List (String × TypeId) → Locals → List TypeId → List Instruction → Locals →
    List TypeId → Prop
  | nil {Γ Δ} : Receives [] Γ Δ [] Γ Δ
  | cons {name t rest slot Γ Γ' Δ Δ' code} :
    Γ name = none → Δ.length < 65536 → slot = Δ.length.toUInt16 →
    Receives rest (Γ.set name slot t) (Δ ++ [t]) code Γ' Δ' →
    Receives ((name, t) :: rest) Γ Δ (.store (primitives.kindOf t) slot :: code) Γ' Δ'

/-- No variables at all. -/
def Locals.empty : Locals := fun _ => none

/-- The code of a function or a method, and the types of its slots. Where control can reach the end
and nothing is to be returned, a return is added. -/
inductive BodyCode (T : Tables) (H : Home) (params : List (String × TypeId)) (body : List Stmt) :
    List Instruction → List TypeId → Prop
  | bare {Γ Γ' Δ Δ' cp cb} :
    Receives params .empty [] cp Γ Δ → Executes T H none (.stmts body) Γ Δ cp.length cb Γ' Δ' →
    BodyCode T H params body (cp ++ cb) Δ'
  | returning {Γ Γ' Δ Δ' cp cb} :
    Receives params .empty [] cp Γ Δ → Executes T H none (.stmts body) Γ Δ cp.length cb Γ' Δ' →
    H.result = .void → BodyCode T H params body (cp ++ (cb ++ [.retVoid])) Δ'

open TypeTable (primitives) in
/-- The code that initialises the members of the object in a slot. -/
inductive Prepares (T : Tables) (H : Home) (Γ : Locals) (info : Lower.ClassInfo) (self : UInt16) :
    List Stmt → Nat → List Instruction → Prop
  | nil {b} : Prepares T H Γ info self [] b []
  | member {span name term init m t found rest b code more} :
    T.HasMember info name m t → Computes T H Γ (.expr init found) (b + 1) code →
    primitives.isAssignable found t = true →
    Prepares T H Γ info self rest (b + (code.length + (primitives.convert found t).length + 2))
      more →
    Prepares T H Γ info self (.var span name term (some init) :: rest) b
      (.load .ref self :: (code ++ (primitives.convert found t ++
        (.setField (primitives.kindOf t) m :: more))))
  | other {item rest b code} :
    (∀ span name term init, item ≠ .var span name term (some init)) →
    Prepares T H Γ info self rest b code → Prepares T H Γ info self (item :: rest) b code

/-- The code of a constructor. -/
inductive ConstructorCode (T : Tables) (H : Home) (info : Lower.ClassInfo) (items : List Stmt) :
    List Instruction → List TypeId → Prop
  | mk {self Γ Δ cp code} :
    Receives [("this", info.type)] .empty [] cp Γ Δ → Γ "this" = some (self, info.type) →
    Prepares T H Γ info self items cp.length code →
    ConstructorCode T H info items (cp ++ (code ++ [.load .ref self, .ret])) Δ

/-- A routine has been compiled from a head and a body. -/
structure Routine.HasBody (T : Tables) (role : SiteRole) (typeScope : TypeScopeId)
    (head : FunctionHead) (body : List Stmt) (declared : List TypeId) (result : TypeId)
    (Δ : List TypeId) (r : Routine) : Prop where
  meaning : T.types.HeadMeans typeScope head declared result
  params_eq : r.params = role.class?.toList ++ declared
  result_eq : r.result = result
  slots_eq : r.slots = Δ.length
  encoded : ∃ marks, encode r.code marks = .ok r.body
  code : BodyCode T ⟨role, typeScope, result⟩ (role.class?.toList.map (Prod.mk "this") ++
    (head.params.zip declared).map fun p => (p.1.name, p.2)) body r.code.toList Δ

/-- A routine has been compiled from the initialisers of a class. -/
structure Routine.Constructs (T : Tables) (info : Lower.ClassInfo) (items : List Stmt)
    (Δ : List TypeId) (r : Routine) : Prop where
  params_eq : r.params = [info.type]
  result_eq : r.result = info.type
  slots_eq : r.slots = Δ.length
  encoded : ∃ marks, encode r.code marks = .ok r.body
  code : ConstructorCode T ⟨.constructor info.type, info.scopes.types, info.type⟩ info items
    r.code.toList Δ

theorem Receives.append {ps qs : List (String × TypeId)} {Γ Γ1 Γ2 : Locals} {Δ Δ1 Δ2 : List TypeId}
    {c d : List Instruction} (h : Receives ps Γ Δ c Γ1 Δ1) (h' : Receives qs Γ1 Δ1 d Γ2 Δ2) :
    Receives (ps ++ qs) Γ Δ (c ++ d) Γ2 Δ2 := by
  induction h with
  | nil => exact h'
  | cons hfresh hlimit hslot _ ih => exact .cons hfresh hlimit hslot (ih h')

/-! ## Away from the code around -/

/-- The second state comes after the first, and nothing has happened in the current routine. -/
structure Aside (s s' : Lowering) : Prop extends Proceeds s s' [] where
  code : s'.code = s.code
  locals : s'.locals = s.locals
  slotCount : s'.slotCount = s.slotCount

variable {s s' : Lowering}

theorem Aside.trans {s1 : Lowering} (h : Aside s s1) (h' : Aside s1 s') (hs : s.Placed) :
    Aside s s' where
  toProceeds := by simpa using h.toProceeds.trans h'.toProceeds hs
  code := h'.code.trans h.code
  locals := h'.locals.trans h.locals
  slotCount := h'.slotCount.trans h.slotCount

theorem Emits.aside (h : Emits s s' []) (hs : s.Ready) : Aside s s' where
  toProceeds := h.proceeds hs
  code := by rw [h.code_eq, List.append_nil]
  locals := h.locals
  slotCount := h.slotCount

namespace Lowering

/-- The state in which a routine is begun. -/
def entered (s : Lowering) (role : SiteRole) (parent : ScopeId) (typeScope : TypeScopeId)
    (result : TypeId) (mark : Mark) : Lowering :=
  { s with
    scopes := (s.scopes.pushRoot parent (s.depth + 1)).2
    depth := s.depth + 1
    site := { draft := { mark }, role, scope := ⟨s.scopes.size⟩, typeScope, result } }

variable {s : Lowering} {role : SiteRole} {parent : ScopeId} {typeScope : TypeScopeId}
  {result : TypeId} {mark : Mark}

theorem entered_placed (hs : s.Placed) (hparent : s.scopes.Persistent parent) :
    (s.entered role parent typeScope result mark).Placed := hs.push hparent.1 rfl

theorem entered_locals : (s.entered role parent typeScope result mark).locals = .empty :=
  ScopeTable.locals_pushRoot

theorem entered_slotCount : (s.entered role parent typeScope result mark).slotCount = 0 := by
  have hroot : (s.entered role parent typeScope result mark).scopes.slotRoot ⟨s.scopes.size⟩ =
      ⟨s.scopes.size⟩ := ScopeTable.slotRoot_pushRoot
  change (s.entered role parent typeScope result mark).scopes.slotCount ⟨s.scopes.size⟩ = 0
  rw [ScopeTable.slotCount, hroot]
  exact congrArg Scope.slots ScopeTable.push_scope_new

end Lowering

/-- The state in which a routine has been left for the one around it. -/
def Lowering.left (s : Lowering) (site : Site) : Lowering :=
  { s with scopes := s.scopes.remove s.depth, depth := s.depth - 1, site }

theorem Proceeds.left {s2 : Lowering} {role : SiteRole} {parent : ScopeId} {typeScope : TypeScopeId}
    {result : TypeId} {mark : Mark}
    (h : Proceeds (s.entered role parent typeScope result mark) s2 [])
    (hs : s.Placed) :
    Aside s (s2.left s.site) ∧
      ∀ natives (T : Tables), (s2.left s.site).Ends natives T → s2.Ends natives T := by
  have hdepth : s2.depth = s.depth.succ := h.depth
  obtain ⟨hsound, hroot⟩ := ScopeTable.root_ok hs.scopes
    (fun j hj => Nat.lt_succ_of_le (hs.depth j hj)) h.ready.scopes h.scopes
  rw [← hdepth] at hsound hroot
  obtain ⟨hframed, hlocals, hcount⟩ := hroot s.site.scope hs.scope_lt
  have hlt : s.site.scope.index < (s2.scopes.remove s2.depth).size :=
    Nat.lt_of_lt_of_le hs.scope_lt hframed.size
  refine ⟨⟨⟨⟨⟨⟨h.ready.types, h.ready.pool⟩, hsound, hlt⟩, h.types, h.pool, hframed, rfl, rfl, ?_,
    ?_,
    fun hg => Lowering.globals_remove h.ready.scopes (h.globals (hs.globals_push hg))⟩, h.functions,
      h.classes⟩,
    rfl, hlocals, hcount⟩, fun _ _ => Lowering.ends_remove h.ready.scopes⟩
  · rw [addBreaks_nil]
    rfl
  · change s2.depth - 1 = s.depth
    omega

/-- Notes in the journal are no part of what compiling is about. -/
theorem Aside.noted (h : Aside s s') (journal : Journal) : Aside s { s' with journal } :=
  { h with ready := ⟨⟨h.ready.types, h.ready.pool⟩, h.ready.scopes, h.ready.scope_lt⟩ }

namespace Lower

open TypeTable (primitives)

section

variable {options : CompileOptions} {s s' : Lowering} {r : Routine} {name : String}
  {constant self : UInt16}
  {span : Span} {role : SiteRole} {parent : ScopeId} {typeScope : TypeScopeId} {u : Unit}
  {natives : List NativeSignature} {info : ClassInfo} {items : List Stmt}

theorem finish_ok {site : Site} {params : List TypeId} {constant : Option UInt16} {slots : Nat}
    (h : finish options name site params constant slots s = .ok r s') :
    ∃ journal body, s' = { s with journal } ∧ encode site.draft.code site.draft.marks = .ok body ∧
      r = { name, result := site.result, params, constant, slots, code :=
        site.draft.code, body } := by
  simp only [finish] at h
  cases hbody : encode site.draft.code site.draft.marks with
  | error e => simp [hbody] at h
  | ok body =>
    simp only [hbody, note, bind_ok, modify_ok] at h
    obtain ⟨_, _, rfl, h⟩ := h
    rw [ite_ok] at h
    rcases h with ⟨-, h⟩ | ⟨-, h⟩
    · cases hdis : disassemble body.bytes with
      | ok text =>
        simp only [hdis, bind_ok, modify_ok, pure_ok] at h
        obtain ⟨_, _, rfl, rfl, rfl⟩ := h
        exact ⟨_, body, rfl, rfl, rfl⟩
      | error e =>
        simp only [hdis, pure_ok] at h
        obtain ⟨rfl, rfl⟩ := h
        exact ⟨_, body, rfl, rfl, rfl⟩
    · obtain ⟨rfl, rfl⟩ := pure_ok.mp h
      exact ⟨_, body, rfl, rfl, rfl⟩

/-- Compiling a routine compiles what it consists of in a scope of its own. -/
theorem routine_ok {result : TypeId} {act : Lower (List TypeId)}
    (h : routine options span role parent typeScope result name constant act s = .ok r s')
    (hs : s.Placed) :
    ∃ params s2, act (s.entered role parent typeScope result span.mark) = .ok params s2 ∧
      (Proceeds (s.entered role parent typeScope result span.mark) s2 [] →
        Aside s s' ∧ (∀ natives (T : Tables), s'.Ends natives T → s2.Ends natives T) ∧
        r.name = name ∧
          r.result = result ∧ r.params = params ∧ r.constant = some constant ∧
          r.slots = s2.slotCount ∧
          r.code.toList = s2.code ∧ ∃ marks, encode r.code marks = .ok r.body) := by
  simp only [routine, bind_ok, get_bind] at h
  obtain ⟨scope, s1, h1, outer, s2, h2, _, s3, h3, params, s4, h4, site, s5, h5, _, s6,
    h6, h7⟩ := h
  cases h1
  cases h2
  cases h3
  cases h5
  cases h6
  refine ⟨params, s4, h4, fun hproc => ?_⟩
  obtain ⟨haside, hends⟩ := hproc.left hs
  obtain ⟨journal, body, rfl, hbody, rfl⟩ := finish_ok h7
  have hscope : s4.site.scope = ⟨s.scopes.size⟩ := hproc.scope
  refine ⟨haside.noted journal, fun natives T hT => hends natives T
      ⟨⟨hT.sound, hT.types, hT.pool, hT.scopes⟩, hT.natives_eq, hT.callables⟩, rfl,
    congrArg Home.result hproc.home, rfl, rfl, ?_, rfl, _, hbody⟩
  rw [Lowering.slotCount, hscope]
  rfl

/-! ## Parameters -/

/-- Compiling has stored arguments in parameters. -/
def Received (params : List (String × TypeId)) (s s' : Lowering) : Prop :=
  ∃ code, Proceeds s s' [] ∧ s'.code = s.code ++ code ∧
    ∀ Δ : List TypeId, Δ.length = s.slotCount → ∃ Δ' : List TypeId, Δ'.length = s'.slotCount ∧
      Receives params s.locals Δ code s'.locals Δ'

theorem parameter_ok {type : TypeId} {slot : UInt16} (h : parameter span name type s = .ok slot s')
    (hs : s.Placed) (htop : s.site.scope ≠ .top) :
    Proceeds s s' [] ∧ s'.code = s.code ++ [.store (primitives.kindOf type) slot] ∧
      s.locals name = none ∧ s.slotCount < 65536 ∧ slot = s.slotCount.toUInt16 ∧
      s'.locals = s.locals.set name slot type ∧ s'.slotCount = s.slotCount + 1 := by
  simp only [parameter, bind_ok, kindOf_bind, pure_ok] at h
  obtain ⟨slot', s1, h1, _, s3, h3, rfl, rfl⟩ := h
  obtain ⟨t, hd, rfl⟩ := declareVariable_ok h1 hs
  have hemit := emit_ok h3 (s := { s with scopes := t }) ⟨hs.types, hs.pool⟩
  obtain ⟨hproc, hcode, hlocals, hcount⟩ := declared_ok s3.globals hs hd hemit
    (fun h => absurd h htop) (fun _ => hemit.globals)
  refine ⟨hproc, ?_, hd.fresh, hd.limit, hd.slot_eq, hlocals, hcount⟩
  rw [← hs.types.kindOf]
  exact hcode

theorem parameters_ok {α : Type} {f : α → String × TypeId} {list : List α} {u v : PUnit}
    (h : forIn list u (fun a _ => do
      let _ ← parameter span (f a).1 (f a).2
      pure (ForInStep.yield PUnit.unit) : α → PUnit → Lower (ForInStep PUnit)) s = .ok v s')
        (hs : s.Placed)
    (htop : s.site.scope ≠ .top) : Received (list.map f) s s' := by
  induction list generalizing s with
  | nil =>
    simp only [List.forIn_nil, pure_ok] at h
    obtain ⟨-, rfl⟩ := h
    exact ⟨[], by simpa using (Moves.refl hs.toTidy).proceeds hs.toReady, (List.append_nil _).symm,
      fun Δ hΔ => ⟨Δ, hΔ, .nil⟩⟩
  | cons a rest ih =>
    simp only [List.forIn_cons, bind_ok, pure_ok] at h
    obtain ⟨_, s1, ⟨slot, _, h1, rfl, rfl⟩, h2⟩ := h
    obtain ⟨hproc, hcode, hfresh, hlimit, hslot, hlocals, hcount⟩ := parameter_ok h1 hs htop
    obtain ⟨code, hproc', hcode', hexec⟩ := ih h2 (hproc.placed hs) (hproc.scope ▸ htop)
    refine ⟨.store (primitives.kindOf (f a).2) slot :: code, ?_, ?_, fun Δ hΔ => ?_⟩
    · simpa using hproc.trans hproc' hs
    · rw [hcode', hcode, List.append_assoc, List.singleton_append]
    · obtain ⟨Δ', hΔ', hexec⟩ := hexec (Δ ++ [(f a).2]) (by simp [hΔ, hcount])
      rw [hlocals] at hexec
      exact ⟨Δ', hΔ', .cons hfresh (hΔ ▸ hlimit) (hΔ ▸ hslot) hexec⟩

/-! ## Functions and methods -/

theorem body_ok {head : FunctionHead} {code : List Stmt}
    (h : body options span role parent typeScope head name constant code s = .ok r s')
    (hs : s.Placed)
    (hparent : s.scopes.Persistent parent) :
    Aside s s' ∧ r.name = name ∧ r.constant = some constant ∧
      ∃ declared result Δ, ∀ T : Tables, s'.Ends options.natives T →
        r.HasBody T role typeScope head code declared result Δ := by
  simp only [body] at h
  obtain ⟨⟨declared, result⟩, s1, h1, h⟩ := bind_ok.mp h
  obtain ⟨hemit1, hhead⟩ := resolveHead_ok h1 hs.toTidy
  have hs1 := (hemit1.proceeds hs.toReady).placed hs
  obtain ⟨params, s2, hact, hroutine⟩ := routine_ok h hs1
  dsimp only [bodyCode] at hact hroutine
  have hs0 : (s1.entered role parent typeScope result span.mark).Placed :=
    Lowering.entered_placed hs1 (hemit1.scopes ▸ hparent)
  have htop : (s1.entered role parent typeScope result span.mark).site.scope ≠ .top := hs1.fresh
  -- the arguments
  obtain ⟨_, s3, h3, hact⟩ := bind_ok.mp hact
  obtain ⟨c1, hproc3, hcode3, hrec3⟩ := parameters_ok (f := Prod.mk "this") h3 hs0 htop
  have hs3 := hproc3.placed hs0
  obtain ⟨_, s4, h4, hact⟩ := bind_ok.mp hact
  obtain ⟨c2, hproc4, hcode4, hrec4⟩ :=
    parameters_ok (f := fun p : Param × TypeId => (p.1.name, p.2)) h4 hs3 (hproc3.scope ▸ htop)
  have hproc : Proceeds _ s4 [] := hproc3.trans hproc4 hs0
  have hs4 := hproc.placed hs0
  obtain ⟨Δ3, hΔ3, hrec3⟩ := hrec3 [] (by rw [Lowering.entered_slotCount]; rfl)
  obtain ⟨Δ4, hΔ4, hrec4⟩ := hrec4 Δ3 hΔ3
  have hrec := hrec3.append hrec4
  rw [Lowering.entered_locals] at hrec
  have hlen4 : s4.code = c1 ++ c2 := by rw [hcode4, hcode3]; rfl
  -- the body
  obtain ⟨_, s5, h5, hact⟩ := bind_ok.mp hact
  have hloops4 : s4.site.loops = [] := by rw [hproc.loops]; rfl
  obtain ⟨cb, hproc5, hcode5, hexec⟩ := (stmts_ok code h5 hs4).outside hloops4
  have hs5 := hproc5.placed hs4
  obtain ⟨Δ5, hΔ5, hexec⟩ := hexec Δ4 hΔ4
  -- the end
  obtain ⟨tail, hemit2, htail, hparams⟩ : ∃ tail, Emits s5 s2 tail ∧
      (tail = [] ∨ tail = [.retVoid] ∧ result = .void) ∧
      params = role.class?.toList ++ declared := by
    simp only [isSame_bind, get_bind, bind_ok, ite_ok, pure_ok, Bool.and_eq_true, hs5.types.same,
      decide_eq_true_eq] at hact
    obtain ⟨⟨hvoid, -⟩, _, s7, h7, rfl, rfl⟩ | ⟨-, rfl, rfl⟩ := hact
    · exact ⟨_, emit_ok h7 hs5.toTidy, .inr ⟨rfl, hvoid⟩, rfl⟩
    · exact ⟨_, .refl hs5.toTidy, .inl rfl, rfl⟩
  have hproc2 : Proceeds _ s2 [] := (hproc.trans hproc5 hs0).trans (hemit2.proceeds hs5.toReady) hs0
  obtain ⟨haside, hends, hname, hresult, hparams', hconstant, hslots, hcode, hencoded⟩ :=
    hroutine hproc2
  refine ⟨(hemit1.aside hs.toReady).trans haside hs, hname, hconstant, declared, result, Δ5,
    fun T hT => ?_⟩
  have hT2 := hends _ T hT
  have hT5 := hemit2.ends hT2
  have hexec := hexec T hT5
  rw [hproc.home, hlen4] at hexec
  refine ⟨(haside.ends hT).headMeans hemit1.tidy hhead, hparams'.trans hparams, hresult,
    hslots.trans (hemit2.slotCount.trans hΔ5.symm), hencoded, ?_⟩
  rw [hcode, hemit2.code_eq, hcode5, hlen4]
  rcases htail with rfl | ⟨rfl, hvoid⟩
  · rw [List.append_nil]
    exact .bare hrec hexec
  · rw [List.append_assoc]
    exact .returning hrec hexec hvoid

/-! ## Constructors -/

theorem initialise_ok {item : Stmt} (h : initialise natives info self item s = .ok u s')
    (hs : s.Ready) (hinfo : s.scopes.Persistent info.scopes.members) :
    ∃ code, Emits s s' code ∧ ∀ (T : Tables) rest more, s'.Ends natives T →
      Prepares T s.home s.locals info self rest (s.code.length + code.length) more →
      Prepares T s.home s.locals info self (item :: rest) s.code.length (code ++ more) := by
  have hother : (∀ span name term init, item ≠ .var span name term (some init)) →
      (pure () : Lower Unit) s = .ok u s' →
      ∃ code, Emits s s' code ∧ ∀ (T : Tables) rest more, s'.Ends natives T →
        Prepares T s.home s.locals info self rest (s.code.length + code.length) more →
        Prepares T s.home s.locals info self (item :: rest) s.code.length (code ++ more) := by
    intro hitem h
    obtain ⟨-, rfl⟩ := pure_ok.mp h
    exact ⟨[], .refl hs.toTidy, fun T rest more _ hrest => .other hitem hrest⟩
  cases item with
  | var span name term init =>
    cases init with
    | none => exact hother (by simp) h
    | some init =>
      simp only [initialise] at h
      obtain ⟨found, s1, h1, h⟩ := bind_ok.mp h
      obtain ⟨rfl, hmember⟩ := member?_ok h1
      cases found with
      | none => simp at h
      | some found =>
        simp only [bind_ok, kindOf_bind] at h
        obtain ⟨_, s2, h2, _, s3, h3, type, s4, h4, _, s5, h5, h7⟩ := h
        have hemit2 := setMark_ok h2 hs.toTidy
        have hemit3 := emit_ok h3 hemit2.tidy
        have hemit1 : Emits s1 s3 [.load .ref self] := hemit2.trans hemit3
        obtain ⟨code, hemit4, hcode⟩ := (expr_ok init h4 (hemit1.ready hs)).after hemit1
        obtain ⟨hemit5, hassign⟩ := coerce_ok h5 hemit4.tidy
        have hemit7 := emit_ok h7 hemit5.tidy
        refine ⟨_, hemit1.trans (hemit4.trans (hemit5.trans hemit7)),
          fun T rest more hT hrest => ?_⟩
        have hT4 := hemit5.ends (hemit7.ends hT)
        have hT1 := hemit1.ends (hemit4.ends hT4)
        rw [hemit5.tidy.types.kindOf]
        simp only [List.append_assoc, List.cons_append, List.nil_append]
        exact .member (hT1.scopes.lookupHere hinfo (hmember _ _ rfl)) (hcode T hT4) hassign
          (by simpa [Nat.add_assoc] using hrest)
  | _ => exact hother (by simp) h

theorem prepare_ok (h : items.forM (initialise natives info self) s = .ok u s') (hs : s.Ready)
    (hinfo : s.scopes.Persistent info.scopes.members) :
    Coded natives (Prepares · · · info self items) s s' := by
  induction items generalizing s with
  | nil =>
    cases h
    exact ⟨[], .refl hs.toTidy, fun T _ => .nil⟩
  | cons item items ih =>
    simp only [List.forM_eq_forM, List.forM_cons, bind_ok] at h ih
    obtain ⟨_, s1, h1, h2⟩ := h
    obtain ⟨code, hemit1, hitem⟩ := initialise_ok h1 hs hinfo
    obtain ⟨more, hemit2, hrest⟩ := (ih h2 (hemit1.ready hs) (hemit1.scopes ▸ hinfo)).after hemit1
    exact ⟨_, hemit1.trans hemit2, fun T hT => hitem T items more (hemit2.ends hT) (hrest T hT)⟩

theorem constructor_ok (h : constructor options info span items s = .ok r s') (hs : s.Placed)
    (hinfo : s.scopes.Persistent info.scopes.members)
    (hmethods : s.scopes.Persistent info.scopes.methods) :
    Aside s s' ∧ r.name = info.scopes.qualified ++ "." ++ constructorName ∧
      r.constant = some info.constructor ∧
      ∃ Δ, ∀ T : Tables, s'.Ends options.natives T → r.Constructs T info items Δ := by
  obtain ⟨params, s2, hact, hroutine⟩ := routine_ok h hs
  have hs0 : (s.entered (.constructor info.type) info.scopes.methods info.scopes.types info.type
      span.mark).Placed := Lowering.entered_placed hs hmethods
  simp only [constructorCode, bind_ok, pure_ok] at hact
  obtain ⟨self, s3, h3, _, s4, h4, _, s5, h5, _, s6, h6, rfl, rfl⟩ := hact
  obtain ⟨hproc3, hcode3, hfresh, hlimit, hslot, hlocals, hcount⟩ :=
    parameter_ok h3 hs0 hs.fresh
  have hs3 := hproc3.placed hs0
  have hinfo3 : s3.scopes.Persistent info.scopes.members :=
    (hproc3.scopes.grows.symbols _ (ScopeTable.grows_push.symbols _ hinfo).1).1
  obtain ⟨code, hemit4, hprep⟩ := prepare_ok h4 hs3.toReady hinfo3
  have hemit5 := emit_ok h5 hemit4.tidy
  have hemit6 := emit_ok h6 hemit5.tidy
  have hemit := hemit4.trans (hemit5.trans hemit6)
  obtain ⟨haside, hends, hname, hresult, hparams, hconstant, hslots, hcode, hencoded⟩ :=
    hroutine (hproc3.trans (hemit.proceeds hs3.toReady) hs0)
  rw [Lowering.entered_slotCount] at hcount hslot hlimit
  rw [Lowering.entered_locals] at hlocals hfresh
  refine ⟨haside, hname, hconstant, [info.type],
    fun T hT => ⟨hparams.symm ▸ rfl, hresult, ?_, hencoded, ?_⟩⟩
  · rw [hslots, hemit.slotCount, hcount]
    rfl
  · have hT4 := hemit5.ends (hemit6.ends (hends _ T hT))
    have hprep := hprep T hT4
    rw [hproc3.home, hlocals, hcode3] at hprep
    rw [hcode, hemit.code_eq, hcode3]
    exact .mk (.cons hfresh hlimit hslot .nil) (if_pos rfl) hprep

end

end Lower

end Bytescript
