import Bytescript.Proofs.Lowering.Naming

/-!
# The code of expressions

`Computes` says which code an expression has, construct by construct: what is emitted, in which
order, and where jumps aim at. It speaks about the tables at the end of compiling and about nothing
that comes and goes while compiling. Compiling an expression emits such code (`expr_ok`).

Conversions, kinds and operations are those of the primitive types; all tables that scripts can have
agree with them there.
-/

namespace Bytescript

/-- The routine that code belongs to. -/
structure Home where
  role : SiteRole
  typeScope : TypeScopeId
  result : TypeId

/-- What is computed: the value of an expression, of some type, or the arguments of a call, of some
types and converted to others. -/
inductive Work where
  | expr (e : Expr) (type : TypeId)
  | args (es : List Expr) (found types : List TypeId)

def boolByte (b : Bool) : Instruction := .pushByte (if b then 1 else 0)

open TypeTable (primitives) in
/-- The code of an expression that begins at an index. -/
inductive Computes (T : Tables) (H : Home) (Γ : Locals) : Work → Nat → List Instruction → Prop
  | immediate {span v i b} : Draft.immediate? v = some i →
    Computes T H Γ (.expr (.int span v) .int) b [i]
  | integer {span v c b} :
    T.pool[c.toNat]? = some (.integer v) →
    Computes T H Γ (.expr (.int span v) .int) b [.pushConst c]
  | float {span v c b} :
    T.pool[c.toNat]? = some (.float v) →
    Computes T H Γ (.expr (.float span v) .double) b [.pushConst c]
  | string {span v c b} :
    T.pool[c.toNat]? = some (.string v) →
    Computes T H Γ (.expr (.string span v) .string) b [.pushConst c]
  | bool {span v b} : Computes T H Γ (.expr (.bool span v) .bool) b [boolByte v]
  | named {span name slot t b} :
    Γ name = some (slot, t) →
    Computes T H Γ (.expr (.ident span name) t) b [.load (primitives.kindOf t) slot]
  | member {span name cls self t info slot m b} :
    Γ name = none → H.role.class? = some cls → T.scopes.classInfo? cls = some info →
    T.HasMember info name m t → Γ "this" = some (slot, self) →
    Computes T H Γ (.expr (.ident span name) t) b
      [.load .ref slot, .getField (primitives.kindOf t) m]
  | self {span t slot b} :
    H.role.class?.isSome = true → Γ "this" = some (slot, t) →
    Computes T H Γ (.expr (.self span) t) b [.load .ref slot]
  | neg {span e t b code} :
    t = .int ∨ t = .double → Computes T H Γ (.expr e t) b code →
    Computes T H Γ (.expr (.unary span .neg e) t) b (code ++ [.neg (primitives.kindOf t)])
  | not {span e b code} :
    Computes T H Γ (.expr e .bool) b code →
    Computes T H Γ (.expr (.unary span .not e) .bool) b (code ++ [.not])
  | shortcut {span op l r trigger short b cl cr other stop} :
    Lower.shortcut? op = some (trigger, short) →
    Computes T H Γ (.expr l .bool) b cl →
    Computes T H Γ (.expr r .bool) (b + cl.length + 1) cr →
    other = b + cl.length + 1 + cr.length + 3 → stop = other + 1 →
    Computes T H Γ (.expr (.binary span op l r) .bool) b
      (cl ++ .jump trigger other.toUInt32 :: (cr ++ [.jump trigger other.toUInt32, boolByte !short,
        .jump .always stop.toUInt32, boolByte short]))
  | binary {span op l r t result i b cl cr} :
    Lower.shortcut? op = none →
    Computes T H Γ (.expr l t) b cl → Computes T H Γ (.expr r t) (b + cl.length) cr →
    primitives.operation? op t = some (i, result) →
    Computes T H Γ (.expr (.binary span op l r) result) b (cl ++ (cr ++ [i]))
  | call {span name list found c b code} :
    Selects (T.functionsNamed name) found c → Computes T H Γ (.args list found c.params) b code →
    Computes T H Γ (.expr (.call span name list) c.result) b (code ++ [.call c.callee])
  | callSelf {span name list cls self info found c slot b code} :
    T.functionsNamed name = [] → H.role.class? = some cls → T.scopes.classInfo? cls = some info →
    Selects (T.methodsNamed info name) found c → Γ "this" = some (slot, self) →
    Computes T H Γ (.args list found c.params) (b + 1) code →
    Computes T H Γ (.expr (.call span name list) c.result) b
      (.load .ref slot :: (code ++ [.call c.callee]))
  | callNative {span name list index found params result b code} :
    T.functionsNamed name = [] →
    (∀ cls info, H.role.class? = some cls → T.scopes.classInfo? cls = some info →
      T.methodsNamed info name = []) →
    Callee T (.callNative index) params result → Computes T H Γ (.args list found params) b code →
    Computes T H Γ (.expr (.call span name list) result) b (code ++ [.callNative index])
  | methodCall {span receiver name list cls info found c b cr code} :
    Computes T H Γ (.expr receiver cls) b cr → T.scopes.classInfo? cls = some info →
    Selects (T.methodsNamed info name) found c →
    Computes T H Γ (.args list found c.params) (b + cr.length) code →
    Computes T H Γ (.expr (.methodCall span receiver name list) c.result) b
      (cr ++ (code ++ [.call c.callee]))
  | length {span object t el b code} :
    Computes T H Γ (.expr object t) b code → T.types.element? t = some el →
    Computes T H Γ (.expr (.property span object "length") .int) b (code ++ [.arrayLength])
  | property {span object name cls t info m b code} :
    Computes T H Γ (.expr object cls) b code → T.scopes.classInfo? cls = some info →
    T.HasMember info name m t →
    Computes T H Γ (.expr (.property span object name) t) b
      (code ++ [.getField (primitives.kindOf t) m])
  | newObject {span name cls info b} :
    T.types.lookup H.typeScope name = some cls → T.scopes.classInfo? cls = some info →
    Computes T H Γ (.expr (.newObject span name) cls) b
      [.newObject info.scopes.constant, .call info.constructor]
  | newArray {span term n el found array b code} :
    T.types.meaning H.typeScope term = some el → el ≠ .void →
    Computes T H Γ (.expr n found) b code → primitives.isAssignable found .int = true →
    T.types.generic? .array [el] = some array →
    Computes T H Γ (.expr (.newArray span term n) array) b
      (code ++ (primitives.convert found .int ++ [.newArray (primitives.kindOf el)]))
  | index {span array position t el found b ca cp} :
    Computes T H Γ (.expr array t) b ca → T.types.element? t = some el →
    Computes T H Γ (.expr position found) (b + ca.length) cp →
    primitives.isAssignable found .int = true →
    Computes T H Γ (.expr (.index span array position) el) b
      (ca ++ (cp ++ (primitives.convert found .int ++ [.getElement (primitives.kindOf el)])))
  | cast {span term e found target b code} :
    T.types.meaning H.typeScope term = some target → Computes T H Γ (.expr e found) b code →
    (primitives.conversion found target).isSome = true →
    Computes T H Γ (.expr (.cast span term e) target) b (code ++ primitives.convert found target)
  | nil {b} : Computes T H Γ (.args [] [] []) b []
  | cons {e es found type founds types b ce ces} :
    Computes T H Γ (.expr e found) b ce → primitives.isAssignable found type = true →
    Computes T H Γ (.args es founds types) (b + (ce ++ primitives.convert found type).length) ces →
    Computes T H Γ (.args (e :: es) (found :: founds) (type :: types)) b
      (ce ++ primitives.convert found type ++ ces)

/-! ## States that expressions are compiled in -/

def Lowering.home (s : Lowering) : Home := ⟨s.site.role, s.site.typeScope, s.site.result⟩

def Lowering.locals (s : Lowering) : Locals := s.scopes.locals s.site.scope

structure Lowering.Ready (s : Lowering) : Prop extends Tidy s where
  scopes : s.scopes.Sound
  scope_lt : s.site.scope.index < s.scopes.size

namespace Moves

variable {s s' : Lowering} (h : Moves s s')

include h

theorem home : s'.home = s.home := by rw [Lowering.home, h.role, h.typeScope, h.result,
    Lowering.home]

theorem locals : s'.locals = s.locals := by rw [Lowering.locals, h.scopes, h.scope, Lowering.locals]

theorem ready (hs : s.Ready) : s'.Ready :=
  ⟨h.tidy, h.scopes ▸ hs.scopes, by rw [h.scopes, h.scope]; exact hs.scope_lt⟩

end Moves

variable {type element : TypeId}

theorem TypeTable.Grows.element? {t t' : TypeTable} (h : t.Grows t') (ht : t.Regular)
    (ht' : t'.Regular) (he : t.element? type = some element) : t'.element? type = some element := by
  have hlt : type.index < t.size := by
    apply Nat.lt_of_not_le
    intro hle
    rw [TypeTable.element?, ht.resolve, TypeTable.get, Array.getD_eq_getD_getElem?,
      Array.getElem?_eq_none hle] at he
    cases he
  simp only [TypeTable.element?, ht.resolve, ht'.resolve] at he ⊢
  rw [h.get hlt, he]

theorem Lowering.Within.element? {s : Lowering} {T : Tables} (hT : s.Within T) (ht : s.Tidy)
    (h : s.types.element? type = some element) : T.types.element? type = some element :=
  hT.types.element? ht.types.toRegular hT.sound.toRegular h

namespace Lower

open TypeTable (primitives)

/-! ## Parts of expressions -/

section

variable {s s' : Lowering} {u : Unit} {found expected type result : TypeId} {span : Span}
  {name : String} {op : BinaryOp} {candidates fits : List Candidate}

theorem convert_ok (h : convert found expected s = .ok u s') (ht : s.Tidy) :
    Emits s s' (primitives.convert found expected) := by
  rw [convert, get_bind] at h
  rw [ht.types.convert] at h
  exact emitAll_ok h ht

theorem converted_ok (h : s.types.isAssignable found expected = true ∧
    convert found expected s = .ok u s') (ht : s.Tidy) :
    Emits s s' (primitives.convert found expected) ∧
    primitives.isAssignable found expected = true :=
  ⟨convert_ok h.2 ht, ht.types.isAssignable .. ▸ h.1⟩

theorem coerce_ok (h : coerce span found expected s = .ok u s') (ht : s.Tidy) :
    Emits s s' (primitives.convert found expected) ∧
    primitives.isAssignable found expected = true :=
  converted_ok (by simpa [coerce] using h) ht

theorem passArgument_ok {position : Nat}
    (h : passArgument span name position found expected s = .ok u s') (ht : s.Tidy) :
    Emits s s' (primitives.convert found expected) ∧
    primitives.isAssignable found expected = true :=
  converted_ok (by simpa [passArgument] using h) ht

theorem isSame_true {left right : TypeId} (h : isSame left right s = .ok true s') (ht : s.Tidy) :
    s' = s ∧ left = right := by
  obtain ⟨hsame, rfl⟩ := EStateM.Result.ok.inj h
  rw [ht.types.same] at hsame
  exact ⟨rfl, of_decide_eq_true hsame⟩

theorem requireSame_ok {left right : TypeId} (h : requireSame span op left right s = .ok u s')
    (ht : s.Tidy) :
    s' = s ∧ left = right := isSame_true (by simpa [requireSame] using h) ht

theorem requireBool_ok (h : requireBool span type s = .ok u s') (ht : s.Tidy) :
    s' = s ∧ type = .bool :=
  isSame_true (by simpa [requireBool] using h) ht

theorem loadSelf_ok (h : loadSelf span s = .ok type s') (ht : s.Tidy) :
    ∃ slot, s.site.role.class?.isSome = true ∧ s.locals "this" = some (slot, type) ∧
      Emits s s' [.load .ref slot] := by
  rw [loadSelf, get_bind] at h
  cases hrole : s.site.role.class?.isSome with
  | false => simp [hrole] at h
  | true =>
    simp only [hrole, ↓reduceIte, bind_ok] at h
    obtain ⟨self?, s1, h1, h⟩ := h
    obtain ⟨rfl, hself⟩ := localNamed?_ok h1
    cases self? with
    | none => simp at h
    | some found =>
      simp only [bind_ok, pure_ok] at h
      obtain ⟨_, s2, h2, rfl, rfl⟩ := h
      exact ⟨found.1, rfl, hself.symm, emit_ok h2 ht⟩

/-- A name is a variable or, from inside a class, a member of the receiver. -/
theorem namedPlace_ok {place : Place} (h : namedPlace span name s = .ok (place, type) s')
    (hs : s.Ready) :
    (∃ slot, s' = s ∧ place = .slot (primitives.kindOf type) slot ∧
        s.locals name = some (slot, type)) ∨
      ∃ cls info slot self m, place = .field (primitives.kindOf type) m ∧ s.locals name = none ∧
        s.site.role.class? = some cls ∧ s.scopes.classInfo? cls = some info ∧
        s.scopes.lookupHere info.scopes.members name = some ⟨name, type, .variable m⟩ ∧
        s.locals "this" = some (slot, self) ∧ Emits s s' [.load .ref slot] := by
  simp only [namedPlace, bind_ok] at h
  obtain ⟨found, s1, h1, h⟩ := h
  obtain ⟨rfl, hlocal⟩ := localNamed?_ok h1
  cases found with
  | some found =>
    cases h
    rw [hs.types.kindOf]
    exact .inl ⟨found.1, rfl, rfl, hlocal.symm⟩
  | none =>
    simp only [bind_ok, get_ok] at h
    obtain ⟨_, _, ⟨rfl, rfl⟩, h⟩ := h
    cases hrole : s1.site.role.class? with
    | none => simp [hrole] at h
    | some cls =>
      simp only [hrole, bind_ok] at h
      obtain ⟨info, s2, h2, m?, s3, h3, h⟩ := h
      obtain ⟨rfl, hinfo⟩ := classOf_ok h2 hs.toTidy
      obtain ⟨rfl, hmember⟩ := member?_ok h3
      cases m? with
      | none => simp at h
      | some m =>
        obtain ⟨self, s4, h4, h⟩ := bind_ok.mp h
        obtain ⟨slot, -, hself, hemit⟩ := loadSelf_ok h4 hs.toTidy
        cases h
        rw [hemit.tidy.types.kindOf]
        exact .inr ⟨cls, info, slot, self, m.1, rfl, hlocal.symm, rfl, hinfo,
          hmember _ _ rfl, hself, hemit⟩

theorem unary_ok {op : UnaryOp} (h : unary span op type s = .ok result s') (ht : s.Tidy) :
    result = type ∧
      ((op = .neg ∧ (type = .int ∨ type = .double) ∧ Emits s s' [.neg (primitives.kindOf type)]) ∨
        (op = .not ∧ type = .bool ∧ Emits s s' [.not])) := by
  rw [unary, get_bind] at h
  cases op with
  | neg =>
    simp only [ite_ok, bind_ok, pure_ok, fail_ok, and_false, or_false, ht.types.resolve,
      ← TypeTable.primitives_regular.kindOf_eq] at h
    obtain ⟨htype, _, s1, h1, rfl, rfl⟩ := h
    exact ⟨rfl, .inl ⟨rfl, htype, emit_ok h1 ht⟩⟩
  | not =>
    simp only [ite_ok, bind_ok, pure_ok, fail_ok, and_false, or_false, ht.types.resolve] at h
    obtain ⟨htype, _, s1, h1, rfl, rfl⟩ := h
    exact ⟨rfl, .inr ⟨rfl, htype, emit_ok h1 ht⟩⟩

theorem binary_ok (h : binary span op type s = .ok result s') (ht : s.Tidy) :
    ∃ i, primitives.operation? op type = some (i, result) ∧ Emits s s' [i] := by
  rw [binary, get_bind] at h
  rw [ht.types.operation?] at h
  cases hop : primitives.operation? op type with
  | none => simp [hop] at h
  | some found =>
    simp only [hop, bind_ok, pure_ok] at h
    obtain ⟨_, s1, h1, rfl, rfl⟩ := h
    exact ⟨found.1, rfl, emit_ok h1 ht⟩

/-! ## Calls -/

theorem methodCallees_ok (h : methodCallees span type name s = .ok candidates s') (hs : s.Ready) :
    ∃ info, s' = s ∧ s.scopes.classInfo? type = some info ∧
      ∀ natives (T : Tables), s.Ends natives T → candidates = T.methodsNamed info name := by
  simp only [methodCallees, bind_ok, fails_ok, pure_ok] at h
  obtain ⟨info, s1, h1, methods, s2, h2, -, rfl, rfl⟩ := h
  obtain ⟨rfl, hinfo⟩ := classOf_ok h1 hs.toTidy
  obtain ⟨rfl, hmethods⟩ := methodsNamed_ok h2 hs.scopes hinfo
  exact ⟨info, rfl, hinfo, hmethods⟩

/-- What the candidates of a plain call are: functions, else methods of the receiver, which has been
pushed for them, else natives. -/
theorem callees_ok {natives : List NativeSignature} {instruction : UInt16 → Instruction}
    (h : callees natives span name s = .ok (candidates, instruction) s') (hs : s.Ready) :
    (s' = s ∧ instruction = .call ∧ ∀ T : Tables, s.Ends natives T →
        candidates = T.functionsNamed name) ∨
      (∃ cls info slot self, instruction = .call ∧ s.site.role.class? = some cls ∧
        s.scopes.classInfo? cls = some info ∧ s.locals "this" = some (slot, self) ∧
        Emits s s' [.load .ref slot] ∧ ∀ T : Tables, s.Ends natives T →
          T.functionsNamed name = [] ∧ candidates = T.methodsNamed info name) ∨
      s' = s ∧ instruction = .callNative ∧ ∀ T : Tables, s.Ends natives T →
        T.functionsNamed name = [] ∧
        (∀ cls info, s.site.role.class? = some cls → T.scopes.classInfo? cls = some info →
          T.methodsNamed info name = []) ∧
        ∀ c ∈ candidates, Callee T (.callNative c.callee) c.params c.result := by
  simp only [callees, bind_ok, ite_ok, pure_ok, Prod.mk.injEq] at h
  obtain ⟨functions, s1, h1, h⟩ := h
  obtain ⟨rfl, hfunctions⟩ := functionsNamed_ok h1 hs.scopes hs.scope_lt
  rcases h with ⟨-, ⟨rfl, rfl⟩, rfl⟩ | ⟨hnone, _, _, hget, h⟩
  · exact .inl ⟨rfl, rfl, fun T hT => hfunctions natives T hT⟩
  · obtain ⟨rfl, rfl⟩ := get_ok.mp hget
    have hnone : ∀ T : Tables, s1.Ends natives T → T.functionsNamed name = [] := by
      intro T hT
      rw [← hfunctions natives T hT]
      simpa using hnone
    have hnative : ∀ {s s' : Lowering}, (∃ found s1, nativesNamed natives span name s =
      .ok found s1 ∧
        (found.isEmpty = true ∧ (∃ u s2, (fail span (.undefinedFunction name) : Lower Unit) s1 =
            .ok u s2 ∧ (found = candidates ∧ Instruction.callNative = instruction) ∧ s2 = s') ∨
          ¬ found.isEmpty = true ∧ (found = candidates ∧ Instruction.callNative = instruction) ∧
            s1 = s')) →
        s' = s ∧ instruction = .callNative ∧ ∀ T : Tables, s.Ends natives T →
          ∀ c ∈ candidates, Callee T (.callNative c.callee) c.params c.result := by
      rintro s s' ⟨found, s1, h1, ⟨-, _, _, hfail, -⟩ | ⟨-, ⟨rfl, rfl⟩, rfl⟩⟩
      · exact absurd hfail (by simp)
      · obtain ⟨rfl, hfound⟩ := nativesNamed_ok h1
        exact ⟨rfl, rfl, fun T hT c hc => hfound c hc T hT⟩
    cases hrole : s1.site.role.class? with
    | none =>
      simp only [hrole, bind_ok, ite_ok, pure_ok, Prod.mk.injEq] at h
      obtain ⟨rfl, rfl, hfound⟩ := hnative h
      exact .inr (.inr ⟨rfl, rfl, fun T hT => ⟨hnone T hT, (by rintro _ _ ⟨⟩), hfound T hT⟩⟩)
    | some cls =>
      simp only [hrole, bind_ok, ite_ok, pure_ok, Prod.mk.injEq] at h
      obtain ⟨info, s2, h2, methods, s3, h3, h⟩ := h
      obtain ⟨rfl, hinfo⟩ := classOf_ok h2 hs.toTidy
      obtain ⟨rfl, hmethods⟩ := methodsNamed_ok h3 hs.scopes hinfo
      rcases h with ⟨-, self, s4, h4, ⟨rfl, rfl⟩, rfl⟩ | ⟨hempty, h⟩
      · obtain ⟨slot, -, hself, hemit⟩ := loadSelf_ok h4 hs.toTidy
        exact .inr (.inl ⟨cls, info, slot, self, rfl, rfl, hinfo, hself, hemit,
          fun T hT => ⟨hnone T hT, hmethods natives T hT⟩⟩)
      · obtain ⟨rfl, rfl, hfound⟩ := hnative h
        refine .inr (.inr ⟨rfl, rfl, fun T hT => ⟨hnone T hT, ?_, hfound T hT⟩⟩)
        rintro _ info' ⟨⟩ hinfo'
        cases (hT.scopes.classInfo? hs.scopes hinfo).symm.trans hinfo'
        rw [← hmethods natives T hT]
        simpa using hempty

theorem fitting_ok {count : Nat} (h : fitting span name candidates count s = .ok fits s') :
    s' = s ∧ fits = candidates.filter (·.params.length = count) := by
  unfold fitting at h
  generalize candidates.filter (·.params.length = count) = list at h ⊢
  match list, candidates, h with
  | [], [only], h => simp at h
  | [], [], h | [], _ :: _ :: _, h | _ :: _, _, h =>
    exact ⟨(pure_ok.mp h).2.symm, (pure_ok.mp h).1.symm⟩

/-- The candidate that is picked either is the only one, whose types the arguments were converted
to, or has the types of the arguments. -/
theorem pick_ok {found : List TypeId} {c : Candidate} (h : pick span name fits found s = .ok c s')
    (ht : s.Tidy) (hfits : ∀ c ∈ fits, c.params.length = found.length) :
    s' = s ∧ (fits = [c] ∨ 2 ≤ fits.length ∧ c ∈ fits ∧ c.params = found) := by
  obtain _ | ⟨a, _ | ⟨b, rest⟩⟩ := fits
  · simp [pick] at h
  · simp only [pick, pure_ok] at h
    obtain ⟨rfl, rfl⟩ := h
    exact ⟨rfl, .inl rfl⟩
  · simp only [pick, bind_ok, get_ok] at h
    obtain ⟨_, _, ⟨rfl, rfl⟩, h⟩ := h
    generalize hfind : List.find? _ _ = same? at h
    cases same? with
    | none => simp at h
    | some c' =>
      simp only [pure_ok] at h
      obtain ⟨rfl, rfl⟩ := h
      have hmem := List.mem_of_find?_eq_some hfind
      refine ⟨rfl, .inr ⟨Nat.le_add_left 2 _, hmem, ?_⟩⟩
      have hall := List.find?_some hfind
      simp only [ht.types.same, List.all_eq_true, decide_eq_true_eq] at hall
      apply List.ext_getElem (hfits _ hmem)
      intro i hi hi'
      have hzip : i < (c'.params.zip found).length := by
        rw [List.length_zip]
        omega
      have := hall _ (List.getElem_mem hzip)
      rwa [List.getElem_zip] at this

/-! ## Jumps within expressions -/

theorem bindHere_ok {jump : Nat} (h : bindHere jump s = .ok u s') (ht : s.Tidy) :
    Moves s s' ∧ s'.code = s.code.modify jump (·.retarget s.code.length.toUInt32) := by
  cases h
  refine ⟨.withDraft ht _, ?_⟩
  simp [Lowering.code, Draft.bindHere, Draft.bind, Draft.size]

end

theorem modify_append_cons {α : Type} (before after : List α) (x : α) (f : α → α) {n : Nat}
    (hn : n = before.length) : (before ++ x :: after).modify n f = before ++ f x :: after := by
  subst hn
  induction before with
  | nil => rfl
  | cons a before ih => simpa using ih

/-- A jump that is bound aims behind the code. -/
theorem bindHere_at (before : List Instruction) (trigger : Trigger) (after : List Instruction)
    {jump : Nat} {u : Unit} {s s' : Lowering} (h : bindHere jump s = .ok u s') (ht : s.Tidy)
    (hcode : s.code = before ++ .jump trigger 0 :: after) (hjump : jump = before.length) :
    Moves s s' ∧ s'.code = before ++ .jump trigger s.code.length.toUInt32 :: after := by
  obtain ⟨hmove, hcode'⟩ := bindHere_ok h ht
  generalize s.code.length = n at hcode' ⊢
  rw [hcode, modify_append_cons _ _ _ _ hjump] at hcode'
  exact ⟨hmove, hcode'⟩

/-! ## Expressions -/

/-- Compiling has emitted code that is as it should be, from where it begins on. -/
def Coded (natives : List NativeSignature)
    (P : Tables → Home → Locals → Nat → List Instruction → Prop) (s s' : Lowering) : Prop :=
  ∃ code, Emits s s' code ∧ ∀ T : Tables, s'.Ends natives T → P T s.home s.locals s.code.length code

/-- Compiling has emitted the code of some work. -/
abbrev Compiled (natives : List NativeSignature) (w : Work) : Lowering → Lowering → Prop :=
  Coded natives (Computes · · · w)

section

variable {natives : List NativeSignature} {s s1 s2 s' : Lowering} {u : Unit} {op : BinaryOp}
  {l r : Expr} {term : TypeTerm} {found : TypeId} {es : List Expr} {rest : List TypeId}

variable {P : Tables → Home → Locals → Nat → List Instruction → Prop}

/-- Seen from the code before it. -/
theorem Coded.after {before : List Instruction} (h : Coded natives P s1 s')
    (h1 : Emits s s1 before) :
    ∃ code, Emits s1 s' code ∧ ∀ T : Tables, s'.Ends natives T →
      P T s.home s.locals (s.code.length + before.length) code := by
  rw [← h1.home, ← h1.locals, ← h1.length]
  exact h

theorem Coded.marked (h1 : Emits s s1 []) (h : Coded natives P s1 s2)
    (h2 : s2.Tidy → Emits s2 s' []) : Coded natives P s s' := by
  obtain ⟨code, hemit, hcode⟩ := h.after h1
  have h2 := h2 hemit.tidy
  exact ⟨code, by simpa using (h1.trans hemit).trans h2, fun T hT => hcode T (h2.ends hT)⟩

theorem pushBool_ok {b : Bool} (h : pushBool b s = .ok u s') (ht : s.Tidy) :
    Emits s s' [boolByte b] :=
  emit_ok h ht

variable {span : Span} {t type : TypeId} {name : String} {e : Expr}

theorem int_ok {v : Int64}
    (h : (do
      match Draft.immediate? v with
      | some i => emit i
      | none => emit (.pushConst (← constant (.integer v)))
      return .int : Lower TypeId) s = .ok t s') (hs : s.Ready) :
    Compiled natives (.expr (.int span v) t) s s' := by
  cases himm : Draft.immediate? v with
  | some i =>
    simp only [himm, bind_ok, pure_ok] at h
    obtain ⟨_, s1, h1, rfl, rfl⟩ := h
    exact ⟨_, emit_ok h1 hs.toTidy, fun T _ => .immediate himm⟩
  | none =>
    simp only [himm, bind_ok, pure_ok] at h
    obtain ⟨c, s1, h1, _, s2, h2, rfl, rfl⟩ := h
    obtain ⟨hemit1, hc⟩ := constant_ok h1 hs.toTidy
    have hemit2 := emit_ok h2 hemit1.tidy
    exact ⟨_, hemit1.trans hemit2, fun T hT => .integer ((hemit2.ends hT).pool _ _ hc)⟩

theorem ident_ok (h : ident span name s = .ok t s') (hs : s.Ready) :
    Compiled natives (.expr (.ident span name) t) s s' := by
  simp only [ident, bind_ok] at h
  obtain ⟨⟨place, type⟩, s1, h1, h⟩ := h
  rcases namedPlace_ok h1 hs with ⟨slot, rfl, rfl, hlocal⟩ |
    ⟨cls, info, slot, self, m, rfl, hlocal, hrole, hinfo, hmember, hself, hemit⟩
  · simp only [bind_ok, pure_ok] at h
    obtain ⟨_, s2, h2, rfl, rfl⟩ := h
    exact ⟨_, emit_ok h2 hs.toTidy, fun T _ => .named hlocal⟩
  · simp only [bind_ok, pure_ok] at h
    obtain ⟨_, s2, h2, rfl, rfl⟩ := h
    have hemit2 := emit_ok h2 hemit.tidy
    refine ⟨_, hemit.trans hemit2, fun T hT => ?_⟩
    have hT := hemit.ends (hemit2.ends hT)
    exact .member hlocal hrole (hT.scopes.classInfo? hs.scopes hinfo)
      (hT.scopes.lookupHere (hs.scopes.classInfo?_parts hinfo).1.persistent hmember) hself

theorem newObject_ok (h : newObject span name s = .ok t s') (hs : s.Ready) :
    Compiled natives (.expr (.newObject span name) t) s s' := by
  simp only [newObject, bind_ok, get_bind, pure_ok] at h
  obtain ⟨info, s1, h1, _, s2, h2, _, s3, h3, rfl, rfl⟩ := h
  obtain ⟨rfl, type, htype, hinfo⟩ := classNamed_ok h1 hs.toTidy
  have hemit2 := emit_ok h2 hs.toTidy
  have hemit3 := emit_ok h3 hemit2.tidy
  refine ⟨_, hemit2.trans hemit3, fun T hT => ?_⟩
  have hT := hemit2.ends (hemit3.ends hT)
  rw [ScopeTable.classInfo?_type hinfo]
  exact .newObject (hT.types.lookup _ _ _ htype) (hT.scopes.classInfo? hs.scopes hinfo)

theorem Compiled.unary {op : UnaryOp} (he : Compiled natives (.expr e type) s s1)
    (h : unary span op type s1 = .ok t s') : Compiled natives
    (.expr (.unary span op e) t) s s' := by
  obtain ⟨code, hemit, hcode⟩ := he
  obtain ⟨rfl, ⟨rfl, htype, hemit'⟩ | ⟨rfl, rfl, hemit'⟩⟩ := unary_ok h hemit.tidy
  · exact ⟨_, hemit.trans hemit', fun T hT => .neg htype (hcode T (hemit'.ends hT))⟩
  · exact ⟨_, hemit.trans hemit', fun T hT => .not (hcode T (hemit'.ends hT))⟩

theorem Compiled.binary (hop : shortcut? op = none) (hl : Compiled natives (.expr l type) s s1)
    (hr : Compiled natives (.expr r type) s1 s2) (h : binary span op type s2 = .ok t s') :
    Compiled natives (.expr (.binary span op l r) t) s s' := by
  obtain ⟨cl, hemit1, hcl⟩ := hl
  obtain ⟨cr, hemit2, hcr⟩ := hr.after hemit1
  obtain ⟨i, hi, hemit3⟩ := binary_ok h hemit2.tidy
  refine ⟨_, hemit1.trans (hemit2.trans hemit3), fun T hT => ?_⟩
  have hT2 := hemit3.ends hT
  exact .binary hop (hcl T (hemit2.ends hT2)) (hcr T hT2) hi

/-- The code of a condition, if that of the expression is known. -/
theorem condition_compiled
    (he : ∀ {t s s'}, expr natives e s = .ok t s' → s.Ready → Compiled natives (.expr e t) s s')
    (h : condition natives e s = .ok u s') (hs : s.Ready) : Compiled natives
    (.expr e .bool) s s' := by
  obtain ⟨type, s1, h1, h2⟩ := bind_ok.mp h
  obtain ⟨code, hemit, hcode⟩ := he h1 hs
  obtain ⟨rfl, rfl⟩ := requireBool_ok h2 hemit.tidy
  exact ⟨code, hemit, hcode⟩

/-- The two jumps of a short-circuit aim at the value that decides early, the third one behind it.
-/
theorem Compiled.shortcut {trigger : Trigger} {short : Bool}
    (hop : shortcut? op = some (trigger, short))
    (hs : s.Ready) (h : shortcut trigger short (condition natives l) (condition natives r) s =
      .ok t s')
    (hl : ∀ {u s s'}, condition natives l s = .ok u s' → s.Ready →
      Compiled natives (.expr l .bool) s s')
    (hr : ∀ {u s s'}, condition natives r s = .ok u s' → s.Ready →
      Compiled natives (.expr r .bool) s s') :
    Compiled natives (.expr (.binary span op l r) t) s s' := by
  simp only [Lower.shortcut, bind_ok, pure_ok] at h
  obtain ⟨_, s1, h1, first, s2, h2, _, s3, h3, second, s4, h4, _, s5, h5, done, s6, h6, _, s7, h7,
    _, s8, h8, _, s9, h9, _, s10, h10, rfl, rfl⟩ := h
  obtain ⟨cl, hemit1, hcl⟩ := hl h1 hs
  obtain ⟨rfl, hemit2⟩ := emitJump_ok h2 hemit1.tidy
  obtain ⟨cr, hemit3, hcr⟩ := (hr h3 (hemit2.ready (hemit1.ready hs))).after (hemit1.trans hemit2)
  obtain ⟨rfl, hemit4⟩ := emitJump_ok h4 hemit3.tidy
  have hemit5 := pushBool_ok h5 hemit4.tidy
  obtain ⟨rfl, hemit6⟩ := emitJump_ok h6 hemit5.tidy
  -- what has been emitted when the first jump is bound
  have hcode1 := hemit1.code_eq
  have hcode3 : s3.code = s.code ++ (cl ++ .jump trigger 0 :: cr) := by
    rw [hemit3.code_eq, hemit2.code_eq, hcode1]
    simp
  have hcode5 : s5.code = s.code ++ (cl ++ .jump trigger 0 ::
    (cr ++ [.jump trigger 0, boolByte !short])) := by
    rw [hemit5.code_eq, hemit4.code_eq, hcode3]
    simp
  obtain ⟨hmove7, hcode7⟩ := bindHere_at (s.code ++ cl) trigger
    (cr ++ [.jump trigger 0, boolByte !short, .jump .always 0]) h7 hemit6.tidy
      (by rw [hemit6.code_eq, hcode5]; simp) (by rw [hcode1])
  obtain ⟨hmove8, hcode8⟩ :=
    bindHere_at (s.code ++ (cl ++ .jump trigger s6.code.length.toUInt32 :: cr))
    trigger [boolByte !short, .jump .always 0] h8 hmove7.tidy
    (by rw [hcode7]; simp) (by rw [hcode3]; simp)
  have hemit9 := pushBool_ok h9 hmove8.tidy
  obtain ⟨hmove10, hcode10⟩ := bindHere_at
    (s.code ++ (cl ++ .jump trigger s6.code.length.toUInt32 ::
      (cr ++ [.jump trigger s7.code.length.toUInt32, boolByte !short])))
    .always [boolByte short] h10 hemit9.tidy
    (by rw [hemit9.code_eq, hcode8]; simp) (by rw [hcode5]; simp)
  have hlen6 : s6.code.length = s.code.length + cl.length + 1 + cr.length + 3 := by
    rw [hemit6.length, hcode5]
    simp
    omega
  have hlen7 : s7.code.length = s6.code.length := by rw [hcode7, hlen6]; simp; omega
  have hlen9 : s9.code.length = s6.code.length + 1 :=
    by rw [hemit9.length, hcode8, hlen6]; simp; omega
  rw [hlen7, hlen9, List.append_assoc] at hcode10
  have hmove3 : Moves s3 s10 := hemit4.toMoves.trans (hemit5.toMoves.trans (hemit6.toMoves.trans
    (hmove7.trans (hmove8.trans (hemit9.toMoves.trans hmove10)))))
  refine ⟨_, ⟨hemit1.toMoves.trans (hemit2.toMoves.trans (hemit3.toMoves.trans hmove3)), hcode10⟩,
    fun T hT => ?_⟩
  have hT3 := hmove3.ends hT
  have hcr := hcr T hT3
  rw [List.length_append, ← Nat.add_assoc] at hcr
  simpa using Computes.shortcut hop (hcl T (hemit2.ends (hemit3.ends hT3))) hcr hlen6 rfl

theorem elementType_ok (h : elementType span type s = .ok element s') :
    s' = s ∧ s.types.element? type = some element := by
  rw [elementType, get_bind] at h
  cases he : s.types.element? type with
  | none => simp [he] at h
  | some found =>
    simp only [he, pure_ok] at h
    obtain ⟨rfl, rfl⟩ := h
    exact ⟨rfl, rfl⟩

theorem Compiled.property {object : Expr} (ho : Compiled natives (.expr object type) s s1)
    (hs : s.Ready) (h : property span type name s1 = .ok t s') :
    Compiled natives (.expr (.property span object name) t) s s' := by
  obtain ⟨code, hemit, hcode⟩ := ho
  have hs1 := hemit.ready hs
  simp only [Lower.property, get_bind, bind_ok, ite_ok, kindOf_bind, pure_ok] at h
  rcases h with ⟨hlength, _, s2, h2, rfl, rfl⟩ | ⟨-, info, s2, h2, ⟨m, mt⟩, s3, h3, h⟩
  · simp only [Bool.and_eq_true, decide_eq_true_eq] at hlength
    obtain ⟨rfl, hel⟩ := hlength
    obtain ⟨el, hel⟩ := Option.isSome_iff_exists.mp hel
    have hemit2 := emit_ok h2 hemit.tidy
    exact ⟨_, hemit.trans hemit2, fun T hT => .length (hcode T (hemit2.ends hT))
      ((hemit2.ends hT).element? hemit.tidy hel)⟩
  · obtain ⟨_, s5, h5, rfl, rfl⟩ := h
    obtain ⟨rfl, hinfo⟩ := classOf_ok h2 hemit.tidy
    obtain ⟨rfl, hmember⟩ := member_ok h3
    have hemit2 := emit_ok h5 hemit.tidy
    rw [hemit.tidy.types.kindOf] at hemit2
    refine ⟨_, hemit.trans hemit2, fun T hT => ?_⟩
    have hT := hemit2.ends hT
    exact .property (hcode T hT) (hT.scopes.classInfo? hs1.scopes hinfo)
      (hT.scopes.lookupHere (hs1.scopes.classInfo?_parts hinfo).1.persistent hmember)

theorem Compiled.cast {target : TypeId} (hemit1 : Emits s s1 [])
    (hterm : s1.types.meaning s.site.typeScope term = some target)
    (he : Compiled natives (.expr e found) s1 s2) (h : cast span found target s2 = .ok t s') :
    Compiled natives (.expr (.cast span term e) t) s s' := by
  obtain ⟨code, hemit2, hcode⟩ := he.after hemit1
  simp only [Lower.cast, get_bind, bind_ok, ite_ok, fail_ok, false_and, exists_false, and_false,
    false_or, pure_ok] at h
  obtain ⟨hconv, _, s3, h3, rfl, rfl⟩ := h
  have hconv : (s2.types.conversion found target).isSome = true := by
    simpa [Option.isSome_iff_ne_none] using hconv
  rw [hemit2.tidy.types.conversion_isSome] at hconv
  have hemit3 := convert_ok h3 hemit2.tidy
  refine ⟨code ++ primitives.convert found target,
    by simpa using (hemit1.trans hemit2).trans hemit3, fun T hT => ?_⟩
  have hT2 := hemit3.ends hT
  exact .cast ((hemit2.ends hT2).meaning hemit1.tidy hterm) (hcode T hT2) hconv

theorem Compiled.index {span : Span} {array position : Expr} {type element found t : TypeId}
    (ha : Compiled natives (.expr array type) s s1) (hel : s1.types.element? type = some element)
    (hp : Compiled natives (.expr position found) s1 s2) (h : (do
      coerce position.span found .int
      emit (.getElement (← kindOf element))
      return element : Lower TypeId) s2 = .ok t s') :
    Compiled natives (.expr (.index span array position) t) s s' := by
  obtain ⟨ca, hemit1, hca⟩ := ha
  obtain ⟨cp, hemit2, hcp⟩ := hp.after hemit1
  simp only [bind_ok, kindOf_bind, pure_ok] at h
  obtain ⟨_, s3, h3, _, s5, h5, rfl, rfl⟩ := h
  obtain ⟨hemit3, hassign⟩ := coerce_ok h3 hemit2.tidy
  have hemit4 := emit_ok h5 hemit3.tidy
  rw [hemit3.tidy.types.kindOf] at hemit4
  refine ⟨_, hemit1.trans (hemit2.trans (hemit3.trans hemit4)), fun T hT => ?_⟩
  have hT2 := hemit3.ends (hemit4.ends hT)
  have hT1 := hemit2.ends hT2
  exact .index (hca T hT1) (hT1.element? hemit1.tidy hel) (hcp T hT2) hassign

theorem Compiled.newArray {span : Span} {term : TypeTerm} {n : Expr} {element found t : TypeId}
    (hemit1 : Emits s s1 []) (hterm : s1.types.meaning s.site.typeScope term = some element)
    (hvoid : element ≠ .void) (he : Compiled natives (.expr n found) s1 s2) (h : (do
      coerce n.span found .int
      emit (.newArray (← kindOf element))
      generic span .array [element] : Lower TypeId) s2 = .ok t s') :
    Compiled natives (.expr (.newArray span term n) t) s s' := by
  obtain ⟨code, hemit2, hcode⟩ := he.after hemit1
  simp only [bind_ok, kindOf_bind] at h
  obtain ⟨_, s3, h3, _, s5, h5, h6⟩ := h
  obtain ⟨hemit3, hassign⟩ := coerce_ok h3 hemit2.tidy
  have hemit4 := emit_ok h5 hemit3.tidy
  rw [hemit3.tidy.types.kindOf] at hemit4
  have hlt : ∀ a ∈ [element], a.index < s5.types.size := by
    intro a ha
    rw [List.mem_singleton.mp ha]
    have := hemit1.tidy.types.meaning_lt hterm
    have := (hemit2.types.trans (hemit3.types.trans hemit4.types)).size
    omega
  obtain ⟨hemit5, hid⟩ := generic_ok h6 hemit4.tidy hlt
  refine ⟨code ++ (primitives.convert found .int ++ [.newArray (primitives.kindOf element)]), ?_,
    fun T hT => ?_⟩
  · simpa using hemit1.trans (hemit2.trans (hemit3.trans (hemit4.trans hemit5)))
  have hT2 := hemit3.ends (hemit4.ends (hemit5.ends hT))
  refine .newArray ((hemit2.ends hT2).meaning hemit1.tidy hterm) hvoid (hcode T hT2) hassign
    (hT.types.generic? hemit5.tidy.types.toRegular hT.sound.toRegular ?_ hid)
  intro a ha
  exact Nat.lt_of_lt_of_le (hlt a ha) hemit5.types.size

/-- Compiling has emitted the code of arguments, converted to the types that were expected, if any
were, or else as they came. -/
def CompiledArgs (natives : List NativeSignature) (es : List Expr) (expected : Option (List TypeId))
    (found : List TypeId) (s s' : Lowering) : Prop :=
  found.length = es.length ∧ ∃ code, Emits s s' code ∧ ∀ types : List TypeId,
    types.length = es.length → (expected = some types ∨ expected = none ∧ types = found) →
    ∀ T : Tables, s'.Ends natives T →
      Computes T s.home s.locals (.args es found types) s.code.length code

theorem convert_self (type : TypeId) : primitives.convert type type = [] := by
  simp [TypeTable.convert]

theorem isAssignable_self (type : TypeId) : primitives.isAssignable type type = true := by
  simp [TypeTable.isAssignable, TypeTable.conversion]

theorem CompiledArgs.cons {types : List TypeId} {position : Nat}
    (he : Compiled natives (.expr e found) s s1)
    (hpass : passArgument e.span name position found type s1 = .ok u s2)
    (hes : CompiledArgs natives es (some types) rest s2 s') :
    CompiledArgs natives (e :: es) (some (type :: types)) (found :: rest) s s' := by
  obtain ⟨ce, hemit1, hce⟩ := he
  obtain ⟨hemit2, hassign⟩ := passArgument_ok hpass hemit1.tidy
  obtain ⟨hlen, ces, hemit3, hces⟩ := hes
  refine ⟨by simp [hlen], _, (hemit1.trans hemit2).trans hemit3, fun ts hts hexp T hT => ?_⟩
  rcases hexp with hexp | ⟨hexp, -⟩
  · cases hexp
    have hT2 := hemit3.ends hT
    have hces := hces types (by simpa using hts) (.inl rfl) T hT
    rw [hemit2.home, hemit1.home, hemit2.locals, hemit1.locals,
      (hemit1.trans hemit2).length] at hces
    exact .cons (hce T (hemit2.ends hT2)) hassign hces
  · cases hexp

/-- Without an expected type the argument keeps its own. -/
theorem CompiledArgs.consFree {expected : Option (List TypeId)}
    (he : Compiled natives (.expr e found) s s1)
    (hnone : ∀ type types, expected ≠ some (type :: types))
    (hes : CompiledArgs natives es (expected.map List.tail) rest s1 s') :
    CompiledArgs natives (e :: es) expected (found :: rest) s s' := by
  obtain ⟨ce, hemit1, hce⟩ := he
  obtain ⟨hlen, ces, hemit3, hces⟩ := hes
  refine ⟨by simp [hlen], _, hemit1.trans hemit3, fun ts hts hexp T hT => ?_⟩
  have hexp : expected = none ∧ ts = found :: rest := by
    rcases hexp with hexp | hexp
    · cases ts with
      | nil => simp at hts
      | cons type types => exact absurd hexp (hnone type types)
    · exact hexp
  obtain ⟨rfl, rfl⟩ := hexp
  have hT1 := hemit3.ends hT
  have hces := hces rest hlen (.inr ⟨rfl, rfl⟩) T hT
  rw [hemit1.home, hemit1.locals, hemit1.length] at hces
  have hcode := Computes.cons (hce T hT1) (isAssignable_self found)
    (by simpa only [convert_self, List.append_nil] using hces)
  simpa only [convert_self, List.append_nil] using hcode

theorem expected?_many {fits : List Candidate} (h : 2 ≤ fits.length) : expected? fits = none := by
  match fits, h with
  | _ :: _ :: _, _ => rfl

/-- The end of every call: the candidate that is picked takes the arguments as they are. -/
theorem CompiledArgs.called {candidates : List Candidate} {list : List Expr} {found : List TypeId}
    {c : Candidate} {i : Instruction}
    (hargs : CompiledArgs natives list
      (expected? (candidates.filter (·.params.length = list.length))) found s s1)
    (h : pick span name (candidates.filter (·.params.length = list.length)) found s1 = .ok c s2)
    (h' : emit i s2 = .ok u s') : Selects candidates found c ∧ ∃ code, Emits s s' (code ++ [i]) ∧
      ∀ T : Tables, s'.Ends natives T →
        Computes T s.home s.locals (.args list found c.params) s.code.length code := by
  obtain ⟨hlen, code, hemit, hcode⟩ := hargs
  rw [← hlen] at h hcode
  obtain ⟨rfl, hpick⟩ := pick_ok h hemit.tidy fun c hc => by simpa using (List.mem_filter.mp hc).2
  have hemit' := emit_ok h' hemit.tidy
  rcases hpick with honly | ⟨hmany, hmem, hfound⟩
  · have hsel : Selects candidates found c := .only honly
    exact ⟨hsel, code, hemit.trans hemit', fun T hT =>
      hcode c.params hsel.length_eq (.inl (by rw [honly]; rfl)) T (hemit'.ends hT)⟩
  · exact ⟨.among hmany (List.mem_filter.mp hmem).1 hfound, code, hemit.trans hemit', fun T hT =>
      hcode c.params (by rw [hfound]) (.inr ⟨expected?_many hmany, hfound⟩) T (hemit'.ends hT)⟩

end

mutual

/-- Compiling an expression emits its code. -/
theorem expr_ok {natives : List NativeSignature} :
    ∀ (e : Expr) {t : TypeId} {s s' : Lowering}, expr natives e s = .ok t s' → s.Ready →
      Compiled natives (.expr e t) s s'
  | e, t, s, s', h, hs => by
    unfold expr at h
    obtain ⟨s1, s2, h1, h, h2⟩ := withMark_ok h hs.toTidy
    refine .marked h1 ?_ h2
    have hs1 := h1.ready hs
    cases e with
    | int span v => exact int_ok h hs1
    | float span v =>
      simp only [bind_ok, pure_ok] at h
      obtain ⟨c, s3, h3, _, s4, h4, rfl, rfl⟩ := h
      obtain ⟨hemit3, hc⟩ := constant_ok h3 h1.tidy
      have hemit4 := emit_ok h4 hemit3.tidy
      exact ⟨_, hemit3.trans hemit4, fun T hT => .float ((hemit4.ends hT).pool _ _ hc)⟩
    | string span v =>
      simp only [bind_ok, pure_ok] at h
      obtain ⟨c, s3, h3, _, s4, h4, rfl, rfl⟩ := h
      obtain ⟨hemit3, hc⟩ := constant_ok h3 h1.tidy
      have hemit4 := emit_ok h4 hemit3.tidy
      exact ⟨_, hemit3.trans hemit4, fun T hT => .string ((hemit4.ends hT).pool _ _ hc)⟩
    | bool span v =>
      simp only [bind_ok, pure_ok] at h
      obtain ⟨_, s3, h3, rfl, rfl⟩ := h
      exact ⟨_, pushBool_ok h3 h1.tidy, fun T _ => .bool⟩
    | ident span name => exact ident_ok h hs1
    | self span =>
      obtain ⟨slot, hrole, hself, hemit⟩ := loadSelf_ok h h1.tidy
      exact ⟨_, hemit, fun T _ => .self hrole hself⟩
    | unary span op operand =>
      simp only [bind_ok] at h
      obtain ⟨type, s3, h3, h⟩ := h
      exact (expr_ok operand h3 hs1).unary h
    | binary span op left right =>
      cases hop : shortcut? op with
      | some found =>
        simp only [hop] at h
        exact Compiled.shortcut hop hs1 h (condition_compiled (expr_ok left))
          (condition_compiled (expr_ok right))
      | none =>
        simp only [hop, bind_ok] at h
        obtain ⟨lt, s3, h3, rt, s4, h4, _, s5, h5, h⟩ := h
        have hl := expr_ok left h3 hs1
        have hr := expr_ok right h4 (hl.choose_spec.1.ready hs1)
        obtain ⟨rfl, rfl⟩ := requireSame_ok h5 hr.choose_spec.1.tidy
        exact hl.binary hop hr h
    | assign span op target value => simp at h
    | call span name list =>
      simp only [bind_ok, pure_ok] at h
      obtain ⟨⟨candidates, instruction⟩, s3, h3, fits, s4, h4, found, s5, h5, c, s6, h6, _, s7, h7,
        rfl, rfl⟩ := h
      obtain ⟨rfl, rfl⟩ := fitting_ok h4
      rcases callees_ok h3 hs1 with ⟨rfl, rfl, hfunctions⟩ |
        ⟨cls, info, slot, self, rfl, hrole, hinfo, hself, hemit3, hmethods⟩ | ⟨rfl, rfl, hnatives⟩
      · obtain ⟨hsel, code, hemit, hcode⟩ := (args_ok list h5 hs1).called h6 h7
        refine ⟨_, hemit, fun T hT => ?_⟩
        exact .call (hfunctions T (hemit.ends hT) ▸ hsel) (hcode T hT)
      · obtain ⟨hsel, code, hemit, hcode⟩ := (args_ok list h5 (hemit3.ready hs1)).called h6 h7
        refine ⟨_, hemit3.trans hemit, fun T hT => ?_⟩
        have hT1 := hemit3.ends (hemit.ends hT)
        have hcode := hcode T hT
        rw [hemit3.home, hemit3.locals, hemit3.length] at hcode
        obtain ⟨hnone, rfl⟩ := hmethods T hT1
        exact .callSelf hnone hrole (hT1.scopes.classInfo? hs1.scopes hinfo) hsel hself hcode
      · obtain ⟨hsel, code, hemit, hcode⟩ := (args_ok list h5 hs1).called h6 h7
        refine ⟨_, hemit, fun T hT => ?_⟩
        obtain ⟨hnone, hmethods, hcallee⟩ := hnatives T (hemit.ends hT)
        exact .callNative hnone hmethods (hcallee c hsel.mem) (hcode T hT)
    | methodCall span receiver name list =>
      simp only [bind_ok, pure_ok] at h
      obtain ⟨cls, s3, h3, candidates, s4, h4, fits, s5, h5, found, s6, h6, c, s7, h7, _, s8, h8,
        rfl, rfl⟩ := h
      obtain ⟨cr, hemit3, hcr⟩ := expr_ok receiver h3 hs1
      have hs3 := hemit3.ready hs1
      obtain ⟨info, rfl, hinfo, hmethods⟩ := methodCallees_ok h4 hs3
      obtain ⟨rfl, rfl⟩ := fitting_ok h5
      obtain ⟨hsel, code, hemit6, hcode⟩ := (args_ok list h6 hs3).called h7 h8
      refine ⟨_, hemit3.trans hemit6, fun T hT => ?_⟩
      have hT3 := hemit6.ends hT
      have hcode := hcode T hT
      rw [hemit3.home, hemit3.locals, hemit3.length] at hcode
      exact .methodCall (hcr T hT3) (hT3.scopes.classInfo? hs3.scopes hinfo)
        (hmethods natives T hT3 ▸ hsel) hcode
    | property span object name =>
      simp only [bind_ok] at h
      obtain ⟨type, s3, h3, h⟩ := h
      exact (expr_ok object h3 hs1).property hs1 h
    | newObject span name => exact newObject_ok h hs1
    | newArray span element length =>
      simp only [get_bind] at h
      obtain ⟨el, s3, h3, h⟩ := bind_ok.mp h
      obtain ⟨hemit3, hel⟩ := resolveType_ok h3 h1.tidy
      rw [isSame_bind, fails_ok, bind_ok] at h
      obtain ⟨hvoid, found, s5, h5, h⟩ := h
      rw [hemit3.tidy.types.same, decide_eq_true_eq] at hvoid
      have he := expr_ok length h5 (hemit3.ready hs1)
      exact Compiled.newArray hemit3 hel hvoid he (by simpa only [bind_ok] using h)
    | index span array position =>
      rw [bind_ok] at h
      obtain ⟨type, s3, h3, h⟩ := h
      have ha := expr_ok array h3 hs1
      rw [bind_ok] at h
      obtain ⟨el, s4, h4, h⟩ := h
      obtain ⟨rfl, hel⟩ := elementType_ok h4
      rw [bind_ok] at h
      obtain ⟨found, s5, h5, h⟩ := h
      exact ha.index hel (expr_ok position h5 (ha.choose_spec.1.ready hs1)) h
    | cast span target operand =>
      simp only [bind_ok, get_bind] at h
      obtain ⟨type, s3, h3, found, s4, h4, h⟩ := h
      obtain ⟨hemit3, htype⟩ := resolveType_ok h3 h1.tidy
      exact Compiled.cast hemit3 htype (expr_ok operand h4 (hemit3.ready hs1)) h

theorem args_ok {natives : List NativeSignature} {name : String} :
    ∀ (es : List Expr) {position : Nat} {expected : Option (List TypeId)} {found : List TypeId}
      {s s' : Lowering}, args natives name position expected es s = .ok found s' → s.Ready →
      CompiledArgs natives es expected found s s'
  | [], position, expected, found, s, s', h, hs => by
    simp only [args, pure_ok] at h
    obtain ⟨rfl, rfl⟩ := h
    refine ⟨rfl, [], .refl hs.toTidy, fun types htypes _ T _ => ?_⟩
    rw [List.length_nil, List.length_eq_zero_iff] at htypes
    subst htypes
    exact .nil
  | e :: es, position, expected, found, s, s', h, hs => by
    simp only [args, bind_ok] at h
    obtain ⟨type, s1, h1, h⟩ := h
    have he := expr_ok e h1 hs
    have hs1 := he.choose_spec.1.ready hs
    match expected, h with
    | some (expect :: rest), h =>
      simp only [bind_ok, pure_ok] at h
      obtain ⟨u, s2, h2, types, s3, h3, rfl, rfl⟩ := h
      have hs2 := (passArgument_ok h2 hs1.toTidy).1.ready hs1
      exact .cons he h2 (args_ok es h3 hs2)
    | some [], h | none, h =>
      simp only [bind_ok, pure_ok] at h
      obtain ⟨types, s3, h3, rfl, rfl⟩ := h
      exact .consFree he (by simp) (args_ok es h3 hs1)

end

end Lower

end Bytescript
