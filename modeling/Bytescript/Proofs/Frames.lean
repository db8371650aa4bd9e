import Bytescript.Proofs.Interning
import Bytescript.Proofs.Linkage

/-!
# What compiling code leaves alone

Code is compiled into a draft, and on the way structural types are asked for and constants are
added. A relation of states that allows this much (`Lowering.Frame`) holds between the states before
and after whatever compiling code does (`Lower.Obeys`). It follows the way in which computations are
put together, so that most instances are found from those of the parts; the mutual recursion of
expressions, and that of statements, is where an induction is needed.

One such relation is that functions and classes stay as they were (`Lowering.Confines`). Another is
that nothing that is already there gets lost (`Lowering.Leaves`), whatever the table of types was
made of.
-/

namespace Bytescript

/-- A computation that, where it succeeds, leads from a state to one in a certain relation to it. -/
class Lower.Obeys {α : Type} (R : Lowering → Lowering → Prop) (act : Lower α) : Prop where
  obeys : ∀ {s : Lowering} {a : α} {s' : Lowering}, act s = .ok a s' → R s s'

/-- A relation that carries over to sequences of computations. -/
class Lowering.Chain (R : Lowering → Lowering → Prop) : Prop where
  refl : ∀ s, R s s
  trans : ∀ {s s' s''}, R s s' → R s' s'' → R s s''

/-- A statement without another one in it. -/
def Stmt.isSimple : Stmt → Bool
  | .block .. | .choose .. | .whileLoop .. | .forLoop .. => false
  | _ => true

/-- A relation that allows for structural types to be asked for. -/
class Lowering.Asking (R : Lowering → Lowering → Prop) : Prop extends Lowering.Chain R where
  generic : ∀ {span kind args}, Lower.Obeys R (Lower.generic span kind args)

/-- A relation that allows for terms to be resolved. -/
class Lowering.Reading (R : Lowering → Lowering → Prop) : Prop extends Lowering.Chain R where
  resolveType : ∀ {scope span term id s s'}, Lower.resolveType scope span term s = .ok id s' →
    R s s'

/-- The array type of a type is asked for while the type is in the table. -/
class Lowering.Arraying (R : Lowering → Lowering → Prop) : Prop extends Lowering.Reading R where
  array : ∀ {scope span term element id s s1 s2 s'}, Lower.resolveType scope span term s =
    .ok element s1 →
    R s1 s2 → Lower.generic span .array [element] s2 = .ok id s' → R s s'

/-- A relation that allows for changes of scopes, for new constants and for types that are asked
for. -/
class Lowering.Declaring (R : Lowering → Lowering → Prop) : Prop extends Lowering.Reading R where
  scopes : ∀ {s : Lowering} {scopes : ScopeTable}, R s { s with scopes }
  constant : ∀ {c i s s'}, Lower.constant c s = .ok i s' → R s s'

/-- Between the states, only scopes, marks, globals and notes have changed. -/
def Lowering.Idles (s s' : Lowering) : Prop :=
  s' = { s with
    scopes := s'.scopes
    depth := s'.depth
    globals := s'.globals
    journal := s'.journal
    site := { s.site with
      scope := s'.site.scope
      draft := { s'.site.draft with code := s.site.draft.code } } }

/-- An instruction that neither jumps nor stops the program. -/
@[reducible]
def Instruction.isStraight : Instruction → Bool
  | .stop | .jump _ _ => false
  | _ => true

/-- A relation that carries over to the elementary steps of compiling an expression. -/
class Lowering.Coding (R : Lowering → Lowering → Prop) : Prop
    extends Lowering.Declaring R, Lowering.Arraying R where
  idle : ∀ {s s' : Lowering}, s.Idles s' → R s s'
  emit : ∀ {i : Instruction}, i.isStraight = true → Lower.Obeys R (Lower.emit i)
  emitJump : ∀ {trigger : Trigger}, Lower.Obeys R (Lower.emitJump trigger)
  bindHere : ∀ {jump : Nat}, Lower.Obeys R (Lower.bindHere jump)

/-- A relation that allows for changes of the code, of scopes and of globals, for new constants and
for types that are asked for. -/
class Lowering.Frame (R : Lowering → Lowering → Prop) : Prop extends Lowering.Arraying R where
  edit : ∀ {s s' : Lowering}, s'.types = s.types → s'.pool = s.pool → s'.functions = s.functions →
    s'.classes = s.classes → R s s'
  constant : ∀ {c i s s'}, Lower.constant c s = .ok i s' → R s s'

instance {R : Lowering → Lowering → Prop} [hR : Lowering.Frame R] : Lowering.Coding R where
  scopes := hR.edit rfl rfl rfl rfl
  constant := hR.constant
  resolveType := hR.resolveType
  idle h := hR.edit (by rw [h]) (by rw [h]) (by rw [h]) (by rw [h])
  emit _ := ⟨fun h => by cases h; exact hR.edit rfl rfl rfl rfl⟩
  emitJump := ⟨fun h => by cases h; exact hR.edit rfl rfl rfl rfl⟩
  bindHere := ⟨fun h => by cases h; exact hR.edit rfl rfl rfl rfl⟩
  array := hR.array

/-- A relation that carries over from the parts of a statement to the statement. -/
class Lowering.Structured (R : Lowering → Lowering → Prop) : Prop extends Lowering.Chain R where
  simple : ∀ {natives : List NativeSignature} {s : Stmt}, s.isSimple = true →
    Lower.Obeys R (Lower.stmt natives s)
  setMark : ∀ {mark : Mark}, Lower.Obeys R (Lower.setMark mark)
  bindHere : ∀ {jump : Nat}, Lower.Obeys R (Lower.bindHere jump)
  inBlock : ∀ {act : Lower Unit}, Lower.Obeys R act → Lower.Obeys R (Lower.inBlock act)
  arm :
    ∀ {natives : List NativeSignature} {cond : Expr} {body : Lower Unit} {rest : Lower (List Nat)}
    {more : Bool}, Lower.Obeys R body → Lower.Obeys R rest → Lower.Obeys R (do
      Lower.condition natives cond
      let skip ← Lower.emitJump .ifFalse
      body
      let ends ← if more then do pure [← Lower.emitJump .always] else pure []
      Lower.bindHere skip
      return ends ++ (← rest))
  whileLoop : ∀ {natives : List NativeSignature} {cond : Expr} {body : Lower Unit},
    Lower.Obeys R body → Lower.Obeys R (do
      let top ← Lower.here
      Lower.condition natives cond
      let exit ← Lower.emitJump .ifFalse
      Lower.openLoop top
      body
      Lower.closeLoop
      Lower.bindHere exit)
  /-- What a `for` does after its first statement. -/
  turns : ∀ {natives : List NativeSignature} {cond step : Option Expr} {body : Lower Unit},
    Lower.Obeys R body → Lower.Obeys R (do
      let entry ← Lower.emitJump .always
      let top ← Lower.here
      step.forM (Lower.effect natives)
      Lower.bindHere entry
      cond.forM (Lower.condition natives)
      let exit ← if cond.isSome then some <$> Lower.emitJump .ifFalse else pure none
      Lower.openLoop top
      body
      Lower.closeLoop
      exit.forM Lower.bindHere)

namespace Lower

variable {R : Lowering → Lowering → Prop}

section

variable [hR : Lowering.Chain R] {α β : Type} {x : Lower α} {f : α → Lower β}

/-! ## Putting computations together -/

instance {a : α} : Obeys R (pure a : Lower α) where
  obeys h := by
    obtain ⟨-, rfl⟩ := pure_ok.mp h
    exact hR.refl _

theorem Obeys.bind (hx : Obeys R x) (hf : ∀ a, Obeys R (f a)) : Obeys R (x >>= f) where
  obeys h := by
    obtain ⟨a, _, h1, h2⟩ := bind_ok.mp h
    exact hR.trans (hx.obeys h1) ((hf a).obeys h2)

/-- What follows may rely on the answer. -/
theorem Obeys.bind_of_ok (hx : Obeys R x) (hf : ∀ {s a s'}, x s = .ok a s' → Obeys R (f a)) :
    Obeys R (x >>= f) where
  obeys h := by
    obtain ⟨a, _, h1, h2⟩ := bind_ok.mp h
    exact hR.trans (hx.obeys h1) ((hf h1).obeys h2)

instance {f : α → Lower β} [hx : Obeys R x] [hf : ∀ a, Obeys R (f a)] : Obeys R (x >>= f) :=
  hx.bind hf

instance {f : α → β} [hx : Obeys R x] : Obeys R (f <$> x) where
  obeys h := by
    obtain ⟨_, h1, -⟩ := map_ok.mp h
    exact hx.obeys h1

instance : Obeys R (get : Lower Lowering) where
  obeys h := by
    obtain ⟨-, rfl⟩ := get_ok.mp h
    exact hR.refl _

variable {span : Span} {cause : CompileCause} {type : TypeId} {name : String} {info : ClassInfo}

instance : Obeys R (fail span cause : Lower α) where
  obeys h := (fail_ok.mp h).elim

/-- What would follow a failure does not matter. -/
instance (priority := high) {f : α → Lower β} : Obeys R (fail span cause >>= f) where
  obeys h := by
    obtain ⟨_, _, h1, -⟩ := bind_ok.mp h
    exact (fail_ok.mp h1).elim

instance {e : CompileError} : Obeys R (throw e : Lower α) where
  obeys h := (throw_ok.mp h).elim

instance {p : Prop} [Decidable p] {y : Lower α} [hx : Obeys R x] [hy : Obeys R y] :
    Obeys R (if p then x else y) := by
  split
  · exact hx
  · exact hy

instance {list : List α} {f : α → Lower PUnit} [hf : ∀ a, Obeys R (f a)] :
    Obeys R (list.forM f) := by
  induction list with
  | nil => exact inferInstanceAs (Obeys R (pure _))
  | cons a rest ih => exact inferInstanceAs (Obeys R (f a >>= fun _ => rest.forM f))

instance {o : Option α} {f : α → Lower PUnit} [hf : ∀ a, Obeys R (f a)] : Obeys R (o.forM f) := by
  cases o with
  | none => exact inferInstanceAs (Obeys R (pure _))
  | some a => exact hf a

instance {list : List α} {f : α → Lower β} [hf : ∀ a, Obeys R (f a)] : Obeys R (list.mapM f) := by
  induction list with
  | nil =>
    rw [List.mapM_nil]
    infer_instance
  | cons a rest ih =>
    rw [List.mapM_cons]
    infer_instance

instance {list : List α} {b : β} {f : α → β → Lower (ForInStep β)} [hf : ∀ a b, Obeys R (f a b)] :
    Obeys R (forIn list b f) := by
  induction list generalizing b with
  | nil =>
    rw [List.forIn_nil]
    infer_instance
  | cons a rest ih =>
    rw [List.forIn_cons]
    have hnext : ∀ step : ForInStep β, Obeys R (match step with
        | .done b => (pure b : Lower β)
        | .yield b => forIn rest b f) := by
      rintro (_ | _)
      · infer_instance
      · exact ih
    infer_instance

/-! ## Reading the tables -/

variable {scope : TypeScopeId} {span : Span}

instance : Obeys R here := inferInstanceAs (Obeys R (get >>= _))

instance : Obeys R (typeName type) := inferInstanceAs (Obeys R (get >>= _))

instance {a b : TypeId} : Obeys R (isSame a b) := inferInstanceAs (Obeys R (get >>= _))

instance : Obeys R (kindOf type) := inferInstanceAs (Obeys R (get >>= _))

instance {params : List TypeId} : Obeys R (mangle name params) :=
  inferInstanceAs (Obeys R (get >>= _))

instance : Obeys R (classOfType? type) := inferInstanceAs (Obeys R (get >>= _))

instance : Obeys R (classOf span type) := by
  unfold classOf
  refine .bind inferInstance fun info => ?_
  cases info <;> infer_instance

instance : Obeys R (classNamed scope span name) := by
  dsimp only [classNamed]
  refine .bind inferInstance fun s => ?_
  cases s.types.lookup scope name <;> refine .bind inferInstance fun info => ?_ <;> cases info <;>
    infer_instance

instance : Obeys R (member? info name) :=
  inferInstanceAs (Obeys R (get >>= _))

instance : Obeys R (member span info name) := by
  unfold member
  refine .bind inferInstance fun found => ?_
  cases found <;> infer_instance

instance : Obeys R (localNamed? name) := inferInstanceAs (Obeys R (get >>= _))

instance : Obeys R (functionsNamed name) := inferInstanceAs (Obeys R (get >>= _))

instance : Obeys R (methodsNamed info name) :=
  inferInstanceAs (Obeys R (get >>= _))

instance : Obeys R (nativeType span name) := by
  unfold nativeType
  refine .bind inferInstance fun s => ?_
  cases s.types.lookup .top name <;> infer_instance

instance {natives : List NativeSignature} : Obeys R (nativesNamed natives span name) := by
  unfold nativesNamed
  infer_instance

instance : Obeys R (requireBool span type) := by
  unfold requireBool
  infer_instance

instance {op : BinaryOp} {left right : TypeId} : Obeys R (requireSame span op left right) := by
  unfold requireSame
  infer_instance

instance : Obeys R (methodCallees span type name) := by
  unfold methodCallees
  infer_instance

instance {candidates : List Candidate} {count : Nat} :
    Obeys R (fitting span name candidates count) := by
  unfold fitting
  dsimp only
  split <;> infer_instance

instance {fits : List Candidate} {found : List TypeId} : Obeys R (pick span name fits found) := by
  dsimp only [pick]
  split
  · infer_instance
  · refine .bind inferInstance fun s => ?_
    generalize List.find? _ _ = same?
    cases same? <;> infer_instance

instance : Obeys R (elementType span type) := by
  unfold elementType
  refine .bind inferInstance fun s => ?_
  cases s.types.element? type <;> infer_instance

instance : Obeys R (membersOf info) := inferInstanceAs (Obeys R (get >>= _))

end

instance : Lowering.Chain fun s s' => s' = s where
  refl _ := rfl
  trans h h' := h'.trans h

variable {α : Type} {span : Span} {act : Lower α} {s s' : Lowering} {a : α}

/-- A computation that only looks at the state. -/
theorem reads [hact : Obeys (fun s s' => s' = s) act] (h : act s = .ok a s') : s' = s :=
  hact.obeys h

/-! ## Resolving terms -/

section

variable [hR : Lowering.Asking R] {scope : TypeScopeId} {span : Span}

instance {kind : TypeKind} {args : List TypeId} : Obeys R (generic span kind args) := hR.generic

mutual

theorem resolveType_obeys : ∀ term : TypeTerm, Obeys R (resolveType scope span term)
  | .named name => by
    rw [resolveType]
    refine .bind inferInstance fun s => ?_
    dsimp only
    cases s.types.lookup scope name <;> infer_instance
  | .array element => by
    rw [resolveType]
    exact .bind (resolveType_obeys element) fun _ => inferInstance
  | .tuple elements => by
    rw [resolveType]
    exact .bind (resolveTypes_obey elements) fun _ => inferInstance
  | .function params result => by
    rw [resolveType]
    exact .bind (resolveTypes_obey params) fun _ => .bind (resolveType_obeys result) fun _ =>
      inferInstance

theorem resolveTypes_obey : ∀ terms : List TypeTerm, Obeys R (resolveTypes scope span terms)
  | [] => by
    rw [resolveTypes]
    infer_instance
  | term :: terms => by
    rw [resolveTypes]
    exact .bind (resolveType_obeys term) fun _ => .bind (resolveTypes_obey terms) fun _ =>
      inferInstance

end

instance : Lowering.Reading R where
  resolveType := (resolveType_obeys _).obeys

end

section

variable [hR : Lowering.Reading R] {scope : TypeScopeId} {span : Span} {term : TypeTerm}

instance : Obeys R (resolveType scope span term) := ⟨hR.resolveType⟩

instance {name : String} : Obeys R (variableType scope span name term) := by
  unfold variableType
  infer_instance

instance {head : FunctionHead} : Obeys R (resolveHead scope span head) := by
  unfold resolveHead
  infer_instance

end

/-- Between the states, types have been entered. -/
def Lowering.Retypes (s s' : Lowering) : Prop := s' = { s with types := s'.types }

instance : Lowering.Asking Lowering.Retypes where
  refl _ := rfl
  trans {s s' s''} h h' := by
    rw [Lowering.Retypes, h] at h'
    exact h'
  generic := ⟨fun h => by
    obtain ⟨_, -, rfl⟩ := onTypes_ok h
    rfl⟩

theorem retypes [hact : Obeys Lowering.Retypes act] (h : act s = .ok a s') :
    s' = { s with types := s'.types } := hact.obeys h

/-! ## Declaring -/

section

variable [hR : Lowering.Declaring R] {span : Span}

instance {α : Type} {f : ScopeTable → Except ScopeError α × ScopeTable} :
    Obeys R (onScopes span f) where
  obeys h := by
    obtain ⟨_, -, rfl⟩ := onScopes_ok h
    exact hR.scopes

instance {c : Constant} : Obeys R (constant c) := ⟨hR.constant⟩

variable {name : String} {head : FunctionHead}

instance {type : TypeId} : Obeys R (declareVariable span name type) := by
  unfold declareVariable
  infer_instance

instance : Obeys R (declareFunction span head) := by
  unfold declareFunction
  infer_instance

instance {info : ClassInfo} : Obeys R (declareMethod info span head) := by
  unfold declareMethod methodName
  infer_instance

mutual

theorem declareMember_obeys : ∀ (item : Stmt) {info : ClassInfo},
    Obeys R (declareMember info item)
  | item, _ => by
    cases item with
    | classDecl _ _ body =>
      rw [declareMember]
      exact .bind inferInstance fun _ => declareMembers_obey body
    | _ =>
      simp only [declareMember]
      infer_instance

theorem declareMembers_obey : ∀ (items : List Stmt) {info : ClassInfo},
    Obeys R (declareMembers info items)
  | [], _ => by
    rw [declareMembers]
    infer_instance
  | item :: rest, _ => by
    rw [declareMembers]
    exact .bind (declareMember_obeys item) fun _ => declareMembers_obey rest

end

instance {item : Stmt} : Obeys R (declareItem item) := by
  cases item with
  | classDecl _ _ body => exact .bind inferInstance fun _ => declareMembers_obey body
  | _ =>
    dsimp only [declareItem]
    infer_instance

end

-- that a relation is a chain is found through several classes, again and again within one term
set_option synthInstance.maxSize 512

section

variable [hR : Lowering.Coding R]

/-! ## Elementary steps -/

section

variable {α : Type} {x : Lower α} {mark : Mark} {span : Span}

instance : Obeys R (setMark mark) := ⟨fun h => by cases h; exact hR.idle rfl⟩

instance : Obeys R (swapMark mark) := ⟨fun h => by cases h; exact hR.idle rfl⟩

instance {level : Level} {text : Unit → String} : Obeys R (note level text) :=
  ⟨fun h => by cases h; exact hR.idle rfl⟩

instance {f : ScopeTable → Nat → ScopeId × ScopeTable} : Obeys R (openScope f) :=
  ⟨fun h => by cases h; exact hR.idle rfl⟩

instance : Obeys R closeScope := ⟨fun h => by cases h; exact hR.idle rfl⟩

instance {scope : ScopeId} : Obeys R (setScope scope) := ⟨fun h => by cases h; exact hR.idle rfl⟩

instance {name : String} {global : Global} :
    Obeys R (modify fun s => { s with globals := s.globals.insert name global } : Lower Unit) :=
  ⟨fun h => by cases h; exact hR.idle rfl⟩

instance {trigger : Trigger} : Obeys R (emitJump trigger) := hR.emitJump

instance {jump : Nat} : Obeys R (bindHere jump) := hR.bindHere

theorem Obeys.withMark (h : Obeys R x) : Obeys R (withMark span x) := by
  unfold Lower.withMark
  infer_instance

instance [h : Obeys R x] : Obeys R (withMark span x) := h.withMark

theorem Obeys.inBlock {act : Lower Unit} (h : Obeys R act) : Obeys R (inBlock act) := by
  unfold Lower.inBlock
  infer_instance

/-- Whether an instruction is straight can be seen from its form. -/
class Straight (straight : Bool) : Prop where
  eq : straight = true

instance : Straight true := ⟨rfl⟩

instance {i : Instruction} [hi : Straight i.isStraight] : Obeys R (emit i) := hR.emit hi.eq

theorem putBack_obeys {i : Instruction} {mark : Mark} (hi : i.isStraight = true) :
    Obeys R (putBack (i, mark)) where
  obeys h := by
    cases h
    exact hR.trans ((hR.emit hi).obeys rfl) (hR.idle rfl)

theorem emitAll_obeys {code : List Instruction} (h : ∀ i ∈ code, i.isStraight = true) :
    Obeys R (emitAll code) := by
  induction code with
  | nil => exact inferInstanceAs (Obeys R (pure _))
  | cons i code ih =>
    have hi := hR.emit (h i (.head _))
    exact hi.bind fun _ => ih fun j hj => h j (.tail _ hj)

end

/-! ## Expressions -/

section

variable {natives : List NativeSignature} {span : Span} {target found expected type : TypeId}
  {name : String} {op : BinaryOp}

instance {source : TypeId} : Obeys R (convert source target) := by
  refine .bind inferInstance fun s => emitAll_obeys fun i hi => ?_
  unfold TypeTable.convert at hi
  dsimp only at hi
  split at hi
  · cases hi
  · rcases List.mem_append.mp hi with hi | hi <;> split at hi <;>
      simp only [List.mem_cons, List.not_mem_nil, or_false] at hi
    · exact hi ▸ rfl
    · exact hi ▸ rfl
    · rcases hi with rfl | rfl <;> rfl

instance : Obeys R (coerce span found expected) := by
  unfold coerce
  infer_instance

instance : Obeys R (loadSelf span) := by
  dsimp only [loadSelf]
  refine .bind inferInstance fun s => ?_
  split <;> refine .bind inferInstance fun self => ?_ <;> cases self <;> infer_instance

instance : Obeys R (namedPlace span name) := by
  unfold namedPlace
  refine .bind inferInstance fun found => ?_
  cases found with
  | some found => infer_instance
  | none =>
    refine .bind inferInstance fun s => ?_
    cases s.site.role.class? with
    | none => infer_instance
    | some type =>
      refine .bind inferInstance fun info => .bind inferInstance fun found => ?_
      cases found <;> infer_instance

instance : Obeys R (ident span name) := by
  unfold ident
  refine .bind inferInstance fun found => ?_
  obtain ⟨place, type⟩ := found
  cases place <;> infer_instance

instance {op : UnaryOp} : Obeys R (unary span op type) := by
  unfold unary
  cases op <;> infer_instance

theorem operation_straight {t : TypeTable} {found : Instruction × TypeId}
    (h : t.operation? op type = some found) : found.1.isStraight = true := by
  unfold TypeTable.operation? at h
  dsimp only at h
  repeat' split at h
  all_goals cases h <;> rfl

instance : Obeys R (binary span op type) := by
  dsimp only [binary]
  refine .bind inferInstance fun s => ?_
  cases hop : s.types.operation? op type with
  | none => infer_instance
  | some found =>
    have : Obeys R (emit found.1) := hR.emit (operation_straight hop)
    infer_instance

instance : Obeys R (callees natives span name) := by
  dsimp only [callees]
  refine .bind inferInstance fun functions => ?_
  split
  · infer_instance
  · refine .bind inferInstance fun s => ?_
    cases s.site.role.class? <;> infer_instance

theorem callees_instruction {s s' : Lowering} {candidates : List Candidate}
    {instruction : UInt16 → Instruction}
    (h : callees natives span name s = .ok (candidates, instruction) s') :
    instruction = .call ∨ instruction = .callNative := by
  simp only [callees, bind_ok, ite_ok, pure_ok, Prod.mk.injEq] at h
  obtain ⟨functions, s1, -, ⟨-, ⟨-, rfl⟩, -⟩ | ⟨-, got, _, -, h⟩⟩ := h
  · exact .inl rfl
  · cases hrole : got.site.role.class? <;> simp only [hrole, bind_ok, ite_ok, pure_ok,
    Prod.mk.injEq] at h
    · grind
    · grind

instance {position : Nat} : Obeys R (passArgument span name position found expected) := by
  unfold passArgument
  infer_instance

instance : Obeys R (property span type name) := by
  unfold property
  infer_instance

instance : Obeys R (newObject span name) := by
  unfold newObject
  infer_instance

instance : Obeys R (cast span found target) := by
  unfold cast
  infer_instance

instance {b : Bool} : Obeys R (pushBool b) := inferInstanceAs (Obeys R (emit _))

theorem immediate_straight {value : Int64} {i : Instruction} (h : Draft.immediate? value = some i) :
    i.isStraight = true := by
  unfold Draft.immediate? at h
  dsimp only at h
  repeat' split at h
  all_goals cases h <;> rfl

theorem newArray_obeys {scope : TypeScopeId} {element : TypeTerm} {length : Lower TypeId}
    {inner : Span} (hlength : Obeys R length) : Obeys R (do
      let element ← resolveType scope span element
      if ← isSame element .void then fail span .voidElement
      let found ← length
      coerce inner found .int
      emit (.newArray (← kindOf element))
      generic span .array [element]) where
  obeys h := by
    obtain ⟨element, s1, h1, h⟩ := bind_ok.mp h
    simp only [isSame_bind, fails_ok, bind_ok, kindOf_bind] at h
    obtain ⟨-, found, s3, h3, _, s4, h4, _, s6, h6, h⟩ := h
    have hbetween : Obeys R (do
        let found ← length
        coerce inner found .int
        emit (.newArray (s4.types.kindOf element))) := inferInstance
    exact hR.array h1 (hbetween.obeys (bind_ok.mpr ⟨found, s3, h3, bind_ok.mpr ⟨_, _, h4, h6⟩⟩)) h

mutual

theorem expr_obeys : ∀ e : Expr, Obeys R (expr natives e)
  | .int _ value => by
    rw [expr]
    cases hi : Draft.immediate? value with
    | none => infer_instance
    | some i =>
      have : Obeys R (emit i) := hR.emit (immediate_straight hi)
      infer_instance
  | .float _ _ | .string _ _ | .bool _ _ | .ident _ _ | .self _ | .newObject _ _
  | .assign _ _ _ _ => by
    rw [expr]
    infer_instance
  | .unary _ _ e | .property _ e _ | .cast _ _ e => by
    rw [expr]
    have := expr_obeys e
    infer_instance
  | .binary _ op left right => by
    rw [expr]
    have := expr_obeys left
    have := expr_obeys right
    obtain _ | ⟨trigger, short⟩ := shortcut? op
    · infer_instance
    · refine .withMark (.bind inferInstance fun _ => .bind inferInstance fun _ =>
        .bind inferInstance fun first => .bind inferInstance fun _ => .bind inferInstance fun _ =>
        .bind inferInstance fun second => .bind inferInstance fun _ =>
            .bind inferInstance fun done =>
        .bind inferInstance fun _ => ?_)
      infer_instance
  | .call _ _ list => by
    rw [expr]
    have := fun name position expected => args_obeys name position expected list
    refine .withMark (.bind_of_ok inferInstance fun {_ found _} h => ?_)
    obtain ⟨candidates, instruction⟩ := found
    have : ∀ c, Obeys R (emit (instruction c)) := fun c => hR.emit (by
      rcases callees_instruction h with rfl | rfl <;> rfl)
    infer_instance
  | .methodCall _ receiver _ list => by
    rw [expr]
    have := expr_obeys receiver
    have := fun name position expected => args_obeys name position expected list
    refine .withMark (.bind inferInstance fun _ => .bind inferInstance fun _ => ?_)
    infer_instance
  | .newArray _ element length => by
    rw [expr]
    exact .withMark (.bind inferInstance fun _ => newArray_obeys (expr_obeys length))
  | .index _ array position => by
    rw [expr]
    have := expr_obeys array
    have := expr_obeys position
    infer_instance

theorem args_obeys (name : String) (position : Nat) (expected : Option (List TypeId)) :
    ∀ list : List Expr, Obeys R (args natives name position expected list)
  | [] => by
    rw [args]
    infer_instance
  | e :: es => by
    rw [args]
    have := expr_obeys e
    have := args_obeys name (position + 1) (expected.map List.tail) es
    refine .bind inferInstance fun found => ?_
    obtain _ | _ | _ := expected <;> infer_instance

end

end

instance {natives : List NativeSignature} {e : Expr} : Obeys R (expr natives e) := expr_obeys e

section

variable {natives : List NativeSignature} {span : Span} {e target value : Expr} {name : String}

instance : Obeys R (condition natives e) := by
  unfold condition
  infer_instance

instance : Obeys R (place natives target) := by
  cases target <;> dsimp only [place] <;> infer_instance

instance {op : Option ArithOp} : Obeys R (assign natives span op target value) := by
  simp only [assign, setAside_eq, bind_assoc, pure_bind]
  refine .bind inferInstance fun found => .bind inferInstance fun s => ?_
  have : Obeys R (putBack (found.1.store, s.site.draft.mark)) :=
    putBack_obeys (by cases found.1 <;> rfl)
  have : Obeys R (emitAll found.1.read) := emitAll_obeys (by cases found.1 <;> simp [Place.read])
  cases op <;> infer_instance

instance : Obeys R (effect natives e) := by
  cases e <;> dsimp only [effect] <;> infer_instance

/-! ## Statements -/

instance {kind : Kind} : Obeys R (pushInitial kind) := by
  cases kind <;> dsimp only [pushInitial] <;> infer_instance

instance {term : TypeTerm} {init : Option Expr} :
    Obeys R (varDecl natives span name term init) := by
  dsimp only [varDecl]
  refine .bind inferInstance fun s => .bind inferInstance fun type =>
    .bind inferInstance fun kind => ?_
  cases init <;> infer_instance

instance {value : Option Expr} : Obeys R (ret natives span value) := by
  dsimp only [ret]
  refine .bind inferInstance fun s => ?_
  cases value <;> dsimp only <;> infer_instance

instance : Obeys R (delete natives span value) := by
  unfold delete
  infer_instance

/-- Loops apart, statements are made of the steps of expressions. -/
theorem simple_obeys {s : Stmt} (h : s.isSimple = true) [∀ span, Obeys R (breakLoop span)]
    [∀ span, Obeys R (continueLoop span)] : Obeys R (stmt natives s) := by
  cases s <;> cases h <;> rw [stmt] <;> infer_instance

theorem arm_obeys {cond : Expr} {body : Lower Unit} {rest : Lower (List Nat)} {more : Bool}
    (hbody : Obeys R body) (hrest : Obeys R rest) : Obeys R (do
      condition natives cond
      let skip ← emitJump .ifFalse
      body
      let ends ← if more then do pure [← emitJump .always] else pure []
      bindHere skip
      return ends ++ (← rest)) := by
  refine .bind inferInstance fun _ => .bind inferInstance fun _ => .bind inferInstance fun _ => ?_
  infer_instance

instance {type : TypeId} : Obeys R (parameter span name type) := by
  unfold parameter
  infer_instance

instance {info : ClassInfo} {self : UInt16} {item : Stmt} :
    Obeys R (initialise natives info self item) := by
  unfold initialise
  split
  · refine .bind inferInstance fun found => ?_
    cases found <;> infer_instance
  · infer_instance

end

end

section

variable {natives : List NativeSignature} [hR : Lowering.Structured R]

mutual

theorem stmt_obeys : ∀ s : Stmt, Obeys R (stmt natives s)
  | .var .. | .expr .. | .breakLoop _ | .continueLoop _ | .ret .. | .delete .. | .function ..
  | .classDecl .. => hR.simple rfl
  | .block _ body => by
    rw [stmt]
    exact hR.setMark.bind fun _ => hR.inBlock (stmts_obeys body)
  | .choose _ list none => by
    rw [stmt]
    have : ∀ jump, Obeys R (bindHere jump) := fun _ => hR.bindHere
    exact hR.setMark.bind fun _ => (arms_obeys _ list).bind fun _ => inferInstance
  | .choose _ list (some otherwise) => by
    rw [stmt]
    have : ∀ jump, Obeys R (bindHere jump) := fun _ => hR.bindHere
    exact hR.setMark.bind fun _ => (arms_obeys _ list).bind fun _ =>
      (stmt_obeys otherwise).bind fun _ => inferInstance
  | .whileLoop _ _ body => by
    rw [stmt]
    exact hR.setMark.bind fun _ => hR.whileLoop (stmt_obeys body)
  | .forLoop _ none _ _ body => by
    rw [stmt]
    exact hR.setMark.bind fun _ => hR.inBlock (hR.turns (stmt_obeys body))
  | .forLoop _ (some init) _ _ body => by
    rw [stmt]
    exact hR.setMark.bind fun _ => hR.inBlock ((stmt_obeys init).bind fun _ =>
      hR.turns (stmt_obeys body))

theorem stmts_obeys : ∀ list : List Stmt, Obeys R (stmts natives list)
  | [] => by
    rw [stmts]
    infer_instance
  | s :: rest => by
    rw [stmts]
    exact (stmt_obeys s).bind fun _ => stmts_obeys rest

theorem arms_obeys (hasElse : Bool) : ∀ list : List Arm, Obeys R (arms natives hasElse list)
  | [] => by
    rw [arms]
    infer_instance
  | .mk _ body :: rest => by
    rw [arms]
    exact hR.arm (stmt_obeys body) (arms_obeys hasElse rest)

end

instance {s : Stmt} : Obeys R (stmt natives s) := stmt_obeys s

instance {list : List Stmt} : Obeys R (stmts natives list) := stmts_obeys list

variable [Lowering.Coding R] {span : Span}

instance {role : SiteRole} {head : FunctionHead} {declared : List TypeId} {result : TypeId}
    {code : List Stmt} : Obeys R (bodyCode natives span role head declared result code) := by
  refine .bind inferInstance fun _ => .bind inferInstance fun _ => .bind inferInstance fun _ => ?_
  infer_instance

instance {info : ClassInfo} {items : List Stmt} :
    Obeys R (constructorCode natives info span items) :=
  .bind inferInstance fun _ => .bind inferInstance fun _ => inferInstance

end

variable [hR : Lowering.Frame R]

instance {f : Site → α × Site} : Obeys R (onSite f) where
  obeys h := by
    cases h
    exact hR.edit rfl rfl rfl rfl

instance {target : Nat} : Obeys R (emitJumpTo target) :=
  ⟨fun h => by cases h; exact hR.edit rfl rfl rfl rfl⟩

instance {top : Nat} : Obeys R (openLoop top) := inferInstanceAs (Obeys R (onSite _))

instance : Obeys R closeLoop := by
  unfold closeLoop
  refine .bind inferInstance fun s => ?_
  cases s.site.loops <;> infer_instance

instance : Obeys R (breakLoop span) := by
  unfold breakLoop
  refine .bind inferInstance fun s => ?_
  cases s.site.loops <;> infer_instance

instance : Obeys R (continueLoop span) := by
  unfold continueLoop
  refine .bind inferInstance fun s => ?_
  cases s.site.loops <;> infer_instance

instance : Lowering.Structured R where
  simple h := simple_obeys h
  setMark := inferInstance
  bindHere := inferInstance
  inBlock := .inBlock
  arm := arm_obeys
  whileLoop _ := .bind inferInstance fun _ => .bind inferInstance fun _ =>
      .bind inferInstance fun _ =>
    inferInstance
  turns {natives cond step body} hbody := by
    have hturn : ∀ top (exit : Option Nat), Obeys R (do
        openLoop top
        body
        closeLoop
        exit.forM bindHere) := inferInstance
    refine .bind inferInstance fun _ => .bind inferInstance fun _ => .bind inferInstance fun _ =>
      .bind inferInstance fun _ => .bind inferInstance fun _ => ?_
    dsimp only
    split <;> exact .bind inferInstance fun _ => hturn _ _

/-! ## Routines -/

section

variable {options : CompileOptions} {span : Span} {name : String} {constant : UInt16}
  {role : SiteRole}
  {parent : ScopeId} {typeScope : TypeScopeId} {head : FunctionHead} {code : List Stmt}
    {info : ClassInfo}

instance {site : Site} {params : List TypeId} {constant : Option UInt16} {slots : Nat} :
    Obeys R (finish options name site params constant slots) := by
  dsimp only [finish]
  split
  · infer_instance
  · split
    · split <;> infer_instance
    · infer_instance

instance {result : TypeId} {act : Lower (List TypeId)} [Obeys R act] :
    Obeys R (routine options span role parent typeScope result name constant act) := by
  unfold routine
  refine .bind inferInstance fun _ => .bind inferInstance fun _ => .bind inferInstance fun _ => ?_
  infer_instance

instance : Obeys R (body options span role parent typeScope head name constant code) :=
  .bind inferInstance fun _ => inferInstance

instance : Obeys R (method options info span head code) := by
  unfold method methodName
  infer_instance

instance {items : List Stmt} : Obeys R (constructor options info span items) := by
  unfold constructor
  infer_instance

end

end Lower

/-! ## Functions and classes -/

/-- Functions and classes are as they were. -/
structure Lowering.Confines (s s' : Lowering) : Prop where
  functions : s'.functions = s.functions
  classes : s'.classes = s.classes

instance : Lowering.Frame Lowering.Confines where
  refl _ := ⟨rfl, rfl⟩
  trans h h' := ⟨h'.functions.trans h.functions, h'.classes.trans h.classes⟩
  edit _ _ hfunctions hclasses := ⟨hfunctions, hclasses⟩
  constant h := by
    obtain ⟨_, -, rfl⟩ := Lower.constant_add h
    exact ⟨rfl, rfl⟩
  resolveType h := by
    rw [Lower.retypes h]
    exact ⟨rfl, rfl⟩
  array h h' h'' := by
    obtain ⟨_, -, rfl⟩ := Lower.onTypes_ok h''
    rw [Lower.retypes h] at h'
    exact ⟨h'.functions, h'.classes⟩

/-! ## Types and constants -/

/-- From the first state to the second, structural types have been asked for, constants have been
added, and functions stayed as they were. -/
structure Lowering.Leaves (s s' : Lowering) : Prop where
  types : s.types.Interns s'.types
  pool : s.pool.Sound → s'.pool.Sound ∧ s.pool.Grows s'.pool
  functions : s'.functions = s.functions

namespace Lowering.Leaves

variable {s s' s'' : Lowering}

theorem of_eq (htypes : s'.types = s.types) (hpool : s'.pool = s.pool)
    (hfunctions : s'.functions = s.functions) : s.Leaves s' where
  types := htypes ▸ .refl
  pool h := ⟨hpool ▸ h, hpool ▸ fun _ _ => id⟩
  functions := hfunctions

theorem refl (s : Lowering) : s.Leaves s := of_eq rfl rfl rfl

theorem trans (h : s.Leaves s') (h' : s'.Leaves s'') : s.Leaves s'' where
  types := h.types.trans h'.types
  pool hs := by
    obtain ⟨hs', hgrows⟩ := h.pool hs
    obtain ⟨hs'', hgrows'⟩ := h'.pool hs'
    exact ⟨hs'', fun i c hi => hgrows' i c (hgrows i c hi)⟩
  functions := h'.functions.trans h.functions

end Lowering.Leaves

namespace Lower

variable {span : Span} {id : TypeId} {s s' : Lowering}

theorem resolveType_leaves {scope : TypeScopeId} {term : TypeTerm}
    (h : resolveType scope span term s = .ok id s') (hw : s.types.Woven) : s.Leaves s' := by
  have heq := retypes h
  refine ⟨(resolveType_interns h hw).1, fun hs => ?_, by rw [heq]⟩
  rw [heq]
  exact ⟨hs, fun _ _ hi => hi⟩

theorem generic_leaves {kind : TypeKind} {args : List TypeId}
    (h : generic span kind args s = .ok id s')
    (hw : s.types.Woven) (ha : s.types.Applies kind args) : s.Leaves s' := by
  have hinterns := (generic_interns h hw ha).1
  obtain ⟨_, -, rfl⟩ := onTypes_ok h
  exact ⟨hinterns, fun hs => ⟨hs, fun _ _ hi => hi⟩, rfl⟩

instance : Lowering.Frame fun s s' => s.types.Woven → s.Leaves s' where
  refl s _ := .refl s
  trans h h' hw := (h hw).trans (h' ((h hw).types.woven hw))
  edit htypes hpool hfunctions _ _ := .of_eq htypes hpool hfunctions
  constant {c i s s'} h _ := by
    obtain ⟨_, hadd, rfl⟩ := constant_add h
    refine ⟨.refl, fun hs => ?_, rfl⟩
    obtain ⟨hsound, hgrows, -⟩ := Pool.Builder.add_ok hs hadd
    exact ⟨hsound, hgrows⟩
  resolveType := resolveType_leaves
  array h h' h'' hw := by
    obtain ⟨hinterns, helement⟩ := resolveType_interns h hw
    have hw1 := hinterns.woven hw
    have hbetween := h' hw1
    have helement := helement.trans_le (hbetween.types.later hw1).size
    exact ((resolveType_leaves h hw).trans hbetween).trans
      (generic_leaves h'' (hbetween.types.woven hw1) (.array helement))

/-- A computation that, where it succeeds, does no more than compile code. -/
abbrev Frames {α : Type} (act : Lower α) : Prop :=
  Obeys (fun s s' => s.types.Woven → s.Leaves s') act

theorem Frames.leaves {α : Type} {act : Lower α} [hact : Frames act] {a : α} (h : act s = .ok a s')
    (hw : s.types.Woven) : s.Leaves s' := hact.obeys h hw

section

variable {options : CompileOptions} {span : Span} {info : ClassInfo}
  {methods : Std.TreeMap String Routine}

instance {constructor : Routine} : Frames (finishClass info constructor methods) := by
  dsimp only [finishClass]
  refine .bind inferInstance fun members => ⟨fun h _ => ?_⟩
  obtain rfl := modify_ok.mp h
  exact .of_eq rfl rfl rfl

mutual

theorem classItems_frames : ∀ (items : List Stmt) {info : ClassInfo}
    {methods : Std.TreeMap String Routine}, Frames (classItems options info methods items)
  | [], _, _ => by
    rw [classItems]
    infer_instance
  | item :: rest, info, methods => by
    rw [classItems]
    exact .bind (classItem_frames item) fun _ => classItems_frames rest

theorem classItem_frames :
    ∀ (item : Stmt) {info : ClassInfo} {methods : Std.TreeMap String Routine},
    Frames (classItem options info methods item)
  | item, _, _ => by
    cases item with
    | classDecl _ _ items =>
      rw [classItem]
      have : ∀ info methods, Frames (classItems options info methods items) :=
        fun _ _ => classItems_frames items
      infer_instance
    | _ =>
      simp only [classItem]
      infer_instance

end

instance {items : List Stmt} : Frames (classItems options info methods items) :=
  classItems_frames items

/-- Only a function adds to the finished functions. -/
theorem item_frames {item : Stmt} (h : item.function? = none) :
    Frames (Lower.item options item) := by
  cases item <;> simp only [Stmt.function?, reduceCtorEq] at h <;> dsimp only [Lower.item] <;>
    infer_instance

end

end Lower

end Bytescript
