import Bytescript.Proofs.Encoding
import Bytescript.Proofs.Frames

/-!
# Finished routines

What holds of every routine of a compiled script, whatever its names and the table of types are.
Something that compiling a body and compiling a constructor tell about the routine, and that stays
true while the rest is compiled, is true of all routines at the end (`Script.Stages.told`). What
stays true on the way is said by a relation of states that compiling items keeps up
(`Lowering.Course`).

The first such fact is that the code of a routine has been encoded and that it does not end with a
call, because the code of a statement never does.
-/

namespace Bytescript

/-! ## What is told about routines -/

/-- A relation that carries over to everything that compiling the items of a script does. -/
class Lowering.Course (R : Lowering → Lowering → Prop) : Prop extends Lowering.Declaring R where
  body : ∀ {options span role parent typeScope head name constant code},
    Lower.Obeys R (Lower.body options span role parent typeScope head name constant code)
  constructor : ∀ {options info span items},
    Lower.Obeys R (Lower.constructor options info span items)
  stmt : ∀ {natives item}, Lower.Obeys R (Lower.stmt natives item)
  /-- What has been finished may be noted. -/
  record : ∀ {s : Lowering} {functions classes}, R s { s with functions, classes }

instance : Lowering.Course fun _ _ => True where
  refl _ := trivial
  trans _ _ := trivial
  scopes := trivial
  constant _ := trivial
  resolveType _ := trivial
  body := ⟨fun _ => trivial⟩
  constructor := ⟨fun _ => trivial⟩
  stmt := ⟨fun _ => trivial⟩
  record := trivial

/-- What is said about a routine in a state; the truth value says whether it is a constructor. -/
abbrev Verdict := Lowering → Bool → Routine → Prop

/-- Compiling a routine tells this about it, and it stays true. -/
structure Verdict.Told (Q : Verdict) (options : CompileOptions) (R : Lowering → Lowering → Prop)
    (s0 : Lowering) : Prop where
  later : ∀ {s s' built r}, R s s' → Q s built r → Q s' built r
  body : ∀ {span role parent typeScope head name constant code r s s'}, R s0 s →
    Lower.body options span role parent typeScope head name constant code s = .ok r s' →
    Q s' false r
  constructor : ∀ {info span items r s s'}, R s0 s →
    Lower.constructor options info span items s = .ok r s' → Q s' true r

/-- What is said about the routines in a map. -/
def Verdict.Covers (Q : Verdict) (s : Lowering) (map : Std.TreeMap String Routine) : Prop :=
  ∀ (name : String) r, map[name]? = some r → Q s false r

/-- What has been compiled so far is as it is said to be. -/
structure Verdict.Holds (Q : Verdict) (R : Lowering → Lowering → Prop) (s₀ s : Lowering) :
    Prop where
  since : R s₀ s
  functions : Q.Covers s s.functions
  constructors : ∀ (name : String) c, s.classes[name]? = some c → Q s true c.constructor
  methods : ∀ (name : String) c, s.classes[name]? = some c → Q.Covers s c.methods

section

variable {options : CompileOptions} {R : Lowering → Lowering →
  Prop} {Q : Verdict} {s0 s s' : Lowering}

namespace Verdict

variable {map : Std.TreeMap String Routine}

theorem Covers.empty : Q.Covers s ∅ := fun name r h => by simp at h

theorem Covers.later (h : Q.Covers s map) (hQ : Q.Told options R s0) (hs : R s s') :
    Q.Covers s' map :=
  fun name r hr => hQ.later hs (h name r hr)

theorem Covers.insert (h : Q.Covers s map) (name : String) {r : Routine} (hr : Q s false r) :
    Q.Covers s (map.insert name r) := by
  intro name' r' hr'
  rw [getElem?_insert_string] at hr'
  split at hr'
  · cases hr'
    exact hr
  · exact h name' r' hr'

theorem Holds.later [hR : Lowering.Chain R] (h : Q.Holds R s0 s) (hQ : Q.Told options R s0)
    (hs : R s s') (hconfines : s.Confines s') : Q.Holds R s0 s' where
  since := hR.trans h.since hs
  functions := hconfines.functions ▸ h.functions.later hQ hs
  constructors name c hc := hQ.later hs (h.constructors name c (hconfines.classes ▸ hc))
  methods name c hc := (h.methods name c (hconfines.classes ▸ hc)).later hQ hs

end Verdict

namespace Lower

variable [hR : Lowering.Course R] {span : Span} {head : FunctionHead} {name : String}
  {code items : List Stmt} {info : ClassInfo} {item : Stmt} {built : Routine} {u : Unit}

instance {role : SiteRole} {parent : ScopeId} {typeScope : TypeScopeId} {index : UInt16} :
    Obeys R (body options span role parent typeScope head name index code) := hR.body

instance : Obeys R (constructor options info span items) := hR.constructor

instance {natives : List NativeSignature} : Obeys R (stmt natives item) := hR.stmt

instance {methods : Std.TreeMap String Routine} : Obeys R (finishClass info built methods) where
  obeys h := by
    simp only [finishClass, bind_ok, modify_ok] at h
    obtain ⟨members, s1, h1, rfl⟩ := h
    obtain rfl := reads h1
    exact hR.record

theorem step_told (hQ : Q.Told options R s0) {α : Type} {act : Lower α} [hact : Obeys R act]
    [hconfines : Obeys Lowering.Confines act] {a : α} (h : act s = .ok a s') (hs : Q.Holds R s0 s) :
    Q.Holds R s0 s' :=
  hs.later hQ (hact.obeys h) (hconfines.obeys h)

theorem function_told (hQ : Q.Told options R s0) (h : function options span head code s = .ok u s')
    (hs : Q.Holds R s0 s) : Q.Holds R s0 s' := by
  simp only [function, bind_ok, modify_ok] at h
  obtain ⟨⟨params, _⟩, s1, h1, name, s2, h2, index, s3, h3, r, s4, h4, rfl⟩ := h
  have hs3 := step_told hQ h3 (step_told hQ h2 (step_told hQ h1 hs))
  have hs4 := step_told hQ h4 hs3
  have hrecord : R s4 { s4 with functions := s4.functions.insert name r } := hR.record
  refine ⟨hR.trans hs4.since hrecord, ?_, fun name' c hc => ?_, fun name' c hc => ?_⟩
  · exact (hs4.functions.insert name (hQ.body hs3.since h4)).later hQ hrecord
  · exact hQ.later hrecord (hs4.constructors name' c hc)
  · exact (hs4.methods name' c hc).later hQ hrecord

/-- A class is compiled with its constructor first. -/
theorem classDecl_told (hQ : Q.Told options R s0) {scope : TypeScopeId} {s1 s2 s3 : Lowering}
    {inside : Std.TreeMap String Routine} (hnamed : classNamed scope span name s = .ok info s1)
    (hbuilt : constructor options info span items s1 = .ok built s2)
    (hitems : Q.Holds R s0 s2 → Q.Holds R s0 s3 ∧ R s2 s3 ∧ Q.Covers s3 inside)
    (h : finishClass info built inside s3 = .ok u s') (hs : Q.Holds R s0 s) : Q.Holds R s0 s' ∧
    R s s' := by
  have hs1 := step_told hQ hnamed hs
  obtain ⟨hs3, hlater, hinside⟩ := hitems (step_told hQ hbuilt hs1)
  have hfinish : R s3 s' := Obeys.obeys h
  have hall : R s s' :=
    hR.trans (Obeys.obeys hnamed) (hR.trans (Obeys.obeys hbuilt) (hR.trans hlater hfinish))
  simp only [finishClass, bind_ok, modify_ok] at h
  obtain ⟨members, s4, h4, rfl⟩ := h
  obtain rfl := reads h4
  refine ⟨⟨hR.trans hs.since hall, hs3.functions.later hQ hfinish, fun name c hc => ?_,
    fun name c hc => ?_⟩, hall⟩ <;> rw [getElem?_insert_string] at hc <;> split at hc
  · cases hc
    exact hQ.later hfinish (hQ.later hlater (hQ.constructor hs1.since hbuilt))
  · exact hQ.later hfinish (hs3.constructors name c hc)
  · cases hc
    exact hinside.later hQ hfinish
  · exact (hs3.methods name c hc).later hQ hfinish

mutual

theorem classItems_told (hQ : Q.Told options R s0) : ∀ (items : List Stmt) {info : ClassInfo}
    {methods found : Std.TreeMap String Routine} {s s' : Lowering},
    classItems options info methods items s = .ok found s' → Q.Covers s methods → Q.Holds R s0 s →
    Q.Holds R s0 s' ∧ R s s' ∧ Q.Covers s' found
  | [], _, _, _, _, _, h, hmethods, hs => by
    simp only [classItems, pure_ok] at h
    obtain ⟨rfl, rfl⟩ := h
    exact ⟨hs, hR.refl _, hmethods⟩
  | item :: rest, _, _, _, _, _, h, hmethods, hs => by
    simp only [classItems, bind_ok] at h
    obtain ⟨_, _, h1, h2⟩ := h
    obtain ⟨hs1, hlater1, hmethods1⟩ := classItem_told hQ item h1 hmethods hs
    obtain ⟨hs2, hlater2, hmethods2⟩ := classItems_told hQ rest h2 hmethods1 hs1
    exact ⟨hs2, hR.trans hlater1 hlater2, hmethods2⟩

theorem classItem_told (hQ : Q.Told options R s0) : ∀ (item : Stmt) {info : ClassInfo}
    {methods found : Std.TreeMap String Routine} {s s' : Lowering},
    classItem options info methods item s = .ok found s' → Q.Covers s methods → Q.Holds R s0 s →
    Q.Holds R s0 s' ∧ R s s' ∧ Q.Covers s' found
  | item, info, methods, found, s, s', h, hmethods, hs => by
    cases item with
    | function span head code =>
      simp only [classItem, method, methodName, bind_ok, pure_ok] at h
      obtain ⟨⟨name, r⟩, _, ⟨_, _, h1, _, _, h2, _, s2, h3, _, s3, h4, heq, rfl⟩, rfl, rfl⟩ := h
      cases heq
      have hs2 := step_told hQ h3 (step_told hQ h2 (step_told hQ h1 hs))
      have hlater : R s s3 := hR.trans (Obeys.obeys h1)
        (hR.trans (Obeys.obeys h2) (hR.trans (Obeys.obeys h3) (Obeys.obeys h4)))
      exact ⟨step_told hQ h4 hs2, hlater, (hmethods.later hQ hlater).insert name
        (hQ.body hs2.since h4)⟩
    | classDecl span name items =>
      simp only [classItem, bind_ok, pure_ok] at h
      obtain ⟨inner, s1, h1, built, s2, h2, inside, s3, h3, _, s4, h4, rfl, rfl⟩ := h
      obtain ⟨hs4, hlater⟩ := classDecl_told hQ h1 h2 (classItems_told hQ items h3 .empty) h4 hs
      exact ⟨hs4, hlater, hmethods.later hQ hlater⟩
    | _ =>
      simp only [classItem, pure_ok] at h
      obtain ⟨rfl, rfl⟩ := h
      exact ⟨hs, hR.refl _, hmethods⟩

end

theorem item_told (hQ : Q.Told options R s0) (h : Lower.item options item s = .ok u s')
    (hs : Q.Holds R s0 s) : Q.Holds R s0 s' := by
  cases item with
  | function span head code => exact function_told hQ h hs
  | classDecl span name items =>
    simp only [Lower.item, bind_ok] at h
    obtain ⟨info, s1, h1, built, s2, h2, inside, s3, h3, h4⟩ := h
    exact (classDecl_told hQ h1 h2 (classItems_told hQ items h3 .empty) h4 hs).1
  | _ =>
    simp only [Lower.item] at h
    exact step_told hQ h hs

theorem items_told (hQ : Q.Told options R s0) {u : PUnit}
    (h : items.forM (Lower.item options) s = .ok u s') (hs : Q.Holds R s0 s) : Q.Holds R s0 s' := by
  induction items generalizing s with
  | nil =>
    obtain ⟨-, rfl⟩ := pure_ok.mp h
    exact hs
  | cons a rest ih =>
    simp only [List.forM_eq_forM, List.forM_cons, bind_ok] at h
    obtain ⟨_, s1, h1, h2⟩ := h
    exact ih h2 (item_told hQ h1 hs)

end Lower

end

/-! ## Scripts -/

/-- A relation that says nothing about tables. -/
class Lowering.Tabular (R : Lowering → Lowering → Prop) : Prop extends Lowering.Chain R where
  tables : ∀ {s : Lowering} {types scopes pool}, R s { s with types, scopes, pool }

instance : Lowering.Tabular Lowering.Confines where
  tables := ⟨rfl, rfl⟩

namespace Lower

section

variable {R : Lowering → Lowering → Prop} [hR : Lowering.Tabular R] {span : Span}

instance : Lowering.Declaring R where
  scopes := hR.tables
  constant h := by
    obtain ⟨_, -, rfl⟩ := constant_add h
    exact hR.tables
  resolveType h := by
    rw [retypes h]
    exact hR.tables

instance {f : TypeTable → Except TypeError TypeId × TypeTable} :
    Obeys R (onTypes span fun t => f t) where
  obeys h := by
    obtain ⟨_, -, rfl⟩ := onTypes_ok h
    exact hR.tables

instance {types : TypeTable} : Obeys R (modify ({ · with types }) : Lower Unit) where
  obeys h := by
    obtain rfl := modify_ok.mp h
    exact hR.tables

instance {name qualified : String} {scope : ScopeId} {typeScope : TypeScopeId} :
    Obeys R (declareClass span name qualified scope typeScope) := by
  dsimp only [declareClass]
  infer_instance

mutual

theorem declareClasses_obey : ∀ (items : List Stmt) {scope : ScopeId} {typeScope : TypeScopeId}
    {outer : String}, Obeys R (declareClasses scope typeScope outer items)
  | [], _, _, _ => by
    rw [declareClasses]
    infer_instance
  | item :: rest, _, _, _ => by
    rw [declareClasses]
    exact .bind (declareNested_obeys item) fun _ => declareClasses_obey rest

theorem declareNested_obeys : ∀ (item : Stmt) {scope : ScopeId} {typeScope : TypeScopeId}
    {outer : String}, Obeys R (declareNested scope typeScope outer item)
  | item, _, _, _ => by
    cases item with
    | classDecl _ _ body =>
      rw [declareNested]
      exact .bind inferInstance fun _ => declareClasses_obey body
    | _ =>
      simp only [declareNested]
      infer_instance

end

end

end Lower

namespace Script.Stages

variable {items : List Stmt} {options : CompileOptions} {types : TypeTable} {image : Image}
  {s0 s1 s2 s3 : Lowering} {R : Lowering → Lowering → Prop} {Q : Verdict}

variable (h : Script.Stages items options types image s0 s1 s2 s3)

include h

theorem declares [hR : Lowering.Tabular R] :
    R s0 s2 :=
  hR.trans ((Lower.declareClasses_obey items).obeys h.classes) (Lower.Obeys.obeys h.heads)

theorem told [hR : Lowering.Course R]
    (hQ : Q.Told options R s2) : Q.Holds R s2 s3 := by
  have hconfines : s0.Confines s2 := h.declares
  obtain ⟨journal, rfl⟩ := h.start
  refine Lower.items_told hQ h.items ⟨hR.refl _, ?_, ?_, ?_⟩
  · rw [hconfines.functions]
    exact .empty
  all_goals
    rw [hconfines.classes]
    exact fun name c hc => by simp at hc

theorem since [Lowering.Course R] : R s2 s3 :=
  (h.told (Q := fun _ _ _ => True) ⟨fun _ => id, fun _ _ => trivial, fun _ _ => trivial⟩).since

/-- What is told about routines is true of those of the image. -/
theorem told_routines (hQ : Q.Holds R s2 s3) :
    ∀ r ∈ image.routines, ∃ built, Q s3 built r := by
  intro r hr
  rcases List.mem_append.mp hr with hr | hr
  · obtain ⟨name, hname⟩ := mem_values.mp hr
    exact ⟨_, hQ.functions name r (h.functions_eq ▸ hname)⟩
  · obtain ⟨c, hc, hr⟩ := List.mem_flatMap.mp hr
    obtain ⟨name, hname⟩ := mem_values.mp hc
    rw [h.classes_eq] at hname
    rcases hr with _ | ⟨_, hr⟩
    · exact ⟨_, hQ.constructors name c hname⟩
    · obtain ⟨method, hmethod⟩ := mem_values.mp hr
      exact ⟨_, hQ.methods name c hname method r hmethod⟩

end Script.Stages

/-! ## Encoded code -/

def Instruction.isCall : Instruction → Bool
  | .call _ => true
  | _ => false

/-- Code that does not end with a call. -/
def EndsQuietly (code : Array Instruction) : Prop := ∀ c, code.back? ≠ some (.call c)

/-- A routine as compiling finishes it. -/
structure Routine.Finished (r : Routine) : Prop where
  encoded : Layout.Encodes r.code r.body
  quiet : EndsQuietly r.code

/-! ### The ends of statements -/

namespace EndsQuietly

variable {code : Array Instruction} {i : Instruction}

theorem empty : EndsQuietly #[] := nofun

theorem push (hi : i.isCall = false) : EndsQuietly (code.push i) := by
  intro c h
  rw [Array.back?_push] at h
  cases h
  cases hi

/-- To aim a jump elsewhere makes no call of it. -/
theorem bind (h : EndsQuietly code) (jump : Nat) (target : UInt32) :
    EndsQuietly (code.modify jump (·.retarget target)) := by
  intro c hlast
  rw [Array.back?_eq_getElem?, Array.size_modify, Array.getElem?_modify] at hlast
  split at hlast
  · obtain ⟨i, hi, hcall⟩ := Option.map_eq_some_iff.mp hlast
    cases i <;> cases hcall
    exact h c (Array.back?_eq_getElem?.trans hi)
  · exact h c (Array.back?_eq_getElem?.trans hlast)

end EndsQuietly

/-- The code of the routine being compiled ends quietly if it did before. -/
def Lowering.Settles (s s' : Lowering) : Prop :=
  EndsQuietly s.site.draft.code → EndsQuietly s'.site.draft.code

instance : Lowering.Chain Lowering.Settles where
  refl _ := id
  trans h h' := h' ∘ h

namespace Lower

section

variable {α β : Type} {x : Lower α} {f : α → Lower β}

/-! ### Computations that settle the code if it was -/

instance {mark : Mark} : Obeys Lowering.Settles (setMark mark) where
  obeys h := by
    cases h
    exact id

instance : Obeys Lowering.Settles here := inferInstanceAs (Obeys _ (get >>= _))

instance {jump : Nat} : Obeys Lowering.Settles (bindHere jump) where
  obeys h := by
    cases h
    exact fun hquiet => hquiet.bind jump _

instance {scope : ScopeId} : Obeys Lowering.Settles (setScope scope) where
  obeys h := by
    cases h
    exact id

instance {g : ScopeTable → Nat → ScopeId × ScopeTable} : Obeys Lowering.Settles (openScope g) where
  obeys h := by
    cases h
    exact id

instance : Obeys Lowering.Settles closeScope where
  obeys h := by
    cases h
    exact id

theorem inBlock_settles {act : Lower Unit} (h : Obeys Lowering.Settles act) :
    Obeys Lowering.Settles (inBlock act) := by
  unfold inBlock
  infer_instance

instance {top : Nat} : Obeys Lowering.Settles (openLoop top) where
  obeys h := by
    cases h
    exact id

instance {name : String} {global : Global} : Obeys Lowering.Settles
    (modify fun s => { s with globals := s.globals.insert name global } : Lower Unit) where
  obeys h := by
    obtain rfl := modify_ok.mp h
    exact id

/-! ### Computations that settle the code anyway -/

/-- A computation after which the code ends quietly, whatever it was before. -/
structure Quiets (act : Lower α) : Prop where
  quiets : ∀ {s : Lowering} {a : α} {s' : Lowering}, act s = .ok a s' →
    EndsQuietly s'.site.draft.code

namespace Quiets

theorem obeys (hx : Quiets x) : Obeys Lowering.Settles x := ⟨fun h _ => hx.quiets h⟩

/-- What is compiled before does not matter. -/
theorem after (hf : ∀ a, Quiets (f a)) : Quiets (x >>= f) where
  quiets h := by
    obtain ⟨a, _, -, h2⟩ := bind_ok.mp h
    exact (hf a).quiets h2

theorem before (hx : Quiets x) (hf : ∀ a, Obeys Lowering.Settles (f a)) : Quiets (x >>= f) where
  quiets h := by
    obtain ⟨a, _, h1, h2⟩ := bind_ok.mp h
    exact (hf a).obeys h2 (hx.quiets h1)

theorem ite {p : Prop} [Decidable p] {y : Lower α} (hx : Quiets x) (hy : Quiets y) :
    Quiets (if p then x else y) := by
  split
  · exact hx
  · exact hy

variable {span : Span} {cause : CompileCause}

theorem fail : Quiets (Lower.fail span cause : Lower α) :=
  ⟨fun h => (fail_ok.mp h).elim⟩

theorem failing : Quiets (Lower.fail span cause >>= f) where
  quiets h := by
    obtain ⟨_, _, h1, -⟩ := bind_ok.mp h
    exact (fail_ok.mp h1).elim

theorem emit {i : Instruction} (hi : i.isCall = false) : Quiets (Lower.emit i) where
  quiets h := by
    cases h
    exact .push hi

theorem putBack {i : Instruction} {mark : Mark} (hi : i.isCall = false) :
    Quiets (Lower.putBack (i, mark)) where
  quiets h := by
    cases h
    exact .push hi

theorem emitJump {trigger : Trigger} : Quiets (Lower.emitJump trigger) where
  quiets h := by
    cases h
    exact .push rfl

end Quiets

end

instance {trigger : Trigger} : Obeys Lowering.Settles (emitJump trigger) := Quiets.emitJump.obeys

instance {target : Nat} : Obeys Lowering.Settles (emitJumpTo target) := (Quiets.emit rfl).obeys

instance : Obeys Lowering.Settles closeLoop := by
  unfold closeLoop
  refine .bind inferInstance fun s => ?_
  cases s.site.loops with
  | nil => infer_instance
  | cons loop outer =>
    have hsite : Obeys Lowering.Settles (onSite fun site => ((), { site with loops := outer })) :=
      ⟨fun h => by cases h; exact id⟩
    infer_instance

/-! ### Statements -/

section

variable {natives : List NativeSignature} {span : Span}

theorem assign_quiets {op : Option ArithOp} {target value : Expr} :
    Quiets (assign natives span op target value) := by
  simp only [assign, setAside_eq, bind_assoc, pure_bind]
  refine .after fun found => .after fun s => ?_
  have hstore : Quiets (putBack (found.1.store, s.site.draft.mark)) :=
    .putBack (by cases found.1 <;> rfl)
  cases op with
  | none => exact .after fun _ => .after fun _ => hstore
  | some op => exact .after fun _ => .after fun _ => .after fun _ => .after fun _ => .after fun _ =>
    hstore

theorem effect_quiets (e : Expr) : Quiets (effect natives e) := by
  cases e with
  | assign => exact .after fun _ => assign_quiets.before fun _ => inferInstance
  | _ => exact .after fun _ => .emit rfl

theorem varDecl_quiets {name : String} {term : TypeTerm} {init : Option Expr} :
    Quiets (varDecl natives span name term init) := by
  dsimp only [varDecl]
  refine .after fun s => .after fun type => .after fun kind => ?_
  cases init with
  | none => exact .after fun _ => .after fun slot => (Quiets.emit rfl).before fun _ => inferInstance
  | some e =>
    exact .after fun _ => .after fun _ => .after fun slot => (Quiets.emit rfl).before fun _ =>
      inferInstance

theorem breakLoop_quiets : Quiets (breakLoop span) := by
  dsimp only [breakLoop]
  refine .after fun s => ?_
  cases s.site.loops with
  | nil => exact .fail
  | cons loop outer =>
    exact Quiets.emitJump.before fun jump => ⟨fun h => by cases h; exact id⟩

theorem continueLoop_quiets : Quiets (continueLoop span) := by
  dsimp only [continueLoop]
  refine .after fun s => ?_
  cases s.site.loops with
  | nil => exact .fail
  | cons loop outer => exact .emit rfl

theorem ret_quiets {value : Option Expr} : Quiets (ret natives span value) := by
  dsimp only [ret]
  refine .after fun s => ?_
  cases value with
  | none =>
    dsimp only
    refine .ite .failing (.after fun isVoid => .ite (.after fun _ => .failing) (.emit rfl))
  | some e =>
    dsimp only
    refine .ite .failing (.after fun isVoid => .ite .failing ?_)
    exact .after fun _ => .after fun _ => .emit rfl

theorem delete_quiets {value : Expr} : Quiets (delete natives span value) := by
  dsimp only [delete]
  refine .after fun type => .after fun a => .after fun b =>
    .ite (.after fun _ => .failing) (.emit rfl)

theorem simple_quiets {s : Stmt} (h : s.isSimple = true) : Quiets (stmt natives s) := by
  cases s <;> cases h <;> rw [stmt] <;> refine .after fun _ => ?_
  · exact varDecl_quiets
  · exact effect_quiets _
  · exact breakLoop_quiets
  · exact continueLoop_quiets
  · exact ret_quiets
  · exact delete_quiets
  · exact .fail
  · exact .fail

instance : Lowering.Structured Lowering.Settles where
  simple h := (simple_quiets h).obeys
  setMark := inferInstance
  bindHere := inferInstance
  inBlock := inBlock_settles
  arm _ _ := (Quiets.after fun _ => Quiets.emitJump.before fun _ => .bind inferInstance fun _ =>
    inferInstance).obeys
  whileLoop _ := (Quiets.after fun _ => .after fun _ => Quiets.emitJump.before fun _ =>
    inferInstance).obeys
  turns {natives cond step body} _ := by
    have hturn : ∀ top (exit : Option Nat), Obeys Lowering.Settles (do
        openLoop top
        body
        closeLoop
        exit.forM bindHere) := inferInstance
    have hstep : Obeys Lowering.Settles (step.forM (effect natives)) := by
      cases step with
      | none => exact inferInstanceAs (Obeys _ (pure _))
      | some e => exact (effect_quiets e).obeys
    refine .bind inferInstance fun entry => .bind inferInstance fun top => hstep.bind fun _ =>
      .bind inferInstance fun _ => ?_
    cases cond with
    | none =>
      exact .bind (inferInstanceAs (Obeys _ (pure _))) fun _ =>
        .bind inferInstance fun _ => hturn _ _
    | some e =>
      -- what the condition ends with does not matter, because a jump stands behind it
      refine (Quiets.after fun _ => ?_).obeys
      have hjump : Quiets (some <$> emitJump .ifFalse) := by
        rw [map_eq_pure_bind]
        exact Quiets.emitJump.before fun _ => inferInstance
      exact hjump.before fun _ => hturn _ _

end

/-! ### Bodies -/

section

variable {options : CompileOptions} {span : Span} {s s' : Lowering} {r : Routine} {name : String}
  {constant : UInt16} {role : SiteRole} {parent : ScopeId} {typeScope : TypeScopeId}

theorem finish_finished {site : Site} {params : List TypeId} {constant : Option UInt16}
    {slots : Nat}
    (h : finish options name site params constant slots s = .ok r s')
    (hquiet : EndsQuietly site.draft.code) : r.Finished := by
  obtain ⟨_, body, -, hencode, rfl⟩ := finish_ok h
  exact ⟨Layout.encode_encodes hencode, hquiet⟩

theorem routine_finished {result : TypeId} {act : Lower (List TypeId)}
    (hact : Obeys Lowering.Settles act)
    (h : routine options span role parent typeScope result name constant act s = .ok r s') :
    r.Finished := by
  simp only [routine, bind_ok, get_bind] at h
  obtain ⟨scope, s1, -, outer, s2, h2, _, s3, h3, params, s4, h4, site, s6, h6, _, s7, -, h⟩ := h
  cases h2
  cases h3
  cases h6
  exact finish_finished h (hact.obeys h4 .empty)

instance {type : TypeId} : Obeys Lowering.Settles (parameter span name type) :=
  (Quiets.after fun _ => .after fun _ => (Quiets.emit rfl).before fun _ => inferInstance).obeys

theorem body_finished {head : FunctionHead} {code : List Stmt}
    (h : body options span role parent typeScope head name constant code s = .ok r s') :
    r.Finished := by
  obtain ⟨⟨declared, result⟩, s1, -, h⟩ := bind_ok.mp h
  refine routine_finished ?_ h
  refine .bind inferInstance fun _ => .bind inferInstance fun _ => .bind inferInstance fun _ => ?_
  have hvoid : Obeys Lowering.Settles (emit .retVoid) := (Quiets.emit rfl).obeys
  have hsame : Obeys Lowering.Settles (isSame result .void) := inferInstanceAs (Obeys _ (get >>= _))
  infer_instance

theorem constructor_finished {info : ClassInfo} {items : List Stmt}
    (h : constructor options info span items s = .ok r s') : r.Finished := by
  refine routine_finished (Quiets.obeys ?_) h
  exact .after fun self => .after fun _ => .after fun _ => (Quiets.emit rfl).before fun _ =>
    inferInstance

end

end Lower

/-- Every routine of a compiled script is finished. -/
theorem compile_finished (h : (Script.compile ⟨items⟩ options types journal).1 = .ok image) :
    image.main.Finished ∧ ∀ r ∈ image.routines, r.Finished := by
  obtain ⟨s0, s1, s2, s3, hstages⟩ := Script.compile_stages h
  refine ⟨?_, fun r hr => ?_⟩
  · obtain ⟨_, _, hmain⟩ := hstages.main
    exact Lower.finish_finished hmain (.push rfl)
  · have htold : Verdict.Told (fun _ _ r => r.Finished) options (fun _ _ => True) s2 :=
      ⟨fun _ => id, fun _ => Lower.body_finished, fun _ => Lower.constructor_finished⟩
    obtain ⟨_, hfinished⟩ := hstages.told_routines (hstages.told htold) r hr
    exact hfinished

end Bytescript
