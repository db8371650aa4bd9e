import Bytescript.Proofs.Lowering.Expression

/-!
# The code of statements

`Executes` says which code a statement has, as `Computes` does for expressions. Besides the code, it
relates the variables that can be named before and behind the statement, and the types of the slots
taken so far.

A jump out of a loop is emitted before its target is known. Compiled code therefore comes as a
function of the index behind the loop, together with the places of the jumps that have to be aimed
there (`Holes`). Compiling a statement emits such code (`stmt_ok`).
-/

namespace Bytescript

/-! ## Effects -/

open TypeTable (primitives) in
/-- The code that addresses a place, and the type of what is stored there. -/
inductive Addresses (T : Tables) (H : Home) (Γ : Locals) :
    Expr → Place → TypeId → Nat → List Instruction → Prop
  | named {span name slot t b} :
    Γ name = some (slot, t) →
    Addresses T H Γ (.ident span name) (.slot (primitives.kindOf t) slot) t b []
  | member {span name cls self t info slot m b} :
    Γ name = none → H.role.class? = some cls → T.scopes.classInfo? cls = some info →
    T.HasMember info name m t → Γ "this" = some (slot, self) →
    Addresses T H Γ (.ident span name) (.field (primitives.kindOf t) m) t b [.load .ref slot]
  | property {span object name cls t info m b code} :
    Computes T H Γ (.expr object cls) b code → T.scopes.classInfo? cls = some info →
    T.HasMember info name m t →
    Addresses T H Γ (.property span object name) (.field (primitives.kindOf t) m) t b code
  | index {span array position t el found b ca cp} :
    Computes T H Γ (.expr array t) b ca → T.types.element? t = some el →
    Computes T H Γ (.expr position found) (b + ca.length) cp →
    primitives.isAssignable found .int = true →
    Addresses T H Γ (.index span array position) (.element (primitives.kindOf el)) el b
      (ca ++ (cp ++ primitives.convert found .int))

open TypeTable (primitives) in
/-- The code of an expression that is compiled for its effect. -/
inductive Acts (T : Tables) (H : Home) (Γ : Locals) : Expr → Nat → List Instruction → Prop
  | assign {span target value place t found b ca cv} :
    Addresses T H Γ target place t b ca → Computes T H Γ (.expr value found) (b + ca.length) cv →
    primitives.isAssignable found t = true →
    Acts T H Γ (.assign span none target value) b
      (ca ++ (cv ++ (primitives.convert found t ++ [place.store])))
  | compound {span op target value place t i b ca cv} :
    Addresses T H Γ target place t b ca →
    Computes T H Γ (.expr value t) (b + ca.length + place.read.length) cv →
    primitives.operation? (.arith op) t = some (i, t) →
    Acts T H Γ (.assign span (some op) target value) b
      (ca ++ (place.read ++ (cv ++ [i, place.store])))
  | value {e t b code} : Computes T H Γ (.expr e t) b code → Acts T H Γ e b (code ++ [.pop])

/-! ## Statements -/

open TypeTable (primitives) in
/-- The code that computes the first value of a variable. -/
inductive Initialises (T : Tables) (H : Home) (Γ : Locals) (t : TypeId) (b : Nat) :
    Option Expr → List Instruction → Prop
  | value {e found code} :
    Computes T H Γ (.expr e found) b code → primitives.isAssignable found t = true →
    Initialises T H Γ t b (some e) (code ++ primitives.convert found t)
  | int : primitives.kindOf t = .int → Initialises T H Γ t b none [.pushByte 0]
  | float {c} : primitives.kindOf t = .float → T.pool[c.toNat]? = some (.float ⟨0⟩) →
    Initialises T H Γ t b none [.pushConst c]
  | ref : primitives.kindOf t = .ref → Initialises T H Γ t b none [.pushVoid]

/-- The code of the step of a loop. -/
inductive Steps (T : Tables) (H : Home) (Γ : Locals) (b : Nat) : Option Expr → List Instruction →
    Prop
  | none : Steps T H Γ b none []
  | some {e code} : Acts T H Γ e b code → Steps T H Γ b (some e) code

/-- The code that leaves for `exit` if a condition is not met. -/
inductive Guards (T : Tables) (H : Home) (Γ : Locals) (b exit : Nat) :
    Option Expr → List Instruction → Prop
  | none : Guards T H Γ b exit none []
  | some {e code} : Computes T H Γ (.expr e .bool) b code →
    Guards T H Γ b exit (some e) (code ++ [.jump .ifFalse exit.toUInt32])

/-- What is executed: a statement, statements one after the other, or the arms of a choice, which
ends at an index. -/
inductive Task where
  | stmt (s : Stmt)
  | stmts (list : List Stmt)
  | arms (hasElse : Bool) (list : List Arm) (stop : Nat)

/-- Where the next turn of a loop begins, and what comes behind the loop. -/
structure LoopEnds where
  top : Nat
  exit : Nat

/-- The jump that leaves a choice behind an arm, if anything comes behind the arm. -/
def armEnd (hasElse : Bool) (rest : List Arm) (stop : Nat) : List Instruction :=
  if hasElse || !rest.isEmpty then [.jump .always stop.toUInt32] else []

open TypeTable (primitives) in
/-- The code of a statement inside of a loop: `Executes T H loop task Γ Δ b code Γ' Δ'`. The code
begins at the index `b`; before it the variables are `Γ` and the slots taken have the types `Δ`,
behind it `Γ'` and `Δ'`. -/
inductive Executes (T : Tables) (H : Home) : Option LoopEnds → Task → Locals → List TypeId → Nat →
    List Instruction → Locals → List TypeId → Prop
  | var {loop span name term init t slot Γ Δ b code} :
    T.types.meaning H.typeScope term = some t → t ≠ .void → Initialises T H Γ t b init code →
    Γ name = none → Δ.length < 65536 → slot = Δ.length.toUInt16 →
    Executes T H loop (.stmt (.var span name term init)) Γ Δ b
      (code ++ [.store (primitives.kindOf t) slot]) (Γ.set name slot t) (Δ ++ [t])
  | expr {loop span e Γ Δ b code} :
    Acts T H Γ e b code → Executes T H loop (.stmt (.expr span e)) Γ Δ b code Γ Δ
  | block {loop span body Γ Γ' Δ Δ' b code} :
    Executes T H loop (.stmts body) Γ Δ b code Γ' Δ' →
    Executes T H loop (.stmt (.block span body)) Γ Δ b code Γ Δ'
  | choose {loop span list otherwise Γ Γ1 Γ2 Δ Δ1 Δ2 b stop ca co} :
    Executes T H loop (.arms otherwise.isSome list stop) Γ Δ b ca Γ1 Δ1 →
    Executes T H loop (.stmts otherwise.toList) Γ1 Δ1 (b + ca.length) co Γ2 Δ2 →
    stop = b + ca.length + co.length →
    Executes T H loop (.stmt (.choose span list otherwise)) Γ Δ b (ca ++ co) Γ2 Δ2
  | whileLoop {loop span cond body Γ Γ' Δ Δ' b exit cc cb} :
    Computes T H Γ (.expr cond .bool) b cc →
    Executes T H (some ⟨b, exit⟩) (.stmt body) Γ Δ (b + cc.length + 1) cb Γ' Δ' →
    exit = b + cc.length + 1 + cb.length + 1 →
    Executes T H loop (.stmt (.whileLoop span cond body)) Γ Δ b
      (cc ++ .jump .ifFalse exit.toUInt32 :: (cb ++ [.jump .always b.toUInt32])) Γ' Δ'
  | forLoop {loop span init cond step body Γ Γ1 Γ2 Δ Δ1 Δ2 b top entry start exit ci cs cc cb} :
    Executes T H loop (.stmts init.toList) Γ Δ b ci Γ1 Δ1 → top = b + ci.length + 1 →
    Steps T H Γ1 top step cs → entry = top + cs.length →
    Guards T H Γ1 entry exit cond cc → start = entry + cc.length →
    Executes T H (some ⟨top, exit⟩) (.stmt body) Γ1 Δ1 start cb Γ2 Δ2 →
    exit = start + cb.length + 1 →
    Executes T H loop (.stmt (.forLoop span init cond step body)) Γ Δ b
      (ci ++ .jump .always entry.toUInt32 :: (cs ++ (cc ++ (cb ++ [.jump .always top.toUInt32]))))
      Γ Δ2
  | breakLoop {loop span Γ Δ b} :
    Executes T H (some loop) (.stmt (.breakLoop span)) Γ Δ b [.jump .always loop.exit.toUInt32] Γ Δ
  | continueLoop {loop span Γ Δ b} :
    Executes T H (some loop) (.stmt (.continueLoop span)) Γ Δ b [.jump .always loop.top.toUInt32] Γ
      Δ
  | ret {loop span e found Γ Δ b code} :
    H.role ≠ .main → H.result ≠ .void → Computes T H Γ (.expr e found) b code →
    primitives.isAssignable found H.result = true →
    Executes T H loop (.stmt (.ret span (some e))) Γ Δ b
      (code ++ (primitives.convert found H.result ++ [.ret])) Γ Δ
  | retVoid {loop span Γ Δ b} :
    H.role ≠ .main → H.result = .void →
    Executes T H loop (.stmt (.ret span none)) Γ Δ b [.retVoid] Γ Δ
  | delete {loop span e t Γ Δ b code} :
    Computes T H Γ (.expr e t) b code → t ≠ .void → primitives.kindOf t = .ref →
    Executes T H loop (.stmt (.delete span e)) Γ Δ b (code ++ [.delete]) Γ Δ
  | nil {loop Γ Δ b} : Executes T H loop (.stmts []) Γ Δ b [] Γ Δ
  | cons {loop s rest Γ Γ1 Γ2 Δ Δ1 Δ2 b cs cr} :
    Executes T H loop (.stmt s) Γ Δ b cs Γ1 Δ1 →
    Executes T H loop (.stmts rest) Γ1 Δ1 (b + cs.length) cr Γ2 Δ2 →
    Executes T H loop (.stmts (s :: rest)) Γ Δ b (cs ++ cr) Γ2 Δ2
  | noArm {loop hasElse stop Γ Δ b} : Executes T H loop (.arms hasElse [] stop) Γ Δ b [] Γ Δ
  | arm {loop hasElse cond body rest stop skip Γ Γ1 Γ2 Δ Δ1 Δ2 b cc cb cr} :
    Computes T H Γ (.expr cond .bool) b cc →
    Executes T H loop (.stmt body) Γ Δ (b + cc.length + 1) cb Γ1 Δ1 →
    skip = b + cc.length + 1 + cb.length + (armEnd hasElse rest stop).length →
    Executes T H loop (.arms hasElse rest stop) Γ1 Δ1 skip cr Γ2 Δ2 →
    Executes T H loop (.arms hasElse (.mk cond body :: rest) stop) Γ Δ b
      (cc ++ .jump .ifFalse skip.toUInt32 :: (cb ++ (armEnd hasElse rest stop ++ cr))) Γ2 Δ2

namespace Lower

open TypeTable (primitives)

/-! ## Compiling effects -/

section

variable {natives : List NativeSignature} {s s' : Lowering} {e target : Expr} {u : Unit}

theorem condition_ok (h : condition natives e s = .ok u s') (hs : s.Ready) :
    Compiled natives (.expr e .bool) s s' := condition_compiled (expr_ok e) h hs

theorem place_ok {place : Place} {t : TypeId} (h : Lower.place natives target s = .ok (place, t) s')
    (hs : s.Ready) : Coded natives (Addresses · · · target place t) s s' := by
  cases target with
  | ident span name =>
    rcases namedPlace_ok h hs with ⟨slot, rfl, rfl, hlocal⟩ |
      ⟨cls, info, slot, self, m, rfl, hlocal, hrole, hinfo, hmember, hself, hemit⟩
    · exact ⟨_, .refl hs.toTidy, fun T _ => .named hlocal⟩
    · refine ⟨_, hemit, fun T hT => ?_⟩
      have hT := hemit.ends hT
      exact .member hlocal hrole (hT.scopes.classInfo? hs.scopes hinfo)
        (hT.scopes.lookupHere (hs.scopes.classInfo?_parts hinfo).1.persistent hmember) hself
  | property span object name =>
    simp only [Lower.place, bind_ok, get_bind, fails_ok, kindOf_bind, pure_ok] at h
    obtain ⟨cls, s1, h1, -, info, s2, h2, ⟨m, type⟩, s3, h3, heq, rfl⟩ := h
    obtain ⟨code, hemit, hcode⟩ := expr_ok object h1 hs
    obtain ⟨rfl, hinfo⟩ := classOf_ok h2 hemit.tidy
    obtain ⟨rfl, hmember⟩ := member_ok h3
    cases heq
    have hs1 := (hemit.ready hs).scopes
    refine ⟨_, hemit, fun T hT => ?_⟩
    rw [hemit.tidy.types.kindOf]
    exact .property (hcode T hT) (hT.scopes.classInfo? hs1 hinfo)
      (hT.scopes.lookupHere (hs1.classInfo?_parts hinfo).1.persistent hmember)
  | index span array position =>
    simp only [Lower.place, bind_ok, kindOf_bind, pure_ok] at h
    obtain ⟨type, s1, h1, el, s2, h2, found, s3, h3, _, s4, h4, heq, rfl⟩ := h
    obtain ⟨ca, hemit1, hca⟩ := expr_ok array h1 hs
    obtain ⟨rfl, hel⟩ := elementType_ok h2
    obtain ⟨cp, hemit3, hcp⟩ := (expr_ok position h3 (hemit1.ready hs)).after hemit1
    obtain ⟨hemit4, hassign⟩ := coerce_ok h4 hemit3.tidy
    cases heq
    refine ⟨_, hemit1.trans (hemit3.trans hemit4), fun T hT => ?_⟩
    have hT3 := hemit4.ends hT
    have hT1 := hemit3.ends hT3
    rw [hemit4.tidy.types.kindOf]
    exact .index (hca T hT1) (hT1.element? hemit1.tidy hel) (hcp T hT3) hassign
  | _ => simp [Lower.place] at h

theorem operation?_arith {op : ArithOp} {type result : TypeId} {i : Instruction}
    (h : primitives.operation? (.arith op) type = some (i, result)) : result = type := by
  unfold TypeTable.operation? at h
  dsimp only at h
  split at h
  · exact (Prod.mk.inj (Option.some.inj h)).2.symm
  · split at h
    · exact (Prod.mk.inj (Option.some.inj h)).2.symm
    · split at h <;> cases h

theorem assign_ok {span : Span} {op : Option ArithOp} {value : Expr}
    (h : assign natives span op target value s = .ok u s') (hs : s.Ready) :
    Coded natives (Acts · · · (.assign span op target value)) s s' := by
  simp only [assign, setAside_eq, bind_ok, pure_ok, get_bind] at h
  obtain ⟨⟨place, t⟩, s1, h1, _, _, ⟨rfl, rfl⟩, h⟩ := h
  obtain ⟨ca, hemit1, hca⟩ := place_ok h1 hs
  cases op with
  | none =>
    simp only [bind_ok] at h
    obtain ⟨found, s2, h2, _, s3, h3, h4⟩ := h
    obtain ⟨cv, hemit2, hcv⟩ := (expr_ok value h2 (hemit1.ready hs)).after hemit1
    obtain ⟨hemit3, hassign⟩ := coerce_ok h3 hemit2.tidy
    have hemit4 := putBack_ok h4 hemit3.tidy
    refine ⟨_, hemit1.trans (hemit2.trans (hemit3.trans hemit4)), fun T hT => ?_⟩
    have hT2 := hemit3.ends (hemit4.ends hT)
    exact .assign (hca T (hemit2.ends hT2)) (hcv T hT2) hassign
  | some op =>
    simp only [bind_ok] at h
    obtain ⟨_, s2, h2, found, s3, h3, _, s4, h4, result, s5, h5, _, s6, h6, h7⟩ := h
    have hemit2 := emitAll_ok h2 hemit1.tidy
    obtain ⟨cv, hemit3, hcv⟩ := (expr_ok value h3 (hemit2.ready (hemit1.ready hs))).after
      (hemit1.trans hemit2)
    obtain ⟨rfl, rfl⟩ := requireSame_ok h4 hemit3.tidy
    obtain ⟨i, hi, hemit5⟩ := binary_ok h5 hemit3.tidy
    obtain rfl := operation?_arith hi
    obtain ⟨hemit6, -⟩ := coerce_ok h6 hemit5.tidy
    rw [convert_self] at hemit6
    have hemit7 := putBack_ok h7 hemit6.tidy
    refine ⟨_, hemit1.trans (hemit2.trans (hemit3.trans ((hemit5.trans hemit6).trans hemit7))),
      fun T hT => ?_⟩
    have hT3 := hemit5.ends (hemit6.ends (hemit7.ends hT))
    have hcv := hcv T hT3
    rw [List.length_append, ← Nat.add_assoc] at hcv
    exact .compound (hca T (hemit2.ends (hemit3.ends hT3))) hcv hi

theorem effect_ok (h : effect natives e s = .ok u s') (hs : s.Ready) :
    Coded natives (Acts · · · e) s s' := by
  have hvalue : (expr natives e >>= fun _ => emit .pop) s = .ok u s' →
      Coded natives (Acts · · · e) s s' := by
    intro h
    obtain ⟨t, s1, h1, h2⟩ := bind_ok.mp h
    obtain ⟨code, hemit1, hcode⟩ := expr_ok e h1 hs
    have hemit2 := emit_ok h2 hemit1.tidy
    exact ⟨_, hemit1.trans hemit2, fun T hT => .value (hcode T (hemit2.ends hT))⟩
  cases e with
  | assign span op target value =>
    obtain ⟨s1, s2, h1, h2, h3⟩ := withMark_ok h hs.toTidy
    exact .marked h1 (assign_ok h2 (h1.ready hs)) h3
  | _ => exact hvalue h

end

end Lower

/-! ## Jumps that are aimed later -/

/-- Aims the jumps at some places at an index. -/
def aim (places : List Nat) (target : Nat) (code : List Instruction) : List Instruction :=
  places.foldl (fun code p => code.modify p (·.retarget target.toUInt32)) code

@[simp]
theorem aim_length (places : List Nat) (target : Nat) (code : List Instruction) :
    (aim places target code).length = code.length := by
  induction places generalizing code with
  | nil => rfl
  | cons p places ih => exact (ih _).trans (List.length_modify ..)

theorem aim_append (places more : List Nat) (target : Nat) (code : List Instruction) :
    aim (places ++ more) target code = aim more target (aim places target code) :=
  List.foldl_append ..

/-- Code from the index `b` on that depends on where some jumps aim at, and the places of the
jumps. -/
def Holes (b : Nat) (places : List Nat) (code : Nat → List Instruction) : Prop :=
  ∀ before after x y, before.length = b →
    aim places y (before ++ (code x ++ after)) = before ++ (code y ++ after)

namespace Holes

variable {b : Nat} {ps qs : List Nat} {c d : Nat → List Instruction}

theorem const (b : Nat) (code : List Instruction) : Holes b [] fun _ => code :=
  fun _ _ _ _ _ => rfl

theorem jump (b : Nat) (trigger : Trigger) : Holes b [b] fun x => [.jump trigger x.toUInt32] := by
  intro before after x y hb
  exact Lower.modify_append_cons before after _ _ hb.symm

theorem length (h : Holes b ps c) (x y : Nat) : (c x).length = (c y).length := by
  have := congrArg List.length (h (List.replicate b .noOp) [] x y (List.length_replicate ..))
  simpa using this

/-- The places behind come first, as when jumps are collected on the way. -/
theorem append (h : Holes b ps c) (h' : Holes (b + (c 0).length) qs d) :
    Holes b (qs ++ ps) fun x => c x ++ d x := by
  intro before after x y hb
  have hpre : (before ++ c x).length = b + (c 0).length := by
    rw [List.length_append, hb, h.length x 0]
  have h1 := h' (before ++ c x) after x y hpre
  have h2 := h before (d y ++ after) x y hb
  simp only [List.append_assoc] at h1 ⊢
  rw [aim_append, h1, h2]

theorem append_const (h : Holes b ps c) (code : List Instruction) :
    Holes b ps fun x => c x ++ code := by
  simpa using h.append (.const _ code)

theorem const_append {code : List Instruction} (h : Holes (b + code.length) ps c) :
    Holes b ps fun x => code ++ c x := by
  simpa using (const b code).append h

/-- The places in front come first. -/
theorem appendFront (h : Holes b ps c) (h' : Holes (b + (c 0).length) qs d) :
    Holes b (ps ++ qs) fun x => c x ++ d x := by
  intro before after x y hb
  have hpre : (before ++ c y).length = b + (c 0).length := by
    rw [List.length_append, hb, h.length y 0]
  have h1 := h before (d x ++ after) x y hb
  have h2 := h' (before ++ c y) after x y hpre
  simp only [List.append_assoc] at h2 ⊢
  rw [aim_append, h1, h2]

end Holes

/-! ## States behind a statement -/

namespace Lowering

/-- How many slots the routine has taken. -/
def slotCount (s : Lowering) : Nat := s.scopes.slotCount s.site.scope

/-- The innermost loop, if what comes behind it is at `exit`. -/
def loop? (s : Lowering) (exit : Nat) : Option LoopEnds :=
  s.site.loops.head?.map fun loop => ⟨loop.top, exit⟩

/-- The globals are the variables of the outermost scope. -/
def GlobalsAgree (s : Lowering) : Prop :=
  ∀ name, s.globals[name]? = (s.scopes.locals .top name).map fun found => ⟨found.1, found.2⟩

/-- The routine is compiled in an open scope, and only the top-level code in the outermost one. -/
structure Placed (s : Lowering) : Prop extends Ready s where
  depth : ∀ j ∈ s.scopes.active, (s.scopes.scope j).depth ≤ s.depth
  main : s.site.scope = .top → s.site.role = .main

end Lowering

/-- Notes jumps that leave the innermost loop. -/
def addBreaks (places : List Nat) : List Loop → List Loop
  | [] => []
  | loop :: outer => { loop with breaks := places ++ loop.breaks } :: outer

@[simp]
theorem addBreaks_nil (loops : List Loop) : addBreaks [] loops = loops := by cases loops <;> rfl

theorem addBreaks_append (ps qs : List Nat) (loops : List Loop) :
    addBreaks (qs ++ ps) loops = addBreaks qs (addBreaks ps loops) := by
  cases loops with
  | nil => rfl
  | cons loop outer => simp [addBreaks]

/-- The second state comes after the first in the same routine. Only variables of the current scope
have been declared, and the jumps at some places leave the innermost loop. -/
structure Advances (s s' : Lowering) (breaks : List Nat) : Prop where
  ready : s'.Ready
  types : s.types.Extends s'.types
  pool : s.pool.Grows s'.pool
  scopes : ScopeTable.Framed s.site.scope s.scopes s'.scopes
  home : s'.home = s.home
  scope : s'.site.scope = s.site.scope
  loops : s'.site.loops = addBreaks breaks s.site.loops
  depth : s'.depth = s.depth
  globals : s.GlobalsAgree → s'.GlobalsAgree

namespace Advances

variable {s s1 s' : Lowering} {ps qs : List Nat}

theorem within {T : Tables} (h : Advances s s' ps) (hT : s'.Within T) : s.Within T where
  sound := hT.sound
  types := h.types.toGrows.trans hT.types
  pool i c hi := hT.pool i c (h.pool i c hi)
  scopes := h.scopes.grows.trans hT.scopes

theorem ends {natives : List NativeSignature} {T : Tables} (h : Advances s s' ps)
    (hT : s'.Ends natives T) : s.Ends natives T where
  toWithin := h.within hT.toWithin
  natives_eq := hT.natives_eq
  callables j hj := by
    rw [hT.callables j (h.scopes.grows.symbols j hj).1, h.scopes.callables hj.1]

theorem placed (h : Advances s s' ps) (hs : s.Placed) : s'.Placed where
  toReady := h.ready
  depth j hj := by
    rw [h.scopes.active] at hj
    rw [(h.scopes.shape j (hs.scopes.active j hj).1).2.1, h.depth]
    exact hs.depth j hj
  main hscope := by
    rw [h.scope] at hscope
    rw [← hs.main hscope]
    exact congrArg Home.role h.home

theorem trans (h : Advances s s1 ps) (h' : Advances s1 s' qs) (hs : s.Placed) :
    Advances s s' (qs ++ ps) where
  ready := h'.ready
  types := h.types.trans h'.types
  pool i c hi := h'.pool i c (h.pool i c hi)
  scopes := h.scopes.trans (h.scope ▸ h'.scopes) hs.scopes hs.scope_lt
  home := h'.home.trans h.home
  scope := h'.scope.trans h.scope
  loops := by rw [h'.loops, h.loops, addBreaks_append]
  depth := h'.depth.trans h.depth
  globals hg := h'.globals (h.globals hg)

theorem loop? (h : Advances s s' ps) (x : Nat) : s'.loop? x = s.loop? x := by
  unfold Lowering.loop?
  rw [h.loops]
  cases s.site.loops <;> rfl

end Advances

/-- The second state comes after the first, and no routine has been finished meanwhile. -/
structure Proceeds (s s' : Lowering) (breaks : List Nat) : Prop extends Advances s s' breaks where
  functions : s'.functions = s.functions
  classes : s'.classes = s.classes

variable {s s' : Lowering} {ps qs : List Nat}

theorem Proceeds.trans {s1 : Lowering} (h : Proceeds s s1 ps) (h' : Proceeds s1 s' qs)
    (hs : s.Placed) : Proceeds s s' (qs ++ ps) where
  toAdvances := h.toAdvances.trans h'.toAdvances hs
  functions := h'.functions.trans h.functions
  classes := h'.classes.trans h.classes

/-- Replaces the loops around the current statement. -/
def Lowering.withLoops (s : Lowering) (loops : List Loop) : Lowering :=
  { s with site := { s.site with loops } }

/-- What comes after a state with other loops comes after the state, once the loops are set right.
-/
theorem Proceeds.withLoops {inner loops : List Loop} (h : Proceeds (s.withLoops inner) s' ps)
    (hl : loops = addBreaks qs s.site.loops) : Proceeds s (s'.withLoops loops) qs :=
  { h with
    ready := ⟨⟨h.ready.types, h.ready.pool⟩, h.ready.scopes, h.ready.scope_lt⟩
    loops := hl }

theorem Moves.proceeds (h : Moves s s') (hs : s.Ready) : Proceeds s s' [] where
  ready := h.ready hs
  types := h.types
  pool := h.pool
  scopes := by rw [h.scopes]; exact .refl _ _
  home := h.home
  scope := h.scope
  loops := by rw [h.loops, addBreaks_nil]
  depth := h.depth
  functions := h.functions
  classes := h.classes
  globals hg name := by rw [h.globals, h.scopes]; exact hg name

theorem Moves.slotCount (h : Moves s s') : s'.slotCount = s.slotCount := by
  rw [Lowering.slotCount, h.scopes, h.scope, Lowering.slotCount]

/-! ## Blocks -/

namespace Lowering

/-- The state in which a block has been opened. -/
def opened (s : Lowering) : Lowering :=
  { s with
    scopes := (s.scopes.pushBlock s.site.scope (s.depth + 1)).2
    depth := s.depth + 1
    site := { s.site with scope := ⟨s.scopes.size⟩ } }

/-- The state in which a block has been removed again. -/
def closed (s : Lowering) (outer : ScopeId) : Lowering :=
  { s with
    scopes := s.scopes.remove s.depth
    depth := s.depth - 1
    site := { s.site with scope := outer } }

variable {s : Lowering}

theorem opened_locals (hs : s.Ready) : s.opened.locals = s.locals :=
  ScopeTable.locals_pushBlock hs.scopes

theorem opened_slotCount (hs : s.Placed) : s.opened.slotCount = s.slotCount := by
  have hroot : s.opened.scopes.slotRoot s.opened.site.scope = s.scopes.slotRoot s.site.scope :=
    ScopeTable.slotRoot_pushBlock hs.scopes
  have hlt := hs.scopes.slotRoot_lt s.site.scope
  rw [slotCount, ScopeTable.slotCount, hroot, slotCount, ScopeTable.slotCount]
  exact congrArg Scope.slots (ScopeTable.push_scope_old hlt)

/-- A scope that is pushed is not the outermost one. -/
theorem Placed.fresh (hs : s.Placed) : (⟨s.scopes.size⟩ : ScopeId) ≠ .top := by
  intro htop
  have := hs.scopes.top.1
  rw [← htop] at this
  exact Nat.lt_irrefl _ this

/-- A scope is pushed, and what follows happens in it. -/
theorem Placed.push (hs : s.Placed) {parent : ScopeId} {kind : ScopeKind} {site : Site}
    (hparent : parent.index < s.scopes.size) (hsite : site.scope = ⟨s.scopes.size⟩) :
    Placed { s with
      scopes := (s.scopes.push parent (s.depth + 1) kind).2, depth := s.depth + 1, site } where
  types := hs.types
  pool := hs.pool
  scopes := hs.scopes.push hparent
  scope_lt := by simp [hsite]
  depth := by
    refine ScopeTable.forall_scope s.scopes.size
      (fun _ => Nat.le_of_eq (congrArg Scope.depth ScopeTable.push_scope_new)) fun j hj hmem => ?_
    have hmem := (ScopeTable.mem_active_push hj).mp hmem
    rw [ScopeTable.push_scope_old (hs.scopes.active j hmem).1]
    exact Nat.le_succ_of_le (hs.depth j hmem)
  main htop := absurd (hsite.symm.trans htop) hs.fresh

theorem opened_placed (hs : s.Placed) : s.opened.Placed := hs.push hs.scope_lt rfl

/-- What the outermost scope holds does not depend on the scopes that are pushed. -/
theorem Placed.globals_push (hs : s.Placed) {parent : ScopeId} {kind : ScopeKind} {depth : Nat}
    {site : Site} (hg : s.GlobalsAgree) : GlobalsAgree
      { s with scopes := (s.scopes.push parent depth kind).2, depth := s.depth + 1, site } :=
  fun name => (hg name).trans
    (congrArg (fun Γ : Locals => (Γ name).map _) (hs.scopes.locals_top_push _ _ _).symm)

section

variable {depth n : Nat} {site : Site} (hs : s.scopes.Sound)

include hs

theorem globals_remove (hg : s.GlobalsAgree) :
    GlobalsAgree { s with scopes := s.scopes.remove n, depth, site } :=
  fun name => (hg name).trans (congrArg (fun Γ : Locals => (Γ name).map _)
    (hs.locals_top_remove _).symm)

/-- The scopes that are removed are not part of the final tables. -/
theorem ends_remove {natives : List NativeSignature} {T : Tables}
    (hT : Ends { s with scopes := s.scopes.remove n, depth, site } natives T) :
    s.Ends natives T := by
  have hgrows := hs.grows_remove n
  refine ⟨⟨hT.sound, hT.types, hT.pool, hgrows.trans hT.scopes⟩, hT.natives_eq, fun j hj => ?_⟩
  exact (hT.callables j (hgrows.symbols j hj).1).trans (hs.callables_remove _ hj)

end

end Lowering

/-- A block is behind its end what it was before, but for the slots it has taken. -/
theorem Proceeds.closed {s2 : Lowering} (h : Proceeds s.opened s2 ps) (hs : s.Placed) :
    Proceeds s (s2.closed s.site.scope) ps ∧ (s2.closed s.site.scope).locals = s.locals ∧
      (s2.closed s.site.scope).slotCount = s2.slotCount ∧
      ∀ natives (T : Tables), (s2.closed s.site.scope).Ends natives T → s2.Ends natives T := by
  have hdepth : s2.depth = s.depth.succ := h.depth
  have hscope : s2.site.scope = ⟨s.scopes.size⟩ := h.scope
  obtain ⟨hsound, hframed, hlocals, hcount⟩ := ScopeTable.block_ok hs.scopes hs.scope_lt
    (fun j hj => Nat.lt_succ_of_le (hs.depth j hj)) h.ready.scopes h.scopes
  rw [← hdepth] at hsound hframed hlocals hcount
  have hlt : s.site.scope.index < (s2.scopes.remove s2.depth).size :=
    Nat.lt_of_lt_of_le hs.scope_lt hframed.size
  refine ⟨⟨⟨⟨⟨h.ready.types, h.ready.pool⟩, hsound, hlt⟩, h.types, h.pool, hframed, h.home, rfl,
    h.loops, ?_, fun hg => Lowering.globals_remove h.ready.scopes (h.globals (hs.globals_push hg))⟩,
    h.functions, h.classes⟩, hlocals, ?_, fun _ _ => Lowering.ends_remove h.ready.scopes⟩
  · change s2.depth - 1 = s.depth
    omega
  · change _ = s2.scopes.slotCount s2.site.scope
    rw [hscope]
    exact hcount

theorem Lower.inBlock_ok {act : Lower Unit} {u : Unit} (h : inBlock act s = .ok u s') :
    ∃ s2, act s.opened = .ok () s2 ∧ s' = s2.closed s.site.scope := by
  simp only [inBlock, bind_ok, get_bind] at h
  obtain ⟨id, s1, h1, _, s2, h2, _, s3, h3, _, s4, h4, h5⟩ := h
  cases h1
  cases h2
  cases h4
  cases h5
  exact ⟨s3, h3, rfl⟩

/-! ## Statements that are compiled -/

/-- Whatever the types of the slots taken before are, those taken behind have types such that
something holds once compiling has ended. -/
def Slotted (natives : List NativeSignature) (s s' : Lowering)
    (P : Tables → List TypeId → List TypeId → Prop) : Prop :=
  ∀ Δ, Δ.length = s.slotCount → ∃ Δ', Δ'.length = s'.slotCount ∧ ∀ T, s'.Ends natives T → P T Δ Δ'

/-- Compiling has emitted the code of a task. -/
def Executed (natives : List NativeSignature) (task : Task) (s s' : Lowering) : Prop :=
  ∃ breaks code, Proceeds s s' breaks ∧ s'.code = s.code ++ code 0 ∧
    Holes s.code.length breaks code ∧ Slotted natives s s' fun T Δ Δ' => ∀ exit,
      Executes T s.home (s.loop? exit) task s.locals Δ s.code.length (code exit) s'.locals Δ'

namespace Executed

variable {natives : List NativeSignature} {task : Task} {s s1 s' : Lowering}

/-- Tasks that emit their code once and for all. -/
theorem of_emits {code : List Instruction} (hs : s.Ready) (h : Emits s s' code)
    (hcode : ∀ T : Tables, s'.Ends natives T → ∀ loop Δ,
      Executes T s.home loop task s.locals Δ s.code.length code s.locals Δ) :
    Executed natives task s s' := by
  refine ⟨[], fun _ => code, h.proceeds hs, h.code_eq, .const _ _, fun Δ hΔ => ⟨Δ, ?_, ?_⟩⟩
  · rw [hΔ, h.slotCount]
  · intro T hT exit
    rw [h.locals]
    exact hcode T hT _ _

theorem marked (h0 : Emits s s1 []) (hs : s.Placed) (h : Executed natives task s1 s') :
    Executed natives task s s' := by
  obtain ⟨ps, code, hproc, hcode, hholes, hexec⟩ := h
  have hproc0 := h0.proceeds hs.toReady
  have hlen : s1.code.length = s.code.length := h0.length
  refine ⟨ps, code, ?_, ?_, hlen ▸ hholes, fun Δ hΔ => ?_⟩
  · simpa using hproc0.trans hproc hs
  · rw [hcode, h0.code_eq, List.append_nil]
  · obtain ⟨Δ', hΔ', hexec⟩ := hexec Δ (hΔ.trans h0.slotCount.symm)
    refine ⟨Δ', hΔ', fun T hT exit => ?_⟩
    have := hexec T hT exit
    rwa [h0.home, h0.locals, hlen, hproc0.loop?] at this

/-- Outside of loops nothing is left open. -/
theorem outside (h : Executed natives task s s') (hloops : s.site.loops = []) :
    ∃ code, Proceeds s s' [] ∧ s'.code = s.code ++ code ∧ Slotted natives s s' fun T Δ Δ' =>
      Executes T s.home none task s.locals Δ s.code.length code s'.locals Δ' := by
  obtain ⟨ps, code, hproc, hcode, -, hexec⟩ := h
  have hnone : s.loop? 0 = none := by rw [Lowering.loop?, hloops]; rfl
  refine ⟨code 0, { hproc with loops := ?_ }, hcode, fun Δ hΔ => ?_⟩
  · rw [hproc.loops, hloops]
    rfl
  · obtain ⟨Δ', hΔ', hexec⟩ := hexec Δ hΔ
    exact ⟨Δ', hΔ', fun T hT => hnone ▸ hexec T hT 0⟩

theorem placed (h : Executed natives task s s') (hs : s.Placed) : s'.Placed := by
  obtain ⟨_, _, hproc, -⟩ := h
  exact hproc.placed hs

theorem nil (hs : s.Ready) : Executed natives (.stmts []) s s :=
  of_emits hs (.refl hs.toTidy) fun _ _ _ _ => .nil

theorem cons {a : Stmt} {rest : List Stmt} (hs : s.Placed) (ha : Executed natives (.stmt a) s s1)
    (hrest : Executed natives (.stmts rest) s1 s') :
    Executed natives (.stmts (a :: rest)) s s' := by
  obtain ⟨ps, ca, hproc, hcode, hholes, hexec⟩ := ha
  obtain ⟨qs, cr, hproc', hcode', hholes', hexec'⟩ := hrest
  have hlen : s1.code.length = s.code.length + (ca 0).length := by rw [hcode, List.length_append]
  refine ⟨_, _, hproc.trans hproc' hs, ?_, hholes.append (hlen ▸ hholes'), fun Δ hΔ => ?_⟩
  · rw [hcode', hcode, List.append_assoc]
  · obtain ⟨Δ1, hΔ1, hexec⟩ := hexec Δ hΔ
    obtain ⟨Δ', hΔ', hexec'⟩ := hexec' Δ1 hΔ1
    refine ⟨Δ', hΔ', fun T hT exit => ?_⟩
    have h' := hexec' T hT exit
    rw [hproc.home, hproc.loop?, hlen, hholes.length 0 exit] at h'
    exact .cons (hexec T (hproc'.ends hT) exit) h'

theorem single {a : Stmt} (hs : s.Placed) (ha : Executed natives (.stmt a) s s') :
    Executed natives (.stmts [a]) s s' :=
  ha.cons hs (nil (ha.placed hs).toReady)

theorem block {span : Span} {body : List Stmt} (hs : s.Placed)
    (h : Executed natives (.stmts body) s.opened s') :
    Executed natives (.stmt (.block span body)) s (s'.closed s.site.scope) := by
  obtain ⟨ps, code, hproc, hcode, hholes, hexec⟩ := h
  obtain ⟨hproc', hlocals, hcount, hends⟩ := hproc.closed hs
  refine ⟨ps, code, hproc', hcode, hholes, fun Δ hΔ => ?_⟩
  obtain ⟨Δ', hΔ', hexec⟩ := hexec Δ (hΔ.trans (Lowering.opened_slotCount hs).symm)
  refine ⟨Δ', hΔ'.trans hcount.symm, fun T hT exit => ?_⟩
  have := hexec T (hends natives T hT) exit
  rw [Lowering.opened_locals hs.toReady] at this
  rw [hlocals]
  exact .block this

end Executed

namespace Lower

open TypeTable (primitives)

section

variable {natives : List NativeSignature} {s s1 s' : Lowering}

/-! ## Declarations of variables -/

variable {span : Span} {name : String} {type : TypeId} {slot : UInt16} {t : ScopeTable}
  {kind : Kind}
  {u v w : Unit} {top : Nat} {body : Stmt} {s2 s3 s4 s5 : Lowering} {step cond : Option Expr}
  {exit : Option Nat} {hasElse : Bool}

theorem declareVariable_ok (h : declareVariable span name type s = .ok slot s') (hs : s.Placed) :
    ∃ t, ScopeTable.Declared s.site.scope name type slot s.scopes t ∧
    s' = { s with scopes := t } := by
  rw [declareVariable, get_bind] at h
  obtain ⟨t, hin, rfl⟩ := onScopes_ok h
  exact ⟨t, ScopeTable.insertVariable_ok hs.scopes hs.scope_lt hin, rfl⟩

/-- What a variable declared in the outermost scope is to the globals. -/
theorem globals_declared {globals : Std.TreeMap String Global} (hs : s.Placed)
    (hd : ScopeTable.Declared s.site.scope name type slot s.scopes t)
    (hin : s.site.scope = .top → globals = s.globals.insert name ⟨slot, type⟩)
    (hout : s.site.scope ≠ .top → globals = s.globals) (hg : s.GlobalsAgree) (n : String) :
    globals[n]? = (t.locals .top n).map fun found => ⟨found.1, found.2⟩ := by
  by_cases hscope : s.site.scope = .top
  · have hlocals := hd.locals
    rw [hscope] at hlocals
    rw [hin hscope, Std.TreeMap.getElem?_insert, hlocals, Locals.set]
    by_cases hn : n = name
    · subst hn
      simp
    · have : compare name n ≠ .eq := fun heq => hn (Std.LawfulEqOrd.eq_of_compare heq).symm
      rw [if_neg this, if_neg hn]
      exact hg n
  · obtain ⟨outer, houter, hlt⟩ := hs.scopes.paths .top hs.scopes.top.1
    have hpath : s.site.scope ∉ s.scopes.path .top := by
      rw [houter]
      intro hmem
      rcases List.mem_cons.mp hmem with heq | hmem
      · exact hscope heq
      · exact Nat.not_lt_zero _ (hlt _ hmem)
    rw [hout hscope, hd.framed.locals_eq hs.scopes hs.scopes.top.1 hpath]
    exact hg n

theorem pushInitial_ok (h : pushInitial kind s = .ok u s') (ht : s.Tidy) :
    ∃ code, Emits s s' code ∧ ∀ T : Tables, s'.Within T →
    ∀ (H : Home) (Γ : Locals) (type : TypeId) b,
      primitives.kindOf type = kind → Initialises T H Γ type b none code := by
  cases kind with
  | int => exact ⟨_, emit_ok h ht, fun T _ H Γ type b hkind => .int hkind⟩
  | ref => exact ⟨_, emit_ok h ht, fun T _ H Γ type b hkind => .ref hkind⟩
  | float =>
    simp only [pushInitial, bind_ok] at h
    obtain ⟨c, s1, h1, h2⟩ := h
    obtain ⟨hemit1, hc⟩ := constant_ok h1 ht
    have hemit2 := emit_ok h2 hemit1.tidy
    exact ⟨_, hemit1.trans hemit2, fun T hT H Γ type b hkind =>
      .float hkind ((hemit2.within hT).pool _ _ hc)⟩

/-- The store of the first value of a variable that has been declared. -/
theorem declared_ok {i : Instruction} (globals : Std.TreeMap String Global) (hs : s.Placed)
    (hd : ScopeTable.Declared s.site.scope name type slot s.scopes t)
    (hemit : Emits { s with scopes := t } s1 [i])
    (hin : s.site.scope = .top → globals = s.globals.insert name ⟨slot, type⟩)
    (hout : s.site.scope ≠ .top → globals = s.globals) :
    Proceeds s { s1 with globals } [] ∧
      ({ s1 with globals } : Lowering).code = s.code ++ [i] ∧
      ({ s1 with globals } : Lowering).locals = s.locals.set name slot type ∧
      ({ s1 with globals } : Lowering).slotCount = s.slotCount + 1 := by
  have hscopes : s1.scopes = t := hemit.scopes
  have hscope : s1.site.scope = s.site.scope := hemit.scope
  refine ⟨⟨⟨⟨⟨hemit.tidy.types, hemit.tidy.pool⟩, ?_, ?_⟩, hemit.types, hemit.pool, ?_, hemit.home,
    hscope, ?_, hemit.depth, fun hg n => ?_⟩, hemit.functions, hemit.classes⟩, hemit.code_eq, ?_,
      ?_⟩
  · rw [hscopes]
    exact hd.sound
  · rw [hscopes, hscope, hd.size]
    exact hs.scope_lt
  · rw [hscopes]
    exact hd.framed
  · rw [addBreaks_nil]
    exact hemit.loops
  · rw [hscopes]
    exact globals_declared hs hd hin hout hg n
  · rw [Lowering.locals, hscopes, hscope]
    exact hd.locals
  · rw [Lowering.slotCount, hscopes, hscope]
    exact hd.slotCount

/-- The store of the first value, and the entry among the globals. -/
theorem store_ok (h : (do
      let slot ← declareVariable span name type
      emit (.store kind slot)
      let site := (← get).site
      if site.role = .main && site.scope = .top then
        modify fun s => { s with globals := s.globals.insert name ⟨slot, type⟩ } : Lower Unit) s =
      .ok u s') (hs : s.Placed) :
    ∃ slot, Proceeds s s' [] ∧ s'.code = s.code ++ [.store kind slot] ∧ s.locals name = none ∧
      s.slotCount < 65536 ∧ slot = s.slotCount.toUInt16 ∧ s'.locals = s.locals.set name slot type ∧
      s'.slotCount = s.slotCount + 1 := by
  obtain ⟨slot, s1, h1, h⟩ := bind_ok.mp h
  obtain ⟨t, hd, rfl⟩ := declareVariable_ok h1 hs
  obtain ⟨_, s2, h2, h⟩ := bind_ok.mp h
  have hemit := emit_ok h2 (s := { s with scopes := t }) ⟨hs.types, hs.pool⟩
  simp only [bind_ok, get_ok, ite_ok, modify_ok, pure_ok, Bool.and_eq_true, decide_eq_true_eq] at h
  obtain ⟨_, _, ⟨rfl, rfl⟩, h⟩ := h
  have hrole : s2.site.role = s.site.role := hemit.role
  have hscope : s2.site.scope = s.site.scope := hemit.scope
  have hglobals : s2.globals = s.globals := hemit.globals
  rw [hrole, hscope] at h
  rcases h with ⟨⟨-, hin⟩, rfl⟩ | ⟨hout, -, rfl⟩
  · obtain ⟨hproc, hcode, hlocals, hcount⟩ :=
      declared_ok (s2.globals.insert name ⟨slot, type⟩) hs hd
      hemit (fun _ => by rw [hglobals]) (absurd hin)
    exact ⟨slot, hproc, hcode, hd.fresh, hd.limit, hd.slot_eq, hlocals, hcount⟩
  · obtain ⟨hproc, hcode, hlocals, hcount⟩ := declared_ok s2.globals hs hd hemit
      (fun hin => absurd ⟨hs.main hin, hin⟩ hout) (fun _ => hglobals)
    exact ⟨slot, hproc, hcode, hd.fresh, hd.limit, hd.slot_eq, hlocals, hcount⟩

theorem varDecl_ok {term : TypeTerm} {init : Option Expr}
    (h : varDecl natives span name term init s = .ok u s') (hs : s.Placed) :
    Executed natives (.stmt (.var span name term init)) s s' := by
  simp only [varDecl, get_bind] at h
  obtain ⟨type, s2, h1, h⟩ := bind_ok.mp h
  obtain ⟨hemit1, htype, hvoid⟩ := variableType_ok h1 hs.toTidy
  rw [kindOf_bind] at h
  have hs1 := hemit1.ready hs.toReady
  -- the first value, whether it is given or not
  have hinit : ∃ s3 code, Emits s2 s3 code ∧ (∀ T : Tables, s3.Ends natives T →
      Initialises T s.home s.locals type s.code.length init code) ∧
      (do
        let slot ← declareVariable span name type
        emit (.store (s2.types.kindOf type) slot)
        let site := (← get).site
        if site.role = .main && site.scope = .top then
          modify fun s => { s with globals := s.globals.insert name ⟨slot, type⟩ } :
            Lower Unit) s3 =
        .ok u s' := by
    cases init with
    | some e =>
      obtain ⟨found, s3, h3, h⟩ := bind_ok.mp h
      obtain ⟨_, s4, h4, h⟩ := bind_ok.mp h
      obtain ⟨code, hemit3, hcode⟩ := (expr_ok e h3 hs1).after hemit1
      obtain ⟨hemit4, hassign⟩ := coerce_ok h4 hemit3.tidy
      exact ⟨s4, _, hemit3.trans hemit4, fun T hT => .value (hcode T (hemit4.ends hT)) hassign, h⟩
    | none =>
      obtain ⟨_, s3, h3, h⟩ := bind_ok.mp h
      obtain ⟨code, hemit3, hcode⟩ := pushInitial_ok h3 hemit1.tidy
      refine ⟨s3, _, hemit3, fun T hT => ?_, h⟩
      exact hcode T hT.toWithin _ _ _ _ (hemit1.tidy.types.kindOf type).symm
  obtain ⟨s3, code, hemit2, hcode, h⟩ := hinit
  have hemit3 : Emits s s3 code := hemit1.trans hemit2
  have hproc3 := hemit3.proceeds hs.toReady
  obtain ⟨slot, hproc, hcode', hfresh, hlimit, hslot, hlocals, hcount⟩ :=
    store_ok h (hproc3.placed hs)
  rw [hemit1.tidy.types.kindOf] at hcode'
  rw [hemit3.locals] at hfresh hlocals
  rw [hemit3.slotCount] at hlimit hslot hcount
  refine ⟨[], fun _ => code ++ [.store (primitives.kindOf type) slot], ?_, ?_, .const _ _,
    fun Δ hΔ => ?_⟩
  · simpa using hproc3.trans hproc hs
  · rw [hcode', hemit3.code_eq, List.append_assoc]
  · refine ⟨Δ ++ [type], by simp [hΔ, hcount], fun T hT exit => ?_⟩
    have hT3 := hproc.ends hT
    have hterm : T.types.meaning s.home.typeScope term = some type :=
      (hemit2.ends hT3).meaning hemit1.tidy htype
    rw [hlocals]
    exact .var hterm hvoid (hcode T hT3) hfresh (hΔ ▸ hlimit) (hΔ ▸ hslot)

/-! ## Leaving -/

theorem breakLoop_ok (h : breakLoop span s = .ok u s') (hs : s.Placed) :
    Executed natives (.stmt (.breakLoop span)) s s' := by
  rw [breakLoop, get_bind] at h
  cases hloops : s.site.loops with
  | nil => simp [hloops] at h
  | cons loop outer =>
    simp only [hloops, bind_ok] at h
    obtain ⟨jump, s1, h1, h2⟩ := h
    obtain ⟨rfl, hemit⟩ := emitJump_ok h1 hs.toTidy
    have hproc : Proceeds (s.withLoops s.site.loops) s1 [] := hemit.proceeds hs.toReady
    cases h2
    refine ⟨[s.code.length], fun x => [.jump .always x.toUInt32],
      hproc.withLoops (by rw [hloops]; rfl), hemit.code_eq, .jump _ _, fun Δ hΔ => ⟨Δ, ?_, ?_⟩⟩
    · rw [hΔ]
      exact hemit.slotCount.symm
    · intro T _ exit
      have hlocals := hemit.locals
      have hloop : s.loop? exit = some ⟨loop.top, exit⟩ := by rw [Lowering.loop?, hloops]; rfl
      rw [hloop]
      change Executes T _ _ _ _ Δ _ _ s1.locals Δ
      rw [hlocals]
      exact .breakLoop

theorem continueLoop_ok (h : continueLoop span s = .ok u s') (hs : s.Placed) :
    Executed natives (.stmt (.continueLoop span)) s s' := by
  rw [continueLoop, get_bind] at h
  cases hloops : s.site.loops with
  | nil => simp [hloops] at h
  | cons loop outer =>
    simp only [hloops] at h
    have hemit := emit_ok h hs.toTidy
    refine ⟨[], fun _ => [.jump .always loop.top.toUInt32], hemit.proceeds hs.toReady,
      hemit.code_eq, .const _ _, fun Δ hΔ => ⟨Δ, hΔ.trans hemit.slotCount.symm, fun T _ exit => ?_⟩⟩
    have hloop : s.loop? exit = some ⟨loop.top, exit⟩ := by rw [Lowering.loop?, hloops]; rfl
    rw [hloop, hemit.locals]
    exact .continueLoop

theorem ret_ok {value : Option Expr} (h : ret natives span value s = .ok u s') (hs : s.Placed) :
    Executed natives (.stmt (.ret span value)) s s' := by
  simp only [ret, get_bind, fails_ok, isSame_bind, hs.types.same] at h
  obtain ⟨hrole, h⟩ := h
  cases value with
  | some e =>
    simp only [fails_ok, bind_ok, decide_eq_true_eq] at h
    obtain ⟨hvoid, found, s2, h2, _, s3, h3, h4⟩ := h
    obtain ⟨code, hemit2, hcode⟩ := expr_ok e h2 hs.toReady
    obtain ⟨hemit3, hassign⟩ := coerce_ok h3 hemit2.tidy
    have hemit4 := emit_ok h4 hemit3.tidy
    refine .of_emits hs.toReady (hemit2.trans (hemit3.trans hemit4)) fun T hT loop Δ => ?_
    exact .ret hrole hvoid (hcode T (hemit3.ends (hemit4.ends hT))) hassign
  | none =>
    simp only [ite_ok, bind_ok, fail_ok, false_and, exists_false, and_false, false_or,
      Bool.not_eq_true', decide_eq_false_iff_not, Decidable.not_not] at h
    obtain ⟨hvoid, h2⟩ := h
    exact .of_emits hs.toReady (emit_ok h2 hs.toTidy) fun T _ loop Δ => .retVoid hrole hvoid

theorem delete_ok {value : Expr} (h : delete natives span value s = .ok u s') (hs : s.Placed) :
    Executed natives (.stmt (.delete span value)) s s' := by
  simp only [delete] at h
  obtain ⟨type, s3, h1, h⟩ := bind_ok.mp h
  obtain ⟨code, hemit1, hcode⟩ := expr_ok value h1 hs.toReady
  rw [isSame_bind, kindOf_bind, ite_ok] at h
  simp only [bind_ok, fail_ok, false_and, exists_false, and_false, false_or] at h
  obtain ⟨htype, h4⟩ := h
  rw [hemit1.tidy.types.same, hemit1.tidy.types.kindOf] at htype
  simp only [Bool.or_eq_true, decide_eq_true_eq, bne_iff_ne, not_or, ne_eq,
    Decidable.not_not] at htype
  have hemit4 := emit_ok h4 hemit1.tidy
  exact .of_emits hs.toReady (hemit1.trans hemit4) fun T hT loop Δ =>
    .delete (hcode T (hemit4.ends hT)) htype.1 htype.2

/-! ## Loops -/

theorem forM_bindHere_ok {places : List Nat} (h : places.forM bindHere s = .ok u s') (ht : s.Tidy) :
    Moves s s' ∧ s'.code = aim places s.code.length s.code := by
  induction places generalizing s with
  | nil =>
    cases h
    exact ⟨.refl ht, rfl⟩
  | cons p places ih =>
    simp only [List.forM_eq_forM, List.forM_cons, bind_ok] at h ih
    obtain ⟨_, s1, h1, h2⟩ := h
    obtain ⟨hmove1, hcode1⟩ := bindHere_ok h1 ht
    obtain ⟨hmove2, hcode2⟩ := ih h2 hmove1.tidy
    refine ⟨hmove1.trans hmove2, ?_⟩
    rw [hcode2, hcode1, List.length_modify]
    rfl

theorem closeLoop_ok {loop : Loop} {outer : List Loop} (h : closeLoop s = .ok u s') (ht : s.Tidy)
    (hloops : s.site.loops = loop :: outer) :
    Moves (s.withLoops outer) s' ∧
      s'.code = aim loop.breaks (s.code.length + 1)
        (s.code ++ [.jump .always loop.top.toUInt32]) := by
  rw [closeLoop, get_bind] at h
  simp only [hloops, bind_ok] at h
  obtain ⟨_, s1, h1, _, s2, h2, h3⟩ := h
  cases h1
  have hemit : Emits (s.withLoops outer) s2 _ := emit_ok h2 ⟨ht.types, ht.pool⟩
  obtain ⟨hmove, hcode⟩ := forM_bindHere_ok h3 hemit.tidy
  refine ⟨hemit.toMoves.trans hmove, ?_⟩
  rw [hcode, hemit.length, hemit.code_eq]
  rfl

/-- The body of a loop and the jump back: what leaves the loop goes on behind it. -/
theorem loop_ok (hs : s.Placed) (hopen : openLoop top s = .ok u s1)
    (hbody : s1.Placed → Executed natives (.stmt body) s1 s2) (hclose : closeLoop s2 = .ok v s') :
    ∃ code, Proceeds s s' [] ∧ s'.code = s.code ++ (code ++ [.jump .always top.toUInt32]) ∧
      Slotted natives s s' fun T => (Executes T s.home (some ⟨top, s.code.length + code.length + 1⟩)
        (.stmt body) s.locals · s.code.length code s'.locals ·) := by
  cases hopen
  have hs1 : (s.withLoops ({ top } :: s.site.loops)).Placed :=
    ⟨⟨⟨hs.types, hs.pool⟩, hs.scopes, hs.scope_lt⟩, hs.depth, hs.main⟩
  obtain ⟨ps, code, hproc, hcode, hholes, hexec⟩ := hbody hs1
  have hloops : s2.site.loops = { top, breaks := ps } :: s.site.loops := by
    have := hproc.loops
    simpa [addBreaks, Lowering.withLoops] using this
  obtain ⟨hmove, hcode'⟩ := closeLoop_ok hclose hproc.ready.toTidy hloops
  have hproc2 : Proceeds s (s2.withLoops s.site.loops) [] := Proceeds.withLoops hproc (by simp)
  have hlen2 : s2.code.length = s.code.length + (code 0).length := by
    rw [hcode, List.length_append]
    rfl
  refine ⟨code (s2.code.length + 1), ?_, ?_, fun Δ hΔ => ?_⟩
  · simpa using hproc2.trans (hmove.proceeds hproc2.ready) hs
  · rw [hcode', hcode, List.append_assoc]
    exact hholes s.code _ 0 _ rfl
  · obtain ⟨Δ', hΔ', hexec⟩ := hexec Δ hΔ
    refine ⟨Δ', hΔ'.trans hmove.slotCount.symm, fun T hT => ?_⟩
    have hT2 := hmove.ends hT
    have := hexec T ⟨⟨hT2.sound, hT2.types, hT2.pool, hT2.scopes⟩, hT2.natives_eq, hT2.callables⟩
      (s2.code.length + 1)
    rw [hmove.locals, ← hholes.length 0]
    rw [hlen2] at this ⊢
    exact this

theorem whileLoop_ok {cond : Expr} (h : (do
      let top ← here
      condition natives cond
      let exit ← emitJump .ifFalse
      openLoop top
      stmt natives body
      closeLoop
      bindHere exit : Lower Unit) s = .ok u s') (hs : s.Placed)
    (hbody : ∀ {u s s'}, stmt natives body s = .ok u s' → s.Placed →
      Executed natives (.stmt body) s s') :
    Executed natives (.stmt (.whileLoop span cond body)) s s' := by
  simp only [bind_ok] at h
  obtain ⟨_, s, hhere, _, s1, hcond, exit, s2, hjump, _, s3, hopen, _, s4, h4, _, s5, hclose,
    hbind⟩ := h
  obtain ⟨rfl, rfl⟩ := here_ok hhere
  obtain ⟨cc, hemit1, hcc⟩ := condition_ok hcond hs.toReady
  obtain ⟨rfl, hemit2⟩ := emitJump_ok hjump hemit1.tidy
  have hemit := hemit1.trans hemit2
  have hproc2 := hemit.proceeds hs.toReady
  have hs2 := hproc2.placed hs
  obtain ⟨cb, hproc5, hcode5, hexec⟩ := loop_ok hs2 hopen (hbody h4) hclose
  obtain ⟨hmove, hcode'⟩ := bindHere_at (s.code ++ cc) .ifFalse
    (cb ++ [.jump .always s.code.length.toUInt32])
    hbind hproc5.ready.toTidy (by rw [hcode5, hemit.code_eq]; simp) (by rw [hemit1.code_eq])
  have hlen2 : s2.code.length = s.code.length + cc.length + 1 := by
    rw [hemit.length, List.length_append, List.length_singleton]
    omega
  have hlen5 : s5.code.length = s.code.length + cc.length + 1 + cb.length + 1 := by
    rw [hcode5, List.length_append, hlen2, List.length_append, List.length_singleton]
    omega
  refine ⟨[], fun _ => cc ++ .jump .ifFalse (s5.code.length).toUInt32 ::
    (cb ++ [.jump .always s.code.length.toUInt32]), ?_, ?_, .const _ _, fun Δ hΔ => ?_⟩
  · simpa using (hproc2.trans hproc5 hs).trans (hmove.proceeds hproc5.ready) hs
  · rw [hcode', List.append_assoc]
  · obtain ⟨Δ', hΔ', hexec⟩ := hexec Δ (hΔ.trans hemit.slotCount.symm)
    refine ⟨Δ', hΔ'.trans hmove.slotCount.symm, fun T hT exit => ?_⟩
    have hT5 := hmove.ends hT
    have hT2 := hproc5.ends hT5
    have hb := hexec T hT5
    rw [hemit.home, hemit.locals, hlen2] at hb
    rw [hmove.locals, hlen5]
    exact .whileLoop (hcc T (hemit2.ends hT2)) hb rfl

theorem step_ok (h : step.forM (effect natives) s = .ok u s') (hs : s.Ready) :
    Coded natives (Steps · · · · step) s s' := by
  cases step with
  | none =>
    cases h
    exact ⟨[], .refl hs.toTidy, fun T _ => .none⟩
  | some e =>
    obtain ⟨code, hemit, hcode⟩ := effect_ok h hs
    exact ⟨code, hemit, fun T hT => .some (hcode T hT)⟩

/-- The condition of a loop and the jump that leaves it, which is aimed later. -/
theorem guard_ok (h : cond.forM (condition natives) s = .ok u s1)
    (hexit : (if cond.isSome then some <$> emitJump .ifFalse else pure none : Lower (Option Nat))
      s1 = .ok exit s')
    (hs : s.Ready) :
    ∃ code : Nat → List Instruction, Emits s s' (code 0) ∧ Holes s.code.length exit.toList code ∧
      ∀ T : Tables, s'.Ends natives T → ∀ x,
        Guards T s.home s.locals s.code.length x cond (code x) := by
  cases cond with
  | none =>
    cases h
    cases hexit
    exact ⟨fun _ => [], .refl hs.toTidy, .const _ _, fun T _ _ => .none⟩
  | some e =>
    obtain ⟨cc, hemit1, hcc⟩ := condition_ok h hs
    simp only [Option.isSome_some, ↓reduceIte, map_ok] at hexit
    obtain ⟨jump, hjump, rfl⟩ := hexit
    obtain ⟨rfl, hemit2⟩ := emitJump_ok hjump hemit1.tidy
    refine ⟨fun x => cc ++ [.jump .ifFalse x.toUInt32], hemit1.trans hemit2, ?_, fun T hT x => ?_⟩
    · rw [hemit1.length]
      exact .const_append (.jump _ _)
    · exact .some (hcc T (hemit2.ends hT))

/-- What a `for` has become behind its first part: `jmp cond; top: step; cond; body; jmp top`. -/
def Turned (natives : List NativeSignature) (cond step : Option Expr) (body : Stmt)
    (s s' : Lowering) : Prop :=
  ∃ top cs cc cb, Proceeds s s' [] ∧
    s'.code = s.code ++ .jump .always (top + cs.length).toUInt32 ::
      (cs ++ (cc ++ (cb ++ [.jump .always top.toUInt32]))) ∧ top = s.code.length + 1 ∧
    Slotted natives s s' fun T Δ Δ' => ∀ start stop,
      start = top + cs.length + cc.length → stop = start + cb.length + 1 →
      Steps T s.home s.locals top step cs ∧
      Guards T s.home s.locals (top + cs.length) stop cond cc ∧
      Executes T s.home (some ⟨top, stop⟩) (.stmt body) s.locals Δ start cb s'.locals Δ'

theorem ite_bind {α β : Type} {p : Prop} [Decidable p] {x y : Lower α} {f : α → Lower β} :
    (if p then x >>= f else y >>= f) = (if p then x else y) >>= f := by
  split <;> rfl

theorem turns_ok (h : (do
      let entry ← emitJump .always
      let top ← here
      step.forM (effect natives)
      bindHere entry
      cond.forM (condition natives)
      let exit ← if cond.isSome then some <$> emitJump .ifFalse else pure none
      openLoop top
      stmt natives body
      closeLoop
      exit.forM bindHere : Lower Unit) s = .ok u s') (hs : s.Placed)
    (hbody : ∀ {u s s'}, stmt natives body s = .ok u s' → s.Placed →
      Executed natives (.stmt body) s s') :
    Turned natives cond step body s s' := by
  simp only [bind_ok] at h
  obtain ⟨entry, s1, hentry, top, _, htop, _, s2, hstep, _, s3, hbind, _, s4, hcond, h⟩ := h
  simp only [ite_bind, bind_ok] at h
  obtain ⟨exit, s5, hexit, _, s6, hopen, _, s7, h7, _, s8, hclose, hlast⟩ := h
  obtain ⟨htop, rfl⟩ := here_ok htop
  obtain ⟨rfl, hemit1⟩ := emitJump_ok hentry hs.toTidy
  obtain ⟨cs, hemit2, hcs⟩ := (step_ok hstep (hemit1.ready hs.toReady)).after hemit1
  obtain ⟨hmove3, hcode3⟩ := bindHere_ok hbind hemit2.tidy
  have hmove := (hemit1.toMoves.trans hemit2.toMoves).trans hmove3
  obtain ⟨cc, hemit5, hguard, hcc⟩ := guard_ok hcond hexit (hmove.ready hs.toReady)
  have hproc5 := (hmove.trans hemit5.toMoves).proceeds hs.toReady
  have hs5 := hproc5.placed hs
  obtain ⟨cb, hproc8, hcode8, hexec⟩ := loop_ok hs5 hopen (hbody h7) hclose
  obtain ⟨hmove', hcode'⟩ : Moves s8 s' ∧ s'.code = aim exit.toList s8.code.length s8.code := by
    cases exit with
    | none =>
      cases hlast
      exact ⟨.refl hproc8.ready.toTidy, rfl⟩
    | some jump => exact bindHere_ok hlast hproc8.ready.toTidy
  -- where everything stands
  have htop' : top = s.code.length + 1 := by rw [htop, hemit1.length, List.length_singleton]
  have hlen2 : s2.code.length = top + cs.length := by rw [hemit2.length, htop]
  have hlen3 : s3.code.length = top + cs.length := by rw [hcode3, List.length_modify, hlen2]
  have hlen5 : s5.code.length = top + cs.length + (cc 0).length := by rw [hemit5.length, hlen3]
  have hlen8 : s8.code.length = s5.code.length + cb.length + 1 := by
    rw [hcode8, List.length_append, List.length_append, List.length_singleton]
    omega
  have hcclen : (cc s8.code.length).length = (cc 0).length := hguard.length _ 0
  have hcode3' : s3.code = s.code ++ .jump .always (top + cs.length).toUInt32 :: cs := by
    rw [hcode3, hlen2, hemit2.code_eq, hemit1.code_eq, List.append_assoc]
    exact modify_append_cons s.code cs _ _ rfl
  refine ⟨top, cs, cc s8.code.length, cb, ?_, ?_, htop', fun Δ hΔ => ?_⟩
  · simpa using (hproc5.trans hproc8 hs).trans (hmove'.proceeds hproc8.ready) hs
  · have := hguard s3.code (cb ++ [.jump .always top.toUInt32]) 0 s8.code.length rfl
    rw [hcode', hcode8, hemit5.code_eq, List.append_assoc] at *
    rw [this, hcode3', List.append_assoc, List.cons_append]
  · obtain ⟨Δ', hΔ', hexec⟩ := hexec Δ (hΔ.trans (hmove.slotCount.symm.trans hemit5.slotCount.symm))
    refine ⟨Δ', hΔ'.trans hmove'.slotCount.symm, fun T hT start stop hstart hstop => ?_⟩
    have hT8 := hmove'.ends hT
    have hT5 := hproc8.ends hT8
    have hcs := hcs T (hmove3.ends (hemit5.ends hT5))
    rw [List.length_singleton, ← htop'] at hcs
    have hcc := hcc T hT5 s8.code.length
    rw [hmove.home, hmove.locals, hlen3] at hcc
    have hb := hexec T hT8
    rw [hemit5.home, hmove.home, hemit5.locals, hmove.locals, ← hmove'.locals] at hb
    obtain rfl : start = s5.code.length := by rw [hstart, hlen5, hcclen]
    obtain rfl : stop = s8.code.length := hstop.trans hlen8.symm
    exact ⟨hcs, hcc, hlen8 ▸ hb⟩

theorem forLoop_ok {init : Option Stmt} (hs : s.Placed)
    (hinit : Executed natives (.stmts init.toList) s.opened s1)
    (hturns : Turned natives cond step body s1 s') :
    Executed natives (.stmt (.forLoop span init cond step body)) s (s'.closed s.site.scope) := by
  have hs0 := Lowering.opened_placed hs
  obtain ⟨top, cs, cc, cb, hproc, hcode, htop, hturns⟩ := hturns
  obtain ⟨ps, ci, hproc1, hcode1, hholes, hexec⟩ := hinit
  obtain ⟨hprocC, hlocals, hcount, hends⟩ := (hproc1.trans hproc hs0).closed hs
  have hlen1 : s1.code.length = s.code.length + (ci 0).length := by
    rw [hcode1, List.length_append]
    rfl
  have hholes : Holes s.code.length ps ci := hholes
  refine ⟨ps, fun e => ci e ++ .jump .always (top + cs.length).toUInt32 ::
    (cs ++ (cc ++ (cb ++ [.jump .always top.toUInt32]))), hprocC, ?_, hholes.append_const _,
    fun Δ hΔ => ?_⟩
  · change s'.code = _
    rw [hcode, hcode1, List.append_assoc]
    rfl
  · obtain ⟨Δ1, hΔ1, hexec⟩ := hexec Δ (hΔ.trans (Lowering.opened_slotCount hs).symm)
    obtain ⟨Δ2, hΔ2, hturns⟩ := hturns Δ1 hΔ1
    refine ⟨Δ2, hΔ2.trans hcount.symm, fun T hT e => ?_⟩
    have hT' := hends natives T hT
    have hi := hexec T (hproc.ends hT') e
    rw [Lowering.opened_locals hs.toReady] at hi
    obtain ⟨hcs, hcc, hb⟩ := hturns T hT' _ _ rfl rfl
    rw [hproc1.home] at hcs hcc hb
    rw [hlocals]
    refine .forLoop hi ?_ hcs rfl hcc rfl hb rfl
    rw [htop, hlen1, hholes.length 0 e]

/-! ## Choices -/

/-- Compiling has emitted the code of the arms of a choice; the jumps that leave the choice are
aimed later. -/
def ExecutedArms (natives : List NativeSignature) (hasElse : Bool) (list : List Arm)
    (ends : List Nat) (s s' : Lowering) : Prop :=
  ∃ (breaks : List Nat) (code : Nat → Nat → List Instruction),
    Proceeds s s' breaks ∧ s'.code = s.code ++ code 0 0 ∧
    (∀ stop, Holes s.code.length breaks fun exit => code exit stop) ∧
    (∀ exit, Holes s.code.length ends fun stop => code exit stop) ∧
    Slotted natives s s' fun T Δ Δ' => ∀ exit stop,
      Executes T s.home (s.loop? exit) (.arms hasElse list stop) s.locals Δ s.code.length
        (code exit stop) s'.locals Δ'

theorem choose_ok {list : List Arm} {otherwise : Option Stmt} {ends : List Nat} (hs : s.Placed)
    (harms : ExecutedArms natives otherwise.isSome list ends s s1)
    (helse : Executed natives (.stmts otherwise.toList) s1 s2)
    (hbind : ends.forM bindHere s2 = .ok u s') :
    Executed natives (.stmt (.choose span list otherwise)) s s' := by
  obtain ⟨ps, ca, hproc1, hcode1, hbreaks, hends, hexec1⟩ := harms
  obtain ⟨qs, co, hproc2, hcode2, hholes, hexec2⟩ := helse
  obtain ⟨hmove, hcode'⟩ := forM_bindHere_ok hbind hproc2.ready.toTidy
  have hlen : ∀ x y, (ca x y).length = (ca 0 0).length := fun x y =>
    ((hbreaks y).length x 0).trans ((hends 0).length y 0)
  have hlen1 : s1.code.length = s.code.length + (ca 0 0).length :=
    by rw [hcode1, List.length_append]
  have hlen2 : s2.code.length = s1.code.length + (co 0).length := by rw [hcode2, List.length_append]
  have hholes' : Holes (s.code.length + (ca 0 s2.code.length).length) qs co := by
    rw [hlen, ← hlen1]
    exact hholes
  refine ⟨qs ++ ps, fun x => ca x s2.code.length ++ co x, ?_, ?_, (hbreaks _).append hholes',
    fun Δ hΔ => ?_⟩
  · simpa using (hproc1.trans hproc2 hs).trans (hmove.proceeds hproc2.ready) hs
  · rw [hcode']
    have := hends 0 s.code (co 0) 0 s2.code.length rfl
    rw [← this, hcode2, hcode1, List.append_assoc]
  · obtain ⟨Δ1, hΔ1, hexec1⟩ := hexec1 Δ hΔ
    obtain ⟨Δ2, hΔ2, hexec2⟩ := hexec2 Δ1 hΔ1
    refine ⟨Δ2, hΔ2.trans hmove.slotCount.symm, fun T hT x => ?_⟩
    have hT2 := hmove.ends hT
    have h1 := hexec1 T (hproc2.ends hT2) x s2.code.length
    have h2 := hexec2 T hT2 x
    rw [hproc1.home, hproc1.loop?, hlen1, ← hlen x s2.code.length] at h2
    rw [hmove.locals]
    refine .choose h1 h2 ?_
    have := hlen x s2.code.length
    have := hholes.length 0 x
    omega

theorem noArm_ok (hs : s.Ready) : ExecutedArms natives hasElse [] [] s s :=
  ⟨[], fun _ _ => [], by simpa using (Moves.refl hs.toTidy).proceeds hs, (List.append_nil _).symm,
    fun _ => .const _ _, fun _ => .const _ _, fun Δ hΔ => ⟨Δ, hΔ, fun _ _ _ _ => .noArm⟩⟩

theorem arm_ok {cond : Expr} {rest : List Arm} {skip : Nat} {ends more : List Nat} (hs : s.Placed)
    (hcond : condition natives cond s = .ok v s1) (hskip : emitJump .ifFalse s1 = .ok skip s2)
    (hbody : s2.Placed → Executed natives (.stmt body) s2 s3)
    (hends : (if hasElse || !rest.isEmpty then (do pure [← emitJump .always]) else pure [] :
      Lower (List Nat)) s3 = .ok ends s4) (hbind : bindHere skip s4 = .ok u s5)
    (hrest : s5.Placed → ExecutedArms natives hasElse rest more s5 s') :
    ExecutedArms natives hasElse (.mk cond body :: rest) (ends ++ more) s s' := by
  obtain ⟨cc, hemit1, hcc⟩ := condition_ok hcond hs.toReady
  obtain ⟨rfl, hemit2⟩ := emitJump_ok hskip hemit1.tidy
  have hemit := hemit1.trans hemit2
  have hproc2 := hemit.proceeds hs.toReady
  obtain ⟨ps, cb, hproc3, hcode3, hholes3, hexec3⟩ := hbody (hproc2.placed hs)
  have hs3 := hproc3.placed (hproc2.placed hs)
  -- the jump behind the body, if there is one
  obtain ⟨hemit4, hend⟩ : Emits s3 s4 (armEnd hasElse rest 0) ∧
      Holes s3.code.length ends fun stop => armEnd hasElse rest stop := by
    unfold armEnd
    split at hends
    next hcond =>
      simp only [bind_ok, pure_ok] at hends
      obtain ⟨jump, _, hjump, rfl, rfl⟩ := hends
      obtain ⟨rfl, hemit4⟩ := emitJump_ok hjump hs3.toTidy
      simp only [hcond, ↓reduceIte]
      exact ⟨hemit4, .jump _ _⟩
    next hcond =>
      cases hends
      simp only [hcond]
      exact ⟨.refl hs3.toTidy, .const _ _⟩
  obtain ⟨hmove5, hcode5⟩ := bindHere_at (s.code ++ cc) .ifFalse (cb 0 ++ armEnd hasElse rest 0)
    hbind hemit4.tidy (by rw [hemit4.code_eq, hcode3, hemit.code_eq]; simp) (by rw [hemit1.code_eq])
  have hproc5 := (hemit4.toMoves.trans hmove5).proceeds hs3.toReady
  obtain ⟨qs, cr, hproc', hcode', hbreaks', hends', hexec'⟩ := hrest (hproc5.placed hs3)
  have hlenEnd : ∀ y, (armEnd hasElse rest y).length = (armEnd hasElse rest 0).length :=
    fun y => hend.length y 0
  have hlen2 : s2.code.length = s.code.length + (cc.length + 1) := by
    rw [hemit.length, List.length_append, List.length_singleton]
  have hlen3 : s3.code.length = s.code.length + (cc.length + 1) + (cb 0).length := by
    rw [hcode3, List.length_append, hlen2]
  have hlen4 : s4.code.length = s3.code.length + (armEnd hasElse rest 0).length := hemit4.length
  have hlen5 : s5.code.length = s3.code.length + (armEnd hasElse rest 0).length := by
    rw [hcode5, hlen3]
    simp
    omega
  rw [hlen4, ← hlen5] at hcode5
  have hconst : ∀ {b qs} {c : Nat → List Instruction}, Holes (b + (cc.length + 1)) qs c →
      Holes b qs fun x => cc ++ .jump .ifFalse s5.code.length.toUInt32 :: c x := by
    intro b qs c h
    have : Holes b qs fun x => (cc ++ [.jump .ifFalse s5.code.length.toUInt32]) ++ c x :=
      .const_append (by rwa [List.length_append])
    simpa using this
  refine ⟨qs ++ ps, fun x y => cc ++ .jump .ifFalse s5.code.length.toUInt32 ::
    (cb x ++ (armEnd hasElse rest y ++ cr x y)), ?_, ?_, fun y => ?_, fun x => ?_, fun Δ hΔ => ?_⟩
  · simpa using ((hproc2.trans hproc3 hs).trans hproc5 hs).trans hproc' hs
  · rw [hcode']
    refine (congrArg (· ++ cr 0 0) hcode5).trans ?_
    simp only [List.append_assoc, List.cons_append]
  · refine hconst ?_
    rw [← hlen2]
    refine hholes3.append (.const_append ?_)
    rw [hlen2, hlenEnd, ← hlen3, ← hlen5]
    exact hbreaks' y
  · refine hconst (.const_append ?_)
    rw [hholes3.length x 0, ← hlen3]
    refine hend.appendFront ?_
    rw [← hlen5]
    exact hends' x
  · obtain ⟨Δ1, hΔ1, hexec3⟩ := hexec3 Δ (hΔ.trans hemit.slotCount.symm)
    obtain ⟨Δ2, hΔ2, hexec'⟩ := hexec' Δ1
      (hΔ1.trans (hemit4.slotCount.symm.trans hmove5.slotCount.symm))
    refine ⟨Δ2, hΔ2, fun T hT x y => ?_⟩
    have hT3 := hproc5.ends (hproc'.ends hT)
    have hb := hexec3 T hT3 x
    rw [hemit.home, hemit.locals, hproc2.loop?, hlen2] at hb
    have hr := hexec' T hT x y
    rw [hmove5.home, hemit4.home, hproc3.home, hemit.home, hmove5.locals, hemit4.locals,
      hproc5.loop?, hproc3.loop?, hproc2.loop?] at hr
    refine .arm (hcc T (hemit2.ends (hproc3.ends hT3))) hb ?_ hr
    have := hlenEnd y
    have := hholes3.length 0 x
    omega

end

/-! ## Statements -/

mutual

/-- Compiling a statement emits its code. -/
theorem stmt_ok {natives : List NativeSignature} : ∀ (a : Stmt) {u : Unit} {s s' : Lowering},
    stmt natives a s = .ok u s' → s.Placed → Executed natives (.stmt a) s s'
  | a, u, s, s', h, hs => by
    unfold stmt at h
    obtain ⟨_, s1, h1, h⟩ := bind_ok.mp h
    have hemit := setMark_ok h1 hs.toTidy
    have hs1 := (hemit.proceeds hs.toReady).placed hs
    refine .marked hemit hs ?_
    cases a with
    | var span name type init => exact varDecl_ok h hs1
    | expr span value =>
      obtain ⟨code, hemit2, hcode⟩ := effect_ok h hs1.toReady
      exact .of_emits hs1.toReady hemit2 fun T hT _ _ => .expr (hcode T hT)
    | block span body =>
      obtain ⟨s2, h2, rfl⟩ := inBlock_ok h
      exact .block hs1 (stmts_ok body h2 (Lowering.opened_placed hs1))
    | choose span list otherwise =>
      obtain ⟨ends, s2, h2, h⟩ := bind_ok.mp h
      have harms := arms_ok list h2 hs1
      have hs2 := harms.choose_spec.choose_spec.1.placed hs1
      match otherwise, h, harms with
      | some a, h, harms =>
        obtain ⟨_, s3, h3, h⟩ := bind_ok.mp h
        exact choose_ok hs1 harms (.single hs2 (stmt_ok a h3 hs2)) h
      | none, h, harms => exact choose_ok hs1 harms (.nil hs2.toReady) h
    | whileLoop span cond body => exact whileLoop_ok h hs1 fun h => stmt_ok body h
    | forLoop span init cond step body =>
      obtain ⟨s2, h2, rfl⟩ := inBlock_ok h
      have hs2 := Lowering.opened_placed hs1
      match init, h2 with
      | some a, h2 =>
        obtain ⟨_, s3, h3, h4⟩ := bind_ok.mp h2
        have hinit := stmt_ok a h3 hs2
        exact forLoop_ok hs1 (.single hs2 hinit) (turns_ok h4 (hinit.placed hs2) fun h =>
          stmt_ok body h)
      | none, h2 =>
        exact forLoop_ok hs1 (.nil hs2.toReady) (turns_ok h2 hs2 fun h => stmt_ok body h)
    | breakLoop span => exact breakLoop_ok h hs1
    | continueLoop span => exact continueLoop_ok h hs1
    | ret span value => exact ret_ok h hs1
    | delete span value => exact delete_ok h hs1
    | function | classDecl => simp at h

theorem stmts_ok {natives : List NativeSignature} :
    ∀ (list : List Stmt) {u : Unit} {s s' : Lowering},
    stmts natives list s = .ok u s' → s.Placed → Executed natives (.stmts list) s s'
  | [], u, s, s', h, hs => by
    cases h
    exact .nil hs.toReady
  | a :: rest, u, s, s', h, hs => by
    simp only [stmts, bind_ok] at h
    obtain ⟨_, s1, h1, h2⟩ := h
    have ha := stmt_ok a h1 hs
    exact ha.cons hs (stmts_ok rest h2 (ha.placed hs))

theorem arms_ok {natives : List NativeSignature} {hasElse : Bool} : ∀ (list : List Arm)
    {ends : List Nat} {s s' : Lowering}, arms natives hasElse list s = .ok ends s' → s.Placed →
      ExecutedArms natives hasElse list ends s s'
  | [], ends, s, s', h, hs => by
    cases h
    exact noArm_ok hs.toReady
  | .mk cond body :: rest, ends, s, s', h, hs => by
    simp only [arms] at h
    obtain ⟨_, s1, h1, h⟩ := bind_ok.mp h
    obtain ⟨skip, s2, h2, h⟩ := bind_ok.mp h
    obtain ⟨_, s3, h3, h⟩ := bind_ok.mp h
    rw [← bind_assoc, ite_bind, bind_ok] at h
    obtain ⟨here, s4, h4, h⟩ := h
    simp only [bind_ok, pure_ok] at h
    obtain ⟨_, s5, h5, more, s6, h6, rfl, rfl⟩ := h
    exact arm_ok hs h1 h2 (fun hs2 => stmt_ok body h3 hs2) h4 h5 fun hs5 => arms_ok rest h6 hs5

end

end Lower

end Bytescript
