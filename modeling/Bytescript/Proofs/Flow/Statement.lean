import Bytescript.Proofs.Flow.Expression

/-!
# Flow through statements

The code of a statement leaves the stack as it was (`Executes.flows`), so every statement begins
with nothing on it. Behind a statement the variables that can be named are live if no declaration
can be stepped over: if declarations stand only where a scope is opened for them (`Stmt.scoped`).
-/

namespace Bytescript

open TypeTable (primitives)

/-! ## Declarations in their scopes -/

def Stmt.isVar : Stmt → Bool
  | .var _ _ _ _ => true
  | _ => false

mutual

/-- Variables are declared only as items of a list or to initialise a loop. -/
def Stmt.scoped : Stmt → Bool
  | .block _ body => scopedAll body
  | .choose _ arms none => scopedArms arms
  | .choose _ arms (some otherwise) => scopedArms arms && !otherwise.isVar && otherwise.scoped
  | .whileLoop _ _ body => !body.isVar && body.scoped
  | .forLoop _ none _ _ body => !body.isVar && body.scoped
  | .forLoop _ (some init) _ _ body => init.scoped && !body.isVar && body.scoped
  | .function _ _ body => scopedAll body
  | .classDecl _ _ body => scopedAll body
  | _ => true

def scopedAll : List Stmt → Bool
  | [] => true
  | s :: rest => s.scoped && scopedAll rest

def scopedArms : List Arm → Bool
  | [] => true
  | .mk _ body :: rest => !body.isVar && body.scoped && scopedArms rest

end

def Task.scoped : Task → Bool
  | .stmt s => s.scoped
  | .stmts list => scopedAll list
  | .arms _ list _ => scopedArms list

/-- A task that is no declaration and whose declarations stand in scopes of their own. -/
def Task.closed : Task → Bool
  | .stmt s => !s.isVar && s.scoped
  | .stmts list => list.all fun s => !s.isVar && s.scoped
  | .arms _ list _ => scopedArms list

variable {task : Task} {span : Span} {cond : Expr} {body : Stmt} {t : TypeId}

theorem Task.closed_scoped (h : task.closed = true) : task.scoped = true := by
  cases task with
  | stmt s => exact (Bool.and_eq_true _ _ ▸ h).2
  | arms _ _ _ => exact h
  | stmts list =>
    rw [Task.scoped]
    induction list with
    | nil => rfl
    | cons s rest ih =>
      simp only [Task.closed, List.all_cons, Bool.and_eq_true] at h
      rw [scopedAll, h.1.2, Bool.true_and]
      exact ih h.2

theorem scoped_choose {arms : List Arm} {otherwise : Option Stmt}
    (h : (Task.stmt (.choose span arms otherwise)).scoped = true) :
    scopedArms arms = true ∧ (Task.stmts otherwise.toList).closed = true := by
  cases otherwise with
  | none => exact ⟨by rwa [Task.scoped, Stmt.scoped] at h, rfl⟩
  | some s =>
    rw [Task.scoped, Stmt.scoped, Bool.and_assoc, Bool.and_eq_true] at h
    exact ⟨h.1, by simpa only [Task.closed, Option.toList, List.all_cons, List.all_nil,
      Bool.and_true] using h.2⟩

theorem scoped_while (h : (Task.stmt (.whileLoop span cond body)).scoped = true) :
    (Task.stmt body).closed = true := by
  rwa [Task.scoped, Stmt.scoped] at h

theorem scoped_for {init : Option Stmt} {cond step : Option Expr}
    (h : (Task.stmt (.forLoop span init cond step body)).scoped = true) :
    scopedAll init.toList = true ∧ (Task.stmt body).closed = true := by
  cases init with
  | none => exact ⟨rfl, by rwa [Task.scoped, Stmt.scoped] at h⟩
  | some s =>
    rw [Task.scoped, Stmt.scoped, Bool.and_assoc, Bool.and_eq_true] at h
    exact ⟨by simpa [scopedAll] using h.1, h.2⟩

theorem scoped_arm {hasElse : Bool} {rest : List Arm} {stop : Nat}
    (h : (Task.arms hasElse (.mk cond body :: rest) stop).scoped = true) :
    (Task.stmt body).closed = true ∧ scopedArms rest = true := by
  rwa [Task.scoped, scopedArms, Bool.and_eq_true] at h

/-! ## Variables behind a statement -/

/-- What can be named before can be named with the same meaning behind. -/
def Locals.Le (Γ Γ' : Locals) : Prop := ∀ name found, Γ name = some found → Γ' name = some found

theorem Locals.Le.set {Γ : Locals} {name : String} {slot : UInt16} (h : Γ name = none) :
    Γ.Le (Γ.set name slot t) := by
  intro n found hn
  rw [Locals.set, if_neg]
  · exact hn
  · rintro rfl
    cases h.symm.trans hn

/-- The variables have the types of their slots; inside of a class, one of them is the receiver. -/
structure Locals.Known (Γ : Locals) (H : Home) (Δ : List TypeId) : Prop where
  slot : ∀ name slot t, Γ name = some (slot, t) → Δ[slot.toNat]? = some t
  self : ∀ cls, H.role.class? = some cls → ∃ slot, Γ "this" = some (slot, cls)

/-- The slots of the variables that can be named. Where that is not asked for, all slots count. -/
def Locals.live (Γ : Locals) (strict : Prop) (i : Nat) : Prop :=
  strict → ∃ name slot t, Γ name = some (slot, t) ∧ slot.toNat = i

namespace Locals

variable {Γ Γ' : Locals} {H : Home} {Δ : List TypeId} {strict : Prop}

theorem Known.fits (h : Γ.Known H Δ) : Γ.Fits H Δ (Γ.live strict) where
  slot name slot t hname := ⟨h.slot name slot t hname, fun _ => ⟨name, slot, t, hname, rfl⟩⟩
  self := h.self

variable {name : String} {slot : UInt16} {t : TypeId}

theorem Known.set (h : Γ.Known H Δ) (hname : Γ name = none) (ht : Δ[slot.toNat]? = some t) :
    (Γ.set name slot t).Known H Δ where
  slot n slot' t' hn := by
    rw [Locals.set] at hn
    split at hn
    · cases hn
      exact ht
    · exact h.slot n slot' t' hn
  self cls hcls := (h.self cls hcls).imp fun _ hself => Le.set hname _ _ hself

theorem Le.live (h : Γ.Le Γ') (i : Nat) (hi : Γ.live strict i) : Γ'.live strict i := fun hs => by
  obtain ⟨name, slot, t, hname, rfl⟩ := hi hs
  exact ⟨name, slot, t, h _ _ hname, rfl⟩

theorem Le.refines (h : Γ.Le Γ') (strict : Prop) (st : List TypeId) :
    Point.Refines ⟨st, Γ'.live strict⟩ ⟨st, Γ.live strict⟩ := .of_live h.live

theorem live_congr (strict : Prop) (h : strict → Γ' = Γ) : Γ'.live strict = Γ.live strict := by
  funext i
  refine propext ⟨fun hi hs => ?_, fun hi hs => ?_⟩
  · exact h hs ▸ hi hs
  · exact (h hs).symm ▸ hi hs

theorem live_set (i : Nat) (hi : (Γ.set name slot t).live strict i) : i = slot.toNat ∨
    Γ.live strict i := by
  by_cases heq : i = slot.toNat
  · exact .inl heq
  · refine .inr fun hs => ?_
    obtain ⟨n, slot', t', hn, rfl⟩ := hi hs
    rw [Locals.set] at hn
    split at hn
    · cases hn
      exact absurd rfl heq
    · exact ⟨n, slot', t', hn, rfl⟩

end Locals

namespace Executes

variable {T : Tables} {H : Home} {loop : Option LoopEnds} {task : Task} {Γ Γ' : Locals}
  {Δ0 Δ1 : List TypeId} {b : Nat} {code : List Instruction}

/-- Slots are never given away twice. -/
theorem slots_grow (h : Executes T H loop task Γ Δ0 b code Γ' Δ1) : Δ0 <+: Δ1 := by
  induction h with
  | var => exact List.prefix_append _ _
  | block _ ih => exact ih
  | choose _ _ _ ih1 ih2 => exact ih1.trans ih2
  | whileLoop _ _ _ ih => exact ih
  | forLoop _ _ _ _ _ _ _ _ ih1 ih2 => exact ih1.trans ih2
  | cons _ _ ih1 ih2 => exact ih1.trans ih2
  | arm _ _ _ _ ih1 ih2 => exact ih1.trans ih2
  | _ => exact List.prefix_rfl

theorem locals_le (h : Executes T H loop task Γ Δ0 b code Γ' Δ1) : Γ.Le Γ' := by
  induction h with
  | var _ _ _ hname => exact .set hname
  | choose _ _ _ ih1 ih2 => exact fun n x hn => ih2 n x (ih1 n x hn)
  | whileLoop _ _ _ ih => exact ih
  | cons _ _ ih1 ih2 => exact fun n x hn => ih2 n x (ih1 n x hn)
  | arm _ _ _ _ ih1 ih2 => exact fun n x hn => ih2 n x (ih1 n x hn)
  | _ => exact fun _ _ => id

/-- Behind such a task the same variables can be named as before it. -/
theorem locals_eq (h : Executes T H loop task Γ Δ0 b code Γ' Δ1) (hclosed : task.closed = true) :
    Γ' = Γ := by
  induction h with
  | var => simp [Task.closed, Stmt.isVar] at hclosed
  | choose _ _ _ ih1 ih2 =>
    obtain ⟨harms, hother⟩ := scoped_choose (Task.closed_scoped hclosed)
    exact (ih2 hother).trans (ih1 harms)
  | whileLoop _ _ _ ih => exact ih (scoped_while (Task.closed_scoped hclosed))
  | cons _ _ ih1 ih2 =>
    simp only [Task.closed, List.all_cons, Bool.and_eq_true] at hclosed ih1
    exact (ih2 hclosed.2).trans (ih1 hclosed.1)
  | arm _ _ _ _ ih1 ih2 =>
    obtain ⟨hbody, hrest⟩ := scoped_arm (Task.closed_scoped hclosed)
    exact (ih2 hrest).trans (ih1 hbody)
  | _ => rfl

end Executes

/-! ## Effects -/

/-- The types of what addresses a place, the top of the stack first, and of what is stored there. -/
inductive Place.Holds (T : Tables) (Γ : Locals) : Place → List TypeId → TypeId → Prop
  | slot {name slot t} : Γ name = some (slot, t) →
    Holds T Γ (.slot (primitives.kindOf t) slot) [] t
  | field {cls t info name m} :
    T.scopes.classInfo? cls = some info → T.HasMember info name m t →
    Holds T Γ (.field (primitives.kindOf t) m) [cls] t
  | element {array el} : T.types.element? array = some el →
    Holds T Γ (.element (primitives.kindOf el)) [.int, array] el

section

variable {T : Tables} {H : Home} {Δ ops : List TypeId} {Γ : Locals} {L : Nat → Prop} {b : Nat}
  {code : List Instruction} {E : Annotation → Prop} {st : List TypeId}

theorem Place.Holds.store {place : Place} (h : place.Holds T Γ ops t) (hΓ : Γ.Fits H Δ L) :
    Flows T H Δ E b [place.store] ⟨t :: (ops ++ st), L⟩ ⟨st, L⟩ := by
  cases h with
  | slot hname =>
    exact (Flows.store (hΓ.slot _ _ _ hname).1).refine_right (.of_live fun _ hi => .inr hi)
  | field hinfo hmember => exact .plain (.setField hinfo hmember)
  | element hel => exact .plain (.setElement hel)

variable {place : Place} {t : TypeId}

theorem Place.Holds.read (h : place.Holds T Γ ops t) :
    StackCode T H Γ b place.read (ops ++ st) (t :: (ops ++ st)) := by
  cases h with
  | slot hname => exact .named hname fun _ => rfl
  | field hinfo hmember => exact (StackCode.plain .dup).append (.plain (.getField hinfo hmember))
  | element hel => exact (StackCode.plain .dup2).append (.plain (.getElement hel))

theorem Addresses.stackCode {target : Expr} (h : Addresses T H Γ target place t b code) :
    ∃ ops, place.Holds T Γ ops t ∧ ∀ st, StackCode T H Γ b code st (ops ++ st) := by
  cases h with
  | named hname => exact ⟨[], .slot hname, fun _ => .nil⟩
  | @member _ _ cls _ _ _ _ _ _ _ hcls hinfo hmember hself =>
    exact ⟨[cls], .field hinfo hmember, fun _ => .self hcls hself⟩
  | @property _ _ _ cls _ _ _ _ _ hobject hinfo hmember =>
    exact ⟨[cls], .field hinfo hmember, hobject.stackCode⟩
  | @index _ _ _ array _ _ _ _ _ harray hel hposition hassign =>
    exact ⟨[.int, array], .element hel, fun st => (harray.stackCode st).append
      ((hposition.stackCode (array :: st)).append (.assign hassign))⟩

theorem Acts.flows {e : Expr} (h : Acts T H Γ e b code) (hΓ : Γ.Fits H Δ L) (E : Annotation → Prop)
    (st : List TypeId) : Flows T H Δ E b code ⟨st, L⟩ ⟨st, L⟩ := by
  cases h with
  | assign haddr hvalue hassign =>
    obtain ⟨ops, hplace, hops⟩ := haddr.stackCode
    exact ((hops st).flows hΓ E).append ((hvalue.flows hΓ E (ops ++ st)).append
      (((StackCode.assign hassign).flows hΓ E).append (hplace.store hΓ)))
  | @compound _ _ _ _ _ t _ _ _ _ haddr hvalue hop =>
    obtain ⟨ops, hplace, hops⟩ := haddr.stackCode
    refine ((hops st).flows hΓ E).append ((hplace.read.flows hΓ E).append ?_)
    exact (hvalue.flows hΓ E (t :: (ops ++ st))).append
      (Flows.append (Flows.plain (.operation hop)) (hplace.store hΓ))
  | value hvalue => exact (hvalue.flows hΓ E st).append (.plain .pop)

theorem Initialises.flows {init : Option Expr} (h : Initialises T H Γ t b init code)
    (hΓ : Γ.Fits H Δ L)
    (E : Annotation → Prop) (st : List TypeId) : Flows T H Δ E b code ⟨st, L⟩ ⟨t :: st, L⟩ := by
  cases h with
  | value hvalue hassign => exact ((hvalue.stackCode st).append (.assign hassign)).flows hΓ E
  | int hkind =>
    rcases kindOf_eq_int hkind with rfl | rfl
    · exact .plain .pushByte
    · exact .plain (Takes.pushBool (b := false))
  | float hkind hpool =>
    obtain rfl := kindOf_eq_float hkind
    exact .plain (.float hpool)
  | ref hkind => exact .plain (.pushVoid hkind)

theorem Steps.flows {step : Option Expr} (h : Steps T H Γ b step code) (hΓ : Γ.Fits H Δ L)
    (E : Annotation → Prop) : Flows T H Δ E b code ⟨[], L⟩ ⟨[], L⟩ := by
  cases h with
  | none => exact .nil (.refl _)
  | some hacts => exact hacts.flows hΓ E []

theorem Guards.flows {exit : Nat} {cond : Option Expr} (h : Guards T H Γ b exit cond code)
    (hΓ : Γ.Fits H Δ L) (hexit : ∀ G, E G → Accepts G exit ⟨[], L⟩) :
    Flows T H Δ E b code ⟨[], L⟩ ⟨[], L⟩ := by
  cases h with
  | none => exact .nil (.refl _)
  | some hcond => exact (hcond.flows hΓ E []).append (.branch (by decide) hexit)

end

/-! ## Loops and choices -/

namespace Flows

variable {T : Tables} {H : Home} {Δ : List TypeId} {L : Nat → Prop} {b exit : Nat}
  {cc cb cs cr : List Instruction} {E : Annotation → Prop}

theorem whileLoop (hexit : exit = b + cc.length + 1 + cb.length + 1)
    (hcond : ∀ E : Annotation → Prop, Flows T H Δ E b cc ⟨[], L⟩ ⟨[.bool], L⟩)
    (hbody : ∀ E : Annotation → Prop, (∀ G, E G → Accepts G b ⟨[], L⟩ ∧ Accepts G exit ⟨[], L⟩) →
      Flows T H Δ E (b + cc.length + 1) cb ⟨[], L⟩ ⟨[], L⟩) :
    Flows T H Δ E b (cc ++ .jump .ifFalse exit.toUInt32 :: (cb ++ [.jump .always b.toUInt32]))
      ⟨[], L⟩ ⟨[], L⟩ := by
  have hcode : cc ++ .jump .ifFalse exit.toUInt32 :: (cb ++ [.jump .always b.toUInt32]) =
      cc ++ ([.jump .ifFalse exit.toUInt32] ++ (cb ++ [.jump .always b.toUInt32])) := rfl
  rw [hcode]
  refine fromStart (toEnd (assume (E := fun G => Accepts G b ⟨[], L⟩ ∧
    Accepts G exit ⟨[], L⟩) ?_ ?_))
  · exact (hcond _).append ((branch (by decide) fun _ hG => hG.2).append
      ((hbody _ fun _ => id).append (jump fun _ hG => hG.1)))
  · exact fun G hG => ⟨hG.1.2, hG.2.at (by simp; omega)⟩

theorem forLoop {top entry start : Nat} (htop : top = b + 1) (hentry : entry = top + cs.length)
    (hstart : start = entry + cc.length) (hexit : exit = start + cb.length + 1)
    (hstep : ∀ E : Annotation → Prop, Flows T H Δ E top cs ⟨[], L⟩ ⟨[], L⟩)
    (hguard : ∀ E : Annotation → Prop, (∀ G, E G → Accepts G exit ⟨[], L⟩) →
      Flows T H Δ E entry cc ⟨[], L⟩ ⟨[], L⟩)
    (hbody : ∀ E : Annotation → Prop, (∀ G, E G → Accepts G top ⟨[], L⟩ ∧ Accepts G exit ⟨[], L⟩) →
      Flows T H Δ E start cb ⟨[], L⟩ ⟨[], L⟩) :
    Flows T H Δ E b (.jump .always entry.toUInt32 ::
      (cs ++ (cc ++ (cb ++ [.jump .always top.toUInt32])))) ⟨[], L⟩ ⟨[], L⟩ := by
  subst htop hentry hstart
  let E' : Annotation → Prop := fun G => Accepts G (b + 1) ⟨[], L⟩ ∧ Accepts G exit ⟨[], L⟩
  refine toEnd (around E' (fun G hE htop _ => ⟨htop, hE.2.at (by simp; omega)⟩) (hstep _) ?_)
  exact (hguard _ fun _ hG => hG.2).append ((hbody _ fun _ => id).append (jump fun _ hG => hG.1))

theorem arm {hasElse : Bool} {rest : List Arm} {stop skip : Nat} {q : Point}
    (hskip : skip = b + cc.length + 1 + cb.length + (armEnd hasElse rest stop).length)
    (hstop : ∀ G, E G → Accepts G stop ⟨[], L⟩)
    (hcond : ∀ E : Annotation → Prop, Flows T H Δ E b cc ⟨[], L⟩ ⟨[.bool], L⟩)
    (hbody : Flows T H Δ E (b + cc.length + 1) cb ⟨[], L⟩ ⟨[], L⟩)
    (hrest : Flows T H Δ E skip cr ⟨[], L⟩ q) :
    Flows T H Δ E b (cc ++ .jump .ifFalse skip.toUInt32 :: (cb ++ (armEnd hasElse rest stop ++ cr)))
      ⟨[], L⟩ q := by
  have hcode : cc ++ .jump .ifFalse skip.toUInt32 :: (cb ++ (armEnd hasElse rest stop ++ cr)) =
      (cc ++ ([.jump .ifFalse skip.toUInt32] ++ (cb ++ armEnd hasElse rest stop))) ++ cr := by simp
  have hleave : Flows T H Δ (fun G => E G ∧ Accepts G skip ⟨[], L⟩) (b + cc.length + 1 + cb.length)
      (armEnd hasElse rest stop) ⟨[], L⟩ ⟨[], L⟩ := by
    unfold armEnd
    split
    · exact jump fun G hG => hstop G hG.1
    · exact nil (.refl _)
  rw [hcode]
  refine append (q := ⟨[], L⟩) (toEnd (assume
    (E := fun G => E G ∧ Accepts G skip ⟨[], L⟩) ?_ fun G hG => ⟨hG.1, hG.2.at ?_⟩)) ?_
  · exact (hcond _).append ((branch (by decide) fun G hG => hG.2).append
      ((hbody.assume fun _ hG => hG.1).append hleave))
  · simp
    omega
  · refine Eq.mp (congrArg (Flows T H Δ E · cr _ q) ?_) hrest
    simp
    omega

end Flows

/-! ## Statements -/

theorem slot_type {Δ0 Δ : List TypeId} (hlen : Δ0.length < 65536) (h : Δ0 ++ [t] <+: Δ) :
    Δ[Δ0.length.toUInt16.toNat]? = some t := by
  obtain ⟨rest, rfl⟩ := h
  rw [Nat.toUInt16, UInt16.toNat_ofNat', Nat.mod_eq_of_lt hlen, List.append_assoc,
    List.getElem?_append_right (Nat.le_refl _), Nat.sub_self]
  rfl

/-- Where a task may jump to, besides its end: to the ends of the loop around it, and for the arms
of a choice to where that ends. -/
structure Surrounds (E : Annotation → Prop) (loop : Option LoopEnds) (task : Task)
    (L : Nat → Prop) : Prop where
  loop : ∀ ends, loop = some ends → ∀ G, E G →
    Accepts G ends.top ⟨[], L⟩ ∧ Accepts G ends.exit ⟨[], L⟩
  stop : ∀ hasElse list stop, task = .arms hasElse list stop → ∀ G, E G → Accepts G stop ⟨[], L⟩

theorem Surrounds.mono {E E' : Annotation → Prop} {loop : Option LoopEnds} {task' : Task}
    {L L' : Nat → Prop} (h : Surrounds E loop task L) (hE : ∀ G, E' G → E G) (hL : ∀ i, L i → L' i)
    (hstop : ∀ hasElse list stop, task' = .arms hasElse list stop → ∀ G, E' G →
      Accepts G stop ⟨[], L'⟩) :
    Surrounds E' loop task' L' where
  loop ends hends G hG :=
    have hboth := h.loop ends hends G (hE G hG)
    ⟨hboth.1.mono (.of_live hL), hboth.2.mono (.of_live hL)⟩
  stop := hstop

namespace Executes

variable {T : Tables} {H : Home} {loop : Option LoopEnds} {task : Task} {Γ Γ' : Locals}
  {Δ0 Δ1 Δ : List TypeId} {b : Nat} {code : List Instruction}

theorem known (h : Executes T H loop task Γ Δ0 b code Γ' Δ1) (hΔ : Δ1 <+: Δ) (hΓ : Γ.Known H Δ) :
    Γ'.Known H Δ := by
  induction h with
  | var _ _ _ hname hlen hslot => exact hΓ.set hname (hslot ▸ slot_type hlen hΔ)
  | choose _ h2 _ ih1 ih2 => exact ih2 hΔ (ih1 (h2.slots_grow.trans hΔ) hΓ)
  | whileLoop _ _ _ ih => exact ih hΔ hΓ
  | cons _ h2 ih1 ih2 => exact ih2 hΔ (ih1 (h2.slots_grow.trans hΔ) hΓ)
  | arm _ _ _ h2 ih1 ih2 => exact ih2 hΔ (ih1 (h2.slots_grow.trans hΔ) hΓ)
  | _ => exact hΓ

/-- The code of a statement flows from its variables to those behind it. -/
theorem flows {strict : Prop} (h : Executes T H loop task Γ Δ0 b code Γ' Δ1) (hΔ : Δ1 <+: Δ)
    (hΓ : Γ.Known H Δ) (hscoped : strict → task.scoped = true) (E : Annotation → Prop)
    (hE : Surrounds E loop task (Γ.live strict)) :
    Flows T H Δ E b code ⟨[], Γ.live strict⟩ ⟨[], Γ'.live strict⟩ := by
  induction h generalizing E with
  | var _ _ hinit _ hlen hslot =>
    refine (hinit.flows hΓ.fits E []).append (.refine_right (.store ?_) (.of_live Locals.live_set))
    exact hslot ▸ slot_type hlen hΔ
  | expr hacts => exact hacts.flows hΓ.fits E []
  | block hbody ih =>
    have hflow := ih hΔ hΓ hscoped E (hE.mono (fun _ => id) (fun _ => id) (by nofun))
    exact hflow.refine_right (hbody.locals_le.refines strict [])
  | choose harms hother hstop ih1 ih2 =>
    have hΔ1 := hother.slots_grow.trans hΔ
    have hlive := Locals.live_congr strict fun hs =>
      have hclosed := scoped_choose (hscoped hs)
      (hother.locals_eq hclosed.2).trans (harms.locals_eq hclosed.1)
    refine .toEnd ((ih1 hΔ1 hΓ (fun hs => (scoped_choose (hscoped hs)).1) _ ?_).append
      (ih2 hΔ (harms.known hΔ1 hΓ) (fun hs => Task.closed_scoped (scoped_choose (hscoped hs)).2) _
        ?_))
    · refine hE.mono (fun _ hG => hG.1) (fun _ => id) fun _ _ _ htask G hG => ?_
      cases htask
      exact hlive ▸ hG.2.at (by rw [hstop, List.length_append, Nat.add_assoc])
    · exact hE.mono (fun _ hG => hG.1) harms.locals_le.live (by nofun)
  | whileLoop hcond hbody hexit ih =>
    have hclosed : strict → _ := fun hs => scoped_while (hscoped hs)
    have hlive := Locals.live_congr strict fun hs => hbody.locals_eq (hclosed hs)
    rw [hlive] at ih ⊢
    refine .whileLoop hexit (hcond.flows hΓ.fits · []) fun E' hE' => ?_
    refine ih hΔ hΓ (fun hs => Task.closed_scoped (hclosed hs)) E' ⟨fun ends hends G hG => ?_,
      by nofun⟩
    cases hends
    exact hE' G hG
  | forLoop hinit htop hstep hentry hguard hstart hbody hexit ih1 ih2 =>
    have hclosed : strict → _ := fun hs => scoped_for (hscoped hs)
    have hΔ1 := hbody.slots_grow.trans hΔ
    have hΓ1 := hinit.known hΔ1 hΓ
    have hlive := Locals.live_congr strict fun hs => hbody.locals_eq (hclosed hs).2
    rw [hlive] at ih2
    refine (ih1 hΔ1 hΓ (fun hs => (hclosed hs).1) E ?_).append
      (.refine_right ?_ (hinit.locals_le.refines strict []))
    · exact hE.mono (fun _ => id) (fun _ => id) (by nofun)
    · refine .forLoop htop hentry hstart hexit (hstep.flows hΓ1.fits ·)
        (fun _ hE' => hguard.flows hΓ1.fits hE') fun E' hE' => ?_
      refine ih2 hΔ hΓ1 (fun hs => Task.closed_scoped (hclosed hs).2) E'
        ⟨fun ends hends G hG => ?_, by nofun⟩
      cases hends
      exact hE' G hG
  | breakLoop => exact .jump fun G hG => (hE.loop _ rfl G hG).2
  | continueLoop => exact .jump fun G hG => (hE.loop _ rfl G hG).1
  | ret hrole _ hvalue hassign =>
    exact (hvalue.flows hΓ.fits E []).append
      (((StackCode.assign hassign).flows hΓ.fits E).append ⟨_, .single fun _ _ _ => .ret hrole⟩)
  | retVoid hrole hvoid => exact ⟨_, .single fun _ _ _ => .retVoid hrole hvoid⟩
  | delete hvalue hvoid hkind =>
    exact (hvalue.flows hΓ.fits E []).append (.plain (.delete hvoid hkind))
  | nil => exact .nil (.refl _)
  | cons h1 h2 ih1 ih2 =>
    have hΔ1 := h2.slots_grow.trans hΔ
    have hscoped' : strict → _ ∧ scopedAll _ = true := fun hs => by
      simpa [Task.scoped, scopedAll] using hscoped hs
    refine (ih1 hΔ1 hΓ (fun hs => (hscoped' hs).1) E ?_).append
      (ih2 hΔ (h1.known hΔ1 hΓ) (fun hs => (hscoped' hs).2) E ?_)
    · exact hE.mono (fun _ => id) (fun _ => id) (by nofun)
    · exact hE.mono (fun _ => id) h1.locals_le.live (by nofun)
  | noArm => exact .nil (.refl _)
  | arm hcond hbody hskip hrest ih1 ih2 =>
    have hclosed : strict → _ := fun hs => scoped_arm (hscoped hs)
    have hΔ1 := hrest.slots_grow.trans hΔ
    have hlive := Locals.live_congr strict fun hs => hbody.locals_eq (hclosed hs).1
    rw [hlive] at ih1 ih2
    refine .arm hskip (hE.stop _ _ _ rfl) (hcond.flows hΓ.fits · [])
      (ih1 hΔ1 hΓ (fun hs => Task.closed_scoped (hclosed hs).1) E ?_)
      (ih2 hΔ (hbody.known hΔ1 hΓ) (fun hs => (hclosed hs).2) E ?_)
    · exact hE.mono (fun _ => id) (fun _ => id) (by nofun)
    · refine hE.mono (fun _ => id) (fun _ => id) fun _ _ _ htask => ?_
      cases htask
      exact hE.stop _ _ _ rfl

end Executes

end Bytescript
