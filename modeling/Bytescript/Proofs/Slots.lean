import Bytescript.Proofs.Linkage
import Mathlib.Data.List.Forall2

/-!
# Slots and declarations

Every declaration of a routine has a slot of its own, whatever scope it stands in. So the types of
the slots can be read off the source: first come the arguments, then the declarations of the body
from top to bottom (`Routine.HasSlots`).
-/

namespace Bytescript

mutual

/-- The types of the variables that a statement declares for the routine that it stands in. -/
def Stmt.declaredTypes : Stmt → List TypeTerm
  | .var _ _ term _ => [term]
  | .block _ body => declaredTypes body
  | .choose _ arms none => armTypes arms
  | .choose _ arms (some otherwise) => armTypes arms ++ otherwise.declaredTypes
  | .whileLoop _ _ body => body.declaredTypes
  | .forLoop _ none _ _ body => body.declaredTypes
  | .forLoop _ (some init) _ _ body => init.declaredTypes ++ body.declaredTypes
  | _ => []

def declaredTypes : List Stmt → List TypeTerm
  | [] => []
  | s :: rest => s.declaredTypes ++ declaredTypes rest

def armTypes : List Arm → List TypeTerm
  | [] => []
  | .mk _ body :: rest => body.declaredTypes ++ armTypes rest

end

def Task.declaredTypes : Task → List TypeTerm
  | .stmt s => s.declaredTypes
  | .stmts list => Bytescript.declaredTypes list
  | .arms _ list _ => armTypes list

/-- Functions and classes have their own slots. -/
theorem declaredTypes_isCode (items : List Stmt) :
    declaredTypes (items.filter Stmt.isCode) = declaredTypes items := by
  induction items with
  | nil => rfl
  | cons s rest ih =>
    rw [List.filter_cons, declaredTypes]
    split
    · rw [declaredTypes, ih]
    next hcode =>
      have hnone : s.declaredTypes = [] := by
        cases s <;> first | exact absurd rfl hcode | simp only [Stmt.declaredTypes]
      rw [hnone, List.nil_append, ih]

section

variable {T : Tables} {H : Home} {Δ Δ' : List TypeId} {Γ Γ' : Locals} {b : Nat}
  {code : List Instruction}

/-- What a name of a type stands for in a scope, list by list. -/
abbrev Tables.Denotes (T : Tables) (s : TypeScopeId) (terms : List TypeTerm) (types : List TypeId) :
    Prop :=
  List.Forall₂ (fun term t => T.types.meaning s term = some t) terms types

theorem Receives.slots_eq {params : List (String × TypeId)} (h : Receives params Γ Δ code Γ' Δ') :
    Δ' = Δ ++ params.map Prod.snd := by
  induction h with
  | nil => exact (List.append_nil _).symm
  | cons _ _ _ _ ih => rw [ih, List.append_assoc, List.singleton_append, List.map_cons]

theorem Executes.slots_eq {loop : Option LoopEnds} {task : Task}
    (h : Executes T H loop task Γ Δ b code Γ' Δ') :
    ∃ ds, Δ' = Δ ++ ds ∧ T.Denotes H.typeScope task.declaredTypes ds := by
  have hnone : ∀ {s : Stmt} {Δ : List TypeId}, s.declaredTypes = [] →
      ∃ ds, Δ = Δ ++ ds ∧ T.Denotes H.typeScope (Task.stmt s).declaredTypes ds := by
    intro s Δ hs
    refine ⟨[], (List.append_nil _).symm, ?_⟩
    rw [Task.declaredTypes, hs]
    exact List.Forall₂.nil
  have happend : ∀ {Δ Δ1 Δ2 : List TypeId} {ts ts' : List TypeTerm},
      (∃ ds, Δ1 = Δ ++ ds ∧ T.Denotes H.typeScope ts ds) →
      (∃ ds, Δ2 = Δ1 ++ ds ∧ T.Denotes H.typeScope ts' ds) →
      ∃ ds, Δ2 = Δ ++ ds ∧ T.Denotes H.typeScope (ts ++ ts') ds := by
    rintro Δ _ _ ts ts' ⟨ds, rfl, hds⟩ ⟨ds', rfl, hds'⟩
    exact ⟨ds ++ ds', List.append_assoc .., List.rel_append hds hds'⟩
  induction h with
  | @var _ _ _ _ _ t _ _ _ _ _ hterm =>
    refine ⟨[t], rfl, ?_⟩
    simp only [Task.declaredTypes, Stmt.declaredTypes]
    exact List.Forall₂.cons hterm .nil
  | block _ ih =>
    simp only [Task.declaredTypes, Stmt.declaredTypes]
    exact ih
  | @choose _ _ _ otherwise _ _ _ _ _ _ _ _ _ _ _ _ _ ih1 ih2 =>
    have hboth := happend ih1 ih2
    cases otherwise <;>
      simpa [Task.declaredTypes, Stmt.declaredTypes, Bytescript.declaredTypes] using hboth
  | whileLoop _ _ _ ih =>
    simp only [Task.declaredTypes, Stmt.declaredTypes]
    exact ih
  | @forLoop _ _ init _ _ _ _ _ _ _ _ _ _ _ _ _ _ _ _ _ _ _ _ _ _ _ _ _ _ ih1 ih2 =>
    have hboth := happend ih1 ih2
    cases init <;>
      simpa [Task.declaredTypes, Stmt.declaredTypes, Bytescript.declaredTypes] using hboth
  | cons _ _ ih1 ih2 =>
    simp only [Task.declaredTypes, Bytescript.declaredTypes]
    exact happend ih1 ih2
  | arm _ _ _ _ ih1 ih2 =>
    simp only [Task.declaredTypes, armTypes]
    exact happend ih1 ih2
  | nil | noArm => exact ⟨[], (List.append_nil _).symm, List.Forall₂.nil⟩
  | expr | breakLoop | continueLoop | ret | retVoid | delete =>
    exact hnone (by simp only [Stmt.declaredTypes])

end

/-- A routine has slots for its arguments and for the variables that its body declares. -/
def Routine.HasSlots (T : Tables) (s : TypeScopeId) (body : List Stmt) (Δ : List TypeId)
    (r : Routine) : Prop :=
  ∃ ds, Δ = r.params ++ ds ∧ T.Denotes s (declaredTypes body) ds

/-- The types of the slots of a routine that has been compiled from a function, a method or a class.
-/
inductive Tables.Slots (T : Tables) (items : List Stmt) (r : Routine) (Δ : List TypeId) : Prop
  | function {head code} : T.Source items r (.function head code) →
    r.HasSlots T .top code Δ → T.Slots items r Δ
  | method {name info body code head} :
    T.HasClass .top "" items name info body →
    T.Source items r (.method info.scopes.qualified head code) →
    r.HasSlots T info.scopes.types code Δ → T.Slots items r Δ
  | constructor {owner body} : T.Source items r (.constructor owner body) →
    Δ = r.params → T.Slots items r Δ

section

variable {T : Tables} {Δ declared : List TypeId} {r : Routine} {role : SiteRole}
  {scope : TypeScopeId} {head : FunctionHead} {body items : List Stmt} {result : TypeId}

theorem Routine.HasBody.params_snd (h : r.HasBody T role scope head body declared result Δ) :
    (role.class?.toList.map (Prod.mk "this") ++ (head.params.zip declared).map fun p =>
      (p.1.name, p.2)).map Prod.snd = r.params := by
  have hlen : declared.length = head.params.length := by
    have := TypeTable.meanings_length h.meaning.1
    simpa using this
  rw [h.params_eq, List.map_append, List.map_map, List.map_map]
  congr 1
  · exact List.map_id' _
  · exact List.map_snd_zip (Nat.le_of_eq hlen)

theorem Routine.HasBody.slots (h : r.HasBody T role scope head body declared result Δ) :
    r.HasSlots T scope body Δ := by
  have hboth : ∀ {params : List (String × TypeId)} {Γ Γ' : Locals} {Δ1 : List TypeId}
      {cp cb : List Instruction}, params.map Prod.snd = r.params →
      Receives params .empty [] cp Γ Δ1 →
      Executes T ⟨role, scope, result⟩ none (.stmts body) Γ Δ1 cp.length cb Γ' Δ →
      r.HasSlots T scope body Δ := by
    intro params Γ Γ' Δ1 cp cb hparams hrec hexec
    obtain ⟨ds, rfl, hds⟩ := hexec.slots_eq
    rw [hrec.slots_eq, List.nil_append, hparams]
    exact ⟨ds, rfl, hds⟩
  have hparams := h.params_snd
  have hcode := h.code
  generalize r.code.toList = code at hcode
  cases hcode with
  | bare hrec hexec => exact hboth hparams hrec hexec
  | returning hrec hexec => exact hboth hparams hrec hexec

theorem Routine.Constructs.slots {info : Lower.ClassInfo} (h : r.Constructs T info items Δ) :
    Δ = r.params := by
  have hcode := h.code
  generalize r.code.toList = code at hcode
  obtain ⟨hrec, -, -⟩ := hcode
  rw [h.params_eq, hrec.slots_eq]
  rfl

theorem Routine.RunsItems.slots {Γ : Locals} (h : r.RunsItems T items Γ Δ) :
    r.HasSlots T .top items Δ := by
  obtain ⟨code, -, hexec⟩ := h.code
  obtain ⟨ds, hΔ, hds⟩ := hexec.slots_eq
  rw [Task.declaredTypes, declaredTypes_isCode] at hds
  exact ⟨ds, h.params_eq ▸ hΔ, hds⟩

end

end Bytescript
