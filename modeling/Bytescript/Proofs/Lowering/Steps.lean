import Bytescript.Lowering.Declaration
import Bytescript.Proofs.Pool
import Bytescript.Proofs.Scopes
import Bytescript.Proofs.Types
import Bytescript.Tree.Build

/-!
# Steps of compiling

Compiling is a sequence of steps on a `Lowering`. This module says what each elementary step does to
it, in a form that composes: `bind_ok` takes a sequence apart, `Moves` is what holds of the tables
between two states of which the second comes later, and `Emits` is `Moves` together with the code
that has been appended.

Everything that is said about compiled code later is said about the tables at the end of compiling,
the `Tables`; `Lowering.Within` lets what was true of the tables on the way be read there.
-/

namespace Bytescript

/-- What holds of a result is there to be looked at. -/
theorem exists_of_any {ε α : Type} {x : Except ε α} {p : α → Bool} (h : x.toOption.any p = true) :
    ∃ a, x = .ok a ∧ p a = true := by
  cases x with
  | error e => cases h
  | ok a => exact ⟨a, rfl, h⟩

/-! ## Sequences of steps -/

namespace Lower

section

variable {α β : Type} {s s' : Lowering} {x : Lower α} {b : β} {a : α}

@[simp]
theorem bind_ok {f : α → Lower β} :
    (x >>= f) s = .ok b s' ↔ ∃ a s1, x s = .ok a s1 ∧ f a s1 = .ok b s' := by
  change EStateM.bind x f s = _ ↔ _
  unfold EStateM.bind
  cases x s with
  | ok a s1 =>
    constructor
    · exact fun h => ⟨a, s1, rfl, h⟩
    · rintro ⟨_, _, h, h'⟩
      cases h
      exact h'
  | error e s1 => simp

@[simp]
theorem map_ok {f : α → β} : (f <$> x) s = .ok b s' ↔ ∃ a, x s = .ok a s' ∧ f a = b := by
  change EStateM.map f x s = _ ↔ _
  unfold EStateM.map
  cases x s with
  | ok a s1 =>
    constructor
    · intro h
      cases h
      exact ⟨a, rfl, rfl⟩
    · rintro ⟨_, h, rfl⟩
      cases h
      rfl
  | error e s1 => simp

@[simp]
theorem pure_ok {b : α} : (pure a : Lower α) s = .ok b s' ↔ a = b ∧ s = s' := by
  change EStateM.Result.ok a s = _ ↔ _
  simp

@[simp]
theorem get_ok {a : Lowering} : (get : Lower Lowering) s = .ok a s' ↔ s = a ∧ s = s' := by
  change EStateM.Result.ok s s = _ ↔ _
  simp

@[simp]
theorem modify_ok {f : Lowering → Lowering} {u : Unit} :
    (modify f : Lower Unit) s = .ok u s' ↔ f s = s' := by
  change EStateM.Result.ok () (f s) = _ ↔ _
  simp

@[simp]
theorem throw_ok {e : CompileError} : (throw e : Lower α) s = .ok a s' ↔ False := by
  change (EStateM.Result.error e s : EStateM.Result CompileError Lowering α) = _ ↔ _
  simp

@[simp]
theorem fail_ok {span : Span} {cause : CompileCause} :
    (fail span cause : Lower α) s = .ok a s' ↔ False :=
  throw_ok

@[simp]
theorem ite_ok {p : Prop} [Decidable p] {y : Lower α} :
    (if p then x else y) s = .ok a s' ↔ (p ∧ x s = .ok a s') ∨ (¬p ∧ y s = .ok a s') := by
  split <;> simp_all

/-- What goes on is not what fails. -/
theorem fails_ok {p : Prop} [Decidable p] {span : Span} {cause : CompileCause} {f : β → Lower α} :
    (if p then fail span cause >>= f else x) s = .ok a s' ↔ ¬p ∧ x s = .ok a s' := by
  simp

/-! ### Looking at the state -/

theorem get_bind {f : Lowering → Lower β} : (get >>= f) s = f s s := rfl

theorem isSame_bind {a b : TypeId} {f : Bool → Lower β} :
    (isSame a b >>= f) s = f (s.types.same a b) s := rfl

theorem kindOf_bind {type : TypeId} {f : Kind → Lower β} :
    (kindOf type >>= f) s = f (s.types.kindOf type) s := rfl

end

end Lower

/-! ## States -/

/-- The instructions emitted so far in the current routine. -/
def Lowering.code (s : Lowering) : List Instruction := s.site.draft.code.toList

/-- What compiling keeps up about types and constants. -/
structure Lowering.Tidy (s : Lowering) : Prop where
  types : s.types.Sound
  pool : s.pool.Sound

/-- The second state comes after the first: tables of types and constants have grown, and besides
them only the draft is different. -/
structure Moves (s s' : Lowering) : Prop where
  tidy : s'.Tidy
  types : s.types.Extends s'.types
  pool : s.pool.Grows s'.pool
  rest : s' = { s with
    types := s'.types
    pool := s'.pool
    site := { s.site with draft := s'.site.draft } }

namespace Moves

theorem refl {s : Lowering} (h : s.Tidy) : Moves s s := ⟨h, .refl _, fun _ _ => id, rfl⟩

variable {s s' s'' : Lowering}

theorem trans (h : Moves s s') (h' : Moves s' s'') : Moves s s'' where
  tidy := h'.tidy
  types := h.types.trans h'.types
  pool i c hi := h'.pool i c (h.pool i c hi)
  rest := by
    have h1 := h.rest
    have h2 := h'.rest
    generalize s'.types = types at *
    generalize s'.pool = pool at *
    generalize s'.site.draft = draft at *
    subst h1
    exact h2

section

variable (h : Moves s s')

include h

theorem scopes : s'.scopes = s.scopes := by rw [h.rest]
theorem depth : s'.depth = s.depth := by rw [h.rest]
theorem functions : s'.functions = s.functions := by rw [h.rest]
theorem classes : s'.classes = s.classes := by rw [h.rest]
theorem globals : s'.globals = s.globals := by rw [h.rest]
theorem role : s'.site.role = s.site.role := by rw [h.rest]
theorem scope : s'.site.scope = s.site.scope := by rw [h.rest]
theorem typeScope : s'.site.typeScope = s.site.typeScope := by rw [h.rest]
theorem result : s'.site.result = s.site.result := by rw [h.rest]
theorem loops : s'.site.loops = s.site.loops := by rw [h.rest]

end

end Moves

/-- The second state comes after the first, and the code has been appended meanwhile. -/
structure Emits (s s' : Lowering) (code : List Instruction) : Prop extends Moves s s' where
  code_eq : s'.code = s.code ++ code

namespace Emits

variable {s s' s'' : Lowering} {code code' : List Instruction}

theorem refl (h : s.Tidy) : Emits s s [] := ⟨.refl h, (List.append_nil _).symm⟩

theorem trans (h : Emits s s' code) (h' : Emits s' s'' code') : Emits s s'' (code ++ code') :=
  ⟨h.toMoves.trans h'.toMoves, by rw [h'.code_eq, h.code_eq, List.append_assoc]⟩

theorem length (h : Emits s s' code) : s'.code.length = s.code.length + code.length := by
  rw [h.code_eq, List.length_append]

end Emits

/-! ## Elementary steps -/

/-- Replaces the draft of the current routine. -/
def Lowering.withDraft (s : Lowering) (draft : Draft) : Lowering :=
  { s with site := { s.site with draft } }

theorem Moves.withDraft {s : Lowering} (h : s.Tidy) (draft : Draft) : Moves s (s.withDraft draft) :=
  ⟨⟨h.types, h.pool⟩, .refl _, fun _ _ => id, rfl⟩

namespace Lower

section

variable {s s' : Lowering} {u : Unit} {mark : Mark} {α : Type} {span : Span} {c : Constant}
  {index : UInt16}

theorem emit_ok {i : Instruction} (h : emit i s = .ok u s') (ht : s.Tidy) : Emits s s' [i] := by
  cases h
  refine ⟨.withDraft ht _, ?_⟩
  simp [Lowering.code, Draft.emit]

/-- What is set aside gets the current mark, and the code is as it was. -/
theorem setAside_eq {i : Instruction} :
    setAside span i = do return (i, (← get).site.draft.mark) := by
  funext s
  have htake : (s.site.draft.emit i).takeLast = (some (i, s.site.draft.mark), s.site.draft) := by
    simp [Draft.takeLast, Draft.emit]
  simp only [setAside, bind, EStateM.bind, emit, onDraft, onSite, htake]
  rfl

theorem putBack_ok {i : Instruction} (h : putBack (i, mark) s = .ok u s') (ht : s.Tidy) :
    Emits s s' [i] := by
  cases h
  refine ⟨.withDraft ht _, ?_⟩
  simp [Lowering.code, Draft.restore]

theorem emitJump_ok {trigger : Trigger} {jump : Nat} (h : emitJump trigger s = .ok jump s')
    (ht : s.Tidy) : jump = s.code.length ∧ Emits s s' [.jump trigger 0] := by
  cases h
  refine ⟨by simp [Lowering.code, Draft.size], .withDraft ht _, ?_⟩
  simp [Lowering.code, Draft.emitJump, Draft.emit]

theorem here_ok {index : Nat} (h : here s = .ok index s') : index = s.code.length ∧ s' = s := by
  cases h
  exact ⟨by simp [Lowering.code, Draft.size], rfl⟩

theorem setMark_ok (h : setMark mark s = .ok u s') (ht : s.Tidy) : Emits s s' [] := by
  cases h
  refine ⟨.withDraft ht _, ?_⟩
  simp [Lowering.code, Draft.setMark]

theorem swapMark_ok {old : Mark} (h : swapMark mark s = .ok old s') (ht : s.Tidy) :
    Emits s s' [] := by
  cases h
  refine ⟨.withDraft ht _, ?_⟩
  simp [Lowering.code]

/-- What is emitted under a mark of its own is what is emitted. -/
theorem withMark_ok {act : Lower α} {a : α} (h : withMark span act s = .ok a s') (ht : s.Tidy) :
    ∃ s1 s2, Emits s s1 [] ∧ act s1 = .ok a s2 ∧ (s2.Tidy → Emits s2 s' []) := by
  simp only [withMark, bind_ok, pure_ok] at h
  obtain ⟨old, s1, hswap, _, s2, hact, _, s3, hset, rfl, rfl⟩ := h
  exact ⟨s1, s2, swapMark_ok hswap ht, hact, fun ht2 => setMark_ok hset ht2⟩

theorem emitAll_ok {code : List Instruction} (h : emitAll code s = .ok u s') (ht : s.Tidy) :
    Emits s s' code := by
  induction code generalizing s with
  | nil =>
    cases h
    exact .refl ht
  | cons i code ih =>
    simp only [emitAll, List.forM_eq_forM, List.forM_cons, bind_ok] at h
    obtain ⟨_, s1, hemit, hrest⟩ := h
    have h1 := emit_ok hemit ht
    exact h1.trans (ih hrest h1.tidy)

theorem constant_add (h : constant c s = .ok index s') :
    ∃ pool, s.pool.add c = (.ok index, pool) ∧ s' = { s with pool } := by
  unfold constant at h
  split at h
  split at h
  next hadd =>
    cases h
    exact ⟨_, hadd, rfl⟩
  · cases h

theorem constant_step (h : constant c s = .ok index s') (hs : s.pool.Sound) :
    s' = { s with pool := s'.pool } ∧ s'.pool.Sound ∧ s.pool.Grows s'.pool ∧
      s'.pool.entries[index.toNat]? = some c := by
  obtain ⟨pool, hadd, rfl⟩ := constant_add h
  exact ⟨rfl, Pool.Builder.add_ok hs hadd⟩

theorem constant_ok (h : constant c s = .ok index s') (ht : s.Tidy) :
    Emits s s' [] ∧ s'.pool.entries[index.toNat]? = some c := by
  obtain ⟨pool, hadd, rfl⟩ := constant_add h
  obtain ⟨hsound, hgrows, hindex⟩ := Pool.Builder.add_ok ht.pool hadd
  exact ⟨⟨⟨⟨ht.types, hsound⟩, .refl _, hgrows, rfl⟩, (List.append_nil _).symm⟩, hindex⟩

theorem onTypes_ok {f : TypeTable → Except TypeError TypeId × TypeTable} {id : TypeId}
    (h : onTypes span (fun t => f t) s = .ok id s') :
    ∃ types, f s.types = (.ok id, types) ∧ s' = { s with types } := by
  rw [onTypes, get_bind] at h
  rcases hf : f s.types with ⟨_ | found, types⟩ <;> rw [hf] at h
  · cases h
  · cases h
    exact ⟨types, rfl, rfl⟩

theorem onScopes_ok {f : ScopeTable → Except ScopeError α × ScopeTable} {a : α}
    (h : onScopes span f s = .ok a s') : ∃ t, f s.scopes = (.ok a, t) ∧
    s' = { s with scopes := t } := by
  unfold onScopes at h
  split at h
  next types scopes pool site depth functions classes globals journal =>
    split at h
    next a' t hf =>
      cases h
      exact ⟨t, hf, rfl⟩
    · cases h

end

end Lower

end Bytescript
