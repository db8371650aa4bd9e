import Bytescript.Proofs.Lowering.Naming
import Bytescript.Proofs.Tables

/-!
# What terms mean in tables with typedefs

While a script is compiled its table of types only gains entries, and no typedef is among them
(`TypeTable.Enlarges`). What a term is resolved to is what it means afterwards
(`interns_resolving`), and keeps meaning while further structural types are asked for
(`TypeTable.Interns.answers`). Within one scope a type is known by its name
(`TypeTable.Named.meaning_inj`), although classes in different scopes may share one.
-/

namespace Bytescript

/-! ## Tables that gain types -/

namespace TypeTable

/-- The second table comes after the first, and no typedef has been added meanwhile. -/
structure Enlarges (t t' : TypeTable) : Prop extends Later t t' where
  redirect : ∀ id, (t'.get id).redirect = (t.get id).redirect
  bound : ∀ r n id, t'.lookupHere r n = some id → id.index < t.size → t.lookupHere r n = some id
  scopes : t.scopes.size ≤ t'.scopes.size
  path : ∀ r, r.index < t.scopes.size → (t'.scope r).path = (t.scope r).path

namespace Enlarges

variable {t t' t'' : TypeTable}

theorem refl (t : TypeTable) : Enlarges t t where
  toLater := .refl t
  redirect _ := rfl
  bound _ _ _ hl _ := hl
  scopes := le_rfl
  path _ _ := rfl

theorem trans (h : Enlarges t t') (h' : Enlarges t' t'') : Enlarges t t'' where
  toLater := h.toLater.trans h'.toLater
  redirect id := (h'.redirect id).trans (h.redirect id)
  bound r n id hl hid :=
    h.bound r n id (h'.bound r n id hl (hid.trans_le h.toLater.size)) hid
  scopes := h.scopes.trans h'.scopes
  path r hr := (h'.path r (hr.trans_le h.scopes)).trans (h.path r hr)

/-- What a type stands for does not change. -/
theorem resolve (h : Enlarges t t') (ht : t.Woven) {id : TypeId} (hid : id.index < t.size) :
    t'.resolve id = t.resolve id := by
  obtain ⟨-, n, hleads, hnone⟩ := ht.resolve hid
  exact Settles.resolve ⟨h.toLater.leads ht.toLinked hleads, (h.redirect _).trans hnone⟩

end Enlarges

variable {t t' : TypeTable} {id : TypeId} {kind : TypeKind} {r : TypeScopeId} {args : List TypeId}
  {n : String}

theorem get_of_ge (hid : t.size ≤ id.index) : t.get id = default := by
  rw [get, Array.getD_eq_getD_getElem?, Array.getElem?_eq_none hid, Option.getD_none]

/-- A type that is defined stays defined. -/
theorem Later.complete (h : Later t t') (hid : (t.get id).complete = true) :
    (t'.get id).complete = true := by
  by_cases hlt : id.index < t.size
  · obtain ⟨e', he', -, -, hkeep⟩ := h.entries _ _ (entry_of_lt hlt)
    rw [get_of_entry he']
    exact (hkeep hid).2.2
  · rw [get_of_ge (not_lt.mp hlt)] at hid
    cases hid

theorem get_push (t : TypeTable) (e : TypeEntry) (id : TypeId) :
    (t.push e).2.get id = if id.index = t.size then e else t.get id := by
  simp only [get, Array.getD_eq_getD_getElem?]
  split
  next hid => rw [hid, push_entries_size, Option.getD_some]
  next hid => rw [push_entries t e hid]

theorem enlarges_push {e : TypeEntry} (hfree : t.lookupHere e.scope e.name = none)
    (hred : e.redirect = none) : Enlarges t (t.push e).2 where
  toLater := later_push hfree
  redirect id := by
    rw [get_push]
    split
    next hid => rw [hred, get_of_ge (Nat.le_of_eq hid.symm)]; rfl
    · rfl
  bound r n id hl hid := by
    rw [push_lookupHere] at hl
    split at hl
    · cases hl
      exact absurd hid (lt_irrefl _)
    · exact hl
  scopes := Nat.le_of_eq (by simp [push])
  path r _ := push_path ..

theorem enlarges_newScope (t : TypeTable) (parent : TypeScopeId) :
    Enlarges t (t.newScope parent).2 where
  entries i e he := ⟨e, he, rfl, rfl, fun hc => ⟨rfl, rfl, hc⟩⟩
  lookupHere := (grows_newScope t parent).lookupHere
  redirect _ := rfl
  bound r n id hl _ := by rwa [newScope_lookupHere] at hl
  scopes := Nat.le_of_lt (by simp [newScope])
  path r hr := by
    rw [newScope_scope, if_neg (Nat.ne_of_lt hr)]

theorem get_modify (t : TypeTable) (f : TypeEntry → TypeEntry) (old id : TypeId) :
    ({ t with entries := t.entries.modify old.index f } : TypeTable).get id =
      if id = old ∧ id.index < t.size then f (t.get id) else t.get id := by
  by_cases hid : id.index < t.size
  · by_cases heq : id = old
    · rw [if_pos ⟨heq, hid⟩, heq]
      refine get_of_entry ?_
      rw [Array.getElem?_modify, if_pos rfl, entry_of_lt (heq ▸ hid)]
      rfl
    · rw [if_neg fun h => heq h.1]
      refine get_of_entry ?_
      rw [Array.getElem?_modify, if_neg fun h => heq (congrArg TypeId.mk h.symm), entry_of_lt hid]
  · rw [if_neg fun h => hid h.2, get_of_ge (not_lt.mp hid)]
    refine get_of_ge ?_
    rw [size, Array.size_modify]
    exact not_lt.mp hid

theorem Built.path_top {allowed : String → Prop} (hallowed : ∀ n, allowed n → IsIdentifier n)
    (h : t.Built allowed) : (t.scope .top).path = [.top] := by
  induction h with
  | primitives => rfl
  | newScope ht _ ih =>
    rw [newScope_scope, if_neg, ih]
    exact Nat.ne_of_lt (ht.woven hallowed).top
  | declare _ _ _ ih =>
    unfold TypeTable.declare
    split
    · exact ih
    · rw [push_path, ih]
  | insert _ _ _ _ hin ih =>
    obtain ⟨-, ⟨-, e, -, -, rfl⟩ | ⟨-, -, rfl⟩⟩ := insert_ok hin
    · rw [push_path, ih]
    · exact ih
  | intern _ _ hin ih =>
    obtain ⟨_, -, ⟨-, rfl⟩ | ⟨-, e, -, -, rfl⟩⟩ := insertGeneric_ok hin
    · exact ih
    · rw [push_path, ih]
  | relate _ ih => exact ih

/-- An announced type is completed in place. -/
theorem Woven.enlarges_complete (h : t.Woven) {old : TypeId} (hlt : old.index < t.size)
    (hpending : (t.get old).complete = false) :
    Enlarges t { t with entries := t.entries.modify old.index fun e =>
      { e with kind, redirect := none, complete := true } } where
  entries i e he := by
    simp only [Array.getElem?_modify, he, Option.map_some]
    split
    next hi =>
      subst hi
      refine ⟨_, rfl, rfl, rfl, fun hc => ?_⟩
      rw [get_of_entry he, hc] at hpending
      cases hpending
    · exact ⟨e, rfl, rfl, rfl, fun hc => ⟨rfl, rfl, hc⟩⟩
  lookupHere _ _ _ hl := hl
  redirect id := by
    rw [get_modify]
    split
    next hid => rw [hid.1, h.pending _ _ (entry_of_lt hlt) hpending]
    · rfl
  bound _ _ _ hl _ := hl
  scopes := le_rfl
  path _ _ := rfl

/-- A class has been defined in a scope. -/
structure Defined (r : TypeScopeId) (name : String) (id : TypeId) (t t' : TypeTable) : Prop where
  woven : t'.Woven
  enlarges : Enlarges t t'
  scopes : t'.scopes.size = t.scopes.size
  bound : t'.lookupHere r name = some id
  redirect : (t'.get id).redirect = none
  pending : (t.get id).complete = false
  complete : (t'.get id).complete = true

theorem Woven.insertClass (h : t.Woven) {name : String} (hr : r.index < t.scopes.size)
    (hname : IsIdentifier name) (hin : t.insert r name .classType none = (.ok id, t')) :
    Defined r name id t t' := by
  have hwoven : t'.Woven := h.insert hr hname (fun _ h => by cases h) hin
  obtain ⟨hincomplete, ⟨hbound, e, hentry, rfl, rfl⟩ | ⟨hbound, -, rfl⟩⟩ := insert_ok hin
  · have hget : (t.push e).2.get (t.push e).1 = e := by
      rw [get_push]
      exact if_pos rfl
    refine {
      woven := hwoven
      enlarges := enlarges_push (by rw [hentry, hbound]) (by rw [hentry])
      scopes := by simp [TypeTable.push]
      bound := ?_
      redirect := by rw [hget, hentry]
      pending := congrArg TypeEntry.complete (get_of_ge (Nat.le_refl t.size) : t.get (t.push e).1 =
        _)
      complete := by rw [hget, hentry] }
    rw [push_lookupHere, if_pos ⟨by rw [hentry], hr, by rw [hentry]⟩]
    rfl
  · have hpending : (t.get id).complete = false := by
      simpa [isComplete, h.lookup_of_here hr hbound] using hincomplete
    have hlt := h.lookup_lt (h.lookup_of_here hr hbound)
    exact {
      woven := hwoven
      enlarges := h.enlarges_complete hlt hpending
      scopes := rfl
      bound := hbound
      redirect := by rw [get_modify, if_pos ⟨rfl, hlt⟩]
      pending := hpending
      complete := by rw [get_modify, if_pos ⟨rfl, hlt⟩] }

/-! ## What terms mean while structural types are asked for -/

/-- Some structural types have been asked for. -/
inductive Interns (t : TypeTable) : TypeTable → Prop where
  | refl : Interns t t
  | step {t' t'' kind args id} : Interns t t' →
      t'.Applies kind args → t'.insertGeneric kind args = (.ok id, t'') → Interns t t''

namespace Interns

variable {t t' t'' : TypeTable}

theorem trans (h : Interns t t') (h' : Interns t' t'') : Interns t t'' := by
  induction h' with
  | refl => exact h
  | step _ happ hin ih => exact .step ih happ hin

theorem woven (h : Interns t t') (ht : t.Woven) : t'.Woven := by
  induction h with
  | refl => exact ht
  | step _ happ hin ih => exact ih.intern happ.args hin

end Interns

theorem insertGeneric_later (ht : t.Woven) (hin : t.insertGeneric kind args = (.ok id, t')) :
    Later t t' ∧ id.index < t'.size := by
  obtain ⟨name, -, ⟨hl, rfl⟩ | ⟨hl, e, he, rfl, rfl⟩⟩ := insertGeneric_ok hin
  · obtain ⟨e, he, -⟩ := ht.bound _ _ _ hl
    exact ⟨.refl t', lt_of_entry he⟩
  · exact ⟨later_push (by rw [he, hl]),
      Nat.lt_of_lt_of_eq (Nat.lt_succ_self _) (Array.size_push ..).symm⟩

theorem Interns.later (h : Interns t t') (ht : t.Woven) : Later t t' := by
  induction h with
  | refl => exact .refl t
  | step hrest _ hin ih => exact ih.trans (insertGeneric_later (hrest.woven ht) hin).1

theorem insertGeneric_enlarges (hin : t.insertGeneric kind args = (.ok id, t')) :
    Enlarges t t' := by
  obtain ⟨name, -, ⟨-, rfl⟩ | ⟨hl, e, he, -, rfl⟩⟩ := insertGeneric_ok hin
  · exact .refl t'
  · exact enlarges_push (by rw [he, hl]) (by rw [he])

theorem Interns.enlarges (h : Interns t t') : Enlarges t t' := by
  induction h with
  | refl => exact .refl t
  | step _ _ hin ih => exact ih.trans (insertGeneric_enlarges hin)

theorem Interns.path (h : Interns t t') (r : TypeScopeId) :
    (t'.scope r).path = (t.scope r).path := by
  induction h with
  | refl => rfl
  | step _ _ hin ih =>
    obtain ⟨_, -, ⟨-, rfl⟩ | ⟨-, e, -, -, rfl⟩⟩ := insertGeneric_ok hin
    · exact ih
    · rw [push_path, ih]

theorem insertGeneric_lookup (h : t.Woven) (hin : t.insertGeneric kind args = (.ok id, t'))
    {found : TypeId} (hl : t.lookup r n = some found) : t'.lookup r n = some found := by
  obtain ⟨name, hname, ⟨-, rfl⟩ | ⟨hfree, e, he, -, rfl⟩⟩ := insertGeneric_ok hin
  · exact hl
  · rw [← hl, lookup, lookup, push_path]
    refine findSome?_congr fun p _ => ?_
    rw [push_lookupHere, if_neg]
    -- the new name cannot have had a meaning before
    rintro ⟨-, -, rfl⟩
    rw [he] at hl
    have htop := h.lookupHere_top hl (rendered_not_identifier (canonicalName_eq .. ▸ hname))
    rw [hfree] at htop
    cases htop

theorem Interns.lookup (h : Interns t t') (ht : t.Woven) (hl : t.lookup r n = some id) :
    t'.lookup r n = some id := by
  induction h with
  | refl => exact hl
  | step hrest _ hin ih => exact insertGeneric_lookup (hrest.woven ht) hin ih

theorem Woven.generic?_lt (h : t.Woven) (hid : t.generic? kind args = some id) :
    id.index < t.size := by
  obtain ⟨name, -, hid⟩ := generic?_ok hid
  exact h.lookup_lt (h.lookup_of_here h.top hid)

theorem Enlarges.canonicalName (h : Enlarges t t') (ht : t.Woven)
    (hargs : ∀ a ∈ args, a.index < t.size)
    (kind : TypeKind) : t'.canonicalName kind args = t.canonicalName kind args := by
  refine canonicalName_congr (fun a ha => ?_) kind
  rw [h.resolve ht (hargs a ha), h.toLater.name (ht.resolve (hargs a ha)).1]

theorem Interns.answers (h : Interns t t') (ht : t.Woven) : Answers t t' where
  lookup _ _ _ hl := ⟨h.lookup ht hl, ht.lookup_lt hl⟩
  generic? kind args id hargs hid := by
    refine ⟨?_, ht.generic?_lt hid⟩
    obtain ⟨name, hname, hid⟩ := generic?_ok hid
    rw [generic?, h.enlarges.canonicalName ht hargs, hname]
    exact h.enlarges.lookupHere _ _ _ hid

theorem generic?_of_insertGeneric (h : t.Woven) (hargs : ∀ a ∈ args, a.index < t.size)
    (hin : t.insertGeneric kind args = (.ok id, t')) : t'.generic? kind args = some id := by
  have henl := insertGeneric_enlarges hin
  rw [generic?, henl.canonicalName h hargs]
  obtain ⟨name, hname, ⟨hl, rfl⟩ | ⟨hfree, e, he, rfl, rfl⟩⟩ := insertGeneric_ok hin
  · rw [hname]
    exact hl
  · rw [hname]
    have hpush := push_lookupHere t e .top name
    rw [if_pos ⟨by rw [he], h.top, by rw [he]⟩] at hpush
    exact hpush

end TypeTable

namespace Lower

open TypeTable

theorem generic_interns {span : Span} {kind : TypeKind} {args : List TypeId} {id : TypeId}
    {s s' : Lowering} (h : generic span kind args s = .ok id s') (hw : s.types.Woven)
    (ha : s.types.Applies kind args) :
    Interns s.types s'.types ∧ s'.types.generic? kind args = some id := by
  obtain ⟨types, hin, rfl⟩ := onTypes_ok h
  exact ⟨.step .refl ha hin, generic?_of_insertGeneric hw ha.args hin⟩

/-- To resolve terms is to ask for structural types, and for nothing else. -/
theorem interns_resolving : Resolving (·.types.Woven) fun s s' => s.types.Interns s'.types where
  refl _ := .refl
  trans := .trans
  inv h := h.woven
  answers := Interns.answers
  generic := generic_interns

variable {scope : TypeScopeId} {span : Span} {s s' : Lowering}

theorem resolveType_interns {term : TypeTerm} {id : TypeId}
    (h : resolveType scope span term s = .ok id s')
    (hw : s.types.Woven) : Interns s.types s'.types ∧ id.index < s'.types.size := by
  obtain ⟨hint, hmeans⟩ := interns_resolving.resolveType h hw
  exact ⟨hint, interns_resolving.meaning_lt (hint.woven hw) hmeans⟩

theorem resolveHead_means {head : FunctionHead} {params : List TypeId} {result : TypeId}
    (h : resolveHead scope span head s = .ok (params, result) s') (hw : s.types.Woven) :
    s'.types.meanings scope (head.params.map Param.type) = some params :=
  (interns_resolving.resolveHead (fun _ _ => trivial) h hw).2.1

end Lower

end Bytescript
