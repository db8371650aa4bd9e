import Mathlib.Data.Fintype.Card
import Bytescript.Proofs.Names

/-!
# Tables of types that are built step by step

A type table that starts from the primitive types and has been worked on by scopes, announcements,
definitions, structural types and relations (`Built`) may hold typedefs, and types that are
announced before they are defined. Redirects never form a cycle (`Leads.resolve`), because a
definition that would close one is refused; and each step leaves a later table (`Later`) in which
types keep their numbers and names, and redirects stay where they are.

From this follows what is known of every table (`Woven`): names are bound to types of that name, and
each type has a name that was given to it or a name made of the names of older types.
-/

namespace Bytescript

/-! ## Redirects -/

namespace TypeTable

/-- So many redirects lead from one type to another. -/
inductive Leads (t : TypeTable) : Nat → TypeId → TypeId → Prop where
  | refl (id : TypeId) : Leads t 0 id id
  | step {n a b c} : (t.get a).redirect = some b → Leads t n b c →
      Leads t (n + 1) a c

/-- A type leads to one that stands for itself. -/
def Settles (t : TypeTable) (n : Nat) (a r : TypeId) : Prop :=
  t.Leads n a r ∧ (t.get r).redirect = none

theorem get_of_entry {t : TypeTable} {id : TypeId} {e : TypeEntry}
    (he : t.entries[id.index]? = some e) : t.get id = e := by
  rw [get, Array.getD_eq_getD_getElem?, he, Option.getD_some]

variable {t : TypeTable} {fuel : Nat} {e : TypeEntry}

theorem entry_of_lt {id : TypeId} (hid : id.index < t.size) :
    t.entries[id.index]? = some (t.get id) := by
  rw [get, Array.getD_eq_getD_getElem?, Array.getElem?_eq_getElem hid]
  rfl

/-- Where there is a redirect there is an entry. -/
theorem lt_of_redirect {a b : TypeId} (h : (t.get a).redirect = some b) : a.index < t.size := by
  by_contra hlt
  rw [get, Array.getD_eq_getD_getElem?, Array.getElem?_eq_none (not_lt.mp hlt)] at h
  cases h

variable {t : TypeTable} {m n : Nat} {a b r r' : TypeId}

theorem Leads.trans (h : t.Leads m a b) (h' : t.Leads n b r) : t.Leads (m + n) a r := by
  induction h with
  | refl => rwa [Nat.zero_add]
  | step hred _ ih =>
    rw [Nat.add_right_comm]
    exact .step hred (ih h')

theorem Settles.unique (h : t.Settles m a r) (h' : t.Settles n a r') : m = n ∧ r = r' := by
  obtain ⟨hleads, hr⟩ := h
  obtain ⟨hleads', hr'⟩ := h'
  induction hleads generalizing n with
  | refl =>
    cases hleads' with
    | refl => exact ⟨rfl, rfl⟩
    | step hred _ => rw [hr] at hred; cases hred
  | step hred _ ih =>
    cases hleads' with
    | refl => rw [hr'] at hred; cases hred
    | step hred' hrest =>
      rw [hred] at hred'
      cases hred'
      obtain ⟨rfl, rfl⟩ := ih hr hrest
      exact ⟨rfl, rfl⟩

theorem Leads.follow (h : t.Leads n a r) (hr : (t.get r).redirect = none) (hfuel : n ≤ fuel) :
    t.follow fuel a = r := by
  induction h generalizing fuel with
  | refl => cases fuel <;> simp only [follow, hr]
  | step hred _ ih =>
    obtain ⟨fuel, rfl⟩ : ∃ k, fuel = k + 1 := ⟨fuel - 1, by omega⟩
    simp only [follow, hred]
    exact ih hr (by omega)

theorem Leads.leadsTo (h : t.Leads n a r) (hfuel : n < fuel) : t.leadsTo r fuel a = true := by
  induction h generalizing fuel with
  | refl =>
    obtain ⟨fuel, rfl⟩ : ∃ k, fuel = k + 1 := ⟨fuel - 1, by omega⟩
    simp [leadsTo]
  | step hred _ ih =>
    obtain ⟨fuel, rfl⟩ : ∃ k, fuel = k + 1 := ⟨fuel - 1, by omega⟩
    simp only [leadsTo, hred, Bool.or_eq_true]
    exact .inr (ih (by omega))

/-- The type that is reached on the way after some of the steps. -/
theorem Leads.split (h : t.Leads n a r) {k : Nat} (hk : k ≤ n) :
    ∃ b, t.Leads k a b ∧ t.Leads (n - k) b r := by
  induction h generalizing k with
  | refl id =>
    obtain rfl : k = 0 := by omega
    exact ⟨id, .refl id, .refl id⟩
  | @step n a b c hred hrest ih =>
    cases k with
    | zero => exact ⟨a, .refl a, .step hred hrest⟩
    | succ k =>
      obtain ⟨d, hd, hd'⟩ := ih (Nat.le_of_succ_le_succ hk)
      exact ⟨d, .step hred hd, by rwa [Nat.add_sub_add_right]⟩

/-- A way that ends passes no type twice, so it is no longer than the table. -/
theorem Settles.le_size (h : t.Settles n a r) : n ≤ t.size := by
  have hmid : ∀ k : Fin n, ∃ b : TypeId, b.index < t.size ∧ t.Settles (n - k) b r := by
    intro k
    obtain ⟨b, -, hb⟩ := h.1.split k.2.le
    refine ⟨b, ?_, hb, h.2⟩
    cases hrest : n - k with
    | zero => omega
    | succ _ =>
      rw [hrest] at hb
      cases hb with
      | step hred _ => exact lt_of_redirect hred
  choose way hlt hway using hmid
  have hinj : Function.Injective fun k : Fin n => (⟨(way k).index, hlt k⟩ : Fin t.size) := by
    intro i j hij
    have hij : way i = way j := congrArg TypeId.mk (Fin.mk.inj hij)
    have hleft := ((hway i).unique (hij ▸ hway j)).1
    exact Fin.ext (by omega)
  simpa using Fintype.card_le_of_injective _ hinj

/-- Following redirects ends where there are no more. -/
theorem Settles.resolve (h : t.Settles n a r) : t.resolve a = r :=
  h.1.follow h.2 (Nat.le_succ_of_le h.le_size)

theorem Settles.reaches (h : t.Settles n a r) : t.reaches a r = true :=
  h.1.leadsTo (Nat.lt_succ_of_le h.le_size)

/-! ## Tables at hand -/

/-- Tables that are made from the primitive types, where the names given to types are allowed ones.
-/
inductive Built (allowed : String → Prop) : TypeTable → Prop where
  | primitives : Built allowed .primitives
  | newScope {t parent} : Built allowed t →
      parent.index < t.scopes.size → Built allowed (t.newScope parent).2
  | declare {t s name kind} : Built allowed t →
      s.index < t.scopes.size → allowed name → Built allowed (t.declare s name kind).2
  | insert {t t' s name kind redirect id} : Built allowed t →
      s.index < t.scopes.size → allowed name → (∀ r, redirect = some r → r.index < t.size) →
      t.insert s name kind redirect = (.ok id, t') → Built allowed t'
  | intern {t t' kind args id} :
      Built allowed t → (∀ a ∈ args, a.index < t.size) →
      t.insertGeneric kind args = (.ok id, t') → Built allowed t'
  | relate {t a b downward upward} : Built allowed t →
      Built allowed (t.relate a b downward upward)

/-- A table later on. An announced type may have been defined, and nothing else has changed. -/
structure Later (t t' : TypeTable) : Prop where
  entries : ∀ (i : Nat) e, t.entries[i]? = some e → ∃ e', t'.entries[i]? = some e' ∧
    e'.name = e.name ∧ e'.args = e.args ∧
    (e.complete = true → e'.kind = e.kind ∧ e'.redirect = e.redirect ∧ e'.complete = true)
  lookupHere : ∀ s n id, t.lookupHere s n = some id → t'.lookupHere s n = some id

theorem Later.refl (t : TypeTable) : Later t t :=
  ⟨fun _ e he => ⟨e, he, rfl, rfl, fun hc => ⟨rfl, rfl, hc⟩⟩, fun _ _ _ => id⟩

theorem Later.trans {t t' t'' : TypeTable} (h : Later t t') (h' : Later t' t'') : Later t t'' := by
  refine ⟨fun i e he => ?_, fun s n id hl => h'.lookupHere s n id (h.lookupHere s n id hl)⟩
  obtain ⟨e', he', hname, hargs, hkeep⟩ := h.entries i e he
  obtain ⟨e'', he'', hname', hargs', hkeep'⟩ := h'.entries i e' he'
  refine ⟨e'', he'', hname'.trans hname, hargs'.trans hargs, fun hc => ?_⟩
  obtain ⟨hkind, hred, hc'⟩ := hkeep hc
  obtain ⟨hkind', hred', hc''⟩ := hkeep' hc'
  exact ⟨hkind'.trans hkind, hred'.trans hred, hc''⟩

/-- The name of an entry is made of names that its parts have led to. -/
def IsRendered (t : TypeTable) (i : Nat) (e : TypeEntry) : Prop :=
  e.complete = true ∧ e.redirect = none ∧ t.lookupHere .top e.name = some ⟨i⟩ ∧
    ∃ names, rendered e.kind names = .ok e.name ∧
      List.Forall₂ (fun n a => a.index < i ∧ ∃ k r, t.Leads k a r ∧ r.index < i ∧ t.name r = n)
        names e.args

/-- What every step keeps up, whatever the names are that it gives to types. -/
structure Linked (t : TypeTable) : Prop where
  top : TypeScopeId.top.index < t.scopes.size
  path : ∀ s, s.index < t.scopes.size → ∃ outer, (t.scope s).path = s :: outer
  bound : ∀ s n id, t.lookupHere s n = some id → ∃ e, t.entries[id.index]? = some e ∧ e.name = n
  pending : ∀ (i : Nat) e, t.entries[i]? = some e → e.complete = false → e.redirect = none
  targets : ∀ (i : Nat) e r, t.entries[i]? = some e → e.redirect = some r → r.index < t.size
  settles : ∀ id, id.index < t.size → ∃ n r, t.Settles n id r ∧ r.index < t.size

/-- Names are bound to types of that name, and a name that is no identifier is made of the names of
older types. -/
structure Named (t : TypeTable) : Prop where
  bound : ∀ s n id, t.lookupHere s n = some id → ∃ e, t.entries[id.index]? = some e ∧ e.name = n
  formed : ∀ (i : Nat) e, t.entries[i]? = some e → IsIdentifier e.name ∨ t.IsRendered i e

/-- What every step keeps up. -/
structure Woven (t : TypeTable) : Prop extends Linked t, Named t

theorem Sound.named (h : t.Sound)
    (hclass : ∀ (i : Nat) e, t.entries[i]? = some e → e.kind = .classType → IsPlain e.name) :
    t.Named where
  bound s n id hl := by
    obtain ⟨e, he, hn, -⟩ := h.bound s n id hl
    exact ⟨e, he, hn⟩
  formed i e he := by
    rcases h.formed i e he with ⟨hi, -⟩ | hkind | ⟨hname, hargs, htop⟩
    · rw [h.primitive i hi] at he
      exact .inl (primitives_identifier he)
    · exact .inl (hclass i e he hkind).isIdentifier
    · have hred := h.redirect ⟨i⟩
      have hhere := h.entered i e he
      rw [get_of_entry he] at hred
      rw [htop] at hhere
      refine .inr ⟨h.complete i e he, hred, hhere, _, canonicalName_eq .. ▸ hname, ?_⟩
      rw [List.forall₂_map_left_iff, List.forall₂_same]
      exact fun a ha => ⟨hargs a ha, 0, a, .refl a, hargs a ha, by rw [h.resolve]⟩

namespace Named

variable {t : TypeTable} (h : t.Named)

include h

theorem isWord {i : Nat} {e : TypeEntry} (he : t.entries[i]? = some e) : IsWord e.name := by
  induction i using Nat.strongRecOn generalizing e with
  | _ i ih =>
    rcases h.formed i e he with hid | ⟨-, -, -, names, hname, hparts⟩
    · exact hid.isWord
    · have hi := lt_of_entry he
      have hwords : List.Forall₂ (fun n _ => IsWord n ∧ True) names e.args :=
        hparts.imp fun n a hrel => by
          obtain ⟨-, _, r, -, hr, rfl⟩ := hrel
          exact ⟨ih r.index hr (entry_of_lt (hr.trans hi)), trivial⟩
      exact rendered_isWord hname ((List.forall₂_and_left _ _).mp hwords).1

variable {id : TypeId} {s : TypeScopeId} {n : String}

theorem name_isWord (hid : id.index < t.size) : IsWord (t.name id) := h.isWord (entry_of_lt hid)

/-- A name that is not an identifier means the same in every scope where it means something. -/
theorem lookupHere_top (hl : t.lookup s n = some id) (hn : ¬ IsIdentifier n) :
    t.lookupHere .top n = some id := by
  obtain ⟨p, -, hp⟩ := List.exists_of_findSome?_eq_some hl
  obtain ⟨e, he, rfl⟩ := h.bound p n id hp
  rcases h.formed _ e he with hid | ⟨-, -, htop, -⟩
  · exact absurd hid hn
  · exact htop

/-- A type that a term means has a name that means it, or is structural. -/
theorem meaning_entry {term : TypeTerm} (hid : t.meaning s term = some id) :
    ∃ e, t.entries[id.index]? = some e ∧ (t.lookup s e.name = some id ∨ ¬ IsIdentifier e.name) := by
  rcases meaning_cases hid with ⟨n, -, hl⟩ | ⟨kind, args, hgeneric⟩
  · obtain ⟨p, -, hp⟩ := List.exists_of_findSome?_eq_some hl
    obtain ⟨e, he, rfl⟩ := h.bound p n id hp
    exact ⟨e, he, .inl hl⟩
  · obtain ⟨name, hname, hl⟩ := generic?_ok hgeneric
    obtain ⟨e, he, rfl⟩ := h.bound _ _ _ hl
    exact ⟨e, he, .inr (rendered_not_identifier (canonicalName_eq .. ▸ hname))⟩

/-- In one scope, types of one name are one type. -/
theorem meaning_inj {a b : TypeTerm} {x y : TypeId} (ha : t.meaning s a = some x)
    (hb : t.meaning s b = some y) (hname : t.name x = t.name y) : x = y := by
  obtain ⟨e, he, hx⟩ := h.meaning_entry ha
  obtain ⟨e', he', hy⟩ := h.meaning_entry hb
  rw [name_of_entry he, name_of_entry he'] at hname
  by_cases hid : IsIdentifier e.name
  · have hx := hx.resolve_right (not_not.mpr hid)
    have hy := hy.resolve_right (not_not.mpr (hname ▸ hid))
    exact Option.some.inj (hx.symm.trans (hname ▸ hy))
  · have htop := ((h.formed _ e he).resolve_left hid).2.2.1
    have htop' := ((h.formed _ e' he').resolve_left (hname ▸ hid)).2.2.1
    exact Option.some.inj (htop.symm.trans (hname ▸ htop'))

theorem meanings_inj {as bs : List TypeTerm} {xs ys : List TypeId} (ha : t.meanings s as = some xs)
    (hb : t.meanings s bs = some ys) (hnames : xs.map t.name = ys.map t.name) : xs = ys :=
  TypeTable.meanings_inj h.meaning_inj ha hb hnames

end Named

namespace Later

variable {t t' : TypeTable} (h : Later t t')

include h

theorem size : t.size ≤ t'.size := by
  cases hn : t.size with
  | zero => exact Nat.zero_le _
  | succ n =>
    have hlt : (⟨n⟩ : TypeId).index < t.size := hn ▸ Nat.lt_succ_self n
    obtain ⟨e', he', -⟩ := h.entries n _ (entry_of_lt hlt)
    exact lt_of_entry he'

theorem name {id : TypeId} (hid : id.index < t.size) : t'.name id = t.name id := by
  obtain ⟨e', he', hname, -⟩ := h.entries _ _ (entry_of_lt hid)
  rw [name_of_entry he', hname, TypeTable.name]

theorem leads (ht : t.Linked) {n : Nat} {a r : TypeId} (hl : t.Leads n a r) : t'.Leads n a r := by
  induction hl with
  | refl id => exact .refl id
  | @step n a b c hred _ ih =>
    have hentry := entry_of_lt (lt_of_redirect hred)
    obtain ⟨e', he', -, -, hkeep⟩ := h.entries _ _ hentry
    have hcomplete : (t.get a).complete = true := by
      by_contra hc
      rw [ht.pending _ _ hentry (Bool.not_eq_true _ ▸ hc)] at hred
      cases hred
    refine .step ?_ ih
    rw [get_of_entry he', (hkeep hcomplete).2.1, hred]

theorem isRendered (ht : t.Linked) {i : Nat} {e e' : TypeEntry} (hi : i ≤ t.size)
    (hname : e'.name = e.name) (hargs : e'.args = e.args)
    (hkeep : e.complete = true → e'.kind = e.kind ∧ e'.redirect = e.redirect ∧ e'.complete = true)
    (hr : t.IsRendered i e) : t'.IsRendered i e' := by
  obtain ⟨hcomplete, hred, htop, names, hnames, hall⟩ := hr
  obtain ⟨hkind, hred', hcomplete'⟩ := hkeep hcomplete
  refine ⟨hcomplete', hred'.trans hred, h.lookupHere _ _ _ (hname ▸ htop), names, ?_, ?_⟩
  · rw [hkind, hname, hnames]
  · rw [hargs]
    refine hall.imp fun n a hrel => ?_
    obtain ⟨ha, k, r, hk, hr, hn⟩ := hrel
    exact ⟨ha, k, r, h.leads ht hk, hr, by rw [h.name (hr.trans_le hi), hn]⟩

end Later

theorem later_push {t : TypeTable} (hfree : t.lookupHere e.scope e.name = none) :
    Later t (t.push e).2 := by
  refine ⟨fun i e' he => ?_, fun s n id hl => ?_⟩
  · have hi := lt_of_entry he
    exact ⟨e', by rw [push_entries t e (by omega), he], rfl, rfl, fun hc => ⟨rfl, rfl, hc⟩⟩
  · rw [push_lookupHere, if_neg, hl]
    rintro ⟨rfl, -, rfl⟩
    rw [hfree] at hl
    cases hl

theorem later_newScope (t : TypeTable) (parent : TypeScopeId) : Later t (t.newScope parent).2 :=
  ⟨fun _ e he => ⟨e, he, rfl, rfl, fun hc => ⟨rfl, rfl, hc⟩⟩, (grows_newScope t parent).lookupHere⟩

/-- An entry changes its relations, or it is completed without closing a cycle. -/
structure Amends (t : TypeTable) (id : TypeId) (f : TypeEntry → TypeEntry) : Prop where
  name : ∀ e, (f e).name = e.name
  args : ∀ e, (f e).args = e.args
  step : ∀ e, t.entries[id.index]? = some e →
    ((f e).kind = e.kind ∧ (f e).redirect = e.redirect ∧ (f e).complete = e.complete) ∨
    (e.complete = false ∧ (f e).complete = true ∧
      ∀ r, (f e).redirect = some r → r.index < t.size ∧ t.reaches r id = false)

/-- The table with one entry changed. -/
def modify (t : TypeTable) (id : TypeId) (f : TypeEntry → TypeEntry) : TypeTable :=
  { t with entries := t.entries.modify id.index f }

section

variable {t : TypeTable} {id : TypeId} {f : TypeEntry → TypeEntry}

theorem modify_entries {i : Nat} {e' : TypeEntry} (h : (t.modify id f).entries[i]? = some e') :
    ∃ e, t.entries[i]? = some e ∧ (i ≠ id.index ∧ e' = e ∨ i = id.index ∧ e' = f e) := by
  simp only [modify, Array.getElem?_modify] at h
  split at h
  next hi =>
    obtain ⟨e, hold, rfl⟩ := Option.map_eq_some_iff.mp h
    exact ⟨e, hold, .inr ⟨hi.symm, rfl⟩⟩
  next hi => exact ⟨e', h, .inl ⟨fun heq => hi heq.symm, rfl⟩⟩

@[simp]
theorem modify_size : (t.modify id f).size = t.size := by simp [modify, size]

theorem modify_get_self (hid : id.index < t.size) : (t.modify id f).get id = f (t.get id) := by
  refine get_of_entry ?_
  rw [modify, Array.getElem?_modify, if_pos rfl, entry_of_lt hid]
  rfl

theorem modify_get_ne {a : TypeId} (hne : a ≠ id) : (t.modify id f).get a = t.get a := by
  have hindex : id.index ≠ a.index := fun heq => hne (congrArg TypeId.mk heq.symm)
  simp only [get, modify, Array.getD_eq_getD_getElem?, Array.getElem?_modify, if_neg hindex]

theorem Amends.later (h : t.Amends id f) : Later t (t.modify id f) := by
  refine ⟨fun i e he => ?_, fun _ _ _ hl => hl⟩
  obtain ⟨e', he'⟩ : ∃ e', (t.modify id f).entries[i]? = some e' :=
    ⟨_, Array.getElem?_eq_getElem
      (Nat.lt_of_lt_of_eq (getElem_of_getElem? he).1 modify_size.symm)⟩
  refine ⟨e', he', ?_⟩
  obtain ⟨e0, he0, ⟨-, rfl⟩ | ⟨rfl, rfl⟩⟩ := modify_entries he'
  · cases he.symm.trans he0
    exact ⟨rfl, rfl, fun hc => ⟨rfl, rfl, hc⟩⟩
  · cases he.symm.trans he0
    refine ⟨h.name e, h.args e, fun hc => ?_⟩
    rcases h.step e he with ⟨hkind, hred, hcomplete⟩ | ⟨hpending, -⟩
    · exact ⟨hkind, hred, hcomplete.trans hc⟩
    · rw [hc] at hpending
      cases hpending

theorem amends_supertypes (t : TypeTable) (id : TypeId) (r : Relation) :
    t.Amends id fun e => { e with supertypes := e.supertypes ++ [r] } :=
  ⟨fun _ => rfl, fun _ => rfl, fun _ _ => .inl ⟨rfl, rfl, rfl⟩⟩

theorem amends_subtypes (t : TypeTable) (id : TypeId) (r : Relation) :
    t.Amends id fun e => { e with subtypes := e.subtypes ++ [r] } :=
  ⟨fun _ => rfl, fun _ => rfl, fun _ _ => .inl ⟨rfl, rfl, rfl⟩⟩

end

namespace Linked

variable {t : TypeTable} (h : t.Linked)

include h

variable {id : TypeId} {s : TypeScopeId}

theorem resolve (hid : id.index < t.size) :
    (t.resolve id).index < t.size ∧ ∃ n, t.Settles n id (t.resolve id) := by
  obtain ⟨n, r, hn, hr⟩ := h.settles id hid
  rw [hn.resolve]
  exact ⟨hr, n, hn⟩

/-- A name that has no meaning in a scope is not bound there. -/
theorem lookupHere_none {name : String} (hs : s.index < t.scopes.size)
    (hl : t.lookup s name = none) : t.lookupHere s name = none := by
  obtain ⟨outer, hpath⟩ := h.path s hs
  exact lookup_eq_none.mp hl s (hpath ▸ (.head _))

/-- A name means what it is bound to. -/
theorem lookup_of_here {name : String} (hs : s.index < t.scopes.size)
    (hl : t.lookupHere s name = some id) : t.lookup s name = some id := by
  obtain ⟨outer, hpath⟩ := h.path s hs
  rw [lookup, hpath, List.findSome?_cons, hl]

theorem push {e : TypeEntry} (hfree : t.lookupHere e.scope e.name = none)
    (hpending : e.complete = false → e.redirect = none)
    (htarget : ∀ r, e.redirect = some r → r.index < t.size) : (t.push e).2.Linked := by
  have hlater := later_push hfree
  have hsize : (t.push e).2.size = t.size + 1 := Array.size_push ..
  have hscopes : (t.push e).2.scopes.size = t.scopes.size := by simp [TypeTable.push]
  have hold : ∀ {id : TypeId}, id.index < t.size → (t.push e).2.get id = t.get id := by
    intro id hid
    exact get_of_entry (by rw [push_entries t e (by omega), entry_of_lt hid])
  have hsettles : ∀ id, id.index < t.size → ∃ n r, (t.push e).2.Settles n id r ∧
      r.index < (t.push e).2.size := by
    intro id hid
    obtain ⟨n, r, hn, hr⟩ := h.settles id hid
    exact ⟨n, r, ⟨hlater.leads h hn.1, by rw [hold hr, hn.2]⟩, by omega⟩
  refine ⟨hscopes ▸ h.top, fun s hs => ?_, fun s n id hl => ?_, fun i e' he => ?_,
    fun i e' r he hr => ?_, fun id hid => ?_⟩
  · rw [push_path]
    exact h.path s (hscopes ▸ hs)
  · rw [push_lookupHere] at hl
    split at hl
    next hs =>
      cases hl
      exact ⟨e, push_entries_size t e, hs.2.2.symm⟩
    · obtain ⟨e', he, hn⟩ := h.bound s n id hl
      have := lt_of_entry he
      exact ⟨e', by rw [push_entries t e (by omega), he], hn⟩
  · rcases push_entries_cases he with ⟨-, rfl⟩ | he
    · exact hpending
    · exact h.pending i e' he
  · rcases push_entries_cases he with ⟨-, rfl⟩ | he
    · have := htarget r hr
      omega
    · have := h.targets i e' r he hr
      omega
  · by_cases hid' : id.index < t.size
    · exact hsettles id hid'
    · -- the new type stands for itself or redirects to an old one
      have hget : (t.push e).2.get id = e := by
        have : id.index = t.size := by omega
        exact get_of_entry (this ▸ push_entries_size t e)
      cases hred : e.redirect with
      | none => exact ⟨0, id, ⟨.refl id, by rw [hget, hred]⟩, hid⟩
      | some q =>
        obtain ⟨n, r, hn, hr⟩ := hsettles q (htarget q hred)
        exact ⟨n + 1, r, ⟨.step (by rw [hget, hred]) hn.1, hn.2⟩, hr⟩

theorem modify {f : TypeEntry → TypeEntry} (hf : t.Amends id f) : (t.modify id f).Linked := by
  have hlater := hf.later
  have hsettles : ∀ a, a.index < t.size → ∃ n r, (t.modify id f).Settles n a r ∧
      r.index < t.size := by
    intro a ha
    obtain ⟨n, r, hn, hr⟩ := h.settles a ha
    have hleads := hlater.leads h hn.1
    by_cases hrid : r = id
    · subst hrid
      have hget : (t.modify r f).get r = f (t.get r) := modify_get_self hr
      rcases hf.step _ (entry_of_lt hr) with ⟨-, hred, -⟩ | ⟨-, -, hnew⟩
      · exact ⟨n, r, ⟨hleads, by rw [hget, hred, hn.2]⟩, hr⟩
      · cases hred : (f (t.get r)).redirect with
        | none => exact ⟨n, r, ⟨hleads, by rw [hget, hred]⟩, hr⟩
        | some q =>
          -- the way goes on from the completed type, and does not come back to it
          obtain ⟨hq, hreaches⟩ := hnew q hred
          obtain ⟨m, r', hm, hr'⟩ := h.settles q hq
          have hne : r' ≠ r := by
            rintro rfl
            rw [hm.reaches] at hreaches
            cases hreaches
          refine ⟨n + (m + 1), r', ⟨hleads.trans (.step ?_ (hlater.leads h hm.1)), ?_⟩, hr'⟩
          · rw [hget, hred]
          · rw [modify_get_ne hne, hm.2]
    · exact ⟨n, r, ⟨hleads, by rw [modify_get_ne hrid, hn.2]⟩, hr⟩
  refine ⟨h.top, h.path, fun s n i hl => ?_, fun i e' he' hc => ?_, fun i e' r he' hr => ?_,
    fun a ha => ?_⟩
  · obtain ⟨e, he, hn⟩ := h.bound s n i hl
    obtain ⟨e', he', hname', -⟩ := hlater.entries _ e he
    exact ⟨e', he', hname'.trans hn⟩
  · obtain ⟨e, he, ⟨-, rfl⟩ | ⟨rfl, rfl⟩⟩ := modify_entries he'
    · exact h.pending i e' he hc
    · rcases hf.step e he with ⟨-, hred, hcomplete⟩ | ⟨-, hcomplete, -⟩
      · rw [hred]
        exact h.pending _ e he (hcomplete ▸ hc)
      · rw [hc] at hcomplete
        cases hcomplete
  · rw [modify_size]
    obtain ⟨e, he, ⟨-, rfl⟩ | ⟨rfl, rfl⟩⟩ := modify_entries he'
    · exact h.targets i e' r he hr
    · rcases hf.step e he with ⟨-, hred, -⟩ | ⟨-, -, hnew⟩
      · exact h.targets _ e r he (hred ▸ hr)
      · exact (hnew r hr).1
  · rw [modify_size] at ha ⊢
    exact hsettles a ha

theorem newScope {parent : TypeScopeId} : (t.newScope parent).2.Linked := by
  have hsize : (t.newScope parent).2.scopes.size = t.scopes.size + 1 := by
    simp [TypeTable.newScope]
  refine ⟨?_, fun s hs => ?_, fun s n id hl => ?_, h.pending, h.targets, fun id hid => ?_⟩
  · have := h.top
    omega
  · rw [newScope_scope]
    split
    · exact ⟨_, rfl⟩
    · exact h.path s (by omega)
  · rw [newScope_lookupHere] at hl
    exact h.bound s n id hl
  · obtain ⟨n, r, hn, hr⟩ := h.settles id hid
    exact ⟨n, r, ⟨(later_newScope t parent).leads h hn.1, hn.2⟩, hr⟩

end Linked

namespace Woven

variable {t : TypeTable} (h : t.Woven)

include h

variable {id : TypeId} {s : TypeScopeId} {t' : TypeTable} {e : TypeEntry} {kind : TypeKind}
  {args : List TypeId}

theorem lookup_lt {name : String} (hl : t.lookup s name = some id) : id.index < t.size := by
  obtain ⟨r, -, hr⟩ := List.exists_of_findSome?_eq_some hl
  obtain ⟨e, he, -⟩ := h.bound r name id hr
  exact lt_of_entry he

/-! ### Steps -/

/-- Later on, types still have the names that they were given. -/
theorem formed_later (hlater : Later t t') {i : Nat} {e' : TypeEntry} (he : t.entries[i]? = some e)
    (he' : t'.entries[i]? = some e') : IsIdentifier e'.name ∨ t'.IsRendered i e' := by
  obtain ⟨e'', he'', hname, hargs, hkeep⟩ := hlater.entries i e he
  cases he'.symm.trans he''
  have hi := lt_of_entry he
  exact (h.formed i e he).imp (fun hid => hname ▸ hid)
    (hlater.isRendered h.toLinked hi.le hname hargs hkeep)

theorem push (hfree : t.lookupHere e.scope e.name = none)
    (hpending : e.complete = false → e.redirect = none)
    (htarget : ∀ r, e.redirect = some r → r.index < t.size)
    (hformed : IsIdentifier e.name ∨ (t.push e).2.IsRendered t.size e) : (t.push e).2.Woven := by
  refine ⟨h.toLinked.push hfree hpending htarget, fun i e' he => ?_⟩
  rcases push_entries_cases he with ⟨rfl, rfl⟩ | hold
  · exact hformed
  · exact h.formed_later (later_push hfree) hold he

theorem modify {f : TypeEntry → TypeEntry} (hf : t.Amends id f) : (t.modify id f).Woven := by
  refine ⟨h.toLinked.modify hf, fun i e' he' => ?_⟩
  obtain ⟨e, he, -⟩ := modify_entries he'
  exact h.formed_later hf.later he he'

theorem newScope {parent : TypeScopeId} : (t.newScope parent).2.Woven :=
  ⟨h.toLinked.newScope, fun _ _ he => h.formed_later (later_newScope t parent) he he⟩

theorem declare {name : String} (hs : s.index < t.scopes.size) (hname : IsIdentifier name) :
    (t.declare s name kind).2.Woven := by
  unfold TypeTable.declare
  split
  · exact h
  next hl =>
    exact h.push (h.lookupHere_none hs hl) (fun _ => rfl) (fun r hr => by cases hr)
      (.inl hname)

theorem insert {name : String} {redirect : Option TypeId} (hs : s.index < t.scopes.size)
    (hname : IsIdentifier name) (hred : ∀ r, redirect = some r → r.index < t.size)
    (hin : t.insert s name kind redirect = (.ok id, t')) : t'.Woven := by
  obtain ⟨hcomplete, ⟨hl, e, rfl, -, rfl⟩ | ⟨hl, hcycle, rfl⟩⟩ := insert_ok hin
  · exact h.push hl (fun hc => by cases hc) hred (.inl hname)
  · refine h.modify ⟨fun _ => rfl, fun _ => rfl, fun e he => .inr ⟨?_, rfl, fun r hr => ?_⟩⟩
    · rwa [isComplete, h.lookup_of_here hs hl, Option.any_some, get_of_entry he] at hcomplete
    · obtain rfl : redirect = some r := hr
      exact ⟨hred r rfl, hcycle⟩

/-- The names of the parts of a structural type, as they stand at its entry. -/
theorem parts (hargs : ∀ a ∈ args, a.index < t.size) :
    List.Forall₂ (fun n a => a.index < t.size ∧
      ∃ k r, t.Leads k a r ∧ r.index < t.size ∧ t.name r = n)
      (args.map fun a => t.name (t.resolve a)) args := by
  rw [List.forall₂_map_left_iff, List.forall₂_same]
  intro a ha
  obtain ⟨hr, k, hk⟩ := h.resolve (hargs a ha)
  exact ⟨hargs a ha, k, _, hk.1, hr, rfl⟩

theorem intern (hargs : ∀ a ∈ args, a.index < t.size)
    (hin : t.insertGeneric kind args = (.ok id, t')) : t'.Woven := by
  obtain ⟨name, hname, ⟨-, rfl⟩ | ⟨hl, e, rfl, -, rfl⟩⟩ := insertGeneric_ok hin
  · exact h
  · rw [canonicalName_eq] at hname
    have hlater := later_push
      (e := { name, kind, redirect := none, args, complete := true, scope := .top }) hl
    refine h.push hl (fun hc => by cases hc) (fun r hr => by cases hr)
      (.inr ⟨rfl, rfl, ?_, _, hname, (h.parts hargs).imp fun n a hrel => ?_⟩)
    · rw [push_lookupHere, if_pos ⟨rfl, h.top, rfl⟩]
    · obtain ⟨ha, k, r, hk, hr, hn⟩ := hrel
      exact ⟨ha, k, r, hlater.leads h.toLinked hk, hr, by rw [hlater.name hr, hn]⟩

end Woven

theorem primitives_woven : primitives.Woven where
  top := by decide
  path s hs := by
    obtain rfl : s = .top := by
      obtain ⟨i⟩ := s
      exact congrArg TypeScopeId.mk (Nat.lt_one_iff.mp hs)
    exact ⟨[], rfl⟩
  bound s n id hl := by
    obtain ⟨e, he, hn, -⟩ := primitives_sound.bound s n id hl
    exact ⟨e, he, hn⟩
  pending i e he hc := by
    rw [primitives_sound.complete i e he] at hc
    cases hc
  targets i e r he hr := by
    have := primitives_regular.redirect ⟨i⟩
    rw [@get_of_entry _ ⟨i⟩ e he, hr] at this
    cases this
  settles id hid := ⟨0, id, ⟨.refl id, primitives_regular.redirect id⟩, hid⟩
  formed i e he := .inl (primitives_identifier he)

theorem Built.woven {allowed : String → Prop} (hallowed : ∀ n, allowed n → IsIdentifier n)
    {t : TypeTable} (h : t.Built allowed) : t.Woven := by
  induction h with
  | primitives => exact primitives_woven
  | newScope _ _ ih => exact ih.newScope
  | declare _ hs hname ih => exact ih.declare hs (hallowed _ hname)
  | insert _ hs hname hred hin ih => exact ih.insert hs (hallowed _ hname) hred hin
  | intern _ hargs hin ih => exact ih.intern hargs hin
  | @relate t a b downward upward _ ih =>
    exact (ih.modify (amends_supertypes t a ⟨b, upward⟩)).modify (amends_subtypes _ b ⟨a, downward⟩)

end TypeTable

end Bytescript
