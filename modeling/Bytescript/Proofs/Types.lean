import Bytescript.Lowering.Expression

/-!
# Type tables of scripts

The type table that a script starts from has relations among `int`, `double` and `bool` only, and
scripts enter classes and structural types, which have none and redirect nowhere. In such a
`Regular` table a type stands for itself (`Regular.resolve`), and conversions, kinds and operations
have closed forms that are the same in all of them.

While a script is compiled its table only ever grows (`Grows`): types keep their numbers and names
keep their meanings.
-/

namespace Bytescript

namespace TypeTable

/-! ## Regular tables -/

/-- The primitive types come first, and all others are related to nothing. -/
structure Regular (t : TypeTable) : Prop where
  primitive : ∀ i : Nat, i < 5 → t.entries[i]? = primitives.entries[i]?
  plain : ∀ (i : Nat) e, 5 ≤ i → t.entries[i]? = some e →
    e.redirect = none ∧ e.supertypes = [] ∧ e.subtypes = []

theorem primitives_regular : primitives.Regular where
  primitive _ _ := rfl
  plain i e hi he := by
    have : i < primitives.entries.size := (getElem_of_getElem? he).1
    have : primitives.entries.size = 5 := rfl
    omega

variable {i : Nat} {e : TypeEntry} {t t' t'' : TypeTable} {id : TypeId} {args : List TypeId}
  {s r : TypeScopeId} {n name : String} {kind : TypeKind}

theorem lt_of_entry (he : t.entries[i]? = some e) : i < t.size := (getElem_of_getElem? he).1

theorem primitives_kind (he : primitives.entries[i]? = some e) : e.kind = .primitive := by
  have hall : ∀ e ∈ primitives.entries, e.kind = .primitive := by decide
  exact hall e (Array.mem_of_getElem? he)

namespace Regular

variable {t : TypeTable} (h : t.Regular)

include h

theorem size_le : 5 ≤ t.size := by
  have h4 : t.entries[4]? = primitives.entries[4]? := h.primitive 4 (by omega)
  exact (getElem_of_getElem? h4).1

variable {id source target : TypeId}

theorem get_eq (hid : id.index < 5) : t.get id = primitives.get id := by
  unfold get
  rw [Array.getD_eq_getD_getElem?, Array.getD_eq_getD_getElem?, h.primitive _ hid]

theorem get_plain (hid : 5 ≤ id.index) :
    (t.get id).redirect = none ∧ (t.get id).supertypes = [] ∧ (t.get id).subtypes = [] := by
  unfold get
  rw [Array.getD_eq_getD_getElem?]
  cases he : t.entries[id.index]? with
  | none => exact ⟨rfl, rfl, rfl⟩
  | some e => exact h.plain _ e hid he

theorem redirect (id : TypeId) : (t.get id).redirect = none := by
  by_cases hid : id.index < 5
  · rw [h.get_eq hid]
    obtain ⟨i⟩ := id
    have : i = 0 ∨ i = 1 ∨ i = 2 ∨ i = 3 ∨ i = 4 := by simp only at hid; omega
    rcases this with rfl | rfl | rfl | rfl | rfl <;> rfl
  · exact (h.get_plain (by omega)).1

/-- A type stands for itself. -/
@[simp]
theorem resolve (id : TypeId) : t.resolve id = id := by
  simp only [TypeTable.resolve, TypeTable.follow, h.redirect id]

theorem same (a b : TypeId) : t.same a b = decide (a = b) := by
  simp only [TypeTable.same, h.resolve]

/-- The relations are those among the numbers and truth values. -/
theorem neighbours (implicitOnly : Bool) (id : TypeId) :
    t.neighbours implicitOnly id =
      if id = .int then (if implicitOnly then [.double] else [.double, .bool])
      else if id = .double then (if implicitOnly then [] else [.int])
      else if id = .bool then [.int]
      else [] := by
  have hpos : ∀ {i : TypeId}, id = i → i.index < 5 → t.get id = primitives.get i := by
    intro i hi hlt
    subst hi
    exact h.get_eq hlt
  unfold TypeTable.neighbours
  by_cases h1 : id = .int
  · rw [hpos h1 (by decide), if_pos h1]
    simp only [h.resolve]
    cases implicitOnly <;> rfl
  by_cases h2 : id = .double
  · rw [hpos h2 (by decide), if_neg h1, if_pos h2]
    simp only [h.resolve]
    cases implicitOnly <;> rfl
  by_cases h3 : id = .bool
  · rw [hpos h3 (by decide), if_neg h1, if_neg h2, if_pos h3]
    simp only [h.resolve]
    cases implicitOnly <;> rfl
  rw [if_neg h1, if_neg h2, if_neg h3]
  by_cases hid : id.index < 5
  · have : id = .void ∨ id = .string := by
      obtain ⟨i⟩ := id
      simp only [TypeId.int, TypeId.double, TypeId.bool, TypeId.mk.injEq] at h1 h2 h3
      simp only [TypeId.void, TypeId.string, TypeId.mk.injEq]
      simp only at hid
      omega
    rcases this with rfl | rfl <;> rw [h.get_eq (by decide)] <;> cases implicitOnly <;> rfl
  · obtain ⟨-, hsup, hsub⟩ := h.get_plain (Nat.le_of_not_lt hid)
    simp only [hsup, hsub, List.append_nil, List.filterMap_nil]

/-- What a search from each of the related types comes to, besides the type itself. -/
theorem connected (implicitOnly : Bool) (hne : source ≠ target) :
    t.connected implicitOnly source target = true ↔
      source = .bool ∧ (target = .int ∨ target = .double) ∨ source = .int ∧ target = .double ∨
      implicitOnly = false ∧ (source = .int ∨ source = .double ∨ source = .bool) ∧
        (target = .int ∨ target = .double ∨ target = .bool) := by
  obtain ⟨fuel, hfuel⟩ : ∃ fuel, t.size + 1 = fuel + 6 := ⟨t.size - 5, by have := h.size_le; omega⟩
  have hids : TypeId.double ≠ .int ∧ TypeId.bool ≠ .int ∧ TypeId.bool ≠ .double ∧
    TypeId.int ≠ .double ∧ TypeId.int ≠ .bool ∧ TypeId.double ≠ .bool := by decide
  have hbool : ∀ b, t.neighbours b .bool = [.int] := fun b => by simp [h.neighbours, hids]
  have hint : ∀ b, t.neighbours b .int = .double :: if b then [] else [.bool] := fun b => by
    cases b <;> simp [h.neighbours]
  have hdouble : ∀ b, t.neighbours b .double = if b then [] else [.int] := fun b => by
    simp [h.neighbours, hids]
  simp only [TypeTable.connected, hfuel]
  by_cases hsource : source = .bool ∨ source = .int ∨ source = .double
  · rcases hsource with rfl | rfl | rfl <;> cases implicitOnly
    all_goals simp [expand, hbool, hint, hdouble, hids, List.eraseDups_cons]
    all_goals grind
  · obtain ⟨hb, hi, hd⟩ : source ≠ .bool ∧ source ≠ .int ∧ source ≠ .double :=
    by simpa using hsource
    have hnone : t.neighbours implicitOnly source = [] := by simp [h.neighbours, hb, hi, hd]
    simp [expand, hnone, hb, hi, hd]

theorem isAssignable_iff :
    t.isAssignable source target = true ↔ source = target ∨
      source = .bool ∧ (target = .int ∨ target = .double) ∨ source = .int ∧ target = .double := by
  simp only [isAssignable, conversion, h.resolve, decide_eq_true_eq]
  by_cases hne : source = target
  · simp [hne]
  · have himplicit := h.connected true hne
    cases hc : t.connected true source target <;> simp_all

theorem conversion_isSome_iff :
    (t.conversion source target).isSome = true ↔ source = target ∨
      (source = .int ∨ source = .double ∨ source = .bool) ∧
        (target = .int ∨ target = .double ∨ target = .bool) := by
  simp only [conversion, h.resolve]
  by_cases hne : source = target
  · simp [hne]
  · have himplicit := h.connected true hne
    have hany := h.connected false hne
    cases hc : t.connected true source target <;> cases hd : t.connected false source target <;>
      simp_all <;> grind

theorem kindOf_eq (type : TypeId) : t.kindOf type = type.kind := by rw [kindOf, h.resolve]

/-! All regular tables agree with the table of primitive types. -/

theorem isAssignable (source target : TypeId) :
    t.isAssignable source target = primitives.isAssignable source target := by
  rw [Bool.eq_iff_iff, h.isAssignable_iff, primitives_regular.isAssignable_iff]

theorem conversion_isSome (source target : TypeId) :
    (t.conversion source target).isSome = (primitives.conversion source target).isSome := by
  rw [Bool.eq_iff_iff, h.conversion_isSome_iff, primitives_regular.conversion_isSome_iff]

theorem kindOf (type : TypeId) : t.kindOf type = primitives.kindOf type := by
  rw [h.kindOf_eq, primitives_regular.kindOf_eq]

theorem convert (source target : TypeId) :
    t.convert source target = primitives.convert source target := by
  simp only [TypeTable.convert, h.resolve, primitives_regular.resolve, h.kindOf]

theorem operation? (op : BinaryOp) (type : TypeId) :
    t.operation? op type = primitives.operation? op type := by
  unfold TypeTable.operation?
  simp only [h.resolve, primitives_regular.resolve]

end Regular

/-! ## Growing tables -/

/-- A table later on: types keep their numbers, and names keep their meanings. -/
structure Grows (t t' : TypeTable) : Prop where
  entries : ∀ (i : Nat) e, t.entries[i]? = some e → t'.entries[i]? = some e
  lookupHere : ∀ s n id, t.lookupHere s n = some id → t'.lookupHere s n = some id
  lookup : ∀ s n id, t.lookup s n = some id → t'.lookup s n = some id

theorem Grows.refl (t : TypeTable) : Grows t t :=
  ⟨fun _ _ => id, fun _ _ _ => id, fun _ _ _ => id⟩

theorem Grows.trans (h : Grows t t') (h' : Grows t' t'') : Grows t t'' :=
  ⟨fun _ _ he => h'.entries _ _ (h.entries _ _ he),
    fun _ _ _ hl => h'.lookupHere _ _ _ (h.lookupHere _ _ _ hl),
    fun _ _ _ hl => h'.lookup _ _ _ (h.lookup _ _ _ hl)⟩

theorem Grows.get (h : Grows t t') (hid : id.index < t.size) : t'.get id = t.get id := by
  have := h.entries _ _ (Array.getElem?_eq_getElem hid)
  simp only [TypeTable.get, Array.getD_eq_getD_getElem?, this, Array.getElem?_eq_getElem hid]

theorem Grows.size (h : Grows t t') : t.size ≤ t'.size := by
  cases hn : t.size with
  | zero => omega
  | succ n =>
    have hlt : n < t.entries.size := by unfold TypeTable.size at hn; omega
    have := (getElem_of_getElem? (h.entries _ _ (Array.getElem?_eq_getElem hlt))).1
    unfold TypeTable.size
    omega

theorem canonicalName_congr (h : ∀ a ∈ args, t'.name (t'.resolve a) = t.name (t.resolve a))
    (kind : TypeKind) : t'.canonicalName kind args = t.canonicalName kind args := by
  simp only [canonicalName, List.map_congr_left h]

theorem Grows.canonicalName (h : Grows t t') (ht : t.Regular) (ht' : t'.Regular)
    (hargs : ∀ a ∈ args, a.index < t.size) (kind : TypeKind) :
    t'.canonicalName kind args = t.canonicalName kind args := by
  refine canonicalName_congr (fun a ha => ?_) kind
  rw [ht.resolve, ht'.resolve, name, h.get (hargs a ha), name]

/-- A table later on, without new classes. -/
structure Extends (t t' : TypeTable) : Prop extends Grows t t' where
  classes : ∀ (i : Nat) e, t'.entries[i]? = some e → e.kind = .classType → t.entries[i]? = some e

theorem Extends.refl (t : TypeTable) : Extends t t := ⟨.refl t, fun _ _ he _ => he⟩

theorem Extends.trans (h : Extends t t') (h' : Extends t' t'') : Extends t t'' :=
  ⟨h.toGrows.trans h'.toGrows, fun i e he hk => h.classes i e (h'.classes i e he hk) hk⟩

/-- What an entry of a structural type says: its name is made of the names of older types, and it is
bound at the top. -/
def IsStructural (t : TypeTable) (i : Nat) (e : TypeEntry) : Prop :=
  t.canonicalName e.kind e.args = .ok e.name ∧ (∀ a ∈ e.args, a.index < i) ∧ e.scope = .top

/-- What compiling keeps up: only complete types, each bound to its name and named for its parts if
it has any, and scopes inside one another. -/
structure Sound (t : TypeTable) : Prop extends Regular t where
  complete : ∀ (i : Nat) e, t.entries[i]? = some e → e.complete = true
  entered : ∀ (i : Nat) e, t.entries[i]? = some e → t.lookupHere e.scope e.name = some ⟨i⟩
  formed : ∀ (i : Nat) e, t.entries[i]? = some e →
    (i < 5 ∧ e.scope = .top) ∨ e.kind = .classType ∨ t.IsStructural i e
  bound : ∀ s n id, t.lookupHere s n = some id →
    ∃ e, t.entries[id.index]? = some e ∧ e.name = n ∧ e.scope = s
  top : (t.scope .top).path = [.top]
  self : ∀ r, r.index < t.scopes.size → r ∈ (t.scope r).path
  inRange : ∀ r s, s ∈ (t.scope r).path → s.index < t.scopes.size
  enclosed : ∀ r s, s ∈ (t.scope r).path →
    ∃ inner, (t.scope r).path = inner ++ (t.scope s).path ∧ s ∉ inner
  rooted : ∀ r, r.index < t.scopes.size → .top ∈ (t.scope r).path
  apart : ∀ (i j : Nat) e e', t.entries[i]? = some e → e.kind = .classType →
    t.entries[j]? = some e' → j < 5 → e'.name ≠ e.name

theorem Sound.lookup_bound (h : t.Sound) (hl : t.lookup s n = some id) :
    ∃ e, t.entries[id.index]? = some e ∧ e.name = n ∧ t.lookupHere e.scope n = some id := by
  obtain ⟨r, -, hr⟩ := List.exists_of_findSome?_eq_some hl
  obtain ⟨e, he, hn, rfl⟩ := h.bound r n id hr
  exact ⟨e, he, hn, hr⟩

theorem Sound.lookup_lt (h : t.Sound) (hl : t.lookup s n = some id) : id.index < t.size := by
  obtain ⟨e, he, -⟩ := h.lookup_bound hl
  exact lt_of_entry he

theorem Sound.top_lt (h : t.Sound) : TypeScopeId.top.index < t.scopes.size :=
  h.inRange .top .top (by rw [h.top]; exact .head _)

theorem lookup_eq_none : t.lookup s n = none ↔ ∀ r ∈ (t.scope s).path, t.lookupHere r n = none := by
  simp only [lookup, List.findSome?_eq_none_iff]

theorem lookup_top (h : t.Sound) (n : String) : t.lookup .top n = t.lookupHere .top n := by
  simp only [lookup, h.top, List.findSome?_cons, List.findSome?_nil]
  cases t.lookupHere .top n <;> rfl

theorem scope_eq_default (hr : t.scopes.size ≤ r.index) : t.scope r = default := by
  rw [scope, Array.getD_eq_getD_getElem?, Array.getElem?_eq_none hr, Option.getD_none]

/-! ### Entering a type -/

theorem push_scope (t : TypeTable) (e : TypeEntry) (r : TypeScopeId) :
    (t.push e).2.scope r =
      if r = e.scope ∧ r.index < t.scopes.size then
        { t.scope r with names := (e.name, ⟨t.size⟩) :: (t.scope r).names }
      else t.scope r := by
  simp only [push, scope, Array.getD_eq_getD_getElem?, Array.getElem?_modify]
  by_cases hr : r.index < t.scopes.size
  · by_cases he : r = e.scope
    · subst he
      simp [hr, size]
    · have : e.scope.index ≠ r.index := fun heq => he (by cases r; cases hes : e.scope; simp_all)
      simp [he, this]
  · simp [hr]

@[simp]
theorem push_path (t : TypeTable) (e : TypeEntry) (r : TypeScopeId) :
    ((t.push e).2.scope r).path = (t.scope r).path := by
  rw [push_scope]
  split <;> rfl

theorem push_lookupHere (t : TypeTable) (e : TypeEntry) (r : TypeScopeId) (n : String) :
    (t.push e).2.lookupHere r n =
      if r = e.scope ∧ r.index < t.scopes.size ∧ n = e.name then some ⟨t.size⟩
      else t.lookupHere r n := by
  simp only [lookupHere, push_scope]
  by_cases hr : r = e.scope ∧ r.index < t.scopes.size
  · rw [if_pos hr, List.lookup_cons]
    by_cases hn : n = e.name
    · rw [if_pos ⟨hr.1, hr.2, hn⟩, hn, beq_self_eq_true]
    · rw [if_neg (fun h => hn h.2.2), beq_eq_false_iff_ne.mpr hn]
  · rw [if_neg hr, if_neg (fun h => hr ⟨h.1, h.2.1⟩)]

theorem push_entries_size (t : TypeTable) (e : TypeEntry) :
    (t.push e).2.entries[t.size]? = some e := by
  simp [push, size]

theorem push_entries (t : TypeTable) (e : TypeEntry) (hi : i ≠ t.size) :
    (t.push e).2.entries[i]? = t.entries[i]? := by
  simp only [push, Array.getElem?_push, size] at hi ⊢
  rw [if_neg hi]

theorem push_entries_cases {e' : TypeEntry} (h : (t.push e).2.entries[i]? = some e') :
    (i = t.size ∧ e' = e) ∨ t.entries[i]? = some e' := by
  by_cases hi : i = t.size
  · subst hi
    rw [push_entries_size] at h
    exact .inl ⟨rfl, (Option.some.inj h).symm⟩
  · exact .inr (push_entries t e hi ▸ h)

/-- A type is defined under a name that is not bound yet, or one that has been announced is
completed. -/
theorem insert_ok {redirect : Option TypeId} (hin : t.insert s name kind redirect = (.ok id, t')) :
    t.isComplete s name = false ∧
      ((t.lookupHere s name = none ∧ ∃ e : TypeEntry,
          e = { name, kind, redirect, complete := true, scope := s } ∧
          id = (t.push e).1 ∧ t' = (t.push e).2) ∨
        t.lookupHere s name = some id ∧ redirect.any (t.reaches · id) = false ∧
          t' = { t with entries := t.entries.modify id.index fun e =>
            { e with kind, redirect, complete := true } }) := by
  unfold insert at hin
  split at hin
  · cases hin
  next hcomplete =>
    refine ⟨Bool.not_eq_true _ ▸ hcomplete, ?_⟩
    split at hin
    · cases hin
    split at hin
    next hl =>
      obtain ⟨hid, htable⟩ := Prod.mk.inj hin
      exact .inl ⟨hl, _, rfl, (Except.ok.inj hid).symm, htable.symm⟩
    next found hl =>
      split at hin
      · cases hin
      next hcycle =>
        cases hin
        exact .inr ⟨hl, Bool.not_eq_true _ ▸ hcycle, rfl⟩

/-- A structural type is found under its name or entered under it. -/
theorem insertGeneric_ok (hin : t.insertGeneric kind args = (.ok id, t')) :
    ∃ name, t.canonicalName kind args = .ok name ∧
      (t.lookupHere .top name = some id ∧ t' = t ∨
        t.lookupHere .top name = none ∧ ∃ e : TypeEntry,
          e = { name, kind, redirect := none, args, complete := true, scope := .top } ∧
          id = (t.push e).1 ∧ t' = (t.push e).2) := by
  unfold insertGeneric at hin
  split at hin
  · cases hin
  next name hname =>
    refine ⟨name, hname, ?_⟩
    split at hin
    next found hl =>
      cases hin
      exact .inl ⟨hl, rfl⟩
    next hl =>
      obtain ⟨hid, htable⟩ := Prod.mk.inj hin
      exact .inr ⟨hl, _, rfl, (Except.ok.inj hid).symm, htable.symm⟩

theorem findSome?_congr {α β : Type} {f g : α → Option β} {xs : List α}
    (h : ∀ x ∈ xs, f x = g x) : xs.findSome? f = xs.findSome? g := by
  induction xs with
  | nil => rfl
  | cons x xs ih =>
    rw [List.findSome?_cons, List.findSome?_cons, h x List.mem_cons_self,
      ih fun y hy => h y (List.mem_cons_of_mem x hy)]

/-- A table grows when a name is entered that has no meaning yet. -/
theorem Sound.grows_push (h : t.Sound) (hnew : t.lookup e.scope e.name = none) :
    Grows t (t.push e).2 := by
  have hhere : ∀ s n id, t.lookupHere s n = some id → (t.push e).2.lookupHere s n = some id := by
    intro s n id hl
    rw [push_lookupHere, if_neg, hl]
    rintro ⟨rfl, hr, rfl⟩
    rw [lookup_eq_none.mp hnew _ (h.self _ hr)] at hl
    cases hl
  refine ⟨fun i e' he => ?_, hhere, fun s n id hl => ?_⟩
  · have hi := lt_of_entry he
    rw [push_entries t e (by omega), he]
  · simp only [lookup, push_path] at hl ⊢
    by_cases hs : n = e.name ∧ e.scope ∈ (t.scope s).path
    · -- the old meaning is found before the path comes to the scope of the new one
      obtain ⟨rfl, hs⟩ := hs
      obtain ⟨inner, hpath, hinner⟩ := h.enclosed s _ hs
      have hnone : (t.scope e.scope).path.findSome? (t.lookupHere · e.name) = none := hnew
      rw [hpath, List.findSome?_append, hnone, Option.or_none] at hl
      rw [hpath, List.findSome?_append, findSome?_congr fun r hr => ?_, hl, Option.some_or]
      rw [push_lookupHere, if_neg]
      rintro ⟨rfl, -, -⟩
      exact hinner hr
    · rw [findSome?_congr fun r hr => ?_, hl]
      rw [push_lookupHere, if_neg]
      rintro ⟨rfl, -, rfl⟩
      exact hs ⟨rfl, hr⟩

/-- Entering a complete type that is related to nothing, under a new name, keeps a table sound. -/
theorem Sound.push (h : t.Sound) (hnew : t.lookup e.scope e.name = none)
    (hscope : e.scope.index < t.scopes.size)
    (hformed : e.kind = .classType ∨ t.IsStructural t.size e)
    (hcomplete : e.complete = true) (hredirect : e.redirect = none) (hsuper : e.supertypes = [])
    (hsub : e.subtypes = []) : (t.push e).2.Sound := by
  have hscopes : (t.push e).2.scopes.size = t.scopes.size := by simp [TypeTable.push]
  have hsize := h.size_le
  have hgrows := h.grows_push hnew
  have hregular : (t.push e).2.Regular := by
    refine ⟨fun i hi => ?_, fun i e' hi he => ?_⟩
    · rw [push_entries t e (by omega)]
      exact h.primitive i hi
    · rcases push_entries_cases he with ⟨-, rfl⟩ | he
      · exact ⟨hredirect, hsuper, hsub⟩
      · exact h.plain i e' hi he
  have hstructural : ∀ i e', i ≤ t.size → t.IsStructural i e' → (t.push e).2.IsStructural i e' := by
    rintro i e' hi ⟨hname, hargs, htop⟩
    refine ⟨?_, hargs, htop⟩
    rw [hgrows.canonicalName h.toRegular hregular (fun a ha => Nat.lt_of_lt_of_le (hargs a ha) hi),
      hname]
  refine { toRegular := hregular, complete := ?_, entered := ?_, formed := ?_, bound := ?_, top :=
    ?_,
           self := ?_, inRange := ?_, enclosed := ?_, rooted := ?_, apart := ?_ }
  · intro i e' he
    rcases push_entries_cases he with ⟨-, rfl⟩ | he
    · exact hcomplete
    · exact h.complete i e' he
  · intro i e' he
    rcases push_entries_cases he with ⟨rfl, rfl⟩ | he
    · rw [push_lookupHere, if_pos ⟨rfl, hscope, rfl⟩]
    · exact hgrows.lookupHere _ _ _ (h.entered i e' he)
  · intro i e' he
    rcases push_entries_cases he with ⟨rfl, rfl⟩ | he
    · exact .inr (hformed.imp_right (hstructural _ _ (Nat.le_refl _)))
    · have hi := lt_of_entry he
      exact (h.formed i e' he).imp_right (Or.imp_right (hstructural i e' (Nat.le_of_lt hi)))
  · intro s n id hl
    rw [push_lookupHere] at hl
    split at hl
    next hs =>
      cases hl
      exact ⟨e, push_entries_size t e, hs.2.2.symm, hs.1.symm⟩
    · obtain ⟨e', he, hn⟩ := h.bound s n id hl
      have := lt_of_entry he
      exact ⟨e', by rw [push_entries t e (by omega), he], hn⟩
  · rw [push_path, h.top]
  · intro r hr
    rw [push_path]
    exact h.self r (hscopes ▸ hr)
  · intro r s hs
    rw [push_path] at hs
    rw [hscopes]
    exact h.inRange r s hs
  · intro r s hs
    simp only [push_path] at hs ⊢
    exact h.enclosed r s hs
  · intro r hr
    rw [push_path]
    exact h.rooted r (hscopes ▸ hr)
  · intro i j e' e'' he hkind hj hlt hname
    rw [push_entries t e (by omega)] at hj
    rcases push_entries_cases he with ⟨-, rfl⟩ | he
    · -- the name of a primitive type is visible everywhere
      have hnone := lookup_eq_none.mp hnew _ (h.rooted _ hscope)
      have htop : e''.scope = .top := by
        rcases h.formed j e'' hj with ⟨-, htop⟩ | hclass | ⟨-, -, htop⟩
        · exact htop
        · rw [h.primitive j hlt] at hj
          rw [primitives_kind hj] at hclass
          cases hclass
        · exact htop
      have hentered := h.entered j e'' hj
      rw [htop, hname, hnone] at hentered
      cases hentered
    · exact h.apart i j e' e'' he hkind hj hlt hname

/-- A class can only be entered where its name means nothing yet. -/
theorem Sound.insert_class (h : t.Sound) (hin : t.insert s name .classType none = (.ok id, t')) :
    t.lookup s name = none ∧ ∃ e : TypeEntry,
      e = { name, kind := .classType, redirect := none, complete := true, scope := s } ∧
      id = (t.push e).1 ∧ t' = (t.push e).2 := by
  obtain ⟨hcomplete, hcases⟩ := insert_ok hin
  have hnone : t.lookup s name = none := by
    cases hl : t.lookup s name with
    | none => rfl
    | some id =>
      obtain ⟨e, he, -⟩ := h.lookup_bound hl
      have := h.complete _ e he
      simp [isComplete, hl, get, he, this] at hcomplete
  rcases hcases with ⟨-, hpush⟩ | ⟨hl, -⟩
  · exact ⟨hnone, hpush⟩
  · by_cases hs : s.index < t.scopes.size
    · rw [lookup_eq_none.mp hnone s (h.self s hs)] at hl
      cases hl
    · rw [lookupHere, scope_eq_default (Nat.le_of_not_lt hs)] at hl
      cases hl

/-! ### Opening a scope -/

theorem newScope_scope (t : TypeTable) (parent r : TypeScopeId) :
    (t.newScope parent).2.scope r =
      if r.index = t.scopes.size then { path := r :: (t.scope parent).path } else t.scope r := by
  simp only [newScope, scope, Array.getD_eq_getD_getElem?, Array.getElem?_push]
  by_cases hr : r.index = t.scopes.size
  · cases r
    simp_all
  · rw [if_neg hr, if_neg hr]

theorem newScope_lookupHere (t : TypeTable) (parent r : TypeScopeId) (n : String) :
    (t.newScope parent).2.lookupHere r n = t.lookupHere r n := by
  simp only [lookupHere, newScope_scope]
  split
  next hr => rw [scope_eq_default (Nat.le_of_eq hr.symm)]; rfl
  · rfl

theorem grows_newScope (t : TypeTable) (parent : TypeScopeId) : Grows t (t.newScope parent).2 where
  entries _ _ he := he
  lookupHere s n id hl := by rw [newScope_lookupHere, hl]
  lookup s n id hl := by
    simp only [lookup, newScope_lookupHere] at hl ⊢
    rw [newScope_scope]
    split
    next hs =>
      rw [scope_eq_default (Nat.le_of_eq hs.symm)] at hl
      cases hl
    · exact hl

theorem Sound.newScope (h : t.Sound) {parent : TypeScopeId}
    (hparent : parent.index < t.scopes.size) : (t.newScope parent).2.Sound := by
  have hsize : (t.newScope parent).2.scopes.size = t.scopes.size + 1 := by
    simp [TypeTable.newScope]
  have hold : ∀ r, r.index < t.scopes.size → (t.newScope parent).2.scope r = t.scope r := by
    intro r hr
    rw [newScope_scope, if_neg (by omega)]
  have hregular : (t.newScope parent).2.Regular := ⟨h.primitive, h.plain⟩
  refine { toRegular := hregular, complete := h.complete, entered := ?_, formed := ?_, bound := ?_,
           top := ?_, self := ?_, inRange := ?_, enclosed := ?_, rooted := ?_, apart := h.apart }
  · intro i e he
    rw [newScope_lookupHere]
    exact h.entered i e he
  · intro i e he
    refine (h.formed i e he).imp_right (Or.imp_right fun hs => ?_)
    obtain ⟨hname, hargs, htop⟩ := hs
    have hi := lt_of_entry he
    refine ⟨?_, hargs, htop⟩
    rw [(grows_newScope t parent).canonicalName h.toRegular hregular
      (fun a ha => Nat.lt_trans (hargs a ha) hi), hname]
  · intro s n id hl
    rw [newScope_lookupHere] at hl
    exact h.bound s n id hl
  · rw [hold _ h.top_lt, h.top]
  · intro r hr
    rw [newScope_scope]
    split
    · exact .head _
    · exact h.self r (by omega)
  · intro r s hs
    rw [newScope_scope] at hs
    split at hs
    · rcases hs with _ | ⟨_, hs⟩
      · omega
      · have := h.inRange parent s hs
        omega
    · have := h.inRange r s hs
      omega
  · intro r s hs
    rw [newScope_scope] at hs ⊢
    split at hs
    next hr =>
      rw [if_pos hr]
      by_cases hsr : s = r
      · subst hsr
        exact ⟨[], by rw [newScope_scope, if_pos hr]; rfl, List.not_mem_nil⟩
      · have hs := (List.mem_cons.mp hs).resolve_left hsr
        obtain ⟨inner, hpath, hinner⟩ := h.enclosed parent s hs
        refine ⟨r :: inner, ?_, ?_⟩
        · rw [hold s (h.inRange parent s hs), hpath, List.cons_append]
        · simp only [List.mem_cons, not_or]
          exact ⟨hsr, hinner⟩
    next hr =>
      rw [if_neg hr]
      obtain ⟨inner, hpath, hinner⟩ := h.enclosed r s hs
      exact ⟨inner, by rw [hold s (h.inRange r s hs), hpath], hinner⟩
  · intro r hr
    rw [newScope_scope]
    split
    · exact .tail _ (h.rooted parent hparent)
    · exact h.rooted r (by omega)

/-- A class has been entered under a name in the scope `r`, and a scope for its insides opened. -/
structure ClassEntered (r : TypeScopeId) (name : String) (id : TypeId) (inner : TypeScopeId)
    (t t' : TypeTable) : Prop where
  fresh : t.lookup r name = none
  sound : t'.Sound
  grows : Grows t t'
  index : id.index = t.size
  size : id.index < t'.size
  bound : t'.lookup r name = some id
  scopes : t.scopes.size ≤ t'.scopes.size
  inner : inner.index < t'.scopes.size
  entries : ∀ (i : Nat) e, t'.entries[i]? = some e →
    t.entries[i]? = some e ∨ id = ⟨i⟩ ∧ e.name = name
  entry : ∃ e, t'.entries[id.index]? = some e ∧ e.kind = .classType

theorem push_lookup (h : t.Sound) (hnew : t.lookup e.scope e.name = none)
    (hscope : e.scope.index < t.scopes.size) :
    (t.push e).2.lookup e.scope e.name = some ⟨t.size⟩ := by
  rw [lookup_eq_none] at hnew
  have hself : (t.push e).2.lookupHere e.scope e.name = some ⟨t.size⟩ := by
    rw [push_lookupHere, if_pos ⟨rfl, hscope, rfl⟩]
  cases hl : (t.push e).2.lookup e.scope e.name with
  | none =>
    rw [lookup_eq_none] at hl
    rw [hl e.scope (by rw [push_path]; exact h.self _ hscope)] at hself
    cases hself
  | some id =>
    obtain ⟨r, hr, hid⟩ := List.exists_of_findSome?_eq_some hl
    rw [push_path] at hr
    rw [push_lookupHere] at hid
    split at hid
    · exact hid.symm
    · rw [hnew r hr] at hid
      cases hid

theorem Sound.enterClass {t1 : TypeTable} (h : t.Sound) (hr : r.index < t.scopes.size)
    (hin : t.insert r name .classType none = (.ok id, t1)) :
    ClassEntered r name id (t1.newScope r).1 t (t1.newScope r).2 := by
  obtain ⟨hfresh, e, hentry, rfl, rfl⟩ := h.insert_class hin
  have hname : e.name = name := by rw [hentry]
  have hscope : e.scope = r := by rw [hentry]
  rw [← hname, ← hscope] at hfresh
  have hsound : (t.push e).2.Sound :=
    h.push hfresh (hscope ▸ hr) (.inl (by rw [hentry])) (by rw [hentry]) (by rw [hentry])
      (by rw [hentry]) (by rw [hentry])
  have hsize : (t.push e).2.size = t.size + 1 := Array.size_push ..
  have hr' : r.index < (t.push e).2.scopes.size := by simpa [TypeTable.push] using hr
  refine ⟨hname ▸ hscope ▸ hfresh, hsound.newScope hr',
    (h.grows_push hfresh).trans (grows_newScope _ _), rfl,
    ?_, ?_, ?_, ?_, ?_, e, push_entries_size t e, by rw [hentry]⟩
  · exact Nat.lt_of_lt_of_eq (Nat.lt_succ_self _) hsize.symm
  · rw [← hname, ← hscope]
    exact (grows_newScope _ _).lookup _ _ _ (push_lookup h hfresh (hscope ▸ hr))
  · simp [TypeTable.newScope, TypeTable.push]
  · simp [TypeTable.newScope]
  · intro i e' he'
    rcases push_entries_cases he' with ⟨rfl, rfl⟩ | he'
    · exact .inr ⟨rfl, hname⟩
    · exact .inl he'

theorem primitives_sound : primitives.Sound := by
  have hsize : primitives.scopes.size = 1 := rfl
  have hentries : primitives.entries.size = 5 := rfl
  have htop : ∀ r : TypeScopeId, r.index < 1 → r = .top := by
    rintro ⟨i⟩ hi
    simp only at hi
    rw [TypeScopeId.top, TypeScopeId.mk.injEq]
    omega
  have hpath : ∀ r s, s ∈ (primitives.scope r).path → r = .top ∧ s = .top := by
    intro r s hs
    by_cases hr : r.index < 1
    · obtain rfl := htop r hr
      exact ⟨rfl, List.mem_singleton.mp hs⟩
    · rw [scope_eq_default (by omega)] at hs
      cases hs
  have hcases : ∀ (i : Nat) e, primitives.entries[i]? = some e →
      i = 0 ∨ i = 1 ∨ i = 2 ∨ i = 3 ∨ i = 4 := by
    intro i e he
    have hi : i < 5 := (getElem_of_getElem? he).1
    omega
  refine { toRegular := primitives_regular, complete := ?_, entered := ?_, formed := ?_, bound :=
    ?_,
           top := rfl, self := ?_, inRange := ?_, enclosed := ?_, rooted := ?_, apart := ?_ }
  · intro i e he
    rcases hcases i e he with rfl | rfl | rfl | rfl | rfl <;> cases he <;> rfl
  · intro i e he
    rcases hcases i e he with rfl | rfl | rfl | rfl | rfl <;> cases he <;> rfl
  · intro i e he
    rcases hcases i e he with rfl | rfl | rfl | rfl |
      rfl <;> cases he <;> exact .inl ⟨by omega, rfl⟩
  · intro s n id hl
    by_cases hs : s.index < 1
    · obtain rfl := htop s hs
      obtain ⟨l1, l2, hnames, -⟩ := List.lookup_eq_some_iff.mp hl
      have hmem : (n, id) ∈ (primitives.scope .top).names := by
        rw [hnames]
        exact List.mem_append_right _ (.head _)
      have hlist : (primitives.scope .top).names = [("string", .string), ("bool", .bool),
        ("double", .double), ("int", .int), ("void", .void)] := rfl
      rw [hlist] at hmem
      simp only [List.mem_cons, Prod.mk.injEq, List.not_mem_nil, or_false] at hmem
      rcases hmem with ⟨rfl, rfl⟩ | ⟨rfl, rfl⟩ | ⟨rfl, rfl⟩ | ⟨rfl, rfl⟩ | ⟨rfl, rfl⟩ <;>
        exact ⟨_, rfl, rfl, rfl⟩
    · rw [lookupHere, scope_eq_default (by omega)] at hl
      cases hl
  · intro r hr
    obtain rfl := htop r (by omega)
    exact .head _
  · intro r s hs
    obtain ⟨-, rfl⟩ := hpath r s hs
    decide
  · intro r s hs
    obtain ⟨rfl, rfl⟩ := hpath r s hs
    exact ⟨[], rfl, List.not_mem_nil⟩
  · intro r hr
    obtain rfl := htop r (by omega)
    exact .head _
  · intro i j e e' he hkind
    rw [primitives_kind he] at hkind
    cases hkind

/-! ### Structural types -/

/-- The structural type with the given parts, if it has been entered. -/
def generic? (t : TypeTable) (kind : TypeKind) (args : List TypeId) : Option TypeId := do
  t.lookupHere .top (← (t.canonicalName kind args).toOption)

/-- A structural type is entered under the name that is made for it. -/
theorem generic?_ok (hid : t.generic? kind args = some id) :
    ∃ name, t.canonicalName kind args = .ok name ∧ t.lookupHere .top name = some id := by
  rw [generic?] at hid
  cases hname : t.canonicalName kind args with
  | error e => rw [hname] at hid; cases hid
  | ok name => exact ⟨name, rfl, by rwa [hname] at hid⟩

theorem Grows.generic? (h : Grows t t') (ht : t.Regular) (ht' : t'.Regular)
    (hargs : ∀ a ∈ args, a.index < t.size) (hid : t.generic? kind args = some id) :
    t'.generic? kind args = some id := by
  obtain ⟨name, hname, hid⟩ := generic?_ok hid
  rw [TypeTable.generic?, h.canonicalName ht ht' hargs, hname]
  exact h.lookupHere _ _ _ hid

/-- Entering a structural type only makes a table grow. -/
theorem Sound.insertGeneric (h : t.Sound) (hargs : ∀ a ∈ args, a.index < t.size)
    (hin : t.insertGeneric kind args = (.ok id, t')) :
    t'.Sound ∧ Extends t t' ∧ t'.generic? kind args = some id := by
  obtain ⟨name, hname, ⟨hl, rfl⟩ | ⟨hl, e, rfl, rfl, rfl⟩⟩ := insertGeneric_ok hin
  · exact ⟨h, .refl t', by simp [generic?, hname, Except.toOption, hl]⟩
  · have hnew : t.lookup .top name = none := by rw [lookup_top h, hl]
    have hgrows := h.grows_push
      (e := { name, kind, redirect := none, args, complete := true, scope := .top }) hnew
    have hsound := h.push
      (e := { name, kind, redirect := none, args, complete := true, scope := .top })
      hnew h.top_lt (.inr ⟨hname, hargs, rfl⟩) rfl rfl rfl rfl
    refine ⟨hsound, ⟨hgrows, fun i e he hk => ?_⟩, ?_⟩
    · rcases push_entries_cases he with ⟨-, rfl⟩ | he
      · obtain rfl : kind = .classType := hk
        cases hname
      · exact he
    simp only [generic?, hgrows.canonicalName h.toRegular hsound.toRegular hargs,
      hname, Except.toOption, Option.bind_eq_bind, Option.bind_some, push_lookupHere]
    rw [if_pos ⟨trivial, h.top_lt, trivial⟩]
    rfl

theorem Sound.generic?_lt (h : t.Sound) (hid : t.generic? kind args = some id) :
    id.index < t.size := by
  obtain ⟨name, -, hid⟩ := generic?_ok hid
  obtain ⟨e, he, -⟩ := h.bound _ _ _ hid
  exact lt_of_entry he

/-- A structural type that can be asked for: its parts are in the table, and a function type has at
least a result. -/
structure Applies (t : TypeTable) (kind : TypeKind) (args : List TypeId) : Prop where
  structural : kind = .array ∨ kind = .tuple ∨ kind = .function
  result : kind = .function → args ≠ []
  args : ∀ a ∈ args, a.index < t.size

theorem Applies.array {element : TypeId} (h : element.index < t.size) : t.Applies .array
    [element] where
  structural := .inl rfl
  result hk := by cases hk
  args a ha := by rwa [List.mem_singleton.mp ha]

/-! ### The meaning of terms -/

mutual

/-- The type that a term means in a scope of a table that has all the types it needs. -/
def meaning (t : TypeTable) (s : TypeScopeId) : TypeTerm → Option TypeId
  | .named n => t.lookup s n
  | .array element => do t.generic? .array [← t.meaning s element]
  | .tuple elements => do t.generic? .tuple (← t.meanings s elements)
  | .function params result => do
    t.generic? .function ((← t.meanings s params) ++ [← t.meaning s result])

def meanings (t : TypeTable) (s : TypeScopeId) : List TypeTerm → Option (List TypeId)
  | [] => some []
  | term :: terms => do return (← t.meaning s term) :: (← t.meanings s terms)

end

/-- A term names a type or asks for a structural one. -/
theorem meaning_cases {term : TypeTerm} (hid : t.meaning s term = some id) :
    (∃ n, term = .named n ∧ t.lookup s n = some id) ∨
    ∃ kind args, t.generic? kind args = some id := by
  cases term with
  | named n => exact .inl ⟨n, rfl, by simpa only [meaning] using hid⟩
  | array | tuple =>
    simp only [meaning, Option.bind_eq_bind, Option.bind_eq_some_iff] at hid
    obtain ⟨_, -, hid⟩ := hid
    exact .inr ⟨_, _, hid⟩
  | function =>
    simp only [meaning, Option.bind_eq_bind, Option.bind_eq_some_iff] at hid
    obtain ⟨_, -, _, -, hid⟩ := hid
    exact .inr ⟨_, _, hid⟩

/-- Where types are known by their names, so are lists of them. -/
theorem meanings_inj (hinj : ∀ {a b : TypeTerm} {x y : TypeId}, t.meaning s a = some x →
      t.meaning s b = some y → t.name x = t.name y → x = y)
    {as bs : List TypeTerm} {xs ys : List TypeId}
    (ha : t.meanings s as = some xs) (hb : t.meanings s bs = some ys)
    (hnames : xs.map t.name = ys.map t.name) : xs = ys := by
  induction as generalizing bs xs ys with
  | nil =>
    cases ha
    exact (List.map_eq_nil_iff.mp hnames.symm).symm
  | cons a as ih =>
    simp only [meanings, Option.bind_eq_bind, Option.bind_eq_some_iff] at ha
    obtain ⟨x, hx, xs', hxs, ha⟩ := ha
    cases ha
    cases bs with
    | nil =>
      cases hb
      cases hnames
    | cons b bs =>
      simp only [meanings, Option.bind_eq_bind, Option.bind_eq_some_iff] at hb
      obtain ⟨y, hy, ys', hys, hb⟩ := hb
      cases hb
      obtain ⟨hname, hnames⟩ := List.cons.inj hnames
      rw [hinj hx hy hname, ih hxs hys hnames]

/-- Whatever has a meaning in the first table has it in the second, and is a type of the first. -/
structure Answers (t t' : TypeTable) : Prop where
  lookup : ∀ s n id, t.lookup s n = some id → t'.lookup s n = some id ∧ id.index < t.size
  generic? : ∀ kind args id, (∀ a ∈ args, a.index < t.size) → t.generic? kind args = some id →
    t'.generic? kind args = some id ∧ id.index < t.size

mutual

theorem Answers.meaning {t t' : TypeTable} (h : Answers t t') {s : TypeScopeId} :
    ∀ {term : TypeTerm} {id : TypeId}, t.meaning s term = some id →
      t'.meaning s term = some id ∧ id.index < t.size
  | .named _, _, hid => by
    simp only [TypeTable.meaning] at hid ⊢
    exact h.lookup _ _ _ hid
  | .array _, _, hid => by
    simp only [TypeTable.meaning, Option.bind_eq_bind, Option.bind_eq_some_iff] at hid ⊢
    obtain ⟨a, ha, hid⟩ := hid
    obtain ⟨ha', hlt⟩ := h.meaning ha
    obtain ⟨hid', hlt'⟩ := h.generic? _ _ _ (fun b hb => by rwa [List.mem_singleton.mp hb]) hid
    exact ⟨⟨a, ha', hid'⟩, hlt'⟩
  | .tuple _, _, hid => by
    simp only [TypeTable.meaning, Option.bind_eq_bind, Option.bind_eq_some_iff] at hid ⊢
    obtain ⟨as, has, hid⟩ := hid
    obtain ⟨has', hlt⟩ := h.meanings has
    obtain ⟨hid', hlt'⟩ := h.generic? _ _ _ hlt hid
    exact ⟨⟨as, has', hid'⟩, hlt'⟩
  | .function _ _, _, hid => by
    simp only [TypeTable.meaning, Option.bind_eq_bind, Option.bind_eq_some_iff] at hid ⊢
    obtain ⟨as, has, r, hr, hid⟩ := hid
    obtain ⟨has', hlts⟩ := h.meanings has
    obtain ⟨hr', hlt⟩ := h.meaning hr
    have hargs : ∀ b ∈ as ++ [r], b.index < t.size := by
      intro b hb
      rcases List.mem_append.mp hb with hb | hb
      · exact hlts b hb
      · rwa [List.mem_singleton.mp hb]
    obtain ⟨hid', hlt'⟩ := h.generic? _ _ _ hargs hid
    exact ⟨⟨as, has', r, hr', hid'⟩, hlt'⟩

theorem Answers.meanings {t t' : TypeTable} (h : Answers t t') {s : TypeScopeId} :
    ∀ {terms : List TypeTerm} {ids : List TypeId}, t.meanings s terms = some ids →
      t'.meanings s terms = some ids ∧ ∀ a ∈ ids, a.index < t.size
  | [], _, hids => by
    simp only [TypeTable.meanings] at hids ⊢
    cases hids
    exact ⟨rfl, fun a ha => absurd ha List.not_mem_nil⟩
  | _ :: _, _, hids => by
    simp only [TypeTable.meanings, Option.bind_eq_bind, Option.bind_eq_some_iff] at hids ⊢
    obtain ⟨a, ha, as, has, hids⟩ := hids
    cases hids
    obtain ⟨ha', hlt⟩ := h.meaning ha
    obtain ⟨has', hlts⟩ := h.meanings has
    exact ⟨⟨a, ha', as, has', rfl⟩, List.forall_mem_cons.mpr ⟨hlt, hlts⟩⟩

end

theorem Grows.answers (hgrows : Grows t t') (h : t.Sound) (h' : t'.Sound) : Answers t t' where
  lookup _ _ _ hl := ⟨hgrows.lookup _ _ _ hl, h.lookup_lt hl⟩
  generic? _ _ _ hargs hid :=
    ⟨hgrows.generic? h.toRegular h'.toRegular hargs hid, h.generic?_lt hid⟩

section

variable {t t' : TypeTable} {s : TypeScopeId} {term : TypeTerm} {id : TypeId}
  {terms : List TypeTerm} {ids : List TypeId}

theorem Sound.meaning_lt (h : t.Sound) (hid : t.meaning s term = some id) : id.index < t.size :=
  (((Grows.refl t).answers h h).meaning hid).2

theorem Sound.meanings_lt (h : t.Sound) (hids : t.meanings s terms = some ids) :
    ∀ a ∈ ids, a.index < t.size := (((Grows.refl t).answers h h).meanings hids).2

theorem Grows.meaning (hgrows : Grows t t') (h : t.Sound) (h' : t'.Sound)
    (hid : t.meaning s term = some id) : t'.meaning s term = some id :=
  ((hgrows.answers h h').meaning hid).1

theorem Grows.meanings (hgrows : Grows t t') (h : t.Sound) (h' : t'.Sound)
    (hids : t.meanings s terms = some ids) : t'.meanings s terms = some ids :=
  ((hgrows.answers h h').meanings hids).1

end

end TypeTable

end Bytescript
