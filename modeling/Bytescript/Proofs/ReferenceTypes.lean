import Bytescript.Proofs.Interning
import Bytescript.Proofs.Linkage
import Mathlib.Data.List.Pairwise

/-!
# Reference types

Arrays are told apart by the names of their elements alone. So it is only where no two classes share
a name, not even inside of others, that an array type leads back to the type of its elements
(`Image.Compiled.element?_eq`), and that values of one array type cannot be taken for those of
another.
-/

namespace Bytescript

open TypeTable (primitives)
open Lower (ClassInfo)

/-! ## Names of classes -/

mutual

/-- The names of the classes among the items and inside of them, as they are declared. -/
def simpleNames : List Stmt → List String
  | [] => []
  | s :: rest => simpleNamesOf s ++ simpleNames rest

def simpleNamesOf : Stmt → List String
  | .classDecl _ name body => name :: simpleNames body
  | _ => []

end

theorem simpleNames_eq (items : List Stmt) : simpleNames items = items.flatMap simpleNamesOf := by
  induction items with
  | nil => rfl
  | cons s rest ih => rw [simpleNames, ih, List.flatMap_cons]

variable {items body : List Stmt} {s : Stmt} {name : String} {T : Tables} {info : ClassInfo}
  {i : ClassImage}

theorem mem_simpleNames (hs : s ∈ items) (hname : name ∈ simpleNamesOf s) :
    name ∈ simpleNames items := by
  rw [simpleNames_eq]
  exact List.mem_flatMap.mpr ⟨s, hs, hname⟩

/-- Where no two classes share a name, a name belongs to one item only. -/
theorem simpleNames_owner (h : (simpleNames items).Nodup) {s' : Stmt} (hs : s ∈ items)
    (hs' : s' ∈ items)
    (hname : name ∈ simpleNamesOf s) (hname' : name ∈ simpleNamesOf s') : s = s' := by
  rw [simpleNames_eq, List.nodup_flatMap] at h
  by_contra hne
  have hsymm : Std.Symm (Function.onFun List.Disjoint simpleNamesOf) := ⟨fun _ _ hd => hd.symm⟩
  exact h.2.forall hs hs' hne hname hname'

theorem simpleNames_inside (h : (simpleNames items).Nodup) {span : Span}
    (hmem : .classDecl span name body ∈ items) : name ∉ simpleNames body ∧
    (simpleNames body).Nodup := by
  rw [simpleNames_eq, List.nodup_flatMap] at h
  have hof := h.1 _ hmem
  rw [simpleNamesOf, List.nodup_cons] at hof
  exact hof

namespace Tables.HasClass

variable {T : Tables} {r : TypeScopeId} {outer name : String} {items body : List Stmt}
  {info : ClassInfo}

theorem mem_simpleNames (h : T.HasClass r outer items name info body) :
    name ∈ simpleNames items := by
  induction h with
  | here hmem _ =>
    refine Bytescript.mem_simpleNames hmem ?_
    rw [simpleNamesOf]
    exact .head _
  | inside hmem _ _ ih =>
    refine Bytescript.mem_simpleNames hmem ?_
    rw [simpleNamesOf]
    exact .tail _ ih

/-- Where no two classes share a name, a class is told by its name. -/
theorem unique (h : T.HasClass r outer items name info body) (hnames : (simpleNames items).Nodup)
    {info' : ClassInfo} {body' : List Stmt} (h' : T.HasClass r outer items name info' body') :
    info = info' := by
  have hinside : ∀ {span : Span} {name inner : String} {body : List Stmt},
    inner ∈ simpleNames body →
      inner ∈ simpleNamesOf (.classDecl span name body) := by
    intro span name inner body hmem
    rw [simpleNamesOf]
    exact .tail _ hmem
  have hself : ∀ {span : Span} {name : String} {body : List Stmt},
      name ∈ simpleNamesOf (.classDecl span name body) := by
    intro span name body
    rw [simpleNamesOf]
    exact .head _
  induction h generalizing info' body' with
  | here hmem hat =>
    cases h' with
    | here _ hat' => exact hat.unique hat'
    | inside hmem' _ hin =>
      cases simpleNames_owner hnames hmem hmem' hself (hinside hin.mem_simpleNames)
      exact absurd hin.mem_simpleNames (simpleNames_inside hnames hmem).1
  | inside hmem hat hin ih =>
    cases h' with
    | here hmem' _ =>
      cases simpleNames_owner hnames hmem hmem' (hinside hin.mem_simpleNames) hself
      exact absurd hin.mem_simpleNames (simpleNames_inside hnames hmem).1
    | inside hmem' hat' hin' =>
      cases simpleNames_owner hnames hmem hmem' (hinside hin.mem_simpleNames)
        (hinside hin'.mem_simpleNames)
      obtain rfl := hat.unique hat'
      exact ih (simpleNames_inside hnames hmem).2 hin'

end Tables.HasClass

/-! ## Kinds of types -/

namespace TypeTable.Sound

variable {t : TypeTable} {id el : TypeId}

/-- Only the first five types are primitive ones. -/
theorem not_primitive (h : t.Sound) {e : TypeEntry} (he : t.entries[id.index]? = some e)
    (hkind : e.kind ≠ .primitive) : 5 ≤ id.index := by
  by_contra hlt
  rw [h.primitive _ (not_le.mp hlt)] at he
  exact hkind (primitives_kind he)

theorem kindOf_ref (hid : 5 ≤ id.index) : primitives.kindOf id = .ref := by
  have hne : ∀ {other : TypeId}, other.index < 5 → id ≠ other := by
    rintro other hlt rfl
    exact not_lt.mpr hid hlt
  rw [primitives_regular.kindOf_eq, TypeId.kind, if_neg, if_neg]
  · exact hne (by decide)
  · rintro (h | h)
    · exact hne (by decide) h
    · exact hne (by decide) h

theorem element?_entry (h : t.Sound) (hel : t.element? id = some el) :
    ∃ e, t.entries[id.index]? = some e ∧ e.kind = .array ∧ e.args.head? = some el := by
  rw [element?, h.resolve, get, Array.getD_eq_getD_getElem?] at hel
  cases he : t.entries[id.index]? with
  | none =>
    rw [he] at hel
    cases hel
  | some e =>
    rw [he, Option.getD_some] at hel
    split at hel
    next hkind => exact ⟨e, rfl, hkind, hel⟩
    · cases hel

theorem element?_ge (h : t.Sound) (hel : t.element? id = some el) : 5 ≤ id.index := by
  obtain ⟨e, he, hkind, -⟩ := h.element?_entry hel
  refine h.not_primitive he ?_
  rw [hkind]
  decide

/-- What the names of the primitive types mean. -/
theorem lookup_primitive (h : t.Sound) (hid : id.index < 5) :
    t.lookup .top (primitives.name id) = some id := by
  obtain ⟨e, he⟩ : ∃ e, t.entries[id.index]? = some e :=
    ⟨_, Array.getElem?_eq_getElem (hid.trans_le h.size_le)⟩
  have hname : primitives.name id = e.name := by
    rw [h.primitive _ hid] at he
    exact name_of_entry he
  have htop : e.scope = .top := by
    rcases h.formed _ e he with ⟨-, htop⟩ | hkind | ⟨-, -, htop⟩
    · exact htop
    · rw [h.primitive _ hid] at he
      rw [primitives_kind he] at hkind
      cases hkind
    · exact htop
  rw [lookup_top h, hname, ← htop]
  exact h.entered _ e he

end TypeTable.Sound

/-! ## Members -/

/-- The types of the members of a class, by their places. -/
def Tables.memberTypes (T : Tables) (info : ClassInfo) : List TypeId :=
  (T.scopes.members info.scopes.members).map Symbol.type

theorem Tables.MembersNumbered.memberTypes (h : T.MembersNumbered info) {m : UInt16} {t : TypeId}
    (hmember : T.HasMember info name m t) : (T.memberTypes info)[m.toNat]? = some t := by
  obtain ⟨-, -, hmem⟩ := h.members
  have hsym := Array.mem_of_find?_eq_some hmember
  obtain ⟨k, hk⟩ := List.mem_iff_getElem?.mp ((hmem _).mpr ⟨hsym, rfl⟩)
  rw [Tables.memberTypes, List.getElem?_map, h.slot_eq hk rfl, hk, Option.map_some]

theorem ClassImage.Realises.memberTypes (h : i.Realises T T.scopes info body) :
    i.members.toList.map Member.type = T.memberTypes info := by
  rw [h.members_eq, List.map_map]
  rfl

theorem ClassImage.Realises.kinds_eq (h : i.Realises T T.scopes info body) :
    (Program.shapeOf i).kinds = (T.memberTypes info).map primitives.kindOf := by
  rw [Program.shapeOf, Array.toList_map, h.members_eq, List.map_map, Tables.memberTypes,
    List.map_map]
  rfl

/-! ## Compiled images -/

namespace Image.Compiled

variable {items : List Stmt} {T : Tables} {image : Image} {cls : TypeId} {info : ClassInfo}

variable (h : image.Compiled items T)

include h

theorem class_entry (hinfo : T.scopes.classInfo? cls = some info) :
    ∃ e, T.types.entries[cls.index]? = some e ∧ e.kind = .classType := by
  obtain ⟨⟨name, body, hclass⟩, -, -⟩ := h.classes _ _ hinfo
  obtain ⟨_, _, hat⟩ := hclass.classAt
  obtain rfl := ScopeTable.classInfo?_type hinfo
  exact hat.entry

theorem class_ge (hinfo : T.scopes.classInfo? cls = some info) :
    5 ≤ cls.index := by
  obtain ⟨e, he, hkind⟩ := h.class_entry hinfo
  refine h.sound.not_primitive he ?_
  rw [hkind]
  decide

/-- Classes are no arrays. -/
theorem class_not_array (hinfo : T.scopes.classInfo? cls = some info) :
    T.types.element? cls = none := by
  cases hel : T.types.element? cls with
  | none => rfl
  | some el =>
    obtain ⟨e, he, hkind⟩ := h.class_entry hinfo
    obtain ⟨e', he', hkind', -⟩ := h.sound.element?_entry hel
    cases he.symm.trans he'
    cases hkind.symm.trans hkind'

variable (hplain : PlainNames items)

include hplain

/-- Where no two classes share a name, a type is told by its name. -/
theorem name_inj
    (hnames : (simpleNames items).Nodup) {a b : TypeId} {e e' : TypeEntry}
    (he : T.types.entries[a.index]? = some e) (he' : T.types.entries[b.index]? = some e')
    (hname : e.name = e'.name) : a = b := by
  -- all but the classes are bound at the top
  have hcases : ∀ {i : Nat} {e : TypeEntry}, T.types.entries[i]? = some e → e.kind = .classType ∨
      e.kind ≠ .classType ∧ e.scope = .top ∧ (i < 5 ∨ ¬ IsPlain e.name) := by
    intro i e he
    by_cases hkind : e.kind = .classType
    · exact .inl hkind
    · rcases h.sound.formed i e he with ⟨hi, htop⟩ | hclass | ⟨hcanon, -, htop⟩
      · exact .inr ⟨hkind, htop, .inl hi⟩
      · exact absurd hclass hkind
      · exact .inr ⟨hkind, htop, .inr fun hp =>
        TypeTable.rendered_not_identifier hcanon hp.isIdentifier⟩
  have hapart : ∀ {i j : Nat} {e e' : TypeEntry}, T.types.entries[i]? = some e →
  e.kind = .classType →
      T.types.entries[j]? = some e' → j < 5 ∨ ¬ IsPlain e'.name → e'.name ≠ e.name := by
    intro i j e e' he hkind he' hother
    rcases hother with hj | hother
    · exact h.sound.apart i j e e' he hkind he' hj
    · intro hname
      rw [hname] at hother
      exact hother (h.classNames_plain hplain i e he hkind)
  rcases hcases he with hkind | ⟨-, htop, hother⟩
  · rcases hcases he' with hkind' | ⟨-, -, hother'⟩
    · obtain ⟨info, body, hclass, htype⟩ := h.classTypes _ e he hkind
      obtain ⟨info', body', hclass', htype'⟩ := h.classTypes _ e' he' hkind'
      rw [← hname] at hclass'
      obtain rfl := hclass.unique hnames hclass'
      exact htype.symm.trans htype'
    · exact absurd hname.symm (hapart he hkind he' hother')
  · rcases hcases he' with hkind' | ⟨-, htop', -⟩
    · exact absurd hname (hapart he' hkind' he hother)
    · have hbound := h.sound.entered _ e he
      have hbound' := h.sound.entered _ e' he'
      rw [htop, hname] at hbound
      rw [htop'] at hbound'
      exact Option.some.inj (hbound.symm.trans hbound')

/-- What is entered under the name of a structural type is a structural type. -/
theorem generic_entry {kind : TypeKind}
    {args : List TypeId} {id : TypeId} (hid : T.types.generic? kind args = some id) :
    ∃ e, T.types.entries[id.index]? = some e ∧ T.types.canonicalName kind args = .ok e.name ∧
      T.types.canonicalName e.kind e.args = .ok e.name ∧ ∀ a ∈ e.args, a.index < T.types.size := by
  obtain ⟨name, hname, hid⟩ := TypeTable.generic?_ok hid
  obtain ⟨e, he, rfl, -⟩ := h.sound.bound _ _ _ hid
  have hnot : ¬ IsIdentifier e.name := by
    rw [TypeTable.canonicalName_eq] at hname
    exact TypeTable.rendered_not_identifier hname
  rcases h.sound.formed _ e he with ⟨hlt, -⟩ | hkind | ⟨hcanon, hargs, -⟩
  · rw [h.sound.primitive _ hlt] at he
    exact absurd (TypeTable.primitives_identifier he) hnot
  · exact absurd (h.classNames_plain hplain _ e he hkind).isIdentifier hnot
  · have hlt := TypeTable.lt_of_entry he
    exact ⟨e, he, hname, hcanon, fun a ha => (hargs a ha).trans hlt⟩

/-- An array type leads back to the type of its elements. -/
theorem element?_eq
    (hnames : (simpleNames items).Nodup) {s : TypeScopeId} {term : TypeTerm} {el array : TypeId}
    (hterm : T.types.meaning s term = some el)
    (harray : T.types.generic? .array [el] = some array) : T.types.element? array = some el := by
  obtain ⟨e, he, hname, hcanon, hargs⟩ := h.generic_entry hplain harray
  have hel := h.sound.meaning_lt hterm
  have hword : ∀ a : TypeId, a.index < T.types.size →
  IsWord (T.types.name (T.types.resolve a)) := by
    intro a ha
    rw [h.sound.resolve]
    exact (h.named hplain).name_isWord ha
  have hkind : e.kind ≠ .function := by
    intro hkind
    rw [hkind] at hcanon
    have hhead := congrArg (fun r : Except TypeError String => r.toOption.bind (·.toList.head?))
      (hname.trans hcanon.symm)
    simp [TypeTable.canonicalName, Except.toOption, String.toList_append] at hhead
  rw [TypeTable.canonicalName_eq] at hname hcanon
  obtain ⟨hkind, hparts⟩ := TypeTable.rendered_inj hname hcanon
    (List.forall_mem_map.mpr (List.forall_mem_singleton.mpr (hword el hel)))
    (List.forall_mem_map.mpr fun a ha => hword a (hargs a ha)) (by rintro ⟨⟩)
      (fun h => absurd h hkind)
  obtain ⟨a, ha, hsame⟩ : ∃ a, e.args = [a] ∧ T.types.name el = T.types.name a := by
    simp only [h.sound.resolve, List.map_cons, List.map_nil] at hparts
    obtain ⟨a, hargs, ha⟩ := List.map_eq_singleton_iff.mp hparts.symm
    exact ⟨a, hargs, ha.symm⟩
  have halt : a.index < T.types.size := hargs a (by rw [ha]; exact .head _)
  obtain rfl : el = a := by
    refine h.name_inj hplain hnames (Array.getElem?_eq_getElem hel) (Array.getElem?_eq_getElem halt)
      ?_
    rw [← TypeTable.name_of_entry (Array.getElem?_eq_getElem hel), hsame,
      TypeTable.name_of_entry (Array.getElem?_eq_getElem halt)]
  rw [TypeTable.element?, h.sound.resolve, TypeTable.get, Array.getD_eq_getD_getElem?, he,
    Option.getD_some, if_pos hkind.symm, ha]
  rfl

end Image.Compiled

end Bytescript
