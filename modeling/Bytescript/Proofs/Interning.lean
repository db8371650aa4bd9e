import Bytescript.Proofs.Meanings

/-!
# Structural types are entered once

A structural type is looked up by a name that is made of the names of its parts. The kind and the
names of the parts can be read off it again (`rendered_inj`), so where no two types share a name,
the type that is found has the parts it was asked for, and two requests have one answer exactly if
they mean the same parts (`insertGeneric_structural`).

Types of one name in different scopes cannot be told apart in this way, nor can a function type
without parts from the one that takes nothing and gives nothing (`insertGeneric_confuses`).
-/

namespace Bytescript

/-! ## Reading structural names -/

/-- What stands before the bracket that closes more than was opened, backwards. -/
def untilClosed : (depth : Nat) → (before : List Char) → List Char → List Char
  | _, before, [] => before
  | d, before, c :: cs =>
    if c = '>' ∧ d = 0 then before
    else untilClosed
      (if c = '<' ∨ c = '(' then d + 1 else if c = '>' then d - 1 else d) (c :: before) cs

theorem untilClosed_scan {d e : Nat} {a : List Char} (h : scan d a = some e)
    (before rest : List Char) :
    untilClosed d before (a ++ rest) = untilClosed e (a.reverse ++ before) rest := by
  induction a generalizing d before with
  | nil =>
    cases h
    rfl
  | cons c cs ih =>
    obtain ⟨d', hturn, h⟩ := scan_cons_iff.mp h
    have hstep : untilClosed d before (c :: (cs ++ rest)) =
        untilClosed d' (c :: before) (cs ++ rest) := by
      simp only [turn] at hturn
      grind [untilClosed]
    rw [List.cons_append, hstep, ih h]
    simp

theorem untilClosed_join {words : List (List Char)} (h : ∀ w ∈ words, scan 0 w = some 0)
    (before rest : List Char) :
    untilClosed 0 before ([','].intercalate words ++ rest) =
      untilClosed 0 (([','].intercalate words).reverse ++ before) rest := by
  induction words generalizing before with
  | nil => rfl
  | cons w ws ih =>
    have hw := h w (.head _)
    cases ws with
    | nil => rw [List.intercalate_singleton, untilClosed_scan hw]
    | cons w' ws =>
      have hcomma : ∀ (before rest : List Char),
          untilClosed 0 before (',' :: rest) = untilClosed 0 (',' :: before) rest :=
        fun _ _ => rfl
      rw [List.intercalate_cons_cons, List.append_assoc, List.append_assoc, untilClosed_scan hw,
        List.singleton_append, hcomma, ih fun v hv => h v (.tail _ hv)]
      simp

/-- The parameters and the result can be read off the name of a function type. -/
theorem arrow_inj {ps qs : List String} {r r' : List Char} (hp : ∀ p ∈ ps, IsWord p)
    (hq : ∀ q ∈ qs, IsWord q) (h : (",".intercalate ps).toList ++ (")->".toList ++ r) =
      (",".intercalate qs).toList ++ (")->".toList ++ r')) : ps = qs ∧ r = r' := by
  have hclose : ∀ {ns : List String} {r : List Char}, (∀ n ∈ ns, IsWord n) →
      untilClosed 0 [] ((",".intercalate ns).toList ++ (")->".toList ++ r)) =
        '-' :: ')' :: (",".intercalate ns).toList.reverse := by
    intro ns r hn
    rw [String.toList_intercalate]
    change untilClosed 0 [] ([','].intercalate _ ++ _) = _
    rw [untilClosed_join]
    · simp [untilClosed]
    · intro w hw
      obtain ⟨n, hmem, rfl⟩ := List.mem_map.mp hw
      exact (hn n hmem).2
  have hjoin := hclose (r := r) hp
  rw [h, hclose hq] at hjoin
  have hjoin := List.reverse_inj.mp (List.cons.inj (List.cons.inj hjoin).2).2
  obtain rfl := join_inj hp hq hjoin.symm
  exact ⟨rfl, List.append_cancel_left (List.append_cancel_left h)⟩

namespace TypeTable

variable {kind kind' : TypeKind} {t t' : TypeTable} {as bs args : List TypeId} {id : TypeId}

/-- The kind of a structural type and the names of its parts can be read off its name. -/
theorem rendered_inj {ns ms : List String} {name : String} (h : rendered kind ns = .ok name)
    (h' : rendered kind' ms = .ok name) (hn : ∀ n ∈ ns, IsWord n) (hm : ∀ m ∈ ms, IsWord m)
    (hf : kind = .function → ns ≠ []) (hf' : kind' = .function → ms ≠ []) :
    kind = kind' ∧ ns = ms := by
  have hlist : ∀ {opening : String}, opening ++ ",".intercalate ns ++ ">" =
      opening ++ ",".intercalate ms ++ ">" → ns = ms := by
    intro opening heq
    have heq := congrArg String.toList heq
    simp only [String.toList_append] at heq
    exact join_inj hn hm (List.append_cancel_left (List.append_cancel_right heq))
  cases kind <;> cases h <;> cases kind' <;> first | cases h' | replace h' := Except.ok.inj h'
  case array.refl.array => exact ⟨rfl, hlist h'.symm⟩
  case tuple.refl.tuple => exact ⟨rfl, hlist h'.symm⟩
  case function.refl.function =>
      have h' := congrArg String.toList h'
      simp only [String.toList_append] at h'
      obtain ⟨ns, r, rfl⟩ : ∃ init last, ns = init ++ [last] :=
        ⟨_, _, (List.dropLast_append_getLast (hf rfl)).symm⟩
      obtain ⟨ms, r', rfl⟩ : ∃ init last, ms = init ++ [last] :=
        ⟨_, _, (List.dropLast_append_getLast (hf' rfl)).symm⟩
      simp only [List.append_assoc, List.dropLast_concat, List.getLastD_concat] at h'
      have h' := List.append_cancel_left h'
      obtain ⟨rfl, hr⟩ := arrow_inj (fun p hp => hm p (List.mem_append_left _ hp))
        (fun p hp => hn p (List.mem_append_left _ hp)) h'
      rw [String.ext (List.append_cancel_right hr)]
      exact ⟨rfl, rfl⟩

/-! ## Tables whose types are known by name -/

/-- No two types have one name. -/
def NamesDistinct (t : TypeTable) : Prop := (t.entries.toList.map TypeEntry.name).Nodup

/-- No function type has been entered without even a result. -/
def ResultsGiven (t : TypeTable) : Prop :=
  ∀ e ∈ t.entries.toList, e.name = "Function<()->void>" → e.args ≠ []

instance (t : TypeTable) : Decidable t.NamesDistinct := inferInstanceAs (Decidable (List.Nodup _))

instance (t : TypeTable) : Decidable t.ResultsGiven := inferInstanceAs (Decidable (∀ _ ∈ _, _))

theorem NamesDistinct.eq (h : t.NamesDistinct) {i j : Nat} {e e' : TypeEntry}
    (he : t.entries[i]? = some e)
    (he' : t.entries[j]? = some e') (hname : e.name = e'.name) : i = j := by
  rw [← Array.getElem?_toList] at he he'
  have hi : i < (t.entries.toList.map TypeEntry.name).length := by
    rw [List.length_map]
    exact (getElem_of_getElem? he).1
  refine (List.getElem?_inj hi h).mp ?_
  rw [List.getElem?_map, List.getElem?_map, he, he', Option.map_some, Option.map_some, hname]

theorem NamesDistinct.id_eq (h : t.NamesDistinct) {a b : TypeId} (ha : a.index < t.size)
    (hb : b.index < t.size) (hname : t.name a = t.name b) : a = b :=
  congrArg TypeId.mk (h.eq (entry_of_lt ha) (entry_of_lt hb) hname)

theorem NamesDistinct.ids_eq (h : t.NamesDistinct) (ha : ∀ a ∈ as, a.index < t.size)
    (hb : ∀ b ∈ bs, b.index < t.size) (hnames : as.map t.name = bs.map t.name) : as = bs := by
  induction as generalizing bs with
  | nil => exact (List.map_eq_nil_iff.mp hnames.symm).symm
  | cons a as ih =>
    cases bs with
    | nil => cases hnames
    | cons b bs =>
      obtain ⟨hname, hnames⟩ := List.cons.inj hnames
      rw [h.id_eq (ha a List.mem_cons_self) (hb b List.mem_cons_self) hname,
        ih (fun x hx => ha x (.tail _ hx))
          (fun x hx => hb x (.tail _ hx)) hnames]

theorem forall₂_same_iff :
    List.Forall₂ (fun a b => t.same a b = true) as bs ↔ as.map t.resolve = bs.map t.resolve := by
  have heq : as.map t.resolve = bs.map t.resolve ↔
      List.Forall₂ (· = ·) (as.map t.resolve) (bs.map t.resolve) := by rw [List.forall₂_eq_eq_eq]
  simp only [heq, List.forall₂_map_left_iff, List.forall₂_map_right_iff, same,
    decide_eq_true_eq]

structure Clear (t : TypeTable) : Prop extends Woven t where
  distinct : t.NamesDistinct
  results : t.ResultsGiven

/-- A structural type has been asked for, and this is the answer. -/
structure Interned (t t' : TypeTable) (kind : TypeKind) (args : List TypeId) (id : TypeId) :
    Prop where
  clear : t'.Clear
  later : Later t t'
  resolve : ∀ a, a.index < t.size → t'.resolve a = t.resolve a
  size : id.index < t'.size
  name : t'.canonicalName kind args = .ok (t'.name id)
  bound : t'.lookupHere .top (t'.name id) = some id
  kind : (t'.get id).kind = kind
  parts : List.Forall₂ (fun a b => t'.same a b = true) args (t'.get id).args

namespace Clear

variable {t : TypeTable} (h : t.Clear) {kind : TypeKind} {args : List TypeId}

include h

theorem words (hargs : ∀ a ∈ args, a.index < t.size) :
    ∀ n ∈ args.map fun a => t.name (t.resolve a), IsWord n := by
  intro n hn
  obtain ⟨a, ha, rfl⟩ := List.mem_map.mp hn
  exact h.name_isWord (h.toWoven.resolve (hargs a ha)).1

/-- What is found under the name of a structural type has the parts that are asked for. -/
theorem found {name : String} {id : TypeId} (ha : t.Applies kind args)
    (hname : t.canonicalName kind args = .ok name) (hl : t.lookupHere .top name = some id) :
    Interned t t kind args id := by
  obtain ⟨e, he, rfl⟩ := h.bound _ _ _ hl
  have hid := lt_of_entry he
  rcases h.formed _ e he with hplain | ⟨-, -, -, names, hnames, hparts⟩
  · exact absurd hplain (rendered_not_identifier hname)
  have hresult : e.kind = .function → names ≠ [] := by
    rintro hkind rfl
    rw [hkind] at hnames
    exact h.results e (Array.mem_toList_iff.mpr (Array.mem_of_getElem? he))
      (Except.ok.inj hnames).symm (List.forall₂_nil_left_iff.mp hparts)
  have hwords : List.Forall₂ (fun n _ => IsWord n ∧ True) names e.args :=
    hparts.imp fun n a hrel => by
    obtain ⟨-, _, r, -, hr, rfl⟩ := hrel
    exact ⟨h.name_isWord (hr.trans hid), trivial⟩
  obtain ⟨hkind, rfl⟩ := rendered_inj hnames hname ((List.forall₂_and_left _ _).mp hwords).1
    (h.words ha.args) hresult fun hkind hnil => ha.result hkind (List.map_eq_nil_iff.mp hnil)
  have hget := get_of_entry he
  refine ⟨h, .refl t, fun _ _ => rfl, hid, ?_, ?_, ?_, ?_⟩
  · rw [name_of_entry he, hname]
  · rw [name_of_entry he, hl]
  · rw [hget, hkind]
  · rw [hget]
    rw [List.forall₂_map_left_iff] at hparts
    refine ((List.forall₂_and_left _ _).mpr ⟨ha.args, hparts⟩).imp fun b a hrel => ?_
    obtain ⟨hb, -, k, r, hk, hr, hnames⟩ := hrel
    obtain ⟨hb, m, hm⟩ := h.toWoven.resolve hb
    obtain rfl := h.distinct.id_eq (hr.trans hid) hb hnames
    rw [same, decide_eq_true_eq]
    exact (Settles.resolve ⟨hk, hm.2⟩).symm

/-- A structural type that is not found is entered with the parts that are asked for. -/
theorem entered {name : String} (ha : t.Applies kind args)
    (hname : t.canonicalName kind args = .ok name) (hl : t.lookupHere .top name = none)
    {e : TypeEntry}
    (hentry : { name, kind, redirect := none, args, complete := true, scope := .top } = e) :
    Interned t (t.push e).2 kind args (t.push e).1 := by
  have hin : t.insertGeneric kind args = (.ok (t.push e).1, (t.push e).2) := by
    simp only [insertGeneric, hname, hl, ← hentry, Prod.map, id]
  have hwoven : (t.push e).2.Woven := h.intern ha.args hin
  have hfree : t.lookupHere e.scope e.name = none := by rw [← hentry, hl]
  have hlater := later_push hfree
  have hget : ∀ {a : TypeId}, a.index < t.size → (t.push e).2.get a = t.get a := fun ha =>
    get_of_entry (by rw [push_entries t e (Nat.ne_of_lt ha), entry_of_lt ha])
  have hresolve : ∀ a, a.index < t.size → (t.push e).2.resolve a = t.resolve a := by
    intro a ha
    obtain ⟨hr, n, hn⟩ := h.toWoven.resolve ha
    exact Settles.resolve ⟨hlater.leads h.toLinked hn.1, by rw [hget hr, hn.2]⟩
  have hnew : (t.push e).2.get (t.push e).1 = e := get_of_entry (push_entries_size t e)
  have hnames : (t.push e).2.canonicalName kind args = .ok name := by
    rw [← hname]
    refine canonicalName_congr (fun a ha' => ?_) kind
    rw [hresolve a (ha.args a ha'), hlater.name (h.toWoven.resolve (ha.args a ha')).1]
  refine ⟨⟨hwoven, ?_, ?_⟩, hlater, hresolve, ?_, ?_, ?_, ?_, ?_⟩
  · -- an old type of the same name would be structural, and found
    simp only [NamesDistinct, push, Array.toList_push, List.map_append, List.map_cons,
      List.map_nil]
    refine List.nodup_append.mpr ⟨h.distinct, List.nodup_singleton _, ?_⟩
    rintro n hn _ hmem rfl
    obtain ⟨e', he', rfl⟩ := List.mem_map.mp hn
    obtain ⟨i, hi⟩ := Array.mem_iff_getElem?.mp (Array.mem_toList_iff.mp he')
    have heq : e'.name = name := (List.mem_singleton.mp hmem).trans (by rw [← hentry])
    rcases h.formed i e' hi with hplain | ⟨-, -, hbound, -⟩
    · exact rendered_not_identifier hname (heq ▸ hplain)
    · rw [heq, hl] at hbound
      cases hbound
  · intro e' he'
    simp only [push, Array.toList_push, List.mem_append, List.mem_singleton] at he'
    rcases he' with he' | rfl
    · exact h.results e' he'
    · intro hvoid hnil
      rw [← hentry] at hvoid hnil
      obtain rfl : name = _ := hvoid
      obtain rfl : args = [] := hnil
      rcases ha.structural with rfl | rfl | rfl
      · exact absurd (Except.ok.inj hname) (by decide : "Array<" ++ ",".intercalate [] ++ ">" ≠ _)
      · exact absurd (Except.ok.inj hname) (by decide : "Tuple<" ++ ",".intercalate [] ++ ">" ≠ _)
      · exact ha.result rfl rfl
  · exact Nat.lt_of_lt_of_eq (Nat.lt_succ_self _) (Array.size_push ..).symm
  · rw [hnames, TypeTable.name, hnew, ← hentry]
  · rw [TypeTable.name, hnew, push_lookupHere, if_pos ⟨by rw [← hentry], h.top, rfl⟩]
    rfl
  · rw [hnew, ← hentry]
  · rw [hnew, ← hentry]
    exact List.forall₂_same.mpr fun a _ => by rw [same, decide_eq_true_eq]

theorem insertGeneric (ha : t.Applies kind args) :
    ∃ id t', t.insertGeneric kind args = (.ok id, t') ∧ Interned t t' kind args id := by
  obtain ⟨name, hname⟩ : ∃ name, t.canonicalName kind args = .ok name := by
    rcases ha.structural with rfl | rfl | rfl <;> exact ⟨_, rfl⟩
  simp only [TypeTable.insertGeneric, hname]
  cases hl : t.lookupHere .top name with
  | some id => exact ⟨id, t, rfl, h.found ha hname hl⟩
  | none => exact ⟨_, _, rfl, h.entered ha hname hl rfl⟩

end Clear

/-- A structural type stands for itself. -/
theorem Interned.resolve_self (h : Interned t t' kind args id) : t'.resolve id = id := by
  rcases h.clear.formed _ _ (entry_of_lt h.size) with hplain | ⟨-, hred, -⟩
  · exact absurd hplain (rendered_not_identifier h.name)
  · exact Settles.resolve ⟨.refl id, hred⟩

/-- Two requests have one answer exactly if they mean the same parts. -/
theorem Interned.eq_iff {t'' : TypeTable} {args' : List TypeId} {id' : TypeId}
    (h : Interned t t' kind args id) (hargs : t'.Applies kind args)
    (hargs' : t'.Applies kind' args')
    (hin : t'.insertGeneric kind' args' = (.ok id', t'')) (h' : Interned t' t'' kind' args' id') :
    id' = id ↔ kind' = kind ∧ List.Forall₂ (fun a b => t'.same a b = true) args' args := by
  have hresolved : ∀ {args : List TypeId}, (∀ a ∈ args, a.index < t'.size) →
      ∀ r ∈ args.map t'.resolve, r.index < t'.size := by
    intro args hlt r hr
    obtain ⟨a, ha, rfl⟩ := List.mem_map.mp hr
    exact (h.clear.toWoven.resolve (hlt a ha)).1
  constructor
  · rintro rfl
    have hname' : t'.canonicalName kind' args' = .ok (t'.name id') := by
      rw [← h'.later.name h.size, ← h'.name]
      refine (canonicalName_congr (fun a ha => ?_) kind').symm
      rw [h'.resolve a (hargs'.args a ha),
        h'.later.name (h.clear.toWoven.resolve (hargs'.args a ha)).1]
    obtain ⟨hkind, hmap⟩ := rendered_inj hname' h.name (h.clear.words hargs'.args)
      (h.clear.words hargs.args)
      (fun hk hnil => hargs'.result hk (List.map_eq_nil_iff.mp hnil))
      (fun hk hnil => hargs.result hk (List.map_eq_nil_iff.mp hnil))
    rw [← Function.comp_def t'.name, ← List.map_map, ← List.map_map] at hmap
    exact ⟨hkind, forall₂_same_iff.mpr
      (h.clear.distinct.ids_eq (hresolved hargs'.args) (hresolved hargs.args) hmap)⟩
  · rintro ⟨rfl, hsame⟩
    have hname : t'.canonicalName kind' args' = .ok (t'.name id) := by
      rw [← h.name, canonicalName_eq, canonicalName_eq, ← Function.comp_def t'.name, ← List.map_map,
        ← List.map_map, forall₂_same_iff.mp hsame]
    simp only [insertGeneric, hname, h.bound] at hin
    exact (Except.ok.inj (Prod.mk.inj hin).1).symm

/-! ## Terms -/

theorem Interns.clear (h : Interns t t') (ht : t.Clear) : t'.Clear := by
  induction h with
  | refl => exact ht
  | step _ happ hin ih =>
    obtain ⟨_, _, hin', hinterned⟩ := ih.insertGeneric happ
    cases hin'.symm.trans hin
    exact hinterned.clear

end TypeTable

namespace Lower

open TypeTable

/-- An array of what a term means has elements of that type. -/
theorem resolveType_array {scope : TypeScopeId} {span : Span} {term : TypeTerm} {element : TypeId}
    {s s1 : Lowering} (h : resolveType scope span term s = .ok element s1) (ht : s.types.Clear) :
    ∃ id s2 e, resolveType scope span (.array term) s = .ok id s2 ∧
      s2.types.element? id = some e ∧ s2.types.same element e = true := by
  obtain ⟨hint, helem⟩ := resolveType_interns h ht.toWoven
  obtain ⟨id, t', hin, hid⟩ := (hint.clear ht).insertGeneric (.array helem)
  obtain ⟨e, args, hsame, hnil, hargs⟩ := List.forall₂_cons_left_iff.mp hid.parts
  obtain rfl := List.forall₂_nil_left_iff.mp hnil
  refine ⟨id, { s1 with types := t' }, e, ?_, ?_, hsame⟩
  · simp only [resolveType, bind_ok]
    refine ⟨element, s1, h, ?_⟩
    simp only [generic, onTypes, bind_ok, get_ok]
    exact ⟨s1, s1, ⟨rfl, rfl⟩, by simp [hin]⟩
  · simp only [TypeTable.element?, hid.resolve_self, hid.kind, hargs, ↓reduceIte, List.head?_cons]

end Lower

/-! ## The answers to requests -/

namespace TypeTable

/-- Where no two types share a name, a structural type that is asked for has that kind and those
parts, two requests have one answer exactly if they mean the same parts, and the elements of an
array type are of the type that its term means in its scope. -/
theorem insertGeneric_structural {t : TypeTable} (h : t.Built IsIdentifier)
    (hnames : t.NamesDistinct) (hresults : t.ResultsGiven) :
    (∀ kind args, t.Applies kind args → ∃ id t', t.insertGeneric kind args = (.ok id, t') ∧
      (t'.get id).kind = kind ∧
      List.Forall₂ (fun a b => t'.same a b = true) args (t'.get id).args ∧
      ∀ kind' args', t'.Applies kind' args' → ∃ id' t'',
        t'.insertGeneric kind' args' = (.ok id', t'') ∧ (t''.get id').kind = kind' ∧
        List.Forall₂ (fun a b => t''.same a b = true) args' (t''.get id').args ∧
        (id' = id ↔ kind' = kind ∧ List.Forall₂ (fun a b => t'.same a b = true) args' args)) ∧
    ∀ (s s1 : Lowering) scope span term element, s.types = t →
      Lower.resolveType scope span term s = .ok element s1 →
      ∃ id s2 e, Lower.resolveType scope span (.array term) s = .ok id s2 ∧
        s2.types.element? id = some e ∧ s2.types.same element e = true := by
  have hclear : t.Clear := ⟨h.woven fun _ => id, hnames, hresults⟩
  refine ⟨fun kind args happ => ?_, fun s s1 scope span term element hs hres => ?_⟩
  · obtain ⟨id, t', hin, hid⟩ := hclear.insertGeneric happ
    refine ⟨id, t', hin, hid.kind, hid.parts, fun kind' args' happ' => ?_⟩
    obtain ⟨id', t'', hin', hid'⟩ := hid.clear.insertGeneric happ'
    have hstill : t'.Applies kind args := ⟨happ.structural, happ.result, fun a ha =>
      (happ.args a ha).trans_le hid.later.size⟩
    exact ⟨id', t'', hin', hid'.kind, hid'.parts, hid.eq_iff hstill happ' hin' hid'⟩
  · subst hs
    exact Lower.resolveType_array hres hclear

/-- `Node` in a scope of its own. -/
def enclosedNode : TypeTable :=
  ((primitives.newScope .top).2.push
    { name := "Node", kind := .classType, redirect := none, complete := true, scope := ⟨1⟩ }).2

theorem enclosedNode_built : enclosedNode.Built IsIdentifier :=
  .insert (.newScope .primitives (by decide)) (by decide) (by decide) (fun _ hr => by cases hr)
    (rfl : (primitives.newScope .top).2.insert ⟨1⟩ "Node" .classType none = (.ok ⟨5⟩, enclosedNode))

/-- Arrays of `Tree`, which is only announced. -/
def treeArrays : TypeTable :=
  ((enclosedNode.declare .top "Tree" .classType).2.push
    { name := "Array<Tree>", kind := .array, redirect := none, args := [⟨6⟩], complete := true,
      scope := .top }).2

/-- `Tree` turns out to be another name of `Node`. -/
def treeAlias : TypeTable :=
  { treeArrays with
    entries := treeArrays.entries.modify 6 fun e =>
      { e with kind := .typedef, redirect := some ⟨5⟩, complete := true } }

theorem treeAlias_built : treeAlias.Built IsIdentifier :=
  have harrays : treeArrays.Built IsIdentifier :=
    .intern (.declare enclosedNode_built (by decide) (by decide)) (by decide)
      (rfl : (enclosedNode.declare .top "Tree" .classType).2.insertGeneric .array [⟨6⟩] =
        (.ok ⟨7⟩, treeArrays))
  .insert harrays (by decide) (by decide) (fun _ hr => by cases hr; decide)
    (rfl : treeArrays.insert .top "Tree" .typedef (some ⟨5⟩) = (.ok ⟨6⟩, treeAlias))

/-- Arrays of the one name and of the other are one type. -/
theorem insertGeneric_structural_alias :
    treeAlias.Built IsIdentifier ∧ treeAlias.NamesDistinct ∧ treeAlias.ResultsGiven ∧
      ∃ id t' t'', treeAlias.insertGeneric .array [⟨6⟩] = (.ok id, t') ∧ (t'.get id).kind = .array ∧
        t'.insertGeneric .array [⟨5⟩] = (.ok id, t'') := by
  have hdistinct : treeAlias.NamesDistinct := by decide
  have hresults : treeAlias.ResultsGiven := by decide
  obtain ⟨id, t', hin, hkind, -, hnext⟩ :=
    (insertGeneric_structural treeAlias_built hdistinct hresults).1 .array [⟨6⟩]
      (.array (by decide))
  have hinterned : ∃ id t', treeAlias.insertGeneric .array [⟨6⟩] = (.ok id, t') ∧ t'.size = 9 ∧
  t'.same ⟨5⟩ ⟨6⟩ = true :=
    ⟨_, _, rfl, by decide, by decide⟩
  obtain ⟨_, _, hin', hsize, hsame⟩ := hinterned
  cases hin'.symm.trans hin
  obtain ⟨id', t'', hin'', -, -, hiff⟩ := hnext .array [⟨5⟩] (.array (by rw [hsize]; decide))
  obtain rfl := hiff.mpr ⟨rfl, .cons hsame .nil⟩
  exact ⟨treeAlias_built, hdistinct, hresults, _, _, t'', hin, hkind, hin''⟩

/-- Two classes of one name, each in a scope of its own. -/
def twoNodes : TypeTable :=
  ((enclosedNode.newScope .top).2.push
    { name := "Node", kind := .classType, redirect := none, complete := true, scope := ⟨2⟩ }).2

theorem twoNodes_built : twoNodes.Built IsIdentifier :=
  .insert (.newScope enclosedNode_built (by decide)) (by decide) (by decide)
    (fun _ hr => by cases hr)
    (rfl : (enclosedNode.newScope .top).2.insert ⟨2⟩ "Node" .classType none = (.ok ⟨6⟩, twoNodes))

/-- Arrays of two classes of one name are taken for one type; and a function type without a result
is taken for the one that gives nothing. -/
theorem insertGeneric_confuses :
    (∃ id t', twoNodes.Built IsIdentifier ∧ twoNodes.insertGeneric .array [⟨5⟩] = (.ok id, t') ∧
      t'.insertGeneric .array [⟨6⟩] = (.ok id, t') ∧ t'.same ⟨5⟩ ⟨6⟩ = false) ∧
    ∃ (id : TypeId) (t : TypeTable), t.Built IsIdentifier ∧ t.NamesDistinct ∧
      t.insertGeneric .function [.void] = (.ok id, t) ∧ (t.get id).args = [] := by
  refine ⟨⟨_, _, twoNodes_built, rfl, rfl, by decide⟩, _, _, .intern .primitives (by simp) (rfl :
    primitives.insertGeneric .function [] = _), ?_, rfl, rfl⟩
  decide

end TypeTable

end Bytescript
