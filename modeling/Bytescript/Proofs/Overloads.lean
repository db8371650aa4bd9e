import Bytescript.Proofs.Frames

/-!
# Overloads stay apart

A script can be compiled with any table of types that has been made beforehand, typedefs included.
Its functions, and the methods of each of its classes, may share names as long as their parameters
differ. What is compared is the types that the parameters are declared with, whereas the full name
of a function, under which it is kept, is made of the types that these stand for. Where no parameter
is declared with a typedef the two agree, and no declaration is lost (`compile_separates`); a
typedef lets two functions share a full name, and only one of them is kept
(`compile_loses_overload`).
-/

namespace Bytescript

open Lower (ClassInfo)

/-! ## Parameters declared with typedefs -/

/-- Whether a parameter is declared with the name of a typedef. -/
def Param.isAlias (seed : TypeTable) (p : Param) : Bool :=
  match p.type with
  | .named n => (seed.lookup .top n).any fun id => (seed.get id).redirect.isSome
  | _ => false

/-- Scopes that a script can see: the outermost one and those of its own classes. -/
def TypeTable.Sees (seed : TypeTable) (r : TypeScopeId) : Prop :=
  r = .top ∨ seed.scopes.size ≤ r.index

variable {seed t t' : TypeTable} {r : TypeScopeId} {id : TypeId} {s : Lowering} {name key : String}
  {items : List Stmt} {head : FunctionHead} {ids : List TypeId}

/-- A parameter that is not declared with a typedef has a type that stands for itself. -/
theorem Param.redirect_none (hseed : seed.Woven) (ht : t.Woven) (henl : seed.Enlarges t)
    (hpath : ∀ q ∈ (t.scope r).path, seed.Sees q) {p : Param} (halias : p.isAlias seed = false)
    (hid : t.meaning r p.type = some id) : (t.get id).redirect = none := by
  obtain ⟨name, term⟩ := p
  rcases TypeTable.meaning_cases hid with ⟨n, rfl, hid⟩ | ⟨kind, args, hid⟩
  · by_contra hred
    rw [henl.redirect] at hred
    obtain ⟨next, hnext⟩ := Option.ne_none_iff_exists'.mp hred
    obtain ⟨q, hq, hl⟩ := List.exists_of_findSome?_eq_some hid
    have hl := henl.bound q n id hl (TypeTable.lt_of_redirect hnext)
    rcases hpath q hq with rfl | hge
    · have hlookup := hseed.lookup_of_here hseed.top hl
      simp [Param.isAlias, hlookup, hnext] at halias
    · rw [TypeTable.lookupHere, TypeTable.scope_eq_default hge] at hl
      cases hl
  · obtain ⟨name, hname, hid⟩ := TypeTable.generic?_ok hid
    obtain ⟨e, he, rfl⟩ := ht.bound _ _ _ hid
    rw [TypeTable.get_of_entry he]
    rcases ht.formed _ e he with hplain | ⟨-, hred, -⟩
    · exact absurd hplain (TypeTable.rendered_not_identifier
      (TypeTable.canonicalName_eq .. ▸ hname))
    · exact hred

/-! ## Classes -/

/-- A state of compiling that has been reached with a table of types made beforehand. -/
structure Lowering.Seeded (seed : TypeTable) (s : Lowering) : Prop where
  woven : s.types.Woven
  enlarges : seed.Enlarges s.types
  sees : ∀ r, seed.Sees r → ∀ q ∈ (s.types.scope r).path, seed.Sees q
  pool : s.pool.Sound
  scopes : s.scopes.Sound
  registered : ∀ type place, s.scopes.classes.lookup type = some place →
    (s.types.get type).complete = true

/-- The class is declared in the scope `r`, and `info` is known about it. -/
def Lowering.ClassAt (s : Lowering) (r : TypeScopeId) (name : String) (info : ClassInfo) : Prop :=
  s.types.lookupHere r name = some info.type ∧ (s.types.get info.type).redirect = none ∧
    s.scopes.classInfo? info.type = some info

/-- The scope of a new class is one that the script can see. -/
theorem Lowering.Seeded.sees_newScope {types : TypeTable} (hs : s.Seeded seed) {type : TypeId}
    (hdef : TypeTable.Defined r name type s.types types) (hr : r.index < s.types.scopes.size)
    (hsees : seed.Sees r) : ∀ r', seed.Sees r' → ∀ q ∈ ((types.newScope r).2.scope r').path,
      seed.Sees q := by
  intro r' hsees' q hq
  rw [TypeTable.newScope_scope] at hq
  split at hq
  · rcases hq with _ | ⟨_, hq⟩
    · exact hsees'
    · rw [hdef.enlarges.path r hr] at hq
      exact hs.sees r hsees q hq
  · by_cases hlt : r'.index < s.types.scopes.size
    · rw [hdef.enlarges.path r' hlt] at hq
      exact hs.sees r' hsees' q hq
    · rw [TypeTable.scope_eq_default (hdef.scopes ▸ not_lt.mp hlt)] at hq
      cases hq

namespace Lower

variable {s s' : Lowering}

/-- A class has been declared, and its parts will be declared in scopes of their own. -/
structure ClassBegun (seed : TypeTable) (r : TypeScopeId) (name : String) (parts : ClassScopes)
    (s s' : Lowering) : Prop where
  seeded : s'.Seeded seed
  enlarges : s.types.Enlarges s'.types
  grows : s.scopes.Grows s'.scopes
  count : s'.types.scopes.size = s.types.scopes.size + 1
  types : parts.types = ⟨s.types.scopes.size⟩
  members : s'.scopes.Persistent parts.members
  known : ∃ info, info.scopes = parts ∧ s'.ClassAt r name info

theorem declareClass_begun {span : Span} {qualified : String} {id : ScopeId} {parts : ClassScopes}
    (h : declareClass span name qualified id r s = .ok parts s') (hs : s.Seeded seed)
    (hid : s.scopes.Persistent id) (hr : r.index < s.types.scopes.size) (hsees : seed.Sees r)
    (hname : IsIdentifier name) : ClassBegun seed r name parts s s' := by
  obtain ⟨type', types, index, constructor, s2, s3, t1, t', hin, h2, h3, htypes, hinsert, hinit,
    rfl⟩ :=
    declareClass_stages h
  have hdef := hs.woven.insertClass hr hname hin
  obtain ⟨-, hsound2, -⟩ := constant_step h2 hs.pool
  obtain ⟨-, hsound3, -⟩ := constant_step h3 hsound2
  have hkey : s.scopes.classes.lookup type' = none := by
    cases hl : s.scopes.classes.lookup type' with
    | none => rfl
    | some place =>
      have := hs.registered _ _ hl
      rw [hdef.pending] at this
      cases this
  obtain ⟨-, hinner, -, hclass⟩ := ScopeTable.insertClass_ok hs.scopes hid hkey hinsert hinit
  have hstep : s.types.Enlarges (types.newScope r).2 :=
    hdef.enlarges.trans (TypeTable.enlarges_newScope types r)
  refine {
    seeded := ?_
    enlarges := htypes ▸ hstep
    grows := hclass.grows
    count := ?_
    types := ?_
    members := hclass.members.persistent
    known := ⟨⟨type', parts, constructor⟩, rfl, ?_⟩ }
  · refine ⟨?_, ?_, ?_, hsound3, hclass.sound, ?_⟩
    · rw [htypes]
      exact hdef.woven.newScope
    · rw [htypes]
      exact hs.enlarges.trans hstep
    · rw [htypes]
      exact hs.sees_newScope hdef hr hsees
    · rw [htypes]
      intro key place hl
      rcases hclass.keys key place hl with rfl | hl
      · exact hdef.complete
      · exact hstep.complete (hs.registered _ _ hl)
  · rw [htypes]
    simp [TypeTable.newScope, hdef.scopes]
  · rw [hinner]
    exact congrArg TypeScopeId.mk hdef.scopes
  · refine ⟨?_, ?_, ?_⟩
    · rw [htypes]
      exact (TypeTable.enlarges_newScope types r).lookupHere _ _ _ hdef.bound
    · rw [htypes]
      exact hdef.redirect
    · simp [ScopeTable.classInfo?, hclass.found, hclass.constructs, Symbol.class?, Symbol.callee?]

end Lower

mutual

/-- The classes among the items are declared in the scope `r`, and they and the classes inside of
them have scopes numbered from `next` on. -/
def Lowering.Classes (s : Lowering) (r : TypeScopeId) (outer : String) (next : Nat) :
    List Stmt → Prop
  | [] => True
  | a :: rest =>
    s.ClassItem r outer next a ∧ s.Classes r outer (next + (classesOf outer a).length) rest

def Lowering.ClassItem (s : Lowering) (r : TypeScopeId) (outer : String) (next : Nat) : Stmt → Prop
  | .classDecl _ name body => ∃ info, s.ClassAt r name info ∧ info.scopes.types = ⟨next⟩ ∧
      next < s.types.scopes.size ∧ s.Classes ⟨next⟩ (outer ++ name ++ ".") (next + 1) body
  | _ => True

end

theorem Lowering.ClassAt.mono {s' : Lowering} {info : ClassInfo} (h : s.ClassAt r name info)
    (henl : s.types.Enlarges s'.types) (hgrows : s.scopes.Grows s'.scopes) (hs : s.scopes.Sound) :
    s'.ClassAt r name info :=
  ⟨henl.lookupHere _ _ _ h.1, (henl.redirect _).trans h.2.1, hgrows.classInfo? hs h.2.2⟩

mutual

theorem Lowering.Classes.mono {s s' : Lowering} (henl : s.types.Enlarges s'.types)
    (hgrows : s.scopes.Grows s'.scopes) (hs : s.scopes.Sound) :
    ∀ {items : List Stmt} {r : TypeScopeId} {outer : String} {next : Nat},
      s.Classes r outer next items → s'.Classes r outer next items
  | [], _, _, _, _ => trivial
  | _ :: _, _, _, _, h => ⟨ClassItem.mono henl hgrows hs h.1, Classes.mono henl hgrows hs h.2⟩

theorem Lowering.ClassItem.mono {s s' : Lowering} (henl : s.types.Enlarges s'.types)
    (hgrows : s.scopes.Grows s'.scopes) (hs : s.scopes.Sound) :
    ∀ {a : Stmt} {r : TypeScopeId} {outer : String} {next : Nat},
      s.ClassItem r outer next a → s'.ClassItem r outer next a
  | a, _, _, _, h => by
    cases a with
    | classDecl span name body =>
      obtain ⟨info, hat, htypes, hlt, hbody⟩ := h
      exact ⟨info, hat.mono henl hgrows hs, htypes, hlt.trans_le henl.scopes,
        Classes.mono henl hgrows hs hbody⟩
    | _ => trivial

end

/-- The classes among some items have been declared. -/
structure Lowering.Begun (seed : TypeTable) (r : TypeScopeId) (outer : String) (items : List Stmt)
    (s s' : Lowering) : Prop where
  seeded : s'.Seeded seed
  enlarges : s.types.Enlarges s'.types
  grows : s.scopes.Grows s'.scopes
  count : s'.types.scopes.size = s.types.scopes.size + (classesIn outer items).length
  classes : s'.Classes r outer s.types.scopes.size items

namespace Lower

mutual

theorem declareClasses_begun {seed : TypeTable} :
    ∀ (items : List Stmt) {id : ScopeId} {r : TypeScopeId}
    {outer : String} {u : Unit} {s s' : Lowering},
    declareClasses id r outer items s = .ok u s' → s.Seeded seed → s.scopes.Persistent id →
      r.index < s.types.scopes.size → seed.Sees r → PlainNames items →
      Lowering.Begun seed r outer items s s'
  | [], id, r, outer, u, s, s', h, hs, _, _, _, _ => by
    simp only [declareClasses, pure_ok] at h
    obtain ⟨-, rfl⟩ := h
    exact ⟨hs, .refl _, .refl _, rfl, trivial⟩
  | a :: rest, id, r, outer, u, s, s', h, hs, hid, hr, hsees, hplain => by
    simp only [declareClasses, bind_ok] at h
    obtain ⟨_, s1, h1, h2⟩ := h
    have ha := declareNested_begun a h1 hs hid hr hsees
      fun n hn => hplain n (by rw [declaredIn]; exact List.mem_append_left _ hn)
    have hrest := declareClasses_begun rest h2 ha.seeded (ha.grows.symbols id hid).1
      (hr.trans_le ha.enlarges.scopes) hsees
      fun n hn => hplain n (by rw [declaredIn]; exact List.mem_append_right _ hn)
    have hcount : (classesIn outer [a]).length = (classesOf outer a).length := by
      simp only [classesIn, List.append_nil]
    refine ⟨hrest.seeded, ha.enlarges.trans hrest.enlarges, ha.grows.trans hrest.grows, ?_,
      ha.classes.1.mono hrest.enlarges hrest.grows ha.seeded.scopes, ?_⟩
    · rw [hrest.count, ha.count, hcount, classesIn, List.length_append, Nat.add_assoc]
    · rw [← hcount, ← ha.count]
      exact hrest.classes

theorem declareNested_begun {seed : TypeTable} : ∀ (a : Stmt) {id : ScopeId} {r : TypeScopeId}
    {outer : String} {u : Unit} {s s' : Lowering},
    declareNested id r outer a s = .ok u s' → s.Seeded seed → s.scopes.Persistent id →
      r.index < s.types.scopes.size → seed.Sees r → (∀ n ∈ a.declaredNames, IsPlain n) →
      Lowering.Begun seed r outer [a] s s'
  | a, id, r, outer, u, s, s', h, hs, hid, hr, hsees, hplain => by
    cases a with
    | classDecl span name body =>
      simp only [declareNested, bind_ok] at h
      obtain ⟨parts, s1, h1, h2⟩ := h
      rw [Stmt.declaredNames] at hplain
      have hclass := declareClass_begun h1 hs hid hr hsees
        (hplain name (.head _)).isIdentifier
      have hbody := declareClasses_begun body h2 hclass.seeded hclass.members
        (by rw [hclass.types, hclass.count]; exact Nat.lt_succ_self _)
        (.inr (by rw [hclass.types]; exact hs.enlarges.scopes))
        fun n hn => hplain n (.tail _ hn)
      obtain ⟨info, rfl, hat⟩ := hclass.known
      have hscopes := hbody.enlarges.scopes
      rw [hclass.count] at hscopes
      refine ⟨hbody.seeded, hclass.enlarges.trans hbody.enlarges, hclass.grows.trans hbody.grows,
        ?_,
        ⟨info, hat.mono hbody.enlarges hbody.grows hclass.seeded.scopes, hclass.types, hscopes, ?_⟩,
        trivial⟩
      · rw [hbody.count, hclass.count]
        simp only [classesIn, classesOf, List.append_nil, List.length_cons]
        omega
      · have hclasses := hbody.classes
        rwa [hclass.types, hclass.count] at hclasses
    | _ =>
      simp only [declareNested, pure_ok] at h
      obtain ⟨-, rfl⟩ := h
      exact ⟨hs, .refl _, .refl _, rfl, trivial, trivial⟩

end

end Lower

/-! ## Heads -/

theorem functionsIn_cons (a : Stmt) (items : List Stmt) :
    functionsIn (a :: items) = functionsIn [a] ++ functionsIn items := by
  simp only [functionsIn, ← List.filterMap_append, List.singleton_append]

/-- In the scope `r`, the functions among the items have parameters with a meaning, and those of one
name have parameters with different ones. -/
structure TypeTable.Distinguishes (t : TypeTable) (r : TypeScopeId) (items : List Stmt) : Prop where
  means : ∀ d ∈ functionsIn items, ∃ ids, t.meanings r (d.1.params.map Param.type) = some ids
  apart : (functionsIn items).Pairwise fun a b => a.1.name = b.1.name →
    t.meanings r (a.1.params.map Param.type) ≠ t.meanings r (b.1.params.map Param.type)

theorem TypeTable.Distinguishes.mono (h : t.Distinguishes r items) (hint : t.Interns t')
    (ht : t.Woven) : t'.Distinguishes r items where
  means d hd := by
    obtain ⟨ids, hids⟩ := h.means d hd
    exact ⟨ids, ((hint.answers ht).meanings hids).1⟩
  apart := by
    refine List.Pairwise.imp_of_mem (fun {a b} ha hb hab hname => ?_) h.apart
    obtain ⟨as, has⟩ := h.means a ha
    obtain ⟨bs, hbs⟩ := h.means b hb
    rw [((hint.answers ht).meanings has).1, ((hint.answers ht).meanings hbs).1, ← has, ← hbs]
    exact hab hname

/-- The heads among some items have been declared in the scope `j`, and the types of their
parameters in the scope `r`; the scopes of the classes inside are numbered from `next` on. -/
structure Lowering.HeadsAdded (j : ScopeId) (r : TypeScopeId) (outer : String) (next : Nat)
    (items : List Stmt) (s s' : Lowering) : Prop where
  leaves : s.Leaves s'
  sound : s'.scopes.Sound
  grows : s.scopes.Grows s'.scopes
  added : ∀ d ∈ functionsIn items, ∃ ids, s'.types.meanings r (d.1.params.map Param.type) =
    some ids ∧
    (∀ sym ∈ (s.scopes.scope j).symbols, sym.name = d.1.name → sym.params? ≠ some ids) ∧
    ∃ sym ∈ (s'.scopes.scope j).symbols, sym.name = d.1.name ∧ sym.params? = some ids
  apart : (functionsIn items).Pairwise fun a b => a.1.name = b.1.name →
    s'.types.meanings r (a.1.params.map Param.type) ≠
      s'.types.meanings r (b.1.params.map Param.type)
  inside : ∀ (i : Nat) c, (classesIn outer items)[i]? = some c →
    s'.types.Distinguishes ⟨next + i⟩ c.2

namespace Lowering.HeadsAdded

variable {j : ScopeId} {r : TypeScopeId} {outer : String} {next : Nat} {items : List Stmt}
  {s s' s'' : Lowering} {a : Stmt}

theorem distinguishes (h : HeadsAdded j r outer next items s s') : s'.types.Distinguishes r items :=
  ⟨fun d hd => by
    obtain ⟨ids, hids, -⟩ := h.added d hd
    exact ⟨ids, hids⟩, h.apart⟩

theorem plain (hfun : a.function? = none) (hclass : classesOf outer a = []) (hleaves : s.Leaves s')
    (hsound : s'.scopes.Sound) (hgrows : s.scopes.Grows s'.scopes) :
    HeadsAdded j r outer next [a] s s' where
  leaves := hleaves
  sound := hsound
  grows := hgrows
  added d hd := by simp [functionsIn, hfun] at hd
  apart := by simp [functionsIn, hfun]
  inside i c hc := by simp [classesIn, hclass] at hc

theorem nil (hsound : s.scopes.Sound) : HeadsAdded j r outer next [] s s where
  leaves := .refl s
  sound := hsound
  grows := .refl _
  added d hd := by cases hd
  apart := .nil
  inside i c hc := by cases hc

theorem cons (h : HeadsAdded j r outer next [a] s s')
    (h' : HeadsAdded j r outer (next + (classesOf outer a).length) items s' s'')
    (hw : s.types.Woven)
    (hj : s.scopes.Persistent j) : HeadsAdded j r outer next (a :: items) s s'' := by
  have hw' := h.leaves.types.woven hw
  have hanswers := h'.leaves.types.answers hw'
  have hj' := (h.grows.symbols j hj).1
  refine ⟨h.leaves.trans h'.leaves, h'.sound, h.grows.trans h'.grows, ?_, ?_, ?_⟩
  · intro d hd
    rw [functionsIn_cons] at hd
    rcases List.mem_append.mp hd with hd | hd
    · obtain ⟨ids, hids, hfresh, sym, hsym, hname, hparams⟩ := h.added d hd
      exact ⟨ids, (hanswers.meanings hids).1, hfresh, sym, h'.grows.mem hj' hsym, hname, hparams⟩
    · obtain ⟨ids, hids, hfresh, hsym⟩ := h'.added d hd
      exact ⟨ids, hids, fun sym hmem => hfresh sym (h.grows.mem hj hmem), hsym⟩
  · rw [functionsIn_cons]
    refine List.pairwise_append.mpr
      ⟨(h.distinguishes.mono h'.leaves.types hw').apart, h'.apart, fun d hd d' hd' hname => ?_⟩
    -- the second head was checked against the symbols of the first
    obtain ⟨ids, hids, -, sym, hsym, hsymname, hparams⟩ := h.added d hd
    obtain ⟨ids', hids', hfresh, -⟩ := h'.added d' hd'
    rw [(hanswers.meanings hids).1, hids']
    exact fun heq => hfresh sym hsym (hsymname.trans hname) (hparams.trans heq)
  · intro i c hc
    rw [classesIn] at hc
    rcases Nat.lt_or_ge i (classesOf outer a).length with hlt | hge
    · rw [List.getElem?_append_left hlt] at hc
      refine (h.inside i c ?_).mono h'.leaves.types hw'
      simpa only [classesIn, List.append_nil] using hc
    · rw [List.getElem?_append_right hge] at hc
      have := h'.inside _ c hc
      rwa [Nat.add_assoc, Nat.add_sub_cancel' hge] at this

/-- A class among the items, whose heads have been declared. -/
theorem ofClass {k : ScopeId} {span : Span}
    (h : HeadsAdded k ⟨next⟩ (outer ++ name ++ ".") (next + 1) items s s') :
    HeadsAdded j r outer next [.classDecl span name items] s s' where
  leaves := h.leaves
  sound := h.sound
  grows := h.grows
  added d hd := by cases hd
  apart := .nil
  inside i c hc := by
    simp only [classesIn, classesOf, List.append_nil] at hc
    cases i with
    | zero =>
      cases hc
      exact h.distinguishes
    | succ i =>
      have := h.inside i c hc
      rwa [Nat.add_assoc, Nat.add_comm 1] at this

end Lowering.HeadsAdded

namespace Lower

variable {r : TypeScopeId} {next : Nat} {span : Span} {u : Unit} {s s' : Lowering}

/-- Declaring a head makes sure that no head of the same name has the same parameters. -/
theorem head_added {j : ScopeId} {outer : String} {code : List Stmt} {params : List TypeId}
    {result : TypeId} {c : Constant} {index : UInt16} {sym : Symbol} {s1 s2 : Lowering}
    (h1 : resolveHead r span head s = .ok (params, result) s1) (h2 : constant c s1 = .ok index s2)
    (h3 : onScopes span (·.insertCallable j sym) s2 = .ok u s') (hw : s.types.Woven)
    (hs : s.scopes.Sound)
    (hj : s.scopes.Persistent j) (hname : sym.name = head.name)
    (hparams : sym.params? = some params)
    (hfun : sym.isFunction = true → j = .top) :
    Lowering.HeadsAdded j r outer next [.function span head code] s s' := by
  have hscopes1 : s1.scopes = s.scopes := by rw [retypes h1]
  have hleaves1 := Frames.leaves h1 hw
  have hw1 := hleaves1.types.woven hw
  have hleaves2 := Frames.leaves h2 hw1
  have hleaves3 := Frames.leaves h3 (hleaves2.types.woven hw1)
  have hscopes2 : s2.scopes = s1.scopes := by
    obtain ⟨_, -, rfl⟩ := constant_add h2
    rfl
  obtain ⟨t, hin, rfl⟩ := onScopes_ok h3
  obtain ⟨rfl, hclash⟩ := ScopeTable.insertCallable_ok hin
  rw [hscopes2, hscopes1] at hclash
  have hmeans := ((hleaves2.trans hleaves3).types.answers hw1).meanings (resolveHead_means h1 hw)
  have hclass : sym.class? = none := by
    obtain ⟨_, _, role⟩ := sym
    cases role <;> simp_all [Symbol.params?, Symbol.class?]
  refine {
    leaves := hleaves1.trans (hleaves2.trans hleaves3)
    sound := ?_
    grows := ?_
    added := ?_
    apart := List.pairwise_singleton _ _
    inside := fun i c hc => by simp [classesIn, classesOf] at hc }
  · rw [hscopes2, hscopes1]
    exact hs.declare (fun parts hparts => by rw [hclass] at hparts; cases hparts) hfun
  · rw [hscopes2, hscopes1]
    exact ScopeTable.grows_declare
  · intro d hd
    obtain rfl := List.mem_singleton.mp hd
    refine ⟨params, hmeans.1, fun other hother heq hsame => ?_, sym, ?_, hname, hparams⟩
    · rw [hparams, Option.getD_some] at hclash
      obtain ⟨_, hother', hne⟩ := ScopeTable.clash?_eq_none.mp hclash other hother
        (heq.trans hname.symm)
      exact hne (Option.some.inj (hother'.symm.trans hsame))
    · rw [hscopes2, hscopes1]
      exact ScopeTable.mem_declare hj.1

theorem classNamed_found {info found : ClassInfo} (h : classNamed r span name s = .ok info s')
    (hw : s.types.Woven) (hr : r.index < s.types.scopes.size) (hat : s.ClassAt r name found) :
    s' = s ∧ info = found := by
  obtain ⟨hbound, hred, hinfo⟩ := hat
  have hresolve : s.types.resolve found.type = found.type :=
    TypeTable.Settles.resolve ⟨.refl _, hred⟩
  have hclass : classOfType? found.type s =
    .ok (s.scopes.classInfo? (s.types.resolve found.type)) s :=
    rfl
  rw [hresolve, hinfo] at hclass
  rw [classNamed, get_bind] at h
  simp only [hw.lookup_of_here hr hbound, bind_ok, hclass] at h
  obtain ⟨_, _, hok, h⟩ := h
  cases hok
  obtain ⟨rfl, rfl⟩ := pure_ok.mp h
  exact ⟨rfl, rfl⟩

/-- What declaring the parts of a class starts from. -/
structure Begins (info : ClassInfo) (outer : String) (next : Nat) (items : List Stmt)
    (s : Lowering) : Prop where
  woven : s.types.Woven
  sound : s.scopes.Sound
  known : s.scopes.classInfo? info.type = some info
  inRange : info.scopes.types.index < s.types.scopes.size
  classes : s.Classes info.scopes.types outer next items

mutual

theorem declareMember_added :
    ∀ (a : Stmt) {info : ClassInfo} {outer : String} {next : Nat} {u : Unit}
    {s s' : Lowering}, declareMember info a s = .ok u s' → Begins info outer next [a] s →
      Lowering.HeadsAdded info.scopes.methods info.scopes.types outer next [a] s s'
  | a, info, outer, next, u, s, s', h, hs => by
    obtain ⟨hmembers, hmethods⟩ := hs.sound.classInfo?_parts hs.known
    cases a with
    | var span name term init =>
      simp only [declareMember, bind_ok, pure_ok] at h
      obtain ⟨type, s1, h1, slot, s2, h2, -, rfl⟩ := h
      have hscopes : s1.scopes = s.scopes := by rw [retypes h1]
      have hleaves := Frames.leaves h1 hs.woven
      obtain ⟨t, hin, rfl⟩ := onScopes_ok h2
      rw [hscopes] at hin
      have hdecl := ScopeTable.insertVariable_ok hs.sound hmembers.1 hin
      exact .plain rfl rfl (hleaves.trans (.of_eq rfl rfl rfl)) hdecl.sound hdecl.framed.grows
    | function span head code =>
      simp only [declareMember, declareMethod, methodName, mangle, bind_ok, get_bind, pure_ok] at h
      obtain ⟨⟨params, result⟩, s1, h1, _, _, ⟨-, rfl⟩, index, s3, h3, h4⟩ := h
      exact head_added h1 h3 h4 hs.woven hs.sound hmethods rfl rfl (by rintro ⟨⟩)
    | classDecl span name body =>
      simp only [declareMember, bind_ok] at h
      obtain ⟨found, s1, h1, h2⟩ := h
      obtain ⟨⟨inner, hat, htypes, hlt, hbody⟩, -⟩ := hs.classes
      obtain ⟨rfl, rfl⟩ := classNamed_found h1 hs.woven hs.inRange hat
      have hadded := declareMembers_added body h2
        ⟨hs.woven, hs.sound, hat.2.2, htypes ▸ hlt, by rw [htypes]; exact hbody⟩
      rw [htypes] at hadded
      exact hadded.ofClass
    | _ => simp [declareMember] at h

theorem declareMembers_added :
    ∀ (items : List Stmt) {info : ClassInfo} {outer : String} {next : Nat}
    {u : Unit} {s s' : Lowering}, declareMembers info items s = .ok u s' →
      Begins info outer next items s →
      Lowering.HeadsAdded info.scopes.methods info.scopes.types outer next items s s'
  | [], info, outer, next, u, s, s', h, hs => by
    simp only [declareMembers, pure_ok] at h
    obtain ⟨-, rfl⟩ := h
    exact .nil hs.sound
  | a :: rest, info, outer, next, u, s, s', h, hs => by
    simp only [declareMembers, bind_ok] at h
    obtain ⟨_, s1, h1, h2⟩ := h
    have ha := declareMember_added a h1 ⟨hs.woven, hs.sound, hs.known, hs.inRange, hs.classes.1,
      trivial⟩
    have henl := ha.leaves.types.enlarges
    have hrest := declareMembers_added rest h2 ⟨ha.leaves.types.woven hs.woven, ha.sound,
      ha.grows.classInfo? hs.sound hs.known, hs.inRange.trans_le henl.scopes,
      hs.classes.2.mono henl ha.grows hs.sound⟩
    exact ha.cons hrest hs.woven (hs.sound.classInfo?_parts hs.known).2

end

theorem declareItem_added {a : Stmt} (h : declareItem a s = .ok u s') (hw : s.types.Woven)
    (hs : s.scopes.Sound) (hclass : s.ClassItem .top "" next a) :
    Lowering.HeadsAdded .top .top "" next [a] s s' := by
  cases a with
  | function span head code =>
    simp only [declareItem, declareFunction, mangle, bind_ok, get_bind, pure_ok] at h
    obtain ⟨⟨params, result⟩, s1, h1, _, _, ⟨-, rfl⟩, index, s3, h3, h4⟩ := h
    exact head_added h1 h3 h4 hw hs hs.persistent_top rfl rfl fun _ => rfl
  | classDecl span name body =>
    simp only [declareItem, bind_ok] at h
    obtain ⟨found, s1, h1, h2⟩ := h
    obtain ⟨inner, hat, htypes, hlt, hbody⟩ := hclass
    obtain ⟨rfl, rfl⟩ := classNamed_found h1 hw hw.top hat
    have hadded := declareMembers_added body h2
      ⟨hw, hs, hat.2.2, htypes ▸ hlt, by rw [htypes]; exact hbody⟩
    rw [htypes] at hadded
    exact hadded.ofClass
  | _ =>
    simp only [declareItem, pure_ok] at h
    obtain ⟨-, rfl⟩ := h
    exact .plain rfl rfl (.refl _) hs (.refl _)

theorem declareItems_added {u : PUnit} (h : items.forM declareItem s = .ok u s')
    (hw : s.types.Woven) (hs : s.scopes.Sound) (hclasses : s.Classes .top "" next items) :
    Lowering.HeadsAdded .top .top "" next items s s' := by
  induction items generalizing next s with
  | nil =>
    obtain ⟨-, rfl⟩ := pure_ok.mp h
    exact .nil hs
  | cons a rest ih =>
    simp only [List.forM_eq_forM, List.forM_cons, bind_ok] at h
    obtain ⟨_, s1, h1, h2⟩ := h
    have ha := declareItem_added h1 hw hs hclasses.1
    have hrest := ih h2 (ha.leaves.types.woven hw) ha.sound
      (hclasses.2.mono ha.leaves.types.enlarges ha.grows hs)
    exact ha.cons hrest hw hs.persistent_top

end Lower

/-! ## Finished functions -/

/-- The name under which a function is kept. -/
def TypeTable.FullName (t : TypeTable) (head : FunctionHead) (key : String) : Prop :=
  ∃ ids, t.meanings .top (head.params.map Param.type) = some ids ∧
  key = head.name ++ t.signature ids

theorem TypeTable.Interns.signature (h : Interns t t') (ht : t.Woven)
    (hids : ∀ id ∈ ids, id.index < t.size) : t'.signature ids = t.signature ids := by
  have hnames :
      ids.map (fun p => t'.name (t'.resolve p)) = ids.map fun p => t.name (t.resolve p) := by
    refine List.map_congr_left fun id hid => ?_
    rw [h.enlarges.resolve ht (hids id hid), h.enlarges.toLater.name (ht.resolve (hids id hid)).1]
  simp only [TypeTable.signature, hnames]

/-- A function is kept under a full name of its own, for which there is a constant. -/
structure Kept (t : TypeTable) (functions : Std.TreeMap String Routine) (constants : Array Constant)
    (head : FunctionHead) (key : String) (c : UInt16) : Prop where
  named : t.FullName head key
  found : ∃ r, functions[key]? = some r ∧ r.constant = some c ∧
    t.meanings .top (head.params.map Param.type) = some r.params
  constant : constants[c.toNat]? = some (.function key)

/-- Items have been compiled, and the functions among them have been put under their full names. -/
structure Lowering.Finishes (items : List Stmt) (s s' : Lowering) : Prop where
  interns : s.types.Interns s'.types
  pool : s'.pool.Sound ∧ s.pool.Grows s'.pool
  others : ∀ key, (∀ d ∈ functionsIn items, ¬ s'.types.FullName d.1 key) →
    s'.functions[key]? = s.functions[key]?
  kept : (functionsIn items).Pairwise (fun a b => ∀ key, s'.types.FullName a.1 key →
      ¬ s'.types.FullName b.1 key) →
    ∀ d ∈ functionsIn items, ∃ key c, Kept s'.types s'.functions s'.pool.entries d.1 key c

theorem TypeTable.FullName.mono (h : t.FullName head key) (hint : t.Interns t') (ht : t.Woven) :
    t'.FullName head key := by
  obtain ⟨ids, hids, rfl⟩ := h
  obtain ⟨hids', hlt⟩ := (hint.answers ht).meanings hids
  exact ⟨ids, hids', by rw [hint.signature ht hlt]⟩

namespace Lowering.Finishes

variable {items : List Stmt} {s s' s'' : Lowering} {a : Stmt}

theorem plain (hfun : a.function? = none) (h : s.Leaves s') (hp : s.pool.Sound) :
    Finishes [a] s s' where
  interns := h.types
  pool := h.pool hp
  others _ _ := by rw [h.functions]
  kept _ d hd := by simp [functionsIn, hfun] at hd

theorem cons (h : Finishes [a] s s') (h' : Finishes items s' s'') (hw : s.types.Woven) :
    Finishes (a :: items) s s'' := by
  have hw' := h.interns.woven hw
  refine {
    interns := h.interns.trans h'.interns
    pool := ⟨h'.pool.1, fun i c hi => h'.pool.2 i c (h.pool.2 i c hi)⟩
    others := fun key hkey => ?_
    kept := fun hapart d hd => ?_ }
  · rw [functionsIn_cons] at hkey
    rw [h'.others key fun d hd => hkey d (List.mem_append_right _ hd)]
    exact h.others key fun d hd hname =>
      hkey d (List.mem_append_left _ hd) (hname.mono h'.interns hw')
  · rw [functionsIn_cons] at hd hapart
    obtain ⟨hleft, hright, hcross⟩ := List.pairwise_append.mp hapart
    rcases List.mem_append.mp hd with hd | hd
    · obtain ⟨key, c, hkept⟩ := h.kept (hleft.imp fun hab key ha hb =>
        hab key (ha.mono h'.interns hw') (hb.mono h'.interns hw')) d hd
      obtain ⟨r, hr, hconstant, hmeans⟩ := hkept.found
      have hname := hkept.named.mono h'.interns hw'
      -- the functions that follow have other full names, so this one stays
      refine ⟨key, c, hname, ⟨r, ?_, hconstant, ((h'.interns.answers hw').meanings hmeans).1⟩,
        h'.pool.2 _ _ hkept.constant⟩
      rw [h'.others key fun d' hd' => hcross d hd d' hd' key hname, hr]
    · exact h'.kept hright d hd

end Lowering.Finishes

namespace Lower

variable {options : CompileOptions} {span : Span} {head : FunctionHead} {code : List Stmt}
  {s s' : Lowering}

theorem body_params {role : SiteRole} {parent : ScopeId} {index : UInt16} {rt : Routine}
    (h : body options span role parent r head name index code s = .ok rt s') (hw : s.types.Woven) :
    rt.constant = some index ∧ ∃ declared, rt.params = role.class?.toList ++ declared ∧
      s'.types.meanings r (head.params.map Param.type) = some declared := by
  simp only [body, bind_ok] at h
  obtain ⟨⟨declared, result⟩, s1, h1, h⟩ := h
  have hw1 := (Frames.leaves h1 hw).types.woven hw
  have hmeans := ((Frames.leaves h hw1).types.answers hw1).meanings (resolveHead_means h1 hw)
  simp only [routine, bodyCode, bind_ok] at h
  obtain ⟨_, _, -, _, _, -, _, _, -, params, _,
    ⟨_, _, -, _, _, -, _, _, -, _, _, -, _, _, -, hparams⟩, _, _, -, _, _, -, _, _, -, h⟩ := h
  obtain ⟨_, _, -, -, rfl⟩ := finish_ok h
  refine ⟨rfl, declared, ?_, hmeans.1⟩
  simp only [ite_ok, bind_ok, pure_ok] at hparams
  rcases hparams with ⟨-, _, _, -, rfl, -⟩ | ⟨-, rfl, -⟩ <;> rfl

theorem function_finishes {u : Unit} (h : function options span head code s = .ok u s')
    (hw : s.types.Woven)
    (hp : s.pool.Sound) : Lowering.Finishes [.function span head code] s s' := by
  simp only [function, mangle, bind_ok, get_bind, pure_ok, modify_ok] at h
  obtain ⟨⟨params, _⟩, s1, h1, key, _, ⟨hkey, rfl⟩, index, s2, h2, rt, s3, h3, rfl⟩ := h
  have hleaves1 := Frames.leaves h1 hw
  have hw1 := hleaves1.types.woven hw
  obtain ⟨hp1, hgrows1⟩ := hleaves1.pool hp
  obtain ⟨hs2, hp2, hgrows2, hindex⟩ := constant_step h2 hp1
  have hleaves2 := Frames.leaves h2 hw1
  have hw2 := hleaves2.types.woven hw1
  have hleaves3 := Frames.leaves h3 hw2
  obtain ⟨hp3, hgrows3⟩ := hleaves3.pool hp2
  have hint := (hleaves2.trans hleaves3).types
  obtain ⟨hmeans, hlt⟩ := (hint.answers hw1).meanings (resolveHead_means h1 hw)
  obtain ⟨hconstant, declared, hparams, hdeclared⟩ := body_params h3 hw2
  obtain rfl := Option.some.inj (hdeclared.symm.trans hmeans)
  have hname : s3.types.FullName head key :=
    ⟨declared, hmeans, by rw [hint.signature hw1 hlt, hkey]⟩
  refine {
    interns := (hleaves1.trans (hleaves2.trans hleaves3)).types
    pool := ⟨hp3, fun i c hi => hgrows3 i c (hgrows2 i c (hgrows1 i c hi))⟩
    others := fun other hother => ?_
    kept := fun _ d hd => ?_ }
  · rw [getElem?_insert_string, if_neg, hleaves3.functions, hleaves2.functions, hleaves1.functions]
    rintro rfl
    exact hother _ (.head _) hname
  · obtain rfl := List.mem_singleton.mp hd
    refine ⟨key, index, hname, ⟨rt, ?_, hconstant, ?_⟩, hgrows3 _ _ hindex⟩
    · rw [getElem?_insert_string, if_pos rfl]
    · rw [hparams]
      exact hmeans

theorem items_finish {u : PUnit} (h : items.forM (item options) s = .ok u s') (hw : s.types.Woven)
    (hp : s.pool.Sound) : Lowering.Finishes items s s' := by
  induction items generalizing s with
  | nil =>
    obtain ⟨-, rfl⟩ := pure_ok.mp h
    exact ⟨.refl, ⟨hp, fun _ _ => id⟩, fun _ _ => rfl, nofun⟩
  | cons a rest ih =>
    simp only [List.forM_eq_forM, List.forM_cons, bind_ok] at h
    obtain ⟨_, s1, h1, h2⟩ := h
    have ha : Lowering.Finishes [a] s s1 := by
      cases hfun : a.function? with
      | none => exact .plain hfun ((item_frames hfun).leaves h1 hw) hp
      | some d =>
        cases a <;> cases hfun
        exact function_finishes h1 hw hp
    exact ha.cons (ih h2 (ha.interns.woven hw) ha.pool.1) hw

end Lower

/-! ## Scripts -/

theorem Lowering.seeded_start (hseed : seed.Built IsPlain) (journal : Journal) :
    Lowering.Seeded seed { types := seed, journal } where
  woven := hseed.woven fun _ => IsPlain.isIdentifier
  enlarges := .refl seed
  sees r hr q hq := by
    rcases hr with rfl | hge
    · rw [hseed.path_top fun _ => IsPlain.isIdentifier] at hq
      exact .inl (List.mem_singleton.mp hq)
    · rw [TypeTable.scope_eq_default hge] at hq
      cases hq
  pool := Pool.Builder.empty_sound
  scopes := ScopeTable.empty_sound
  registered _ _ hl := by cases hl

/-- In the scope `r`, the functions among the items have parameters with a meaning, and no two of
one name have parameters that mean the same. -/
structure TypeTable.Separates (t : TypeTable) (r : TypeScopeId) (items : List Stmt) : Prop where
  means : ∀ d ∈ functionsIn items, ∃ ids, t.meanings r (d.1.params.map Param.type) = some ids
  apart : (functionsIn items).Pairwise fun a b => a.1.name = b.1.name → ∀ as bs,
    t.meanings r (a.1.params.map Param.type) = some as →
    t.meanings r (b.1.params.map Param.type) = some bs →
    ¬ List.Forall₂ (fun x y => t.same x y = true) as bs

theorem TypeTable.mem_meanings {params : List Param}
    (h : t.meanings r (params.map Param.type) = some ids)
    (hid : id ∈ ids) : ∃ p ∈ params, t.meaning r p.type = some id := by
  induction params generalizing ids with
  | nil =>
    simp only [List.map_nil, TypeTable.meanings, Option.some.injEq] at h
    subst h
    cases hid
  | cons p params ih =>
    simp only [List.map_cons, TypeTable.meanings, Option.bind_eq_bind, Option.bind_eq_some_iff] at h
    obtain ⟨a, ha, as, has, h⟩ := h
    cases h
    rcases hid with _ | ⟨_, hid⟩
    · exact ⟨p, .head _, ha⟩
    · obtain ⟨q, hq, hmeans⟩ := ih has hid
      exact ⟨q, .tail _ hq, hmeans⟩

/-- No parameter of functions that share a name is declared with a typedef. -/
def TypeTable.Unaliased (t : TypeTable) (items : List Stmt) : Prop :=
  (functionsIn items).Pairwise fun a b => a.1.name = b.1.name →
    ∀ p ∈ a.1.params ++ b.1.params, p.isAlias t = false

instance (t : TypeTable) (items : List Stmt) : Decidable (t.Unaliased items) :=
  inferInstanceAs (Decidable (List.Pairwise _ _))

/-- A table in which a script has been compiled. -/
structure TypeTable.Grown (seed t : TypeTable) : Prop where
  start : seed.Woven
  woven : t.Woven
  enlarges : seed.Enlarges t
  sees : ∀ r, seed.Sees r → ∀ q ∈ (t.scope r).path, seed.Sees q

namespace TypeTable.Grown

variable {seed t : TypeTable} (h : seed.Grown t) {r : TypeScopeId} (hr : seed.Sees r)

include h hr

/-- Parameters that are not declared with typedefs have types that stand for themselves. -/
theorem resolve_params {params : List Param} (hparams : ∀ p ∈ params, p.isAlias seed = false)
    (hids : t.meanings r (params.map Param.type) = some ids) : ∀ id ∈ ids, t.resolve id = id := by
  intro id hid
  obtain ⟨p, hp, hmeans⟩ := mem_meanings hids hid
  exact Settles.resolve ⟨.refl id,
    p.redirect_none h.start h.woven h.enlarges (h.sees r hr) (hparams p hp) hmeans⟩

theorem separates (hd : t.Distinguishes r items) (hparams : seed.Unaliased items) :
    t.Separates r items where
  means := hd.means
  apart := by
    refine hparams.imp₂ (fun {a b} hplain hab hname as bs has hbs hsame => ?_) hd.apart
    obtain ⟨ha, hb⟩ := List.forall_mem_append.mp (hplain hname)
    have hmap := forall₂_same_iff.mp hsame
    rw [List.map_congr_left (h.resolve_params hr ha has),
      List.map_congr_left (h.resolve_params hr hb hbs), List.map_id', List.map_id'] at hmap
    exact hab hname (by rw [has, hbs, hmap])

end TypeTable.Grown

/-- Functions of one script have different full names. -/
theorem TypeTable.Grown.fullNames (h : seed.Grown t) (hd : t.Distinguishes .top items)
    (hplain : PlainNames items) (hparams : seed.Unaliased items) :
    (functionsIn items).Pairwise fun a b => ∀ key, t.FullName a.1 key → ¬ t.FullName b.1 key := by
  have hplain : ∀ d ∈ functionsIn items, '(' ∉ d.1.name.toList := by
    intro d hmem
    obtain ⟨span, hmem⟩ := mem_functionsIn.mp hmem
    exact (hplain.head hmem).not_mem (by decide)
  have hanswers := (Interns.refl (t := t)).answers h.woven
  refine List.Pairwise.imp_of_mem (fun {a b} ha hb hab key hkey hkey' => ?_) (hparams.and hd.apart)
  obtain ⟨as, has, rfl⟩ := hkey
  obtain ⟨bs, hbs, heq⟩ := hkey'
  have hwords : ∀ {ids : List TypeId}, (∀ id ∈ ids, id.index < t.size) →
      ∀ id ∈ ids, IsWord (t.name (t.resolve id)) :=
    fun hlt id hid => h.woven.name_isWord (h.woven.resolve (hlt id hid)).1
  obtain ⟨hname, hnames⟩ := mangled_inj (hplain a ha) (hplain b hb)
    (hwords (hanswers.meanings has).2) (hwords (hanswers.meanings hbs).2) heq
  obtain ⟨hpa, hpb⟩ := List.forall_mem_append.mp (hab.1 hname)
  rw [List.map_congr_left fun id hid => congrArg t.name
    (h.resolve_params (.inl rfl) hpa has id hid),
    List.map_congr_left fun id hid => congrArg t.name (h.resolve_params (.inl rfl) hpb hbs id hid)]
    at hnames
  exact hab.2 hname (by rw [has, hbs, h.woven.meanings_inj has hbs hnames])

/-- What has become of the declarations of a script when it is compiled. -/
theorem Lower.script_finishes {options : CompileOptions} {journal : Journal} {image : Image}
    (hseed : seed.Built IsPlain) (hplain : PlainNames items)
    (h : (Script.compile ⟨items⟩ options seed journal).1 = .ok image) :
    seed.Grown image.types ∧ image.types.Distinguishes .top items ∧
    (∀ (i : Nat) c, (classesIn "" items)[i]? = some c →
      image.types.Distinguishes ⟨seed.scopes.size + i⟩ c.2) ∧
    ((functionsIn items).Pairwise (fun a b => ∀ key, image.types.FullName a.1 key →
        ¬ image.types.FullName b.1 key) →
      ∀ d ∈ functionsIn items, ∃ key c,
        Kept image.types image.functions image.pool.entries d.1 key c) := by
  obtain ⟨s0, s1, s2, s3, hstages⟩ := Script.compile_stages h
  obtain ⟨journal, rfl⟩ := hstages.start
  rw [hstages.types_eq, hstages.functions_eq, hstages.pool_eq]
  have hstart := Lowering.seeded_start hseed journal
  have hbegun := declareClasses_begun items hstages.classes hstart
    ScopeTable.empty_sound.persistent_top hstart.woven.top (.inl rfl) hplain
  have hadded := declareItems_added hstages.heads hbegun.seeded.woven hbegun.seeded.scopes
    hbegun.classes
  have hw2 := hadded.leaves.types.woven hbegun.seeded.woven
  have hfin := items_finish hstages.items hw2 (hadded.leaves.pool hbegun.seeded.pool).1
  have hint := hadded.leaves.types.trans hfin.interns
  refine ⟨⟨hstart.woven, hint.woven hbegun.seeded.woven, hbegun.seeded.enlarges.trans hint.enlarges,
    fun r hr q hq => ?_⟩, hadded.distinguishes.mono hfin.interns hw2,
    fun i c hc => (hadded.inside i c hc).mono hfin.interns hw2, hfin.kept⟩
  have hpath := hint.path r
  exact hbegun.seeded.sees r hr q (hpath ▸ hq)

/-- No declaration of a script is lost if no parameter of overloads is declared with a typedef.
Neither at the top level nor in a class, whose scope of types is the next one when its turn comes,
do two functions of one name have parameters of the same types; and every function has a full name
and a constant of its own. -/
theorem compile_separates {items : List Stmt} {options : CompileOptions} {seed : TypeTable}
    {journal : Journal} {image : Image} (hseed : seed.Built IsPlain) (hplain : PlainNames items)
    (hparams : seed.Unaliased items) (hmethods : ∀ c ∈ classesIn "" items, seed.Unaliased c.2)
    (h : (Script.compile ⟨items⟩ options seed journal).1 = .ok image) :
    image.types.Separates .top items ∧
    (∀ (i : Nat) c, (classesIn "" items)[i]? = some c →
      image.types.Separates ⟨seed.scopes.size + i⟩ c.2) ∧
    ∃ (key : FunctionHead × List Stmt → String) (constant : FunctionHead × List Stmt → UInt16),
      (∀ d ∈ functionsIn items,
        Kept image.types image.functions image.pool.entries d.1 (key d) (constant d)) ∧
      ((functionsIn items).map key).Nodup ∧ ((functionsIn items).map constant).Nodup := by
  obtain ⟨hgrown, htop, hinside, hfin⟩ := Lower.script_finishes hseed hplain h
  refine ⟨hgrown.separates (.inl rfl) htop hparams, fun i c hc => ?_, ?_⟩
  · exact hgrown.separates (.inr (Nat.le_add_right _ _)) (hinside i c hc)
      (hmethods c (List.mem_of_getElem? hc))
  · have hnames := hgrown.fullNames htop hplain hparams
    choose! key constant hkept using hfin hnames
    have hapart : (functionsIn items).Pairwise fun a b => key a ≠ key b :=
      List.Pairwise.imp_of_mem (fun ha hb hab heq =>
        hab _ (hkept _ ha).named (heq ▸ (hkept _ hb).named)) hnames
    refine ⟨key, constant, hkept, List.pairwise_map.mpr hapart, List.pairwise_map.mpr ?_⟩
    refine List.Pairwise.imp_of_mem (fun {a b} ha hb hab heq => hab ?_) hapart
    have hconstant := (hkept a ha).constant
    rw [heq, (hkept b hb).constant] at hconstant
    exact (Constant.function.inj (Option.some.inj hconstant)).symm

/-- The type `double` under the name `meters`. -/
def metric : TypeTable :=
  (TypeTable.primitives.push
    { name := "meters", kind := .typedef, redirect := some .double, complete := true, scope :=
      .top }).2

theorem metric_built : metric.Built IsPlain :=
  .insert .primitives (by decide) (by decide) (fun _ hr => by cases hr; decide)
    (rfl : TypeTable.primitives.insert .top "meters" .typedef (some .double) = (.ok ⟨5⟩, metric))

open Build in
/-- Functions of one name, and methods of one name, with the typedef inside of a type only; and
functions of other names with parameters of the typedef. -/
def distances : List Stmt :=
  [function "add" [("double", "d")] "void" [],
    .function default ⟨"add", [⟨"d", arrayOf "meters"⟩], .named "void"⟩ [],
    function "scale" [("meters", "d")] "void" [],
    classDecl "Path" [function "go" [("meters", "d")] "void" [],
      function "add" [("int", "n")] "void" [], function "add" [("Path", "p")] "void" []]]

theorem compile_separates_distances :
    metric.Built IsPlain ∧ PlainNames distances ∧
    metric.Unaliased distances ∧ (∀ c ∈ classesIn "" distances, metric.Unaliased c.2) ∧
    ∃ image, (Script.compile ⟨distances⟩ {} metric).1 = .ok image ∧
      image.types.Separates .top distances ∧
      ∃ key : FunctionHead × List Stmt → String, ((functionsIn distances).map key).Nodup ∧
        ∀ d ∈ functionsIn distances, (image.functions[key d]?).isSome := by
  have hplain : PlainNames distances := by decide
  have hparams : metric.Unaliased distances := by decide +kernel
  have hmethods : ∀ c ∈ classesIn "" distances, metric.Unaliased c.2 := by decide +kernel
  have hok : ((Script.compile ⟨distances⟩ {} metric).1).toOption.any (fun _ => true) = true := by
    decide +kernel
  obtain ⟨image, himage, -⟩ := exists_of_any hok
  obtain ⟨htop, -, key, constant, hkept, hkeys, -⟩ :=
    compile_separates metric_built hplain hparams hmethods himage
  refine ⟨metric_built, hplain, hparams, hmethods, image, himage, htop, key, hkeys, fun d hd => ?_⟩
  obtain ⟨r, hr, -⟩ := (hkept d hd).found
  exact hr ▸ rfl

open Build in
/-- Two functions whose parameters are of the same type under two names. -/
def measures : List Stmt :=
  [function "f" [("meters", "a")] "void" [], function "f" [("double", "a")] "void" []]

/-- Both functions are accepted, and one of them is lost. -/
theorem compile_loses_overload :
    metric.Built IsPlain ∧ PlainNames measures ∧ (functionsIn measures).length = 2 ∧
    ∃ image, (Script.compile ⟨measures⟩ {} metric).1 = .ok image ∧
      ¬ image.types.Separates .top measures ∧ image.functions.size = 1 := by
  have hplain : PlainNames measures := by decide
  have hok : ((Script.compile ⟨measures⟩ {} metric).1).toOption.any (fun image =>
      image.types.meanings .top [.named "meters"] = some [⟨5⟩] ∧
      image.types.meanings .top [.named "double"] = some [.double] ∧
      image.types.same ⟨5⟩ .double ∧ image.functions.size = 1) = true := by decide +kernel
  obtain ⟨image, himage, hok⟩ := exists_of_any hok
  obtain ⟨hmeters, hdouble, hsame, hsize⟩ := of_decide_eq_true hok
  refine ⟨metric_built, hplain, rfl, image, himage, fun hsep => ?_, hsize⟩
  have hapart := List.rel_of_pairwise_cons hsep.apart (.head _)
  exact hapart rfl _ _ hmeters hdouble (.cons hsame .nil)

end Bytescript
