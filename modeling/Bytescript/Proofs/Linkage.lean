import Mathlib.Data.List.Nodup
import Mathlib.Tactic.Choose
import Bytescript.Proofs.CallSites
import Bytescript.Proofs.Linking

/-!
# Faithful linking

The functions, methods and constructors that a script declares (`callables`) have constants of their
own, and a loaded program finds under each the routine that was compiled from that very declaration.
Under the constant of a class is the layout of its members. Each call in compiled code goes to the
declaration that the rules of resolution pick for the expression it was compiled from
(`Tables.Calls`): functions before methods of the receiver, by the number of arguments and then by
their types.

All of this is one statement about compiled scripts, `compile_faithful`.
-/

namespace Bytescript

open Lower (ClassInfo Candidate constructorName)

/-! ## What a script declares -/

def Stmt.function? : Stmt → Option (FunctionHead × List Stmt)
  | .function _ head code => some (head, code)
  | _ => none

/-- The functions among the items. -/
def functionsIn (items : List Stmt) : List (FunctionHead × List Stmt) :=
  items.filterMap Stmt.function?

mutual

/-- The classes among the items and inside of them, each with its qualified name and its body. -/
def classesIn (outer : String) : List Stmt → List (String × List Stmt)
  | [] => []
  | s :: rest => classesOf outer s ++ classesIn outer rest

def classesOf (outer : String) : Stmt → List (String × List Stmt)
  | .classDecl _ name body => (outer ++ name, body) :: classesIn (outer ++ name ++ ".") body
  | _ => []

end

/-- The routines of a class. -/
def routinesOf (owner : String) (body : List Stmt) : List Callable :=
  .constructor owner body :: (functionsIn body).map fun f => .method owner f.1 f.2

/-- Everything in a script that becomes a routine. -/
def callables (items : List Stmt) : List Callable :=
  (functionsIn items).map (fun f => .function f.1 f.2) ++
    (classesIn "" items).flatMap fun c => routinesOf c.1 c.2

/-- How many values a call takes off the stack: the arguments, and the receiver if there is one. -/
def Callable.arity : Callable → Nat
  | .function head _ => head.params.length
  | .method _ head _ => head.params.length + 1
  | .constructor _ _ => 1

/-- The class that a routine belongs to. -/
def Callable.owner? : Callable → Option String
  | .function .. => none
  | .method owner .. | .constructor owner _ => some owner

variable {items : List Stmt} {T : Tables} {r : TypeScopeId} {d : Callable}

theorem mem_functionsIn {head : FunctionHead} {code : List Stmt} :
    (head, code) ∈ functionsIn items ↔ ∃ span, .function span head code ∈ items := by
  simp only [functionsIn, List.mem_filterMap]
  constructor
  · rintro ⟨s, hs, hf⟩
    cases s <;> cases hf
    exact ⟨_, hs⟩
  · rintro ⟨span, hs⟩
    exact ⟨_, hs, rfl⟩

theorem functionsIn_nodup (h : T.HeadsDistinct r items)
    (hmeans : ∀ span head code, .function span head code ∈ items → ∃ params result,
      T.types.HeadMeans r head params result) : (functionsIn items).Nodup := by
  have hpairs : items.Pairwise fun a b => ∀ f, a.function? = some f → b.function? ≠ some f := by
    refine List.Pairwise.imp_of_mem (fun {a b} ha _ hab f hf hf' => ?_) h
    cases a <;> cases hf
    cases b <;> cases hf'
    obtain ⟨params, result, hm⟩ := hmeans _ _ _ ha
    exact hab _ _ _ _ _ _ _ _ _ rfl rfl hm hm rfl
  refine hpairs.filterMap _ fun a b hab f hf f' hf' heq => ?_
  subst heq
  exact hab f hf hf'

section

variable {T : Tables}

mutual

theorem Tables.Declared.hasClass {q : String} {body : List Stmt} :
    ∀ {r : TypeScopeId} {outer : String} {items : List Stmt}, T.Declared r outer items →
      (q, body) ∈ classesIn outer items →
      ∃ name info, T.HasClass r outer items name info body ∧ info.scopes.qualified = q
  | _, _, [], _, hmem => by cases hmem
  | _, _, s :: rest, h, hmem => by
    obtain ⟨hitem, -, hrest⟩ := h
    rw [classesIn] at hmem
    rcases List.mem_append.mp hmem with hmem | hmem
    · obtain ⟨name, info, hclass, hq⟩ := Tables.ItemDeclared.hasClass hitem hmem
      exact ⟨name, info, hclass.mono fun a ha =>
        List.mem_cons.mpr (.inl (List.mem_singleton.mp ha)), hq⟩
    · obtain ⟨name, info, hclass, hq⟩ := Tables.Declared.hasClass hrest hmem
      exact ⟨name, info, hclass.mono fun a ha => .tail _ ha, hq⟩

theorem Tables.ItemDeclared.hasClass {q : String} {body : List Stmt} :
    ∀ {r : TypeScopeId} {outer : String} {s : Stmt}, T.ItemDeclared r outer s →
      (q, body) ∈ classesOf outer s →
      ∃ name info, T.HasClass r outer [s] name info body ∧ info.scopes.qualified = q
  | _, _, .classDecl span name inner, h, hmem => by
    obtain ⟨info, hat, hinner⟩ := h
    rw [classesOf] at hmem
    rcases List.mem_cons.mp hmem with heq | hmem
    · cases heq
      exact ⟨name, info, .here (.head _) hat, hat.qualified_eq⟩
    · obtain ⟨name', info', hclass, hq⟩ := Tables.Declared.hasClass hinner hmem
      exact ⟨name', info', .inside (.head _) hat hclass, hq⟩
  | _, _, .var .., _, hmem | _, _, .expr .., _, hmem | _, _, .block .., _, hmem
  | _, _, .choose .., _, hmem | _, _, .whileLoop .., _, hmem | _, _, .forLoop .., _, hmem
  | _, _, .breakLoop .., _, hmem | _, _, .continueLoop .., _, hmem | _, _, .ret .., _, hmem
  | _, _, .delete .., _, hmem | _, _, .function .., _, hmem => by cases hmem

end

variable {outer name : String} {items : List Stmt}

theorem mem_classesIn_of_mem {s : Stmt} {c : String × List Stmt} (hs : s ∈ items)
    (hc : c ∈ classesOf outer s) : c ∈ classesIn outer items := by
  induction items with
  | nil => cases hs
  | cons a rest ih =>
    rw [classesIn]
    rcases hs with _ | ⟨_, hs⟩
    · exact List.mem_append_left _ hc
    · exact List.mem_append_right _ (ih hs)

theorem Tables.HasClass.mem_classesIn {r : TypeScopeId} {body : List Stmt} {info : ClassInfo}
    (h : T.HasClass r outer items name info body) :
    (info.scopes.qualified, body) ∈ classesIn outer items := by
  induction h with
  | here hmem hat =>
    refine mem_classesIn_of_mem hmem ?_
    rw [classesOf, hat.qualified_eq]
    exact .head _
  | inside hmem _ _ ih =>
    refine mem_classesIn_of_mem hmem ?_
    rw [classesOf]
    exact .tail _ ih

/-! ### No declaration is met twice -/

/-- A text begins with a name, which ends the text or has a dot behind it. -/
def StartsWith (outer name : String) (text : List Char) : Prop :=
  ∃ rest, text = outer.toList ++ (name.toList ++ rest) ∧ (rest = [] ∨ ∃ more, rest = '.' :: more)

theorem StartsWith.unique {name' : String} {text : List Char} (h : StartsWith outer name text)
    (h' : StartsWith outer name' text) (hname : IsPlain name) (hname' : IsPlain name') :
    name = name' := by
  have hcut : ∀ {name : String} {rest : List Char}, IsPlain name →
      (rest = [] ∨ ∃ more, rest = '.' :: more) →
      (name.toList ++ rest).takeWhile (· ≠ '.') = name.toList := by
    intro name rest hname hrest
    have hall : ∀ c ∈ name.toList, decide (c ≠ '.') = true := fun c hc => decide_eq_true fun hdot =>
      hname.not_mem (by decide) (hdot ▸ hc)
    rw [List.takeWhile_append_of_pos hall]
    rcases hrest with rfl | ⟨more, rfl⟩ <;> simp
  obtain ⟨rest, htext, hrest⟩ := h
  obtain ⟨rest', htext', hrest'⟩ := h'
  have heq := List.append_cancel_left (htext.symm.trans htext')
  refine String.toList_injective ?_
  rw [← hcut hname hrest, heq, hcut hname' hrest']

mutual

theorem startsWith_of_mem {q : String} {body : List Stmt} :
    ∀ {outer : String} {items : List Stmt}, (q, body) ∈ classesIn outer items →
      ∃ name ∈ classNames items, StartsWith outer name q.toList
  | _, [], hmem => by cases hmem
  | _, s :: rest, hmem => by
    rw [classesIn] at hmem
    rcases List.mem_append.mp hmem with hmem | hmem
    · obtain ⟨name, hname, hstart⟩ := startsWith_of_memOf hmem
      exact ⟨name, List.mem_filterMap.mpr ⟨s, .head _, hname⟩, hstart⟩
    · obtain ⟨name, hname, hstart⟩ := startsWith_of_mem hmem
      obtain ⟨a, ha, hname⟩ := List.mem_filterMap.mp hname
      exact ⟨name, List.mem_filterMap.mpr ⟨a, .tail _ ha, hname⟩, hstart⟩

theorem startsWith_of_memOf {q : String} {body : List Stmt} :
    ∀ {outer : String} {s : Stmt}, (q, body) ∈ classesOf outer s →
      ∃ name, s.className? = some name ∧ StartsWith outer name q.toList
  | outer, .classDecl span name inner, hmem => by
    refine ⟨name, rfl, ?_⟩
    rw [classesOf] at hmem
    rcases List.mem_cons.mp hmem with heq | hmem
    · cases heq
      exact ⟨[], by rw [String.toList_append, List.append_nil], .inl rfl⟩
    · obtain ⟨name', -, rest, hrest, -⟩ := startsWith_of_mem hmem
      refine ⟨'.' :: (name'.toList ++ rest), ?_, .inr ⟨_, rfl⟩⟩
      simpa [String.toList_append] using hrest
  | _, .var .., hmem | _, .expr .., hmem | _, .block .., hmem
  | _, .choose .., hmem | _, .whileLoop .., hmem | _, .forLoop .., hmem
  | _, .breakLoop .., hmem | _, .continueLoop .., hmem | _, .ret .., hmem
  | _, .delete .., hmem | _, .function .., hmem => by cases hmem

end

mutual

/-- No two classes of a script have the same qualified name. -/
theorem Tables.Declared.nodup : ∀ {r : TypeScopeId} {outer : String} {items : List Stmt},
    T.Declared r outer items → PlainNames items → ((classesIn outer items).map Prod.fst).Nodup
  | _, _, [], _, _ => List.nodup_nil
  | _, outer, s :: rest, h, hplain => by
    obtain ⟨hitem, hfresh, hrest⟩ := h
    have hplains : ∀ name ∈ classNames (s :: rest), IsPlain name := by
      intro name hname
      obtain ⟨a, ha, hname⟩ := List.mem_filterMap.mp hname
      cases a <;> cases hname
      exact (hplain.body ha).1
    have hrestPlain : PlainNames rest := fun n hn => hplain n (by
      rw [declaredIn]
      exact List.mem_append_right _ hn)
    rw [classesIn, List.map_append]
    refine List.nodup_append.mpr ⟨hitem.nodup hplain, hrest.nodup hrestPlain, ?_⟩
    rintro q hq _ hq' rfl
    obtain ⟨⟨_, body⟩, hmem, rfl⟩ := List.mem_map.mp hq
    obtain ⟨⟨_, body'⟩, hmem', heq⟩ := List.mem_map.mp hq'
    obtain rfl := heq
    obtain ⟨name, hname, hstart⟩ := startsWith_of_memOf hmem
    obtain ⟨name', hname', hstart'⟩ := startsWith_of_mem hmem'
    have hname'' : name' ∈ classNames (s :: rest) := by
      obtain ⟨a, ha, hname⟩ := List.mem_filterMap.mp hname'
      exact List.mem_filterMap.mpr ⟨a, .tail _ ha, hname⟩
    obtain rfl := hstart.unique hstart'
      (hplains name (List.mem_filterMap.mpr ⟨s, .head _, hname⟩)) (hplains name' hname'')
    exact hfresh name hname hname'

theorem Tables.ItemDeclared.nodup :
    ∀ {r : TypeScopeId} {outer : String} {s : Stmt} {rest : List Stmt},
    T.ItemDeclared r outer s → PlainNames (s :: rest) → ((classesOf outer s).map Prod.fst).Nodup
  | _, outer, .classDecl span name inner, rest, h, hplain => by
    obtain ⟨info, -, hinner⟩ := h
    have hbody : PlainNames inner := (hplain.body (.head _)).2
    rw [classesOf, List.map_cons]
    refine List.nodup_cons.mpr ⟨fun hq => ?_, hinner.nodup hbody⟩
    obtain ⟨⟨q, body⟩, hmem, hq⟩ := List.mem_map.mp hq
    obtain ⟨name', -, more, hmore, -⟩ := startsWith_of_mem hmem
    have hlen := congrArg List.length hmore
    rw [show q = outer ++ name from hq] at hlen
    simp [String.toList_append] at hlen
  | _, _, .var .., _, _, _ | _, _, .expr .., _, _, _ | _, _, .block .., _, _, _
  | _, _, .choose .., _, _, _ | _, _, .whileLoop .., _, _, _ | _, _, .forLoop .., _, _, _
  | _, _, .breakLoop .., _, _, _ | _, _, .continueLoop .., _, _, _ | _, _, .ret .., _, _, _
  | _, _, .delete .., _, _, _ | _, _, .function .., _, _, _ => List.nodup_nil

end

end

/-! ## Constants of declarations -/

theorem TypeTable.meanings_length {t : TypeTable} {terms : List TypeTerm} {ids : List TypeId}
    (h : t.meanings r terms = some ids) : ids.length = terms.length := by
  induction terms generalizing ids with
  | nil =>
    cases h
    rfl
  | cons term terms ih =>
    simp only [TypeTable.meanings, Option.bind_eq_bind, Option.bind_eq_some_iff] at h
    obtain ⟨_, -, _, hrest, h⟩ := h
    cases h
    rw [List.length_cons, List.length_cons, ih hrest]

theorem Tables.Meant.arity_eq {c : UInt16} {params : List TypeId} {result : TypeId}
    (h : T.Meant items c d params result) : params.length = d.arity := by
  cases h with
  | function _ hmeans _ =>
    rw [TypeTable.meanings_length hmeans.1, List.length_map]
    rfl
  | method _ _ hmeans _ =>
    rw [List.length_cons, TypeTable.meanings_length hmeans.1, List.length_map]
    rfl
  | constructor _ _ => rfl

section

variable {T : Tables} {items code body : List Stmt} {span : Span} {head : FunctionHead}
  {name : String} {info : ClassInfo} {d : Callable}

theorem function_mem_callables (hmem : .function span head code ∈ items) :
    .function head code ∈ callables items :=
  List.mem_append_left _ (List.mem_map.mpr ⟨_, mem_functionsIn.mpr ⟨_, hmem⟩, rfl⟩)

theorem Tables.HasClass.method_mem_callables (hclass : T.HasClass .top "" items name info body)
    (hmem : .function span head code ∈ body) :
    .method info.scopes.qualified head code ∈ callables items := by
  refine List.mem_append_right _ (List.mem_flatMap.mpr ⟨_, hclass.mem_classesIn, ?_⟩)
  exact .tail _ (List.mem_map.mpr ⟨_, mem_functionsIn.mpr ⟨_, hmem⟩, rfl⟩)

theorem Tables.HasClass.constructor_mem_callables
    (hclass : T.HasClass .top "" items name info body) :
    .constructor info.scopes.qualified body ∈ callables items :=
  List.mem_append_right _ (List.mem_flatMap.mpr ⟨_, hclass.mem_classesIn, .head _⟩)

theorem Tables.Meant.mem_callables {c : UInt16} {params : List TypeId} {result : TypeId}
    (h : T.Meant items c d params result) : d ∈ callables items := by
  cases h with
  | function hmem _ _ => exact function_mem_callables hmem
  | method hclass hmem _ _ => exact hclass.method_mem_callables hmem
  | constructor hclass _ => exact hclass.constructor_mem_callables

theorem Tables.Source.mem_callables {r : Routine} (h : T.Source items r d) :
    d ∈ callables items := by
  cases h with
  | function hmem _ => exact function_mem_callables hmem
  | method hclass hmem _ => exact hclass.method_mem_callables hmem
  | constructor hclass _ _ => exact hclass.constructor_mem_callables

end

namespace Image.Compiled

variable {items code : List Stmt} {T : Tables} {image : Image} {span : Span} {head : FunctionHead}
  {d : Callable} {c : UInt16} {params params' : List TypeId} {result result' : TypeId}

variable (h : image.Compiled items T)

include h

/-- A function that is declared is seen under its name, and its constant stands for it. -/
theorem function_seen (hmem : .function span head code ∈ items) :
    ∃ params result c, T.types.HeadMeans .top head params result ∧
      ⟨params, result, c⟩ ∈ T.functionsNamed head.name ∧
      T.Meant items c (.function head code) params result := by
  obtain ⟨params, result, c, hmeans, hsym⟩ := h.announced _ _ _ hmem
  obtain ⟨head', code', hname, hm⟩ := h.function_meant hsym
  refine ⟨params, result, c, hmeans, Tables.mem_functionsNamed.mpr hsym, ?_⟩
  cases hm with
  | function _ _ hpool => exact .function hmem hmeans (hname ▸ hpool)

variable (hplain : PlainNames items)

include hplain

/-- A method that is declared is seen under its name in its class. -/
theorem method_seen {name : String}
    {info : ClassInfo} {body : List Stmt} (hclass : T.HasClass .top "" items name info body)
    (hmem : .function span head code ∈ body) :
    ∃ params result c, T.types.HeadMeans info.scopes.types head params result ∧
      ⟨params, result, c⟩ ∈ T.methodsNamed info head.name ∧
      T.Meant items c (.method info.scopes.qualified head code) (info.type :: params) result := by
  obtain ⟨_, _, hat⟩ := hclass.classAt
  obtain ⟨params, result, c, hmeans, hsym⟩ := (h.classKnown _ _ _ hclass).heads _ _ _ hmem
  refine ⟨params, result, c, hmeans, Tables.mem_methodsNamed.mpr hsym, ?_⟩
  rcases h.method_meant hat.found hsym with ⟨head', code', hname, hm⟩ | ⟨hname, -⟩
  · refine .method hclass hmem hmeans ?_
    generalize info.scopes.qualified = q at hm ⊢
    generalize info.type = type at hm
    cases hm with
    | method _ _ _ hpool => rw [← hname, hpool]
  · have hbad := ((hclass.plain hplain).2.head hmem).not_mem (c := '<') (by decide)
    rw [hname] at hbad
    exact absurd (by decide : '<' ∈ constructorName.toList) hbad

theorem meant_of_mem (hd : d ∈ callables items) :
    ∃ c params result, T.Meant items c d params result := by
  rcases List.mem_append.mp hd with hd | hd
  · obtain ⟨⟨head, code⟩, hmem, rfl⟩ := List.mem_map.mp hd
    obtain ⟨span, hmem⟩ := mem_functionsIn.mp hmem
    obtain ⟨params, result, c, -, -, hm⟩ := h.function_seen hmem
    exact ⟨c, _, _, hm⟩
  · obtain ⟨⟨q, body⟩, hmem, hd⟩ := List.mem_flatMap.mp hd
    obtain ⟨name, info, hclass, rfl⟩ := h.declared.hasClass hmem
    rcases hd with _ | ⟨_, hd⟩
    · exact ⟨_, _, _, .constructor hclass rfl⟩
    · obtain ⟨⟨head, code⟩, hmem, rfl⟩ := List.mem_map.mp hd
      obtain ⟨span, hmem⟩ := mem_functionsIn.mp hmem
      obtain ⟨params, result, c, -, -, hm⟩ := h.method_seen hplain hclass hmem
      exact ⟨c, _, _, hm⟩

/-- A constant stands for one declaration. -/
theorem meant_inj {d' : Callable}
    (hm : T.Meant items c d params result) (hm' : T.Meant items c d' params' result') : d = d' := by
  obtain ⟨r, hr, hsource, -⟩ := h.resolved hplain hm
  exact (h.meant_source hplain hsource (Program.load_routines_found hr).2 hm').1

/-- A declaration has one constant. -/
theorem meant_unique {c' : UInt16}
    (hm : T.Meant items c d params result) (hm' : T.Meant items c' d params' result') : c = c' := by
  cases hm with
  | function _ hmeans hpool =>
    cases hm' with
    | function _ hmeans' hpool' =>
      obtain ⟨rfl, -⟩ := hmeans.unique hmeans'
      exact h.pool_inj _ _ _ hpool hpool'
  | @method _ info _ _ _ _ _ _ hclass _ hmeans hpool =>
    generalize hq : info.scopes.qualified = q at hm'
    cases hm' with
    | method hclass' _ hmeans' hpool' =>
      obtain ⟨-, rfl, rfl⟩ := hclass.qualified_inj hclass' h.declared hplain hq
      obtain ⟨rfl, -⟩ := hmeans.unique hmeans'
      exact h.pool_inj _ _ _ hpool hpool'
  | @constructor _ info _ hclass hc =>
    generalize hq : info.scopes.qualified = q at hm'
    cases hm' with
    | constructor hclass' hc' =>
      obtain ⟨-, rfl, -⟩ := hclass.qualified_inj hclass' h.declared hplain hq
      rw [hc, hc']

/-- No declaration is met twice. -/
theorem callables_nodup :
    (callables items).Nodup := by
  have hfunctions : (functionsIn items).Nodup :=
    functionsIn_nodup h.heads fun span head code hmem => by
    obtain ⟨params, result, _, hmeans, -⟩ := h.function_seen hmem
    exact ⟨params, result, hmeans⟩
  have howner : ∀ {c : String × List Stmt} {d : Callable}, d ∈ routinesOf c.1 c.2 →
  d.owner? = some c.1 := by
    intro c d hd
    rcases hd with _ | ⟨_, hd⟩
    · rfl
    · obtain ⟨f, -, rfl⟩ := List.mem_map.mp hd
      rfl
  refine List.nodup_append.mpr ⟨hfunctions.map fun f g hfg => ?_, ?_, ?_⟩
  · obtain ⟨h1, h2⟩ := Callable.function.inj hfg
    exact Prod.ext h1 h2
  · refine List.nodup_flatMap.mpr ⟨fun c hc => ?_, ?_⟩
    · obtain ⟨name, info, hclass, -⟩ := h.declared.hasClass hc
      have hmethods : (functionsIn c.2).Nodup :=
        functionsIn_nodup (h.classKnown _ _ _ hclass).distinct fun span head code hmem => by
          obtain ⟨params, result, _, hmeans, -⟩ := h.method_seen hplain hclass hmem
          exact ⟨params, result, hmeans⟩
      refine List.nodup_cons.mpr ⟨fun hmem => ?_, hmethods.map fun f g hfg => ?_⟩
      · obtain ⟨f, -, hf⟩ := List.mem_map.mp hmem
        cases hf
      · obtain ⟨-, h1, h2⟩ := Callable.method.inj hfg
        exact Prod.ext h1 h2
    · refine (List.pairwise_map.mp (h.declared.nodup hplain)).imp fun hne => ?_
      intro d hd hd'
      exact hne (Option.some.inj ((howner hd).symm.trans (howner hd')))
  · rintro d hd _ hd' rfl
    obtain ⟨f, -, rfl⟩ := List.mem_map.mp hd
    obtain ⟨c, -, hd'⟩ := List.mem_flatMap.mp hd'
    cases howner hd'

end Image.Compiled

/-! ## Resolution -/

/-- The functions that a name offers, with the types of their parameters. -/
inductive Tables.FunctionOffered (T : Tables) (items : List Stmt) (name : String) :
    Callable → List TypeId → Prop
  | mk {span head code params result} :
    .function span head code ∈ items → head.name = name →
    T.types.HeadMeans .top head params result →
    T.FunctionOffered items name (.function head code) params

/-- The methods of a class that a name offers. The constructor is one of them, under a name that no
method can have. -/
inductive Tables.MethodOffered (T : Tables) (items : List Stmt) (info : ClassInfo) (name : String) :
    Callable → List TypeId → Prop
  | method {cls body span head code params result} :
    T.HasClass .top "" items cls info body → .function span head code ∈ body → head.name = name →
    T.types.HeadMeans info.scopes.types head params result →
    T.MethodOffered items info name (.method info.scopes.qualified head code) params
  | constructor {cls body} :
    T.HasClass .top "" items cls info body → name = constructorName →
    T.MethodOffered items info name (.constructor info.scopes.qualified body) []

/-- Out of what is offered, a call with arguments of some types goes to the only one that takes so
many arguments or, if several do, to the one that takes arguments of just these types. -/
def Picks (offered : Callable → List TypeId → Prop) (found : List TypeId) (d : Callable) : Prop :=
  ∃ params, offered d params ∧ params.length = found.length ∧
    ((∀ d' params', offered d' params' → params'.length = found.length → d' = d) ∨ params = found)

/-- The arguments of a call have some types. -/
def Tables.ArgTypes (T : Tables) (H : Home) (Γ : Locals) (list : List Expr) (found : List TypeId) :
    Prop :=
  ∃ params b code, Computes T H Γ (.args list found params) b code

/-- The instructions that a call or a creation goes to a declaration by, if `index` gives the
constants of declarations. -/
inductive Tables.Calls (T : Tables) (items : List Stmt) (index : Callable → UInt16) (H : Home)
    (Γ : Locals) : Expr → List Instruction → Prop
  | function {span name list found d} :
    Picks (T.FunctionOffered items name) found d → T.ArgTypes H Γ list found →
    T.Calls items index H Γ (.call span name list) [.call (index d)]
  | own {span name list found d cls info} :
    (∀ d params, ¬ T.FunctionOffered items name d params) → H.role.class? = some cls →
    T.scopes.classInfo? cls = some info → Picks (T.MethodOffered items info name) found d →
    T.ArgTypes H Γ list found → T.Calls items index H Γ (.call span name list) [.call (index d)]
  | method {span receiver name list found d cls info b code} :
    Computes T H Γ (.expr receiver cls) b code → T.scopes.classInfo? cls = some info →
    Picks (T.MethodOffered items info name) found d → T.ArgTypes H Γ list found →
    T.Calls items index H Γ (.methodCall span receiver name list) [.call (index d)]
  | creation {span name cls info body} :
    T.types.lookup H.typeScope name = some info.type → T.HasClass .top "" items cls info body →
    T.Calls items index H Γ (.newObject span name)
      [.newObject info.scopes.constant, .call (index (.constructor info.scopes.qualified body))]

/-- Wherever code calls a routine or makes an object, there ends the code of an expression among
`S`, and resolution picks for it what is called or made. -/
def Tables.Resolved (T : Tables) (items : List Stmt) (index : Callable → UInt16) (H : Home)
    (S : Expr → Prop) (code : List Instruction) : Prop :=
  ∀ before i after, code = before ++ i :: after → i.isLink = true →
    ∃ Γ e t start pre left right, S e ∧ T.Calls items index H Γ e (left ++ i :: right) ∧
      Computes T H Γ (.expr e t) start (pre ++ (left ++ i :: right)) ∧
      start + (pre ++ left).length = before.length ∧ (pre ++ left) <:+ before ∧ right <+: after

namespace Image.Compiled

variable {items : List Stmt} {T : Tables} {image : Image} {index : Callable → UInt16}

theorem picks {candidates : List Candidate} {offered : Callable → List TypeId → Prop}
    {found : List TypeId} {c : Candidate} {d : Callable} (h : Selects candidates found c)
    (hd : offered d c.params)
    (hothers : ∀ d' params, offered d' params → ∃ c' ∈ candidates, c'.params = params ∧
      (c' = c → d' = d)) : Picks offered found d := by
  refine ⟨c.params, hd, h.length_eq, ?_⟩
  cases h with
  | only hfilter =>
    refine .inl fun d' params hd' hlen => ?_
    obtain ⟨c', hc', rfl, heq⟩ := hothers d' params hd'
    have hmem : c' ∈ candidates.filter (·.params.length = found.length) :=
      List.mem_filter.mpr ⟨hc', decide_eq_true hlen⟩
    rw [hfilter] at hmem
    exact heq (List.mem_singleton.mp hmem)
  | among _ _ hparams => exact .inr hparams

section

variable (h : image.Compiled items T) (hplain : PlainNames items)
  (hindex : ∀ d ∈ callables items, ∃ params result, T.Meant items (index d) d params result)

include h hplain hindex

theorem index_eq {c : UInt16} {d : Callable} {params : List TypeId} {result : TypeId}
    (hm : T.Meant items c d params result) : index d = c := by
  obtain ⟨_, _, hm'⟩ := hindex d hm.mem_callables
  exact h.meant_unique hplain hm' hm

variable {c : Candidate} {name : String} {found : List TypeId} {H : Home}

/-- A call of a function goes to the function that is picked. -/
theorem picks_function (hsel : Selects (T.functionsNamed name) found c) :
    ∃ d, Picks (T.FunctionOffered items name) found d ∧ index d = c.callee := by
  obtain ⟨head, code, hname, hm⟩ := h.function_meant (Tables.mem_functionsNamed.mp hsel.mem)
  refine ⟨_, picks hsel ?_ fun d' params hd' => ?_, h.index_eq hplain hindex hm⟩
  · cases hm with
    | function hmem hmeans _ => exact .mk hmem hname hmeans
  · cases hd' with
    | mk hmem hname' hmeans' =>
      obtain ⟨_, result, c', hmeans, hseen, hm'⟩ := h.function_seen hmem
      obtain ⟨rfl, -⟩ := hmeans.unique hmeans'
      refine ⟨_, hname' ▸ hseen, rfl, fun heq => ?_⟩
      subst heq
      exact h.meant_inj hplain hm' hm

/-- A call of a method goes to the method that is picked. -/
theorem picks_method {cls : TypeId} {info : ClassInfo} (hinfo : T.scopes.classInfo? cls = some info)
    (hsel : Selects (T.methodsNamed info name) found c) :
    ∃ d, Picks (T.MethodOffered items info name) found d ∧ index d = c.callee := by
  obtain rfl := ScopeTable.classInfo?_type hinfo
  obtain ⟨⟨clsName, body, hclass⟩, -, -⟩ := h.classes _ _ hinfo
  obtain ⟨d, result, hoffer, hm⟩ : ∃ d result, T.MethodOffered items info name d c.params ∧
      T.Meant items c.callee d (info.type :: c.params) result := by
    rcases h.method_meant hinfo (Tables.mem_methodsNamed.mp hsel.mem) with
      ⟨head, code, hname, hm⟩ | ⟨hname, body', hm⟩
    · refine ⟨_, _, ?_, hm⟩
      generalize hq : info.scopes.qualified = q at hm
      generalize info.type = type at hm
      cases hm with
      | method hclass' hmem hmeans _ =>
        obtain ⟨-, rfl, rfl⟩ := hclass.qualified_inj hclass' h.declared hplain hq
        exact .method hclass' hmem hname hmeans
    · refine ⟨_, _, ?_, hm⟩
      generalize hq : info.scopes.qualified = q at hm
      generalize htype : info.type :: c.params = types at hm
      generalize c.result = result at hm
      cases hm with
      | constructor hclass' _ =>
        obtain ⟨-, rfl, rfl⟩ := hclass.qualified_inj hclass' h.declared hplain hq
        rw [(List.cons.inj htype).2]
        exact .constructor hclass' hname
  refine ⟨d, picks hsel hoffer fun d' params hd' => ?_, h.index_eq hplain hindex hm⟩
  cases hd' with
  | method hclass' hmem hname' hmeans' =>
    obtain ⟨_, result, c', hmeans, hseen, hm'⟩ := h.method_seen hplain hclass' hmem
    obtain ⟨rfl, -⟩ := hmeans.unique hmeans'
    refine ⟨_, hname' ▸ hseen, rfl, fun heq => ?_⟩
    subst heq
    exact h.meant_inj hplain hm' hm
  | constructor hclass' hname' =>
    obtain ⟨_, _, hat⟩ := hclass'.classAt
    have hseen : (⟨[], info.type, info.constructor⟩ : Candidate) ∈ T.methodsNamed info name :=
      Tables.mem_methodsNamed.mpr (hname' ▸ Array.mem_of_find?_eq_some hat.init)
    refine ⟨_, hseen, rfl, fun heq => ?_⟩
    subst heq
    exact h.meant_inj hplain (.constructor hclass' rfl) hm

/-- What an expression links to is what resolution picks for it. -/
theorem calls {Γ : Locals} {e : Expr} {t : TypeId} {start : Nat} {pre own : List Instruction}
    (hby : e.LinksBy own) (hcomp : Computes T H Γ (.expr e t) start (pre ++ own)) :
    T.Calls items index H Γ e own := by
  cases hby with
  | @call span name args c =>
    generalize hcode : pre ++ [.call c] = code at hcomp
    cases hcomp with
    | call hsel hargs =>
      obtain ⟨-, hc⟩ := List.append_inj' hcode rfl
      obtain ⟨d, hpicks, hd⟩ := h.picks_function hplain hindex hsel
      rw [hc, ← hd]
      exact .function hpicks ⟨_, _, _, hargs⟩
    | callSelf hnone hrole hinfo hsel _ hargs =>
      rw [← List.cons_append] at hcode
      obtain ⟨-, hc⟩ := List.append_inj' hcode rfl
      obtain ⟨d, hpicks, hd⟩ := h.picks_method hplain hindex hinfo hsel
      rw [hc, ← hd]
      refine .own (fun d' params hd' => ?_) hrole hinfo hpicks ⟨_, _, _, hargs⟩
      cases hd' with
      | mk hmem hname _ =>
        obtain ⟨_, _, _, -, hseen, -⟩ := h.function_seen hmem
        rw [hname, hnone] at hseen
        cases hseen
    | callNative _ _ _ _ =>
      obtain ⟨-, hc⟩ := List.append_inj' hcode rfl
      cases hc
  | @methodCall span receiver name args c =>
    generalize hcode : pre ++ [.call c] = code at hcomp
    cases hcomp with
    | methodCall hreceiver hinfo hsel hargs =>
      rw [← List.append_assoc] at hcode
      obtain ⟨-, hc⟩ := List.append_inj' hcode rfl
      obtain ⟨d, hpicks, hd⟩ := h.picks_method hplain hindex hinfo hsel
      rw [hc, ← hd]
      exact .method hreceiver hinfo hpicks ⟨_, _, _, hargs⟩
  | @newObject span name k c =>
    generalize hcode : pre ++ [.newObject k, .call c] = code at hcomp
    cases hcomp with
    | @newObject _ _ _ info _ hl hinfo =>
      have hcode : pre ++ _ = [] ++ [.newObject info.scopes.constant, .call info.constructor] :=
        hcode
      obtain ⟨-, hc⟩ := List.append_inj' hcode rfl
      obtain rfl := ScopeTable.classInfo?_type hinfo
      obtain ⟨⟨cls, body, hclass⟩, -, -⟩ := h.classes _ _ hinfo
      rw [hc, ← h.index_eq hplain hindex (.constructor hclass rfl)]
      exact .creation hl hclass

theorem resolved_calls {S : Expr → Prop} {code : List Instruction} (hlinked : Linked T H S 0 code) :
    T.Resolved items index H S code := by
  intro before i after hcode hlink
  obtain ⟨Γ, e, t, start, pre, left, right, hmem, hby, hcomp, hstart, hpre, hpost⟩ :=
    hlinked before i after hcode hlink
  rw [Nat.zero_add] at hstart
  exact ⟨Γ, e, t, start, pre, left, right, hmem, h.calls hplain hindex hby hcomp, hcomp, hstart,
    hpre, hpost⟩

end

end Image.Compiled

/-! ## Faithful images -/

/-- The routine that a declaration is compiled to, as code sees it from the inside. -/
inductive Tables.Inside (T : Tables) (items : List Stmt) : Callable → SiteRole → TypeScopeId → Prop
  | function {head code} : T.Inside items (.function head code) .function .top
  | method {cls info body head code} : T.HasClass .top "" items cls info body →
    T.Inside items (.method info.scopes.qualified head code) (.method info.type) info.scopes.types
  | constructor {cls info body} :
    T.HasClass .top "" items cls info body →
    T.Inside items (.constructor info.scopes.qualified body)
      (.constructor info.type) info.scopes.types

/-- The expressions that a routine is compiled from. -/
def Callable.Has : Callable → Expr → Prop
  | .function _ code | .method _ _ code => HasExpr code
  | .constructor _ body => HasInitialiser body

theorem Tables.Source.linked {r : Routine} (h : T.Source items r d) :
    ∃ role scope, T.Inside items d role scope ∧
      Linked T ⟨role, scope, r.result⟩ d.Has 0 r.code.toList := by
  cases h with
  | function hitem hnamed =>
    obtain ⟨_, _, _, hbody, -⟩ := hnamed.body
    exact ⟨_, _, .function, hbody.result_eq ▸ hbody.code.linked⟩
  | method hclass hitem hnamed =>
    obtain ⟨_, _, _, hbody, -⟩ := hnamed.body
    exact ⟨_, _, .method hclass, hbody.result_eq ▸ hbody.code.linked⟩
  | constructor hclass hcons _ =>
    exact ⟨_, _, .constructor hclass, hcons.result_eq ▸ hcons.code.linked⟩

/-- The constants of declarations lead to what was declared, and calls lead to what resolution
picks. -/
structure Image.Faithful (items : List Stmt) (T : Tables) (index : Callable → UInt16)
    (image : Image) : Prop where
  distinct : ((callables items).map index).Nodup
  meant : ∀ d ∈ callables items, ∃ params result, T.Meant items (index d) d params result
  loaded : ∀ d ∈ callables items, ∃ r, (Program.load image).routines[index d]? = some r ∧
    T.Source items r d ∧ r.arity = d.arity
  calls : ∀ r ∈ image.routines, ∃ d ∈ callables items, T.Source items r d ∧
    ∃ role scope, T.Inside items d role scope ∧
      T.Resolved items index ⟨role, scope, r.result⟩ d.Has r.code.toList
  main : T.Resolved items index ⟨.main, .top, .void⟩ (HasExpr (items.filter Stmt.isCode))
    image.main.code.toList
  shapes : ∀ q body, (q, body) ∈ classesIn "" items → ∃ name info shape,
    T.HasClass .top "" items name info body ∧ info.scopes.qualified = q ∧
    (Program.load image).shapes[info.scopes.constant]? = some shape ∧ shape.name = q ∧
    T.Lays info body shape

/-- In an image that has been compiled with the primitive types from a script whose names are plain,
every declaration has a constant of its own; it leads to the routine compiled from that declaration,
the constant of a class leads to the layout of its members, and every call in the code goes to what
resolution picks for it. -/
theorem compile_faithful {items : List Stmt} {options : CompileOptions} {journal : Journal}
    {image : Image} (hplain : PlainNames items)
    (h : (Script.compile ⟨items⟩ options .primitives journal).1 = .ok image) :
    ∃ T index, T.natives = options.natives ∧ image.Compiled items T ∧
      image.Faithful items T index := by
  obtain ⟨T, hnatives, hcompiled⟩ := compile_compiled h
  have hmeant : ∀ d, ∃ c, d ∈ callables items →
      ∃ params result, T.Meant items c d params result := by
    intro d
    by_cases hd : d ∈ callables items
    · obtain ⟨c, hm⟩ := hcompiled.meant_of_mem hplain hd
      exact ⟨c, fun _ => hm⟩
    · exact ⟨0, fun hd' => absurd hd' hd⟩
  choose index hindex using hmeant
  refine ⟨T, index, hnatives, hcompiled, ?_, hindex, fun d hd => ?_, fun r hr => ?_, ?_,
    fun q body hq => ?_⟩
  · refine (List.nodup_map_iff_inj_on (hcompiled.callables_nodup hplain)).mpr
      fun d hd d' hd' heq => ?_
    obtain ⟨_, _, hm⟩ := hindex d hd
    obtain ⟨_, _, hm'⟩ := hindex d' hd'
    exact hcompiled.meant_inj hplain hm (heq ▸ hm')
  · obtain ⟨params, result, hm⟩ := hindex d hd
    obtain ⟨r, hr, hsource, hparams, -⟩ := hcompiled.resolved hplain hm
    exact ⟨r, hr, hsource, by rw [Routine.arity, hparams, hm.arity_eq]⟩
  · obtain ⟨d, hsource⟩ := hcompiled.source hr
    obtain ⟨role, scope, hinside, hlinked⟩ := hsource.linked
    exact ⟨d, hsource.mem_callables, hsource, role, scope, hinside,
      hcompiled.resolved_calls hplain hindex hlinked⟩
  · obtain ⟨Γ, Δ, hruns, -⟩ := hcompiled.main
    obtain ⟨code, hcode, hexec⟩ := hruns.code
    rw [hcode]
    exact hcompiled.resolved_calls hplain hindex (hexec.linked.snoc rfl)
  · obtain ⟨name, info, hclass, rfl⟩ := hcompiled.declared.hasClass hq
    obtain ⟨i, hi, hreal⟩ := hcompiled.shape_resolved hplain hclass
    exact ⟨name, info, _, hclass, rfl, hi, hreal.name_eq, hcompiled.lays hclass hreal⟩

open Build in
/-- Two functions of one name, a class inside of another, and calls of all kinds. -/
def overloads : List Stmt :=
  [function "f" [("int", "x")] "int" [ret (some (ident "x"))],
    .function default ⟨"f", [⟨"x", arrayOf "int"⟩], .named "int"⟩ [ret (some (call "f" [int 1]))],
    classDecl "Pair" [var "int" "left" none,
      classDecl "Link" [var "Pair" "next" (some (newObject "Pair"))],
      function "sum" [] "int" [ret (some (call "f" [ident "left"]))]],
    var "Pair" "p" (some (newObject "Pair")), expr (methodCall (ident "p") "sum" [])]

theorem compile_faithful_overloads :
    PlainNames overloads ∧ ∃ image, (Script.compile ⟨overloads⟩).1 = .ok image ∧
      ∃ T index, image.Compiled overloads T ∧ image.Faithful overloads T index := by
  have hplain : PlainNames overloads := by decide
  have hok : ((Script.compile ⟨overloads⟩).1).toOption.any (fun _ => true) = true :=
    by decide +kernel
  obtain ⟨image, himage, -⟩ := exists_of_any hok
  obtain ⟨T, index, -, hcompiled, hfaithful⟩ := compile_faithful hplain himage
  exact ⟨hplain, image, himage, T, index, hcompiled, hfaithful⟩

end Bytescript
