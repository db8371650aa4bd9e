import Bytescript.Program
import Bytescript.Proofs.Lowering.Image
import Bytescript.Proofs.Tables

/-!
# Linking

A loaded program finds routines and classes by constant. Whatever compiled code calls is found
there, and what is found has been compiled from the very function, method or class that was meant
(`Image.Compiled.resolved`). For this, the names that a script declares have to be plain.
-/

namespace Bytescript

open Lower (ClassInfo constructorName)

/-! ## Declared names -/

mutual

/-- The names that a statement declares, with those declared inside of it. -/
def Stmt.declaredNames : Stmt → List String
  | .var _ name _ _ => [name]
  | .block _ body => declaredIn body
  | .choose _ arms none => declaredInArms arms
  | .choose _ arms (some otherwise) => declaredInArms arms ++ otherwise.declaredNames
  | .whileLoop _ _ body => body.declaredNames
  | .forLoop _ none _ _ body => body.declaredNames
  | .forLoop _ (some init) _ _ body => init.declaredNames ++ body.declaredNames
  | .function _ head body => head.name :: (head.params.map Param.name ++ declaredIn body)
  | .classDecl _ name body => name :: declaredIn body
  | _ => []

def declaredIn : List Stmt → List String
  | [] => []
  | s :: rest => s.declaredNames ++ declaredIn rest

def declaredInArms : List Arm → List String
  | [] => []
  | .mk _ body :: rest => body.declaredNames ++ declaredInArms rest

end

variable {items code : List Stmt} {name : String} {span : Span} {T : Tables} {info : ClassInfo}

theorem mem_declaredIn {s : Stmt} (hs : s ∈ items) (hname : name ∈ s.declaredNames) :
    name ∈ declaredIn items := by
  induction items with
  | nil => cases hs
  | cons a rest ih =>
    rw [declaredIn]
    rcases hs with _ | ⟨_, hs⟩
    · exact List.mem_append_left _ hname
    · exact List.mem_append_right _ (ih hs)

/-- All declared names are plain. -/
def PlainNames (items : List Stmt) : Prop := ∀ name ∈ declaredIn items, IsPlain name

instance (items : List Stmt) : Decidable (PlainNames items) :=
  List.decidableBAll _ (declaredIn items)

theorem PlainNames.body {body : List Stmt} (h : PlainNames items)
    (hmem : .classDecl span name body ∈ items) : IsPlain name ∧ PlainNames body := by
  refine ⟨h name (mem_declaredIn hmem ?_), fun n hn => h n (mem_declaredIn hmem ?_)⟩
  · rw [Stmt.declaredNames]
    exact .head _
  · rw [Stmt.declaredNames]
    exact .tail _ hn

theorem PlainNames.head {head : FunctionHead} (h : PlainNames items)
    (hmem : .function span head code ∈ items) : IsPlain head.name := by
  refine h _ (mem_declaredIn hmem ?_)
  rw [Stmt.declaredNames]
  exact .head _

/-! ## Qualified names -/

theorem IsPlain.ne_dotted (h : IsPlain name) {outer other rest : List Char} :
    outer ++ name.toList ≠ outer ++ (other ++ '.' :: rest) := by
  intro heq
  refine h.not_mem (c := '.') (by decide) ?_
  rw [List.append_cancel_left heq]
  exact List.mem_append_right _ (.head _)

namespace Tables

variable {T : Tables}

theorem HasClass.plain {r : TypeScopeId} {outer name : String} {items body : List Stmt}
    {info : ClassInfo} (h : T.HasClass r outer items name info body) (hplain : PlainNames items) :
    IsPlain name ∧ PlainNames body := by
  induction h with
  | here hmem _ => exact hplain.body hmem
  | inside hmem _ _ ih => exact ih (hplain.body hmem).2

variable {r : TypeScopeId} {outer name : String} {items body' body : List Stmt} {info : ClassInfo}
  {span : Span}

theorem HasClass.qualified_not_mem {body : List Stmt} (h : T.HasClass r outer items name info body)
    (hplain : PlainNames items)
    (houter : '(' ∉ outer.toList) : '(' ∉ info.scopes.qualified.toList := by
  induction h with
  | here hmem hat =>
    rw [hat.qualified_eq, String.toList_append, List.mem_append, not_or]
    exact ⟨houter, (hplain.body hmem).1.not_mem (by decide)⟩
  | inside hmem _ _ ih =>
    refine ih (hplain.body hmem).2 ?_
    rw [String.toList_append, String.toList_append, List.mem_append, List.mem_append, not_or,
      not_or]
    exact ⟨⟨houter, (hplain.body hmem).1.not_mem (by decide)⟩, by decide⟩

theorem HasClass.method_not_mem {body code : List Stmt} {head : FunctionHead}
    (h : T.HasClass .top "" items name info body) (hplain : PlainNames items)
    (hitem : .function span head code ∈ body) :
    '(' ∉ (info.scopes.qualified ++ "." ++ head.name).toList := by
  rw [String.toList_append, String.toList_append, List.mem_append, List.mem_append, not_or, not_or]
  exact ⟨⟨h.qualified_not_mem hplain (by decide), by decide⟩,
    ((h.plain hplain).2.head hitem).not_mem (by decide)⟩

/-- The qualified name of a class inside of others begins with theirs. -/
theorem HasClass.qualified_inside (h : T.HasClass r outer items name info body) :
    ∃ rest, info.scopes.qualified.toList = outer.toList ++ rest := by
  induction h with
  | here _ hat => exact ⟨_, by rw [hat.qualified_eq, String.toList_append]⟩
  | inside _ _ _ ih =>
    obtain ⟨rest, hrest⟩ := ih
    rw [String.toList_append, String.toList_append, List.append_assoc, List.append_assoc] at hrest
    exact ⟨_, hrest⟩

theorem Declared.unique {span' : Span} (h : T.Declared r outer items)
    (hmem : .classDecl span name body ∈ items) (hmem' : .classDecl span' name body' ∈ items) :
    body = body' := by
  have hname : ∀ {items : List Stmt} {span : Span} {body : List Stmt},
      .classDecl span name body ∈ items → name ∈ classNames items := fun hm =>
    List.mem_filterMap.mpr ⟨_, hm, rfl⟩
  induction items with
  | nil => cases hmem
  | cons a rest ih =>
    obtain ⟨-, hfresh, hrest⟩ := h
    rcases hmem with _ | ⟨_, hlater⟩
    · rcases List.mem_cons.mp hmem' with heq | hlater'
      · cases heq
        rfl
      · exact absurd (hname hlater') (hfresh name rfl)
    · rcases hmem' with _ | ⟨_, hlater'⟩
      · exact absurd (hname hlater) (hfresh name rfl)
      · exact ih hrest hlater hlater'

theorem Declared.inside (h : T.Declared r outer items) (hmem : .classDecl span name body ∈ items)
    (hat : T.ClassAt r name (outer ++ name) info) :
    T.Declared info.scopes.types (outer ++ name ++ ".") body := by
  induction items with
  | nil => cases hmem
  | cons a rest ih =>
    obtain ⟨hitem, -, hrest⟩ := h
    rcases hmem with _ | ⟨_, hmem⟩
    · obtain ⟨info', hat', hbody⟩ := hitem
      obtain rfl := hat.unique hat'
      exact hbody
    · exact ih hrest hmem

theorem HasClass.qualified_dot {inner : String}
    (h : T.HasClass r (outer ++ name ++ ".") items inner info body) :
    ∃ rest, info.scopes.qualified.toList = outer.toList ++ (name.toList ++ '.' :: rest) := by
  obtain ⟨rest, hrest⟩ := h.qualified_inside
  refine ⟨rest, ?_⟩
  rw [hrest, String.toList_append, String.toList_append, List.append_assoc, List.append_assoc]
  rfl

/-- Classes with the same qualified name are the same class. -/
theorem HasClass.qualified_inj {name' : String} {body : List Stmt} {info' : ClassInfo}
    (h : T.HasClass r outer items name info body) (h' : T.HasClass r outer items name' info' body')
    (hdecl : T.Declared r outer items) (hplain : PlainNames items)
    (hq : info.scopes.qualified = info'.scopes.qualified) : name = name' ∧ info = info' ∧
    body = body' := by
  induction h with
  | here hmem hat =>
    cases h' with
    | here hmem' hat' =>
      rw [hat.qualified_eq, hat'.qualified_eq] at hq
      obtain rfl := String.append_right_inj _ |>.mp hq
      exact ⟨rfl, hat.unique hat', hdecl.unique hmem hmem'⟩
    | inside hmem' hat' hin' =>
      obtain ⟨rest, hrest⟩ := hin'.qualified_dot
      rw [← hq, hat.qualified_eq, String.toList_append] at hrest
      exact absurd hrest (hplain.body hmem).1.ne_dotted
  | inside hmem hat hin ih =>
    obtain ⟨rest, hrest⟩ := hin.qualified_dot
    cases h' with
    | here hmem' hat' =>
      rw [hq, hat'.qualified_eq, String.toList_append] at hrest
      exact absurd hrest (hplain.body hmem').1.ne_dotted
    | inside hmem' hat' hin' =>
      obtain ⟨rest', hrest'⟩ := hin'.qualified_dot
      have hnames := hrest.symm.trans (hq ▸ hrest')
      obtain ⟨hname, -⟩ := append_cons_inj ((hplain.body hmem).1.not_mem (by decide))
        ((hplain.body hmem').1.not_mem (by decide)) (List.append_cancel_left hnames)
      obtain rfl := String.toList_injective hname
      obtain rfl := hat.unique hat'
      obtain rfl := hdecl.unique hmem hmem'
      exact ih hin' (hdecl.inside hmem hat) (hplain.body hmem).2 hq

end Tables

/-! ## Maps of a loaded program -/

theorem mem_values {α : Type} {map : Std.TreeMap String α} {v : α} :
    v ∈ map.values ↔ ∃ key : String, map[key]? = some v := by
  have hvalues : map.values = map.toList.map Prod.snd := by
    change map.foldr (fun _ v l => v :: l) [] = _
    rw [Std.TreeMap.foldr_eq_foldr_toList]
    induction map.toList with
    | nil => rfl
    | cons p rest ih => rw [List.foldr_cons, ih, List.map_cons]
  simp [hvalues, Std.TreeMap.mem_toList_iff_getElem?_eq_some]

section

variable {α β : Type} (key : α → Option UInt16) (value : α → β)

/-- Enters a value under its key if it has one. -/
def enter (found : Std.TreeMap UInt16 β) (a : α) : Std.TreeMap UInt16 β :=
  match key a with
  | some c => found.insert c (value a)
  | none => found

variable {key value} {c : UInt16} {found : Std.TreeMap UInt16 β} {a : α} {b : β} {l : List α}

theorem enter_found (h : (enter key value found a)[c]? = some b) :
    found[c]? = some b ∨ key a = some c ∧ value a = b := by
  unfold enter at h
  split at h
  next d hkey =>
    rw [Std.TreeMap.getElem?_insert] at h
    split at h
    next hd =>
      obtain rfl := Std.LawfulEqOrd.eq_of_compare hd
      exact .inr ⟨hkey, Option.some.inj h⟩
    · exact .inl h
  · exact .inl h

theorem enter_present (h : key a = some c ∨ ∃ b, found[c]? = some b) :
    ∃ b, (enter key value found a)[c]? = some b := by
  unfold enter
  split
  next d hkey =>
    rw [Std.TreeMap.getElem?_insert]
    split
    · exact ⟨_, rfl⟩
    next hd =>
      refine h.resolve_left fun hc => hd ?_
      rw [hkey] at hc
      rw [Option.some.inj hc]
      exact Std.ReflOrd.compare_self
  next hkey => exact h.resolve_left fun hc => nomatch hkey.symm.trans hc

theorem foldl_enter_found (h : (l.foldl (enter key value) found)[c]? = some b) :
    found[c]? = some b ∨ ∃ a ∈ l, key a = some c ∧ value a = b := by
  induction l generalizing found with
  | nil => exact .inl h
  | cons a l ih =>
    rcases ih h with h | ⟨d, hd, hkey⟩
    · exact (enter_found h).imp_right fun hkey => ⟨a, .head _, hkey⟩
    · exact .inr ⟨d, .tail _ hd, hkey⟩

theorem foldl_enter_present (h : (∃ a ∈ l, key a = some c) ∨ ∃ b, found[c]? = some b) :
    ∃ b, (l.foldl (enter key value) found)[c]? = some b := by
  induction l generalizing found with
  | nil => exact h.resolve_left fun ⟨_, ha, _⟩ => nomatch ha
  | cons a l ih =>
    rcases h with ⟨d, hd, hkey⟩ | h
    · rcases hd with _ | ⟨_, hd⟩
      · exact ih (.inr (enter_present (.inl hkey)))
      · exact ih (.inl ⟨d, hd, hkey⟩)
    · exact ih (.inr (enter_present (.inr h)))

end

namespace Program

variable {image : Image} {c : UInt16} {r : Routine}

theorem load_routines_found (h : (load image).routines[c]? = some r) :
    r ∈ image.routines ∧ r.constant = some c := by
  have hfold : (image.routines.foldl (enter Routine.constant fun r => r) ∅)[c]? = some r := h
  rcases foldl_enter_found hfold with h | ⟨_, hmem, hc, rfl⟩
  · simp at h
  · exact ⟨hmem, hc⟩

theorem load_routines_present (hmem : r ∈ image.routines) (hc : r.constant = some c) :
    ∃ r', (load image).routines[c]? = some r' := by
  have hfold : ∃ r', (image.routines.foldl (enter Routine.constant fun r => r) ∅)[c]? = some r' :=
    foldl_enter_present (.inl ⟨r, hmem, hc⟩)
  exact hfold

/-- The shape of a class. -/
def shapeOf (i : ClassImage) : Shape := ⟨i.name, (i.members.map Member.kind).toList⟩

theorem load_shapes_found {shape : Shape} (h : (load image).shapes[c]? = some shape) :
    ∃ i ∈ image.classes.values, i.constant = c ∧ shapeOf i = shape := by
  have hfold : (image.classes.values.foldl
      (enter (fun i => some i.constant) shapeOf) ∅)[c]? = some shape := h
  rcases foldl_enter_found hfold with h | ⟨i, hmem, hc, hi⟩
  · simp at h
  · exact ⟨i, hmem, Option.some.inj hc, hi⟩

theorem load_shapes_present {i : ClassImage} (hmem : i ∈ image.classes.values) :
    ∃ shape, (load image).shapes[i.constant]? = some shape := by
  have hfold : ∃ shape, (image.classes.values.foldl
      (enter (fun i => some i.constant) shapeOf) ∅)[i.constant]? = some shape :=
    foldl_enter_present (.inl ⟨i, hmem, rfl⟩)
  exact hfold

end Program

/-! ## Routines of a script -/

/-- What becomes a routine: a function, or a method or the constructor of a class, which is told by
its qualified name. -/
inductive Callable where
  | function (head : FunctionHead) (code : List Stmt)
  | method (owner : String) (head : FunctionHead) (code : List Stmt)
  | constructor (owner : String) (body : List Stmt)

/-- What a routine of a script has been compiled from. -/
inductive Tables.Source (T : Tables) (items : List Stmt) (r : Routine) : Callable → Prop
  | function {span head code key} :
    .function span head code ∈ items → r.Named T .function .top "" .function head code key →
    T.Source items r (.function head code)
  | method {name info body code span head key} :
    T.HasClass .top "" items name info body → .function span head code ∈ body →
    r.Named T (.method info.type) info.scopes.types (info.scopes.qualified ++ ".") .method head code
      key → T.Source items r (.method info.scopes.qualified head code)
  | constructor {name info body Δ} :
    T.HasClass .top "" items name info body → r.Constructs T info body Δ →
    r.constant = some info.constructor → T.Source items r (.constructor info.scopes.qualified body)

/-- What a constant stands for as the target of a call, with all that is taken off the stack, the
first lowest, and what is left there. -/
inductive Tables.Meant (T : Tables) (items : List Stmt) (c : UInt16) :
    Callable → List TypeId → TypeId → Prop
  | function {span head code params result} :
    .function span head code ∈ items → T.types.HeadMeans .top head params result →
    T.pool[c.toNat]? = some (.function (head.name ++ T.types.signature params)) →
    T.Meant items c (.function head code) params result
  | method {name info body code span head params result} :
    T.HasClass .top "" items name info body → .function span head code ∈ body →
    T.types.HeadMeans info.scopes.types head params result →
    T.pool[c.toNat]? = some (.method (info.scopes.qualified ++ "." ++ head.name ++
      T.types.signature params)) →
    T.Meant items c (.method info.scopes.qualified head code) (info.type :: params) result
  | constructor {name info body} :
    T.HasClass .top "" items name info body → c = info.constructor →
    T.Meant items c (.constructor info.scopes.qualified body) [info.type] info.type

/-- A head is known by its name and its parameters. -/
theorem Tables.HeadsDistinct.unique {r : TypeScopeId} (h : T.HeadsDistinct r items) {span' : Span}
    {head head' : FunctionHead} {code' : List Stmt} {params : List TypeId} {result result' : TypeId}
    (hmem : .function span head code ∈ items) (hmem' : .function span' head' code' ∈ items)
    (hm : T.types.HeadMeans r head params result) (hm' : T.types.HeadMeans r head' params result')
    (hname : head.name = head'.name) : head = head' ∧ code = code' := by
  induction items with
  | nil => cases hmem
  | cons a rest ih =>
    obtain ⟨hfirst, hrest⟩ := List.pairwise_cons.mp h
    rcases hmem with _ | ⟨_, hlater⟩
    · rcases List.mem_cons.mp hmem' with heq | hlater'
      · cases heq
        exact ⟨rfl, rfl⟩
      · exact absurd hname (hfirst _ hlater' _ _ _ _ _ _ _ _ _ rfl rfl hm hm')
    · rcases hmem' with _ | ⟨_, hlater'⟩
      · exact absurd hname.symm (hfirst _ hlater _ _ _ _ _ _ _ _ _ rfl rfl hm' hm)
      · exact ih hrest hlater hlater'

namespace Image.Compiled

variable {items body : List Stmt} {T : Tables} {image : Image} {r : Routine} {name : String}
  {info : ClassInfo} {params : List TypeId} {result : TypeId} {c : UInt16} {d : Callable}

/-- Classes with the same methods are the same. -/
theorem methods_inj {name' : String} {info' : ClassInfo} {body' : List Stmt}
    (h : T.HasClass .top "" items name info body) (h' : T.HasClass .top "" items name' info' body')
    (hm : info.scopes.methods = info'.scopes.methods) : info = info' := by
  obtain ⟨_, _, hat⟩ := h.classAt
  obtain ⟨_, _, hat'⟩ := h'.classAt
  have hinit := Option.some.inj (hat.init.symm.trans (hm ▸ hat'.init))
  exact Option.some.inj (hat.found.symm.trans ((Symbol.mk.inj hinit).2.1 ▸ hat'.found))

variable (h : image.Compiled items T)

include h

theorem source (hr : r ∈ image.routines) : ∃ d, T.Source items r d := by
  rcases List.mem_append.mp hr with hr | hr
  · obtain ⟨key, hkey⟩ := mem_values.mp hr
    rcases h.functions.built key r hkey with hempty | ⟨span, head, code, hmem, hnamed⟩
    · simp at hempty
    · exact ⟨_, .function hmem hnamed⟩
  · obtain ⟨i, hi, hr⟩ := List.mem_flatMap.mp hr
    obtain ⟨q, hq⟩ := mem_values.mp hi
    rcases h.images.built q i hq with hempty | ⟨name, info, body, hclass, -, hreal⟩
    · simp at hempty
    · rcases hr with _ | ⟨_, hr⟩
      · obtain ⟨Δ, hcons⟩ := hreal.constructor
        exact ⟨_, .constructor hclass hcons hreal.constructor_constant⟩
      · obtain ⟨key, hkey⟩ := mem_values.mp hr
        rcases hreal.methods.built key r hkey with hempty | ⟨span, head, code, hmem, hnamed⟩
        · simp at hempty
        · exact ⟨_, .method hclass hmem hnamed⟩

/-- A function that is seen under a name has been declared under it. -/
theorem function_meant
    (hmem : ⟨name, result, .function params c⟩ ∈ (T.scopes.scope .top).symbols) :
    ∃ head code, head.name = name ∧ T.Meant items c (.function head code) params result := by
  have hknown := h.symbols _ hmem
  generalize ScopeId.top = j at hknown
  cases hknown with
  | stored hslot => simp [Symbol.slot?] at hslot
  | function hitem hmeans hpool => exact ⟨_, _, rfl, .function hitem hmeans hpool⟩

/-- A method that is seen in a class under a name has been declared there under it, or it is the
constructor. -/
theorem method_meant {type : TypeId}
    (hinfo : T.scopes.classInfo? type = some info)
    (hmem : ⟨name, result, .method params c⟩ ∈ (T.scopes.scope info.scopes.methods).symbols) :
    (∃ head code, head.name = name ∧
      T.Meant items c (.method info.scopes.qualified head code) (type :: params) result) ∨
    name = constructorName ∧ ∃ body,
      T.Meant items c (.constructor info.scopes.qualified body) (type :: params) result := by
  obtain ⟨⟨cls, body, hclass⟩, -, hknown⟩ := h.classes _ _ hinfo
  obtain rfl := ScopeTable.classInfo?_type hinfo
  have hknown := hknown _ hmem
  generalize hj : info.scopes.methods = j at hknown
  cases hknown with
  | stored hslot => simp [Symbol.slot?] at hslot
  | constructor hclass' =>
    obtain ⟨cls', body', hclass'⟩ := hclass'
    obtain rfl := methods_inj hclass hclass' hj
    exact .inr ⟨rfl, body, .constructor hclass rfl⟩
  | method hitem hmeans hpool =>
    obtain ⟨cls', body', hclass', hitem⟩ := hitem
    obtain rfl := methods_inj hclass hclass' hj
    exact .inl ⟨_, _, rfl, .method hclass' hitem hmeans hpool⟩

theorem meant (hcallee : Callee T (.call c) params result) :
    ∃ d, T.Meant items c d params result := by
  cases hcallee with
  | function hmem =>
    obtain ⟨head, code, -, hm⟩ := h.function_meant hmem
    exact ⟨_, hm⟩
  | method hinfo hmem =>
    rcases h.method_meant hinfo hmem with ⟨head, code, -, hm⟩ | ⟨-, body, hm⟩ <;> exact ⟨_, hm⟩

variable (hplain : PlainNames items)

include hplain

/-- The image of a class. -/
theorem realises
    (hclass : T.HasClass .top "" items name info body) :
    ∃ i ∈ image.classes.values, i.Realises T T.scopes info body := by
  obtain ⟨i, hi⟩ := h.images.present name info body hclass
  refine ⟨i, mem_values.mpr ⟨_, hi⟩, ?_⟩
  rcases h.images.built _ i hi with hempty | ⟨name', info', body', hclass', hq, hreal⟩
  · simp at hempty
  · obtain ⟨-, rfl, rfl⟩ := hclass'.qualified_inj hclass h.declared hplain hq
    exact hreal

theorem classNames_plain (i : Nat)
    (e : TypeEntry) (he : T.types.entries[i]? = some e) (hkind : e.kind = .classType) :
    IsPlain e.name := by
  obtain ⟨info, body, hclass, -⟩ := h.classTypes i e he hkind
  exact (hclass.plain hplain).1

theorem named : T.types.Named :=
  h.sound.named (h.classNames_plain hplain)

/-- Whatever is meant by a call has been compiled. -/
theorem meant_present
    (hm : T.Meant items c d params result) : ∃ r ∈ image.routines, r.constant = some c := by
  cases hm with
  | function hitem hmeans hpool =>
    obtain ⟨r, hr⟩ := h.functions.present _ _ _ _ _ hitem hmeans
    rcases h.functions.built _ r hr with hempty | ⟨span, head, code, -, hnamed⟩
    · simp at hempty
    · obtain ⟨c', hc', hpool'⟩ := hnamed.constant
      rw [String.empty_append] at hpool'
      obtain rfl := h.pool_inj c c' _ hpool hpool'
      exact ⟨r, List.mem_append_left _ (mem_values.mpr ⟨_, hr⟩), hc'⟩
  | method hclass hitem hmeans hpool =>
    obtain ⟨i, hi, hreal⟩ := h.realises hplain hclass
    obtain ⟨r, hr⟩ := hreal.methods.present _ _ _ _ _ hitem hmeans
    rcases hreal.methods.built _ r hr with hempty | ⟨span, head, code, -, hnamed⟩
    · simp at hempty
    · obtain ⟨c', hc', hpool'⟩ := hnamed.constant
      obtain rfl := h.pool_inj c c' _ hpool hpool'
      refine ⟨r, List.mem_append_right _ (List.mem_flatMap.mpr ⟨i, hi, ?_⟩), hc'⟩
      exact .tail _ (mem_values.mpr ⟨_, hr⟩)
  | constructor hclass hc =>
    obtain ⟨i, hi, hreal⟩ := h.realises hplain hclass
    refine ⟨i.constructor, List.mem_append_right _ (List.mem_flatMap.mpr ⟨i, hi, ?_⟩),
      hc ▸ hreal.constructor_constant⟩
    exact .head _

/-- Heads of one place with the same full name are the same. -/
theorem heads_eq {r : TypeScopeId} {list : List Stmt}
    (hdistinct : T.HeadsDistinct r list) {span' : Span} {head head' : FunctionHead}
    {code' : List Stmt}
    {params' : List TypeId} {result' : TypeId} (hmem : .function span head code ∈ list)
    (hmem' : .function span' head' code' ∈ list) (hm : T.types.HeadMeans r head params result)
    (hm' : T.types.HeadMeans r head' params' result') (hname : head.name = head'.name)
    (hnames : params.map T.types.name = params'.map T.types.name) :
    (head = head' ∧ code = code') ∧ params = params' ∧ result = result' := by
  obtain rfl := (h.named hplain).meanings_inj hm.1 hm'.1 hnames
  obtain ⟨rfl, rfl⟩ := hdistinct.unique hmem hmem' hm hm' hname
  exact ⟨⟨rfl, rfl⟩, rfl, (hm.unique hm').2⟩

/-- What is found under a constant has been compiled from what was meant. -/
theorem meant_source {d' : Callable}
    (hsource : T.Source items r d') (hc : r.constant = some c)
    (hm : T.Meant items c d params result) :
    d' = d ∧ r.params = params ∧ r.result = result := by
  have hresolve := h.sound.toRegular.resolve
  have hwords : ∀ p : TypeId, p.index < T.types.size →
  IsWord (T.types.name (T.types.resolve p)) := by
    intro p hp
    rw [hresolve]
    exact (h.named hplain).name_isWord hp
  cases hsource with
  | function hitem hnamed =>
    obtain ⟨c', hc', hpool'⟩ := hnamed.constant
    cases hc'.symm.trans hc
    cases hm with
    | method _ _ _ hpool => cases hpool.symm.trans hpool'
    | constructor hclass hc =>
      obtain ⟨_, _, hat⟩ := hclass.classAt
      cases (hc ▸ hat.constructor).symm.trans hpool'
    | function hmem hmeans hpool =>
      obtain ⟨ps, res, Δ, hbody, rfl⟩ := hnamed.body
      have hkey := Constant.function.inj (Option.some.inj (hpool'.symm.trans hpool))
      rw [String.empty_append] at hkey
      obtain ⟨hname, hnames⟩ := mangled_inj
        ((hplain.head hitem).not_mem (by decide)) ((hplain.head hmem).not_mem (by decide))
        (fun p hp => hwords p (h.sound.meanings_lt hbody.meaning.1 p hp))
        (fun p hp => hwords p (h.sound.meanings_lt hmeans.1 p hp)) hkey
      simp only [hresolve] at hnames
      obtain ⟨⟨rfl, rfl⟩, rfl, rfl⟩ :=
        h.heads_eq hplain h.heads hitem hmem hbody.meaning hmeans hname hnames
      exact ⟨rfl, hbody.params_eq, hbody.result_eq⟩
  | method hclass hitem hnamed =>
    obtain ⟨c', hc', hpool'⟩ := hnamed.constant
    cases hc'.symm.trans hc
    obtain ⟨ps, res, Δ, hbody, rfl⟩ := hnamed.body
    cases hm with
    | function _ _ hpool => cases hpool.symm.trans hpool'
    | constructor hclass' hc =>
      obtain ⟨_, _, hat⟩ := hclass'.classAt
      have hkey := Constant.method.inj (Option.some.inj (hpool'.symm.trans (hc ▸ hat.constructor)))
      exact absurd hkey (mangled_ne_constructor _ _ _ _)
    | method hclass' hmem hmeans hpool =>
      have hkey := Constant.method.inj (Option.some.inj (hpool'.symm.trans hpool))
      obtain ⟨hstem, hnames⟩ := mangled_inj
        (hclass.method_not_mem hplain hitem) (hclass'.method_not_mem hplain hmem)
        (fun p hp => hwords p (h.sound.meanings_lt hbody.meaning.1 p hp))
        (fun p hp => hwords p (h.sound.meanings_lt hmeans.1 p hp)) hkey
      simp only [hresolve] at hnames
      obtain ⟨hq, hname⟩ := dotted_inj (((hclass.plain hplain).2.head hitem).not_mem (by decide))
        (((hclass'.plain hplain).2.head hmem).not_mem (by decide)) hstem
      obtain ⟨rfl, rfl, rfl⟩ := hclass.qualified_inj hclass' h.declared hplain hq
      obtain ⟨⟨rfl, rfl⟩, rfl, rfl⟩ := h.heads_eq hplain (h.classKnown _ _ _ hclass).distinct hitem
        hmem hbody.meaning hmeans hname hnames
      exact ⟨rfl, hbody.params_eq, hbody.result_eq⟩
  | constructor hclass hcons hc' =>
    obtain ⟨_, _, hat⟩ := hclass.classAt
    cases hc'.symm.trans hc
    cases hm with
    | function _ _ hpool => cases hpool.symm.trans hat.constructor
    | method _ _ _ hpool =>
      have hkey := Constant.method.inj (Option.some.inj (hpool.symm.trans hat.constructor))
      exact absurd hkey (mangled_ne_constructor _ _ _ _)
    | constructor hclass' hc =>
      obtain ⟨_, _, hat'⟩ := hclass'.classAt
      have hkey := Constant.method.inj
        (Option.some.inj (hat.constructor.symm.trans (hc ▸ hat'.constructor)))
      rw [← hat.qualified_eq, ← hat'.qualified_eq] at hkey
      obtain ⟨hq, -⟩ := dotted_inj (by decide) (by decide) hkey
      obtain ⟨-, rfl, rfl⟩ := hclass.qualified_inj hclass' h.declared hplain hq
      exact ⟨rfl, hcons.params_eq, hcons.result_eq⟩

/-- The routine that is called is there. -/
theorem resolved
    (hm : T.Meant items c d params result) :
    ∃ r, (Program.load image).routines[c]? = some r ∧ T.Source items r d ∧ r.params = params ∧
      r.result = result := by
  obtain ⟨r0, hr0, hc0⟩ := h.meant_present hplain hm
  obtain ⟨r, hr⟩ := Program.load_routines_present hr0 hc0
  obtain ⟨hmem, hc⟩ := Program.load_routines_found hr
  obtain ⟨d', hsource⟩ := h.source hmem
  obtain ⟨rfl, hparams, hresult⟩ := h.meant_source hplain hsource hc hm
  exact ⟨r, hr, hsource, hparams, hresult⟩

/-- A class that is made is there, and so is its constructor. -/
theorem shape_resolved
    (hclass : T.HasClass .top "" items name info body) :
    ∃ i, (Program.load image).shapes[info.scopes.constant]? = some (Program.shapeOf i) ∧
      i.Realises T T.scopes info body := by
  obtain ⟨i0, hi0, hreal0⟩ := h.realises hplain hclass
  obtain ⟨shape, hshape⟩ := Program.load_shapes_present hi0
  rw [hreal0.constant_eq] at hshape
  obtain ⟨i, hi, hc, rfl⟩ := Program.load_shapes_found hshape
  obtain ⟨key, hkey⟩ := mem_values.mp hi
  rcases h.images.built key i hkey with hempty | ⟨name', info', body', hclass', -, hreal⟩
  · simp at hempty
  · obtain ⟨_, _, hat⟩ := hclass.classAt
    obtain ⟨_, _, hat'⟩ := hclass'.classAt
    rw [hreal.constant_eq] at hc
    have hq := Constant.classRef.inj
      (Option.some.inj (hat.constant.symm.trans (hc ▸ hat'.constant)))
    rw [← hat.qualified_eq, ← hat'.qualified_eq] at hq
    obtain ⟨-, rfl, rfl⟩ := hclass.qualified_inj hclass' h.declared hplain hq
    exact ⟨i, hshape, hreal⟩

end Image.Compiled

/-! ## Layouts -/

theorem filter_slots (l : List Symbol) :
    (l.filter fun sym => sym.slot?.isSome).map (fun sym => sym.slot?.getD 0) =
      l.filterMap Symbol.slot? := by
  induction l with
  | nil => rfl
  | cons sym l ih =>
    cases hslot : sym.slot? with
    | none =>
      rw [List.filter_cons_of_neg (by simp [hslot]), List.filterMap_cons_none hslot, ih]
    | some m =>
      rw [List.filter_cons_of_pos (by simp [hslot]), List.filterMap_cons_some hslot, List.map_cons,
        ih, hslot, Option.getD_some]

/-- The members of a class in the order of their slots, which leave no gap. -/
theorem Tables.MembersNumbered.members (h : T.MembersNumbered info) :
    (T.scopes.members info.scopes.members).length ≤ 65536 ∧
      (∀ (i : Nat) sym, (T.scopes.members info.scopes.members)[i]? = some sym →
        sym.slot? = some i.toUInt16) ∧
      ∀ sym, sym ∈ T.scopes.members info.scopes.members ↔
        sym ∈ (T.scopes.scope info.scopes.members).symbols ∧ sym.slot?.isSome = true := by
  obtain ⟨n, hn, hslots⟩ := h
  rw [← filter_slots] at hslots
  have hsorted : T.scopes.members info.scopes.members =
      (T.scopes.scope info.scopes.members).symbols.toList.filter fun sym => sym.slot?.isSome := by
    refine List.mergeSort_of_pairwise ?_
    have hrange : ((List.range n).map Nat.toUInt16).Pairwise (· ≤ ·) := by
      refine List.pairwise_map.mpr (List.pairwise_lt_range.imp_of_mem fun {a b} ha hb hab => ?_)
      have := List.mem_range.mp ha
      have := List.mem_range.mp hb
      rw [UInt16.le_iff_toNat_le, Nat.toUInt16_eq, Nat.toUInt16_eq, UInt16.toNat_ofNat',
        UInt16.toNat_ofNat']
      omega
    rw [← hslots] at hrange
    exact (List.pairwise_map.mp hrange).imp fun hle => decide_eq_true hle
  rw [hsorted]
  refine ⟨?_, fun i sym hi => ?_, fun sym => ?_⟩
  · have hlen := congrArg List.length hslots
    rw [List.length_map, List.length_map, List.length_range] at hlen
    omega
  · have hsome := (List.mem_filter.mp (List.mem_of_getElem? hi)).2
    have hslot := congrArg (·[i]?) hslots
    simp only [List.getElem?_map, hi, Option.map_some] at hslot
    obtain ⟨j, hj, hslot⟩ := Option.map_eq_some_iff.mp hslot.symm
    obtain ⟨m, hm⟩ := Option.isSome_iff_exists.mp hsome
    rw [hm, Option.getD_some] at hslot
    rw [hm, ← hslot]
    have := (getElem_of_getElem? hj).2
    rw [List.getElem_range] at this
    rw [this]
  · rw [List.mem_filter, Array.mem_toList_iff]

theorem Tables.MembersNumbered.slot_eq (h : T.MembersNumbered info) {k : Nat} {sym : Symbol}
    {m : UInt16}
    (hk : (T.scopes.members info.scopes.members)[k]? = some sym) (hm : sym.slot? = some m) :
    m.toNat = k := by
  obtain ⟨hlen, hslots, -⟩ := h.members
  have hlt := (getElem_of_getElem? hk).1
  cases (hslots k sym hk).symm.trans hm
  rw [Nat.toUInt16_eq, UInt16.toNat_ofNat']
  omega

/-- A layout gives each member of a class the kind of its type, and there are no other places. -/
structure Tables.Lays (T : Tables) (info : ClassInfo) (body : List Stmt) (shape : Shape) :
    Prop where
  kinds : ∀ sym ∈ (T.scopes.scope info.scopes.members).symbols, ∀ m, sym.slot? = some m →
    shape.kinds[m.toNat]? = some (T.types.kindOf sym.type)
  slots : ∀ i < shape.kinds.length, ∃ sym ∈ (T.scopes.scope info.scopes.members).symbols, ∃ m,
    sym.slot? = some m ∧ m.toNat = i
  members : ∀ span name term init, .var span name term init ∈ body → ∃ type slot,
    T.types.meaning info.scopes.types term = some type ∧ T.HasMember info name slot type

theorem Image.Compiled.lays {image : Image} (h : image.Compiled items T) {body : List Stmt}
    (hclass : T.HasClass .top "" items name info body) {i : ClassImage}
    (hreal : i.Realises T T.scopes info body) : T.Lays info body (Program.shapeOf i) := by
  obtain ⟨_, _, hat⟩ := hclass.classAt
  have hnumbered := (h.classes _ _ hat.found).2.1
  obtain ⟨-, hslots, hmem⟩ := hnumbered.members
  have hkinds : (Program.shapeOf i).kinds =
      (T.scopes.members info.scopes.members).map fun sym => T.types.kindOf sym.type := by
    rw [Program.shapeOf, Array.toList_map, hreal.members_eq, List.map_map]
    exact List.map_congr_left fun sym _ => (h.sound.kindOf sym.type).symm
  refine ⟨fun sym hsym m hm => ?_, fun k hk => ?_, fun span name term init hvar => ?_⟩
  · obtain ⟨k, hk⟩ := List.mem_iff_getElem?.mp ((hmem sym).mpr ⟨hsym, by rw [hm]; rfl⟩)
    rw [hkinds, List.getElem?_map, hnumbered.slot_eq hk hm, hk, Option.map_some]
  · rw [hkinds, List.length_map] at hk
    have hget := List.getElem?_eq_getElem hk
    exact ⟨_, ((hmem _).mp (List.getElem_mem hk)).1, _, hslots k _ hget,
      hnumbered.slot_eq hget (hslots k _ hget)⟩
  · exact (h.classKnown _ _ _ hclass).members info rfl span name term init hvar

end Bytescript
