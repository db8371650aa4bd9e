import Bytescript.Proofs.Nesting

/-!
# What names mean

While a scope is open, the scopes that are older than it are not removed, and all that happens to
them is that they are given symbols (`Nested.outer_kept`). So when it has been removed again, names
mean in these scopes what they meant before, but for the symbols that have been declared since
(`Nested.restores_finds`).

Among the variables that can be named from a scope there is an innermost one of each name, up to the
next slot root (`Nested.lookupVariable_iff`).
-/

namespace Bytescript

def ScopeOp.opens : ScopeOp → Bool
  | .openBlock | .openBody _ => true
  | _ => false

namespace ScopeTable

/-! ## Symbols that scopes are given -/

/-- The symbols that operations declare, those that are refused left out. -/
def declared (t : ScopeTable) : List ScopeOp → List (ScopeId × Symbol)
  | [] => []
  | op :: ops => op.declares (t.perform op).1 ++ (t.perform op).2.declared ops

/-- The table with further symbols, as far as it has their scopes. -/
def declareAll (t : ScopeTable) (syms : List (ScopeId × Symbol)) : ScopeTable :=
  syms.foldl (fun t p => t.declare p.1 p.2) t

/-- The symbols among these that belong to a scope. -/
def given (syms : List (ScopeId × Symbol)) (j : ScopeId) : List Symbol :=
  (syms.filter fun p => p.1 = j).map (·.2)

/-- A scope later on, with further symbols. -/
structure Gains (before later : Scope) (more : List Symbol) : Prop where
  path : later.path = before.path
  kind : later.kind = before.kind
  alive : later.alive = before.alive
  symbols : later.symbols.toList = before.symbols.toList ++ more

theorem Gains.refl (s : Scope) : Gains s s [] := ⟨rfl, rfl, rfl, (List.append_nil _).symm⟩

variable {s s' : Scope} {j r : ScopeId} {t t' : ScopeTable} {name : String} {v : Symbol}

theorem Gains.of_eq (h : s' = s) : Gains s s' [] := h ▸ .refl s

theorem Gains.trans {s'' : Scope} {more more' : List Symbol} (h : Gains s s' more)
    (h' : Gains s' s'' more') : Gains s s'' (more ++ more') where
  path := h'.path.trans h.path
  kind := h'.kind.trans h.kind
  alive := h'.alive.trans h.alive
  symbols := by rw [h'.symbols, h.symbols, List.append_assoc]

theorem declare_gains (t : ScopeTable) (c : ScopeId) (sym : Symbol) (hj : j.index < t.size) :
    Gains (t.scope j) ((t.declare c sym).scope j) (given [(c, sym)] j) := by
  rw [declare_scope]
  by_cases hjc : j = c
  · rw [if_pos ⟨hjc, hj⟩]
    exact ⟨rfl, rfl, rfl, by simp [given, hjc]⟩
  · rw [if_neg fun heq => hjc heq.1]
    have hnone : given [(c, sym)] j = [] := by simp [given, Ne.symm hjc]
    exact hnone ▸ .refl _

theorem takeSlot_gains (t : ScopeTable) (r j : ScopeId) :
    Gains (t.scope j) ((t.takeSlot r).scope j) [] := by
  obtain ⟨hpath, -, hkind, halive, hsymbols⟩ := takeSlot_shape t r j
  exact ⟨hpath, hkind, halive, by rw [hsymbols, List.append_nil]⟩

theorem given_append (syms syms' : List (ScopeId × Symbol)) (j : ScopeId) :
    given (syms ++ syms') j = given syms j ++ given syms' j := by
  simp [given]

theorem declareAll_gains (syms : List (ScopeId × Symbol)) (hj : j.index < t.size) :
    Gains (t.scope j) ((t.declareAll syms).scope j) (given syms j) := by
  induction syms generalizing t with
  | nil => exact .refl _
  | cons p syms ih =>
    have hrest := ih (t := t.declare p.1 p.2) (by rwa [declare_size])
    rw [← List.singleton_append, given_append]
    exact (declare_gains t p.1 p.2 hj).trans hrest

theorem Yields.gains {syms : List (ScopeId × Symbol)} (hy : t.Yields syms t') (h : t.Nested)
    (hj : j.index < t.size) (hopen : j ∈ t.active → j ∈ t'.active) :
    Gains (t.scope j) (t'.scope j) (given syms j) := by
  cases hy with
  | keeps => exact .refl _
  | opens parent kind _ _ => exact .of_eq (push_scope_old hj)
  | closes c rest hactive =>
    refine .of_eq (h.remove_scope_ne hactive ?_)
    rintro rfl
    have hmem := hopen (hactive ▸ (.head _))
    rw [h.remove_active hactive] at hmem
    exact h.innermost_not_mem hactive hmem
  | enters u c sym hu _ _ =>
    rcases hu with rfl | ⟨r, rfl⟩
    · exact declare_gains _ c sym hj
    · exact (takeSlot_gains t r j).trans (declare_gains (t.takeSlot r) c sym
        (by rwa [takeSlot_size]))
  | joins c sym depth classes _ _ =>
    have hsize : j.index < (t.openTables c depth).size := by rw [openTables_size]; omega
    exact (Gains.of_eq (openTables_scope depth c hj)).trans (declare_gains _ c sym hsize)

/-! ## Open scopes -/

section

variable {t : ScopeTable} {ops : List ScopeOp} {c : ScopeId} {inner outer : List ScopeId}

/-- A scope that is not open any more is never opened again. -/
theorem Nested.active_before (h : t.Nested) (hops : t.Runs ops) (hc : c.index < t.size)
    (hend : c ∈ (t.after ops).active) : c ∈ t.active := by
  induction ops generalizing t with
  | nil => exact hend
  | cons op ops ih =>
    have hy := h.performs hops.1
    have hmem := ih (hy.nested h) hops.2 (Nat.lt_of_lt_of_le hc (hy.size_le h)) hend
    rcases hy.active h with heq | heq | ⟨d, heq⟩
    · rwa [heq] at hmem
    · rw [heq] at hmem
      rcases hmem with _ | ⟨_, hmem⟩
      · exact absurd hc (Nat.lt_irrefl _)
      · exact hmem
    · rw [heq]
      exact List.mem_cons_of_mem d hmem

/-- What has been opened inside a scope is newer than it, so nothing older goes before it does. -/
theorem Yields.outer_kept {t' : ScopeTable} {syms : List (ScopeId × Symbol)} (hy : t.Yields syms t')
    (h : t.Nested) (hactive : t.active = inner ++ c :: outer) (hstill : c ∈ t'.active) :
    (∃ inner', t'.active = inner' ++ c :: outer) ∧
      ∀ j, j.index < c.index → Gains (t.scope j) (t'.scope j) (given syms j) := by
  have hc : c.index < t.size := (h.active c (hactive ▸ List.mem_append_right _ (.head _))).1
  suffices hstep : (∃ inner', t'.active = inner' ++ c :: outer) ∧
      ∀ j, j.index < c.index → j ∈ t.active → j ∈ t'.active from
    ⟨hstep.1, fun j hj => hy.gains h (Nat.lt_trans hj hc) (hstep.2 j hj)⟩
  rcases hy.active h with heq | heq | ⟨d, heq⟩
  · exact ⟨⟨inner, heq.trans hactive⟩, fun j _ hj => heq ▸ hj⟩
  · exact ⟨⟨⟨t.size⟩ :: inner, by rw [heq, hactive, List.cons_append]⟩,
      fun j _ hj => heq ▸ .tail _ hj⟩
  · have hlt := (h.lt_innermost heq hstill).1
    refine ⟨?_, fun j hj hmem => ?_⟩
    · rw [hactive] at heq
      cases inner with
      | nil =>
        rw [(List.cons.inj heq).1] at hlt
        exact absurd hlt (Nat.lt_irrefl _)
      | cons e inner => exact ⟨inner, (List.cons.inj heq).2.symm⟩
    · rw [heq] at hmem
      rcases hmem with _ | ⟨_, hmem⟩
      · exact absurd (Nat.lt_trans hj hlt) (Nat.lt_irrefl _)
      · exact hmem

/-- As long as a scope is open, the scopes that are older than it are only given symbols, and those
that were open around it stay so. -/
theorem Nested.outer_kept (h : t.Nested) (hops : t.Runs ops)
    (hactive : t.active = inner ++ c :: outer) (hend : c ∈ (t.after ops).active) :
    (∃ inner', (t.after ops).active = inner' ++ c :: outer) ∧
      ∀ j, j.index < c.index → Gains (t.scope j) ((t.after ops).scope j)
        (given (t.declared ops) j) := by
  induction ops generalizing t inner with
  | nil => exact ⟨⟨inner, hactive⟩, fun j _ => .refl _⟩
  | cons op ops ih =>
    have hy := h.performs hops.1
    have hc : c.index < t.size := (h.active c (hactive ▸ List.mem_append_right _ (.head _))).1
    have hstill : c ∈ (t.perform op).2.active :=
      (hy.nested h).active_before hops.2 (Nat.lt_of_lt_of_le hc (hy.size_le h)) hend
    obtain ⟨⟨inner', hactive'⟩, hstep⟩ := hy.outer_kept h hactive hstill
    obtain ⟨hfinal, hrest⟩ := ih (hy.nested h) hops.2 hactive' hend
    refine ⟨hfinal, fun j hj => ?_⟩
    rw [declared, given_append]
    exact (hstep j hj).trans (hrest j hj)

end

/-! ## Lookups -/

/-- What a name means in a scope: the symbol, the variable and the functions that are found. -/
def finds (t : ScopeTable) (s : ScopeId) (name : String) :
    Option Symbol × Option Symbol × List Symbol :=
  (t.lookup s name, t.lookupVariable s name, t.lookupFunctions s name)

theorem finds_congr {s : ScopeId} (hpath : t'.path s = t.path s)
    (h : ∀ r ∈ t.path s, (t'.scope r).kind = (t.scope r).kind ∧
      (t'.scope r).symbols = (t.scope r).symbols)
    (name : String) : t'.finds s name = t.finds s name := by
  have hmap : ∀ {α : Type} (f : Array Symbol → α),
      (t.path s).map (fun r => f (t'.scope r).symbols) = (t.path s).map fun r =>
        f (t.scope r).symbols :=
    fun f => List.map_congr_left fun r hr => by rw [(h r hr).2]
  have hlookup : t'.lookup s name = t.lookup s name := by
    have heq := congrArg (List.findSome? id) (hmap fun syms => syms.findRev? (·.name = name))
    rw [List.findSome?_map, List.findSome?_map] at heq
    rw [lookup, hpath]
    exact heq
  have hfunctions : t'.lookupFunctions s name = t.lookupFunctions s name := by
    rw [lookupFunctions, lookupFunctions, hpath, List.flatMap_def, List.flatMap_def,
      hmap fun syms => syms.toList.filter fun sym => sym.isFunction && sym.name = name]
  have hvariable : t'.lookupVariable s name = t.lookupVariable s name :=
    lookupVariable_congr hpath h name
  rw [finds, hlookup, hvariable, hfunctions, finds]

section

variable {t : ScopeTable} (h : t.Nested) {op : ScopeOp} (hop : op.opens = true) {ops : List ScopeOp}
  (hops : t.Runs (op :: ops)) (hinnermost : (t.after (op :: ops)).active.head? = some ⟨t.size⟩)

include h hop hops hinnermost

/-- A scope has been opened, things were done, and it is the innermost open one again. -/
theorem Nested.innermost_again : (t.after (op :: ops)).active = ⟨t.size⟩ :: t.active ∧
    ∀ j, j.index < t.size →
      Gains (t.scope j) ((t.after (op :: ops)).scope j) (given (t.declared (op :: ops)) j) := by
  have hy := h.performs hops.1
  have hopened : (t.perform op).2.active = ⟨t.size⟩ :: t.active := by
    cases op with
    | openBlock | openBody _ => rfl
    | _ => cases hop
  obtain ⟨⟨inner, hactive⟩, hgains⟩ := (hy.nested h).outer_kept hops.2
    (hopened.trans (List.nil_append _).symm) (List.mem_of_mem_head? hinnermost)
  refine ⟨?_, fun j hj => ?_⟩
  · have hinward := (h.after hops).inward
    rw [after_cons] at hinnermost hinward ⊢
    rw [hactive] at hinnermost hinward ⊢
    cases inner with
    | nil => rfl
    | cons e inner =>
      -- the scope would be open twice
      cases hinnermost
      have hlt := (List.pairwise_cons.mp hinward).1 _ (List.mem_append_right _ (.head _))
      exact absurd hlt.1 (Nat.lt_irrefl _)
  · rw [declared, given_append]
    refine (hy.gains h hj fun hmem => ?_).trans (hgains j hj)
    rw [hopened]
    exact .tail _ hmem

/-- When the scope is removed, the older ones are as they were but for the symbols that they have
been given. -/
theorem Nested.restores {j : ScopeId} (hj : j.index < t.size) :
    Gains (t.scope j) (((t.after (op :: ops)).perform .close).2.scope j)
      (given (t.declared (op :: ops)) j) := by
  obtain ⟨hactive, hgains⟩ := h.innermost_again hop hops hinnermost
  have hne : j ≠ ⟨t.size⟩ := by
    rintro rfl
    exact Nat.lt_irrefl _ hj
  have hsame := (h.after hops).remove_scope_ne hactive hne
  rw [← List.append_nil (given _ j)]
  exact (hgains j hj).trans (.of_eq hsame)

theorem Nested.restores_living {s : ScopeId} (hs : s.index < t.size) :
    ((t.after (op :: ops)).perform .close).2.Living s ↔ t.Living s := by
  have hsize : ((t.after (op :: ops)).perform .close).2.size = (t.after (op :: ops)).size :=
    remove_size _ _
  have hlt : s.index < ((t.after (op :: ops)).perform .close).2.size := by
    rw [hsize]
    exact Nat.lt_of_lt_of_le hs (h.size_le hops)
  rw [Living, Living, isAlive, (h.restores hop hops hinnermost hs).alive]
  exact ⟨fun hliving => ⟨hs, hliving.2⟩, fun hliving => ⟨hlt, hliving.2⟩⟩

theorem Nested.restores_finds {s : ScopeId} (hs : s.index < t.size) (name : String) :
    ((t.after (op :: ops)).perform .close).2.finds s name =
      (t.declareAll (t.declared (op :: ops))).finds s name := by
  have hpath := (declareAll_gains (t.declared (op :: ops)) hs).path
  refine finds_congr ((h.restores hop hops hinnermost hs).path.trans hpath.symm)
    (fun r hr => ?_) name
  rw [ScopeTable.path, hpath] at hr
  have hlt : r.index < t.size := h.path_lt hr
  have hclosed := h.restores hop hops hinnermost hlt
  have hdeclared := declareAll_gains (t.declared (op :: ops)) hlt
  refine ⟨hclosed.kind.trans hdeclared.kind.symm, ?_⟩
  rw [← Array.toList_inj, hclosed.symbols, hdeclared.symbols]

end

/-! ### Variables -/

/-- The variable is the innermost one of its name, and no slot root is nearer. -/
def Sees (t : ScopeTable) (s : ScopeId) (name : String) (v : Symbol) : Prop :=
  ∃ inner r outer, t.path s = inner ++ r :: outer ∧
    (∀ q ∈ inner, (t.scope q).kind.ownsSlots = false ∧
      ∀ w ∈ (t.scope q).symbols, isVariable name w = false) ∧
    v ∈ (t.scope r).symbols ∧ isVariable name v = true

theorem frameOn_split {path inner : List ScopeId} :
    (∃ outer, t.frameOn path = inner ++ r :: outer) ↔
      (∃ outer, path = inner ++ r :: outer) ∧ ∀ q ∈ inner, (t.scope q).kind.ownsSlots = false := by
  induction path generalizing inner with
  | nil => simp [frameOn]
  | cons id rest ih =>
    cases inner with
    | nil =>
      rw [frameOn]
      split <;> simp
    | cons q inner =>
      by_cases howns : (t.scope id).kind.ownsSlots = true
      · simp only [frameOn, howns, ↓reduceIte, List.cons_append, List.cons.injEq]
        refine iff_of_false (by simp) ?_
        rintro ⟨⟨outer, rfl, -⟩, hinner⟩
        rw [hinner id List.mem_cons_self] at howns
        cases howns
      · simp only [frameOn, howns, Bool.false_eq_true, ↓reduceIte, List.cons_append,
          List.cons.injEq, List.forall_mem_cons]
        constructor
        · rintro ⟨outer, rfl, hrest⟩
          obtain ⟨⟨outer', hrest'⟩, hinner⟩ := ih.mp ⟨outer, hrest⟩
          exact ⟨⟨outer', rfl, hrest'⟩, Bool.not_eq_true _ ▸ howns, hinner⟩
        · rintro ⟨⟨outer, rfl, hrest⟩, -, hinner⟩
          obtain ⟨outer', hrest'⟩ := ih.mpr ⟨⟨outer, hrest⟩, hinner⟩
          exact ⟨outer', rfl, hrest'⟩

/-- A scope has at most one variable of a name. -/
theorem eq_of_apart {syms : List Symbol} (h : syms.Pairwise Symbol.Apart) {w : Symbol}
    (hv : v ∈ syms)
    (hw : w ∈ syms) (hv' : isVariable name v = true) (hw' : isVariable name w = true) : v = w := by
  have hnot : ∀ {a b : Symbol}, isVariable name a = true → isVariable name b = true →
  ¬ a.Apart b := by
    intro a b ha hb hab
    simp only [isVariable, Bool.and_eq_true, decide_eq_true_eq] at ha hb
    obtain ⟨p, q, hp, -⟩ := hab (ha.2.trans hb.2.symm)
    obtain ⟨_, _, role⟩ := a
    cases role <;> simp [Symbol.slot?, Symbol.params?] at ha hp
  induction h with
  | nil => cases hv
  | cons hhead _ ih =>
    rcases List.mem_cons.mp hv, List.mem_cons.mp hw with ⟨rfl | hvrest, rfl | hwrest⟩
    · rfl
    · exact absurd (hhead w hwrest) (hnot hv' hw')
    · exact absurd (hhead v hvrest) (hnot hw' hv')
    · exact ih hvrest hwrest

theorem Nested.find_variable (h : t.Nested) :
    (t.scope r).symbols.find? (isVariable name) = some v ↔
      v ∈ (t.scope r).symbols ∧ isVariable name v = true := by
  refine ⟨fun hfind => ⟨Array.mem_of_find?_eq_some hfind, Array.find?_some hfind⟩, fun ⟨hv, hv'⟩ =>
    ?_⟩
  cases hfind : (t.scope r).symbols.find? (isVariable name) with
  | none => exact absurd hv' (Array.find?_eq_none.mp hfind v hv)
  | some w =>
    have hw := Array.mem_toList_iff.mpr (Array.mem_of_find?_eq_some hfind)
    rw [eq_of_apart (h.apart r) hw (Array.mem_toList_iff.mpr hv) (Array.find?_some hfind) hv']

theorem Nested.lookupVariable_iff (h : t.Nested) {s : ScopeId} :
    t.lookupVariable s name = some v ↔ t.Sees s name v := by
  have hnone : ∀ q, (t.scope q).symbols.find? (isVariable name) = none ↔
      ∀ w ∈ (t.scope q).symbols, isVariable name w = false := by
    intro q
    rw [Array.find?_eq_none]
    simp only [Bool.not_eq_true]
  rw [lookupVariable, lookupVariableOn_eq, List.findSome?_eq_some_iff]
  constructor
  · rintro ⟨inner, r, outer, hframe, hfind, hinner⟩
    obtain ⟨⟨outer', hpath⟩, howns⟩ := frameOn_split.mp ⟨outer, hframe⟩
    exact ⟨inner, r, outer', hpath, fun q hq => ⟨howns q hq, (hnone q).mp (hinner q hq)⟩,
      h.find_variable.mp hfind⟩
  · rintro ⟨inner, r, outer, hpath, hinner, hv⟩
    obtain ⟨outer', hframe⟩ := frameOn_split.mpr ⟨⟨outer, hpath⟩, fun q hq => (hinner q hq).1⟩
    exact ⟨inner, r, outer', hframe, h.find_variable.mpr hv,
      fun q hq => (hnone q).mpr (hinner q hq).2⟩

theorem insertVariable_redeclared (t : ScopeTable) (s : ScopeId) (name : String) (type : TypeId) :
    (t.insertVariable s name type).1 = .error (.redeclared name) ↔
      (∃ v, t.lookupVariable s name = some v) ∨ ∃ sym ∈ (t.scope s).symbols, sym.name = name := by
  have hhere : (t.lookupHere s name).isSome = true ↔ ∃ sym ∈ (t.scope s).symbols,
    sym.name = name := by
    rw [lookupHere, Array.find?_isSome]
    simp
  rw [← hhere, ← Option.isSome_iff_exists, ← Bool.or_eq_true]
  unfold insertVariable
  split
  next hclash => exact iff_of_true rfl hclash
  next hfree =>
    refine iff_of_false ?_ hfree
    dsimp only
    split <;> simp

end ScopeTable

end Bytescript
