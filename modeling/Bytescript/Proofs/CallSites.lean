import Bytescript.Proofs.Lowering.Image

/-!
# Where calls come from

Code calls a routine or makes an object only where an expression of its source says so. Each such
instruction stands at the end of the code of a call or of a creation (`Expr.LinksBy`) that is part
of what the code was compiled from (`Linked`); conversions, operations and jumps link to nothing.
-/

namespace Bytescript

open TypeTable (primitives)

/-! ## Parts of a script -/

/-- The expressions that an expression is made of. -/
def Expr.operands : Expr → List Expr
  | .unary _ _ e | .property _ e _ | .newArray _ _ e | .cast _ _ e => [e]
  | .binary _ _ l r | .assign _ _ l r | .index _ l r => [l, r]
  | .call _ _ args => args
  | .methodCall _ receiver _ args => receiver :: args
  | _ => []

/-- An expression is another one or part of it. -/
inductive Expr.Has : Expr → Expr → Prop
  | self (e : Expr) : Expr.Has e e
  | operand {e x y} : x ∈ e.operands → Expr.Has x y → Expr.Has e y

def Arm.cond : Arm → Expr
  | .mk cond _ => cond

def Arm.body : Arm → Stmt
  | .mk _ body => body

/-- The expressions that a statement itself contains. -/
def Stmt.exprs : Stmt → List Expr
  | .var _ _ _ init => init.toList
  | .expr _ e | .delete _ e => [e]
  | .choose _ arms _ => arms.map Arm.cond
  | .whileLoop _ cond _ => [cond]
  | .forLoop _ _ cond step _ => cond.toList ++ step.toList
  | .ret _ value => value.toList
  | _ => []

/-- The statements that a statement is made of. Functions and classes are compiled on their own. -/
def Stmt.parts : Stmt → List Stmt
  | .block _ body => body
  | .choose _ arms otherwise => arms.map Arm.body ++ otherwise.toList
  | .whileLoop _ _ body => [body]
  | .forLoop _ init _ _ body => init.toList ++ [body]
  | _ => []

/-- An expression occurs in a statement. -/
inductive Stmt.Has : Stmt → Expr → Prop
  | expr {s x e} : x ∈ s.exprs → x.Has e → Stmt.Has s e
  | part {s s' e} : s' ∈ s.parts → Stmt.Has s' e → Stmt.Has s e

def Task.Has : Task → Expr → Prop
  | .stmt s, e => s.Has e
  | .stmts list, e => ∃ s ∈ list, s.Has e
  | .arms _ list _, e => ∃ a ∈ list, a.cond.Has e ∨ a.body.Has e

def Work.Has : Work → Expr → Prop
  | .expr x _, e => x.Has e
  | .args list _ _, e => ∃ x ∈ list, x.Has e

/-! ## Instructions that link -/

/-- Whether an instruction names a routine or a class. -/
def Instruction.isLink : Instruction → Bool
  | .call _ | .newObject _ => true
  | _ => false

/-- The code that a call or a creation ends with. -/
inductive Expr.LinksBy : Expr → List Instruction → Prop
  | call {span name args c} : Expr.LinksBy (.call span name args) [.call c]
  | methodCall {span receiver name args c} :
    Expr.LinksBy (.methodCall span receiver name args) [.call c]
  | newObject {span name k c} : Expr.LinksBy (.newObject span name) [.newObject k, .call c]

theorem append_eq_append_cons {α : Type} {c d before after : List α} {i : α}
    (h : c ++ d = before ++ i :: after) :
    (∃ mid, before = c ++ mid ∧ d = mid ++ i :: after) ∨
      ∃ mid, c = before ++ i :: mid ∧ after = mid ++ d := by
  rcases List.append_eq_append_iff.mp h with ⟨mid, hbefore, hd⟩ | ⟨mid, hc, hafter⟩
  · exact .inl ⟨mid, hbefore, hd⟩
  · cases mid with
    | nil => exact .inl ⟨[], by rw [hc, List.append_nil, List.append_nil], hafter.symm⟩
    | cons j mid =>
      obtain ⟨rfl, hrest⟩ := List.cons.inj hafter
      exact .inr ⟨mid, hc, hrest⟩

/-- Wherever code that begins at `b` links to something, there ends the code of an expression among
`S` that says so. -/
def Linked (T : Tables) (H : Home) (S : Expr → Prop) (b : Nat) (code : List Instruction) : Prop :=
  ∀ before i after, code = before ++ i :: after → i.isLink = true →
    ∃ Γ e t start pre left right, S e ∧ e.LinksBy (left ++ i :: right) ∧
      Computes T H Γ (.expr e t) start (pre ++ (left ++ i :: right)) ∧
      start + (pre ++ left).length = b + before.length ∧ (pre ++ left) <:+ before ∧ right <+: after

namespace Linked

variable {T : Tables} {H : Home} {S S' : Expr → Prop} {b : Nat} {c d : List Instruction} {e : Expr}
  {i : Instruction}

theorem mono (h : Linked T H S b c) (hS : ∀ e, S e → S' e) : Linked T H S' b c := by
  intro before i after hcode hlink
  obtain ⟨Γ, e, t, start, pre, left, right, hmem, hrest⟩ := h before i after hcode hlink
  exact ⟨Γ, e, t, start, pre, left, right, hS e hmem, hrest⟩

theorem plain (h : ∀ i ∈ c, i.isLink = false) : Linked T H S b c := by
  intro before i after hcode hlink
  rw [h i (hcode ▸ List.mem_append_right _ List.mem_cons_self)] at hlink
  cases hlink

theorem append (hc : Linked T H S b c) (hd : Linked T H S (b + c.length) d) :
    Linked T H S b (c ++ d) := by
  intro before i after hcode hlink
  rcases append_eq_append_cons hcode with ⟨mid, rfl, rfl⟩ | ⟨mid, rfl, rfl⟩
  · obtain ⟨Γ, e, t, start, pre, left, right, hmem, hby, hcomp, hstart, hpre, hpost⟩ :=
      hd mid i after rfl hlink
    refine ⟨Γ, e, t, start, pre, left, right, hmem, hby, hcomp, ?_,
      hpre.trans (List.suffix_append _ _), hpost⟩
    rw [hstart, List.length_append, Nat.add_assoc]
  · obtain ⟨Γ, e, t, start, pre, left, right, hmem, hby, hcomp, hstart, hpre, hpost⟩ :=
      hc before i mid rfl hlink
    exact ⟨Γ, e, t, start, pre, left, right, hmem, hby, hcomp, hstart, hpre,
      hpost.trans (List.prefix_append _ _)⟩

/-- An expression that says so itself. -/
theorem own {Γ : Locals} {t : TypeId} (hmem : S e) (hby : e.LinksBy d)
    (hcomp : Computes T H Γ (.expr e t) b (c ++ d)) (hc : Linked T H S b c) :
    Linked T H S b (c ++ d) := by
  intro before i after hcode hlink
  rcases append_eq_append_cons hcode with ⟨mid, rfl, rfl⟩ | ⟨mid, rfl, rfl⟩
  · exact ⟨Γ, e, t, b, c, mid, after, hmem, hby, hcomp, rfl, List.suffix_rfl, List.prefix_rfl⟩
  · obtain ⟨Γ', e', t', start, pre, left, right, hmem', hby', hcomp', hstart, hpre, hpost⟩ :=
      hc before i mid rfl hlink
    exact ⟨Γ', e', t', start, pre, left, right, hmem', hby', hcomp', hstart, hpre,
      hpost.trans (List.prefix_append _ _)⟩

theorem snoc (hc : Linked T H S b c) (hi : i.isLink = false) : Linked T H S b (c ++ [i]) :=
  hc.append (.plain fun j hj => by rw [List.mem_singleton.mp hj, hi])

theorem cons (hi : i.isLink = false) (hc : Linked T H S (b + 1) c) : Linked T H S b (i :: c) := by
  have hfirst : Linked T H S b [i] := .plain fun j hj => by rw [List.mem_singleton.mp hj, hi]
  exact hfirst.append hc

theorem operand {x : Expr} (hc : Linked T H x.Has b c) (hx : x ∈ e.operands) :
    Linked T H e.Has b c := hc.mono fun _ => .operand hx

theorem args {list : List Expr} {found types : List TypeId}
    (hc : Linked T H (Work.args list found types).Has b c) (hlist : ∀ x ∈ list, x ∈ e.operands) :
    Linked T H e.Has b c :=
  hc.mono fun _ ⟨x, hx, hy⟩ => .operand (hlist x hx) hy

end Linked

/-! ## Code without links -/

theorem convert_not_link (found target : TypeId) : ∀ i ∈ primitives.convert found target,
    i.isLink = false := by
  intro i hi
  simp only [TypeTable.convert, TypeTable.primitives_regular.resolve] at hi
  split at hi
  · cases hi
  · rcases List.mem_append.mp hi with hi | hi
    · split at hi <;> simp only [List.mem_singleton, List.not_mem_nil] at hi <;> subst hi <;> rfl
    · split at hi
      · simp only [List.mem_cons, List.not_mem_nil, or_false] at hi
        rcases hi with rfl | rfl <;> rfl
      · cases hi

variable {i : Instruction} {T : Tables} {H : Home} {Γ : Locals} {b : Nat} {code : List Instruction}

theorem operation?_not_link {op : BinaryOp} {t result : TypeId}
    (h : primitives.operation? op t = some (i, result)) : i.isLink = false := by
  unfold TypeTable.operation? at h
  dsimp only at h
  repeat' split at h
  all_goals
    cases h
    try rfl

theorem immediate?_not_link {v : Int64} (h : Draft.immediate? v = some i) : i.isLink = false := by
  unfold Draft.immediate? at h
  dsimp only at h
  repeat' split at h
  all_goals
    cases h
    try rfl

theorem Place.store_not_link (p : Place) : p.store.isLink = false := by
  cases p <;> rfl

theorem Place.read_not_link (p : Place) : ∀ i ∈ p.read, i.isLink = false := by
  cases p <;> simp [Place.read, Instruction.isLink]

/-! ## Expressions -/

theorem Computes.linked {work : Work} (h : Computes T H Γ work b code) :
    Linked T H work.Has b code := by
  induction h with
  | immediate hi => exact .plain (by simpa using immediate?_not_link hi)
  | integer _ => exact .plain (by simp [Instruction.isLink])
  | float _ => exact .plain (by simp [Instruction.isLink])
  | string _ => exact .plain (by simp [Instruction.isLink])
  | bool => exact .plain (by simp [boolByte, Instruction.isLink])
  | named _ => exact .plain (by simp [Instruction.isLink])
  | member _ _ _ _ _ => exact .plain (by simp [Instruction.isLink])
  | self _ _ => exact .plain (by simp [Instruction.isLink])
  | neg _ _ ih => exact (ih.operand (.head _)).snoc rfl
  | not _ ih => exact (ih.operand (.head _)).snoc rfl
  | shortcut _ _ _ _ _ ihl ihr =>
    refine (ihl.operand (by simp [Expr.operands])).append (.cons rfl ?_)
    refine (ihr.operand (by simp [Expr.operands])).append (.plain ?_)
    simp [boolByte, Instruction.isLink]
  | binary _ _ _ hop ihl ihr =>
    exact (ihl.operand (by simp [Expr.operands])).append
      ((ihr.operand (by simp [Expr.operands])).snoc (operation?_not_link hop))
  | call hsel hargs ih => exact .own (.self _) .call (.call hsel hargs) (ih.args fun _ => id)
  | callSelf hnone hrole hinfo hsel hself hargs ih =>
    rw [← List.cons_append]
    exact .own (.self _) .call (.callSelf hnone hrole hinfo hsel hself hargs)
      (.cons rfl (ih.args fun _ => id))
  | callNative _ _ _ _ ih => exact (ih.args fun _ => id).snoc rfl
  | @methodCall span receiver name list cls info found c b cr code hrec hinfo hsel hargs ihr ih =>
    have hcomp : Computes T H Γ (.expr (.methodCall span receiver name list) c.result) b
        (cr ++ (code ++ [.call c.callee])) := .methodCall hrec hinfo hsel hargs
    rw [← List.append_assoc] at hcomp ⊢
    exact .own (.self _) .methodCall hcomp ((ihr.operand (.head _)).append
      (ih.args fun _ => List.mem_cons_of_mem _))
  | length _ _ ih => exact (ih.operand (.head _)).snoc rfl
  | property _ _ _ ih => exact (ih.operand (.head _)).snoc rfl
  | newObject hl hinfo =>
    rw [← List.nil_append [_, _]]
    exact .own (.self _) .newObject (Computes.newObject (Γ := Γ) hl hinfo) (.plain (by simp))
  | newArray _ _ _ _ _ ih =>
    exact (ih.operand (.head _)).append ((Linked.plain (convert_not_link _ _)).snoc rfl)
  | index _ _ _ _ iha ihp =>
    exact (iha.operand (by simp [Expr.operands])).append
      ((ihp.operand (by simp [Expr.operands])).append
      ((Linked.plain (convert_not_link _ _)).snoc rfl))
  | cast _ _ _ ih => exact (ih.operand (.head _)).append (.plain (convert_not_link _ _))
  | nil => exact .plain (by simp)
  | cons _ _ _ ihe ihs =>
    refine ((ihe.mono fun _ he => ?_).append (.plain (convert_not_link _ _))).append
      (ihs.mono fun _ he => ?_)
    · exact ⟨_, .head _, he⟩
    · obtain ⟨x, hx, he⟩ := he
      exact ⟨x, .tail _ hx, he⟩

section

variable {T : Tables} {H : Home} {Γ : Locals} {e : Expr} {b : Nat} {code : List Instruction}
  {t : TypeId}

theorem Addresses.linked {place : Place} (h : Addresses T H Γ e place t b code) :
    Linked T H e.Has b code := by
  cases h with
  | named _ => exact .plain (by simp)
  | member _ _ _ _ _ => exact .plain (by simp [Instruction.isLink])
  | property hobject _ _ => exact hobject.linked.operand (.head _)
  | index harray _ hposition _ =>
    exact (harray.linked.operand (by simp [Expr.operands])).append
      ((hposition.linked.operand (by simp [Expr.operands])).append (.plain (convert_not_link _ _)))

theorem Acts.linked (h : Acts T H Γ e b code) : Linked T H e.Has b code := by
  cases h with
  | assign htarget hvalue _ =>
    exact (htarget.linked.operand (by simp [Expr.operands])).append
      ((hvalue.linked.operand (by simp [Expr.operands])).append
        ((Linked.plain (convert_not_link _ _)).snoc (Place.store_not_link _)))
  | compound htarget hvalue hop =>
    refine (htarget.linked.operand (by simp [Expr.operands])).append
      ((Linked.plain (Place.read_not_link _)).append
        ((hvalue.linked.operand (by simp [Expr.operands])).append (.plain ?_)))
    simpa using ⟨operation?_not_link hop, Place.store_not_link _⟩
  | value hvalue => exact hvalue.linked.snoc rfl

theorem Initialises.linked {init : Option Expr} (h : Initialises T H Γ t b init code) :
    Linked T H (fun e => ∃ x ∈ init, x.Has e) b code := by
  cases h with
  | value hvalue _ =>
    exact (hvalue.linked.mono fun _ he => ⟨_, rfl, he⟩).append (.plain (convert_not_link _ _))
  | int _ => exact .plain (by simp [Instruction.isLink])
  | float _ _ => exact .plain (by simp [Instruction.isLink])
  | ref _ => exact .plain (by simp [Instruction.isLink])

theorem Steps.linked {step : Option Expr} (h : Steps T H Γ b step code) :
    Linked T H (fun e => ∃ x ∈ step, x.Has e) b code := by
  cases h with
  | none => exact .plain (by simp)
  | some hacts => exact hacts.linked.mono fun _ he => ⟨_, rfl, he⟩

theorem Guards.linked {exit : Nat} {cond : Option Expr} (h : Guards T H Γ b exit cond code) :
    Linked T H (fun e => ∃ x ∈ cond, x.Has e) b code := by
  cases h with
  | none => exact .plain (by simp)
  | some hcond => exact (hcond.linked.mono fun _ he => ⟨_, rfl, he⟩).snoc rfl

end

/-! ## Statements -/

theorem Executes.linked {loop : Option LoopEnds} {task : Task} {Γ' : Locals} {Δ Δ' : List TypeId}
    (h : Executes T H loop task Γ Δ b code Γ' Δ') : Linked T H task.Has b code := by
  induction h with
  | var _ _ hinit _ _ _ =>
    refine (hinit.linked.mono fun _ he => ?_).snoc rfl
    obtain ⟨x, hx, he⟩ := he
    exact .expr (Option.mem_toList.mpr hx) he
  | expr hacts => exact hacts.linked.mono fun _ he => .expr (.head _) he
  | block _ ih =>
    refine ih.mono fun _ he => ?_
    obtain ⟨s, hs, he⟩ := he
    exact .part hs he
  | choose _ _ _ iha iho =>
    refine (iha.mono fun _ he => ?_).append (iho.mono fun _ he => ?_)
    · obtain ⟨a, ha, he | he⟩ := he
      · exact .expr (List.mem_map_of_mem ha) he
      · exact .part (List.mem_append_left _ (List.mem_map_of_mem ha)) he
    · obtain ⟨s, hs, he⟩ := he
      exact .part (List.mem_append_right _ hs) he
  | whileLoop hcond _ _ ih =>
    refine (hcond.linked.mono fun _ he => .expr (.head _) he).append (.cons rfl ?_)
    exact (ih.mono fun _ he => .part (.head _) he).snoc rfl
  | forLoop _ htop hstep hentry hcond hstart _ _ ihi ihb =>
    subst htop hentry hstart
    refine (ihi.mono fun _ he => ?_).append (.cons rfl ?_)
    · obtain ⟨s, hs, he⟩ := he
      exact .part (List.mem_append_left _ hs) he
    refine (hstep.linked.mono fun _ he => ?_).append ((hcond.linked.mono fun _ he => ?_).append ?_)
    · obtain ⟨x, hx, he⟩ := he
      exact .expr (List.mem_append_right _ (Option.mem_toList.mpr hx)) he
    · obtain ⟨x, hx, he⟩ := he
      exact .expr (List.mem_append_left _ (Option.mem_toList.mpr hx)) he
    · refine (ihb.mono fun _ he => .part (List.mem_append_right _ (.head _)) he).snoc rfl
  | breakLoop => exact .plain (by simp [Instruction.isLink])
  | continueLoop => exact .plain (by simp [Instruction.isLink])
  | ret _ _ hvalue _ =>
    exact (hvalue.linked.mono fun _ he => .expr (.head _) he).append
      ((Linked.plain (convert_not_link _ _)).snoc rfl)
  | retVoid _ _ => exact .plain (by simp [Instruction.isLink])
  | delete hvalue _ _ =>
    exact (hvalue.linked.mono fun _ he => .expr (.head _) he).snoc rfl
  | nil => exact .plain (by simp)
  | cons _ _ ihs ihr =>
    refine (ihs.mono fun _ he => ?_).append (ihr.mono fun _ he => ?_)
    · exact ⟨_, .head _, he⟩
    · obtain ⟨s, hs, he⟩ := he
      exact ⟨s, .tail _ hs, he⟩
  | noArm => exact .plain (by simp)
  | @arm loop hasElse cond body rest stop skip _ _ _ _ _ _ b cc cb cr hcond _ hskip _ ihb ihr =>
    have hend : ∀ i ∈ armEnd hasElse rest stop, i.isLink = false := by
      intro i hi
      unfold armEnd at hi
      split at hi
      · rw [List.mem_singleton.mp hi]
        rfl
      · cases hi
    subst hskip
    refine (hcond.linked.mono fun _ he => ?_).append (.cons rfl ((ihb.mono fun _ he => ?_).append
      ((Linked.plain hend).append (ihr.mono fun _ he => ?_))))
    · exact ⟨_, .head _, .inl he⟩
    · exact ⟨_, .head _, .inr he⟩
    · obtain ⟨a, ha, he⟩ := he
      exact ⟨a, .tail _ ha, he⟩

/-! ## Routines -/

/-- An expression occurs in statements. -/
def HasExpr (body : List Stmt) (e : Expr) : Prop := ∃ s ∈ body, s.Has e

/-- An expression occurs in the initialiser of a member of a class. -/
def HasInitialiser (body : List Stmt) (e : Expr) : Prop :=
  ∃ span name term init, .var span name term (some init) ∈ body ∧ init.Has e

section

variable {T : Tables} {H : Home} {code : List Instruction} {Δ : List TypeId}
  {params : List (String × TypeId)} {Γ : Locals} {info : Lower.ClassInfo} {body : List Stmt}

theorem Receives.not_link {Γ' : Locals} {Δ' : List TypeId} (h : Receives params Γ Δ code Γ' Δ') :
    ∀ i ∈ code, i.isLink = false := by
  induction h with
  | nil => exact fun _ hi => nomatch hi
  | cons _ _ _ _ ih =>
    intro i hi
    rcases hi with _ | ⟨_, hi⟩
    · rfl
    · exact ih i hi

theorem BodyCode.linked (h : BodyCode T H params body code Δ) :
    Linked T H (HasExpr body) 0 code := by
  cases h with
  | bare hparams hbody =>
    refine (Linked.plain hparams.not_link).append ?_
    rw [Nat.zero_add]
    exact hbody.linked
  | returning hparams hbody _ =>
    refine (Linked.plain hparams.not_link).append ?_
    rw [Nat.zero_add]
    exact hbody.linked.snoc rfl

theorem Prepares.linked {self : UInt16} (h : Prepares T H Γ info self body b code) :
    Linked T H (HasInitialiser body) b code := by
  induction h with
  | nil => exact .plain (by simp)
  | @member span name term init _ t found rest b code more _ hinit _ _ ih =>
    have hrest : Linked T H (HasInitialiser (.var span name term (some init) :: rest))
        (b + 1 + code.length + (primitives.convert found t).length + 1) more := by
      rw [show b + 1 + code.length + (primitives.convert found t).length + 1 =
        b + (code.length + (primitives.convert found t).length + 2) by omega]
      refine ih.mono fun e he => ?_
      obtain ⟨span, name, term, init, hmem, he⟩ := he
      exact ⟨span, name, term, init, .tail _ hmem, he⟩
    refine .cons rfl ((hinit.linked.mono fun e he => ?_).append
      ((Linked.plain (convert_not_link _ _)).append (.cons rfl hrest)))
    exact ⟨span, name, term, init, .head _, he⟩
  | other _ _ ih =>
    refine ih.mono fun e he => ?_
    obtain ⟨span, name, term, init, hmem, he⟩ := he
    exact ⟨span, name, term, init, .tail _ hmem, he⟩

theorem ConstructorCode.linked (h : ConstructorCode T H info body code Δ) :
    Linked T H (HasInitialiser body) 0 code := by
  cases h with
  | mk hparams _ hprep =>
    refine (Linked.plain hparams.not_link).append ?_
    rw [Nat.zero_add]
    exact hprep.linked.append (.plain (by simp [Instruction.isLink]))

end

end Bytescript
