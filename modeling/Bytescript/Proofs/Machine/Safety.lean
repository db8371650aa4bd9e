import Bytescript.Proofs.Machine.Activations
import Bytescript.Proofs.Machine.Contexts

/-!
# Structural safety

Compiled code never finds an operand, a slot, a routine, a native or a class missing, whatever the
values are that it works on, and whatever natives answer. The height of the stack of a frame is told
by its routine and the place where it is.
-/

namespace Bytescript

section

variable {items : List Stmt} {T : Tables} {image : Image} {strict : Prop} {P : Plan T strict}
  {env : Setting} {V : TypeId → Value → Prop} {S : Nat → Nat → TypeId → Value → Prop}

/-- A program that has been loaded together with its natives has whatever its code asks for. -/
theorem Plan.CoversImage.serves (hP : P.CoversImage image) (h : image.Compiled items T)
    (hplain : PlainNames items) (hprogram : env.program = .load image)
    (hnatives : env.natives.toList.map Native.signature = T.natives) : P.Serves env where
  pool := by
    rw [hprogram]
    exact h.pool_eq
  natives := hnatives
  shapes cls info hinfo := by
    obtain ⟨⟨name, body, hclass⟩, -, -⟩ := h.classes cls info hinfo
    obtain ⟨i, hi, -⟩ := h.shape_resolved hplain hclass
    exact ⟨_, hprogram ▸ hi⟩
  calls c ins outs htakes := by
    have hmeant : ∃ d params result, ins = params.reverse ∧ outs = [result] ∧
        T.Meant items c d params result := by
      cases htakes with
      | call hcallee =>
        obtain ⟨d, hd⟩ := h.meant hcallee
        exact ⟨d, _, _, rfl, rfl, hd⟩
      | construct hinfo =>
        obtain ⟨⟨name, body, hclass⟩, -, -⟩ := h.classes _ _ hinfo
        obtain rfl := ScopeTable.classInfo?_type hinfo
        exact ⟨_, [_], _, rfl, rfl, .constructor hclass rfl⟩
      | operation hop =>
        rcases operation?_cases hop with ⟨_, -, hi, -⟩ | ⟨_, -, hi, -⟩ | ⟨-, hi, -⟩ <;> cases hi
    obtain ⟨d, params, result, rfl, rfl, hd⟩ := hmeant
    obtain ⟨r, hr, -, rfl, rfl⟩ := h.resolved hplain hd
    obtain ⟨hmem, -⟩ := Program.load_routines_found hr
    exact ⟨r, hprogram ▸ hr, rfl, rfl, hP.routines r hmem⟩

/-! ## First states -/

variable (hP : P.CoversImage image) (hserves : ∀ a b v, a.Serves b → V a v → V b v)
  (hS : ∀ i t, Locals.empty.live strict i → S 0 i t .void) (id : Nat) (w : World)

include hP hserves hS

theorem Plan.CoversImage.forMain_fits (hparams : image.main.params = []) :
    ((Context.forMain (.load image) id).start w).Fits P V S where
  runs := by
    have hfits : Frame.Fits P V (S 0) ⟨image.main.params, Locals.empty.live strict⟩
        (.enter image.main 0 #[]) := by
      refine ⟨⟨[], ?_, hparams ▸ .nil⟩, ?_, ?_⟩
      · have hbase : P.base (.enter image.main 0 #[]) = [] := if_pos hP.main_role
        rw [hbase]
        rfl
      · rw [Frame.enter, Array.size_replicate]
        exact hP.main.slots_eq
      · exact Frame.entered_slots hS
    exact hfits.runs hserves hP.main (Plan.enters_start hP.main _ _)
  stacked := .outermost rfl

theorem Plan.CoversImage.forCall_fits {r : Routine} (hr : r ∈ image.routines)
    {args : List Value} (hargs : List.Forall₂ V r.params args) :
    ((Context.forCall r args id).start w).Fits P V S where
  runs := by
    obtain ⟨hcovers, hrole⟩ := hP.routines r hr
    exact (Frame.call_fits hcovers hrole hargs hS 0).runs hserves hcovers
      (Plan.enters_start hcovers _ _)
  stacked := .outermost rfl

end

/-! ## Runs -/

section

variable {T : Tables} {P : Plan T False} {env : Setting} {m m' : Machine}

/-- Nothing is said about values. -/
abbrev anyValue (_ : TypeId) (_ : Value) : Prop := True

abbrev anySlot (_ _ : Nat) (_ : TypeId) (_ : Value) : Prop := True

theorem forall₂_anyValue {ts : List TypeId} {vs : List Value} (h : vs.length = ts.length) :
    List.Forall₂ anyValue ts vs :=
  List.forall₂_iff_get.mpr ⟨h.symm, fun _ _ _ => trivial⟩

theorem Carries.any : Carries T strict m anyValue anyValue anySlot anySlot where
  values _ _ _ := trivial
  serves _ _ _ _ _ := trivial
  slots _ _ _ _ _ _ := trivial
  loads _ := trivial
  stores _ _ _ := trivial
  enters _ := trivial
  void := trivial

/-- A machine goes on in step with the annotations of its routines. -/
theorem Machine.Fits.step (hP : P.Serves env) (hm : m.Fits P anyValue anySlot)
    (hstep : Exec.step env m = .ok .next m') : m'.Fits P anyValue anySlot := by
  have hdoes := step_does hP hm
  rw [hstep] at hdoes
  cases hdoes with
  | plain hf _ _ hargs hlen _ hcount hnext =>
    exact Carries.any.computes hm hf hargs hlen hnext fun _ => forall₂_anyValue hcount
  | moves hmoves => exact Carries.any.moves hm hmoves

/-- Whatever makes a machine fail, it is not that something is missing. -/
theorem Machine.Fits.not_structural (hP : P.Serves env) (hm : m.Fits P anyValue anySlot)
    {e : RunError} (hstep : Exec.step env m = .error e m') : e.isStructural = false := by
  have hdoes := step_does hP hm
  rw [hstep] at hdoes
  cases hdoes with
  | @fails _ _ _ _ _ _ _ _ _ w _ _ _ htakes hcall _ hlen hop =>
    have hcounts := (operate_spec hP.toLinks htakes hcall hlen).2 w
    rw [Operation.Ensures, hop] at hcounts
    exact RunError.not_structural hcounts
  | rejects | full | deep | past => rfl

/-- The height of the stack of a frame, as told by its routine and its place. -/
def Plan.height (P : Plan T strict) (r : Routine) (pc : Nat) : Nat :=
  ((r.body.offsets.findIdx? (· == pc)).bind (P.points r)).elim 0 (·.stack.length) +
    if (P.home r).role = .main then 0 else 1

theorem Machine.Fits.height_eq (hm : m.Fits P anyValue anySlot) :
    m.frame.stack.size = P.height m.frame.routine m.frame.pc := by
  obtain ⟨p, hruns⟩ := hm.runs
  obtain ⟨vs, hvs, htypes⟩ := hruns.operands
  obtain ⟨k, hk, hp⟩ := hruns.point
  have hindex : m.frame.routine.body.offsets.findIdx? (· == m.frame.pc) = some k := by
    obtain ⟨hlt, heq⟩ := getElem_of_getElem? hk
    refine Array.findIdx?_eq_some_iff_getElem.mpr ⟨hlt, beq_iff_eq.mpr heq, fun j hj hother => ?_⟩
    have hj' := Array.getElem?_eq_some_iff.mpr ⟨hj.trans hlt, beq_iff_eq.mp hother⟩
    exact Nat.ne_of_lt hj (hruns.covered.encoded.offset_inj hj' hk)
  have hbase : (P.base m.frame).length =
      if (P.home m.frame.routine).role = .main then 0 else 1 := by
    rw [Plan.base]
    split <;> rfl
  calc m.frame.stack.size = m.frame.operands.length := m.frame.operands_length.symm
    _ = vs.length + (P.base m.frame).length := by rw [hvs, List.length_append]
    _ = P.height m.frame.routine m.frame.pc := by
      rw [Plan.height, hindex, Option.bind_some, hp, Option.elim_some, htypes.length_eq, hbase]

end

/-- A compiled script runs without ever finding something missing, whichever way it is started and
whatever its natives do: the height of the stack of the running frame is told by its routine and its
place, and no error is a structural one. -/
theorem compile_safe {items : List Stmt} {options : CompileOptions} {journal : Journal}
    {image : Image}
    (h : (Script.compile ⟨items⟩ options .primitives journal).1 = .ok image)
    (hplain : PlainNames items) :
    ∃ height : Routine → Nat → Nat, ∀ env : Setting, env.program = .load image →
      env.natives.toList.map Native.signature = options.natives →
      ∀ c : Context, c.Spawned env.program →
      ∀ (w : World) (n : Nat) (ending : Ending) (m : Machine),
        (c.start w).run env n = (ending, m) →
        (ending = .paused → m.frame.stack.size = height m.frame.routine m.frame.pc) ∧
        ∀ e, ending = .failed e → e.isStructural = false := by
  obtain ⟨T, hT, hcompiled⟩ := compile_compiled h
  obtain ⟨P, hP⟩ : ∃ P : Plan T False, P.CoversImage image := hcompiled.planned False.elim
  refine ⟨P.height, fun env hprogram hnatives c hc w n ending m hrun => ?_⟩
  have hserves := hP.serves hcompiled hplain hprogram (hnatives.trans hT.symm)
  have hstart : (c.start w).Fits P anyValue anySlot := by
    rw [hprogram] at hc
    cases hc with
    | main =>
        obtain ⟨_, _, hruns, -⟩ := hcompiled.main
        exact hP.forMain_fits (fun _ _ _ _ _ => trivial) (fun _ _ _ => trivial) _ w hruns.params_eq
    | call hr harity =>
        obtain ⟨_, hfound⟩ := Program.function_found hr
        exact hP.forCall_fits (fun _ _ _ _ _ => trivial) (fun _ _ _ => trivial) _ w
          (Program.load_routines_found hfound).1 (forall₂_anyValue harity.symm)
  have hfits : ∀ {n m}, (c.start w).run env n = (.paused, m) → m.Fits P anyValue anySlot :=
    fun hrun => Machine.run_keeps (fun _ _ hm hstep => hm.step hserves hstep) hstart hrun
  refine ⟨?_, ?_⟩
  · rintro rfl
    exact (hfits hrun).height_eq
  · rintro e rfl
    obtain ⟨j, m1, hm1, hstep⟩ := Machine.run_failed hrun
    exact (hfits hm1).not_structural hserves hstep

open Build in
/-- A loop whose body calls a function. -/
def counting : List Stmt :=
  [function "next" [("int", "a")] "int" [ret (some (binary (.arith .add) (ident "a") (int 1)))],
    var "int" "i" none, whileLoop (bool true) (expr (assign (ident "i") (call "next" [ident "i"])))]

/-- In two rounds of the loop, the function is at the same place with as many values on its stack.
-/
theorem compile_safe_counting : ∃ image, (Script.compile ⟨counting⟩).1 = .ok image ∧
    ∃ height : Routine → Nat → Nat, ∀ n ∈ [9, 20], ∃ m,
      ((Context.forMain (.load image) 0).start {}).run (.ofImage image {}) n = (.paused, m) ∧
      m.frame.routine.name = "next(int)" ∧ m.frame.pc = 6 ∧ height m.frame.routine 6 = 3 := by
  have hok : ((Script.compile ⟨counting⟩).1).toOption.any (fun image => [9, 20].all fun n =>
      let reached := ((Context.forMain (.load image) 0).start {}).run (.ofImage image {}) n
      reached.1 = .paused ∧ reached.2.frame.routine.name = "next(int)" ∧ reached.2.frame.pc = 6 ∧
        reached.2.frame.stack.size = 3) = true := by decide +kernel
  obtain ⟨image, himage, hok⟩ := exists_of_any hok
  obtain ⟨height, hsafe⟩ := compile_safe himage (by decide)
  refine ⟨image, himage, height, fun n hn => ?_⟩
  obtain ⟨hpaused, hname, hpc, hsize⟩ := of_decide_eq_true (List.all_eq_true.mp hok n hn)
  obtain ⟨hheight, -⟩ := hsafe (.ofImage image {}) rfl rfl _ .main {} n _ _ rfl
  refine ⟨_, Prod.ext hpaused rfl, hname, hpc, ?_⟩
  rw [← hpc]
  exact (hheight hpaused).symm.trans hsize

end Bytescript
