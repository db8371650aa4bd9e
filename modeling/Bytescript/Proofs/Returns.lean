import Bytescript.Proofs.Routines
import Bytescript.Proofs.Typedefs

/-!
# Code that returns

A function that owes no value, and every constructor, ends with a return, and nothing jumps behind
it, so control never reaches the end of its code (`Sealed`). Whether the code of a function has to
be closed by a return is decided by its last instruction and by the targets of its jumps, after all
jumps have been bound. For this to be right, all jumps have to stay within the code
(`Lowering.Aimed`), which the code of each statement keeps up.

Whether a function owes a value depends on what its result stands for while it is compiled. That is
what it stands for at the end (`TypeTable.Stretches`).
-/

namespace Bytescript

/-- Control cannot reach the end of the code: the last instruction is of a certain sort, and no jump
aims behind it. -/
structure Sealed (last : Instruction → Prop) (code : Array Instruction) : Prop where
  back : ∃ i, code.back? = some i ∧ last i
  jumps : ∀ i ∈ code, ∀ target, i.jumpTarget? = some target → target.toNat < code.size

variable {last : Instruction → Prop} {code : Array Instruction} {s : Lowering}
  {options : CompileOptions}

theorem Sealed.mono {last' : Instruction → Prop} (h : Sealed last code)
    (hlast : ∀ i, last i → last' i) : Sealed last' code := by
  obtain ⟨i, hi, hl⟩ := h.back
  exact ⟨⟨i, hi, hlast i hl⟩, h.jumps⟩

theorem Sealed.size_pos (h : Sealed last code) : 0 < code.size := by
  obtain ⟨i, hi, -⟩ := h.back
  rw [Array.back?_eq_getElem?] at hi
  have := (getElem_of_getElem? hi).1
  omega

/-! ## Jumps within a draft -/

/-- All jumps stay within the code or go to its end, loops begin there, and nothing stops the
program. -/
structure Lowering.Aimed (s : Lowering) : Prop where
  jumps : ∀ i ∈ s.code, ∀ target, i.jumpTarget? = some target → target.toNat ≤ s.code.length
  tops : ∀ loop ∈ s.site.loops, loop.top ≤ s.code.length
  unstopped : ∀ i ∈ s.code, i ≠ .stop

theorem Lowering.Aimed.not_stop (h : s.Aimed) (hcode : code.toList = s.code) :
    ∀ i ∈ code, i ≠ .stop :=
  fun i hi => h.unstopped i (hcode ▸ Array.mem_toList_iff.mpr hi)

/-- In the same routine, the code gets no shorter, and jumps stay within it. -/
structure Lowering.Aims (s s' : Lowering) : Prop where
  length : s.code.length ≤ s'.code.length
  aimed : s.Aimed → s'.Aimed
  result : s'.site.result = s.site.result

instance : Lowering.Chain Lowering.Aims where
  refl _ := ⟨le_rfl, id, rfl⟩
  trans h h' := ⟨h.length.trans h'.length, h'.aimed ∘ h.aimed, h'.result.trans h.result⟩

theorem Lower.emit_code {i : Instruction} {s' : Lowering} {u : Unit}
    (h : Lower.emit i s = .ok u s') : s'.code = s.code ++ [i] := by
  cases h
  simp [Lowering.code, Draft.emit]

namespace Lowering.Aims

variable {s s' : Lowering}

theorem of_eq (hcode : s'.code = s.code) (hloops : s'.site.loops = s.site.loops)
    (hresult : s'.site.result = s.site.result) : s.Aims s' where
  length := Nat.le_of_eq (congrArg List.length hcode.symm)
  aimed h := ⟨hcode ▸ h.jumps, hcode ▸ hloops ▸ h.tops, hcode ▸ h.unstopped⟩
  result := hresult

/-- An instruction is appended that jumps, if at all, to where there is code. -/
theorem emit {i : Instruction} {u : Unit} (h : Lower.emit i s = .ok u s')
    (hjump : s.Aimed → ∀ target, i.jumpTarget? = some target → target.toNat ≤ s.code.length)
    (hstop : i ≠ .stop) : s.Aims s' := by
  have hcode := Lower.emit_code h
  have hlength : s.code.length ≤ s'.code.length := hcode ▸ List.length_append ▸ Nat.le_add_right ..
  cases h
  refine ⟨hlength, fun h => ⟨fun j hj target htarget => ?_, fun loop hloop => ?_, fun j hj => ?_⟩,
    rfl⟩
  · rcases List.mem_append.mp (hcode ▸ hj) with hj | hj
    · exact (h.jumps j hj target htarget).trans hlength
    · exact (hjump h target (List.mem_singleton.mp hj ▸ htarget)).trans hlength
  · exact (h.tops loop hloop).trans hlength
  · rcases List.mem_append.mp (hcode ▸ hj) with hj | hj
    · exact h.unstopped j hj
    · exact List.mem_singleton.mp hj ▸ hstop

end Lowering.Aims

instance : Lowering.Tabular Lowering.Aims where
  tables := .of_eq rfl rfl rfl

instance : Lowering.Coding Lowering.Aims where
  idle h := .of_eq (by rw [h]; rfl) (by rw [h]) (by rw [h])
  emit {i} hi := by
    refine ⟨fun h => .emit h (fun _ target htarget => ?_) fun hstop => ?_⟩
    · cases i <;> cases htarget
      cases hi
    · subst hstop
      cases hi
  emitJump {trigger} := ⟨fun {s jump s'} h => by
    have hemit :
        s.Aims { s with site := { s.site with draft := s.site.draft.emit (.jump trigger 0) } } := by
      refine .emit rfl (fun _ target htarget => ?_) (by simp)
      cases htarget
      exact Nat.zero_le _
    cases h
    exact Lowering.Chain.trans hemit (.of_eq rfl rfl rfl)⟩
  bindHere {jump} := ⟨fun {s u s'} h => by
    cases h
    set s' : Lowering := { s with site := { s.site with draft := s.site.draft.bindHere jump } }
    have hcode : s'.code = s.code.modify jump (·.retarget s.code.length.toUInt32) := by
      simp [s', Lowering.code, Draft.bindHere, Draft.bind, Draft.size]
    have hlength : s'.code.length = s.code.length := by rw [hcode, List.length_modify]
    have hcases : ∀ i ∈ s'.code,
        i ∈ s.code ∨ ∃ j ∈ s.code, i = j.retarget s.code.length.toUInt32 := by
      intro i hi
      rw [hcode] at hi
      obtain ⟨k, hk⟩ := List.mem_iff_getElem?.mp hi
      rw [List.getElem?_modify] at hk
      obtain ⟨j, hj, hjk⟩ := Option.map_eq_some_iff.mp hk
      split at hjk
      · exact .inr ⟨j, List.mem_of_getElem? hj, hjk.symm⟩
      · exact .inl (hjk ▸ List.mem_of_getElem? hj)
    refine ⟨Nat.le_of_eq hlength.symm,
      fun hs => ⟨fun i hi target htarget => ?_, ?_, fun i hi => ?_⟩, rfl⟩
    · rw [hlength]
      rcases hcases i hi with hi | ⟨j, hj, rfl⟩
      · exact hs.jumps i hi target htarget
      · cases j <;> cases htarget
        exact Nat.mod_le _ _
    · exact hlength ▸ hs.tops
    · rcases hcases i hi with hi | ⟨j, hj, rfl⟩
      · exact hs.unstopped i hi
      · have := hs.unstopped j hj
        cases j <;> simp_all [Instruction.retarget]⟩
  array h h' h'' := by
    have hbefore := Lower.Obeys.obeys (R := Lowering.Aims) h
    obtain ⟨_, -, rfl⟩ := Lower.onTypes_ok h''
    exact Lowering.Chain.trans hbefore (Lowering.Chain.trans h' (.of_eq rfl rfl rfl))

namespace Lower

/-! ### Statements -/

section

variable {α : Type} {natives : List NativeSignature} {span : Span} {s s' : Lowering} {u : Unit}
  {body : Lower Unit}

theorem emitJumpTo_aims {target : Nat} (h : emitJumpTo target s = .ok u s')
    (htarget : s.Aimed → target ≤ s.code.length) : s.Aims s' := by
  refine .emit h (fun hs target' htarget' => ?_) (by simp)
  cases htarget'
  exact (Nat.mod_le target _).trans (htarget hs)

instance : Obeys Lowering.Aims (breakLoop span) := by
  unfold breakLoop
  refine ⟨fun {s u s'} h => ?_⟩
  rw [get_bind] at h
  cases hloops : s.site.loops with
  | nil => simp [hloops] at h
  | cons loop outer =>
    simp only [hloops, bind_ok] at h
    obtain ⟨jump, s1, h1, h2⟩ := h
    have hjump : s.Aims s1 := Obeys.obeys h1
    cases h1
    cases h2
    refine ⟨hjump.length, fun hs => ⟨(hjump.aimed hs).jumps, fun l hl => ?_,
      (hjump.aimed hs).unstopped⟩, hjump.result⟩
    -- the loop is the same but for the jump that has to leave it
    have htops := hloops ▸ (hjump.aimed hs).tops
    rcases hl with _ | ⟨_, hl⟩
    · exact htops loop (.head _)
    · exact htops l (.tail _ hl)

instance : Obeys Lowering.Aims (continueLoop span) := by
  unfold continueLoop
  refine ⟨fun {s u s'} h => ?_⟩
  rw [get_bind] at h
  cases hloops : s.site.loops with
  | nil => simp [hloops] at h
  | cons loop outer =>
    simp only [hloops] at h
    exact emitJumpTo_aims h fun hs => hs.tops loop (hloops ▸ (.head _))

instance : Obeys Lowering.Aims closeLoop := by
  unfold closeLoop
  refine ⟨fun {s u s'} h => ?_⟩
  rw [get_bind] at h
  cases hloops : s.site.loops with
  | nil =>
    simp only [hloops, pure_ok] at h
    obtain ⟨-, rfl⟩ := h
    exact .of_eq rfl rfl rfl
  | cons loop outer =>
    simp only [hloops, bind_ok] at h
    obtain ⟨_, s1, h1, _, s2, h2, h3⟩ := h
    cases h1
    have hbind : s2.Aims s' := Obeys.obeys h3
    have hlength : s.code.length ≤ s2.code.length :=
      emit_code h2 ▸ List.length_append ▸ Nat.le_add_right ..
    refine ⟨hlength.trans hbind.length, fun hs => ?_, hbind.result.trans (by cases h2; rfl)⟩
    have htop : loop.top ≤ s.code.length := hs.tops loop (hloops ▸ (.head _))
    refine hbind.aimed ((emitJumpTo_aims h2 fun _ => htop).aimed ⟨hs.jumps, fun l hl => ?_,
      hs.unstopped⟩)
    exact hs.tops l (hloops ▸ .tail _ hl)

/-- A loop begins at an index that has been passed. -/
theorem loop_aims {top : Nat} (hbody : Obeys Lowering.Aims body)
    (h : (do openLoop top; body; closeLoop : Lower Unit) s = .ok u s')
    (htop : top ≤ s.code.length) : s.Aims s' := by
  simp only [bind_ok] at h
  obtain ⟨_, s1, h1, h2⟩ := h
  have hrest : Obeys Lowering.Aims (do body; closeLoop : Lower Unit) := inferInstance
  have haims := hrest.obeys (bind_ok.mpr h2)
  cases h1
  refine ⟨haims.length, fun hs => haims.aimed ⟨hs.jumps, fun l hl => ?_, hs.unstopped⟩,
    haims.result⟩
  rcases hl with _ | ⟨_, hl⟩
  · exact htop
  · exact hs.tops l hl

theorem while_aims {cond : Expr} (hbody : Obeys Lowering.Aims body) :
    Obeys Lowering.Aims (do
      let top ← here
      condition natives cond
      let exit ← emitJump .ifFalse
      openLoop top
      body
      closeLoop
      bindHere exit) where
  obeys {s u s'} h := by
    simp only [bind_ok] at h
    obtain ⟨top, s1, h1, _, s2, h2, exit, s3, h3, _, s4, h4, _, s5, h5, _, s6, h6, h7⟩ := h
    obtain ⟨rfl, rfl⟩ := here_ok h1
    have hcond : s1.Aims s2 := Obeys.obeys h2
    have hexit : s2.Aims s3 := Obeys.obeys h3
    have hloop : s3.Aims s6 := loop_aims hbody (bind_ok.mpr ⟨_, _, h4, bind_ok.mpr ⟨_, _, h5, h6⟩⟩)
      (hcond.length.trans hexit.length)
    have hbind : s6.Aims s' := Obeys.obeys h7
    exact Lowering.Chain.trans hcond (Lowering.Chain.trans hexit (Lowering.Chain.trans hloop hbind))

theorem turns_aim {cond step : Option Expr} (hbody : Obeys Lowering.Aims body) :
    Obeys Lowering.Aims (do
      let entry ← emitJump .always
      let top ← here
      step.forM (effect natives)
      bindHere entry
      cond.forM (condition natives)
      let exit ← if cond.isSome then some <$> emitJump .ifFalse else pure none
      openLoop top
      body
      closeLoop
      exit.forM bindHere) := by
  have hturn : ∀ {top : Nat} {exit : Option Nat} {s s' : Lowering} {u : Unit}, top ≤ s.code.length →
  (do
      openLoop top
      body
      closeLoop
      exit.forM bindHere : Lower Unit) s = .ok u s' → s.Aims s' := by
    intro top exit s s' u htop h
    simp only [bind_ok] at h
    obtain ⟨_, s1, h1, _, s2, h2, _, s3, h3, h4⟩ := h
    have hbind : s3.Aims s' := Obeys.obeys h4
    exact Lowering.Chain.trans (loop_aims hbody (bind_ok.mpr ⟨_, _, h1, bind_ok.mpr ⟨_, _, h2, h3⟩⟩)
      htop) hbind
  refine ⟨fun {s u s'} h => ?_⟩
  obtain ⟨entry, s1, h1, hthen1⟩ := bind_ok.mp h
  obtain ⟨top, s2, h2, hthen2⟩ := bind_ok.mp hthen1
  obtain ⟨_, s3, h3, hthen3⟩ := bind_ok.mp hthen2
  obtain ⟨_, s4, h4, hthen4⟩ := bind_ok.mp hthen3
  obtain ⟨_, s5, h5, hthen5⟩ := bind_ok.mp hthen4
  obtain ⟨rfl, rfl⟩ := here_ok h2
  have hentry : s.Aims s2 := Obeys.obeys h1
  have hstep : s2.Aims s3 := Obeys.obeys h3
  have hbind : s3.Aims s4 := Obeys.obeys h4
  have hcond : s4.Aims s5 := Obeys.obeys h5
  have hbefore : s2.Aims s5 := Lowering.Chain.trans hstep (Lowering.Chain.trans hbind hcond)
  refine Lowering.Chain.trans hentry (Lowering.Chain.trans hbefore ?_)
  dsimp only at hthen5
  split at hthen5
  · obtain ⟨exit, s6, h6, h7⟩ := bind_ok.mp hthen5
    have hexit : s5.Aims s6 := Obeys.obeys h6
    exact Lowering.Chain.trans hexit (hturn (hbefore.length.trans hexit.length) h7)
  · obtain ⟨exit, s6, h6, h7⟩ := bind_ok.mp hthen5
    obtain ⟨-, rfl⟩ := pure_ok.mp h6
    exact hturn hbefore.length h7

instance : Lowering.Structured Lowering.Aims where
  simple h := simple_obeys h
  setMark := inferInstance
  bindHere := inferInstance
  inBlock := .inBlock
  arm := arm_obeys
  whileLoop := while_aims
  turns := turns_aim

end

/-! ## Bodies -/

section

variable {options : CompileOptions} {span : Span} {s s' : Lowering} {r : Routine} {role : SiteRole}
  {parent : ScopeId} {typeScope : TypeScopeId} {name : String} {constant : UInt16}

/-- A routine is compiled from an empty draft, and what was being compiled before goes on. -/
theorem routine_stages {result : TypeId} {act : Lower (List TypeId)}
    (h : routine options span role parent typeScope result name constant act s = .ok r s') :
    ∃ params s1 s2, act s1 = .ok params s2 ∧ s1.Aimed ∧ s1.site.result = result ∧
      r.code.toList = s2.code ∧ r.result = s2.site.result ∧ s'.site = s.site ∧
      s'.types = s2.types := by
  simp only [routine, bind_ok, get_bind] at h
  obtain ⟨scope, s1, h1, outer, s2, h2, _, s3, h3, params, s4, h4, site, s6, h6, _, s7, h7, h⟩ := h
  cases h1
  cases h2
  cases h3
  cases h6
  cases h7
  obtain ⟨_, body, rfl, -, rfl⟩ := finish_ok h
  refine ⟨params, _, _, h4, ⟨?_, ?_, ?_⟩, rfl, rfl, rfl, rfl, rfl⟩ <;>
    exact fun _ h => by cases h

/-- Code whose jumps stay within it is sealed by one more instruction. -/
theorem sealed_of_emit {i : Instruction} {u : Unit} (h : emit i s = .ok u s') (hs : s.Aimed)
    (hcode : code.toList = s'.code) (hlast : last i) (hjump : i.jumpTarget? = none) :
    Sealed last code := by
  have heq := emit_code h
  have hsize : code.size = s.code.length + 1 := by
    rw [← Array.length_toList, hcode, heq, List.length_append]
    rfl
  refine ⟨⟨i, ?_, hlast⟩, fun j hj target htarget => ?_⟩
  · rw [← Array.getLast?_toList, hcode, heq, List.getLast?_concat]
  · rw [← Array.mem_toList_iff, hcode, heq] at hj
    rcases List.mem_append.mp hj with hj | hj
    · have := hs.jumps j hj target htarget
      omega
    · rw [List.mem_singleton.mp hj, hjump] at htarget
      cases htarget

/-- If control cannot reach the end of a draft, it is sealed as it is. -/
theorem sealed_of_not_fallsThrough (hs : s.Aimed) (hfalls : fallsThrough s.site.draft = false) :
    Sealed (·.isReturn = true) s.site.draft.code := by
  obtain ⟨hback, hany⟩ := Bool.or_eq_false_iff.mp hfalls
  rw [Bool.not_eq_false'] at hback
  refine ⟨?_, fun i hi target htarget => ?_⟩
  · obtain ⟨i, hi, hreturn⟩ := (Option.any_eq_true ..).mp hback
    exact ⟨i, hi, hreturn⟩
  · have hle : target.toNat ≤ s.site.draft.code.size := by
      rw [← Array.length_toList]
      exact hs.jumps i (Array.mem_toList_iff.mpr hi) target htarget
    refine Nat.lt_of_le_of_ne hle fun heq => ?_
    -- an index that fits is the index that is looked for
    have hend : target = s.site.draft.size.toUInt32 := by
      apply UInt32.toNat_inj.mp
      rw [Draft.size, ← heq, Nat.toUInt32_eq, UInt32.ofNat_toNat]
    have hfound : s.site.draft.code.any (·.jumpTarget? = some s.site.draft.size.toUInt32) = true :=
      Array.any_eq_true'.mpr ⟨i, hi, decide_eq_true (hend ▸ htarget)⟩
    rw [hany] at hfound
    cases hfound

/-- The body of a function that owes no value ends with a return. -/
theorem body_sealed {head : FunctionHead} {code : List Stmt}
    (h : body options span role parent typeScope head name constant code s = .ok r s') :
    (∀ i ∈ r.code, i ≠ .stop) ∧
      (s'.types.same r.result .void = true → Sealed (·.isReturn = true) r.code) := by
  obtain ⟨⟨declared, result⟩, s0, -, h⟩ := bind_ok.mp h
  obtain ⟨params, s1, s2, hact, hs1, hresult, hcode, hr, -, htypes⟩ := routine_stages h
  obtain ⟨_, s3, h3, hthen3⟩ := bind_ok.mp hact
  obtain ⟨_, s4, h4, hthen4⟩ := bind_ok.mp hthen3
  obtain ⟨_, s5, h5, hthen5⟩ := bind_ok.mp hthen4
  have hreceiver : s1.Aims s3 := Obeys.obeys h3
  have hparams : s3.Aims s4 := Obeys.obeys h4
  have hstmts : s4.Aims s5 := Obeys.obeys h5
  have hs5 := hstmts.aimed (hparams.aimed (hreceiver.aimed hs1))
  have hresult5 : s5.site.result = result :=
    by rw [hstmts.result, hparams.result, hreceiver.result, hresult]
  simp only [isSame_bind, get_bind, bind_ok, ite_ok, pure_ok] at hthen5
  obtain ⟨-, _, s7, h7, -, rfl⟩ | ⟨hno, -, rfl⟩ := hthen5
  · have hvoid : s5.Aims s7 := Obeys.obeys h7
    exact ⟨(hvoid.aimed hs5).not_stop hcode, fun _ => sealed_of_emit h7 hs5 hcode rfl rfl⟩
  · refine ⟨hs5.not_stop hcode, fun hvoid => ?_⟩
    have hcode : r.code = s5.site.draft.code := Array.toList_inj.mp hcode
    rw [htypes, hr, hresult5] at hvoid
    rw [hvoid, Bool.true_and, Bool.not_eq_true] at hno
    rw [hcode]
    exact sealed_of_not_fallsThrough hs5 hno

theorem constructor_sealed {info : ClassInfo} {items : List Stmt}
    (h : constructor options info span items s = .ok r s') :
    (∀ i ∈ r.code, i ≠ .stop) ∧ Sealed (·.isReturn = true) r.code := by
  obtain ⟨params, s1, s2, hact, hs1, -, hcode, -⟩ := routine_stages h
  simp only [constructorCode, bind_ok, pure_ok] at hact
  obtain ⟨self, s3, h3, _, s4, h4, _, s5, h5, _, s6, h6, -, rfl⟩ := hact
  have hself : s1.Aims s3 := Obeys.obeys h3
  have hitems : s3.Aims s4 := Obeys.obeys h4
  have hload : s4.Aims s5 := Obeys.obeys h5
  have hret : s5.Aims s6 := Obeys.obeys h6
  have hs5 := hload.aimed (hitems.aimed (hself.aimed hs1))
  exact ⟨(hret.aimed hs5).not_stop hcode, sealed_of_emit h6 hs5 hcode rfl rfl⟩

end

end Lower

/-! ## What types stand for -/

namespace TypeTable

/-- To ask for structural types leaves what types stand for. -/
structure Stretches (t t' : TypeTable) : Prop where
  linked : t.Linked → t'.Linked
  resolve : t.Linked → ∀ id, t'.resolve id = t.resolve id

namespace Stretches

variable {t t' t'' : TypeTable}

theorem refl : t.Stretches t := ⟨id, fun _ _ => rfl⟩

theorem trans (h : t.Stretches t') (h' : t'.Stretches t'') : t.Stretches t'' :=
  ⟨h'.linked ∘ h.linked, fun ht id => (h'.resolve (h.linked ht) id).trans (h.resolve ht id)⟩

theorem same (h : t.Stretches t') (ht : t.Linked) (a b : TypeId) : t'.same a b = t.same a b := by
  rw [TypeTable.same, h.resolve ht, h.resolve ht, TypeTable.same]

theorem push {e : TypeEntry} (hfree : t.lookupHere e.scope e.name = none)
    (hredirect : e.redirect = none) : t.Stretches (t.push e).2 := by
  refine ⟨fun ht => ht.push hfree (fun _ => hredirect) fun r hr => ?_, fun ht id => ?_⟩
  · rw [hredirect] at hr
    cases hr
  · obtain ⟨n, r, hn⟩ := ht.settles_all id
    rw [hn.resolve]
    refine Settles.resolve ⟨(later_push hfree).leads ht hn.1, ?_⟩
    -- where the redirects end, there still is none
    by_cases hr : r.index = t.size
    · rw [get_of_entry (hr ▸ push_entries_size t e), hredirect]
    · rw [← hn.2, get, get, Array.getD_eq_getD_getElem?, Array.getD_eq_getD_getElem?,
        push_entries t e hr]

theorem insertGeneric {kind : TypeKind} {args : List TypeId} {id : TypeId}
    (h : t.insertGeneric kind args = (.ok id, t')) : t.Stretches t' := by
  obtain ⟨name, -, ⟨-, rfl⟩ | ⟨hl, e, rfl, -, rfl⟩⟩ := insertGeneric_ok h
  · exact .refl
  · exact .push hl rfl

end Stretches

end TypeTable

/-- Types stand for the same before and after. -/
def Lowering.Stretches (s s' : Lowering) : Prop := s.types.Stretches s'.types

namespace Lower

variable {span : Span} {kind : TypeKind} {id : TypeId} {s s' : Lowering} {r : TypeScopeId}
  {name : String}

instance : Lowering.Asking Lowering.Stretches where
  refl _ := .refl
  trans := .trans
  generic := ⟨fun h => by
    obtain ⟨types, hin, rfl⟩ := onTypes_ok h
    exact .insertGeneric hin⟩

instance : Lowering.Frame Lowering.Stretches where
  edit htypes _ _ _ := by
    rw [Lowering.Stretches, htypes]
    exact .refl
  constant h := by
    obtain ⟨_, -, rfl⟩ := constant_add h
    exact .refl
  resolveType := Obeys.obeys
  array h h' h'' := Lowering.Chain.trans (Obeys.obeys (R := Lowering.Stretches) h)
    (Lowering.Chain.trans h' (Obeys.obeys h''))

instance : Lowering.Course Lowering.Stretches where
  scopes := .refl
  constant := Lowering.Frame.constant
  resolveType := Obeys.obeys
  body := inferInstance
  constructor := inferInstance
  stmt := inferInstance
  record := .refl

/-! ### Declaring classes -/

theorem insert_scopes {t t' : TypeTable} {redirect : Option TypeId}
    (h : t.insert r name kind redirect = (.ok id, t')) : t'.scopes.size = t.scopes.size := by
  obtain ⟨-, ⟨-, e, -, -, rfl⟩ | ⟨-, -, rfl⟩⟩ := TypeTable.insert_ok h
  · exact Array.size_modify ..
  · rfl

theorem declareClass_linked {qualified : String} {id : ScopeId} {parts : ClassScopes}
    (h : declareClass span name qualified id r s = .ok parts s') (hs : s.types.Linked)
    (hr : r.index < s.types.scopes.size) :
    s'.types.Linked ∧ s.types.scopes.size ≤ s'.types.scopes.size ∧
      parts.types.index < s'.types.scopes.size := by
  obtain ⟨type, types, index, _, s2, s3, t1, t', hin, -, -, htypes, hinsert, -, rfl⟩ :=
    declareClass_stages h
  have hlinked : (s.types.perform (.insert r name .classType none)).2.Linked :=
    hs.perform ⟨hr, nofun⟩
  simp only [TypeTable.perform, hin, Prod.map, id_eq] at hlinked
  have hinner : parts.types = (types.newScope r).1 := by
    unfold ScopeTable.insertClass at hinsert
    split at hinsert <;> cases hinsert
    rfl
  have hsize := insert_scopes hin
  have hnew : (types.newScope r).2.scopes.size = types.scopes.size + 1 := Array.size_push ..
  dsimp only
  rw [htypes, hinner, hnew, hsize]
  exact ⟨hlinked.newScope, Nat.le_succ _, by rw [← hsize]; exact Nat.lt_succ_self _⟩

mutual

theorem declareClasses_linked :
    ∀ (items : List Stmt) {id : ScopeId} {r : TypeScopeId} {outer : String}
    {u : Unit} {s s' : Lowering}, declareClasses id r outer items s = .ok u s' → s.types.Linked →
    r.index < s.types.scopes.size → s'.types.Linked ∧ s.types.scopes.size ≤ s'.types.scopes.size
  | [], _, _, _, _, _, _, h, hs, _ => by
    simp only [declareClasses, pure_ok] at h
    obtain ⟨-, rfl⟩ := h
    exact ⟨hs, le_rfl⟩
  | item :: rest, _, _, _, _, _, _, h, hs, hr => by
    simp only [declareClasses, bind_ok] at h
    obtain ⟨_, _, h1, h2⟩ := h
    obtain ⟨hs1, hle1⟩ := declareNested_linked item h1 hs hr
    obtain ⟨hs2, hle2⟩ := declareClasses_linked rest h2 hs1 (hr.trans_le hle1)
    exact ⟨hs2, hle1.trans hle2⟩

theorem declareNested_linked : ∀ (item : Stmt) {id : ScopeId} {r : TypeScopeId} {outer : String}
    {u : Unit} {s s' : Lowering}, declareNested id r outer item s = .ok u s' → s.types.Linked →
    r.index < s.types.scopes.size → s'.types.Linked ∧ s.types.scopes.size ≤ s'.types.scopes.size
  | item, _, _, _, _, _, _, h, hs, hr => by
    cases item with
    | classDecl _ _ body =>
      simp only [declareNested, bind_ok] at h
      obtain ⟨_, _, h1, h2⟩ := h
      obtain ⟨hs1, hle1, hinner⟩ := declareClass_linked h1 hs hr
      obtain ⟨hs2, hle2⟩ := declareClasses_linked body h2 hs1 hinner
      exact ⟨hs2, hle1.trans hle2⟩
    | _ =>
      simp only [declareNested, pure_ok] at h
      obtain ⟨-, rfl⟩ := h
      exact ⟨hs, le_rfl⟩

end

end Lower

/-! ## Scripts -/

namespace Lower

theorem routine_aims {span : Span} {role : SiteRole} {parent : ScopeId} {typeScope : TypeScopeId}
    {result : TypeId} {name : String} {constant : UInt16} {act : Lower (List TypeId)} :
    Obeys Lowering.Aims (routine options span role parent typeScope result name constant act) where
  obeys h := by
    obtain ⟨_, _, _, -, -, -, -, -, hsite, -⟩ := routine_stages h
    exact .of_eq (by rw [Lowering.code, hsite, Lowering.code]) (by rw [hsite]) (by rw [hsite])

instance : Lowering.Course Lowering.Aims where
  toDeclaring := inferInstance
  body := .bind inferInstance fun _ => routine_aims
  constructor := routine_aims
  stmt := inferInstance
  record := .of_eq rfl rfl rfl

end Lower

/-- A routine that may not run past its end: a constructor, or one whose result stands for `void`.
-/
def Image.Closes (image : Image) (r : Routine) : Prop :=
  (∃ (name : String) (c : ClassImage), image.classes[name]? = some c ∧ r = c.constructor) ∨
    image.types.same r.result .void = true

/-- A routine without an instruction that stops, and closed if it has to be. -/
def Verdict.closed : Verdict := fun s built r =>
  s.types.Linked ∧ (∀ i ∈ r.code, i ≠ .stop) ∧
    (built = true ∨ s.types.same r.result .void = true → Sealed (·.isReturn = true) r.code)

theorem Verdict.closed_told {s0 : Lowering} (hs0 : s0.types.Linked) :
    Verdict.closed.Told options Lowering.Stretches s0 where
  later {s s' built r} hs h := ⟨hs.linked h.1, h.2.1, by rw [hs.same h.1]; exact h.2.2⟩
  body {_ _ _ _ _ _ _ _ r s s'} hs h := by
    have hwithin : s.Stretches s' := Lower.Obeys.obeys h
    obtain ⟨hstop, hsealed⟩ := Lower.body_sealed h
    exact ⟨hwithin.linked (hs.linked hs0), hstop,
      fun hcloses => hsealed (hcloses.resolve_left nofun)⟩
  constructor {_ _ _ r s s'} hs h := by
    have hwithin : s.Stretches s' := Lower.Obeys.obeys h
    obtain ⟨hstop, hsealed⟩ := Lower.constructor_sealed h
    exact ⟨hwithin.linked (hs.linked hs0), hstop, fun _ => hsealed⟩

namespace Script.Stages

variable {items : List Stmt} {options : CompileOptions} {types : TypeTable} {image : Image}
  {s0 s1 s2 s3 : Lowering}

theorem linked (h : Script.Stages items options types image s0 s1 s2 s3) (htypes : types.Linked) :
    s2.types.Linked := by
  have hheads : s1.Stretches s2 := Lower.Obeys.obeys h.heads
  obtain ⟨journal, rfl⟩ := h.start
  exact hheads.linked (Lower.declareClasses_linked items h.classes htypes htypes.top).1

/-- The code at the top level ends where the program stops. -/
theorem main_sealed (h : Script.Stages items options types image s0 s1 s2 s3) :
    Sealed (· = .stop) image.main.code := by
  have hitems : s2.Aims s3 := h.since
  have haims : s0.Aims s3 := Lowering.Chain.trans h.declares hitems
  have hstart : s0.Aimed := by
    obtain ⟨journal, rfl⟩ := h.start
    exact ⟨nofun, nofun, nofun⟩
  obtain ⟨s, s', hmain⟩ := h.main
  obtain ⟨_, _, -, -, heq⟩ := Lower.finish_ok hmain
  have hemit : Lower.emit .stop s3 = .ok () _ := rfl
  exact Lower.sealed_of_emit hemit (haims.aimed hstart) (by rw [heq]; rfl) rfl rfl

end Script.Stages

/-- The code at the top level ends by stopping the program. No other code does so, and where it may
not run past its end, it ends with a return. -/
theorem compile_sealed {items : List Stmt} {types : TypeTable} {journal : Journal} {image : Image}
    (h : (Script.compile ⟨items⟩ options types journal).1 = .ok image) (htypes : types.Linked) :
    Sealed (· = .stop) image.main.code ∧ ∀ r ∈ image.routines, (∀ i ∈ r.code, i ≠ .stop) ∧
      (image.Closes r → Sealed (·.isReturn = true) r.code) := by
  obtain ⟨s0, s1, s2, s3, hstages⟩ := Script.compile_stages h
  refine ⟨hstages.main_sealed, fun r hr => ?_⟩
  have hholds := hstages.told (Verdict.closed_told (hstages.linked htypes))
  obtain ⟨built, -, hstop, hvoid⟩ := hstages.told_routines hholds r hr
  refine ⟨hstop, fun hcloses => ?_⟩
  rcases hcloses with ⟨name, c, hc, rfl⟩ | hsame
  · rw [hstages.classes_eq] at hc
    exact (hholds.constructors name c hc).2.2 (.inl rfl)
  · exact hvoid (.inr (hstages.types_eq ▸ hsame))

end Bytescript
