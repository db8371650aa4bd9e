import Bytescript.Proofs.Scalar.Statement

/-!
# Scalar scripts

A compiled scalar script does what it means (`compile_preserves`): its context halts with the
variables as the script leaves them, fails where the script divides by zero, and runs on for any
number of steps if the script goes on forever.
-/

namespace Bytescript

theorem Stmt.isCode_of_scalar {s : Stmt} (h : s.scalar = true) : s.isCode = true := by
  cases s with
  | function | classDecl => cases h
  | _ => rfl

theorem filter_isCode {items : List Stmt} (h : scalarAll items = true) :
    items.filter Stmt.isCode = items := by
  induction items with
  | nil => rfl
  | cons s rest ih =>
    obtain ⟨hs, hrest⟩ := Bool.and_eq_true_iff.mp h
    rw [List.filter_cons_of_pos (Stmt.isCode_of_scalar hs), ih hrest]

section

variable {env : Setting} {items : List Stmt} {image : Image} {T : Tables} {r : Routine} {Γ : Locals}
  {S : Bindings} {m : Machine} {id k : Nat} {w : World}

/-- Where a machine comes to that runs the top-level code: nothing but the end of the code is behind
it. -/
def Exits.ofScript (r : Routine) (Γ : Locals) : Exits where
  next S m := ∃ k, r.code[k]? = some .stop ∧ m.Shows r Γ k S
  breaks _ _ := False
  continues _ _ := False

/-- The top-level code of a scalar script does what the script means. -/
theorem Image.Compiled.completes (h : image.Compiled items T) (hscalar : scalarAll items = true)
    (hscoped : scopedAll items = true) (hprogram : env.program = .load image)
    (hroom : heightAll items ≤ env.limits.stack) (id : Nat) (w : World) :
    ∃ Γ : Locals, (∀ name : String, image.globals[name]? = (Γ name).map fun found =>
      ⟨found.1, found.2⟩) ∧
      Layout.Encodes image.main.code image.main.body ∧ ∀ turns,
        ((Context.forMain env.program id).start w).Completes env turns (.ofScript image.main Γ)
          (execAll turns items []) := by
  obtain ⟨Γ, Δ, hruns, hglobals⟩ := h.main
  obtain ⟨_, hencode⟩ := hruns.encoded
  have henc := Layout.encode_encodes hencode
  obtain ⟨code, hcode, hexecutes⟩ := hruns.code
  rw [filter_isCode hscalar] at hexecutes
  have hhas : image.main.HasCode 0 (code ++ [.stop]) := by
    intro j i hi
    rw [Nat.zero_add, ← Array.getElem?_toList, hcode, hi]
  have hH : env.Hosts T ⟨.main, .top, .void⟩ image.main :=
    ⟨rfl, rfl, h.sound, by rw [hprogram]; exact h.pool_eq, henc⟩
  have hstart : ((Context.forMain env.program id).start w).Shows image.main .empty 0 [] := by
    rw [hprogram]
    exact ⟨_, Array.size_replicate, ⟨⟨rfl, henc.zero, rfl⟩, rfl, rfl⟩, .empty _⟩
  refine ⟨Γ, hglobals, henc, fun turns => ?_⟩
  have hdone := hexecutes.completes hH turns hscalar hscoped hhas.append.1 hroom .empty
    (Nat.le_of_eq hruns.slots_eq.symm) nofun hstart
  refine Machine.Completes.mono hdone (fun S m hm => ⟨_, hhas.append.2.one, hm.2⟩) ?_ ?_
  · rintro S m ⟨-, ends, hends, -⟩
    cases hends
  · rintro S m ⟨-, ends, hends, -⟩
    cases hends

/-- A machine in front of the end of the code halts, and its context shows what is bound. -/
theorem Machine.Shows.halts (henc : Layout.Encodes r.code r.body) (hm : m.Shows r Γ k S)
    (hstop : r.code[k]? = some .stop) (env : Setting) :
    ∃ m', m.run env 1 = (.halted, m') ∧ ∀ (p : Program) (name : String),
      p.globals[name]? = (Γ name).map (fun found => ⟨found.1, found.2⟩) →
      (Context.settle true .halted m').1.global p name = (S.lookup name).map Scalar.value := by
  obtain ⟨slots, -, hm, hΓ⟩ := hm
  obtain ⟨m', hm', -, hstep⟩ := hm.fetch henc hstop env
  have hhalts : Exec.step env m = .ok .halt m' := hstep
  refine ⟨m', by rw [Machine.run, hhalts], fun p name hname => ?_⟩
  have hslots := hm'.slots_eq
  have hcallers := hm'.callers_eq
  obtain ⟨id, frame, callers, pc, world⟩ := m'
  subst hslots hcallers
  cases hfound : Γ name with
  | none =>
    have hunbound : S.lookup name = none := Bindings.lookup_eq_none.mpr fun hmem => by
      have := (hΓ.names name).mp hmem
      rw [hfound] at this
      cases this
    rw [hfound] at hname
    simp only [Context.global, hname, hunbound, Option.map_none]
    rfl
  | some found =>
    obtain ⟨v, hlookup, -, hslot⟩ := hΓ.value name found.1 found.2 hfound
    rw [hfound] at hname
    simp only [Context.global, hname, hlookup, Option.map_some]
    exact hslot

/-- A context whose run has ended is settled, however much fuel is left. -/
theorem Context.Spawned.execute_ended {p : Program} {c : Context} (hc : c.Spawned p) {n more : Nat}
    {ending : Ending}
    (h : (c.start w).run env n = (ending, m)) (hends : ending ≠ .paused) (hle : n ≤ more) :
    c.execute env more w = settle c.isMain ending m := by
  have hstable := Machine.run_stable (h ▸ hends : ((c.start w).run env n).1 ≠ .paused) hle
  rw [hc.execute_eq, hstable, h]

/-- A run that pauses after some number of steps has paused after every smaller one. -/
theorem Machine.Advances.paused {n : Nat} {P : Machine → Prop} (h : m.Advances env n P) :
    (m.run env n).1 = .paused := by
  obtain ⟨k, m', hle, hrun, -⟩ := h
  by_contra hends
  rw [run_stable hends hle] at hrun
  exact hends (congrArg Prod.fst hrun)

/-- A script that a machine can follow for any number of turns is never stuck. -/
theorem ends_or_faults_or_diverges
    (h : ∀ turns, m.Completes env turns (.ofScript r Γ) (execAll turns items [])) :
    (∃ S, Ends items S) ∨ Faults items ∨ Diverges items := by
  by_cases hdiverges : Diverges items
  · exact .inr (.inr hdiverges)
  · obtain ⟨turns, hturns⟩ := not_forall.mp hdiverges
    have hdone := h turns
    match hresult : execAll turns items [] with
    | .next S => exact .inl ⟨S, turns, hresult⟩
    | .traps .division => exact .inr (.inl ⟨turns, hresult⟩)
    | .traps .stuck =>
      rw [hresult] at hdone
      exact hdone.elim
    | .breaks S | .continues S =>
      rw [hresult] at hdone
      obtain ⟨_, _, -, -, hfalse⟩ := hdone
      exact hfalse.elim
    | .unfinished => exact absurd hresult hturns

/-- A scalar script that compiles means something, and its context does that: it halts with the
variables as the script leaves them, it fails where the script divides by zero, and it is still
running after any number of steps if the script goes on forever. -/
theorem compile_preserves {options : CompileOptions} {journal : Journal}
    (h : (Script.compile ⟨items⟩ options .primitives journal).1 = .ok image)
    (hscalar : scalarAll items = true)
    (hscoped : scopedAll items = true) (hprogram : env.program = .load image)
    (hroom : heightAll items ≤ env.limits.stack) (id : Nat) (w : World) :
    let after (fuel : Nat) : Context := ((Context.forMain env.program id).execute env fuel w).1
    ((∃ S, Ends items S) ∨ Faults items ∨ Diverges items) ∧
    (∀ S, Ends items S → ∃ fuel, ∀ more, fuel ≤ more → (after more).status = .halted ∧
      ∀ name, (after more).global env.program name = (S.lookup name).map Scalar.value) ∧
    (Faults items → ∃ fuel, ∀ more, fuel ≤ more → (after more).status = .failed ∧
      (after more).fault.map Fault.cause = some .divisionByZero) ∧
    (Diverges items → ∀ fuel, (after fuel).status = .running) := by
  obtain ⟨T, -, hcompiled⟩ := compile_compiled h
  obtain ⟨Γ, hglobals, henc, hdoes⟩ := hcompiled.completes hscalar hscoped hprogram hroom id w
  have hmain : (Context.forMain env.program id).Spawned env.program := .main
  refine ⟨ends_or_faults_or_diverges hdoes, fun S hends => ?_, fun hfaults => ?_,
    fun hdiverges fuel => ?_⟩
  · obtain ⟨turns, hturns⟩ := hends
    have hdone := hdoes turns
    rw [hturns] at hdone
    obtain ⟨n, m, -, hrun, k, hstop, hm⟩ := hdone
    obtain ⟨m', hhalts, hshows⟩ := hm.halts henc hstop env
    refine ⟨n + 1, fun more hle => ?_⟩
    simp only [hmain.execute_ended ((Machine.run_add hrun 1).trans hhalts) nofun hle]
    obtain ⟨_, _, _, _, _⟩ := m'
    exact ⟨rfl, fun name => hshows env.program name (by rw [hprogram]; exact hglobals name)⟩
  · obtain ⟨turns, hturns⟩ := hfaults
    have hdone := hdoes turns
    rw [hturns] at hdone
    obtain ⟨n, m, hrun⟩ := hdone
    refine ⟨n, fun more hle => ?_⟩
    simp only [hmain.execute_ended hrun nofun hle]
    obtain ⟨_, _, _, _, _⟩ := m
    exact ⟨rfl, rfl⟩
  · have hdone := hdoes fuel
    rw [hdiverges fuel] at hdone
    simp only [hmain.execute_eq, hdone.paused]
    obtain ⟨_, _, _, _, _⟩ := (((Context.forMain env.program id).start w).run env fuel).2
    rfl

end

open Build in
/-- Sums odd squares in a loop that is left by `break`, with a variable of its own in each turn. -/
def oddSquares : List Stmt :=
  let remainder (e : Expr) : Expr := binary (.arith .mod) e (int 2)
  [var "int" "total" none,
    forLoop (some (var "int" "i" (some (int 0)))) none
      (some (assignOp (some .add) (ident "i") (int 1)))
      (block [
        choose [(binary (.compare .eq) (remainder (ident "i")) (int 0), continueLoop),
          (binary (.compare .gt) (ident "i") (int 6), breakLoop)] none,
        var "int" "square" (some (binary (.arith .mul) (ident "i") (ident "i"))),
        expr (assignOp (some .add) (ident "total") (ident "square"))]),
    var "bool" "odd" (some (binary .and (binary (.compare .ne) (ident "total") (int 0))
      (cast "bool" (remainder (ident "total")))))]

theorem compile_preserves_oddSquares : ∃ image, (Script.compile ⟨oddSquares⟩).1 = .ok image ∧
    Ends oddSquares [("odd", .bool true), ("total", .int 35)] ∧ ∃ fuel, ∀ more, fuel ≤ more →
      let c := ((Context.forMain (.load image) 0).execute (.ofImage image {}) more {}).1
      c.status = .halted ∧ c.global (.load image) "total" = some (.int 35) ∧
        c.global (.load image) "odd" = some (.int 1) := by
  have hok : ((Script.compile ⟨oddSquares⟩).1).toOption.any (fun _ => true) = true :=
    by decide +kernel
  have hends : Ends oddSquares [("odd", .bool true), ("total", .int 35)] := ⟨8, by decide +kernel⟩
  obtain ⟨image, himage, -⟩ := exists_of_any hok
  have hroom : heightAll oddSquares ≤ (Setting.ofImage image {}).limits.stack := by
    show heightAll oddSquares ≤ ({} : Limits).stack
    decide
  obtain ⟨-, hhalts, -, -⟩ := compile_preserves himage (by decide) (by decide) rfl hroom 0 {}
  obtain ⟨fuel, hfuel⟩ := hhalts _ hends
  refine ⟨image, himage, hends, fuel, fun more hle => ?_⟩
  obtain ⟨hstatus, hglobal⟩ := hfuel more hle
  exact ⟨hstatus, hglobal "total", hglobal "odd"⟩

end Bytescript
