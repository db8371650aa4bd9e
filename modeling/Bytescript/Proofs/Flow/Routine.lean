import Bytescript.Proofs.Encoding
import Bytescript.Proofs.Flow.Statement
import Bytescript.Proofs.Slots

/-!
# Flow through routines

Every routine of a compiled script can be annotated (`Routine.Checked`): it begins with its
arguments on the stack and returns with nothing left there but its result.
-/

namespace Bytescript

open TypeTable (primitives)
open Lower (ClassInfo)

/-- The code of a routine has been annotated. -/
structure Routine.Checked (T : Tables) (strict : Prop) (H : Home) (Δ : List TypeId) (G : Annotation)
    (r : Routine) : Prop where
  slots_eq : r.slots = Δ.length
  result_eq : H.role ≠ .main → H.result = r.result
  encoded : Layout.Encodes r.code r.body
  bound : ∀ k, r.code.size < k → G k = none
  entry : Accepts G 0 ⟨r.params, Locals.empty.live strict⟩
  checks : ∀ (k : Nat) i, r.code[k]? = some i → ∃ p, G k = some p ∧ Checks T H Δ G k p i

section

variable {T : Tables} {H : Home} {Δ0 Δ1 Δ : List TypeId} {Γ Γ' : Locals} {b : Nat}
  {code : List Instruction}
  {strict : Prop} {params : List (String × TypeId)} {info : ClassInfo} {items : List Stmt}

theorem Receives.slots_grow (h : Receives params Γ Δ0 code Γ' Δ1) : Δ0 <+: Δ1 := by
  induction h with
  | nil => exact List.prefix_rfl
  | cons _ _ _ _ ih => exact (List.prefix_append _ _).trans ih

/-- Arguments are stored one after the other. -/
theorem Receives.flows (h : Receives params Γ Δ0 code Γ' Δ1) (hΔ : Δ1 <+: Δ) (E : Annotation → Prop)
    (st : List TypeId) :
    Flows T H Δ E b code ⟨params.map Prod.snd ++ st, Γ.live strict⟩ ⟨st, Γ'.live strict⟩ := by
  induction h generalizing b with
  | nil => exact .nil (.refl _)
  | @cons _ t _ slot _ _ _ _ _ _ hlen hslot hrest ih =>
    have ht : Δ[slot.toNat]? = some t := hslot ▸ slot_type hlen (hrest.slots_grow.trans hΔ)
    exact ((Flows.store ht).refine_right (.of_live Locals.live_set)).append (ih hΔ)

theorem Receives.known (h : Receives params Γ Δ0 code Γ' Δ1) (hΔ : Δ1 <+: Δ)
    (hΓ : ∀ name slot t, Γ name = some (slot, t) → Δ[slot.toNat]? = some t) :
    Γ.Le Γ' ∧ (∀ name slot t, Γ' name = some (slot, t) → Δ[slot.toNat]? = some t) ∧
      ∀ name t, (name, t) ∈ params → ∃ slot, Γ' name = some (slot, t) := by
  induction h with
  | nil => exact ⟨fun _ _ => id, hΓ, fun _ _ hmem => absurd hmem List.not_mem_nil⟩
  | @cons name t _ slot Γ1 _ _ _ _ hfresh hlen hslot hrest ih =>
    have ht : Δ[slot.toNat]? = some t := hslot ▸ slot_type hlen (hrest.slots_grow.trans hΔ)
    have hset : (Γ1.set name slot t) name = some (slot, t) := by simp [Locals.set]
    obtain ⟨hle, hslots, hmem⟩ := ih hΔ fun n slot' t' hn => by
      rw [Locals.set] at hn
      split at hn
      · cases hn
        exact ht
      · exact hΓ n slot' t' hn
    refine ⟨fun n x hn => hle n x (Locals.Le.set hfresh n x hn), hslots, fun n t' hn => ?_⟩
    rcases List.mem_cons.mp hn with heq | hn
    · cases heq
      exact ⟨slot, hle _ _ hset⟩
    · exact hmem n t' hn

/-- The variables of a routine after it has stored its arguments. -/
theorem Receives.locals_known (h : Receives params .empty [] code Γ Δ1) (hΔ : Δ1 <+: Δ)
    (hself : ∀ cls, H.role.class? = some cls → ("this", cls) ∈ params) : Γ.Known H Δ := by
  obtain ⟨-, hslots, hmem⟩ := h.known hΔ fun _ _ _ hn => nomatch hn
  exact ⟨hslots, fun cls hcls => hmem _ _ (hself cls hcls)⟩

theorem BodyCode.flows {body : List Stmt} (h : BodyCode T H params body code Δ)
    (hrole : H.role ≠ .main) (hself : ∀ cls, H.role.class? = some cls → ("this", cls) ∈ params)
    (hscoped : strict → scopedAll body = true) :
    ∃ q, Flows T H Δ (fun _ => True) 0 code ⟨params.map Prod.snd, Locals.empty.live strict⟩ q := by
  have hboth : ∀ {Γ Γ' Δ1 cp cb}, Receives params .empty [] cp Γ Δ1 →
      Executes T H none (.stmts body) Γ Δ1 cp.length cb Γ' Δ →
      Flows T H Δ (fun _ => True) 0 (cp ++ cb) ⟨params.map Prod.snd, Locals.empty.live strict⟩
        ⟨[], Γ'.live strict⟩ := by
    intro Γ Γ' Δ1 cp cb hrec hexec
    have hparams : Flows T H Δ (fun _ => True) 0 cp ⟨params.map Prod.snd ++ [],
      Locals.empty.live strict⟩
        ⟨[], Γ.live strict⟩ := hrec.flows hexec.slots_grow _ []
    rw [List.append_nil] at hparams
    refine hparams.append ?_
    rw [Nat.zero_add]
    exact hexec.flows List.prefix_rfl (hrec.locals_known hexec.slots_grow hself) hscoped _
      ⟨by nofun, by nofun⟩
  cases h with
  | bare hrec hexec => exact ⟨_, hboth hrec hexec⟩
  | @returning _ Γ' _ _ _ _ hrec hexec hvoid =>
    have hret :
        ∀ b, Flows T H Δ (fun _ => True) b [.retVoid] ⟨[], Γ'.live strict⟩ ⟨[], Γ'.live strict⟩ :=
      fun b => ⟨_, .single fun _ _ _ => .retVoid hrole hvoid⟩
    have hall := (hboth hrec hexec).append (hret _)
    rw [List.append_assoc] at hall
    exact ⟨_, hall⟩

theorem Prepares.flows {self : UInt16} {L : Nat → Prop} (h : Prepares T H Γ info self items b code)
    (hinfo : T.scopes.classInfo? info.type = some info) (hself : Γ "this" = some (self, info.type))
    (hΓ : Γ.Fits H Δ L) (E : Annotation → Prop) : Flows T H Δ E b code ⟨[], L⟩ ⟨[], L⟩ := by
  induction h with
  | nil => exact .nil (.refl _)
  | @member _ _ _ _ _ t _ _ _ cv _ hmember hvalue hassign _ ih =>
    have hload : ∀ b, Flows T H Δ E b [.load .ref self] ⟨[], L⟩ ⟨[info.type], L⟩ :=
      fun _ => .reference hΓ hself
    have hset :
        ∀ b, Flows T H Δ E b [.setField (primitives.kindOf t) _] ⟨[t, info.type], L⟩ ⟨[], L⟩ :=
      fun _ => .plain (.setField hinfo hmember)
    refine (hload _).append ((hvalue.flows hΓ E [info.type]).append
      (((StackCode.assign hassign).flows hΓ E).append ((hset _).append ?_)))
    refine Eq.mp (congrArg (Flows T H Δ E · _ _ _) ?_) ih
    simp only [List.length_singleton]
    omega
  | other _ _ ih => exact ih

theorem ConstructorCode.flows {scope : TypeScopeId}
    (h : ConstructorCode T ⟨.constructor info.type, scope, info.type⟩ info items code Δ)
    (hinfo : T.scopes.classInfo? info.type = some info) :
    ∃ q, Flows T ⟨.constructor info.type, scope, info.type⟩ Δ (fun _ => True) 0 code
      ⟨[info.type], Locals.empty.live strict⟩ q := by
  obtain ⟨hrec, hself, hprep⟩ := h
  next self Γ cp cm =>
  let H : Home := ⟨.constructor info.type, scope, info.type⟩
  have hΓ : Γ.Fits H Δ (Γ.live strict) := (hrec.locals_known List.prefix_rfl fun cls hcls => by
    cases hcls
    exact .head _).fits
  have hparams : Flows T H Δ (fun _ => True) 0 cp ⟨[info.type], Locals.empty.live strict⟩
      ⟨[], Γ.live strict⟩ := hrec.flows List.prefix_rfl _ []
  have hload : ∀ b, Flows T H Δ (fun _ => True) b [.load .ref self] ⟨[], Γ.live strict⟩
      ⟨[info.type], Γ.live strict⟩ := fun _ => .reference hΓ hself
  have hret : ∀ b, Flows T H Δ (fun _ => True) b [.ret] ⟨[info.type], Γ.live strict⟩
      ⟨[], Γ.live strict⟩ := fun _ => ⟨_, .single fun _ _ _ => .ret (by rintro ⟨⟩)⟩
  refine ⟨_, hparams.append (.append ?_ ((hload _).append (hret _)))⟩
  rw [Nat.zero_add]
  exact hprep.flows hinfo hself hΓ _

end

/-! ## Checked routines -/

section

variable {T : Tables} {H : Home} {Δ : List TypeId} {r : Routine} {strict : Prop}

/-- Code that flows from the arguments on has been annotated. -/
theorem Flows.checked {q : Point}
    (h : Flows T H Δ (fun _ => True) 0 r.code.toList ⟨r.params, Locals.empty.live strict⟩ q)
    (hslots : r.slots = Δ.length) (hresult : H.role ≠ .main → H.result = r.result)
    (hencoded : ∃ marks, encode r.code marks = .ok r.body) : ∃ G, r.Checked T strict H Δ G := by
  obtain ⟨G, hbound, hentry, hchecks⟩ := h.annotation
  obtain ⟨marks, hbody⟩ := hencoded
  refine ⟨G, hslots, hresult, Layout.encode_encodes hbody, fun k hk => hbound k (by simpa using hk),
    hentry, fun k i hi => hchecks k i (by simpa using hi)⟩

theorem Routine.HasBody.checked {role : SiteRole} {scope : TypeScopeId} {head : FunctionHead}
    {body : List Stmt} {declared : List TypeId} {result : TypeId}
    (h : r.HasBody T role scope head body declared result Δ) (hrole : role ≠ .main)
    (hscoped : strict → scopedAll body = true) :
    ∃ G, r.Checked T strict ⟨role, scope, result⟩ Δ G := by
  obtain ⟨q, hflow⟩ := h.code.flows hrole (fun cls hcls => by simp only at hcls; simp [hcls])
    hscoped
  rw [h.params_snd] at hflow
  exact hflow.checked h.slots_eq (fun _ => h.result_eq.symm) h.encoded

variable {items : List Stmt}

theorem Routine.Constructs.checked {info : ClassInfo} (h : r.Constructs T info items Δ)
    (hinfo : T.scopes.classInfo? info.type = some info) :
    ∃ G, r.Checked T strict ⟨.constructor info.type, info.scopes.types, info.type⟩ Δ G := by
  obtain ⟨q, hflow⟩ : ∃ q, Flows T _ Δ (fun _ => True) 0 r.code.toList
      ⟨[info.type], Locals.empty.live strict⟩ q := h.code.flows hinfo
  rw [← h.params_eq] at hflow
  exact hflow.checked h.slots_eq (fun _ => h.result_eq.symm) h.encoded

theorem scopedAll_iff : scopedAll items = true ↔ ∀ s ∈ items, s.scoped = true := by
  induction items with
  | nil => simp [scopedAll]
  | cons s rest ih => simp [scopedAll, ih]

theorem Routine.RunsItems.checked {Γ : Locals} (h : r.RunsItems T items Γ Δ)
    (hscoped : strict → scopedAll items = true) :
    ∃ G, r.Checked T strict ⟨.main, .top, .void⟩ Δ G := by
  obtain ⟨code, hcode, hexec⟩ := h.code
  have hitems : strict → scopedAll (items.filter Stmt.isCode) = true := fun hs =>
    scopedAll_iff.mpr fun s hmem => scopedAll_iff.mp (hscoped hs) s (List.mem_filter.mp hmem).1
  have hflow := hexec.flows List.prefix_rfl ⟨by nofun, by nofun⟩ hitems (fun _ => True)
    ⟨by nofun, by nofun⟩
  have hstop : Flows T ⟨.main, .top, .void⟩ Δ (fun _ => True) (0 + code.length) [.stop]
      ⟨[], Γ.live strict⟩ ⟨[], Γ.live strict⟩ := ⟨_, .single fun _ _ _ => .stop rfl⟩
  have hall := hflow.append hstop
  rw [← hcode] at hall
  exact Flows.checked (h.params_eq ▸ hall) h.slots_eq (fun hne => absurd rfl hne) h.encoded

end

variable {T : Tables} {items : List Stmt} {r : Routine} {strict : Prop} {image : Image}

/-- The body of a class stands inside of the items. -/
theorem Tables.HasClass.scoped {t : TypeScopeId} {outer name : String} {body : List Stmt}
    {info : ClassInfo}
    (h : T.HasClass t outer items name info body) (hscoped : scopedAll items = true) :
    scopedAll body = true := by
  induction h with
  | here hmem =>
    have := scopedAll_iff.mp hscoped _ hmem
    rwa [Stmt.scoped] at this
  | inside hmem _ _ ih =>
    have := scopedAll_iff.mp hscoped _ hmem
    rw [Stmt.scoped] at this
    exact ih this

theorem Tables.Source.checked {d : Callable} (h : T.Source items r d)
    (hscoped : strict → scopedAll items = true) :
    ∃ H Δ G, H.role ≠ .main ∧ r.Checked T strict H Δ G ∧ T.Slots items r Δ := by
  have hinside : ∀ {span : Span} {head : FunctionHead} {code list : List Stmt},
      (strict → scopedAll list = true) → .function span head code ∈ list → strict →
      scopedAll code = true := by
    intro span head code list hlist hmem hs
    have := scopedAll_iff.mp (hlist hs) _ hmem
    rwa [Stmt.scoped] at this
  have hsource := h
  cases h with
  | function hmem hnamed =>
    obtain ⟨_, _, Δ, hbody, -⟩ := hnamed.body
    have hrole : SiteRole.function ≠ .main := by rintro ⟨⟩
    obtain ⟨G, hG⟩ := hbody.checked hrole (hinside hscoped hmem)
    exact ⟨_, Δ, G, hrole, hG, .function hsource hbody.slots⟩
  | method hclass hmem hnamed =>
    obtain ⟨_, _, Δ, hbody, -⟩ := hnamed.body
    have hrole : ∀ cls, SiteRole.method cls ≠ .main := by rintro _ ⟨⟩
    obtain ⟨G, hG⟩ := hbody.checked (hrole _) (hinside (fun hs => hclass.scoped (hscoped hs)) hmem)
    exact ⟨_, Δ, G, hrole _, hG, .method hclass hsource hbody.slots⟩
  | constructor hclass hcons _ =>
    obtain ⟨_, _, hat⟩ := hclass.classAt
    obtain ⟨G, hG⟩ := hcons.checked hat.found
    exact ⟨_, _, G, by rintro ⟨⟩, hG, .constructor hsource hcons.slots⟩

/-! ## Checked images -/

/-- What is known about the routines of an image. -/
structure Plan (T : Tables) (strict : Prop) where
  home : Routine → Home
  slots : Routine → List TypeId
  points : Routine → Annotation

/-- A routine has been annotated as planned. -/
def Plan.Covers {T : Tables} {strict : Prop} (P : Plan T strict) (r : Routine) : Prop :=
  r.Checked T strict (P.home r) (P.slots r) (P.points r)

/-- Every routine has been annotated as planned, and the top-level code is apart from the others. -/
structure Plan.CoversImage {T : Tables} {strict : Prop} (P : Plan T strict) (image : Image) :
    Prop where
  main : P.Covers image.main
  main_role : (P.home image.main).role = .main
  routines : ∀ r ∈ image.routines, P.Covers r ∧ (P.home r).role ≠ .main

/-- Only the top-level code stops. -/
theorem Routine.Checked.not_stop {H : Home} {Δ : List TypeId} {G : Annotation}
    (h : r.Checked T strict H Δ G)
    (hrole : H.role ≠ .main) {k : Nat} : r.code[k]? ≠ some .stop := by
  intro hk
  obtain ⟨p, -, hchecks⟩ := h.checks k _ hk
  cases hchecks with
  | plain htakes _ => cases htakes.isComputing
  | stop hmain => exact hrole hmain

/-- The slots of every routine are planned for what its source declares. -/
structure Plan.Declares {T : Tables} {strict : Prop} (P : Plan T strict) (items : List Stmt)
    (image : Image) : Prop where
  main : image.main.HasSlots T .top items (P.slots image.main)
  routines : ∀ r ∈ image.routines, T.Slots items r (P.slots r)

open Classical in
theorem Image.Compiled.planned_slots (h : image.Compiled items T)
    (hscoped : strict → scopedAll items = true) :
    ∃ P : Plan T strict, P.CoversImage image ∧ P.Declares items image := by
  obtain ⟨Γ, Δ, hruns, -⟩ := h.main
  obtain ⟨G, hmain⟩ := hruns.checked hscoped
  obtain ⟨code, hcode, -⟩ := hruns.code
  have hstop : image.main.code[code.length]? = some .stop := by
    rw [← Array.getElem?_toList, hcode]
    exact List.getElem?_concat_length
  have hall : ∀ r : Routine, ∃ (H : Home) (Δ : List TypeId) (G : Annotation), r ∈ image.routines →
      H.role ≠ .main ∧ r.Checked T strict H Δ G ∧ T.Slots items r Δ := by
    intro r
    by_cases hr : r ∈ image.routines
    · obtain ⟨d, hsource⟩ := h.source hr
      obtain ⟨H, Δ, G, hchecked⟩ := hsource.checked hscoped
      exact ⟨H, Δ, G, fun _ => hchecked⟩
    · exact ⟨⟨.main, .top, .void⟩, [], fun _ => none, fun hmem => absurd hmem hr⟩
  choose homes slots points hplan using hall
  have hother : ∀ r ∈ image.routines, r ≠ image.main := by
    rintro r hr rfl
    obtain ⟨hrole, hchecked, -⟩ := hplan _ hr
    exact hchecked.not_stop hrole hstop
  refine ⟨⟨fun r => if r = image.main then ⟨.main, .top, .void⟩ else homes r,
    fun r => if r = image.main then Δ else slots r,
    fun r => if r = image.main then G else points r⟩, ⟨?_, ?_, fun r hr => ?_⟩, ?_, fun r hr => ?_⟩
  · simpa only [Plan.Covers, if_true] using hmain
  · simp only [if_true]
  · obtain ⟨hrole, hchecked, -⟩ := hplan r hr
    simpa only [Plan.Covers, if_neg (hother r hr)] using And.intro hchecked hrole
  · simpa only [if_true] using hruns.slots
  · obtain ⟨-, -, hslots⟩ := hplan r hr
    simpa only [if_neg (hother r hr)] using hslots

theorem Image.Compiled.planned (h : image.Compiled items T)
    (hscoped : strict → scopedAll items = true) :
    ∃ P : Plan T strict, P.CoversImage image :=
  (h.planned_slots hscoped).imp fun _ hP => hP.1

end Bytescript
