import Bytescript.Proofs.Tables

/-!
# Typedefs

A typedef redirects to another type. It may be announced first, used by other typedefs, and defined
later, so chains of redirects grow at both ends and in any scope. Whatever operations a table has
been through, refused ones among them, no chain closes (`Linked.acyclic`) and every chain is
followed to its end (`Linked.resolves`); and a definition is refused for closing one only if it
would (`Linked.insert_cycle`).

What an operation can do to a table is said once (`Linked.performs`), and holds for every name that
a type is given.
-/

namespace Bytescript

/-! ## Operations -/

inductive TypeOp where
  | newScope (parent : TypeScopeId)
  | declare (scope : TypeScopeId) (name : String) (kind : TypeKind)
  | insert (scope : TypeScopeId) (name : String) (kind : TypeKind) (redirect : Option TypeId)
  | intern (kind : TypeKind) (args : List TypeId)
  | relate (a b : TypeId) (downward upward : Conversion)
deriving DecidableEq, Repr

def TypeOp.isRelation : TypeOp → Bool
  | .relate .. => true
  | _ => false

inductive TypeAnswer where
  | done
  | scope (s : TypeScopeId)
  | type (id : TypeId)
deriving DecidableEq, Repr

namespace TypeTable

variable (t : TypeTable)

def perform : TypeOp → Except TypeError TypeAnswer × TypeTable
  | .newScope parent => (.ok (.scope (t.newScope parent).1), (t.newScope parent).2)
  | .declare s name kind => (.ok (.type (t.declare s name kind).1), (t.declare s name kind).2)
  | .insert s name kind redirect => (t.insert s name kind redirect).map (.type <$> ·) id
  | .intern kind args => (t.insertGeneric kind args).map (.type <$> ·) id
  | .relate a b downward upward => (.ok .done, t.relate a b downward upward)

/-- The table after some operations, whether they are refused or not. -/
def after (ops : List TypeOp) : TypeTable :=
  ops.foldl (fun t op => (t.perform op).2) t

/-- The scopes and types that an operation names are there. -/
def Fits : TypeOp → Prop
  | .newScope parent => parent.index < t.scopes.size
  | .declare s _ _ => s.index < t.scopes.size
  | .insert s _ _ redirect => s.index < t.scopes.size ∧ ∀ r ∈ redirect, r.index < t.size
  | .intern _ args => ∀ a ∈ args, a.index < t.size
  | .relate a b _ _ => a.index < t.size ∧ b.index < t.size

instance : (op : TypeOp) → Decidable (t.Fits op)
  | .newScope parent => inferInstanceAs (Decidable (parent.index < t.scopes.size))
  | .declare s _ _ => inferInstanceAs (Decidable (s.index < t.scopes.size))
  | .insert s _ _ redirect =>
    inferInstanceAs (Decidable (s.index < t.scopes.size ∧ ∀ r ∈ redirect, r.index < t.size))
  | .intern _ args => inferInstanceAs (Decidable (∀ a ∈ args, a.index < t.size))
  | .relate a b _ _ => inferInstanceAs (Decidable (a.index < t.size ∧ b.index < t.size))

/-- Each of the operations names what is there when its turn comes. -/
def Runs (t : TypeTable) : List TypeOp → Prop
  | [] => True
  | op :: ops => t.Fits op ∧ (t.perform op).2.Runs ops

instance decidableRuns (t : TypeTable) : (ops : List TypeOp) → Decidable (t.Runs ops)
  | [] => inferInstanceAs (Decidable True)
  | op :: ops =>
    have := decidableRuns (t.perform op).2 ops
    inferInstanceAs (Decidable (t.Fits op ∧ (t.perform op).2.Runs ops))

variable {t : TypeTable} {ops : List TypeOp} {id : TypeId} {kind : TypeKind}
  {redirect : Option TypeId}

/-- What holds at first and is kept by every operation holds after all of them. -/
theorem Runs.preserves {P : TypeTable → Prop} (hops : t.Runs ops) (ht : P t)
    (hstep : ∀ t op, P t → t.Fits op → P (t.perform op).2) : P (t.after ops) := by
  induction ops generalizing t with
  | nil => exact ht
  | cons op ops ih => exact ih hops.2 (hstep t op ht hops.1)

/-! ## What an operation does -/

/-- The table in which an announced type has been defined. -/
def define (t : TypeTable) (id : TypeId) (kind : TypeKind) (redirect : Option TypeId) : TypeTable :=
  t.modify id fun e => { e with kind, redirect, complete := true }

/-- What operations make of a table, but for the one that relates two types. -/
inductive Defines (t : TypeTable) : TypeTable → Prop where
  | keeps : Defines t t
  | opens (parent : TypeScopeId) : Defines t (t.newScope parent).2
  | enters (e : TypeEntry) : t.lookupHere e.scope e.name = none →
      (e.complete = false → e.redirect = none) → (∀ r, e.redirect = some r → r.index < t.size) →
      e.supertypes = [] → e.subtypes = [] → Defines t (t.push e).2
  | completes (id : TypeId) (kind : TypeKind) (redirect : Option TypeId) : id.index < t.size →
      (t.get id).complete = false →
      (∀ r, redirect = some r → r.index < t.size ∧ t.reaches r id = false) →
      Defines t (t.define id kind redirect)

theorem relate_eq (t : TypeTable) (a b : TypeId) (downward upward : Conversion) :
    t.relate a b downward upward =
      (t.modify a fun e => { e with supertypes := e.supertypes ++ [⟨b, upward⟩] }).modify b
        fun e => { e with subtypes := e.subtypes ++ [⟨a, downward⟩] } := rfl

/-- An announced type that is defined in place, without closing a cycle. -/
theorem amends_define (hpending : (t.get id).complete = false)
    (htarget : ∀ r, redirect = some r → r.index < t.size ∧ t.reaches r id = false) :
    t.Amends id fun e => { e with kind, redirect, complete := true } :=
  ⟨fun _ => rfl, fun _ => rfl, fun _ he => .inr ⟨get_of_entry he ▸ hpending, rfl, htarget⟩⟩

namespace Linked

variable {t : TypeTable} (h : t.Linked) {op : TypeOp}

include h

theorem insert_defines {s : TypeScopeId} {name : String} (hs : s.index < t.scopes.size)
    (hred : ∀ r ∈ redirect, r.index < t.size) : t.Defines (t.insert s name kind redirect).2 := by
  unfold insert
  split
  · exact .keeps
  next hcomplete =>
    split
    · exact .keeps
    split
    next hl => exact .enters _ hl (fun hc => by cases hc) hred rfl rfl
    next id hl =>
      split
      · exact .keeps
      next hcycle =>
        obtain ⟨e, he, -⟩ := h.bound s name id hl
        have hid := lt_of_entry he
        rw [isComplete, h.lookup_of_here hs hl, Option.any_some] at hcomplete
        refine .completes id kind redirect hid (Bool.not_eq_true _ ▸ hcomplete) fun r hr => ?_
        subst hr
        exact ⟨hred r rfl, Bool.not_eq_true _ ▸ hcycle⟩

theorem performs (hop : op.isRelation = false) (hfits : t.Fits op) :
    t.Defines (t.perform op).2 := by
  cases op with
  | newScope parent => exact .opens parent
  | declare s name kind =>
    simp only [perform, declare]
    split
    · exact .keeps
    next hl =>
      exact .enters _ (h.lookupHere_none hfits hl) (fun _ => rfl) (fun r hr => by cases hr) rfl rfl
  | insert s name kind redirect => exact h.insert_defines hfits.1 hfits.2
  | intern kind args =>
    simp only [perform, insertGeneric]
    split
    · exact .keeps
    · split
      · exact .keeps
      next hl => exact .enters _ hl (fun hc => by cases hc) (fun r hr => by cases hr) rfl rfl
  | relate => cases hop

theorem defines {t' : TypeTable} (hd : t.Defines t') : t'.Linked := by
  cases hd with
  | keeps => exact h
  | opens parent => exact h.newScope
  | enters e hfree hpending htarget _ _ => exact h.push hfree hpending htarget
  | completes id kind redirect _ hpending htarget => exact h.modify (amends_define hpending htarget)

theorem perform (hfits : t.Fits op) : (t.perform op).2.Linked := by
  cases hop : op.isRelation with
  | false => exact h.defines (h.performs hop hfits)
  | true =>
    cases op with
    | relate a b downward upward =>
      exact (h.modify (amends_supertypes t a _)).modify (amends_subtypes _ b _)
    | _ => cases hop

end Linked

theorem primitives_linked : primitives.Linked := primitives_woven.toLinked

theorem Runs.linked (hops : primitives.Runs ops) : (primitives.after ops).Linked :=
  hops.preserves primitives_linked fun _ _ ht hfits => ht.perform hfits

/-! ## Chains of redirects -/

theorem resolve_of_redirect (h : (t.get id).redirect = none) : t.resolve id = id :=
  Settles.resolve ⟨.refl id, h⟩

namespace Linked

variable {t : TypeTable} (h : t.Linked)

include h

theorem settles_all (id : TypeId) : ∃ n r, t.Settles n id r := by
  cases hred : (t.get id).redirect with
  | none => exact ⟨0, id, .refl id, hred⟩
  | some r =>
    obtain ⟨n, r, hn, -⟩ := h.settles id (lt_of_redirect hred)
    exact ⟨n, r, hn⟩

/-- Every chain of redirects is followed to its end, which is no further away than the table is
large. -/
theorem resolves (id : TypeId) :
    ∃ n ≤ t.size, t.Leads n id (t.resolve id) ∧ (t.get (t.resolve id)).redirect = none := by
  obtain ⟨n, r, hn⟩ := h.settles_all id
  rw [hn.resolve]
  exact ⟨n, hn.le_size, hn⟩

theorem resolve_redirect (id : TypeId) : (t.get (t.resolve id)).redirect = none := by
  obtain ⟨-, -, -, hred⟩ := h.resolves id
  exact hred

theorem resolve_resolve (id : TypeId) : t.resolve (t.resolve id) = t.resolve id :=
  resolve_of_redirect (h.resolve_redirect id)

theorem acyclic (n : Nat) (id : TypeId) : ¬ t.Leads (n + 1) id id := by
  intro hcycle
  obtain ⟨m, r, hm⟩ := h.settles_all id
  -- once around the cycle is a second way to where the first one ends
  have := (Settles.unique hm ⟨hcycle.trans hm.1, hm.2⟩).1
  omega

end Linked

/-- What is found to be reached by redirects is reached by them, in every table that has the same
redirects up to there. -/
theorem Settles.leads_of_leadsTo {t' : TypeTable} {target r : TypeId} {fuel n : Nat} {a : TypeId}
    (h : t.Settles n a r) (hfuel : n < fuel) (hl : t.leadsTo target fuel a = true)
    (hsame : ∀ b, b ≠ target → (t'.get b).redirect = (t.get b).redirect) :
    ∃ k, t'.Leads k a target := by
  induction fuel generalizing n a with
  | zero => omega
  | succ fuel ih =>
    by_cases ha : a = target
    · subst ha
      exact ⟨0, .refl a⟩
    obtain ⟨hleads, hr⟩ := h
    cases hleads with
    | refl => simp [leadsTo, ha, hr] at hl
    | step hred hrest =>
      simp only [leadsTo, ha, hred, decide_false, Bool.false_or] at hl
      obtain ⟨k, hk⟩ := ih ⟨hrest, hr⟩ (by omega) hl
      exact ⟨k + 1, .step ((hsame a ha).trans hred) hk⟩

/-- A definition is refused for a cycle only if with it there would be one. -/
theorem Linked.insert_cycle (h : t.Linked) {s : TypeScopeId} {name n : String}
    (hin : (t.insert s name kind redirect).1 = .error (.cycle n)) :
    n = name ∧ ∃ id k, t.lookupHere s name = some id ∧
      (t.define id kind redirect).Leads (k + 1) id id := by
  unfold insert at hin
  split at hin
  · cases hin
  split at hin
  · cases hin
  split at hin
  · cases hin
  next id hl =>
    split at hin
    next hcycle =>
      obtain ⟨e, he, -⟩ := h.bound s name id hl
      have hid := lt_of_entry he
      obtain ⟨r, rfl, hreaches⟩ := (Option.any_eq_true _ _).mp hcycle
      obtain ⟨m, q, hm⟩ := h.settles_all r
      obtain ⟨k, hk⟩ : ∃ k, (t.define id kind (some r)).Leads k r id :=
        hm.leads_of_leadsTo (Nat.lt_succ_of_le hm.le_size) hreaches fun b hb => by
          rw [define, modify_get_ne hb]
      obtain rfl := TypeError.cycle.inj (Except.error.inj hin)
      refine ⟨rfl, id, k, hl, .step ?_ hk⟩
      rw [define, modify_get_self hid]
    · cases hin

theorem insert_error {s : TypeScopeId} {name : String} {e : TypeError}
    (h : (t.insert s name kind redirect).1 = .error e) : (t.insert s name kind redirect).2 = t := by
  revert h
  unfold insert
  repeat' split
  all_goals
    intro h
    first | rfl | cases h

theorem insertGeneric_error {args : List TypeId} {e : TypeError}
    (h : (t.insertGeneric kind args).1 = .error e) : (t.insertGeneric kind args).2 = t := by
  revert h
  unfold insertGeneric
  repeat' split
  all_goals
    intro h
    first | rfl | cases h

theorem perform_error {op : TypeOp} {e : TypeError} (h : (t.perform op).1 = .error e) :
    (t.perform op).2 = t := by
  have hanswer : ∀ {r : Except TypeError TypeId}, TypeAnswer.type <$> r = .error e →
  r = .error e := by
    rintro (_ | _) hr <;> cases hr
    rfl
  cases op with
  | insert => exact insert_error (hanswer h)
  | intern => exact insertGeneric_error (hanswer h)
  | _ => cases h

/-- **Typedefs can be resolved.** After any operations on the table of primitive types, redirects
form no cycle; following them ends, within the bound on their number, at a type that stands for
itself; two types are the same if this is one type for both, which is an equivalence; a definition
is refused for a cycle only if it would close one, and whatever is refused leaves the table as it
was. -/
theorem after_resolves {ops : List TypeOp} (hops : primitives.Runs ops) :
    let t := primitives.after ops
    (∀ n id, ¬ t.Leads (n + 1) id id) ∧
    (∀ id, id.index < t.size → (t.resolve id).index < t.size ∧
      (t.get (t.resolve id)).redirect = none ∧ ∃ n ≤ t.size, t.Leads n id (t.resolve id)) ∧
    (∀ id, t.resolve (t.resolve id) = t.resolve id) ∧
    (∀ a b, t.same a b = true ↔ t.resolve a = t.resolve b) ∧
    Equivalence (fun a b => t.same a b = true) ∧
    (∀ s name kind redirect n, (t.insert s name kind redirect).1 = .error (.cycle n) →
      n = name ∧ ∃ id k, t.lookupHere s name = some id ∧
        (t.define id kind redirect).Leads (k + 1) id id) ∧
    ∀ op e, (t.perform op).1 = .error e → (t.perform op).2 = t := by
  have ht := hops.linked
  refine ⟨ht.acyclic, fun id hid => ?_, ht.resolve_resolve, fun _ _ => decide_eq_true_iff, ?_,
    fun _ _ _ _ _ => ht.insert_cycle, fun _ _ => perform_error⟩
  · obtain ⟨n, hn, hleads, hred⟩ := ht.resolves id
    exact ⟨(ht.resolve hid).1, hred, n, hn, hleads⟩
  · simp only [same, decide_eq_true_eq]
    exact ⟨fun _ => rfl, Eq.symm, Eq.trans⟩

/-- Two typedefs are announced and a third one made of them; then the second is refused as another
name of the third, and taken as one of `int`. -/
def chainOps : List TypeOp :=
  [.declare .top "A" .typedef, .declare .top "B" .typedef, .insert .top "A" .typedef (some ⟨6⟩),
    .insert .top "C" .typedef (some ⟨5⟩), .insert .top "B" .typedef (some ⟨7⟩),
    .insert .top "B" .typedef (some .int)]

theorem after_resolves_chain : primitives.Runs chainOps ∧
    ((primitives.after (chainOps.take 4)).perform (.insert .top "B" .typedef (some ⟨7⟩))).1 =
      .error (.cycle "B") ∧
    (primitives.after chainOps).resolve ⟨7⟩ = .int ∧
    (∀ n id, ¬ (primitives.after chainOps).Leads (n + 1) id id) ∧
    ∃ k, ((primitives.after (chainOps.take 4)).define ⟨6⟩ .typedef (some ⟨7⟩)).Leads (k + 1) ⟨6⟩
      ⟨6⟩ := by
  have hops : primitives.Runs chainOps := by decide
  have hbefore : primitives.Runs (chainOps.take 4) := by decide
  have hrefused : ((primitives.after (chainOps.take 4)).insert .top "B" .typedef (some ⟨7⟩)).1 =
      .error (.cycle "B") := rfl
  obtain ⟨-, -, -, -, -, hcycle, -⟩ := after_resolves hbefore
  obtain ⟨-, id, k, hid, hk⟩ := hcycle _ _ _ _ _ hrefused
  obtain rfl : ⟨6⟩ = id := Option.some.inj hid
  exact ⟨hops, rfl, rfl, (after_resolves hops).1, k, hk⟩

end TypeTable

end Bytescript
