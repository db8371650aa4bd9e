import Bytescript.Proofs.Conversions

/-!
# Relations that take effect

A relation is noted with the two types that it is given for, whereas a search for a conversion
begins at what a type stands for. So a relation takes effect at once where it is noted with a type
that stands for itself, and a typedef that is related to another type gains nothing
(`Related.relate_converts`).

Conversions stay, as long as no typedef is made of an announced type that has relations, since these
are not looked at again (`Related.keeps_iff`). Whatever else is done to a table takes no conversion
away, in however many steps (`Related.after_keeps`).
-/

namespace Bytescript

namespace TypeTable

/-- There is a conversion from one type to another that is at least of a kind; an implicit one
serves where one by a cast does. -/
def Converts (t : TypeTable) (a b : TypeId) (c : Conversion) : Prop :=
  t.conversion a b = some .implicit ∨ c = .explicit ∧ t.conversion a b = some .explicit

instance (t : TypeTable) (a b : TypeId) (c : Conversion) : Decidable (t.Converts a b c) :=
  inferInstanceAs (Decidable (_ ∨ _))

/-- All that is noted with a type. -/
def relations (t : TypeTable) (id : TypeId) : List Relation :=
  (t.get id).supertypes ++ (t.get id).subtypes

/-! ## Paths -/

section

variable {t : TypeTable} {a b : TypeId} {c : Conversion}

theorem Related.converts_iff (h : t.Related) (ha : a.index < t.size) :
    t.Converts a b c ↔ t.Path (c = .implicit) (t.resolve a) (t.resolve b) := by
  obtain ⟨himplicit, hexplicit, -⟩ := h.conversion_eq (b := b) ha
  rw [Converts, himplicit, hexplicit]
  cases c with
  | implicit => simp
  | explicit =>
    simp only [true_and, reduceCtorEq, decide_false]
    refine ⟨fun hor => hor.elim Path.any And.left, fun hpath => ?_⟩
    by_cases htrue : t.Path true (t.resolve a) (t.resolve b)
    · exact .inl htrue
    · exact .inr ⟨hpath, htrue⟩

/-- A path for a kind of conversion is a path for whatever asks for no more. -/
theorem Path.weaken {implicitOnly : Bool} (h : t.Path (c = .implicit) a b)
    (hc : implicitOnly = true → c = .implicit) : t.Path implicitOnly a b := by
  cases implicitOnly with
  | true => simpa [hc rfl] using h
  | false =>
    cases c with
    | implicit => exact Path.any (by simpa using h)
    | explicit => simpa using h

variable {r : Relation}

theorem lt_of_relation (hr : r ∈ t.relations a) : a.index < t.size := by
  by_contra hge
  rw [relations, get_of_size_le (not_lt.mp hge)] at hr
  cases hr

/-- What is noted with a type that stands for itself is an arc. -/
theorem near_of_relation (hred : (t.get a).redirect = none) (hr : r ∈ t.relations a) :
    t.Near (r.conversion = .implicit) a (t.resolve r.other) :=
  ⟨r.conversion, ⟨lt_of_relation hr, hred, r, hr, rfl, rfl⟩, of_decide_eq_true⟩

theorem Related.converts_of_relation (h : t.Related) (hred : (t.get a).redirect = none)
    (hr : r ∈ t.relations a) : t.Converts a r.other r.conversion := by
  rw [h.converts_iff (lt_of_relation hr), resolve_of_redirect hred]
  exact .single (near_of_relation hred hr)

end

/-! ## Conversions that stay -/

variable {t t' : TypeTable} {a b : TypeId} {c : Conversion} {op : TypeOp}

/-- What a type stands for and what that stands for later on is what the type stands for then. -/
theorem Later.resolve_resolve (hlater : Later t t') (ht : t.Linked) (ht' : t'.Linked)
    (id : TypeId) : t'.resolve (t.resolve id) = t'.resolve id := by
  obtain ⟨n, -, hn, -⟩ := ht.resolves id
  obtain ⟨k, -, hk, hend⟩ := ht'.resolves (t.resolve id)
  exact (Settles.resolve ⟨(hlater.leads ht hn).trans hk, hend⟩).symm

/-- Between a table and a later one conversions stay, if they do for what was noted with types that
have become typedefs. -/
theorem Related.keeps (h : t.Related) (h' : t'.Related) (hlater : Later t t')
    (hrelations : ∀ id, t.relations id ⊆ t'.relations id)
    (hspared : ∀ id, (t.get id).redirect = none → (t'.get id).redirect ≠ none →
      ∀ r ∈ t.relations id, t'.Converts id r.other r.conversion)
    (ha : a.index < t.size) (hab : t.Converts a b c) : t'.Converts a b c := by
  have hstands := hlater.resolve_resolve h.toLinked h'.toLinked
  have harc : ∀ {i x y}, t.Near i x y → t'.Path i (t'.resolve x) (t'.resolve y) := by
    rintro i x _ ⟨_, ⟨hx, hred, r, hr, rfl, rfl⟩, hi⟩
    rw [hstands]
    by_cases hred' : (t'.get x).redirect = none
    · rw [resolve_of_redirect hred']
      exact Path.weaken (.single (near_of_relation hred' (hrelations x hr))) hi
    · have hconverts := hspared x hred hred' r hr
      rw [h'.converts_iff (hx.trans_le hlater.size)] at hconverts
      exact hconverts.weaken hi
  have hpath : ∀ {i x y}, t.Path i x y → t'.Path i (t'.resolve x) (t'.resolve y) := by
    intro i x y hpath
    induction hpath with
    | refl => exact .refl
    | tail _ hnear ih => exact ih.trans (harc hnear)
  rw [h.converts_iff ha] at hab
  rw [h'.converts_iff (ha.trans_le hlater.size), ← hstands a, ← hstands b]
  exact hpath hab

theorem Defines.later (h : t.Defines t') : Later t t' := by
  cases h with
  | keeps => exact .refl t
  | opens parent => exact later_newScope t parent
  | enters e hfree => exact later_push hfree
  | completes id kind redirect _ hpending htarget => exact (amends_define hpending htarget).later

theorem Linked.perform_later (h : t.Linked) (hfits : t.Fits op) : Later t (t.perform op).2 := by
  cases hop : op.isRelation with
  | false => exact (h.performs hop hfits).later
  | true =>
    cases op with
    | relate a b downward upward =>
      exact (amends_supertypes t a _).later.trans (amends_subtypes _ b _).later
    | _ => cases hop

theorem Linked.relations_subset (h : t.Linked) (hfits : t.Fits op) (id : TypeId) :
    t.relations id ⊆ (t.perform op).2.relations id := by
  intro r hr
  obtain ⟨hsuper, hsub⟩ := @Linked.mem_perform t h op hfits id r
  rcases List.mem_append.mp hr with hr | hr
  · exact List.mem_append_left _ (hsuper.mpr (.inl hr))
  · exact List.mem_append_right _ (hsub.mpr (.inl hr))

/-- Where an operation makes a typedef of a type, what the type then stands for converts to all that
the type was related to, as well as the type did. -/
def Spares (t : TypeTable) (op : TypeOp) : Prop :=
  ∀ id, (t.get id).redirect = none → ((t.perform op).2.get id).redirect ≠ none →
    ∀ r ∈ t.relations id, (t.perform op).2.Converts id r.other r.conversion

/-- Each of the operations spares the relations that there are when its turn comes. -/
def SparesAll (t : TypeTable) : List TypeOp → Prop
  | [] => True
  | op :: ops => t.Spares op ∧ (t.perform op).2.SparesAll ops

section

variable {t : TypeTable} (h : t.Related) {op : TypeOp} (hfits : t.Fits op)

include h hfits

theorem Related.perform_keeps (hspared : t.Spares op) {a b : TypeId} {c : Conversion}
    (ha : a.index < t.size) (hab : t.Converts a b c) : (t.perform op).2.Converts a b c :=
  h.keeps (h.perform hfits) (h.toLinked.perform_later hfits) (h.toLinked.relations_subset hfits)
    hspared ha hab

/-- An operation takes no conversion away exactly if it spares relations. -/
theorem Related.keeps_iff :
    (∀ a b c, a.index < t.size → b.index < t.size → t.Converts a b c →
      (t.perform op).2.Converts a b c) ↔ t.Spares op := by
  refine ⟨fun hkeeps id hred _ r hr => ?_, fun hspared a b c ha _ =>
    h.perform_keeps hfits hspared ha⟩
  exact hkeeps id r.other r.conversion (lt_of_relation hr) (h.others id r hr)
    (h.converts_of_relation hred hr)

end

/-- Conversions stay through any number of operations that spare relations. -/
theorem Related.after_keeps (h : t.Related) {ops : List TypeOp} (hops : t.Runs ops)
    (hspared : t.SparesAll ops) (ha : a.index < t.size) (hab : t.Converts a b c) :
    (t.after ops).Converts a b c := by
  induction ops generalizing t with
  | nil => exact hab
  | cons op ops ih =>
    have hsize := (h.toLinked.perform_later hops.1).size
    exact ih (h.perform hops.1) hops.2 hspared.2 (ha.trans_le hsize)
      (h.perform_keeps hops.1 hspared.1 ha hab)

/-- Only the definition of an announced type makes a typedef of a type that was none. -/
theorem Linked.redirected_by (h : t.Linked) (hfits : t.Fits op) {id target : TypeId}
    (hid : id.index < t.size)
    (hred : (t.get id).redirect = none) (hred' : ((t.perform op).2.get id).redirect = some target) :
    ∃ s name kind, op = .insert s name kind (some target) ∧ t.lookupHere s name = some id ∧
      (t.get id).complete = false := by
  have hpush : ∀ e : TypeEntry, ((t.push e).2.get id).redirect = some target → False := by
    intro e he
    rw [push_get, if_neg (Nat.ne_of_lt hid), hred] at he
    cases he
  have hkept : (t.get id).redirect = some target → False := fun heq => by
    rw [hred] at heq
    cases heq
  cases op with
  | newScope parent => exact (hkept hred').elim
  | declare s name kind =>
    simp only [TypeTable.perform, TypeTable.declare] at hred'
    split at hred'
    · exact (hkept hred').elim
    · exact (hpush _ hred').elim
  | intern kind args =>
    simp only [TypeTable.perform, insertGeneric] at hred'
    split at hred'
    · exact (hkept hred').elim
    split at hred'
    · exact (hkept hred').elim
    · exact (hpush _ hred').elim
  | relate a b downward upward =>
    simp only [TypeTable.perform, relate_eq] at hred'
    rw [modify_get (by rw [modify_size]; exact hfits.2), modify_get hfits.1] at hred'
    split at hred' <;> split at hred' <;> exact (hkept hred').elim
  | insert s name kind redirect =>
    simp only [TypeTable.perform, TypeTable.insert] at hred'
    split at hred'
    · exact (hkept hred').elim
    next hcomplete =>
      split at hred'
      · exact (hkept hred').elim
      split at hred'
      · exact (hpush _ hred').elim
      next old hl =>
        split at hred'
        · exact (hkept hred').elim
        have hold : old.index < t.size := by
          obtain ⟨e, he, -⟩ := h.bound s name old hl
          exact lt_of_entry he
        change ((t.define old kind redirect).get id).redirect = some target at hred'
        rw [define, modify_get hold] at hred'
        split at hred'
        next heq =>
          subst heq
          obtain rfl : redirect = some target := hred'
          rw [isComplete, h.lookup_of_here hfits.1 hl, Option.any_some] at hcomplete
          exact ⟨s, name, kind, rfl, hl, Bool.not_eq_true _ ▸ hcomplete⟩
        · exact (hkept hred').elim

/-- Where an operation does not spare relations, it makes a typedef of an announced type that has
some. -/
theorem Linked.culprit (h : t.Linked) (hfits : t.Fits op) (hspares : ¬ t.Spares op) :
    ∃ s name kind target id, op = .insert s name kind (some target) ∧
      t.lookupHere s name = some id ∧ (t.get id).complete = false ∧ t.relations id ≠ [] := by
  simp only [Spares, not_forall] at hspares
  obtain ⟨id, hred, hred', r, hr, -⟩ := hspares
  obtain ⟨target, htarget⟩ := Option.ne_none_iff_exists'.mp hred'
  obtain ⟨s, name, kind, hop, hl, hpending⟩ :=
    h.redirected_by hfits (lt_of_relation hr) hred htarget
  exact ⟨s, name, kind, target, id, hop, hl, hpending, List.ne_nil_of_mem hr⟩

/-! ## Relations that are added -/

section

variable {t : TypeTable} {a b : TypeId} {downward upward : Conversion} (ha : a.index < t.size)
  (hb : b.index < t.size)

include ha hb

theorem relate_redirect (id : TypeId) :
    ((t.relate a b downward upward).get id).redirect = (t.get id).redirect := by
  rw [relate_eq, modify_get (by rwa [modify_size]), modify_get ha]
  split <;> split <;> rfl

theorem relate_resolve (id : TypeId) : (t.relate a b downward upward).resolve id =
    t.resolve id := by
  rw [resolve, resolve, relate_size, follow_congr (relate_redirect ha hb)]

theorem mem_relate {id : TypeId} {r : Relation} :
    r ∈ (t.relate a b downward upward).relations id ↔
      r ∈ t.relations id ∨ (id = a ∧ r = ⟨b, upward⟩) ∨ (id = b ∧ r = ⟨a, downward⟩) := by
  rw [relations, List.mem_append, mem_relate_supertypes downward upward ha hb,
    mem_relate_subtypes downward upward ha hb, relations, List.mem_append]
  obtain ⟨other, conversion⟩ := r
  simp only [Relation.mk.injEq]
  grind

/-- It is the same to relate two types the other way round, with the kinds of conversion exchanged.
-/
theorem relate_sameGraph :
    SameGraph (t.relate a b downward upward) (t.relate b a upward downward) where
  size := by rw [relate_size, relate_size]
  redirect id := by rw [relate_redirect hb ha, relate_redirect ha hb]
  relations id r := by
    change r ∈ relations _ id ↔ r ∈ relations _ id
    rw [mem_relate hb ha, mem_relate ha hb]
    grind

/-- A path from a typedef gains nothing by a relation that is noted with it: the other end is
reached without the relation, if it is. -/
theorem path_of_relate {implicitOnly : Bool} (hred : (t.get a).redirect ≠ none)
    (h : (t.relate a b downward upward).Path implicitOnly (t.resolve a) (t.resolve b)) :
    t.Path implicitOnly (t.resolve a) (t.resolve b) := by
  have hreached : ∀ {x}, (t.relate a b downward upward).Path implicitOnly (t.resolve a) x →
      t.Path implicitOnly (t.resolve a) x ∨ t.Path implicitOnly (t.resolve a) (t.resolve b) := by
    intro x hx
    induction hx with
    | refl => exact .inl .refl
    | @tail x y _ hnear ih =>
      rcases ih with hx | hdone
      · obtain ⟨c, ⟨-, hself, r, hr, rfl, rfl⟩, hc⟩ := hnear
        rw [relate_redirect ha hb] at hself
        rw [relate_resolve ha hb]
        rcases (mem_relate ha hb).mp hr with hr | ⟨rfl, -⟩ | ⟨rfl, -⟩
        · exact .inl (hx.tail ⟨_, ⟨lt_of_relation hr, hself, r, hr, rfl, rfl⟩, hc⟩)
        · exact absurd hself hred
        -- the other new arc begins where the path is to end
        · exact .inr (by rwa [resolve_of_redirect hself])
      · exact .inr hdone
  exact (hreached h).elim id id

theorem Related.relate (h : t.Related) : (t.relate a b downward upward).Related :=
  @Related.perform t h (.relate a b downward upward) ⟨ha, hb⟩

/-- A relation takes effect upward exactly if it is noted with a type that stands for itself, or if
there was such a conversion before. -/
theorem Related.relate_converts (h : t.Related) :
    (t.relate a b downward upward).Converts a b upward ↔
      (t.get a).redirect = none ∨ t.Converts a b upward := by
  have h' : (t.relate a b downward upward).Related := h.relate ha hb
  have ha' : a.index < (t.relate a b downward upward).size := by rwa [relate_size]
  rw [h'.converts_iff ha', relate_resolve ha hb, relate_resolve ha hb, h.converts_iff ha]
  constructor
  · intro hpath
    by_cases hred : (t.get a).redirect = none
    · exact .inl hred
    · exact .inr (path_of_relate ha hb hred hpath)
  · rintro (hred | hpath)
    · have hnew : (⟨b, upward⟩ : Relation) ∈ (t.relate a b downward upward).relations a :=
        (mem_relate ha hb).mpr (.inr (.inl ⟨rfl, rfl⟩))
      have hnear := near_of_relation (by rwa [relate_redirect ha hb]) hnew
      rw [relate_resolve ha hb] at hnear
      rw [resolve_of_redirect hred]
      exact .single hnear
    · refine Relation.ReflTransGen.mono (fun x y hnear => ?_) _ _ hpath
      obtain ⟨c, ⟨hx, hself, r, hr, hc, hy⟩, himplicit⟩ := hnear
      exact ⟨c, ⟨by rwa [relate_size], by rwa [relate_redirect ha hb], r,
        (mem_relate ha hb).mpr (.inl hr), hc, by rwa [relate_resolve ha hb]⟩, himplicit⟩

theorem Related.relate_converts_back (h : t.Related) :
    (t.relate a b downward upward).Converts b a downward ↔
      (t.get b).redirect = none ∨ t.Converts b a downward := by
  have hgraph : SameGraph (t.relate a b downward upward) (t.relate b a upward downward) :=
    relate_sameGraph ha hb
  have hsame := hgraph.conversion (h.relate ha hb) (h.relate hb ha) (by rwa [relate_size]) a
  have hback : (t.relate b a upward downward).Converts b a downward ↔ _ := h.relate_converts hb ha
  rw [← hback, Converts, Converts, hsame]

end

/-! ## Tables that operations make -/

/-- **When relations take effect and how long.** In every table that operations make, relating two
types gives each of them the conversion that was asked for, exactly if it stands for itself or had
the conversion before. An operation takes no conversion away exactly if it spares relations, and one
that does not is the definition of an announced type with relations as a typedef. So a conversion
stays through any operations that spare relations. -/
theorem after_relations {ops : List TypeOp} (hops : primitives.Runs ops) :
    let t := primitives.after ops
    (∀ a b downward upward, a.index < t.size → b.index < t.size →
      ((t.relate a b downward upward).Converts a b upward ↔
        (t.get a).redirect = none ∨ t.Converts a b upward) ∧
      ((t.relate a b downward upward).Converts b a downward ↔
        (t.get b).redirect = none ∨ t.Converts b a downward)) ∧
    (∀ op, t.Fits op →
      ((∀ a b c, a.index < t.size → b.index < t.size → t.Converts a b c →
        (t.perform op).2.Converts a b c) ↔ t.Spares op) ∧
      (¬ t.Spares op → ∃ s name kind target id, op = .insert s name kind (some target) ∧
        t.lookupHere s name = some id ∧ (t.get id).complete = false ∧ t.relations id ≠ [])) ∧
    ∀ later, t.Runs later → t.SparesAll later → ∀ a b c, a.index < t.size → t.Converts a b c →
      (t.after later).Converts a b c := by
  have ht := hops.related
  refine ⟨fun a b downward upward ha hb =>
    ⟨ht.relate_converts ha hb, ht.relate_converts_back ha hb⟩,
    fun op hfits => ⟨ht.keeps_iff hfits, ht.toLinked.culprit hfits⟩,
    fun later hlater hspared a b c => ht.after_keeps hlater hspared⟩

/-- Two classes and another name of the first. -/
def aliasOps : List TypeOp :=
  [.insert .top "A" .classType none, .insert .top "B" .classType none,
    .insert .top "T" .typedef (some ⟨5⟩)]

/-- An announced type that is related to a class before it is defined. -/
def announcedOps : List TypeOp :=
  [.declare .top "F" .typedef, .insert .top "A" .classType none, .insert .top "B" .classType none,
    .relate ⟨5⟩ ⟨7⟩ .implicit .implicit]

/-- The class takes the relation to the typedef, and to define the announced type as a class would
take nothing away. -/
theorem after_relations_alias : primitives.Runs aliasOps ∧ primitives.Runs announcedOps ∧
    ((primitives.after aliasOps).relate ⟨7⟩ ⟨6⟩ .implicit .explicit).Converts ⟨6⟩ ⟨7⟩ .implicit ∧
    (primitives.after announcedOps).Spares (.insert .top "F" .classType none) ∧
    ((primitives.after announcedOps).after
      [.insert .top "F" .classType none]).Converts ⟨5⟩ ⟨7⟩ .implicit := by
  have halias : primitives.Runs aliasOps := by decide
  have hannounced : primitives.Runs announcedOps := by decide
  obtain ⟨heffect, -, -⟩ := after_relations halias
  obtain ⟨-, hkeeps, hstays⟩ := after_relations hannounced
  have hspares : (primitives.after announcedOps).Spares (.insert .top "F" .classType none) := by
    by_contra hspares
    obtain ⟨s, name, kind, target, id, hop, -⟩ := (hkeeps _ (by decide)).2 hspares
    cases hop
  refine ⟨halias, hannounced, ?_, hspares, ?_⟩
  · exact (heffect ⟨7⟩ ⟨6⟩ .implicit .explicit (by decide) (by decide)).2.mpr (.inl (by decide))
  · exact hstays [.insert .top "F" .classType none] (by decide) ⟨hspares, trivial⟩ ⟨5⟩ ⟨7⟩ .implicit
      (by decide) (by decide)

/-- A typedef that is related to a class does not convert to it, and an announced type loses the
conversion that it had when it becomes a typedef. -/
theorem relations_without_effect : primitives.Runs aliasOps ∧ primitives.Runs announcedOps ∧
    ((primitives.after aliasOps).relate ⟨7⟩ ⟨6⟩ .implicit .implicit).conversion ⟨7⟩ ⟨6⟩ = none ∧
    (primitives.after announcedOps).conversion ⟨5⟩ ⟨7⟩ = some .implicit ∧
    ((primitives.after announcedOps).perform
      (.insert .top "F" .typedef (some ⟨6⟩))).2.conversion ⟨5⟩ ⟨7⟩ = none := by
  decide

end TypeTable

end Bytescript
