import Mathlib.Data.List.Perm.Basic
import Mathlib.Logic.Relation
import Bytescript.Proofs.Typedefs

/-!
# Conversions as paths

The types that stand for themselves are the nodes of a graph, in which each relation of a type is an
arc to the type that its other end stands for. A conversion between two types is a path between what
they stand for, and it is implicit if there is a path of implicit arcs.

The search for a path keeps a list of types that it has seen and a queue of those it has still to
expand. Seen types are reached, and those that are expanded have all their neighbours seen
(`Explored`), so a search that comes to its end decides whether there is a path (`Search.decides`).
It comes to its end, in cyclic graphs too, since no type is queued twice (`Related.expand_search`).

Only the set of relations matters for the graph, not when and how often they have been added
(`SameGraph.conversion`).
-/

namespace Bytescript

namespace TypeTable

/-! ## The graph -/

/-- An arc from a type that stands for itself to the type that the other end of one of its relations
stands for. -/
def Arc (t : TypeTable) (c : Conversion) (a b : TypeId) : Prop :=
  a.index < t.size ∧ (t.get a).redirect = none ∧
    ∃ r ∈ (t.get a).supertypes ++ (t.get a).subtypes, r.conversion = c ∧ t.resolve r.other = b

/-- One arc, of any kind or implicit. -/
def Near (t : TypeTable) (implicitOnly : Bool) (a b : TypeId) : Prop :=
  ∃ c, t.Arc c a b ∧ (implicitOnly = true → c = .implicit)

/-- A path of arcs, of any kind or of implicit ones only; a type is at the end of an empty path from
itself. -/
def Path (t : TypeTable) (implicitOnly : Bool) : TypeId → TypeId → Prop :=
  Relation.ReflTransGen (t.Near implicitOnly)

variable {t t' : TypeTable} {implicitOnly : Bool} {a b id : TypeId}

theorem mem_neighbours :
    b ∈ t.neighbours implicitOnly a ↔
      ∃ r ∈ (t.get a).supertypes ++ (t.get a).subtypes,
        (implicitOnly = true → r.conversion = .implicit) ∧ t.resolve r.other = b := by
  simp only [neighbours, List.mem_filterMap]
  refine exists_congr fun r => and_congr_right fun _ => ?_
  cases implicitOnly <;> simp

theorem near_iff (ha : a.index < t.size) (hred : (t.get a).redirect = none) :
    t.Near implicitOnly a b ↔ b ∈ t.neighbours implicitOnly a := by
  rw [mem_neighbours]
  constructor
  · rintro ⟨c, ⟨-, -, r, hr, rfl, hb⟩, hc⟩
    exact ⟨r, hr, hc, hb⟩
  · rintro ⟨r, hr, hc, hb⟩
    exact ⟨r.conversion, ⟨ha, hred, r, hr, rfl, hb⟩, hc⟩

/-- Relations are between types of the table. -/
structure Related (t : TypeTable) : Prop extends Linked t where
  others : ∀ id, ∀ r ∈ (t.get id).supertypes ++ (t.get id).subtypes, r.other.index < t.size

/-! ## Searching -/

section

variable (t : TypeTable) (implicitOnly : Bool) (target : TypeId)

/-- The types that expanding a type adds to the queue. -/
def fresh (seen : List TypeId) (id : TypeId) : List TypeId :=
  (t.neighbours implicitOnly id).eraseDups.filter (· ∉ seen)

/-- The rounds of a search, how many of them, and whether it comes to `target`. There is no bound on
their number here. -/
inductive Search : Nat → List TypeId → List TypeId → Bool → Prop where
  | exhausted {seen} : Search 0 seen [] false
  | found {seen queue id} : target ∈ t.neighbours implicitOnly id →
      Search 1 seen (id :: queue) true
  | expands {n seen queue id found} :
      target ∉ t.neighbours implicitOnly id →
      Search n (t.fresh implicitOnly seen id ++ seen) (queue ++ t.fresh implicitOnly seen id)
        found →
      Search (n + 1) seen (id :: queue) found

end

section

variable {t : TypeTable} {implicitOnly : Bool} {source target id a b : TypeId}
  {seen queue : List TypeId}

theorem mem_fresh {x : TypeId} :
    x ∈ t.fresh implicitOnly seen id ↔ x ∈ t.neighbours implicitOnly id ∧ x ∉ seen := by
  simp [fresh]

/-- What has been seen is reached from the source, and what has been expanded has all its neighbours
seen, none of which is the target. -/
structure Explored (t : TypeTable) (implicitOnly : Bool) (source target : TypeId)
    (seen queue : List TypeId) : Prop where
  begun : source ∈ seen
  reached : ∀ x ∈ seen, Relation.ReflTransGen (fun a b => b ∈ t.neighbours implicitOnly a) source x
  queued : ∀ x ∈ queue, x ∈ seen
  expanded : ∀ x ∈ seen, x ∉ queue → ∀ y ∈ t.neighbours implicitOnly x, y ∈ seen ∧ y ≠ target

theorem Explored.start (t : TypeTable) (implicitOnly : Bool) (source target : TypeId) :
    Explored t implicitOnly source target [source] [source] where
  begun := List.mem_singleton_self source
  reached _ hx := List.mem_singleton.mp hx ▸ .refl
  queued _ hx := hx
  expanded _ hx hnot := absurd hx hnot

theorem Explored.expand (h : Explored t implicitOnly source target seen (id :: queue))
    (htarget : target ∉ t.neighbours implicitOnly id) :
    Explored t implicitOnly source target (t.fresh implicitOnly seen id ++ seen)
      (queue ++ t.fresh implicitOnly seen id) := by
  have hid : id ∈ seen := h.queued id (.head _)
  refine ⟨List.mem_append_right _ h.begun, fun x hx => ?_, fun x hx => ?_, fun x hx hnot y hy => ?_⟩
  · rcases List.mem_append.mp hx with hx | hx
    · exact (h.reached id hid).tail (mem_fresh.mp hx).1
    · exact h.reached x hx
  · rcases List.mem_append.mp hx with hx | hx
    · exact List.mem_append_right _ (h.queued x (.tail _ hx))
    · exact List.mem_append_left _ hx
  · obtain ⟨hqueue, hfresh⟩ := not_or.mp (mt List.mem_append.mpr hnot)
    have hx := (List.mem_append.mp hx).resolve_left hfresh
    by_cases hxid : x = id
    · -- the type that has just been expanded
      subst hxid
      refine ⟨?_, fun heq => htarget (heq ▸ hy)⟩
      by_cases hseen : y ∈ seen
      · exact List.mem_append_right _ hseen
      · exact List.mem_append_left _ (mem_fresh.mpr ⟨hy, hseen⟩)
    · obtain ⟨hseen, hne⟩ := h.expanded x hx (by simp [hxid, hqueue]) y hy
      exact ⟨List.mem_append_right _ hseen, hne⟩

/-- A search that comes to its end tells whether there is a path of at least one step. -/
theorem Search.decides {n : Nat} {found : Bool}
    (h : Search t implicitOnly target n seen queue found)
    (hexp : Explored t implicitOnly source target seen queue) :
    found = true ↔
      Relation.TransGen (fun a b => b ∈ t.neighbours implicitOnly a) source target := by
  induction h with
  | @exhausted seen =>
    refine ⟨nofun, fun hpath => ?_⟩
    obtain ⟨x, hx, htarget⟩ := Relation.TransGen.tail'_iff.mp hpath
    have hclosed : x ∈ seen := by
      clear htarget
      induction hx with
      | refl => exact hexp.begun
      | tail _ hstep ih => exact (hexp.expanded _ ih List.not_mem_nil _ hstep).1
    exact absurd rfl (hexp.expanded x hclosed List.not_mem_nil target htarget).2
  | @found seen queue id htarget =>
    have hid := hexp.reached id (hexp.queued id (.head _))
    exact ⟨fun _ => Relation.TransGen.tail' hid htarget, fun _ => rfl⟩
  | expands htarget _ ih => exact ih (hexp.expand htarget)

/-! ## The search ends -/

theorem nodup_eraseDups {α : Type} [DecidableEq α] (xs : List α) : xs.eraseDups.Nodup := by
  induction hn : xs.length using Nat.strong_induction_on generalizing xs with
  | _ n ih =>
    cases xs with
    | nil => simp
    | cons a as =>
      rw [List.eraseDups_cons, List.nodup_cons]
      have hlen : (as.filter fun b => !b == a).length ≤ as.length := List.length_filter_le _ _
      refine ⟨fun hmem => ?_, ih _ (by simp at hn; omega) _ rfl⟩
      simp at hmem

theorem length_le_size (hnodup : seen.Nodup) (hseen : ∀ x ∈ seen, x.index < t.size) :
    seen.length ≤ t.size := by
  have hsub : seen.map TypeId.index ⊆ List.range t.size := by
    intro i hi
    obtain ⟨x, hx, rfl⟩ := List.mem_map.mp hi
    exact List.mem_range.mpr (hseen x hx)
  have hinj : Function.Injective TypeId.index := fun a b heq => by cases a; cases b; simp_all
  simpa using (List.subperm_of_subset (hnodup.map hinj) hsub).length_le

/-- Neighbours stand for themselves. -/
theorem Related.neighbour (h : t.Related) (hb : b ∈ t.neighbours implicitOnly a) :
    b.index < t.size ∧ (t.get b).redirect = none := by
  obtain ⟨r, hr, -, rfl⟩ := mem_neighbours.mp hb
  exact ⟨(h.resolve (h.others a r hr)).1, h.resolve_redirect r.other⟩

/-- As long as there are more rounds than types that are queued or still to be seen, the search ends
by itself. -/
theorem Related.expand_search (h : t.Related) {fuel : Nat} (hnodup : seen.Nodup)
    (hseen : ∀ x ∈ seen, x.index < t.size) (hfuel : t.size - seen.length + queue.length < fuel) :
    ∃ n ≤ t.size - seen.length + queue.length,
      Search t implicitOnly target n seen queue (t.expand implicitOnly target fuel seen queue) := by
  induction fuel generalizing seen queue with
  | zero => omega
  | succ fuel ih =>
    cases queue with
    | nil => exact ⟨0, Nat.zero_le _, .exhausted⟩
    | cons id queue =>
      rw [expand]
      by_cases htarget : target ∈ t.neighbours implicitOnly id
      · rw [if_pos htarget]
        exact ⟨1, by simp only [List.length_cons]; omega, .found htarget⟩
      · rw [if_neg htarget]
        have hnodup' : (t.fresh implicitOnly seen id ++ seen).Nodup := by
          refine List.nodup_append.mpr ⟨(nodup_eraseDups _).filter _, hnodup, ?_⟩
          rintro x hx _ hy rfl
          exact (mem_fresh.mp hx).2 hy
        have hseen' : ∀ x ∈ t.fresh implicitOnly seen id ++ seen, x.index < t.size := by
          intro x hx
          rcases List.mem_append.mp hx with hx | hx
          · exact (h.neighbour (mem_fresh.mp hx).1).1
          · exact hseen x hx
        have hle := length_le_size hnodup' hseen'
        rw [List.length_append] at hle
        simp only [List.length_cons] at hfuel ⊢
        obtain ⟨n, hn, hsearch⟩ := @ih (t.fresh implicitOnly seen id ++ seen)
          (queue ++ t.fresh implicitOnly seen id) hnodup' hseen'
          (by simp only [List.length_append]; omega)
        simp only [List.length_append] at hn
        exact ⟨n + 1, by omega, .expands htarget hsearch⟩

theorem Related.connected_search (h : t.Related) (hsource : source.index < t.size) :
    ∃ n ≤ t.size, Search t implicitOnly target n [source] [source]
      (t.connected implicitOnly source target) := by
  have hone : t.size - [source].length + [source].length = t.size := by
    simp only [List.length_singleton]
    omega
  obtain ⟨n, hn, hsearch⟩ := h.expand_search (List.nodup_singleton source)
    (fun x hx => List.mem_singleton.mp hx ▸ hsource) (Nat.lt_succ_of_le (Nat.le_of_eq hone))
  exact ⟨n, hone ▸ hn, hsearch⟩

/-! ## Paths and conversions -/

/-- Between types that stand for themselves, steps to neighbours are arcs of the graph. -/
theorem Related.transGen_iff (h : t.Related) (hsource : source.index < t.size)
    (hred : (t.get source).redirect = none) :
    Relation.TransGen (fun a b => b ∈ t.neighbours implicitOnly a) source target ↔
      Relation.TransGen (t.Near implicitOnly) source target := by
  constructor
  · intro hpath
    induction hpath with
    | single hb => exact .single ((near_iff hsource hred).mpr hb)
    | @tail b c hpath hc ih =>
      obtain ⟨x, -, hb⟩ := Relation.TransGen.tail'_iff.mp hpath
      obtain ⟨hlt, hnone⟩ := h.neighbour hb
      exact ih.tail ((near_iff hlt hnone).mpr hc)
  · refine Relation.TransGen.mono (fun a b hnear => ?_) source target
    obtain ⟨_, ⟨ha, hnone, -⟩, -⟩ := id hnear
    exact (near_iff ha hnone).mp hnear

theorem Related.connected_iff (h : t.Related) (hsource : source.index < t.size)
    (hred : (t.get source).redirect = none) (hne : source ≠ target) :
    t.connected implicitOnly source target = true ↔ t.Path implicitOnly source target := by
  obtain ⟨n, -, hsearch⟩ := h.connected_search hsource
  rw [hsearch.decides (.start t implicitOnly source target), h.transGen_iff hsource hred, Path,
    Relation.reflTransGen_iff_eq_or_transGen, or_iff_right (Ne.symm hne)]

theorem Path.any (h : t.Path true a b) : t.Path false a b :=
  Relation.ReflTransGen.mono (fun _ _ ⟨c, harc, _⟩ => ⟨c, harc, nofun⟩) a b h

/-- A conversion is the best kind of path that there is. -/
theorem Related.conversion_eq (h : t.Related) (ha : a.index < t.size) :
    (t.conversion a b = some .implicit ↔ t.Path true (t.resolve a) (t.resolve b)) ∧
      (t.conversion a b = some .explicit ↔ t.Path false (t.resolve a) (t.resolve b) ∧
        ¬ t.Path true (t.resolve a) (t.resolve b)) ∧
      (t.conversion a b = none ↔ ¬ t.Path false (t.resolve a) (t.resolve b)) := by
  simp only [conversion]
  by_cases heq : t.resolve a = t.resolve b
  · have hpath : ∀ implicitOnly, t.Path implicitOnly (t.resolve b) (t.resolve b) := fun _ => .refl
    simp [heq, hpath]
  · have hconnected : ∀ i, t.connected i (t.resolve a) (t.resolve b) = true ↔
        t.Path i (t.resolve a) (t.resolve b) := fun _ =>
      h.connected_iff (h.resolve ha).1 (h.resolve_redirect a) heq
    simp only [heq, ↓reduceIte, ← hconnected]
    have hany : t.connected true (t.resolve a) (t.resolve b) = true →
        t.connected false (t.resolve a) (t.resolve b) = true := fun htrue =>
      (hconnected false).mpr ((hconnected true).mp htrue).any
    cases htrue : t.connected true (t.resolve a) (t.resolve b) <;>
      cases hfalse : t.connected false (t.resolve a) (t.resolve b) <;> simp_all

theorem Related.isAssignable_iff (h : t.Related) (ha : a.index < t.size) :
    t.isAssignable a b = true ↔ t.Path true (t.resolve a) (t.resolve b) := by
  rw [isAssignable, decide_eq_true_eq, (h.conversion_eq ha).1]

end

/-! ## Relations of reachable tables -/

theorem push_get (t : TypeTable) (e : TypeEntry) (id : TypeId) :
    (t.push e).2.get id = if id.index = t.size then e else t.get id := by
  by_cases hid : id.index = t.size
  · rw [if_pos hid]
    exact get_of_entry (hid ▸ push_entries_size t e)
  · rw [if_neg hid, get, get, Array.getD_eq_getD_getElem?,
      Array.getD_eq_getD_getElem?, push_entries t e hid]

theorem get_of_size_le (hid : t.size ≤ id.index) : t.get id = default := by
  rw [get, Array.getD_eq_getD_getElem?, Array.getElem?_eq_none hid, Option.getD_none]

theorem modify_get {f : TypeEntry → TypeEntry} (hid : id.index < t.size) (a : TypeId) :
    (t.modify id f).get a = if a = id then f (t.get a) else t.get a := by
  by_cases ha : a = id
  · subst ha
    rw [if_pos rfl, modify_get_self hid]
  · rw [if_neg ha, modify_get_ne ha]

/-- Only relating two types changes relations. -/
theorem Defines.relations (h : t.Defines t') (id : TypeId) :
    (t'.get id).supertypes = (t.get id).supertypes ∧
    (t'.get id).subtypes = (t.get id).subtypes := by
  cases h with
  | keeps => exact ⟨rfl, rfl⟩
  | opens => exact ⟨rfl, rfl⟩
  | enters e _ _ _ hsuper hsub =>
    rw [push_get]
    split
    next hid =>
      rw [get_of_size_le (Nat.le_of_eq hid.symm), hsuper, hsub]
      exact ⟨rfl, rfl⟩
    · exact ⟨rfl, rfl⟩
  | completes a kind redirect ha =>
    rw [define, modify_get ha]
    split <;> exact ⟨rfl, rfl⟩

theorem Defines.size_le (h : t.Defines t') : t.size ≤ t'.size := by
  cases h with
  | keeps => exact le_rfl
  | opens => exact le_rfl
  | enters e => exact (Nat.le_succ _).trans (Nat.le_of_eq (Array.size_push ..).symm)
  | completes => exact Nat.le_of_eq modify_size.symm

section

variable {t : TypeTable} {a b id : TypeId} (downward upward : Conversion) {r : Relation}

theorem mem_relate_supertypes (ha : a.index < t.size) (hb : b.index < t.size) :
    r ∈ ((t.relate a b downward upward).get id).supertypes ↔
      r ∈ (t.get id).supertypes ∨ a = id ∧ b = r.other ∧ upward = r.conversion := by
  have heq : ((t.relate a b downward upward).get id).supertypes =
      if id = a then (t.get id).supertypes ++ [⟨b, upward⟩] else (t.get id).supertypes := by
    rw [relate_eq, modify_get (by rwa [modify_size]), modify_get ha]
    split <;> split <;> rfl
  obtain ⟨other, conversion⟩ := r
  rw [heq]
  by_cases hid : id = a
  · subst hid
    simp [eq_comm]
  · simp [hid, Ne.symm hid]

theorem mem_relate_subtypes (ha : a.index < t.size) (hb : b.index < t.size) :
    r ∈ ((t.relate a b downward upward).get id).subtypes ↔
      r ∈ (t.get id).subtypes ∨ a = r.other ∧ b = id ∧ downward = r.conversion := by
  have heq : ((t.relate a b downward upward).get id).subtypes =
      if id = b then (t.get id).subtypes ++ [⟨a, downward⟩] else (t.get id).subtypes := by
    rw [relate_eq, modify_get (by rwa [modify_size]), modify_get ha]
    split <;> split <;> rfl
  obtain ⟨other, conversion⟩ := r
  rw [heq]
  by_cases hid : id = b
  · subst hid
    simp [eq_comm]
  · simp [hid, Ne.symm hid]

@[simp]
theorem relate_size : (t.relate a b downward upward).size = t.size := by
  rw [relate_eq, modify_size, modify_size]

end

/-- The relations of a type after an operation. -/
theorem Linked.mem_perform {t : TypeTable} (h : t.Linked) {op : TypeOp} (hfits : t.Fits op)
    {id : TypeId} {r : Relation} :
    (r ∈ ((t.perform op).2.get id).supertypes ↔
      r ∈ (t.get id).supertypes ∨ ∃ downward, op = .relate id r.other downward r.conversion) ∧
    (r ∈ ((t.perform op).2.get id).subtypes ↔
      r ∈ (t.get id).subtypes ∨ ∃ upward, op = .relate r.other id r.conversion upward) := by
  cases hop : op.isRelation with
  | false =>
    obtain ⟨hsuper, hsub⟩ := (h.performs hop hfits).relations id
    have hnot : ∀ a b downward upward, op ≠ .relate a b downward upward := by
      rintro a b downward upward rfl
      cases hop
    simp only [hsuper, hsub, hnot, exists_false, or_false, and_self]
  | true =>
    cases op with
    | relate a b downward upward =>
      simp only [TypeTable.perform, mem_relate_supertypes downward upward hfits.1 hfits.2,
        mem_relate_subtypes downward upward hfits.1 hfits.2, TypeOp.relate.injEq]
      simp
    | _ => cases hop

theorem Related.perform {t : TypeTable} (h : t.Related) {op : TypeOp} (hfits : t.Fits op) :
    (t.perform op).2.Related := by
  refine ⟨h.toLinked.perform hfits, fun id r hr => ?_⟩
  have hsize : t.size ≤ (t.perform op).2.size := by
    cases hop : op.isRelation with
    | false => exact (h.performs hop hfits).size_le
    | true =>
      cases op with
      | relate => exact Nat.le_of_eq (relate_size _ _).symm
      | _ => cases hop
  obtain ⟨hsuper, hsub⟩ := @Linked.mem_perform t h.toLinked op hfits id r
  refine Nat.lt_of_lt_of_le ?_ hsize
  rcases List.mem_append.mp hr with hr | hr
  · rcases hsuper.mp hr with hr | ⟨_, rfl⟩
    · exact h.others id r (List.mem_append_left _ hr)
    · exact hfits.2
  · rcases hsub.mp hr with hr | ⟨_, rfl⟩
    · exact h.others id r (List.mem_append_right _ hr)
    · exact hfits.1

theorem primitives_related : primitives.Related := by
  refine ⟨primitives_linked, fun id r hr => ?_⟩
  by_cases hid : id.index < 5
  · obtain ⟨i⟩ := id
    have hall : ∀ j < 5, ∀ r ∈ (primitives.get ⟨j⟩).supertypes ++ (primitives.get ⟨j⟩).subtypes,
        r.other.index < primitives.size := by decide
    exact hall i hid r hr
  · rw [get_of_size_le (not_lt.mp hid)] at hr
    cases hr

theorem Runs.related {ops : List TypeOp} (hops : primitives.Runs ops) :
    (primitives.after ops).Related :=
  hops.preserves primitives_related fun _ _ ht hfits => ht.perform hfits

/-! ## Only the set of relations matters -/

/-- Two tables with the same redirects and, apart from order and repetition, the same relations. -/
structure SameGraph (t t' : TypeTable) : Prop where
  size : t'.size = t.size
  redirect : ∀ id, (t'.get id).redirect = (t.get id).redirect
  relations : ∀ id r, r ∈ (t'.get id).supertypes ++ (t'.get id).subtypes ↔
    r ∈ (t.get id).supertypes ++ (t.get id).subtypes

theorem follow_congr (h : ∀ id, (t'.get id).redirect = (t.get id).redirect) (fuel : Nat)
    (id : TypeId) : t'.follow fuel id = t.follow fuel id := by
  induction fuel generalizing id with
  | zero => rfl
  | succ fuel ih => simp only [follow, h, ih]

namespace SameGraph

variable {t t' : TypeTable} (h : SameGraph t t')

include h

theorem resolve (id : TypeId) : t'.resolve id = t.resolve id := by
  rw [TypeTable.resolve, TypeTable.resolve, h.size, follow_congr h.redirect]

theorem near (implicitOnly : Bool) : t'.Near implicitOnly = t.Near implicitOnly := by
  funext a b
  simp only [Near, Arc, h.size, h.redirect, h.relations, h.resolve]

theorem conversion (ht : t.Related) (ht' : t'.Related) {a : TypeId} (ha : a.index < t.size)
    (b : TypeId) : t'.conversion a b = t.conversion a b := by
  obtain ⟨himplicit, hexplicit, -⟩ := ht.conversion_eq (b := b) ha
  obtain ⟨himplicit', hexplicit', -⟩ := ht'.conversion_eq (b := b) (h.size.symm ▸ ha)
  simp only [Path, h.near, h.resolve] at himplicit' hexplicit'
  have hsame : ∀ c, t'.conversion a b = some c ↔ t.conversion a b = some c := by
    intro c
    cases c with
    | implicit => exact himplicit'.trans himplicit.symm
    | explicit => exact hexplicit'.trans hexplicit.symm
  exact Option.ext hsame

end SameGraph

end TypeTable

/-- The entry without its relations. -/
def TypeEntry.bare (e : TypeEntry) : TypeEntry := { e with subtypes := [], supertypes := [] }

namespace TypeTable

variable (t : TypeTable)

/-- The table without its relations. -/
def bare : TypeTable := { t with entries := t.entries.map TypeEntry.bare }

@[simp]
theorem bare_size : t.bare.size = t.size := by simp [bare, size]

theorem bare_get (id : TypeId) : t.bare.get id = (t.get id).bare := by
  simp only [bare, get, Array.getD_eq_getD_getElem?, Array.getElem?_map]
  cases t.entries[id.index]? <;> rfl

@[simp]
theorem bare_redirect (id : TypeId) :
    (t.bare.get id).redirect = (t.get id).redirect := by
  rw [bare_get]
  rfl

theorem bare_isComplete (s : TypeScopeId) (name : String) :
    t.bare.isComplete s name = t.isComplete s name := by
  have hlookup : t.bare.lookup s name = t.lookup s name := rfl
  simp only [isComplete, hlookup, bare_get]
  rfl

theorem bare_reaches (a b : TypeId) : t.bare.reaches a b = t.reaches a b := by
  have hleads : ∀ fuel a, t.bare.leadsTo b fuel a = t.leadsTo b fuel a := by
    intro fuel
    induction fuel with
    | zero => exact fun _ => rfl
    | succ fuel ih => exact fun a => by simp only [leadsTo, bare_redirect, ih]
  rw [reaches, reaches, bare_size, hleads]

theorem bare_canonicalName (kind : TypeKind) (args : List TypeId) :
    t.bare.canonicalName kind args = t.canonicalName kind args := by
  refine canonicalName_congr (fun a _ => ?_) kind
  rw [resolve, bare_size, follow_congr t.bare_redirect, name, bare_get]
  rfl

theorem bare_push {e : TypeEntry} (hsuper : e.supertypes = [])
    (hsub : e.subtypes = []) : (t.push e).2.bare = (t.bare.push e).2 := by
  have he : e.bare = e := by
    cases e
    simp_all [TypeEntry.bare]
  simp [push, bare, he]

theorem bare_modify (id : TypeId) {f g : TypeEntry → TypeEntry}
    (h : ∀ e, (f e).bare = g e.bare) : (t.modify id f).bare = t.bare.modify id g := by
  have hentries : (t.entries.modify id.index f).map TypeEntry.bare =
      (t.entries.map TypeEntry.bare).modify id.index g := by
    refine Array.ext_getElem? fun i => ?_
    simp only [Array.getElem?_map, Array.getElem?_modify]
    split
    · cases t.entries[i]? <;> simp [h]
    · rfl
  simp only [modify, bare, hentries]

/-- Relating types does not show in the bare table. -/
theorem bare_relate (a b : TypeId) (downward upward : Conversion) :
    (t.relate a b downward upward).bare = t.bare := by
  have hkeep : ∀ (t : TypeTable) (id : TypeId) (f : TypeEntry → TypeEntry),
      (∀ e, (f e).bare = e.bare) → (t.modify id f).bare = t.bare := by
    intro t id f hf
    rw [t.bare_modify id (g := fun e => e) hf]
    have : t.bare.entries.modify id.index (fun e => e) = t.bare.entries := by
      refine Array.ext_getElem? fun i => ?_
      rw [Array.getElem?_modify]
      split <;> simp
    simp only [modify, this]
  rw [relate_eq, hkeep, hkeep] <;> exact fun _ => rfl

/-- All other operations do the same with and without relations. -/
theorem bare_perform {op : TypeOp} (hop : op.isRelation = false) :
    (t.perform op).2.bare = (t.bare.perform op).2 := by
  cases op with
  | newScope parent => rfl
  | declare s name kind =>
    have hlookup : t.bare.lookup s name = t.lookup s name := rfl
    simp only [perform, declare, hlookup]
    split
    · rfl
    · exact t.bare_push rfl rfl
  | insert s name kind redirect =>
    have hlookup : t.bare.lookupHere s name = t.lookupHere s name := rfl
    simp only [perform, insert, bare_isComplete, hlookup, bare_reaches]
    split
    · rfl
    split
    · rfl
    split
    · exact t.bare_push rfl rfl
    · split
      · rfl
      · exact t.bare_modify _ fun _ => rfl
  | intern kind args =>
    simp only [perform, insertGeneric, bare_canonicalName]
    cases t.canonicalName kind args with
    | error e => rfl
    | ok name =>
      have hlookup : t.bare.lookupHere .top name = t.lookupHere .top name := rfl
      simp only [hlookup]
      split
      · rfl
      · exact t.bare_push rfl rfl
  | relate => cases hop

theorem bare_after (ops : List TypeOp) :
    (t.after ops).bare = t.bare.after (ops.filter fun op => !op.isRelation) := by
  induction ops generalizing t with
  | nil => rfl
  | cons op ops ih =>
    rw [after, List.foldl_cons, ← after, ih]
    cases hop : op.isRelation with
    | false => rw [t.bare_perform hop, List.filter_cons_of_pos (by simp [hop])]; rfl
    | true =>
      rw [List.filter_cons_of_neg (by simp [hop])]
      cases op with
      | relate a b downward upward => rw [perform, bare_relate]
      | _ => cases hop

variable {t : TypeTable} {ops : List TypeOp}

/-- The relations of a type are those it had and those that operations have added. -/
theorem Runs.mem_relations (hops : t.Runs ops) (ht : t.Linked) {id : TypeId} {r : Relation} :
    r ∈ ((t.after ops).get id).supertypes ++ ((t.after ops).get id).subtypes ↔
      r ∈ (t.get id).supertypes ++ (t.get id).subtypes ∨
        (∃ downward, .relate id r.other downward r.conversion ∈ ops) ∨
        ∃ upward, .relate r.other id r.conversion upward ∈ ops := by
  induction ops generalizing t with
  | nil => simp [after]
  | cons op ops ih =>
    obtain ⟨hsuper, hsub⟩ := @Linked.mem_perform t ht op hops.1 id r
    have hrest := ih hops.2 (ht.perform hops.1)
    rw [after, List.foldl_cons, ← after, hrest, List.mem_append, hsuper, hsub, List.mem_append]
    simp only [List.mem_cons, exists_or, eq_comm (b := op)]
    simp only [or_assoc, or_comm, or_left_comm]

/-- Operations that differ in when and how often they relate types lead to the same graph. -/
theorem Runs.sameGraph {ops' : List TypeOp} (ht : t.Linked) (hops : t.Runs ops)
    (hops' : t.Runs ops')
    (hother : ops'.filter (fun op => !op.isRelation) = ops.filter fun op => !op.isRelation)
    (hsame : ∀ op, op.isRelation = true → (op ∈ ops' ↔ op ∈ ops)) :
    SameGraph (t.after ops) (t.after ops') := by
  have hbare : (t.after ops').bare = (t.after ops).bare := by rw [bare_after, bare_after, hother]
  refine ⟨?_, fun id => ?_, fun id r => ?_⟩
  · rw [← bare_size, hbare, bare_size]
  · rw [← bare_redirect, hbare, bare_redirect]
  · have hrel : ∀ a b c d, TypeOp.relate a b c d ∈ ops' ↔ .relate a b c d ∈ ops := fun _ _ _ _ =>
      hsame _ rfl
    rw [hops.mem_relations ht, hops'.mem_relations ht]
    simp only [hrel]

/-- **Conversions are paths.** After any operations on the table of primitive types, one type
converts to another implicitly exactly if a path of implicit arcs leads from what the one stands for
to what the other stands for, by a cast exactly if only other paths do, and not at all if none does.
The search for a path ends after at most as many rounds as there are types. To be assignable is to
convert implicitly, and so it is reflexive and transitive; and operations that relate the same
types, at other times or more often, lead to the same conversions. -/
theorem after_conversion {ops : List TypeOp} (hops : primitives.Runs ops) :
    let t := primitives.after ops
    (∀ a b, a.index < t.size →
      (t.conversion a b = some .implicit ↔ t.Path true (t.resolve a) (t.resolve b)) ∧
      (t.conversion a b = some .explicit ↔ t.Path false (t.resolve a) (t.resolve b) ∧
        ¬ t.Path true (t.resolve a) (t.resolve b)) ∧
      (t.conversion a b = none ↔ ¬ t.Path false (t.resolve a) (t.resolve b))) ∧
    (∀ implicitOnly source target, source.index < t.size →
      ∃ n ≤ t.size, Search t implicitOnly target n [source] [source]
        (t.connected implicitOnly source target)) ∧
    (∀ a b, t.isAssignable a b = true ↔ t.conversion a b = some .implicit) ∧
    (∀ a, t.isAssignable a a = true) ∧
    (∀ a b c, a.index < t.size → b.index < t.size → t.isAssignable a b = true →
      t.isAssignable b c = true → t.isAssignable a c = true) ∧
    ∀ ops', primitives.Runs ops' →
      (ops'.filter fun op => !op.isRelation) = ops.filter (fun op => !op.isRelation) →
      (∀ op, op.isRelation = true → (op ∈ ops' ↔ op ∈ ops)) →
      ∀ a b, a.index < t.size → (primitives.after ops').conversion a b = t.conversion a b := by
  have ht := hops.related
  refine ⟨fun a b ha => ht.conversion_eq ha, fun _ _ _ => ht.connected_search,
    fun _ _ => decide_eq_true_iff, fun a => ?_, fun a b c ha hb hab hbc => ?_,
      fun ops' hops' hother hsame a b ha => ?_⟩
  · simp [isAssignable, conversion]
  · rw [ht.isAssignable_iff ha] at hab ⊢
    rw [ht.isAssignable_iff hb] at hbc
    exact hab.trans hbc
  · exact (hops.sameGraph primitives_linked hops' hother hsame).conversion ht hops'.related ha b

/-- Three classes in a circle, one arc of which is drawn to another name of the second class. -/
def circleOps : List TypeOp :=
  [.insert .top "A" .classType none, .insert .top "B" .classType none,
    .insert .top "C" .classType none, .insert .top "T" .typedef (some ⟨6⟩),
    .relate ⟨5⟩ ⟨8⟩ .explicit .implicit, .relate ⟨6⟩ ⟨7⟩ .explicit .implicit,
    .relate ⟨7⟩ ⟨5⟩ .explicit .implicit]

/-- The same in another order, with one relation repeated. -/
def circleOps' : List TypeOp :=
  [.insert .top "A" .classType none, .insert .top "B" .classType none,
    .insert .top "C" .classType none, .relate ⟨7⟩ ⟨5⟩ .explicit .implicit,
    .relate ⟨6⟩ ⟨7⟩ .explicit .implicit, .insert .top "T" .typedef (some ⟨6⟩),
    .relate ⟨6⟩ ⟨7⟩ .explicit .implicit, .relate ⟨5⟩ ⟨8⟩ .explicit .implicit]

theorem after_conversion_circle : primitives.Runs circleOps ∧ primitives.Runs circleOps' ∧
    (primitives.after circleOps).Path true ⟨5⟩ ⟨7⟩ ∧
    ¬ (primitives.after circleOps).Path false ⟨5⟩ .int ∧
    (primitives.after circleOps').conversion ⟨5⟩ ⟨7⟩ = some .implicit := by
  have hops : primitives.Runs circleOps := by decide
  have hops' : primitives.Runs circleOps' := by decide
  obtain ⟨hpaths, -, -, -, -, hsame⟩ := after_conversion hops
  obtain ⟨himplicit, -, -⟩ := hpaths ⟨5⟩ ⟨7⟩ (by decide)
  obtain ⟨-, -, hnone⟩ := hpaths ⟨5⟩ .int (by decide)
  have hconversion : (primitives.after circleOps).conversion ⟨5⟩ ⟨7⟩ = some .implicit := by decide
  refine ⟨hops, hops', himplicit.mp hconversion, hnone.mp (by decide), ?_⟩
  rw [hsame circleOps' hops' (by decide) (fun op hop => ?_) ⟨5⟩ ⟨7⟩ (by decide), hconversion]
  simp only [circleOps, circleOps', List.mem_cons, List.not_mem_nil, or_false]
  grind

end TypeTable

end Bytescript
