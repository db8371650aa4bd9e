import Bytescript.Proofs.Heap.Typed
import Bytescript.Proofs.Machine.Safety

/-!
# Instructions keep to the types of their operands

What an instruction leaves on the stack is of the types that it promises, if what it takes is of the
types that it asks for and the entries of the heap are of theirs (`operate_typed`). What it may fail
with then has nothing to do with types. All other instructions only move values around.
-/

namespace Bytescript

open TypeTable (primitives)
open Lower (ClassInfo)

/-! ## Operations -/

namespace World

theorem allocate_heap (w : World) (p : Payload) :
    ((w.allocate p).1, (w.allocate p).2.heap) = w.heap.insert p := by
  obtain ⟨heap, output, cells, journal⟩ := w
  simp only [allocate, onHeap]
  rcases heap.insert p with ⟨r, h⟩
  cases r with
  | ok id => exact congrArg _ (note_alike _ _ _).heap
  | error e => rfl

theorem concat_heap (w : World) (left right : HeapId) :
    ((w.concat left right).1, (w.concat left right).2.heap) = w.heap.concat left right := by
  obtain ⟨heap, output, cells, journal⟩ := w
  simp only [concat, onHeap]
  rcases heap.concat left right with ⟨r, h⟩
  cases r with
  | ok id => exact congrArg _ (note_alike _ _ _).heap
  | error e => rfl

theorem release_heap (w : World) (id : HeapId) :
    ((w.release id).1, (w.release id).2.heap) = w.heap.delete id := by
  obtain ⟨heap, output, cells, journal⟩ := w
  simp only [release, onHeap]
  rcases heap.delete id with ⟨r, h⟩
  cases r with
  | ok p => exact congrArg _ (note_alike _ _ _).heap
  | error e => rfl

end World

/-- A native that is given values of the types of its parameters answers one of the type of its
result. -/
def Native.Typed (T : Tables) (n : Native) : Prop :=
  ∀ params result, n.signature.params.map (T.types.lookup .top) = params.map some →
    T.types.lookup .top n.signature.result = some result →
    ∀ τ k w args v w', w.heap.HasTypes T τ k → k < 2 ^ 32 →
    List.Forall₂ (Value.HasType τ) params args →
      n.run args w = (.ok v, w') → ∃ τ', τ.Le τ' ∧ w'.heap.HasTypes T τ' k ∧ v.HasType τ' result

/-- A setting in which objects have the members of their classes and natives keep to their
signatures, for tables that tell reference types apart. -/
structure Setting.Types (env : Setting) (T : Tables) : Prop extends env.Links T where
  fields : ∀ cls info shape, T.scopes.classInfo? cls = some info →
    env.program.shapes[info.scopes.constant]? = some shape →
    shape.kinds = (T.memberTypes info).map primitives.kindOf
  members : ∀ cls info name m t, T.scopes.classInfo? cls = some info → T.HasMember info name m t →
    (T.memberTypes info)[m.toNat]? = some t
  classes : ∀ cls info, T.scopes.classInfo? cls = some info → 5 ≤ cls.index ∧
    T.types.element? cls = none
  arrays : ∀ t el, T.types.element? t = some el → 5 ≤ t.index
  elements : ∀ s term el array, T.types.meaning s term = some el →
    T.types.generic? .array [el] = some array → T.types.element? array = some el
  typed : ∀ n ∈ env.natives, n.Typed T

/-- The errors of values that are not of the types that they should be of. -/
def RunError.isTypeError : RunError → Bool
  | typeMismatch kind _ => kind ≠ .ref
  | heap (.wrongKind _ _ _) => true
  | _ => false

def RunError.isOutOfBounds : RunError → Bool
  | heap (.outOfBounds _ _ _) => true
  | _ => false

/-- Instructions that read or write an element of an array. -/
def Instruction.isIndexing : Instruction → Bool
  | getElement _ | setElement _ => true
  | _ => false

def Instruction.deletions : Instruction → Nat
  | delete => 1
  | _ => 0

/-- What an instruction may fail with. -/
structure RunError.Expected (i : Instruction) (e : RunError) : Prop where
  typed : e.isTypeError = false
  inside : e.isOutOfBounds = true → i.isIndexing = true

namespace RunError.Expected

variable {i : Instruction} {e : RunError}

theorem anywhere (htyped : e.isTypeError = false) (hinside : e.isOutOfBounds = false) :
    e.Expected i :=
  ⟨htyped, fun hbounds => absurd (hinside.symm.trans hbounds) Bool.false_ne_true⟩

theorem freed {id : HeapId} : (heap (.freed id)).Expected i := .anywhere rfl rfl

end RunError.Expected

/-- Results are of some types, in a world that goes on from one where references had the types `τ`.
-/
def TypedResults (T : Tables) (τ : HeapTypes) (k : Nat) (outs : List TypeId) (results : List Value)
    (w : World) : Prop :=
  ∃ τ', τ.Le τ' ∧ w.heap.HasTypes T τ' k ∧ List.Forall₂ (Value.HasType τ') outs results

namespace Operation.Ensures

variable {T : Tables} {τ : HeapTypes} {k : Nat} {w : World} {t : TypeId} {v : Value} {id : HeapId}
  {i : Instruction}

theorem int_typed {post : Int64 → World → Prop} (hv : v.HasType τ t)
    (ht : primitives.kindOf t = .int)
    (h : ∀ n, v = .int n → post n w) : Ensures (Operation.int v) w post (·.Expected i) :=
  int h fun hkind => by
    rw [hv.of_kind ht] at hkind
    cases hkind

theorem float_typed {post : Double → World → Prop} (hv : v.HasType τ t)
    (ht : primitives.kindOf t = .float)
    (h : ∀ x, v = .float x → post x w) : Ensures (Operation.float v) w post (·.Expected i) :=
  float h fun hkind => by
    rw [hv.of_kind ht] at hkind
    cases hkind

theorem index_typed {post : Nat → World → Prop} (hv : v.HasType τ .int) (h : ∀ n, post n w) :
    Ensures (Operation.index v) w post (·.Expected i) :=
  index (fun n _ => h n.toNatClampNeg) (fun hkind => by
    rw [hv.of_kind (by rfl)] at hkind
    cases hkind) fun _ => .anywhere rfl rfl

theorem ofKind_typed {post : Value → World → Prop} (hv : v.HasType τ t) (h : post v w) :
    Ensures (Operation.ofKind (primitives.kindOf t) v) w post (·.Expected i) :=
  ofKind (fun _ => h) fun hkind => by
    rw [hv.hasKind] at hkind
    cases hkind

variable {post : HeapId → World → Prop}

theorem object_typed (hv : v.HasType τ t) (h : ∀ id, τ id = some t → post id w) :
    Ensures (Operation.object v) w post (·.Expected i) := by
  refine object (fun id hid => ?_) (.anywhere rfl rfl)
  subst hid
  exact h id hv.2

theorem string_typed (hv : v.HasType τ .string) (h : ∀ id, τ id = some .string → post id w) :
    Ensures (Operation.string v) w post (·.Expected i) := by
  refine string (fun id hid => ?_) (.anywhere rfl rfl)
  subst hid
  exact h id hv.2

/-- Making an entry. -/
theorem insert_typed {f : World → Except HeapError HeapId × World} {p : Payload}
    (hf : ((f w).1, (f w).2.heap) = w.heap.insert p) (hh : w.heap.HasTypes T τ k) (hk : k < 2 ^ 32)
    (hp : p.HasType T τ t) (h : ∀ id w' τ', τ.Le τ' → w'.heap.HasTypes T τ' k → τ' id = some t →
      post id w') :
    Ensures (Operation.onWorld .heap f) w post (·.Expected i) := by
  refine onWorld (fun id w' hw => ?_) fun e w' hw => ?_
  · rw [hw] at hf
    obtain ⟨hle, hh'⟩ := hh.insert hk hf.symm hp
    exact h id w' _ hle hh' (Function.update_self ..)
  · rw [hw] at hf
    rcases hh.sound.insert p with ⟨-, hfull⟩ | ⟨-, _, _, hok, -⟩
    · cases (Prod.mk.inj (hf.trans hfull)).1
      exact .anywhere rfl rfl
    · cases (Prod.mk.inj (hf.trans hok)).1

/-- Reading a typed heap. -/
theorem readHeap_typed {α : Type} {f : Heap → Except HeapError α} {Q : α → Prop}
    (hf : (∃ e, f w.heap = .error e ∧ (RunError.heap e).Expected i) ∨ ∃ a, f w.heap = .ok a ∧ Q a)
    {post : α → World → Prop} (h : ∀ a, Q a → post a w) :
    Ensures (Operation.readHeap f) w post (·.Expected i) := by
  rcases hf with ⟨e, herror, hexpected⟩ | ⟨a, hok, hQ⟩
  · refine readHeap (fun a ha => ?_) fun e' he => ?_
    · cases ha.symm.trans herror
    · cases he.symm.trans herror
      exact hexpected
  · refine readHeap (fun a' ha => ?_) fun e he => ?_
    · cases ha.symm.trans hok
      exact h a hQ
    · cases he.symm.trans hok

/-- Writing to a typed heap. -/
theorem onHeap_typed {f : Heap → Except HeapError Unit × Heap}
    (hf : (∃ e, f w.heap = (.error e, w.heap) ∧ (RunError.heap e).Expected i) ∨
      ∃ h, f w.heap = (.ok (), h) ∧ h.HasTypes T τ k)
    {post : Unit → World → Prop} (h : ∀ w', w'.heap.HasTypes T τ k → post () w') :
    Ensures (onHeap f) w post (·.Expected i) := by
  refine onWorld (fun a w' hw => ?_) fun e w' hw => ?_
  · obtain ⟨ha, rfl⟩ := Prod.mk.inj hw
    rcases hf with ⟨e, herror, -⟩ | ⟨heap, hok, hheap⟩
    · rw [herror] at ha
      cases ha
    · refine h _ ?_
      show (f w.heap).2.HasTypes T τ k
      rw [hok]
      exact hheap
  · obtain ⟨he, -⟩ := Prod.mk.inj hw
    rcases hf with ⟨e', herror, hexpected⟩ | ⟨heap, hok, -⟩
    · rw [herror] at he
      cases he
      exact hexpected
    · rw [hok] at he
      cases he

theorem concat_typed {left right : HeapId} (hh : w.heap.HasTypes T τ k) (hk : k < 2 ^ 32)
    (hleft : w.heap.string left = .error (.freed left) ∨ ∃ text, w.heap.string left = .ok text)
    (hright : w.heap.string right = .error (.freed right) ∨ ∃ text, w.heap.string right = .ok text)
    (h : ∀ id w' τ', τ.Le τ' → w'.heap.HasTypes T τ' k → τ' id = some .string → post id w') :
    Ensures (Operation.onWorld .heap (·.concat left right)) w post (·.Expected i) := by
  have hconcat := w.concat_heap left right
  have hfails : ∀ {e : HeapError}, w.heap.concat left right = (.error e, w.heap) →
      (RunError.heap e).Expected i →
      Ensures (Operation.onWorld .heap (·.concat left right)) w post (·.Expected i) := by
    intro e herror hexpected
    rw [herror] at hconcat
    refine onWorld (fun id w' hw => ?_) fun e' w' hw => ?_
    · rw [hw] at hconcat
      cases (Prod.mk.inj hconcat).1
    · rw [hw] at hconcat
      cases (Prod.mk.inj hconcat).1
      exact hexpected
  rcases hleft with hfreed | ⟨a, ha⟩
  · exact hfails (by simp only [Heap.concat, hfreed]; rfl) .freed
  · rcases hright with hfreed | ⟨b, hb⟩
    · exact hfails (by simp only [Heap.concat, ha, hfreed]; rfl) .freed
    · have hinsert : w.heap.concat left right = w.heap.insert (.string (a ++ b)) := by
        simp only [Heap.concat, ha, hb]
        rfl
      exact insert_typed (hconcat.trans hinsert) hh hk (by rfl) h

theorem release_typed (hh : w.heap.HasTypes T τ k) {post : Payload → World → Prop}
    (h : ∀ p w', w'.heap.HasTypes T τ (k + 1) → post p w') :
    Ensures (Operation.onWorld .heap (·.release id)) w post (·.Expected i) := by
  have hrelease := w.release_heap id
  refine onWorld (fun p w' hw => ?_) fun e w' hw => ?_
  · rw [hw] at hrelease
    exact h p w' (hh.delete hrelease.symm)
  · rw [hw] at hrelease
    rcases hh.sound.delete id with ⟨-, hfreed⟩ | ⟨_, _, _, hok, -⟩
    · cases (Prod.mk.inj (hrelease.trans hfreed)).1
      exact .freed
    · cases (Prod.mk.inj (hrelease.trans hok)).1

/-- Numbers are computed from numbers. -/
theorem arith_typed {op : ArithOp} {a b : Value} (ht : t = .int ∨ t = .double) (ha : a.HasType τ t)
    (hb : b.HasType τ t) {post : Value → World → Prop} (h : ∀ v, v.HasType τ t → post v w) :
    Ensures (Operation.arith op (primitives.kindOf t) b a) w post (·.Expected i) := by
  refine arith (kindOf_number ht) (fun v hv => h v ?_) (fun hkind => ?_) (fun hkind => ?_)
    (.anywhere rfl rfl)
  · rcases ht with rfl | rfl
    · cases v <;> first | exact .int | cases hv
    · cases v <;> first | rfl | cases hv
  · rw [ha.hasKind] at hkind
    cases hkind
  · rw [hb.hasKind] at hkind
    cases hkind

end Operation.Ensures

section

variable {T : Tables} {env : Setting} {τ : HeapTypes} {k : Nat} {w : World} {outs : List TypeId}
  {i : Instruction}

theorem TypedResults.same {results : List Value} (hh : w.heap.HasTypes T τ k)
    (hresults : List.Forall₂ (Value.HasType τ) outs results) : TypedResults T τ k outs results w :=
  ⟨τ, .refl τ, hh, hresults⟩

namespace Setting.Types

theorem string_not_array (henv : env.Types T) : T.types.element? .string = none := by
  cases hel : T.types.element? .string with
  | none => rfl
  | some el => exact absurd (henv.arrays _ el hel) (by decide)

theorem string_not_class (henv : env.Types T) : T.scopes.classInfo? .string = none := by
  cases hinfo : T.scopes.classInfo? .string with
  | none => rfl
  | some info => exact absurd (henv.classes _ info hinfo).1 (by decide)

theorem array_not_class (henv : env.Types T) {t el : TypeId} (hel : T.types.element? t = some el) :
    T.scopes.classInfo? t = none := by
  cases hinfo : T.scopes.classInfo? t with
  | none => rfl
  | some info => cases (henv.classes _ info hinfo).2.symm.trans hel

end Setting.Types

theorem initial_typed (ts : List TypeId) :
    List.Forall₂ (Value.HasType τ) ts ((ts.map primitives.kindOf).map Value.initial) := by
  induction ts with
  | nil => exact .nil
  | cons t ts ih => exact .cons (.initial t) ih

theorem sameReference_typed (henv : env.Types T) (hh : w.heap.HasTypes T τ k) {t : TypeId}
    {a b : Value}
    (ha : a.HasType τ t) (hb : b.HasType τ t) {x y : HeapId} {e : HeapError} (hx : a = .stringRef x)
    (hy : b = .stringRef y) (he : w.heap.stringsEqual x y = .error e) :
    (RunError.heap e).Expected i := by
  subst hx hy
  obtain ⟨rfl, hx⟩ := ha
  obtain ⟨-, hy⟩ := hb
  rw [Heap.stringsEqual] at he
  rcases hh.string hx henv.string_not_array henv.string_not_class with hfreed | ⟨left, hleft⟩
  · rw [hfreed] at he
    cases he
    exact .anywhere rfl rfl
  · rcases hh.string hy henv.string_not_array henv.string_not_class with hfreed | ⟨right, hright⟩
    · rw [hleft, hfreed] at he
      cases he
      exact .anywhere rfl rfl
    · rw [hleft, hright] at he
      cases he

open Operation.Ensures in
/-- An instruction that is given values of the types that it takes leaves some of the types that it
promises, and fails for no reason that has to do with types. -/
theorem operate_typed (henv : env.Types T) {ins : List TypeId} (htakes : Takes T i ins outs)
    (hcall : ∀ c, i ≠ .call c) (hh : w.heap.HasTypes T τ k) (hk : k < 2 ^ 32) {args : List Value}
    (hargs : List.Forall₂ (Value.HasType τ) ins args) :
    (operate env i args).Ensures w (TypedResults T τ (k + i.deletions) outs) (·.Expected i) := by
  have hsame : ∀ {outs : List TypeId} {results : List Value},
      List.Forall₂ (Value.HasType τ) outs results → TypedResults T τ k outs results w :=
    fun hresults => .same hh hresults
  cases htakes with
  | pushByte | pushShort =>
    cases hargs
    exact pure (hsame (.cons .int .nil))
  | @pushBool b =>
    cases hargs
    cases b
    · exact pure (hsame (.cons (Value.HasType.ofBool (b := false)) .nil))
    · exact pure (hsame (.cons (Value.HasType.ofBool (b := true)) .nil))
  | integer hc =>
    cases hargs
    simp only [operate_pushConst, Operation.constant, henv.constant hc]
    exact pure (hsame (.cons .int .nil))
  | float hc =>
    cases hargs
    simp only [operate_pushConst, Operation.constant, henv.constant hc]
    exact pure (hsame (.cons (by rfl) .nil))
  | string hc =>
    cases hargs
    simp only [operate_pushConst, Operation.constant, henv.constant hc]
    refine bind (bind (insert_typed (t := .string) (w.allocate_heap _) hh hk (by rfl)
      fun id w' τ' hle hh' hid => ?_))
    exact pure (pure ⟨τ', hle, hh', .cons ⟨rfl, hid⟩ .nil⟩)
  | pushVoid hkind =>
    cases hargs
    exact pure (hsame (.cons hkind .nil))
  | pop =>
    obtain _ | ⟨-, _ | _⟩ := hargs
    exact pure (hsame .nil)
  | dup =>
    obtain _ | ⟨hv, _ | _⟩ := hargs
    exact pure (hsame (.cons hv (.cons hv .nil)))
  | dup2 =>
    obtain _ | ⟨ha, _ | ⟨hb, _ | _⟩⟩ := hargs
    exact pure (hsame (.cons ha (.cons hb (.cons ha (.cons hb .nil)))))
  | getField hinfo hmember =>
    obtain _ | ⟨hv, _ | _⟩ := hargs
    obtain ⟨ht, harray⟩ := henv.classes _ _ hinfo
    have hm := henv.members _ _ _ _ _ hinfo hmember
    refine bind (object_typed hv fun id hid => bind ?_)
    refine readHeap_typed ((hh.field hid hinfo ht harray hm).imp_left fun he => ⟨_, he, .freed⟩) ?_
    exact fun u hu => pure (hsame (.cons hu .nil))
  | @setField _ mt _ _ _ hinfo hmember =>
    obtain _ | ⟨hv, _ | ⟨htarget, _ | _⟩⟩ := hargs
    obtain ⟨ht, harray⟩ := henv.classes _ _ hinfo
    have hm := henv.members _ _ _ _ _ hinfo hmember
    refine bind (ofKind_typed hv (bind (object_typed htarget fun id hid => bind ?_)))
    refine onHeap_typed ((hh.setField hid hinfo ht harray hm hv).imp_left fun he => ⟨_, he, .freed⟩)
      ?_
    exact fun w' hw' => pure (TypedResults.same hw' .nil)
  | operation hop =>
    obtain _ | ⟨hb, _ | ⟨ha, _ | _⟩⟩ := hargs
    rcases operation?_cases hop with ⟨aop, ht, rfl, rfl⟩ | ⟨cmp, ht, rfl, rfl⟩ | ⟨rfl, rfl, rfl⟩
    · exact bind (arith_typed ht ha hb fun v hv => pure (hsame (.cons hv .nil)))
    · refine bind (compare (fun r => pure (hsame (.cons .ofBool .nil))) (fun _ hkind => ?_)
        (fun _ hkind => ?_) fun x y e hx hy he => sameReference_typed henv hh ha hb hx hy he)
      · rw [ha.hasKind] at hkind
        cases hkind
      · rw [hb.hasKind] at hkind
        cases hkind
    · refine bind (string_typed hb fun right hright =>
        bind (string_typed ha fun left hleft => bind ?_))
      refine concat_typed hh hk (hh.string hleft henv.string_not_array henv.string_not_class)
        (hh.string hright henv.string_not_array henv.string_not_class) fun id w' τ' hle hh' hid =>
          ?_
      exact pure ⟨τ', hle, hh', .cons ⟨rfl, hid⟩ .nil⟩
  | neg ht =>
    obtain _ | ⟨hv, _ | _⟩ := hargs
    rcases ht with rfl | rfl
    · exact bind (int_typed hv (by rfl) fun n _ => pure (hsame (.cons .int .nil)))
    · exact bind (float_typed hv (by rfl) fun x _ => pure (hsame (.cons (by rfl) .nil)))
  | not =>
    obtain _ | ⟨hv, _ | _⟩ := hargs
    exact bind (int_typed hv (by rfl) fun n _ => pure (hsame (.cons .ofBool .nil)))
  | intToFloat ht =>
    obtain _ | ⟨hv, _ | _⟩ := hargs
    exact bind (int_typed hv ht fun n _ => pure (hsame (.cons (by rfl) .nil)))
  | floatToInt =>
    obtain _ | ⟨hv, _ | _⟩ := hargs
    exact bind (float_typed hv (by rfl) fun x _ => pure (hsame (.cons .int .nil)))
  | @call _ params _ hcallee =>
    cases hcallee with
    | function => exact absurd rfl (hcall _)
    | method => exact absurd rfl (hcall _)
    | native hn hparams hresult =>
      obtain ⟨native, hnative, rfl⟩ := henv.native hn
      simp only [operate_callNative, Operation.callNative, hnative]
      have hargs : List.Forall₂ (Value.HasType τ) params args.reverse := by
        rw [← List.forall₂_reverse_iff, List.reverse_reverse]
        exact hargs
      refine bind (onWorld (fun v w' hrun => ?_) fun e w' _ => .anywhere rfl rfl)
      obtain ⟨τ', hle, hh', hv⟩ := henv.typed native (Array.mem_of_getElem? hnative) _ _ hparams
        hresult τ k w _ v w' hh hk hargs hrun
      exact pure ⟨τ', hle, hh', .cons hv .nil⟩
  | construct => exact absurd rfl (hcall _)
  | @newObject cls info hinfo =>
    cases hargs
    obtain ⟨shape, hshape⟩ := henv.shapes _ _ hinfo
    simp only [operate_newObject, hshape]
    have hfields : shape.fields.toList =
        ((T.memberTypes info).map primitives.kindOf).map Value.initial := by
      rw [← henv.fields _ _ shape hinfo hshape]
      rfl
    have htyped : (Payload.object info.scopes.constant shape.fields).HasType T τ cls :=
      ⟨info, hinfo, rfl, hfields ▸ initial_typed _⟩
    refine bind (insert_typed (w.allocate_heap _) hh hk htyped fun id w' τ' hle hh' hid => ?_)
    exact pure ⟨τ', hle, hh', .cons ⟨(henv.classes _ _ hinfo).1, hid⟩ .nil⟩
  | @newArray _ _ el array hterm harray =>
    obtain _ | ⟨hv, _ | _⟩ := hargs
    refine bind (int_typed hv (by rfl) fun n _ => ?_)
    split
    · exact throw (.anywhere rfl rfl)
    · have hel := henv.elements _ _ _ _ hterm harray
      have htyped : (Payload.array (.replicate n.toNatClampNeg
          (.initial (primitives.kindOf el)))).HasType T τ array := by
        refine ⟨el, hel, fun u hu => ?_⟩
        rw [(Array.mem_replicate.mp hu).2]
        exact .initial el
      refine bind (insert_typed (w.allocate_heap _) hh hk htyped fun id w' τ' hle hh' hid => ?_)
      exact pure ⟨τ', hle, hh', .cons ⟨henv.arrays _ _ hel, hid⟩ .nil⟩
  | getElement hel =>
    obtain _ | ⟨hposition, _ | ⟨hv, _ | _⟩⟩ := hargs
    refine bind (index_typed hposition fun n => bind (object_typed hv fun id hid => bind ?_))
    refine readHeap_typed ?_ fun u hu => pure (hsame (.cons hu .nil))
    rcases hh.element hid hel (henv.arrays _ _ hel) (henv.array_not_class hel) n with he |
      ⟨size, he⟩ | hok
    · exact .inl ⟨_, he, .freed⟩
    · exact .inl ⟨_, he, rfl, fun _ => rfl⟩
    · exact .inr hok
  | setElement hel =>
    obtain _ | ⟨hv, _ | ⟨hposition, _ | ⟨htarget, _ | _⟩⟩⟩ := hargs
    refine bind (ofKind_typed hv (bind (index_typed hposition fun n =>
      bind (object_typed htarget fun id hid => bind ?_))))
    refine onHeap_typed ?_ fun w' hw' => pure (TypedResults.same hw' .nil)
    rcases hh.setElement hid hel (henv.arrays _ _ hel) (henv.array_not_class hel) n hv with
      he | ⟨size, he⟩ | hok
    · exact .inl ⟨_, he, .freed⟩
    · exact .inl ⟨_, he, rfl, fun _ => rfl⟩
    · exact .inr hok
  | arrayLength hel =>
    obtain _ | ⟨hv, _ | _⟩ := hargs
    refine bind (object_typed hv fun id hid =>
      bind (readHeap_typed (Q := fun _ => True) ?_ fun n _ => ?_))
    · rcases hh.arraySize hid hel (henv.arrays _ _ hel) (henv.array_not_class hel) with he |
        ⟨n, hok⟩
      · exact .inl ⟨_, he, .freed⟩
      · exact .inr ⟨n, hok, trivial⟩
    · exact pure (hsame (.cons .int .nil))
  | delete =>
    obtain _ | ⟨hv, _ | _⟩ := hargs
    refine bind (reference (fun id _ => bind (release_typed hh fun p w' hh' => ?_))
      (.anywhere rfl rfl))
    exact pure (TypedResults.same hh' .nil)

end

end Bytescript
