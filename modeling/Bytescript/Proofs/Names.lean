import Bytescript.Proofs.Types

/-!
# Full names

The full name of a routine is made of the names of classes, its own name and the names of the types
of its parameters. If declared names are plain, its parts can be read off it again: what stands
before the first parenthesis (`mangled_inj`) and, inside of it, the names of the types. These
contain commas of their own, but only inside of brackets (`IsWord`), so the commas between them can
be told apart.
-/

namespace Bytescript

/-- The characters that full names are put together with. -/
def reserved : List Char := ['(', ')', ',', '.', '<', '>']

/-- Names that a script may declare. -/
def IsPlain (name : String) : Prop := name ≠ "" ∧ ∀ c ∈ name.toList, c ∉ reserved

instance (name : String) : Decidable (IsPlain name) :=
  @instDecidableAnd _ _ inferInstance (List.decidableBAll _ name.toList)

/-- The characters that names of structural types are put together with. -/
def brackets : List Char := ['(', ')', ',', '<', '>']

/-- Names of types as such, among them those with dots. -/
def IsIdentifier (name : String) : Prop := name ≠ "" ∧ ∀ c ∈ name.toList, c ∉ brackets

instance (name : String) : Decidable (IsIdentifier name) :=
  @instDecidableAnd _ _ inferInstance (List.decidableBAll _ name.toList)

theorem IsPlain.isIdentifier {name : String} (h : IsPlain name) : IsIdentifier name := by
  refine ⟨h.1, fun c hc hmem => h.2 c hc ?_⟩
  simp only [brackets, reserved, List.mem_cons, List.not_mem_nil, or_false] at hmem ⊢
  grind

theorem IsPlain.not_mem {name : String} (h : IsPlain name) {c : Char} (hc : c ∈ reserved) :
    c ∉ name.toList := fun hmem => h.2 c hmem hc

/-! ## Words -/

/-- How many brackets are open behind some text if so many are before it. An arrow closes the
parenthesis before it. There is no answer if a comma stands outside of brackets. -/
def scan : Nat → List Char → Option Nat
  | d, [] => some d
  | d, c :: cs =>
    if c = ',' then if d = 0 then none else scan d cs
    else if c = '<' ∨ c = '(' then scan (d + 1) cs
    else if c = '>' then if d = 0 then none else scan (d - 1) cs
    else scan d cs

/-- A text with commas inside of brackets only, and with as many brackets closed as opened. -/
def IsWord (name : String) : Prop := name ≠ "" ∧ scan 0 name.toList = some 0

variable {d e : Nat} {c : Char} {a : List Char} {words : List (List Char)}

/-- How many brackets are open behind one character. -/
def turn (d : Nat) (c : Char) : Option Nat :=
  if c = ',' then if d = 0 then none else some d
  else if c = '<' ∨ c = '(' then some (d + 1)
  else if c = '>' then if d = 0 then none else some (d - 1)
  else some d

theorem scan_cons_iff : scan d (c :: a) = some e ↔ ∃ d', turn d c = some d' ∧
    scan d' a = some e := by
  simp only [scan, turn]
  grind

theorem turn_add (h : turn d c = some e) (k : Nat) : turn (d + k) c = some (e + k) := by
  simp only [turn] at h ⊢
  grind

theorem scan_append {b : List Char} (h : scan d a = some e) : scan d (a ++ b) = scan e b := by
  refine Option.ext fun n => ?_
  induction a generalizing d with
  | nil =>
    cases h
    rfl
  | cons c cs ih =>
    obtain ⟨d', hturn, h⟩ := scan_cons_iff.mp h
    rw [List.cons_append, scan_cons_iff, hturn]
    simpa using ih h

/-- Inside of more brackets a text is scanned in the same way. -/
theorem scan_add (h : scan d a = some e) (k : Nat) : scan (d + k) a = some (e + k) := by
  induction a generalizing d with
  | nil =>
    cases h
    rfl
  | cons c cs ih =>
    obtain ⟨d', hturn, h⟩ := scan_cons_iff.mp h
    exact scan_cons_iff.mpr ⟨d' + k, turn_add hturn k, ih h⟩

theorem scan_identifier (h : ∀ c ∈ a, c ∉ brackets) (d : Nat) : scan d a = some d := by
  induction a with
  | nil => rfl
  | cons c cs ih =>
    have hc := h c (.head _)
    simp only [brackets, List.mem_cons, List.not_mem_nil, or_false, not_or] at hc
    rw [scan, if_neg hc.2.2.1, if_neg (by simp [hc.1, hc.2.2.2.1]), if_neg hc.2.2.2.2]
    exact ih fun c' hc' => h c' (.tail _ hc')

theorem IsIdentifier.isWord {name : String} (h : IsIdentifier name) : IsWord name :=
  ⟨h.1, scan_identifier h.2 0⟩

/-! ## Lists of words -/

/-- Cuts a text at the commas outside of brackets; `word` is the word so far, backwards. -/
def splitWords : (depth : Nat) → (word : List Char) → List Char → List (List Char)
  | _, word, [] => [word.reverse]
  | d, word, c :: cs =>
    if c = ',' ∧ d = 0 then word.reverse :: splitWords 0 [] cs
    else splitWords
      (if c = '<' ∨ c = '(' then d + 1 else if c = '>' then d - 1 else d) (c :: word) cs

theorem splitWords_scan (h : scan d a = some e) (word rest : List Char) :
    splitWords d word (a ++ rest) = splitWords e (a.reverse ++ word) rest := by
  induction a generalizing d word with
  | nil =>
    cases h
    rfl
  | cons c cs ih =>
    obtain ⟨d', hturn, h⟩ := scan_cons_iff.mp h
    have hstep : splitWords d word (c :: (cs ++ rest)) =
        splitWords d' (c :: word) (cs ++ rest) := by
      simp only [turn] at hturn
      grind [splitWords]
    rw [List.cons_append, hstep, ih h]
    simp

/-- Words that have been joined by commas can be cut apart again. -/
theorem splitWords_join (hne : words ≠ []) (h : ∀ w ∈ words, scan 0 w = some 0) :
    splitWords 0 [] ([','].intercalate words) = words := by
  induction words with
  | nil => exact absurd rfl hne
  | cons w ws ih =>
    have hw := h w (.head _)
    cases ws with
    | nil =>
      rw [List.intercalate_singleton, ← List.append_nil w, splitWords_scan hw]
      simp [splitWords]
    | cons w' ws =>
      rw [List.intercalate_cons_cons, List.append_assoc, splitWords_scan hw, List.singleton_append,
        splitWords, if_pos ⟨rfl, rfl⟩, ih (by simp) fun v hv => h v (.tail _ hv)]
      simp

theorem join_ne_nil (hne : words ≠ []) (h : ∀ w ∈ words, w ≠ []) :
    [','].intercalate words ≠ [] := by
  cases words with
  | nil => exact absurd rfl hne
  | cons w ws =>
    have hw := h w (.head _)
    cases ws with
    | nil => rwa [List.intercalate_singleton]
    | cons w' ws => simp [List.intercalate_cons_cons, hw]

theorem join_inj {ns ms : List String} (hn : ∀ n ∈ ns, IsWord n) (hm : ∀ m ∈ ms, IsWord m)
    (h : (",".intercalate ns).toList = (",".intercalate ms).toList) : ns = ms := by
  have hwords : ∀ {ns : List String}, (∀ n ∈ ns, IsWord n) →
      ∀ w ∈ ns.map String.toList, w ≠ [] ∧ scan 0 w = some 0 := by
    intro ns hn w hw
    obtain ⟨n, hmem, rfl⟩ := List.mem_map.mp hw
    exact ⟨fun hnil => (hn n hmem).1 (String.ext hnil), (hn n hmem).2⟩
  have hns := hwords hn
  have hms := hwords hm
  rw [String.toList_intercalate, String.toList_intercalate] at h
  change [','].intercalate _ = [','].intercalate _ at h
  refine (List.map_inj_right fun _ _ => String.ext).mp ?_
  by_cases hnil : ns.map String.toList = []
  · by_cases hmil : ms.map String.toList = []
    · rw [hnil, hmil]
    · rw [hnil, List.intercalate_nil] at h
      exact absurd h.symm (join_ne_nil hmil fun w hw => (hms w hw).1)
  · by_cases hmil : ms.map String.toList = []
    · rw [hmil, List.intercalate_nil] at h
      exact absurd h (join_ne_nil hnil fun w hw => (hns w hw).1)
    · rw [← splitWords_join hnil fun w hw => (hns w hw).2, h,
        splitWords_join hmil fun w hw => (hms w hw).2]

/-! ## Names of types -/

theorem scan_intercalate (h : ∀ w ∈ words, scan 0 w = some 0) (hd : 0 < d) :
    scan d ([','].intercalate words) = some d := by
  have hword : ∀ w ∈ words, scan d w = some d := fun w hw => by
    have := scan_add (h w hw) d
    rwa [Nat.zero_add] at this
  clear h
  induction words with
  | nil => rfl
  | cons w ws ih =>
    have hw := hword w (.head _)
    cases ws with
    | nil => rwa [List.intercalate_singleton]
    | cons w' ws =>
      rw [List.intercalate_cons_cons, List.append_assoc, scan_append hw, List.singleton_append,
        scan, if_pos rfl, if_neg (Nat.ne_of_gt hd)]
      exact ih fun v hv => hword v (.tail _ hv)

theorem scan_join {names : List String} (h : ∀ n ∈ names, IsWord n) (hd : 0 < d) :
    scan d (",".intercalate names).toList = some d := by
  rw [String.toList_intercalate]
  refine scan_intercalate (fun w hw => ?_) hd
  obtain ⟨n, hn, rfl⟩ := List.mem_map.mp hw
  exact (h n hn).2

namespace TypeTable

/-- The name of a structural type, from the names of its parts. -/
def rendered (kind : TypeKind) (names : List String) : Except TypeError String :=
  match kind with
  | .array => .ok ("Array<" ++ ",".intercalate names ++ ">")
  | .tuple => .ok ("Tuple<" ++ ",".intercalate names ++ ">")
  | .function =>
    .ok ("Function<(" ++ ",".intercalate names.dropLast ++ ")->" ++ names.getLastD "void" ++ ">")
  | kind => .error (.notGeneric kind)

theorem canonicalName_eq (t : TypeTable) (kind : TypeKind) (args : List TypeId) :
    t.canonicalName kind args = rendered kind (args.map fun a => t.name (t.resolve a)) := rfl

variable {kind : TypeKind} {names : List String} {e : TypeEntry} {t : TypeTable} {id : TypeId}

theorem rendered_not_identifier {name : String} (h : rendered kind names = .ok name) :
    ¬ IsIdentifier name := by
  refine fun hid => hid.2 '<' ?_ (by decide)
  simp only [rendered] at h
  split at h <;> cases h
  all_goals simp [String.toList_append]

theorem rendered_isWord {name : String} (h : rendered kind names = .ok name)
    (hnames : ∀ n ∈ names, IsWord n) : IsWord name := by
  simp only [rendered] at h
  have hlist : ∀ {opening : String}, scan 0 opening.toList = some 1 →
      scan 0 (opening ++ ",".intercalate names ++ ">").toList = some 0 := by
    intro opening hopen
    rw [String.toList_append, String.toList_append, List.append_assoc, scan_append hopen,
      scan_append (scan_join hnames Nat.one_pos)]
    decide
  split at h
  · cases h
    exact ⟨by simp, hlist (by decide)⟩
  · cases h
    exact ⟨by simp, hlist (by decide)⟩
  · cases h
    have hlast : IsWord (names.getLastD "void") := by
      rw [List.getLastD_eq_getLast?]
      cases hl : names.getLast? with
      | none => exact ⟨by decide, by decide⟩
      | some n => exact hnames n (List.mem_of_getLast? hl)
    refine ⟨by simp, ?_⟩
    have hopen : scan 0 "Function<(".toList = some 2 := by decide
    have harrow : scan 2 ")->".toList = some 1 := by decide
    rw [String.toList_append, String.toList_append, String.toList_append, String.toList_append,
      List.append_assoc, List.append_assoc, List.append_assoc, scan_append hopen,
      scan_append (scan_join (fun n hn => hnames n (List.dropLast_subset _ hn)) Nat.two_pos),
      scan_append harrow, scan_append (scan_add hlast.2 1)]
    decide
  · cases h

theorem primitives_identifier {i : Nat} (he : primitives.entries[i]? = some e) :
    IsIdentifier e.name := by
  have hall : ∀ e ∈ primitives.entries, IsIdentifier e.name := by decide
  exact hall e (Array.mem_of_getElem? he)

theorem name_of_entry (he : t.entries[id.index]? = some e) : t.name id = e.name := by
  rw [name, get, Array.getD_eq_getD_getElem?, he, Option.getD_some]

end TypeTable

/-! ## Full names -/

theorem append_cons_inj {α : Type} {c : α} {a b x y : List α} (ha : c ∉ a) (hb : c ∉ b)
    (h : a ++ c :: x = b ++ c :: y) : a = b ∧ x = y := by
  induction a generalizing b with
  | nil =>
    cases b with
    | nil => exact ⟨rfl, (List.cons.inj h).2⟩
    | cons e b => exact absurd (List.mem_cons.mpr (.inl (List.cons.inj h).1)) hb
  | cons d a ih =>
    cases b with
    | nil => exact absurd (List.mem_cons.mpr (.inl (List.cons.inj h).1.symm)) ha
    | cons e b =>
      obtain ⟨rfl, htail⟩ := List.cons.inj h
      obtain ⟨rfl, rfl⟩ := ih (fun hm => ha (.tail _ hm))
        (fun hm => hb (.tail _ hm)) htail
      exact ⟨rfl, rfl⟩

theorem TypeTable.signature_toList (t : TypeTable) (params : List TypeId) :
    (t.signature params).toList =
      '(' :: ((",".intercalate (params.map fun p => t.name (t.resolve p))).toList ++ [')']) := by
  simp only [TypeTable.signature, String.toList_append]
  rfl

/-- What stands before the parameters, and the names of their types, can be read off a full name. -/
theorem mangled_inj {t : TypeTable} {stem stem' : String} (hstem : '(' ∉ stem.toList)
    (hstem' : '(' ∉ stem'.toList) {params params' : List TypeId}
    (hparams : ∀ p ∈ params, IsWord (t.name (t.resolve p)))
    (hparams' : ∀ p ∈ params', IsWord (t.name (t.resolve p)))
    (h : stem ++ t.signature params = stem' ++ t.signature params') :
    stem = stem' ∧
      params.map (fun p => t.name (t.resolve p)) = params'.map fun p => t.name (t.resolve p) := by
  have h := congrArg String.toList h
  rw [String.toList_append, String.toList_append, t.signature_toList, t.signature_toList] at h
  obtain ⟨hs, h⟩ := append_cons_inj hstem hstem' h
  exact ⟨String.ext hs, join_inj (List.forall_mem_map.mpr hparams)
    (List.forall_mem_map.mpr hparams') (List.append_cancel_right h)⟩

/-- A name can be read off behind the last dot. -/
theorem dotted_inj {q q' name name' : String} (hname : '.' ∉ name.toList)
    (hname' : '.' ∉ name'.toList)
    (h : q ++ "." ++ name = q' ++ "." ++ name') : q = q' ∧ name = name' := by
  have h := congrArg (fun s => s.toList.reverse) h
  simp only [String.toList_append, List.reverse_append] at h
  obtain ⟨hn, hq⟩ := append_cons_inj (mt List.mem_reverse.mp hname) (mt List.mem_reverse.mp hname')
    h
  exact ⟨String.ext (List.reverse_inj.mp hq), String.ext (List.reverse_inj.mp hn)⟩

/-- Names of constructors are not followed by parameters. -/
theorem mangled_ne_constructor (t : TypeTable) (stem q : String) (params : List TypeId) :
    stem ++ t.signature params ≠ q ++ "." ++ Lower.constructorName := by
  intro h
  have h := congrArg (fun s => s.toList.getLast?) h
  rw [String.toList_append, t.signature_toList, ← List.cons_append, ← List.append_assoc,
    List.getLast?_concat, String.toList_append, List.getLast?_append] at h
  exact absurd (Option.some.inj h) (by decide)

end Bytescript
