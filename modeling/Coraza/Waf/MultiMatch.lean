import Coraza.Transformations.Registered

/-!
# multiMatch and the flags of transformations

Without multiMatch a rule looks at the last text of its transformations, with it at every text that
a transformation reported as changed.  Both runs go from text to text: `plainNext` takes whatever a
transformation returns without an error, `multimatchNext` only what it reports as changed.

The rule misses nothing with multiMatch exactly as long as no transformation changes a text without
reporting it (`multimatch_last_iff`), and it looks at no text twice in a row exactly if no
transformation reports a text that it does not change (`multimatch_distinct_iff`).
-/

namespace Coraza.Waf

open Go Transformations List

/-- The transformations of a rule by their names; `ids` are the numbers of the names. -/
def ruleTransformations (lib : Library) (ids : Builtin → Nat) (names : List Builtin) :
    List (RuleTransformationParams TransformationError) :=
  names.map (fun t => ⟨t.function lib, ids t⟩)

/-- A condition on each transformation of a list with the text that it gets. -/
def Along (next : Builtin → Bytes → Bytes) (ok : Builtin → Bytes → Prop) :
    List Builtin → Bytes → Prop
  | [], _ => True
  | t :: names, value => ok t value ∧ Along next ok names (next t value)

section

variable (lib : Library)

def plainNext (t : Builtin) (value : Bytes) : Bytes :=
  (executeStep (t.function lib) (value, [])).1

def multimatchNext (t : Builtin) (value : Bytes) : Bytes :=
  (multimatchStep (t.function lib) ([], value, [])).2.1

def candidates : List Builtin → Bytes → List Bytes
  | [], _ => []
  | t :: names, value =>
    (multimatchStep (t.function lib) ([], value, [])).1
      ++ candidates names (multimatchNext lib t value)

/-! ### Rounds and runs -/

theorem executeStep_value (t : Builtin) (value : Bytes) (errs : List TransformationError) :
    (executeStep (t.function lib) (value, errs)).1 = plainNext lib t value := by
  unfold plainNext executeStep
  rcases t.function lib value with ⟨v, changed, _ | err⟩ <;> rfl

theorem multimatchStep_value (t : Builtin) (result : List Bytes) (value : Bytes)
    (errs : List TransformationError) :
    (multimatchStep (t.function lib) (result, value, errs)).1
        = result ++ (multimatchStep (t.function lib) ([], value, [])).1 ∧
      (multimatchStep (t.function lib) (result, value, errs)).2.1 = multimatchNext lib t value := by
  unfold multimatchNext multimatchStep
  rcases t.function lib value with ⟨v, _ | _, _ | err⟩
  · exact ⟨(append_nil result).symm, rfl⟩
  · exact ⟨(append_nil result).symm, rfl⟩
  · exact ⟨rfl, rfl⟩
  · exact ⟨(append_nil result).symm, rfl⟩

theorem executeTransformations_value (ids : Builtin → Nat) (names : List Builtin) (value : Bytes) :
    (executeTransformations (ruleTransformations lib ids names) value).1
      = names.foldl (fun value t => plainNext lib t value) value := by
  have hloop : ∀ (names : List Builtin) (state : Bytes × List TransformationError),
      ((ruleTransformations lib ids names).foldl
        (fun state t => executeStep t.function state) state).1
        = names.foldl (fun value t => plainNext lib t value) state.1 := by
    intro names
    induction names with
    | nil => exact fun _ => rfl
    | cons t names ih =>
      intro state
      rw [foldl_cons, ← executeStep_value lib t state.1 state.2]
      exact ih _
  exact hloop names (value, [])

theorem multimatch_candidates (ids : Builtin → Nat) (names : List Builtin) (value : Bytes) :
    (executeTransformationsMultimatchInto (ruleTransformations lib ids names) [] value).1
      = value :: candidates lib names value := by
  have hloop : ∀ (names : List Builtin) (state : List Bytes × Bytes × List TransformationError),
      ((ruleTransformations lib ids names).foldl
        (fun state t => multimatchStep t.function state) state).1
        = state.1 ++ candidates lib names state.2.1 := by
    intro names
    induction names with
    | nil => exact fun state => (append_nil state.1).symm
    | cons t names ih =>
      rintro ⟨result, value, errs⟩
      obtain ⟨hresult, hvalue⟩ := multimatchStep_value lib t result value errs
      have hrest := ih (multimatchStep (t.function lib) (result, value, errs))
      rw [hresult, hvalue, append_assoc] at hrest
      exact hrest
  exact hloop names ([value], value, [])

/-- The last candidate is the text that the run carries on. -/
theorem getLast_candidates (names : List Builtin) (value : Bytes) :
    (value :: candidates lib names value).getLast?
      = some (names.foldl (fun value t => multimatchNext lib t value) value) := by
  induction names generalizing value with
  | nil => rfl
  | cons t names ih =>
    rw [foldl_cons, ← ih, candidates]
    unfold multimatchNext multimatchStep
    rcases t.function lib value with ⟨v, _ | _, _ | err⟩
    · rfl
    · rfl
    · exact List.getLast?_cons_cons
    · rfl

/-! ### A round and the flag -/

theorem multimatchNext_eq_plainNext_iff (t : Builtin) (value : Bytes) :
    multimatchNext lib t value = plainNext lib t value ↔ t.Keeps lib value := by
  rw [← (t.flagSpec lib).keeps_iff]
  unfold multimatchNext multimatchStep plainNext executeStep KeptUnreported
  rcases t.function lib value with ⟨v, _ | _, _ | err⟩
  · exact ⟨fun heq _ _ => heq.symm, fun hkept => (hkept rfl rfl).symm⟩
  · exact iff_of_true rfl (fun herr => nomatch herr)
  · exact iff_of_true rfl (fun _ hflag => nomatch hflag)
  · exact iff_of_true rfl (fun herr => nomatch herr)

/-- The new candidate of a round, if there is one, is another text. -/
theorem isChain_candidates_cons (t : Builtin) (names : List Builtin) (value : Bytes) :
    (value :: candidates lib (t :: names) value).IsChain (· ≠ ·) ↔ t.Alters lib value ∧
      (multimatchNext lib t value
        :: candidates lib names (multimatchNext lib t value)).IsChain (· ≠ ·) := by
  rw [← (t.flagSpec lib).alters_iff, candidates]
  unfold multimatchNext multimatchStep AlteredReported
  rcases t.function lib value with ⟨v, _ | _, _ | err⟩
  · exact (and_iff_right (fun _ hflag => nomatch hflag)).symm
  · exact (and_iff_right (fun herr => nomatch herr)).symm
  · have hne : value ≠ v ↔ ((none : Option TransformationError) = none → true = true → v ≠ value) :=
      ⟨fun h _ _ => h.symm, fun h => (h rfl rfl).symm⟩
    exact List.isChain_cons_cons.trans (and_congr_left' hne)
  · exact (and_iff_right (fun herr => nomatch herr)).symm

end

/-! ### Whole runs -/

/-- **With multiMatch a rule misses nothing** in any part of its list of transformations exactly if
each of them gets a text that it does not change without reporting it. -/
theorem multimatch_last_iff (lib : Library) (ids : Builtin → Nat) : ∀ (names : List Builtin)
    (value : Bytes),
    (∀ done, done <+: names →
      (executeTransformationsMultimatchInto (ruleTransformations lib ids done) [] value).1.getLast?
        = some (executeTransformations (ruleTransformations lib ids done) value).1) ↔
      Along (plainNext lib) (Builtin.Keeps lib) names value := by
  intro names
  simp only [multimatch_candidates, getLast_candidates, executeTransformations_value,
    Option.some.injEq]
  induction names with
  | nil =>
    intro value
    refine iff_of_true (fun done hdone => ?_) trivial
    rw [List.prefix_nil.mp hdone]
    rfl
  | cons t names ih =>
    intro value
    rw [Along, ← multimatchNext_eq_plainNext_iff, ← ih]
    constructor
    · intro h
      have hfirst := h [t] (prefix_append [t] names)
      refine ⟨hfirst, fun done hdone => ?_⟩
      have hrest := h (t :: done) (List.cons_prefix_cons.mpr ⟨rfl, hdone⟩)
      rw [foldl_cons, foldl_cons, show multimatchNext lib t value = plainNext lib t value
        from hfirst] at hrest
      exact hrest
    · rintro ⟨hfirst, h⟩ done hdone
      cases done with
      | nil => rfl
      | cons t' done =>
        obtain ⟨rfl, hprefix⟩ := List.cons_prefix_cons.mp hdone
        rw [foldl_cons, hfirst]
        exact h done hprefix

def identityLibrary : Library := ⟨⟨fun data => data, fun data => data, false⟩, fun data => data⟩

/-- The library on the entity `&nGg;`, which stands for U+22D9 and U+0338 and has as many bytes
as they. -/
def entityLibrary : Library :=
  { identityLibrary with
    unescapeString := fun data => if data = [0x26, 0x6E, 0x47, 0x67, 0x3B]
      then [0xE2, 0x8B, 0x99, 0xCC, 0xB8] else data }

theorem multimatch_misses_htmlEntityDecode : (executeTransformationsMultimatchInto
        (ruleTransformations entityLibrary (fun _ => 0) [.htmlEntityDecode]) []
        [0x26, 0x6E, 0x47, 0x67, 0x3B]).1 = [[0x26, 0x6E, 0x47, 0x67, 0x3B]] ∧
      (executeTransformations
        (ruleTransformations entityLibrary (fun _ => 0) [.htmlEntityDecode])
        [0x26, 0x6E, 0x47, 0x67, 0x3B]).1 = [0xE2, 0x8B, 0x99, 0xCC, 0xB8] := by
  decide

/-- **With multiMatch a rule looks at no text twice in a row** exactly if each of its
transformations gets a text that it does not report without changing it. -/
theorem multimatch_distinct_iff (lib : Library) (ids : Builtin → Nat) : ∀ (names : List Builtin)
    (value : Bytes),
    (executeTransformationsMultimatchInto (ruleTransformations lib ids names) []
      value).1.IsChain (· ≠ ·) ↔ Along (multimatchNext lib) (Builtin.Alters lib) names value := by
  intro names
  induction names with
  | nil =>
    intro value
    rw [multimatch_candidates]
    exact iff_of_true (isChain_singleton value) trivial
  | cons t names ih =>
    intro value
    rw [multimatch_candidates, isChain_candidates_cons, Along, ← ih, multimatch_candidates]

theorem multimatch_repeats_urlDecode : (executeTransformationsMultimatchInto
      (ruleTransformations identityLibrary (fun _ => 0) [.urlDecode]) [] [0x25]).1
      = [[0x25], [0x25]] := by
  decide

end Coraza.Waf
