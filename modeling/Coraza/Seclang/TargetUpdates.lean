import Coraza.Go.Slice
import Coraza.Waf.RuleGroup
import Coraza.Waf.Targets

/-!
# Updates of targets

`SecRuleUpdateTargetById` and `SecRuleUpdateTargetByTag` parse a list of targets once more for
rules that exist.  A rule that is named by its id is updated through a pointer.  For a range of
ids and for a tag, the loop goes over copies of the rules: a target that is added to a copy is
lost, and an exception is seen by the rule as long as the copy still has the array of the rule.

`updateTarget_exact_iff` says when every rule that is named gets the targets that the list would
give it alone, and every other rule keeps its own.
-/

namespace Coraza.Seclang

open Go Waf List RuleVariableParams Function

/-! ### Rules with their arrays -/

def withTargets (c : RuleChain) (targets : List RuleVariableParams) : RuleChain :=
  { c with starter := { c.starter with targets } }

/-- A chain of a group, with the slice that holds the targets of its starter. -/
structure StoredChain where
  chain : RuleChain
  slice : Slice RuleVariableParams
  view_slice : slice.view = chain.starter.targets

namespace StoredChain

def withSlice (c : StoredChain) (s : Slice RuleVariableParams) : StoredChain :=
  ⟨withTargets c.chain s.view, s, rfl⟩

def id (c : StoredChain) : Int := c.chain.starter.id

def spare (c : StoredChain) : Nat := c.slice.array.length - c.slice.len

end StoredChain

abbrev Grow := Nat → List RuleVariableParams

def editOwn (grow : Grow) (s : Slice RuleVariableParams) : TargetEdit → Slice RuleVariableParams
  | .add params => s.append grow params
  | .except v exception => s.mapInPlace (except v exception)

def editCopy (grow : Grow) (a : Aliased RuleVariableParams) :
    TargetEdit → Aliased RuleVariableParams
  | .add params => a.append grow params
  | .except v exception => a.mapInPlace (except v exception)

def StoredChain.updateOwn (grow : Grow) (edits : List TargetEdit) (c : StoredChain) : StoredChain :=
  c.withSlice (edits.foldl (editOwn grow) c.slice)

/-- `ParseVariables` for a copy of a rule, and what the rule has then. -/
def StoredChain.updateCopy (grow : Grow) (edits : List TargetEdit) (c : StoredChain) :
    StoredChain :=
  c.withSlice (edits.foldl (editCopy grow) (Aliased.of c.slice)).original

/-! ### The directives -/

inductive IDOrRange where
  | id (id : Int)
  | range (start stop : Int)
  /-- A text that is neither. -/
  | invalid

def IDOrRange.covers (id : Int) : IDOrRange → Bool
  | .id i => id = i
  | .range start stop => start ≤ id ∧ id ≤ stop
  | .invalid => false

/-- `updateTargetBySingleID`, with the flag that there was no error. -/
def updateTargetBySingleID (grow : Grow) (edits : List TargetEdit) (id : Int) :
    List StoredChain → List StoredChain × Bool
  | [] => ([], false)
  | c :: rest =>
    if c.id = id then (c.updateOwn grow edits :: rest, true)
    else
      let (rest, found) := updateTargetBySingleID grow edits id rest
      (c :: rest, found)

def updateTargetByRange (grow : Grow) (edits : List TargetEdit) (start stop : Int)
    (group : List StoredChain) : List StoredChain :=
  group.map (fun c => if c.id ≥ start ∧ c.id ≤ stop then c.updateCopy grow edits else c)

/-- `directiveSecRuleUpdateTargetByID`.  The loop returns at the first id. -/
def updateTargetByID (grow : Grow) (edits : List TargetEdit) :
    List IDOrRange → List StoredChain → List StoredChain × Bool
  | [], group => (group, true)
  | .invalid :: _, group => (group, false)
  | .id id :: _, group => updateTargetBySingleID grow edits id group
  | .range start stop :: rest, group =>
    if start = stop then updateTargetBySingleID grow edits start group
    else if start > stop then (group, false)
    else updateTargetByID grow edits rest (updateTargetByRange grow edits start stop group)

/-- `directiveSecRuleUpdateTargetByTag`. -/
def updateTargetByTag (grow : Grow) (edits : List TargetEdit) (tag : Bytes)
    (group : List StoredChain) : List StoredChain :=
  group.map (fun c => if tag ∈ c.chain.starter.tags then c.updateCopy grow edits else c)

/-! ### What an update of a copy does -/

/-- The exceptions of a list of changes that come before the addition for which a copy has no more
room. -/
def early : Nat → List TargetEdit → List TargetEdit
  | _, [] => []
  | n, .except v exception :: rest => .except v exception :: early n rest
  | 0, .add _ :: _ => []
  | n + 1, .add _ :: rest => early n rest

variable (grow : Grow)

theorem view_editOwn (edits : List TargetEdit) (s : Slice RuleVariableParams) :
    (edits.foldl (editOwn grow) s).view = applyEdits s.view edits := by
  refine (foldl_hom Slice.view (fun s edit => ?_)).symm
  cases edit with
  | add params => exact (Slice.view_append grow s params).symm
  | except v exception => exact (Slice.view_mapInPlace _ s).symm

theorem original_editCopy_apart (edits : List TargetEdit)
    (a : Aliased RuleVariableParams) (ha : a.room = none) :
    (edits.foldl (editCopy grow) a).original = a.original := by
  refine (List.foldlRecOn (motive := fun a' : Aliased RuleVariableParams =>
    a'.room = none ∧ a'.original = a.original) edits _ ⟨ha, rfl⟩ (fun a' ha' edit _ => ?_)).2
  cases a' with
  | shared s len h => cases ha'.1
  | apart original copy => cases edit <;> exact ⟨rfl, ha'.2⟩

theorem view_editCopy : ∀ (edits : List TargetEdit)
    (a : Aliased RuleVariableParams) (n : Nat), a.room = some n →
      (edits.foldl (editCopy grow) a).original.view
        = applyEdits a.original.view (early n edits) := by
  intro edits
  induction edits with
  | nil => exact fun a n _ => rfl
  | cons edit edits ih =>
    intro a n ha
    rw [foldl_cons]
    cases edit with
    | except v exception =>
      have hview : (editCopy grow a (.except v exception)).original.view
          = a.original.view.map (except v exception) := by
        rw [editCopy, Aliased.original_mapInPlace, ha]
        rfl
      have hroom : (editCopy grow a (.except v exception)).room = some n :=
        (Aliased.room_mapInPlace _ a).trans ha
      rw [ih _ n hroom, hview]
      rfl
    | add params =>
      have hview : (editCopy grow a (.add params)).original.view = a.original.view :=
        Aliased.original_append grow params a
      have hroom : (editCopy grow a (.add params)).room
          = (some n).bind (fun n => if n = 0 then none else some (n - 1)) := by
        rw [← ha]
        exact Aliased.room_append grow params a
      cases n with
      | zero =>
        rw [original_editCopy_apart grow edits _ hroom, hview]
        rfl
      | succ n =>
        rw [ih _ n hroom, hview]
        rfl

namespace StoredChain

theorem targets_updateOwn (edits : List TargetEdit) (c : StoredChain) :
    (c.updateOwn grow edits).chain
      = withTargets c.chain (applyEdits c.chain.starter.targets edits) := by
  unfold updateOwn withSlice
  dsimp only
  rw [view_editOwn, c.view_slice]

theorem targets_updateCopy (edits : List TargetEdit) (c : StoredChain) :
    (c.updateCopy grow edits).chain
      = withTargets c.chain (applyEdits c.chain.starter.targets (early c.spare edits)) := by
  unfold updateCopy withSlice
  dsimp only
  rw [view_editCopy grow edits (Aliased.of c.slice) c.spare rfl]
  show withTargets c.chain (applyEdits c.slice.view (early c.spare edits)) = _
  rw [c.view_slice]

theorem spare_updateCopy (edits : List TargetEdit) (c : StoredChain) :
    (c.updateCopy grow edits).spare = c.spare := by
  have hsize : (edits.foldl (editCopy grow) (Aliased.of c.slice)).original.len = c.slice.len ∧
      (edits.foldl (editCopy grow) (Aliased.of c.slice)).original.array.length
        = c.slice.array.length := by
    refine List.foldlRecOn (motive := fun a : Aliased RuleVariableParams =>
      a.original.len = c.slice.len ∧ a.original.array.length = c.slice.array.length) edits _
      ⟨rfl, rfl⟩ (fun a ha edit _ => ?_)
    have hstep : (editCopy grow a edit).original.len = a.original.len ∧
        (editCopy grow a edit).original.array.length = a.original.array.length := by
      cases edit with
      | add params => exact Aliased.size_append grow params a
      | except v exception => exact Aliased.size_mapInPlace _ a
    exact ⟨hstep.1.trans ha.1, hstep.2.trans ha.2⟩
  obtain ⟨hlen, harray⟩ := hsize
  show (edits.foldl (editCopy grow) (Aliased.of c.slice)).original.array.length
    - (edits.foldl (editCopy grow) (Aliased.of c.slice)).original.len = c.spare
  rw [harray, hlen]
  rfl

end StoredChain

/-! ### Counting exceptions -/

def isAddition : TargetEdit → Bool
  | .add _ => true
  | .except _ _ => false

def negated (edits : List TargetEdit) : List RuleVariable :=
  edits.filterMap (fun edit => match edit with
    | .add _ => none
    | .except v _ => some v)

def Idle (targets : List RuleVariableParams) (edits : List TargetEdit) : Prop :=
  ∀ v ∈ negated edits, ∀ rv ∈ targets, rv.ruleVariable ≠ v

def variablesOf (targets : List RuleVariableParams) : List RuleVariable :=
  targets.map ruleVariable

def weight (targets : List RuleVariableParams) : Nat :=
  (targets.map (fun rv => rv.exceptions.length)).sum

variable {targets : List RuleVariableParams} {edits : List TargetEdit}

theorem idle_iff : Idle targets edits ↔ ∀ v ∈ negated edits, v ∉ variablesOf targets := by
  unfold Idle variablesOf
  simp only [mem_map, not_exists, not_and]

theorem idle_cons {v : RuleVariable} {exception : RuleVariableException} :
    Idle targets (.except v exception :: edits) ↔ v ∉ variablesOf targets ∧ Idle targets edits := by
  have hnegated : negated (.except v exception :: edits) = v :: negated edits := rfl
  rw [idle_iff, idle_iff, hnegated, forall_mem_cons]

theorem variablesOf_except (v : RuleVariable) (exception : RuleVariableException)
    (targets : List RuleVariableParams) :
    variablesOf (targets.map (except v exception)) = variablesOf targets := by
  unfold variablesOf
  rw [map_map]
  refine map_congr_left (fun rv _ => ?_)
  simp only [comp_apply, except]
  split <;> rfl

theorem weight_except (v : RuleVariable) (exception : RuleVariableException)
    (targets : List RuleVariableParams) :
    weight (targets.map (except v exception))
      = weight targets + (variablesOf targets).count v := by
  induction targets with
  | nil => rfl
  | cons rv targets ih =>
    unfold weight variablesOf at ih ⊢
    simp only [map_cons, sum_cons, ih, except]
    by_cases h : rv.ruleVariable = v
    · simp [h]
      omega
    · simp [h]
      omega

/-- What a list of changes adds depends on the variables of the targets only. -/
theorem weight_applyEdits (edits : List TargetEdit) (l l' : List RuleVariableParams) :
    variablesOf l = variablesOf l' →
    weight (applyEdits l edits) + weight l' = weight (applyEdits l' edits) + weight l := by
  induction edits generalizing l l' with
  | nil => exact fun _ => Nat.add_comm ..
  | cons edit edits ih =>
    intro h
    cases edit with
    | add params =>
      have hstep : variablesOf (l ++ [params]) = variablesOf (l' ++ [params]) := by
        unfold variablesOf at h ⊢
        rw [map_append, map_append, h]
      have hrest := ih (l ++ [params]) (l' ++ [params]) hstep
      have hweight : ∀ l : List RuleVariableParams,
          weight (l ++ [params]) = weight l + params.exceptions.length := by
        intro l
        simp [weight]
      rw [hweight, hweight] at hrest
      show weight (applyEdits (l ++ [params]) edits) + weight l'
        = weight (applyEdits (l' ++ [params]) edits) + weight l
      omega
    | except v exception =>
      have hrest := ih (l.map (except v exception)) (l'.map (except v exception))
        (by rw [variablesOf_except, variablesOf_except, h])
      rw [weight_except, weight_except, h] at hrest
      show weight (applyEdits (l.map (except v exception)) edits) + weight l'
        = weight (applyEdits (l'.map (except v exception)) edits) + weight l
      omega

theorem length_applyEdits (edits : List TargetEdit) (l : List RuleVariableParams) :
    (applyEdits l edits).length = l.length + edits.countP isAddition := by
  induction edits generalizing l with
  | nil => rfl
  | cons edit edits ih =>
    refine (ih (edit.apply l)).trans ?_
    cases edit with
    | add params =>
      rw [countP_cons_of_pos rfl]
      simp only [TargetEdit.apply, length_append, length_singleton]
      omega
    | except v exception =>
      rw [countP_cons_of_neg Bool.false_ne_true]
      simp only [TargetEdit.apply, length_map]

theorem early_of_no_addition {edits : List TargetEdit} (n : Nat) :
    edits.countP isAddition = 0 → early n edits = edits := by
  induction edits generalizing n with
  | nil => exact fun _ => rfl
  | cons edit edits ih =>
    intro h
    cases edit with
    | add params =>
      rw [countP_cons_of_pos rfl] at h
      omega
    | except v exception =>
      rw [early, ih n h]

theorem countP_early (edits : List TargetEdit) (n : Nat) :
    (early n edits).countP isAddition = 0 := by
  induction edits generalizing n with
  | nil => rfl
  | cons edit edits ih =>
    cases edit with
    | add params =>
      cases n with
      | zero => rfl
      | succ n => exact ih n
    | except v exception =>
      exact ih n

/-- Changes without additions keep the variables; they do nothing if no target has a variable of
theirs, and otherwise there are more exceptions afterwards. -/
theorem applyEdits_exceptions (edits : List TargetEdit) (l : List RuleVariableParams) :
    edits.countP isAddition = 0 →
    variablesOf (applyEdits l edits) = variablesOf l ∧
      (Idle l edits → applyEdits l edits = l) ∧
      (¬Idle l edits → weight l < weight (applyEdits l edits)) ∧
      weight l ≤ weight (applyEdits l edits) := by
  induction edits generalizing l with
  | nil =>
    intro _
    refine ⟨rfl, fun _ => rfl, fun h => absurd (fun v hv => ?_) h, Nat.le_refl _⟩
    cases hv
  | cons edit edits ih =>
    intro h
    cases edit with
    | add params =>
      rw [countP_cons_of_pos rfl] at h
      omega
    | except v exception =>
      obtain ⟨hvariables, hidle, hbusy, hle⟩ :=
        ih (l.map (except v exception)) h
      rw [variablesOf_except] at hvariables
      rw [weight_except] at hbusy hle
      have hstep : applyEdits l (.except v exception :: edits)
          = applyEdits (l.map (except v exception)) edits := rfl
      rw [hstep]
      refine ⟨hvariables, fun hi => ?_, fun hi => ?_, by omega⟩
      · rw [idle_cons] at hi
        have hsame : l.map (except v exception) = l := by
          refine (map_congr_left (fun rv hrv => if_neg (fun h => hi.1 ?_))).trans (map_id l)
          exact List.mem_map.mpr ⟨rv, hrv, h⟩
        rw [hsame] at hidle ⊢
        exact hidle hi.2
      · rw [idle_cons] at hi
        by_cases hv : v ∈ variablesOf l
        · have hpos := List.count_pos_iff.mpr hv
          omega
        · have hrest : ¬Idle (l.map (except v exception)) edits := by
            rw [idle_iff, variablesOf_except, ← idle_iff]
            exact fun h => hi ⟨hv, h⟩
          have := hbusy hrest
          omega

theorem iterate_exceptions (h : edits.countP isAddition = 0) (l : List RuleVariableParams) :
    ∃ gain, (gain = 0 ↔ Idle l edits) ∧
      ∀ k, weight ((fun l => applyEdits l edits)^[k] l) = weight l + k * gain ∧
        variablesOf ((fun l => applyEdits l edits)^[k] l) = variablesOf l := by
  obtain ⟨-, hidle, hbusy, hle⟩ := applyEdits_exceptions edits l h
  refine ⟨weight (applyEdits l edits) - weight l, ?_, ?_⟩
  · constructor
    · intro hgain
      by_contra hi
      have := hbusy hi
      omega
    · intro hi
      rw [hidle hi, Nat.sub_self]
  · intro k
    induction k with
    | zero => exact ⟨by simp, rfl⟩
    | succ k ih =>
      obtain ⟨hweight, hvariables⟩ := ih
      rw [iterate_succ_apply']
      have hround := weight_applyEdits edits _ _ hvariables
      refine ⟨?_, (applyEdits_exceptions edits _ h).1.trans hvariables⟩
      rw [Nat.add_mul]
      omega

/-- **What a rule gets from a directive**: it takes part in `k` rounds over copies, and it is
perhaps the one that is updated itself. -/
theorem outcome_eq_iff (edits : List TargetEdit) (n k : Nat) (hit : Bool)
    (l : List RuleVariableParams) :
    (if hit then applyEdits ((fun l => applyEdits l (early n edits))^[k] l) edits
      else (fun l => applyEdits l (early n edits))^[k] l) = applyEdits l edits ↔
      if hit then k = 0 ∨ Idle l (early n edits)
      else edits.countP isAddition = 0 ∧ (k = 1 ∨ Idle l edits) := by
  obtain ⟨gain, hgain, hround⟩ := iterate_exceptions (countP_early edits n) l
  have hidle : Idle l (early n edits) → (fun l => applyEdits l (early n edits))^[k] l = l :=
    fun hi => iterate_fixed
      ((applyEdits_exceptions _ l (countP_early edits n)).2.1 hi) k
  obtain ⟨hweight, hvariables⟩ := hround k
  cases hit with
  | true =>
    simp only [if_true]
    constructor
    · intro h
      have hsame := weight_applyEdits edits _ _ hvariables
      rw [h] at hsame
      have hzero : k * gain = 0 := by omega
      rcases Nat.mul_eq_zero.mp hzero with hk | hg
      · exact .inl hk
      · exact .inr (hgain.mp hg)
    · rintro (rfl | hi)
      · rfl
      · rw [hidle hi]
  | false =>
    simp only [Bool.false_eq_true, if_false]
    constructor
    · intro h
      have hlength : edits.countP isAddition = 0 := by
        have hl := congrArg List.length h
        have hv := congrArg List.length hvariables
        unfold variablesOf at hv
        rw [length_map, length_map] at hv
        rw [length_applyEdits] at hl
        omega
      refine ⟨hlength, ?_⟩
      rw [early_of_no_addition n hlength] at *
      have hone := (hround 1).1
      rw [iterate_one] at hone
      rw [h] at hweight
      rcases Nat.eq_zero_or_pos gain with hg | hg
      · exact .inr (hgain.mp hg)
      · refine .inl (Nat.eq_of_mul_eq_mul_right hg ?_)
        omega
    · rintro ⟨hnone, hk⟩
      rw [early_of_no_addition n hnone] at *
      rcases hk with rfl | hi
      · rfl
      · rw [hidle hi, (applyEdits_exceptions _ l hnone).2.1 hi]

/-! ### The rules that a directive reaches -/

def rangesDone : List IDOrRange → List (Int × Int)
  | .range start stop :: rest => if start < stop then (start, stop) :: rangesDone rest else []
  | _ => []

def idDone : List IDOrRange → Option Int
  | .id id :: _ => some id
  | .range start stop :: rest =>
    if start = stop then some start else if start > stop then none else idDone rest
  | _ => none

/-- The number of rounds over copies in which a rule with this id takes part. -/
def rounds (specs : List IDOrRange) (id : Int) : Nat :=
  (rangesDone specs).countP (fun range => range.1 ≤ id ∧ id ≤ range.2)

def updatedItself (specs : List IDOrRange) (group : List StoredChain) (i : Nat) : Bool :=
  (idDone specs).any (fun id => group.findIdx? (fun c => c.id = id) = some i)

theorem getElem?_updateTargetBySingleID (edits : List TargetEdit) (id : Int)
    (group : List StoredChain) (i : Nat) :
    (updateTargetBySingleID grow edits id group).1[i]? = group[i]?.map (fun c =>
      if group.findIdx? (fun c => c.id = id) = some i then c.updateOwn grow edits else c) := by
  induction group generalizing i with
  | nil => rfl
  | cons c group ih =>
    unfold updateTargetBySingleID
    rw [List.findIdx?_cons]
    by_cases hc : c.id = id
    · cases i with
      | zero => simp [hc]
      | succ i => cases h : group[i]? <;> simp [hc]
    · cases i with
      | zero => simp [hc]
      | succ i =>
        simp only [hc, if_false, List.getElem?_cons_succ, decide_false]
        rw [ih i]
        simp

def copies (grow : Grow) (edits : List TargetEdit) (specs : List IDOrRange) (c : StoredChain) :
    StoredChain := (StoredChain.updateCopy grow edits)^[rounds specs c.id] c

theorem id_iterate (edits : List TargetEdit) (k : Nat) (c : StoredChain) :
    ((StoredChain.updateCopy grow edits)^[k] c).id = c.id := by
  induction k with
  | zero => rfl
  | succ k ih =>
    rw [iterate_succ_apply']
    exact ih

theorem updateTargetByID_eq (edits : List TargetEdit)
    (specs : List IDOrRange) (group : List StoredChain) :
    (updateTargetByID grow edits specs group).1 = match idDone specs with
      | some id => (updateTargetBySingleID grow edits id (group.map (copies grow edits specs))).1
      | none => group.map (copies grow edits specs) := by
  induction specs generalizing group with
  | nil => exact (map_id group).symm
  | cons spec specs ih =>
    cases spec with
    | invalid => exact (map_id group).symm
    | id id =>
      have hnone : group.map (copies grow edits (.id id :: specs)) = group := map_id group
      simp only [idDone, hnone, updateTargetByID]
    | range start stop =>
      have hnone : ¬start < stop →
          group.map (copies grow edits (.range start stop :: specs)) = group := by
        intro hle
        unfold copies rounds
        rw [rangesDone, if_neg hle]
        exact map_id group
      rcases Int.lt_trichotomy start stop with hlt | heq | hgt
      · have hranges : rangesDone (.range start stop :: specs)
            = (start, stop) :: rangesDone specs := by rw [rangesDone, if_pos hlt]
        have hdone : idDone (.range start stop :: specs) = idDone specs := by
          rw [idDone, if_neg (by omega), if_neg (by omega)]
        have hcopies : (updateTargetByRange grow edits start stop group).map
            (copies grow edits specs)
              = group.map (copies grow edits (.range start stop :: specs)) := by
          unfold updateTargetByRange
          rw [map_map]
          refine map_congr_left (fun c _ => ?_)
          unfold copies rounds
          rw [hranges, countP_cons]
          by_cases hc : start ≤ c.id ∧ c.id ≤ stop
          · have hid : (c.updateCopy grow edits).id = c.id := rfl
            simp only [comp_apply, hc, and_self, if_true]
            exact (iterate_succ_apply ..).symm
          · simp only [comp_apply, ge_iff_le, hc, if_false, decide_false,
              Bool.false_eq_true, Nat.add_zero]
        rw [updateTargetByID, if_neg (by omega), if_neg (by omega), ih, hdone, hcopies]
      · have hdone : idDone (.range start stop :: specs) = some start := by
          rw [idDone, if_pos heq]
        rw [updateTargetByID, if_pos heq, hdone, hnone (by omega)]
      · have hdone : idDone (.range start stop :: specs) = none := by
          rw [idDone, if_neg (by omega), if_pos (by omega)]
        rw [updateTargetByID, if_neg (by omega), if_pos (by omega), hdone, hnone (by omega)]

theorem getElem?_updateTargetByID (edits : List TargetEdit) (specs : List IDOrRange)
    (group : List StoredChain) (i : Nat) :
    (updateTargetByID grow edits specs group).1[i]? = group[i]?.map (fun c =>
      if updatedItself specs group i then (copies grow edits specs c).updateOwn grow edits
      else copies grow edits specs c) := by
  rw [updateTargetByID_eq]
  unfold updatedItself
  cases idDone specs with
  | none => simp
  | some id =>
    have hfind : (group.map (copies grow edits specs)).findIdx? (fun c => c.id = id)
        = group.findIdx? (fun c => c.id = id) := by
      rw [List.findIdx?_map]
      congr 1
      funext c
      simp only [comp_apply, copies, id_iterate]
    simp only [getElem?_updateTargetBySingleID, hfind, List.getElem?_map, Option.map_map,
      Option.any_some, decide_eq_true_eq]
    rfl

theorem chain_iterate (edits : List TargetEdit) (c : StoredChain) (k : Nat) :
    ((StoredChain.updateCopy grow edits)^[k] c).spare = c.spare ∧
      ((StoredChain.updateCopy grow edits)^[k] c).chain = withTargets c.chain
        ((fun l => applyEdits l (early c.spare edits))^[k] c.chain.starter.targets) := by
  induction k with
  | zero => exact ⟨rfl, rfl⟩
  | succ k ih =>
    obtain ⟨hspare, hchain⟩ := ih
    rw [iterate_succ_apply', iterate_succ_apply']
    refine ⟨(StoredChain.spare_updateCopy ..).trans hspare, ?_⟩
    rw [StoredChain.targets_updateCopy, hspare, hchain]
    rfl

/-! ### Exact updates -/

/-- A list of targets that `ParseVariables` accepts. -/
structure AcceptedTargets (compile : Compile) where
  targets : List Target
  edits : List TargetEdit
  accepted : targetEdits compile targets = some edits

/-- A rule for which the list of targets was parsed once, and alone. -/
def retargeted (edits : List TargetEdit) (c : RuleChain) : RuleChain :=
  withTargets c (applyEdits c.starter.targets edits)

theorem withTargets_eq_retargeted {c : RuleChain} :
    withTargets c targets = retargeted edits c ↔ targets = applyEdits c.starter.targets edits := by
  constructor
  · intro h
    exact congrArg (fun c => c.starter.targets) h
  · rintro rfl
    rfl

def Listed (specs : List IDOrRange) (c : StoredChain) : Prop :=
  specs.any (IDOrRange.covers c.id) = true

instance (specs : List IDOrRange) (c : StoredChain) : Decidable (Listed specs c) :=
  inferInstanceAs (Decidable (_ = true))

/-- The loop gets to a listed rule as it should.  One that is updated itself has not been changed
through copies before; one that is not is in one range that the loop gets to, and the list has
exceptions only. -/
def ReachedByID (edits : List TargetEdit) (specs : List IDOrRange) (group : List StoredChain)
    (i : Nat) (c : StoredChain) : Prop :=
  if updatedItself specs group i then
    rounds specs c.id = 0 ∨ Idle c.chain.starter.targets (early c.spare edits)
  else edits.countP isAddition = 0 ∧ (rounds specs c.id = 1 ∨ Idle c.chain.starter.targets edits)

theorem any_covers_of_rounds {specs : List IDOrRange} {id : Int} : rounds specs id ≠ 0 →
    specs.any (IDOrRange.covers id) = true := by
  induction specs with
  | nil => exact fun h => absurd rfl h
  | cons spec specs ih =>
    intro h
    cases spec with
    | invalid => exact absurd rfl h
    | id i => exact absurd rfl h
    | range start stop =>
      rw [any_cons, Bool.or_eq_true]
      unfold rounds rangesDone at h
      split at h
      · rw [countP_cons] at h
        by_cases hid : start ≤ id ∧ id ≤ stop
        · exact .inl (by simpa [IDOrRange.covers] using hid)
        · refine .inr (ih ?_)
          unfold rounds
          simpa only [hid, decide_false, Bool.false_eq_true, if_false, Nat.add_zero] using h
      · exact absurd rfl h

theorem any_covers_of_idDone {specs : List IDOrRange} {id : Int} : idDone specs = some id →
    specs.any (IDOrRange.covers id) = true := by
  induction specs with
  | nil => exact fun h => nomatch h
  | cons spec specs ih =>
    intro h
    rw [any_cons, Bool.or_eq_true]
    cases spec with
    | invalid => cases h
    | id i =>
      cases h
      exact .inl (by simp [IDOrRange.covers])
    | range start stop =>
      unfold idDone at h
      split at h
      · rename_i heq
        cases h
        exact .inl (by simp [IDOrRange.covers, heq])
      · split at h
        · cases h
        · exact .inr (ih h)

theorem listed_of_updatedItself {specs : List IDOrRange} {group : List StoredChain} {i : Nat}
    {c : StoredChain} (hc : group[i]? = some c) (h : updatedItself specs group i = true) :
    Listed specs c := by
  obtain ⟨id, hid, hfind⟩ := (Option.any_eq_true ..).mp h
  have hmatch := List.findIdx?_eq_some_iff_getElem.mp (of_decide_eq_true hfind)
  obtain ⟨hi, hci, -⟩ := hmatch
  rw [List.getElem?_eq_getElem hi] at hc
  cases hc
  unfold Listed
  rw [of_decide_eq_true hci]
  exact any_covers_of_idDone hid

/-- What the directive leaves at a position is what it should, for a rule that is listed. -/
theorem outcome_iff (edits : List TargetEdit) (specs : List IDOrRange)
    (group : List StoredChain) (i : Nat) (c : StoredChain) :
    (if updatedItself specs group i then (copies grow edits specs c).updateOwn grow edits
      else copies grow edits specs c).chain = retargeted edits c.chain ↔
      ReachedByID edits specs group i c := by
  have hcopies : (copies grow edits specs c).chain = withTargets c.chain
      ((fun l => applyEdits l (early c.spare edits))^[rounds specs c.id] c.chain.starter.targets) :=
    (chain_iterate grow edits c (rounds specs c.id)).2
  have houtcome := outcome_eq_iff edits c.spare (rounds specs c.id) (updatedItself specs group i)
    c.chain.starter.targets
  unfold ReachedByID
  rw [← houtcome]
  cases updatedItself specs group i with
  | true =>
    simp only [if_true]
    rw [StoredChain.targets_updateOwn, hcopies]
    exact withTargets_eq_retargeted (c := c.chain)
  | false =>
    simp only [Bool.false_eq_true, if_false]
    rw [hcopies]
    exact withTargets_eq_retargeted

theorem updateTargetByID_exact_iff (edits : List TargetEdit)
    (group : List StoredChain) (specs : List IDOrRange) :
    (updateTargetByID grow edits specs group).1.map StoredChain.chain
        = group.map (fun c => if Listed specs c then retargeted edits c.chain else c.chain) ↔
      ∀ i c, group[i]? = some c → Listed specs c → ReachedByID edits specs group i c := by
  rw [List.ext_getElem?_iff]
  refine forall_congr' (fun i => ?_)
  rw [List.getElem?_map, List.getElem?_map, getElem?_updateTargetByID]
  cases hc : group[i]? with
  | none => simp
  | some c =>
    simp only [Option.map_some, Option.some.injEq, forall_eq']
    by_cases hlisted : Listed specs c
    · rw [if_pos hlisted, outcome_iff]
      exact ⟨fun h _ => h, fun h => h hlisted⟩
    · have hitself : updatedItself specs group i = false :=
        eq_false_of_ne_true (fun h => hlisted (listed_of_updatedItself hc h))
      have hrounds : rounds specs c.id = 0 := by
        by_contra h
        exact hlisted (any_covers_of_rounds h)
      have hcopies : copies grow edits specs c = c := by
        unfold copies
        rw [hrounds]
        rfl
      rw [if_neg hlisted, hitself, hcopies]
      exact iff_of_true rfl (fun h => absurd h hlisted)

theorem updateTargetByTag_exact_iff (edits : List TargetEdit)
    (group : List StoredChain) (tag : Bytes) :
    (updateTargetByTag grow edits tag group).map StoredChain.chain
        = group.map (fun c =>
            if tag ∈ c.chain.starter.tags then retargeted edits c.chain else c.chain) ↔
      edits.countP isAddition = 0 ∨ ∀ c ∈ group, tag ∉ c.chain.starter.tags := by
  unfold updateTargetByTag
  rw [map_map, map_inj_left]
  have hone : ∀ c : StoredChain, (c.updateCopy grow edits).chain = retargeted edits c.chain ↔
      edits.countP isAddition = 0 := by
    intro c
    have houtcome := outcome_eq_iff edits c.spare 1 false c.chain.starter.targets
    simp only [Bool.false_eq_true, if_false, true_or, and_true] at houtcome
    rw [← houtcome, StoredChain.targets_updateCopy]
    exact withTargets_eq_retargeted
  constructor
  · intro h
    by_contra hcon
    push Not at hcon
    obtain ⟨hadds, c, hc, htag⟩ := hcon
    have heq := h c hc
    simp only [comp_apply, htag] at heq
    exact hadds ((hone c).mp heq)
  · rintro (hadds | hnone) c hc
    · by_cases htag : tag ∈ c.chain.starter.tags
      · simp only [comp_apply, htag]
        exact (hone c).mpr hadds
      · simp only [comp_apply, htag, if_false]
    · simp only [comp_apply, hnone c hc, if_false]

/-- **When updates of targets are exact**, by ids and ranges and by a tag. -/
theorem updateTarget_exact_iff {compile : Compile} (t : AcceptedTargets compile) (grow : Grow)
    (group : List StoredChain) :
    (∀ specs : List IDOrRange,
      (updateTargetByID grow t.edits specs group).1.map StoredChain.chain
          = group.map (fun c => if Listed specs c then retargeted t.edits c.chain else c.chain) ↔
        ∀ i c, group[i]? = some c → Listed specs c → ReachedByID t.edits specs group i c) ∧
    ∀ tag : Bytes,
      (updateTargetByTag grow t.edits tag group).map StoredChain.chain
          = group.map (fun c =>
              if tag ∈ c.chain.starter.tags then retargeted t.edits c.chain else c.chain) ↔
        t.edits.countP isAddition = 0 ∨ ∀ c ∈ group, tag ∉ c.chain.starter.tags :=
  ⟨updateTargetByID_exact_iff grow t.edits group, updateTargetByTag_exact_iff grow t.edits group⟩

def argsRule (id : Int) : StoredChain where
  chain.starter := { Rule.new with
    id
    tags := [bytesOf "attack"]
    targets := [newRuleVariableParams .args [] none false] }
  chain.members := []
  slice := Slice.ofList [newRuleVariableParams .args [] none false] []
  view_slice := Slice.view_ofList ..

def headersTarget : AcceptedTargets (fun _ => none) where
  targets := [⟨false, false, .requestHeaders, []⟩]
  edits := [.add (newRuleVariableParams .requestHeaders [] none false)]
  accepted := rfl

def targetCounts (group : List RuleChain) : List Nat :=
  group.map (fun c => c.starter.targets.length)

/-- **Updates get lost.**  `SecRuleUpdateTargetById 1 2 "REQUEST_HEADERS"` updates one rule only,
`SecRuleUpdateTargetById 1-2 "REQUEST_HEADERS"` and the update by a tag none. -/
theorem updateTarget_lost : (∀ specs ∈ [[IDOrRange.id 1, .id 2], [.range 1 2]],
      (updateTargetByID (fun _ => []) headersTarget.edits specs [argsRule 1, argsRule 2]).1.map
          StoredChain.chain
        ≠ [argsRule 1, argsRule 2].map (fun c =>
            if Listed specs c then retargeted headersTarget.edits c.chain else c.chain)) ∧
    (updateTargetByTag (fun _ => []) headersTarget.edits (bytesOf "attack")
        [argsRule 1, argsRule 2]).map StoredChain.chain
      ≠ [argsRule 1, argsRule 2].map (fun c => if bytesOf "attack" ∈ c.chain.starter.tags
          then retargeted headersTarget.edits c.chain else c.chain) := by
  have hcounts : ∀ group group' : List RuleChain,
      targetCounts group ≠ targetCounts group' → group ≠ group' :=
    fun _ _ hne h => hne (congrArg targetCounts h)
  refine ⟨?_, hcounts _ _ (by decide +kernel)⟩
  intro specs hspecs
  rcases List.mem_cons.mp hspecs with rfl | hspecs
  · exact hcounts _ _ (by decide +kernel)
  · rw [List.mem_singleton.mp hspecs]
    exact hcounts _ _ (by decide +kernel)

end Coraza.Seclang
