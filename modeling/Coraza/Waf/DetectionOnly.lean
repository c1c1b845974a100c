import Coraza.Seclang.RuleParser
import Coraza.Waf.ActionSteps
import Coraza.Waf.CallSteps
import Coraza.Waf.Unobserved

/-!
# What detection-only mode predicts

In detection-only mode an interruption is recorded and not enforced.  `dryRun` turns a
transaction of the enforcing run into that of the detection-only run, and the evaluation of
a chain commutes with it, as long as the actions that are executed all give the same
interruption: another one replaces the first in the enforcing run and is dropped in the
other.  `Predictable` is the condition on a chain for that.

The two runs are thus in lock step up to the first interruption.  From then on the enforcing
run is stopped, and the other one is `Frozen`: it keeps the recorded interruption and only
adds to the matched rules.  `Sim` is the relation between the two transactions, each call
keeps it, and `detectionOnly_predicts` is what it says at the end.
-/

namespace Coraza.Waf

open Go Collections Seclang List RuleGroup Transaction BodySide

/-! ### Actions -/

/-- The actions that behave differently in the two modes or change the mode. -/
def Action.modal : Action → Bool
  | .allow _ | .ctl (.ruleEngine _) => true
  | _ => false

/-- The fields of a transaction in which the two runs differ. -/
structure Verdict where
  ruleEngine : RuleEngineStatus
  interruption : Option Interruption
  detectionOnlyInterruption : Option Interruption
  matchedRules : List MatchedRule

def Transaction.verdict (tx : Transaction) : Verdict :=
  ⟨tx.ruleEngine, tx.interruption, tx.detectionOnlyInterruption, tx.matchedRules⟩

def Transaction.withVerdict (o : Verdict) (tx : Transaction) : Transaction :=
  { tx with
    ruleEngine := o.ruleEngine
    interruption := o.interruption
    detectionOnlyInterruption := o.detectionOnlyInterruption
    matchedRules := o.matchedRules }

variable (labels : List RuleLabel)

theorem ctl_withVerdict (o : Verdict) {c : Ctl}
    (h : (Action.ctl c).modal = false) (tx : Transaction) :
    (c.evaluate labels tx).withVerdict o = c.evaluate labels (tx.withVerdict o) := by
  unfold Ctl.evaluate
  split
  any_goals rfl
  any_goals cases h
  any_goals exact apply_ite (withVerdict o) _ _ _
  all_goals
    refine (foldl_hom (withVerdict o) ?_).symm
    exact fun _ _ => rfl

variable {a : Action} {i : Interruption} {tx tx' : Transaction} {c : RuleChain} {ids : List Int}

/-- An action that neither interrupts nor depends on the mode does not see the verdict. -/
theorem action_withVerdict (o : Verdict) (r : Rule)
    (hint : a.interruption r = none) (hmodal : a.modal = false) (tx : Transaction) :
    (a.evaluate labels r tx).withVerdict o = a.evaluate labels r (tx.withVerdict o) := by
  unfold Action.evaluate
  split
  any_goals rfl
  any_goals cases hint
  any_goals cases hmodal
  exact ctl_withVerdict labels o hmodal tx

theorem action_verdict (r : Rule) (hint : a.interruption r = none)
    (hmodal : a.modal = false) (tx : Transaction) :
    (a.evaluate labels r tx).verdict = tx.verdict := by
  have h := action_withVerdict labels tx.verdict r hint hmodal tx
  exact (congrArg verdict h).symm

theorem unobserved_withVerdict {rules : List Rule}
    (h : ∀ r ∈ rules, ∀ a ∈ r.actions, a.modal = false) (o : Verdict) :
    Unobserved labels rules (withVerdict o) where
  vars := fun _ => rfl
  asked := fun _ => rfl
  capture := fun _ => rfl
  lastPhase := fun _ => rfl
  ruleRemoveTargetByID := fun _ => rfl
  setVars := fun _ _ => rfl
  setAsked := fun _ _ => rfl
  setCapture := fun _ _ => rfl
  action := by
    intro r hr a ha htype tx
    refine action_withVerdict labels o r ?_ (h r hr a ha) tx
    cases a <;> first | rfl | cases htype

/-! ### The transaction of the other run -/

def MatchedRule.dry (mr : MatchedRule) : MatchedRule := { mr with disruptive := false }

def Verdict.dry (o : Verdict) : Verdict :=
  ⟨.detectionOnly, none, o.interruption, o.matchedRules.map MatchedRule.dry⟩

/-- The transaction of the detection-only run that corresponds to one of the enforcing run. -/
def dryRun (tx : Transaction) : Transaction := tx.withVerdict tx.verdict.dry

/-- The enforcing run in front of the interruption `i`, and after it. -/
structure Enforcing (i : Interruption) (tx : Transaction) : Prop where
  ruleEngine : tx.ruleEngine = .on
  detectionOnlyInterruption : tx.detectionOnlyInterruption = none
  interruption : tx.interruption = none ∨ tx.interruption = some i

theorem Enforcing.of_verdict (h : Enforcing i tx) (heq : tx'.verdict = tx.verdict) :
    Enforcing i tx' where
  ruleEngine := (congrArg Verdict.ruleEngine heq).trans h.ruleEngine
  detectionOnlyInterruption :=
    (congrArg Verdict.detectionOnlyInterruption heq).trans h.detectionOnlyInterruption
  interruption := (show tx'.interruption = tx.interruption from
    congrArg Verdict.interruption heq) ▸ h.interruption

/-- The first interruption is recorded where the other run enforces it, and the same one
changes neither. -/
theorem interrupt_dryRun (h : Enforcing i tx) :
    (dryRun tx).interrupt i = dryRun (tx.interrupt i) ∧ Enforcing i (tx.interrupt i) := by
  unfold interrupt
  rw [h.ruleEngine]
  refine ⟨?_, ⟨rfl, h.detectionOnlyInterruption, .inr rfl⟩⟩
  show (if tx.interruption.isNone then _ else _) = _
  rcases h.interruption with hint | hint
  · rw [hint]
    rfl
  · rw [hint]
    unfold dryRun withVerdict verdict Verdict.dry
    rw [hint]
    rfl

theorem action_dryRun {r : Rule}
    (hone : ∀ i', a.interruption r = some i' → i' = i) (hmodal : a.modal = false)
    (htx : Enforcing i tx) :
    a.evaluate labels r (dryRun tx) = dryRun (a.evaluate labels r tx) ∧
      Enforcing i (a.evaluate labels r tx) := by
  cases hint : a.interruption r with
  | none =>
    refine ⟨?_, htx.of_verdict (action_verdict labels r hint hmodal tx)⟩
    unfold dryRun
    rw [action_verdict labels r hint hmodal, action_withVerdict labels _ r hint hmodal]
  | some i' =>
    rw [evaluate_of_interruption labels hint, evaluate_of_interruption labels hint, hone i' hint]
    exact interrupt_dryRun htx

/-- The interruptions that the evaluation of a rule can lead to.  Only a rule that has no
parent executes its final actions. -/
def Rule.interruptions (r : Rule) : List Interruption :=
  if r.parentID = noID then r.actions.filterMap (Action.interruption r) else []

theorem mem_interruptions {r : Rule} (hparent : r.parentID = noID) (ha : a ∈ r.actions)
    (h : a.interruption r = some i) : i ∈ r.interruptions := by
  unfold Rule.interruptions
  rw [if_pos hparent]
  exact List.mem_filterMap.mpr ⟨a, ha, h⟩

/-! ### Rules -/

section

variable (env : RuleEnv) {rules : List Rule}
  (hmodal : ∀ r ∈ rules, ∀ a ∈ r.actions, a.modal = false)

theorem matchRule_dryRun (r : Rule) (tx : Transaction) (mds : List MatchData) :
    r.matchRule (dryRun tx) mds = dryRun (r.matchRule tx mds) := by
  unfold dryRun Rule.matchRule withVerdict verdict Verdict.dry
  simp [MatchedRule.dry]

variable {r : Rule} {i : Interruption}

/-- The loop over the final actions, which all give the same interruption. -/
theorem finalFold_dryRun (following : Nat) (as : List (Action × Nat)) :
    (∀ a ∈ as, a.1.modal = false ∧ ∀ i', a.1.interruption r = some i' → i' = i) →
    ∀ (tx : Transaction), Enforcing i tx →
      as.foldl (r.finalAction labels following) (dryRun tx)
          = dryRun (as.foldl (r.finalAction labels following) tx) ∧
        Enforcing i (as.foldl (r.finalAction labels following) tx) := by
  induction as with
  | nil => exact fun _ tx h => ⟨rfl, h⟩
  | cons a as ih =>
    intro has tx htx
    obtain ⟨hm, hone⟩ := has a (mem_cons_self ..)
    obtain ⟨hdry, henf⟩ := action_dryRun labels hone hm htx
    have hround : r.finalAction labels following (dryRun tx) a
          = dryRun (r.finalAction labels following tx a) ∧
        Enforcing i (r.finalAction labels following tx a) := by
      unfold Rule.finalAction
      split
      · rw [hdry]
        exact ⟨rfl, henf.of_verdict rfl⟩
      · exact ⟨rfl, htx⟩
    rw [foldl_cons, hround.1]
    exact ih (fun b hb => has b (mem_cons_of_mem _ hb)) _ hround.2

include hmodal

theorem test_verdict (hr : r ∈ rules) (level : Nat) (tx : Transaction) :
    (r.test env level tx).1.verdict = tx.verdict := by
  have h := (unobserved_withVerdict env.labels hmodal tx.verdict).test hr level tx
  exact congrArg (fun out => out.1.verdict) h

theorem test_dryRun (hr : r ∈ rules) (level : Nat) (tx : Transaction) :
    r.test env level (dryRun tx) = (dryRun (r.test env level tx).1, (r.test env level tx).2) := by
  have h := (unobserved_withVerdict env.labels hmodal tx.verdict.dry).test hr level tx
  unfold dryRun
  rw [test_verdict env hmodal hr]
  exact h

theorem conclude_dryRun (hr : r ∈ rules) (hparent : r.parentID = noID)
    (hone : ∀ i' ∈ r.interruptions, i' = i) (following : Nat) {tx : Transaction}
    (htx : Enforcing i tx) (mds : List MatchData) :
    r.conclude env.labels following (dryRun tx) mds
        = (dryRun (r.conclude env.labels following tx mds).1,
          (r.conclude env.labels following tx mds).2) ∧
      Enforcing i (r.conclude env.labels following tx mds).1 := by
  obtain ⟨hfold, henf⟩ := finalFold_dryRun env.labels following r.actions.zipIdx
    (fun a ha => ⟨hmodal r hr a.1 (fst_mem_of_mem_zipIdx ha), fun i' h =>
      hone i' (mem_interruptions hparent (fst_mem_of_mem_zipIdx ha) h)⟩) tx htx
  have hvars : (dryRun tx).vars = tx.vars := rfl
  unfold Rule.conclude Rule.finalActions
  dsimp only
  rw [hfold, matchRule_dryRun]
  split
  · exact ⟨rfl, ⟨henf.ruleEngine, henf.detectionOnlyInterruption, henf.interruption⟩⟩
  · exact ⟨rfl, henf⟩

def LoopDry (i : Interruption)
    (loop : Nat → Transaction → Transaction × Option (List MatchData)) : Prop :=
  ∀ level tx, Enforcing i tx →
    loop level (dryRun tx) = (dryRun (loop level tx).1, (loop level tx).2) ∧
      Enforcing i (loop level tx).1

theorem doEvaluateWith_dryRun (hr : r ∈ rules) (hone : ∀ i' ∈ r.interruptions, i' = i)
    {loop : Nat → Transaction → Transaction × Option (List MatchData)} (hloop : LoopDry i loop)
    (following level : Nat) {tx : Transaction} (htx : Enforcing i tx) :
    r.doEvaluateWith env loop following level (dryRun tx)
        = (dryRun (r.doEvaluateWith env loop following level tx).1,
          (r.doEvaluateWith env loop following level tx).2) ∧
      Enforcing i (r.doEvaluateWith env loop following level tx).1 := by
  have hout := test_verdict env hmodal hr level tx
  unfold Rule.doEvaluateWith
  rw [test_dryRun env hmodal hr]
  generalize r.test env level tx = out at hout ⊢
  obtain ⟨tx₁, mds⟩ := out
  dsimp only at hout ⊢
  have henf₁ : Enforcing i { tx₁ with
      steps := tx₁.steps ++ [.tested following (!mds.isEmpty)] } := htx.of_verdict hout
  split
  · exact ⟨rfl, henf₁⟩
  · split
    · rename_i hparent
      obtain ⟨hdry, henf₂⟩ := hloop level _ henf₁
      have hstart : ({ dryRun tx₁ with
            steps := (dryRun tx₁).steps ++ [.tested following (!mds.isEmpty)] } : Transaction)
          = dryRun { tx₁ with
            steps := tx₁.steps ++ [.tested following (!mds.isEmpty)] } := rfl
      rw [hstart, hdry]
      generalize loop level _ = out at henf₂ ⊢
      obtain ⟨tx₂, _ | chained⟩ := out
      · exact ⟨rfl, henf₂⟩
      · exact conclude_dryRun env hmodal hr hparent hone following henf₂ (mds ++ chained)
    · exact ⟨rfl, henf₁⟩

theorem membersLoop_dryRun (members : List Rule) :
    (∀ m ∈ members, m ∈ rules) → (∀ m ∈ members, ∀ i' ∈ m.interruptions, i' = i) →
    LoopDry i (membersLoop env members) := by
  induction members with
  | nil => exact fun _ _ level tx htx => ⟨rfl, htx⟩
  | cons m rest ih =>
    intro hmem hone level tx htx
    have hloop := ih (fun r hr => hmem r (mem_cons_of_mem _ hr))
      (fun r hr => hone r (mem_cons_of_mem _ hr))
    obtain ⟨hdry, henf⟩ := doEvaluateWith_dryRun env hmodal (hmem m (mem_cons_self ..))
      (hone m (mem_cons_self ..)) hloop rest.length (level + 1) htx
    unfold membersLoop
    rw [hdry]
    generalize m.doEvaluateWith env _ _ _ tx = out at henf ⊢
    obtain ⟨tx₁, mds⟩ := out
    dsimp only at henf ⊢
    split
    · exact ⟨rfl, henf⟩
    · obtain ⟨hdry₂, henf₂⟩ := hloop (level + 1) tx₁ henf
      rw [hdry₂]
      generalize membersLoop env rest (level + 1) tx₁ = out at henf₂ ⊢
      obtain ⟨tx₂, _ | chained⟩ := out <;> exact ⟨rfl, henf₂⟩

end

def RuleChain.interruptions (c : RuleChain) : List Interruption :=
  (c.starter :: c.members).flatMap Rule.interruptions

/-- **A chain whose interruptions are all the same.** -/
def Predictable (c : RuleChain) : Prop :=
  ∀ i ∈ c.interruptions, ∀ i' ∈ c.interruptions, i' = i

instance (c : RuleChain) : Decidable (Predictable c) :=
  inferInstanceAs (Decidable (∀ i ∈ c.interruptions, ∀ i' ∈ c.interruptions, i' = i))

/-- A parsed chain whose starter has an id is predictable: its members do not execute their
final actions, and the starter has one disruptive action. -/
theorem predictable_of_id (h : WellLinked c) (hid : c.starter.id ≠ noID) : Predictable c := by
  have hmembers : c.members.flatMap Rule.interruptions = [] := by
    refine List.flatMap_eq_nil_iff.mpr (fun m hm => ?_)
    unfold Rule.interruptions
    rw [if_neg (fun hparent => hid ((h.members m hm).symm.trans hparent))]
  have hone : c.starter.interruptions.length ≤ 1 := by
    refine le_trans ?_ (h.oneDisruptive _ (mem_cons_self ..))
    unfold Rule.interruptions disruptiveCount
    rw [if_pos h.starter, length_filterMap_eq_countP]
    exact countP_mono_left (fun a _ ha => by cases a <;> first | rfl | cases ha)
  have hall : c.interruptions = c.starter.interruptions := by
    unfold RuleChain.interruptions
    rw [flatMap_cons, hmembers, append_nil]
  intro i hi i' hi'
  rw [hall] at hi hi'
  match c.starter.interruptions, hone, hi, hi' with
  | [j], _, hi, hi' => exact (List.mem_singleton.mp hi').trans (List.mem_singleton.mp hi).symm

structure Running (tx : Transaction) : Prop where
  ruleEngine : tx.ruleEngine = .on
  detectionOnlyInterruption : tx.detectionOnlyInterruption = none
  interruption : tx.interruption = none

theorem Running.of_verdict (htx : Running tx) (h : tx'.verdict = tx.verdict) : Running tx' where
  ruleEngine := (congrArg Verdict.ruleEngine h).trans htx.ruleEngine
  detectionOnlyInterruption :=
    (congrArg Verdict.detectionOnlyInterruption h).trans htx.detectionOnlyInterruption
  interruption := (congrArg Verdict.interruption h).trans htx.interruption

theorem Running.isRuleEngineOff (htx : Running tx) :
    (dryRun tx).isRuleEngineOff = tx.isRuleEngineOff := by
  unfold Transaction.isRuleEngineOff
  rw [htx.ruleEngine]
  rfl

theorem Running.isInterrupted (htx : Running tx) :
    (dryRun tx).isInterrupted = tx.isInterrupted := by
  unfold Transaction.isInterrupted
  rw [htx.interruption]
  rfl

theorem evaluate_dryRun (env : RuleEnv) (hc : Predictable c)
    (hmodal : ∀ r ∈ c.starter :: c.members, ∀ a ∈ r.actions, a.modal = false) (htx : Running tx) :
    c.evaluate env (dryRun tx) = dryRun (c.evaluate env tx) ∧
      ∃ i, Enforcing i (c.evaluate env tx) := by
  obtain ⟨i, hi⟩ : ∃ i, ∀ i' ∈ c.interruptions, i' = i := by
    cases h : c.interruptions with
    | nil => exact ⟨⟨0, .deny, 0, []⟩, fun _ hi => nomatch hi⟩
    | cons i is => exact ⟨i, fun i' hi' => hc i (h ▸ mem_cons_self ..) i' (h ▸ hi')⟩
  have hone : ∀ r ∈ c.starter :: c.members, ∀ i' ∈ r.interruptions, i' = i := fun r hr i' hi' =>
    hi i' (List.mem_flatMap.mpr ⟨r, hr, hi'⟩)
  have hloop := membersLoop_dryRun env hmodal c.members
    (fun m hm => mem_cons_of_mem _ hm) (fun m hm => hone m (mem_cons_of_mem _ hm))
  obtain ⟨hdry, henf⟩ := doEvaluateWith_dryRun env hmodal (mem_cons_self ..)
    (hone _ (mem_cons_self ..)) hloop c.members.length 0
    ⟨htx.ruleEngine, htx.detectionOnlyInterruption, .inl htx.interruption⟩
  exact ⟨congrArg Prod.fst hdry, i, henf⟩

theorem evaluateRule_dryRun (env : RuleEnv) (hc : Predictable c)
    (hmodal : ∀ r ∈ c.starter :: c.members, ∀ a ∈ r.actions, a.modal = false) (htx : Running tx) :
    evaluateRule env c (dryRun tx) = dryRun (evaluateRule env c tx) ∧
      ∃ i, Enforcing i (evaluateRule env c tx) := by
  have hreset : resetMatchedVars (dryRun tx) = dryRun (resetMatchedVars tx) ∧
      (resetMatchedVars tx).verdict = tx.verdict := by
    unfold resetMatchedVars
    show (if (tx.vars.map .matchedVars).len > 0 then _ else _) = _ ∧ _
    split <;> exact ⟨rfl, rfl⟩
  obtain ⟨hdry, i, henf⟩ := evaluate_dryRun env hc hmodal (htx.of_verdict hreset.2)
  unfold evaluateRule
  rw [hreset.1, hdry]
  exact ⟨rfl, i, henf.of_verdict rfl⟩

/-! ### Phases -/

/-- What is decided about a rule, in the other run. -/
def Visit.dry : Visit → Visit
  | .stop tx => .stop (dryRun tx)
  | .next tx => .next (dryRun tx)
  | .evaluate => .evaluate

theorem visitAllow_dryRun (phase : Nat) (tx : Transaction) :
    visitAllow phase (dryRun tx) = (visitAllow phase tx).dry := by
  have hallow : (dryRun tx).allowType = tx.allowType := rfl
  unfold visitAllow
  rw [hallow]
  split
  · rfl
  · rfl
  · split_ifs <;> rfl
  · rfl

theorem visit_dryRun (phase : Nat) (r : Rule) (htx : Running tx) :
    visit phase r (dryRun tx) = (visit phase r tx).dry := by
  have hids : (dryRun tx).ruleRemoveByID = tx.ruleRemoveByID := rfl
  have hranges : (dryRun tx).ruleRemoveByIDRanges = tx.ruleRemoveByIDRanges := rfl
  have hafter : (dryRun tx).skipAfter = tx.skipAfter := rfl
  have hskip : (dryRun tx).skip = tx.skip := rfl
  unfold visit
  rw [htx.isInterrupted, hids, hranges, hafter, hskip, visitAllow_dryRun]
  split_ifs <;> rfl

theorem visit_verdict (phase : Nat) (r : Rule) (tx : Transaction) :
    ((visit phase r tx).after tx).verdict = tx.verdict := by
  unfold visit visitAllow
  split_ifs <;> first | rfl | (split <;> rfl)

/-- The other run after the first interruption `i`, when the rules `ids` had matched. -/
structure Frozen (i : Interruption) (ids : List Int) (tx : Transaction) : Prop where
  ruleEngine : tx.ruleEngine = .detectionOnly
  detectionOnlyInterruption : tx.detectionOnlyInterruption = some i
  matchedRules : ids <+: tx.matchedRules.map MatchedRule.ruleID

/-- **The relation between the two runs.** -/
inductive Sim : Transaction → Transaction → Prop where
  | same {tx : Transaction} (htx : Running tx) : Sim tx (dryRun tx)
  | stopped {tx tx' : Transaction} {i : Interruption} (hint : tx.interruption = some i)
      (h : Frozen i (tx.matchedRules.map MatchedRule.ruleID) tx') : Sim tx tx'

theorem frozen_interrupt (h : Frozen i ids tx) (i' : Interruption) : tx.interrupt i' = tx := by
  unfold interrupt
  rw [h.ruleEngine, h.detectionOnlyInterruption]
  rfl

theorem Frozen.of_verdict (h : Frozen i ids tx) (heq : tx'.verdict = tx.verdict) :
    Frozen i ids tx' where
  ruleEngine := (congrArg Verdict.ruleEngine heq).trans h.ruleEngine
  detectionOnlyInterruption :=
    (congrArg Verdict.detectionOnlyInterruption heq).trans h.detectionOnlyInterruption
  matchedRules := by
    rw [show tx'.matchedRules = tx.matchedRules from congrArg Verdict.matchedRules heq]
    exact h.matchedRules

/-- The other run is frozen once the enforcing run is interrupted. -/
theorem frozen_dryRun (hint : tx.interruption = some i) :
    Frozen i (tx.matchedRules.map MatchedRule.ruleID) (dryRun tx) where
  ruleEngine := rfl
  detectionOnlyInterruption := hint
  matchedRules := by
    show _ <+: (tx.matchedRules.map MatchedRule.dry).map MatchedRule.ruleID
    rw [map_map]
    exact prefix_refl _

/-- What the evaluation of rules does to a frozen run. -/
theorem Frozen.step {labels : List RuleLabel} {rules : List Rule}
    (hmodal : ∀ r ∈ rules, ∀ a ∈ r.actions, a.modal = false)
    (hstep : EvalStep labels rules tx tx') (h : Frozen i ids tx) : Frozen i ids tx' := by
  cases hstep with
  | rule hstep =>
    cases hstep with
    | @action r hr a ha =>
      cases hint : a.interruption r with
      | none => exact h.of_verdict (action_verdict labels r hint (hmodal r hr a ha) tx)
      | some i' =>
        rw [evaluate_of_interruption labels hint, frozen_interrupt h]
        exact h
    | @matched r hr mds =>
      refine ⟨h.ruleEngine, h.detectionOnlyInterruption, h.matchedRules.trans ?_⟩
      show _ <+: (tx.matchedRules ++ _).map MatchedRule.ruleID
      rw [map_append]
      exact prefix_append ..
    | _ => exact h.of_verdict rfl
  | _ => exact h.of_verdict rfl

section

variable (env : RuleEnv) {rg : RuleGroup}
  (hrg : ∀ c ∈ rg, c.starter.phase ≠ phaseLogging → Predictable c)
  (hmodal : ∀ r ∈ rg.rules, ∀ a ∈ r.actions, a.modal = false)

variable {phase : Nat} {tx : Transaction}

include hrg hmodal

/-- **The loop over the rules.** -/
theorem evalLoop_sim (hphase : phase ≠ phaseLogging) (htx : Running tx) :
    Sim (evalLoop env phase rg tx) (evalLoop env phase rg (dryRun tx)) := by
  induction rg generalizing tx with
  | nil => exact .same htx
  | cons c rest ih =>
    have hrest : ∀ r ∈ rules rest, ∀ a ∈ r.actions, a.modal = false := by
      intro r hr
      obtain ⟨c', hc', hr⟩ := List.mem_flatMap.mp hr
      exact hmodal r (List.mem_flatMap.mpr ⟨c', mem_cons_of_mem _ hc', hr⟩)
    have hc : ∀ r ∈ c.starter :: c.members, ∀ a ∈ r.actions, a.modal = false := fun r hr =>
      hmodal r (List.mem_flatMap.mpr ⟨c, mem_cons_self .., hr⟩)
    have hrun : ∀ tx, Running tx → Sim (evalLoop env phase rest tx)
          (evalLoop env phase rest (dryRun tx)) :=
      fun _ => ih (fun c' hc' => hrg c' (mem_cons_of_mem _ hc')) hrest
    have hverdict := visit_verdict phase c.starter tx
    unfold evalLoop
    rw [visit_dryRun phase c.starter htx]
    cases hv : visit phase c.starter tx with
    | stop tx₁ =>
      rw [hv] at hverdict
      exact .same (htx.of_verdict hverdict)
    | next tx₁ =>
      rw [hv] at hverdict
      exact hrun tx₁ (htx.of_verdict hverdict)
    | evaluate =>
      have hrun' : c.starter.phase ≠ phaseLogging := by
        rcases of_decide_eq_true (visit_evaluate hv) with hany | hown
        · rw [hany]
          decide
        · rw [hown]
          exact hphase
      obtain ⟨hdry, i, henf⟩ := evaluateRule_dryRun env (hrg c (mem_cons_self ..) hrun') hc htx
      rw [hdry]
      rcases henf.interruption with hint | hint
      · exact hrun _ ⟨henf.ruleEngine, henf.detectionOnlyInterruption, hint⟩
      · -- the enforcing run leaves the loop, the other one goes on
        rw [evalLoop_interrupted env hphase rest (Option.isSome_iff_exists.mpr ⟨i, hint⟩)]
        have hsteps : EvalSteps env.labels (rules rest) (dryRun (evaluateRule env c tx))
            (evalLoop env phase rest (dryRun (evaluateRule env c tx))) :=
          evalLoop_steps phase rest (fun _ => mem_rules_of_phaseRules) _
        exact .stopped hint
          (hsteps.invariant (fun _ _ hstep h => h.step hrest hstep) (frozen_dryRun hint))

/-- **A phase.** -/
theorem eval_sim (hphase : phase ≠ phaseLogging) (htx : Running tx) :
    Sim (eval env rg phase tx) (eval env rg phase (dryRun tx)) := by
  have hbegin : beginPhase phase (dryRun tx) = dryRun (beginPhase phase tx) := by
    unfold beginPhase
    rw [htx.isInterrupted]
    rfl
  have htx' : Running (beginPhase phase tx) := htx.of_verdict rfl
  have hloop := evalLoop_sim env hrg hmodal hphase htx'
  unfold eval
  rw [hbegin]
  generalize evalLoop env phase rg (dryRun (beginPhase phase tx)) = tx₂ at hloop ⊢
  cases hloop with
  | same htx => exact .same (htx.of_verdict rfl)
  | stopped hint h => exact .stopped hint (h.of_verdict rfl)

omit hrg in
theorem Frozen.eval {i : Interruption} {ids : List Int} {tx : Transaction} (h : Frozen i ids tx)
    (phase : Nat) : Frozen i ids (eval env rg phase tx) := by
  have hsteps : EvalSteps env.labels rg.rules (beginPhase phase tx)
      (evalLoop env phase rg (beginPhase phase tx)) :=
    evalLoop_steps phase rg (fun _ => mem_rules_of_phaseRules) _
  have hloop := hsteps.invariant (fun _ _ hstep h => h.step hmodal hstep) (h.of_verdict rfl)
  exact hloop.of_verdict rfl

end

/-! ### Calls -/

/-- An evaluator that keeps the relation. -/
structure Lockstep (ev : Evaluator) : Prop where
  running : ∀ {phase : Nat}, phase ≠ phaseLogging → ∀ {tx : Transaction}, Running tx →
    Sim (ev.eval phase tx) (ev.eval phase (dryRun tx))
  frozen : ∀ (phase : Nat) {i : Interruption} {ids : List Int} {tx : Transaction},
    Frozen i ids tx → Frozen i ids (ev.eval phase tx)

section

variable {waf : WAF} {ev : Evaluator} (hev : Lockstep ev)

theorem dryRun_lastPhase (tx : Transaction) : (dryRun tx).lastPhase = tx.lastPhase := rfl

include hev

theorem processRequestHeaders_sim {tx : Transaction} (htx : Running tx) :
    Sim (processRequestHeaders ev tx).2 (processRequestHeaders ev (dryRun tx)).2 := by
  unfold processRequestHeaders
  rw [htx.isRuleEngineOff, htx.isInterrupted, dryRun_lastPhase]
  split_ifs
  · exact .same htx
  · exact .same htx
  · exact .same htx
  · exact hev.running (by decide) htx

theorem processResponseHeaders_sim (code : Int) (proto : Bytes) {tx : Transaction}
    (htx : Running tx) : Sim (processResponseHeaders ev code proto tx).2
      (processResponseHeaders ev code proto (dryRun tx)).2 := by
  unfold processResponseHeaders
  rw [htx.isRuleEngineOff, htx.isInterrupted, dryRun_lastPhase]
  split_ifs
  · exact .same htx
  · exact .same htx
  · exact .same htx
  · exact hev.running (by decide) (htx.of_verdict rfl)

theorem processRequestBody_sim {tx : Transaction} (htx : Running tx) :
    Sim (processRequestBody waf ev tx).2 (processRequestBody waf ev (dryRun tx)).2 := by
  have haccess : (dryRun tx).requestBodyAccess = tx.requestBodyAccess := rfl
  have hbuffer : (dryRun tx).requestBodyBuffer = tx.requestBodyBuffer := rfl
  unfold processRequestBody
  rw [htx.isRuleEngineOff, htx.isInterrupted, dryRun_lastPhase, haccess, hbuffer]
  split_ifs
  · exact .same htx
  · exact .same htx
  · exact .same htx
  · exact hev.running (by decide) htx
  · exact hev.running (by decide) (htx.of_verdict rfl)

theorem processResponseBody_sim {tx : Transaction} (htx : Running tx) :
    Sim (processResponseBody waf ev tx).2 (processResponseBody waf ev (dryRun tx)).2 := by
  have haccess : (dryRun tx).responseBodyAccess = tx.responseBodyAccess := rfl
  have hproc : isResponseBodyProcessable waf (dryRun tx) = isResponseBodyProcessable waf tx := rfl
  unfold processResponseBody
  rw [htx.isRuleEngineOff, htx.isInterrupted, dryRun_lastPhase, haccess, hproc]
  split_ifs
  · exact .same htx
  · exact .same htx
  · exact .same htx
  · exact hev.running (by decide) htx
  · exact hev.running (by decide) (htx.of_verdict rfl)

end

namespace BodySide

/-- A body whose functions keep the relation: a body that is too long is cut off. -/
structure Lockstep (side : BodySide) : Prop where
  access : ∀ tx, side.access (dryRun tx) = side.access tx
  limit : ∀ tx, side.limit (dryRun tx) = side.limit tx
  buffer : ∀ tx, side.buffer (dryRun tx) = side.buffer tx
  setBuffer : ∀ tx b, side.setBuffer (dryRun tx) b = dryRun (side.setBuffer tx b)
  verdict : ∀ tx b, (side.setBuffer tx b).verdict = tx.verdict
  limitAction : side.limitAction = .processPartial
  process : ∀ tx, Running tx → Sim (side.process tx).2 (side.process (dryRun tx)).2

variable {side : BodySide} (hside : side.Lockstep) {tx : Transaction}

theorem setDataError_dryRun : side.setDataError (dryRun tx) = dryRun (side.setDataError tx) := rfl

include hside

theorem early_dryRun (htx : Running tx) : side.early (dryRun tx) = side.early tx := by
  unfold early
  rw [htx.isRuleEngineOff, hside.access, hside.limit, hside.buffer, hside.limitAction]

theorem finish_sim (run : Bool) (w : Nat) (htx : Running tx) :
    Sim (side.finish run w tx).2 (side.finish run w (dryRun tx)).2 := by
  unfold finish
  split
  · exact hside.process tx htx
  · exact .same htx

theorem store_sim (b : Bytes) (n : Int) (run : Bool) (htx : Running tx) :
    Sim (side.store b n run tx).2 (side.store b n run (dryRun tx)).2 := by
  unfold store
  split
  · exact .same htx
  · dsimp only
    rw [hside.buffer, hside.setBuffer]
    split
    · exact .same (htx.of_verdict (hside.verdict tx _))
    · exact finish_sim hside run _ (htx.of_verdict (hside.verdict tx _))

theorem writeBody_sim (b : Bytes) (htx : Running tx) :
    Sim (side.writeBody b tx).2 (side.writeBody b (dryRun tx)).2 := by
  unfold writeBody
  rw [early_dryRun hside htx]
  split
  · exact .same htx
  dsimp only
  rw [hside.buffer, hside.limit, hside.limitAction, setDataError_dryRun, hside.limit]
  split_ifs
  · exact .same htx
  · exact store_sim hside b _ _ (htx.of_verdict rfl)
  · exact store_sim hside b _ _ htx

theorem afterCopy_sim (run : Bool) (w : Nat) (htx : Running tx) :
    Sim (side.afterCopy run w tx).2 (side.afterCopy run w (dryRun tx)).2 := by
  unfold afterCopy
  rw [hside.buffer, hside.limit, hside.limitAction]
  split_ifs
  · exact finish_sim hside _ _ (htx.of_verdict rfl)
  · exact finish_sim hside _ _ htx

theorem copyFrom_sim (r : Io.Stream) (n : Int) (run : Bool) (htx : Running tx) :
    Sim (side.copyFrom r n run tx).2.2 (side.copyFrom r n run (dryRun tx)).2.2 := by
  unfold copyFrom
  rw [hside.buffer]
  dsimp only
  rw [hside.setBuffer]
  split_ifs
  · exact .same (htx.of_verdict (hside.verdict tx _))
  · exact afterCopy_sim hside run _ (htx.of_verdict (hside.verdict tx _))

theorem readBodyFrom_sim (r : Io.Stream) (htx : Running tx) :
    Sim (side.readBodyFrom r tx).2.2 (side.readBodyFrom r (dryRun tx)).2.2 := by
  unfold readBodyFrom
  rw [early_dryRun hside htx]
  split
  · exact .same htx
  dsimp only
  rw [hside.buffer, hside.limit, hside.limitAction, setDataError_dryRun, hside.limit]
  split
  · exact copyFrom_sim hside r _ _ htx
  split_ifs
  · exact .same htx
  · exact copyFrom_sim hside r _ _ (htx.of_verdict rfl)
  · exact copyFrom_sim hside r _ _ htx

end BodySide

section

variable {waf : WAF} {ev : Evaluator} (hev : Lockstep ev)
  (hreq : waf.requestBodyLimitAction = .processPartial)
  (hres : waf.responseBodyLimitAction = .processPartial)

include hev in
theorem requestSide_lockstep (hreq : waf.requestBodyLimitAction = .processPartial) :
    (requestSide waf ev).Lockstep :=
  ⟨fun _ => rfl, fun _ => rfl, fun _ => rfl, fun _ _ => rfl, fun _ _ => rfl, hreq,
    fun _ => processRequestBody_sim hev⟩

include hev in
theorem responseSide_lockstep (hres : waf.responseBodyLimitAction = .processPartial) :
    (responseSide waf ev).Lockstep :=
  ⟨fun _ => rfl, fun _ => rfl, fun _ => rfl, fun _ _ => rfl, fun _ _ => rfl, hres,
    fun _ => processResponseBody_sim hev⟩

include hev hreq hres

variable {call : Call}

theorem Call.run_running (h : call.isLogging = false) {tx : Transaction}
    (htx : Running tx) : Sim (call.run waf ev tx) (call.run waf ev (dryRun tx)) := by
  have hreq' := requestSide_lockstep hev hreq
  have hres' := responseSide_lockstep hev hres
  cases call with
  | feed f => exact .same (htx.of_verdict rfl)
  | processRequestHeaders => exact processRequestHeaders_sim hev htx
  | writeRequestBody b => exact writeBody_sim hreq' b htx
  | readRequestBodyFrom r => exact readBodyFrom_sim hreq' r htx
  | processRequestBody => exact processRequestBody_sim hev htx
  | processResponseHeaders code proto => exact processResponseHeaders_sim hev code proto htx
  | writeResponseBody b => exact writeBody_sim hres' b htx
  | readResponseBodyFrom r => exact readBodyFrom_sim hres' r htx
  | processResponseBody => exact processResponseBody_sim hev htx
  | processLogging => cases h

omit hev in
theorem Call.run_interrupted (h : call.isLogging = false) {tx : Transaction}
    {i : Interruption} (hint : tx.interruption = some i) :
    (call.run waf ev tx).interruption = some i ∧
      (call.run waf ev tx).matchedRules = tx.matchedRules := by
  refine Call.run_invariant
    (P := fun tx' => tx'.interruption = some i ∧ tx'.matchedRules = tx.matchedRules)
    (fun tx₁ tx₂ hstep hP => ?_) h ⟨hint, rfl⟩
  cases hstep with
  | limit _ hlimit => simp [hreq, hres] at hlimit
  | eval _ hnone =>
    rw [hP.1] at hnone
    cases hnone
  | _ => exact hP

theorem Call.run_frozen (h : call.isLogging = false) {i : Interruption}
    {ids : List Int} {tx : Transaction} (htx : Frozen i ids tx) :
    Frozen i ids (call.run waf ev tx) := by
  refine Call.run_invariant (fun tx₁ tx₂ hstep hP => ?_) h htx
  cases hstep with
  | limit _ hlimit => simp [hreq, hres] at hlimit
  | @eval phase => exact hev.frozen phase hP
  | _ => exact hP.of_verdict rfl

/-- **Every call keeps the relation between the two runs.** -/
theorem Call.run_sim (h : call.isLogging = false) {tx tx' : Transaction}
    (hsim : Sim tx tx') : Sim (call.run waf ev tx) (call.run waf ev tx') := by
  cases hsim with
  | same htx => exact Call.run_running hev hreq hres h htx
  | stopped hint hfrozen =>
    have hstop : (call.run waf ev tx).interruption = some _ ∧ _ :=
      Call.run_interrupted hreq hres h hint
    exact .stopped hstop.1 (hstop.2 ▸ Call.run_frozen hev hreq hres h hfrozen)

theorem runCalls_sim (calls : List Call) : (∀ call ∈ calls, call.isLogging = false) →
    ∀ {tx tx' : Transaction}, Sim tx tx' →
      Sim (runCalls waf ev calls tx) (runCalls waf ev calls tx') := by
  induction calls with
  | nil => exact fun _ _ _ hsim => hsim
  | cons call calls ih =>
    intro h tx tx' hsim
    exact ih (fun c hc => h c (mem_cons_of_mem _ hc))
      (Call.run_sim hev hreq hres (h call (mem_cons_self ..)) hsim)

end

theorem Sim.predicts (h : Sim tx tx') : tx.interruption = tx'.detectionOnlyInterruption ∧
      tx.matchedRules.map MatchedRule.ruleID <+: tx'.matchedRules.map MatchedRule.ruleID := by
  cases h with
  | same htx =>
    refine ⟨rfl, ?_⟩
    show _ <+: (tx.matchedRules.map MatchedRule.dry).map MatchedRule.ruleID
    rw [map_map]
    exact prefix_refl _
  | stopped hint h => exact ⟨hint.trans h.detectionOnlyInterruption.symm, h.matchedRules⟩

def runWith (status : RuleEngineStatus) (waf : WAF) (rg : RuleGroup)
    (iteration : Nat → Iteration) (vars : Variables) (calls : List Call) : Transaction :=
  let waf := { waf with ruleEngine := status }
  runCalls waf (rg.evaluator iteration) calls (waf.newTransaction vars)

/-- **Detection-only mode predicts the enforcing mode**, if every chain that is not for the logging
phase has one interruption to offer. -/
theorem detectionOnly_predicts {rg : RuleGroup}
    (hrg : ∀ c ∈ rg, c.starter.phase ≠ phaseLogging → Predictable c)
    (hmodal : ∀ r ∈ rg.rules, ∀ a ∈ r.actions, a.modal = false) {waf : WAF}
    (hreq : waf.requestBodyLimitAction = .processPartial)
    (hres : waf.responseBodyLimitAction = .processPartial) (iteration : Nat → Iteration)
    (vars : Variables) {calls : List Call} (hcalls : ∀ call ∈ calls, call.isLogging = false) :
    (runWith .on waf rg iteration vars calls).interruption
        = (runWith .detectionOnly waf rg iteration vars calls).detectionOnlyInterruption ∧
      (runWith .on waf rg iteration vars calls).matchedRules.map MatchedRule.ruleID
        <+: (runWith .detectionOnly waf rg iteration vars calls).matchedRules.map
          MatchedRule.ruleID := by
  have hev : Lockstep (rg.evaluator iteration) :=
    ⟨fun hphase _ => eval_sim _ hrg hmodal hphase, fun phase _ _ _ h => h.eval _ hmodal phase⟩
  have hstart : Running ({ waf with ruleEngine := .on }.newTransaction vars) := ⟨rfl, rfl, rfl⟩
  exact (runCalls_sim hev hreq hres calls hcalls (.same hstart)).predicts

def statusDirectives (id : List Action) : List Directive :=
  [.secDefaultAction (some [.phase 2, .log, .deny]),
    .secAction (some (id ++ [.chain, .deny, .status 401])), .secAction (some [.nolog])]

def statusChain (id : Int) (logID : Bytes) : RuleChain where
  starter := { Rule.new with
    id, logID, actions := [.log, .chain, .deny, .status 401], disruptiveStatus := 401
    log := true, audit := true, hasChain := true }
  members := [{ Rule.new with
    logID, parentID := id, phase := 0, actions := [.log, .nolog, .deny] }]

/-- **A chain with an id offers one interruption**, in every configuration that is accepted. -/
theorem parsed_predictable {disabled : List String} {directives : List Directive}
    {s : ParserState} (h : parse disabled directives = some s) {c : RuleChain} (hc : c ∈ s.rules)
    (hid : c.starter.id ≠ noID) : Predictable c := predictable_of_id (parse_wellLinked h c hc) hid

theorem parsed_predictable_status : Predictable (statusChain 7 (Strconv.itoa 7)) :=
  parsed_predictable (show parse [] (statusDirectives [.id 7]) = some _ from rfl) (.head _)
    (by decide)

def partialWAF : WAF :=
  { WAF.new (fun _ => none) with
    requestBodyLimitAction := .processPartial
    responseBodyLimitAction := .processPartial }

def statusRules : RuleGroup :=
  [statusChain 7 (Strconv.itoa 7),
    { statusChain 0 [] with starter := { (statusChain 0 []).starter with phase := phaseLogging } }]

/-- With an id the chain denies with the same status in both modes. -/
theorem detectionOnly_predicts_with_id :
    (∃ c ∈ statusRules, ¬Predictable c) ∧
      (runWith .on partialWAF statusRules (fun _ => .stored) .new
        [.processRequestHeaders, .processRequestBody]).interruption
          = some ⟨7, .deny, 401, []⟩ ∧
      (runWith .detectionOnly partialWAF statusRules (fun _ => .stored) .new
        [.processRequestHeaders, .processRequestBody]).detectionOnlyInterruption
          = some ⟨7, .deny, 401, []⟩ := by
  have hrg : ∀ c ∈ statusRules, c.starter.phase ≠ phaseLogging → Predictable c := by decide
  have hon : (runWith .on partialWAF statusRules (fun _ => .stored) .new
      [.processRequestHeaders, .processRequestBody]).interruption
        = some ⟨7, .deny, 401, []⟩ := by decide +kernel
  refine ⟨by decide, hon, ?_⟩
  rw [← hon]
  exact (detectionOnly_predicts hrg (by decide) rfl rfl (fun _ => .stored) .new (by decide)).1.symm

/-- **Without an id the two modes differ.**  The enforcing run ends with the status of the
starter, the other one records that of the member. -/
theorem detectionOnly_without_id :
    (parse [] (statusDirectives [])).map ParserState.rules = some [statusChain 0 []] ∧
      (runWith .on partialWAF [statusChain 0 []] (fun _ => .stored) .new
        [.processRequestHeaders, .processRequestBody]).interruption
          = some ⟨0, .deny, 401, []⟩ ∧
      (runWith .detectionOnly partialWAF [statusChain 0 []] (fun _ => .stored) .new
        [.processRequestHeaders, .processRequestBody]).detectionOnlyInterruption
          = some ⟨0, .deny, 403, []⟩ :=
  ⟨rfl, by decide +kernel, by decide +kernel⟩

end Coraza.Waf
