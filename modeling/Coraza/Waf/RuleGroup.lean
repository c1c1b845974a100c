import Coraza.Waf.RuleEvaluation

/-!
# Rule groups

`RuleGroup.eval` runs the rules of one phase in order.  `visit` is what it decides about
a rule before evaluating it: leave the loop, go on to the next rule, or evaluate.

`RuleStep` lists everything the evaluation of a rule can do to a transaction, `EvalStep` adds
what the loop over the rules does, and `RuleGroup.evalLoop_steps` says that a whole phase is a
sequence of such steps.  What all the steps keep is therefore kept by a phase; this gives the
evaluator of a group (`RuleGroup.evaluator`).
-/

namespace Coraza.Waf

open Go Collections List

/-- A rule without a phase runs in each one. -/
def Rule.runsIn (r : Rule) (phase : Nat) : Bool := r.phase = 0 ∨ r.phase = phase

abbrev RuleGroup := List RuleChain

variable {r : Rule}

namespace RuleGroup

def findByID (rg : RuleGroup) (id : Int) : Option RuleChain :=
  rg.find? (fun c => c.starter.id = id)

/-- `RuleGroup.Add` in the default build; `none` is an error. -/
def add (rg : RuleGroup) (rule : Rule) : Option RuleGroup :=
  if rule.id ≠ 0 ∧ (rg.findByID rule.id).isSome then none else some (rg ++ [⟨rule, []⟩])

def discardPendingChain (rg : RuleGroup) : RuleGroup :=
  match rg.getLast? with
  | some c => if c.starter.hasChain then rg.dropLast else rg
  | none => rg

theorem of_add {rg rg' : RuleGroup} {rule : Rule} (h : rg.add rule = some rg') :
    ¬(rule.id ≠ 0 ∧ (rg.findByID rule.id).isSome) ∧ rg' = rg ++ [⟨rule, []⟩] := by
  unfold add at h
  split at h
  · cases h
  · exact ⟨‹_›, (Option.some.inj h).symm⟩

theorem discardPendingChain_sublist (rg : RuleGroup) : rg.discardPendingChain.Sublist rg := by
  unfold discardPendingChain
  split
  · split
    · exact dropLast_sublist _
    · exact List.Sublist.refl _
  · exact List.Sublist.refl _

theorem discardPendingChain_concat (rg : RuleGroup) {c : RuleChain}
    (h : c.starter.hasChain = true) : RuleGroup.discardPendingChain (rg ++ [c]) = rg := by
  unfold discardPendingChain
  rw [getLast?_concat, dropLast_concat]
  exact if_pos h

def labels (rg : RuleGroup) : List RuleLabel :=
  rg.map (fun c => ⟨c.starter.id, c.starter.tags, c.starter.msg.map Macro.original⟩)

def rules (rg : RuleGroup) : List Rule := rg.flatMap (fun c => c.starter :: c.members)

def phaseRules (phase : Nat) (rg : RuleGroup) : List Rule :=
  rules (rg.filter (fun c => c.starter.runsIn phase))

theorem mem_rules_of_phaseRules {phase : Nat} {rg : RuleGroup}
    (h : r ∈ rg.phaseRules phase) : r ∈ rg.rules := by
  obtain ⟨c, hc, hr⟩ := mem_flatMap.mp h
  exact mem_flatMap.mpr ⟨c, mem_of_mem_filter hc, hr⟩

end RuleGroup

/-- What `RuleGroup.Eval` decides about a rule. -/
inductive Visit where
  | stop (tx : Transaction)
  | next (tx : Transaction)
  | evaluate

def Visit.after : Visit → Transaction → Transaction
  | .stop tx, _ => tx
  | .next tx, _ => tx
  | .evaluate, tx => tx

/-- The switch over `AllowType`. -/
def visitAllow (phase : Nat) (tx : Transaction) : Visit :=
  match tx.allowType with
  | .unset => .evaluate
  | .phase => .stop tx
  | .request =>
    if phase = phaseRequestHeaders then .stop tx
    else if phase = phaseRequestBody then .stop { tx with allowType := .unset }
    else .evaluate
  | .all => .stop tx

/-- The tests before the evaluation of a rule. -/
def visit (phase : Nat) (r : Rule) (tx : Transaction) : Visit :=
  if tx.isInterrupted ∧ phase ≠ phaseLogging then .stop tx
  else if r.phase ≠ 0 ∧ r.phase ≠ phase then .next tx
  else if r.id ∈ tx.ruleRemoveByID then .next tx
  else if ∃ range ∈ tx.ruleRemoveByIDRanges, range.1 ≤ r.id ∧ r.id ≤ range.2 then .next tx
  else if tx.skipAfter ≠ [] then
    .next (if r.secMark = tx.skipAfter then { tx with skipAfter := [] } else tx)
  else if tx.skip > 0 then .next { tx with skip := tx.skip - 1 }
  else visitAllow phase tx

def resetMatchedVars (tx : Transaction) : Transaction :=
  if (tx.vars.map .matchedVars).len > 0 then
    tx.modifyVariables (fun vars => vars.modifyMap .matchedVars Map.reset)
  else tx

def evaluateRule (env : RuleEnv) (c : RuleChain) (tx : Transaction) : Transaction :=
  { c.evaluate env (resetMatchedVars tx) with capture := false }

/-- `RulesLoop` of `RuleGroup.Eval`. -/
def RuleGroup.evalLoop (env : RuleEnv) (phase : Nat) : RuleGroup → Transaction → Transaction
  | [], tx => tx
  | c :: rest, tx =>
    match visit phase c.starter tx with
    | .stop tx => tx
    | .next tx => evalLoop env phase rest tx
    | .evaluate => evalLoop env phase rest (evaluateRule env c tx)

def beginPhase (phase : Nat) (tx : Transaction) : Transaction :=
  { tx with lastPhase := phase, phases := tx.phases ++ [(phase, tx.isInterrupted)] }

def endPhase (tx : Transaction) : Transaction :=
  { tx with allowType := if tx.allowType = .phase then .unset else tx.allowType, skip := 0 }

/-- `RuleGroup.Eval`; whether the transaction is interrupted is read off it. -/
def RuleGroup.eval (env : RuleEnv) (rg : RuleGroup) (phase : Nat) (tx : Transaction) :
    Transaction :=
  endPhase (evalLoop env phase rg (beginPhase phase tx))

/-! ### What the evaluation of rules can do -/

/-- The single-valued variables that the evaluation of rules sets by itself. -/
def KeepsSingles (vars vars' : Variables) : Prop :=
  ∀ v, v ≠ .matchedVar → v ≠ .matchedVarName → v ≠ .highestSeverity →
    vars'.single v = vars.single v

/-- One thing that the evaluation of a rule can do to a transaction. -/
inductive RuleStep (labels : List RuleLabel) (rules : List Rule) :
    Transaction → Transaction → Prop where
  | vars {tx : Transaction} {vars : Variables} (h : KeepsSingles tx.vars vars) :
      RuleStep labels rules tx { tx with vars }
  | asked {tx : Transaction} (asked : Nat) : RuleStep labels rules tx { tx with asked }
  | capture {tx : Transaction} (capture : Bool) : RuleStep labels rules tx { tx with capture }
  | action {tx : Transaction} {r : Rule} (hr : r ∈ rules) {a : Action} (ha : a ∈ r.actions) :
      RuleStep labels rules tx (a.evaluate labels r tx)
  | step {tx : Transaction} (steps : List ChainStep) : RuleStep labels rules tx { tx with steps }
  | matched {tx : Transaction} {r : Rule} (hr : r ∈ rules) (mds : List MatchData) :
      RuleStep labels rules tx (r.matchRule tx mds)

abbrev RuleSteps (labels : List RuleLabel) (rules : List Rule) : Transaction → Transaction → Prop :=
  Relation.ReflTransGen (RuleStep labels rules)

variable {labels : List RuleLabel} {rules : List Rule} {tx tx' : Transaction}

theorem RuleSteps.invariant {P : Transaction → Prop}
    (hstep : ∀ tx tx', RuleStep labels rules tx tx' → P tx → P tx')
    (h : RuleSteps labels rules tx tx') (hP : P tx) : P tx' := by
  induction h with
  | refl => exact hP
  | tail _ hlast ih => exact hstep _ _ hlast ih

/-- One thing that the evaluation of some rules can do to a transaction: what a rule does, or what
the loop over the rules does by itself. -/
inductive EvalStep (labels : List RuleLabel) (rules : List Rule) :
    Transaction → Transaction → Prop where
  | rule {tx tx' : Transaction} (h : RuleStep labels rules tx tx') : EvalStep labels rules tx tx'
  | skipAfter {tx : Transaction} (skipAfter : Bytes) :
      EvalStep labels rules tx { tx with skipAfter }
  | skip {tx : Transaction} (skip : Int) : EvalStep labels rules tx { tx with skip }
  | allowed {tx : Transaction} : EvalStep labels rules tx { tx with allowType := .unset }

abbrev EvalSteps (labels : List RuleLabel) (rules : List Rule) : Transaction → Transaction → Prop :=
  Relation.ReflTransGen (EvalStep labels rules)

theorem EvalSteps.invariant {P : Transaction → Prop}
    (hstep : ∀ tx tx', EvalStep labels rules tx tx' → P tx → P tx')
    (h : EvalSteps labels rules tx tx') (hP : P tx) : P tx' := by
  induction h with
  | refl => exact hP
  | tail _ hlast ih => exact hstep _ _ hlast ih

section

variable {env : RuleEnv} {rules : List Rule}

theorem keepsSingles_setRuleCollection (r : Rule) (vars : Variables) :
    KeepsSingles vars (r.setRuleCollection vars) := by
  intro v _ _ _
  unfold Rule.setRuleCollection
  dsimp only
  split <;> split <;> rfl

theorem steps_txMatchVariable (tx : Transaction) (md : MatchData) :
    RuleSteps env.labels rules tx (tx.matchVariable md) := by
  refine .single (.vars ?_)
  intro v h₁ h₂ _
  simp [h₁, h₂]

theorem steps_matchVariable (hr : r ∈ rules) (tx : Transaction) (md : MatchData) :
    RuleSteps env.labels rules tx (r.matchVariable env.labels tx md) := by
  refine foldlRecOn _ _ (steps_txMatchVariable tx md) (fun tx' h a ha => ?_)
  exact h.tail (.action hr (mem_filter.mp ha).1)

theorem steps_executeOperator (op : RuleOperatorParams) (data : Bytes) (tx : Transaction) :
    RuleSteps env.labels rules tx (Rule.executeOperator op data tx).2 := by
  refine .tail (.single (.asked (tx.asked + 1))) (.vars ?_)
  intro v _ _ _
  exact congrFun (op.operator.keepsSingle ..) v

theorem steps_testValue (hr : r ∈ rules) (op : RuleOperatorParams) (level : Nat)
    (arg : Match) (state : Transaction × List MatchData) (carg : Bytes) :
    RuleSteps env.labels rules state.1 (r.testValue env.labels op level arg state carg).1 := by
  have hop : RuleSteps env.labels rules state.1 (Rule.executeOperator op carg state.1).2 :=
    steps_executeOperator op carg state.1
  unfold Rule.testValue
  dsimp only
  split
  · exact hop.trans (steps_matchVariable hr _ _)
  · exact hop

theorem steps_foldl {α β : Type} {f : Transaction × β → α → Transaction × β}
    (h : ∀ state a, RuleSteps env.labels rules state.1 (f state a).1) (l : List α)
    (state : Transaction × β) : RuleSteps env.labels rules state.1 (l.foldl f state).1 :=
  foldlRecOn (motive := fun out => RuleSteps env.labels rules state.1 out.1) l _ .refl
    (fun out hout a _ => hout.trans (h out a))

theorem steps_test (hr : r ∈ rules) (level : Nat) (tx : Transaction) :
    RuleSteps env.labels rules tx (r.test env level tx).1 := by
  have hbegin : RuleSteps env.labels rules tx
      (({ tx with capture := r.capture } : Transaction).modifyVariables r.setRuleCollection) :=
    .tail (.single (.capture r.capture)) (.vars (keepsSingles_setRuleCollection r tx.vars))
  unfold Rule.test
  split
  · exact hbegin.trans (steps_matchVariable hr _ _)
  · rename_i op _
    refine hbegin.trans (steps_foldl (fun state v => ?_) _ (_, []))
    refine .head (.asked (state.1.asked + 1)) ?_
    exact steps_foldl (fun state arg => steps_foldl
      (fun state carg => steps_testValue hr op level arg state carg) _ state) _ (_, state.2)

theorem steps_finalActions (hr : r ∈ rules) (following : Nat) (tx : Transaction) :
    RuleSteps env.labels rules tx (r.finalActions env.labels following tx) := by
  refine foldlRecOn _ _ .refl (fun tx' h a ha => ?_)
  unfold Rule.finalAction
  split
  · exact (h.tail (.action hr (fst_mem_of_mem_zipIdx ha))).tail (.step _)
  · exact h

theorem steps_conclude (hr : r ∈ rules) (following : Nat) (tx : Transaction)
    (mds : List MatchData) :
    RuleSteps env.labels rules tx (r.conclude env.labels following tx mds).1 := by
  have hfinal : RuleSteps env.labels rules tx (r.finalActions env.labels following tx) :=
    steps_finalActions hr following tx
  unfold Rule.conclude
  split
  · exact .tail hfinal (.matched hr _)
  · exact hfinal

theorem steps_doEvaluateWith (hr : r ∈ rules)
    {loop : Nat → Transaction → Transaction × Option (List MatchData)}
    (hloop : ∀ level tx, RuleSteps env.labels rules tx (loop level tx).1)
    (following level : Nat) (tx : Transaction) :
    RuleSteps env.labels rules tx (r.doEvaluateWith env loop following level tx).1 := by
  have htest : RuleSteps env.labels rules tx (r.test env level tx).1 := steps_test hr level tx
  unfold Rule.doEvaluateWith
  generalize r.test env level tx = out at htest ⊢
  obtain ⟨tx₁, mds⟩ := out
  dsimp only at htest ⊢
  have htested := Relation.ReflTransGen.tail htest
    (RuleStep.step (tx₁.steps ++ [.tested following (!mds.isEmpty)]))
  split
  · exact htested
  · split
    · have hrest := hloop level
        { tx₁ with steps := tx₁.steps ++ [.tested following (!mds.isEmpty)] }
      generalize loop level _ = out at hrest ⊢
      obtain ⟨tx₂, _ | chained⟩ := out
      · exact htested.trans hrest
      · exact (htested.trans hrest).trans (steps_conclude hr _ _ _)
    · exact htested

theorem steps_membersLoop (members : List Rule) : (∀ r ∈ members, r ∈ rules) →
    ∀ level tx, RuleSteps env.labels rules tx (membersLoop env members level tx).1 := by
  induction members with
  | nil => exact fun _ level tx => .refl
  | cons nr rest ih =>
    intro hmem level tx
    have hrest := ih (fun r hr => hmem r (mem_cons_of_mem _ hr))
    have hfirst := steps_doEvaluateWith (hmem nr (mem_cons_self ..)) hrest rest.length
      (level + 1) tx
    unfold membersLoop
    generalize nr.doEvaluateWith env _ _ _ _ = out at hfirst ⊢
    obtain ⟨tx₁, mds⟩ := out
    dsimp only at hfirst ⊢
    split
    · exact hfirst
    · have hnext := hrest (level + 1) tx₁
      generalize membersLoop env rest (level + 1) tx₁ = out at hnext ⊢
      obtain ⟨tx₂, _ | chained⟩ := out <;> exact hfirst.trans hnext

/-- The evaluation of a chain is a sequence of steps of its rules. -/
theorem RuleChain.evaluate_steps (c : RuleChain) (hc : ∀ r ∈ c.starter :: c.members, r ∈ rules)
    (tx : Transaction) : RuleSteps env.labels rules tx (c.evaluate env tx) :=
  steps_doEvaluateWith (hc _ (mem_cons_self ..))
    (steps_membersLoop c.members (fun r hr => hc r (mem_cons_of_mem _ hr))) _ _ tx

theorem steps_evaluateRule (c : RuleChain) (hc : ∀ r ∈ c.starter :: c.members, r ∈ rules)
    (tx : Transaction) : RuleSteps env.labels rules tx (evaluateRule env c tx) := by
  have hreset : RuleSteps env.labels rules tx (resetMatchedVars tx) := by
    unfold resetMatchedVars
    split
    · exact .single (.vars (fun v _ _ _ => rfl))
    · exact .refl
  exact .tail (hreset.trans (c.evaluate_steps hc _)) (.capture false)

theorem steps_visitAllow (phase : Nat) (tx : Transaction) :
    EvalSteps env.labels rules tx ((visitAllow phase tx).after tx) := by
  unfold visitAllow
  split
  · exact .refl
  · exact .refl
  · split_ifs
    · exact .refl
    · exact .single .allowed
    · exact .refl
  · exact .refl

theorem steps_visit (phase : Nat) (r : Rule) (tx : Transaction) :
    EvalSteps env.labels rules tx ((visit phase r tx).after tx) := by
  unfold visit
  split_ifs
  · exact .refl
  · exact .refl
  · exact .refl
  · exact .refl
  · exact .single (.skipAfter _)
  · exact .refl
  · exact .single (.skip _)
  · exact steps_visitAllow phase tx

theorem visit_evaluate {phase : Nat} {tx : Transaction}
    (h : visit phase r tx = .evaluate) : r.runsIn phase = true := by
  unfold visit at h
  split at h
  · cases h
  split at h
  · cases h
  · rename_i hphase
    unfold Rule.runsIn
    rw [decide_eq_true_eq]
    rwa [not_and_or, not_not, not_not] at hphase

/-- An interruption ends every phase but the one for logging. -/
theorem RuleGroup.evalLoop_interrupted (env : RuleEnv) {phase : Nat} (hphase : phase ≠ phaseLogging)
    (rg : RuleGroup) {tx : Transaction} (hint : tx.isInterrupted = true) :
    rg.evalLoop env phase tx = tx := by
  cases rg with
  | nil => rfl
  | cons c rest =>
    unfold RuleGroup.evalLoop visit
    rw [if_pos ⟨hint, hphase⟩]

/-- **A phase is a sequence of steps of the rules that it evaluates.** -/
theorem RuleGroup.evalLoop_steps (phase : Nat) (rg : RuleGroup) :
    (∀ r ∈ rg.phaseRules phase, r ∈ rules) →
    ∀ tx, EvalSteps env.labels rules tx (RuleGroup.evalLoop env phase rg tx) := by
  induction rg with
  | nil => exact fun _ tx => .refl
  | cons c rest ih =>
    intro hmem tx
    have hrest : ∀ r ∈ RuleGroup.phaseRules phase rest, r ∈ rules := by
      intro r hr
      obtain ⟨c', hc', hr⟩ := mem_flatMap.mp hr
      obtain ⟨hc', hphase⟩ := mem_filter.mp hc'
      exact hmem r (mem_flatMap.mpr ⟨c', mem_filter.mpr ⟨mem_cons_of_mem _ hc', hphase⟩, hr⟩)
    have hvisit : EvalSteps env.labels rules tx ((visit phase c.starter tx).after tx) :=
      steps_visit phase c.starter tx
    unfold RuleGroup.evalLoop
    cases hv : visit phase c.starter tx with
    | stop tx' =>
      rw [hv] at hvisit
      exact hvisit
    | next tx' =>
      rw [hv] at hvisit
      exact hvisit.trans (ih hrest tx')
    | evaluate =>
      have hc : ∀ r ∈ c.starter :: c.members, r ∈ rules := fun r hr =>
        hmem r (mem_flatMap.mpr
          ⟨c, mem_filter.mpr ⟨mem_cons_self .., visit_evaluate hv⟩, hr⟩)
      have heval : EvalSteps env.labels rules tx (evaluateRule env c tx) :=
        (steps_evaluateRule c hc tx).invariant
          (fun _ _ hstep hsteps => hsteps.tail (.rule hstep)) .refl
      exact heval.trans (ih hrest _)

end

/-! ### What no rule changes -/

/-- The parts of a transaction that no action changes. -/
structure ActionFrame (tx tx' : Transaction) : Prop where
  lastPhase : tx'.lastPhase = tx.lastPhase
  phases : tx'.phases = tx.phases
  steps : tx'.steps = tx.steps
  matchedRules : tx'.matchedRules = tx.matchedRules
  requestBodyBuffer : tx'.requestBodyBuffer = tx.requestBodyBuffer
  responseBodyBuffer : tx'.responseBodyBuffer = tx.responseBodyBuffer

theorem ActionFrame.refl (tx : Transaction) : ActionFrame tx tx :=
  ⟨rfl, rfl, rfl, rfl, rfl, rfl⟩

theorem ActionFrame.trans {tx'' : Transaction} (h : ActionFrame tx tx')
    (h' : ActionFrame tx' tx'') : ActionFrame tx tx'' where
  lastPhase := h'.lastPhase.trans h.lastPhase
  phases := h'.phases.trans h.phases
  steps := h'.steps.trans h.steps
  matchedRules := h'.matchedRules.trans h.matchedRules
  requestBodyBuffer := h'.requestBodyBuffer.trans h.requestBodyBuffer
  responseBodyBuffer := h'.responseBodyBuffer.trans h.responseBodyBuffer

theorem foldl_frame {α : Type} {f : Transaction → α → Transaction}
    {R : Transaction → Transaction → Prop} (hrefl : ∀ tx, R tx tx)
    (htrans : ∀ tx tx' tx'', R tx tx' → R tx' tx'' → R tx tx'') (h : ∀ tx a, R tx (f tx a))
    (l : List α) (tx : Transaction) : R tx (l.foldl f tx) :=
  foldlRecOn l _ (hrefl tx) (fun tx' htx' a _ => htrans _ _ _ htx' (h tx' a))

theorem actionFrame_interrupt (tx : Transaction) (i : Interruption) :
    ActionFrame tx (tx.interrupt i) := by
  unfold Transaction.interrupt
  split
  · exact ⟨rfl, rfl, rfl, rfl, rfl, rfl⟩
  · split <;> exact ⟨rfl, rfl, rfl, rfl, rfl, rfl⟩
  · exact .refl tx

theorem actionFrame_ctl (labels : List RuleLabel) (tx : Transaction) (c : Ctl) :
    ActionFrame tx (c.evaluate labels tx) := by
  have hremove : ∀ (tx : Transaction) (l : RuleLabel), ActionFrame tx (tx.removeRuleByID l.id) :=
    fun tx l => ⟨rfl, rfl, rfl, rfl, rfl, rfl⟩
  have htarget : ∀ v key keyRx (tx : Transaction) (l : RuleLabel),
      ActionFrame tx (tx.removeRuleTargetByID l.id v key keyRx) :=
    fun v key keyRx tx l => ⟨rfl, rfl, rfl, rfl, rfl, rfl⟩
  unfold Ctl.evaluate
  split
  any_goals exact ⟨rfl, rfl, rfl, rfl, rfl, rfl⟩
  any_goals split_ifs <;> exact ⟨rfl, rfl, rfl, rfl, rfl, rfl⟩
  any_goals exact foldl_frame .refl (fun _ _ _ => .trans) hremove _ _
  all_goals exact foldl_frame .refl (fun _ _ _ => .trans) (htarget _ _ _) _ _

theorem actionFrame_evaluate (labels : List RuleLabel) (r : Rule) (tx : Transaction) (a : Action) :
    ActionFrame tx (a.evaluate labels r tx) := by
  unfold Action.evaluate
  split
  any_goals exact ⟨rfl, rfl, rfl, rfl, rfl, rfl⟩
  any_goals exact actionFrame_interrupt ..
  · unfold Transaction.allow
    split <;> exact ⟨rfl, rfl, rfl, rfl, rfl, rfl⟩
  · exact actionFrame_ctl ..

/-- The parts of a transaction that the evaluation of rules leaves alone. -/
structure EvalFrame (tx tx' : Transaction) : Prop where
  lastPhase : tx'.lastPhase = tx.lastPhase
  phases : tx'.phases = tx.phases
  requestBodyBuffer : tx'.requestBodyBuffer = tx.requestBodyBuffer
  responseBodyBuffer : tx'.responseBodyBuffer = tx.responseBodyBuffer

theorem EvalFrame.refl (tx : Transaction) : EvalFrame tx tx := ⟨rfl, rfl, rfl, rfl⟩

theorem EvalFrame.trans {tx'' : Transaction} (h : EvalFrame tx tx') (h' : EvalFrame tx' tx'') :
    EvalFrame tx tx'' where
  lastPhase := h'.lastPhase.trans h.lastPhase
  phases := h'.phases.trans h.phases
  requestBodyBuffer := h'.requestBodyBuffer.trans h.requestBodyBuffer
  responseBodyBuffer := h'.responseBodyBuffer.trans h.responseBodyBuffer

theorem RuleStep.frame (h : RuleStep labels rules tx tx') : EvalFrame tx tx' := by
  cases h with
  | @action r _ a _ =>
    have h := actionFrame_evaluate labels r tx a
    exact ⟨h.lastPhase, h.phases, h.requestBodyBuffer, h.responseBodyBuffer⟩
  | _ => exact ⟨rfl, rfl, rfl, rfl⟩

theorem EvalStep.frame (h : EvalStep labels rules tx tx') : EvalFrame tx tx' := by
  cases h with
  | rule h => exact h.frame
  | _ => exact ⟨rfl, rfl, rfl, rfl⟩

theorem EvalSteps.frame (h : EvalSteps labels rules tx tx') : EvalFrame tx tx' :=
  h.invariant (fun _ _ hstep hframe => hframe.trans hstep.frame) (.refl tx)

def RuleGroup.evaluator (rg : RuleGroup) (iteration : Nat → Iteration) : Evaluator where
  eval := RuleGroup.eval ⟨rg.labels, iteration⟩ rg
  lastPhase_eval := fun phase tx =>
    (rg.evalLoop_steps phase (fun _ hr => hr) (beginPhase phase tx)).frame.lastPhase
  phases_eval := fun phase tx =>
    (rg.evalLoop_steps phase (fun _ hr => hr) (beginPhase phase tx)).frame.phases

end Coraza.Waf
