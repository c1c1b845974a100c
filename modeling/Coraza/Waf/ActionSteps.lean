import Coraza.Waf.RuleGroup

/-!
# What an action can do

`ActionStep` lists everything that an action can do to a transaction, with the phases in which
it can, and `Action.evaluate_step` says that every action does one of these things.  So what
the rules of a phase keep can be read off the list: an interruption is never taken back, the
settings of a body are final once its phase has begun, and a phase keeps every single-valued
variable but a few.
-/

namespace Coraza.Waf

open Go Collections

def Action.interruption (r : Rule) : Action → Option Interruption
  | .deny => some r.deny
  | .drop => some r.drop
  | .redirect target => some (r.redirect target)
  | _ => none

theorem evaluate_of_interruption (labels : List RuleLabel) {r : Rule} {a : Action}
    {i : Interruption} (h : a.interruption r = some i) (tx : Transaction) :
    a.evaluate labels r tx = tx.interrupt i := by
  cases a with
  | deny =>
    cases h
    rfl
  | drop =>
    cases h
    rfl
  | redirect target =>
    cases h
    rfl
  | _ => cases h

inductive ActionStep : Action → Transaction → Transaction → Prop where
  | same {a : Action} {tx : Transaction} : ActionStep a tx tx
  | interrupt {a : Action} {tx : Transaction} (i : Interruption) (h : tx.ruleEngine = .on) :
      ActionStep a tx { tx with interruption := some i }
  | detect {a : Action} {tx : Transaction} (i : Interruption) :
      ActionStep a tx { tx with detectionOnlyInterruption := some i }
  | flow {a : Action} {tx : Transaction} (allowType : AllowType) (skip : Int)
      (skipAfter : Bytes) : ActionStep a tx { tx with allowType, skip, skipAfter }
  | vars {a : Action} {tx : Transaction} {vars : Variables} (h : vars.single = tx.vars.single) :
      ActionStep a tx { tx with vars }
  | auditEngine {a : Action} {tx : Transaction} (status : AuditEngineStatus) :
      ActionStep a tx { tx with auditEngine := status }
  | ruleEngine {tx : Transaction} (status : RuleEngineStatus) :
      ActionStep (.ctl (.ruleEngine (some status))) tx
        { tx with ruleEngine := status, modes := tx.modes ++ [(status, tx.isInterrupted)] }
  | removed {a : Action} {tx : Transaction} (ids : List Int) (ranges : List (Int × Int))
      (targets : Int → List RuleVariableParams) :
      ActionStep a tx { tx with
        ruleRemoveByID := ids, ruleRemoveByIDRanges := ranges, ruleRemoveTargetByID := targets }
  | forceRequestBody {a : Action} {tx : Transaction} (value : Bool) :
      ActionStep a tx { tx with forceRequestBodyVariable := value }
  /-- The settings of the request body are final after the request headers. -/
  | request {a : Action} {tx : Transaction} (access : Bool) (limit : Int)
      (h : tx.lastPhase ≤ phaseRequestHeaders) :
      ActionStep a tx { tx with requestBodyAccess := access, requestBodyLimit := limit }
  | requestProcessor {a : Action} {tx : Transaction} (name : Bytes)
      (h : tx.lastPhase ≤ phaseRequestHeaders) :
      ActionStep a tx (tx.modifyVariables (fun vars => vars.setSingle .reqbodyProcessor name))
  | forceResponseBody {tx : Transaction} (value : Bool) :
      ActionStep (.ctl (.forceResponseBodyVariable (some value))) tx
        { tx with forceResponseBodyVariable := value }
  /-- Those of the response body are final after the response headers. -/
  | response {a : Action} {tx : Transaction} (access : Bool) (limit : Int)
      (h : tx.lastPhase ≤ phaseResponseHeaders) :
      ActionStep a tx { tx with responseBodyAccess := access, responseBodyLimit := limit }
  | responseProcessor {a : Action} {tx : Transaction} (name : Bytes)
      (h : tx.lastPhase ≤ phaseResponseHeaders) :
      ActionStep a tx (tx.modifyVariables (fun vars => vars.setSingle .resBodyProcessor name))

theorem step_interrupt (a : Action) (tx : Transaction) (i : Interruption) :
    ActionStep a tx (tx.interrupt i) := by
  unfold Transaction.interrupt
  split
  · rename_i h
    exact .interrupt i h
  · split
    · exact .detect i
    · exact .same
  · exact .same

theorem step_removeRules (a : Action) : ∀ (labels : List RuleLabel) (tx : Transaction),
    ActionStep a tx (labels.foldl (fun tx l => tx.removeRuleByID l.id) tx) := by
  have h : ∀ (labels : List RuleLabel) (tx : Transaction), ∃ ids,
      labels.foldl (fun tx l => tx.removeRuleByID l.id) tx = { tx with ruleRemoveByID := ids } := by
    intro labels
    induction labels with
    | nil => exact fun tx => ⟨_, rfl⟩
    | cons l labels ih => exact fun tx => ih (tx.removeRuleByID l.id)
  intro labels tx
  obtain ⟨ids, hids⟩ := h labels tx
  rw [hids]
  exact .removed ids tx.ruleRemoveByIDRanges tx.ruleRemoveTargetByID

theorem step_removeTargets (a : Action) (labels : List RuleLabel) (p : RuleLabel → Bool)
    (v : RuleVariable) (key : Bytes) (keyRx : Option (Bytes → Bool)) (tx : Transaction) :
    ActionStep a tx (removeTargets labels p v key keyRx tx) := by
  have h : ∀ (labels : List RuleLabel) (tx : Transaction), ∃ targets,
      labels.foldl (fun tx l => tx.removeRuleTargetByID l.id v key keyRx) tx
        = { tx with ruleRemoveTargetByID := targets } := by
    intro labels
    induction labels with
    | nil => exact fun tx => ⟨_, rfl⟩
    | cons l labels ih => exact fun tx => ih (tx.removeRuleTargetByID l.id v key keyRx)
  obtain ⟨targets, htargets⟩ := h (labels.filter p) tx
  unfold removeTargets
  rw [htargets]
  exact .removed tx.ruleRemoveByID tx.ruleRemoveByIDRanges targets

theorem Ctl.evaluate_step (labels : List RuleLabel) (tx : Transaction) (c : Ctl) :
    ActionStep (.ctl c) tx (c.evaluate labels tx) := by
  unfold Ctl.evaluate
  split
  · exact .auditEngine _
  · exact .forceRequestBody _
  · split
    · rename_i h
      exact .request _ tx.requestBodyLimit h
    · exact .same
  · split
    · rename_i h
      exact .request tx.requestBodyAccess _ h
    · exact .same
  · split
    · rename_i h
      exact .requestProcessor _ h
    · exact .same
  · exact .ruleEngine _
  · exact .removed _ tx.ruleRemoveByIDRanges tx.ruleRemoveTargetByID
  · exact .removed tx.ruleRemoveByID _ tx.ruleRemoveTargetByID
  · exact step_removeRules _ _ _
  · exact step_removeRules _ _ _
  · exact step_removeTargets ..
  · exact step_removeTargets ..
  · exact step_removeTargets ..
  · split
    · rename_i h
      exact .response _ tx.responseBodyLimit h
    · exact .same
  · split
    · rename_i h
      exact .response tx.responseBodyAccess _ h
    · exact .same
  · exact .forceResponseBody _
  · split
    · rename_i h
      exact .responseProcessor _ h
    · exact .same
  · exact .same

/-- **Every action does one of these things.** -/
theorem Action.evaluate_step (labels : List RuleLabel) (r : Rule) (tx : Transaction) (a : Action) :
    ActionStep a tx (a.evaluate labels r tx) := by
  unfold Action.evaluate
  split
  · exact step_interrupt ..
  · exact step_interrupt ..
  · exact step_interrupt ..
  · unfold Transaction.allow
    split
    · exact .flow _ tx.skip tx.skipAfter
    · exact .same
  · exact .flow tx.allowType _ tx.skipAfter
  · exact .flow tx.allowType tx.skip _
  · exact Ctl.evaluate_step ..
  · exact .vars rfl
  · exact .vars rfl
  · exact .same

/-! ### What an action keeps -/

/-- What decides which rules are evaluated, removals apart. -/
structure FlowFrame (tx tx' : Transaction) : Prop where
  interruption : tx'.interruption = tx.interruption
  skipAfter : tx'.skipAfter = tx.skipAfter
  allowType : tx'.allowType = tx.allowType

theorem FlowFrame.refl (tx : Transaction) : FlowFrame tx tx := ⟨rfl, rfl, rfl⟩

theorem FlowFrame.trans {tx tx' tx'' : Transaction} (h : FlowFrame tx tx')
    (h' : FlowFrame tx' tx'') : FlowFrame tx tx'' :=
  ⟨h'.interruption.trans h.interruption, h'.skipAfter.trans h.skipAfter,
    h'.allowType.trans h.allowType⟩

theorem flowFrame_ctl (labels : List RuleLabel) (tx : Transaction) (c : Ctl) :
    FlowFrame tx (c.evaluate labels tx) := by
  have hremove : ∀ (tx : Transaction) (l : RuleLabel), FlowFrame tx (tx.removeRuleByID l.id) :=
    fun tx l => ⟨rfl, rfl, rfl⟩
  have htarget : ∀ v key keyRx (tx : Transaction) (l : RuleLabel),
      FlowFrame tx (tx.removeRuleTargetByID l.id v key keyRx) :=
    fun v key keyRx tx l => ⟨rfl, rfl, rfl⟩
  unfold Ctl.evaluate
  split
  any_goals exact ⟨rfl, rfl, rfl⟩
  any_goals split_ifs <;> exact ⟨rfl, rfl, rfl⟩
  any_goals exact foldl_frame .refl (fun _ _ _ => .trans) hremove _ _
  all_goals exact foldl_frame .refl (fun _ _ _ => .trans) (htarget _ _ _) _ _

/-- Only `deny`, `drop` and `redirect` interrupt. -/
theorem interruption_evaluate (labels : List RuleLabel) {r : Rule} {a : Action}
    (h : a.interruption r = none) (tx : Transaction) :
    (a.evaluate labels r tx).interruption = tx.interruption := by
  unfold Action.evaluate
  split
  any_goals rfl
  any_goals cases h
  · unfold Transaction.allow
    split <;> rfl
  · exact (flowFrame_ctl labels tx _).interruption

def Action.skipTarget : Action → Option Bytes
  | .skipAfter marker => some marker
  | _ => none

theorem interrupt_keeps (tx : Transaction) (i : Interruption) :
    (tx.interrupt i).skipAfter = tx.skipAfter ∧ (tx.interrupt i).allowType = tx.allowType := by
  unfold Transaction.interrupt
  split
  · exact ⟨rfl, rfl⟩
  · split <;> exact ⟨rfl, rfl⟩
  · exact ⟨rfl, rfl⟩

/-- Only `skipAfter` sets the marker that is skipped to. -/
theorem skipAfter_evaluate (labels : List RuleLabel) (r : Rule) (a : Action) (tx : Transaction) :
    (a.evaluate labels r tx).skipAfter = a.skipTarget.getD tx.skipAfter := by
  unfold Action.evaluate
  split
  any_goals rfl
  any_goals exact (interrupt_keeps tx _).1
  · unfold Transaction.allow
    split <;> rfl
  · exact (flowFrame_ctl labels tx _).skipAfter
  · rename_i hskipAfter _ _ _
    cases a with
    | skipAfter marker => exact (hskipAfter marker rfl).elim
    | _ => rfl

/-! ### What a phase keeps -/

section

variable {labels : List RuleLabel} {rules : List Rule} {tx tx' : Transaction}

section

variable (h : EvalStep labels rules tx tx')
include h

theorem EvalStep.interruption (hint : tx.isInterrupted = true) : tx'.isInterrupted = true := by
  cases h with
  | rule h =>
    cases h with
    | @action r hr a ha =>
      have hstep := a.evaluate_step labels r tx
      generalize a.evaluate labels r tx = tx' at hstep ⊢
      cases hstep with
      | interrupt i h => rfl
      | _ => exact hint
    | _ => exact hint
  | _ => exact hint

theorem EvalStep.requestSettings (hphase : phaseRequestHeaders < tx.lastPhase) :
    tx'.requestBodyAccess = tx.requestBodyAccess ∧ tx'.requestBodyLimit = tx.requestBodyLimit := by
  cases h with
  | rule h =>
    cases h with
    | @action r hr a ha =>
      have hstep := a.evaluate_step labels r tx
      generalize a.evaluate labels r tx = tx' at hstep ⊢
      cases hstep with
      | request access limit h => exact absurd h (Nat.not_le.mpr hphase)
      | _ => exact ⟨rfl, rfl⟩
    | _ => exact ⟨rfl, rfl⟩
  | _ => exact ⟨rfl, rfl⟩

theorem EvalStep.responseSettings (hphase : phaseResponseHeaders < tx.lastPhase) :
    tx'.responseBodyAccess = tx.responseBodyAccess ∧
      tx'.responseBodyLimit = tx.responseBodyLimit := by
  cases h with
  | rule h =>
    cases h with
    | @action r hr a ha =>
      have hstep := a.evaluate_step labels r tx
      generalize a.evaluate labels r tx = tx' at hstep ⊢
      cases hstep with
      | response access limit h => exact absurd h (Nat.not_le.mpr hphase)
      | _ => exact ⟨rfl, rfl⟩
    | _ => exact ⟨rfl, rfl⟩
  | _ => exact ⟨rfl, rfl⟩

/-- Only `ctl:forceResponseBodyVariable` changes what it is named after. -/
theorem EvalStep.forceResponseBodyVariable
    (hrules : ∀ r ∈ rules, ∀ value, .ctl (.forceResponseBodyVariable (some value)) ∉ r.actions) :
    tx'.forceResponseBodyVariable = tx.forceResponseBodyVariable := by
  cases h with
  | rule h =>
    cases h with
    | @action r hr a ha =>
      have hstep := a.evaluate_step labels r tx
      generalize a.evaluate labels r tx = tx' at hstep ⊢
      cases hstep with
      | forceResponseBody value => exact absurd ha (hrules r hr value)
      | _ => rfl
    | _ => rfl
  | _ => rfl

end

/-- A single-valued variable that the evaluation of rules never sets. -/
def untouched (v : RuleVariable) : Bool :=
  v ≠ .matchedVar ∧ v ≠ .matchedVarName ∧ v ≠ .highestSeverity ∧ v ≠ .reqbodyProcessor ∧
    v ≠ .resBodyProcessor

theorem EvalStep.single (h : EvalStep labels rules tx tx') {v : RuleVariable}
    (hv : untouched v = true) : tx'.vars.single v = tx.vars.single v := by
  obtain ⟨h₁, h₂, h₃, h₄, h₅⟩ := of_decide_eq_true hv
  cases h with
  | rule h =>
    cases h with
    | vars h => exact h v h₁ h₂ h₃
    | @matched r hr mds =>
      show (r.highestSeverity tx.vars).single v = _
      unfold Rule.highestSeverity
      split
      · rw [Variables.setSingle_single, if_neg h₃]
      · rfl
    | @action r hr a ha =>
      have hstep := a.evaluate_step labels r tx
      generalize a.evaluate labels r tx = tx' at hstep ⊢
      cases hstep with
      | vars h => exact congrFun h v
      | requestProcessor name h => exact (Variables.setSingle_single ..).trans (if_neg h₄)
      | responseProcessor name h => exact (Variables.setSingle_single ..).trans (if_neg h₅)
      | _ => rfl
    | _ => rfl
  | _ => rfl

end

section

variable {rg : RuleGroup} {env : RuleEnv} {phase : Nat}

/-- **The invariant rule of a phase.** -/
theorem RuleGroup.eval_invariant {P : Transaction → Prop} {tx : Transaction}
    (hbegin : P (beginPhase phase tx))
    (hstep : ∀ tx tx', EvalStep env.labels (rg.phaseRules phase) tx tx' → tx.lastPhase = phase →
      P tx → P tx')
    (hend : ∀ tx, P tx → P (endPhase tx)) : P (rg.eval env phase tx) := by
  have hsteps : EvalSteps env.labels (rg.phaseRules phase) (beginPhase phase tx)
      (evalLoop env phase rg (beginPhase phase tx)) :=
    rg.evalLoop_steps phase (fun _ hr => hr) _
  have hloop := hsteps.invariant (P := fun tx => tx.lastPhase = phase ∧ P tx)
    (fun tx tx' h ⟨hphase, hP⟩ => ⟨h.frame.lastPhase.trans hphase, hstep tx tx' h hphase hP⟩)
    ⟨rfl, hbegin⟩
  exact hend _ hloop.2

theorem RuleGroup.eval_buffers (tx : Transaction) :
    (rg.eval env phase tx).requestBodyBuffer = tx.requestBodyBuffer ∧
      (rg.eval env phase tx).responseBodyBuffer = tx.responseBodyBuffer := by
  refine eval_invariant (P := fun tx' => tx'.requestBodyBuffer = tx.requestBodyBuffer ∧
    tx'.responseBodyBuffer = tx.responseBodyBuffer) ⟨rfl, rfl⟩ ?_ (fun tx h => h)
  rintro tx₁ tx₂ h - ⟨hreq, hres⟩
  exact ⟨h.frame.requestBodyBuffer.trans hreq, h.frame.responseBodyBuffer.trans hres⟩

theorem RuleGroup.eval_interruption {tx : Transaction} (hint : tx.isInterrupted = true) :
    (rg.eval env phase tx).isInterrupted = true :=
  eval_invariant (P := fun tx => tx.isInterrupted = true) hint (fun _ _ h _ => h.interruption)
    (fun _ h => h)

theorem RuleGroup.eval_requestSettings (hphase : phaseRequestHeaders < phase) (tx : Transaction) :
    (rg.eval env phase tx).requestBodyAccess = tx.requestBodyAccess ∧
      (rg.eval env phase tx).requestBodyLimit = tx.requestBodyLimit := by
  refine eval_invariant (P := fun tx' => tx'.requestBodyAccess = tx.requestBodyAccess ∧
    tx'.requestBodyLimit = tx.requestBodyLimit) ⟨rfl, rfl⟩ ?_ (fun tx h => h)
  rintro tx₁ tx₂ h hlast ⟨haccess, hlimit⟩
  obtain ⟨haccess', hlimit'⟩ := h.requestSettings (hlast ▸ hphase)
  exact ⟨haccess'.trans haccess, hlimit'.trans hlimit⟩

theorem RuleGroup.eval_responseSettings (hphase : phaseResponseHeaders < phase) (tx : Transaction) :
    (rg.eval env phase tx).responseBodyAccess = tx.responseBodyAccess ∧
      (rg.eval env phase tx).responseBodyLimit = tx.responseBodyLimit := by
  refine eval_invariant (P := fun tx' => tx'.responseBodyAccess = tx.responseBodyAccess ∧
    tx'.responseBodyLimit = tx.responseBodyLimit) ⟨rfl, rfl⟩ ?_ (fun tx h => h)
  rintro tx₁ tx₂ h hlast ⟨haccess, hlimit⟩
  obtain ⟨haccess', hlimit'⟩ := h.responseSettings (hlast ▸ hphase)
  exact ⟨haccess'.trans haccess, hlimit'.trans hlimit⟩

theorem RuleGroup.eval_forceResponseBodyVariable (hrules : ∀ r ∈ rg.phaseRules phase, ∀ value,
      .ctl (.forceResponseBodyVariable (some value)) ∉ r.actions) (tx : Transaction) :
    (rg.eval env phase tx).forceResponseBodyVariable = tx.forceResponseBodyVariable :=
  eval_invariant (P := fun tx' => tx'.forceResponseBodyVariable = tx.forceResponseBodyVariable)
    rfl (fun _ _ h _ heq => (h.forceResponseBodyVariable hrules).trans heq) (fun _ h => h)

theorem RuleGroup.eval_single {v : RuleVariable} (hv : untouched v = true) (tx : Transaction) :
    (rg.eval env phase tx).vars.single v = tx.vars.single v :=
  eval_invariant (P := fun tx' => tx'.vars.single v = tx.vars.single v) rfl
    (fun _ _ h _ heq => (h.single hv).trans heq) (fun _ h => h)

end

end Coraza.Waf
