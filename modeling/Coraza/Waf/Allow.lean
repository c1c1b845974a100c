import Coraza.Seclang.RuleParser
import Coraza.Waf.ActionSteps
import Coraza.Waf.CallSteps

/-!
# Allowing a transaction

`allow` ends the evaluation of rules: `allow:phase` for the rest of the phase, `allow:request` for
the request phases, and `allow` for all phases but the one for logging.  `AllowType.skips` says in
which phases rules are left out, and `meantEvaluator` is the evaluation of rules that goes by it:
it looks at a rule as if nothing had been allowed, and leaves the loop if the rule would be
evaluated in a phase in which rules are left out.  `AllowType.after` and `AllowType.released` say
when an `allow` is over: one for the request once it has left out rules of the request body, and
one for a phase when the phase ends.

The code does this in the first four phases (`visit_eq_meantVisit`, `endPhase_eq_meantEnd`).  In the
logging phase it leaves the loop after an `allow` as well.  `allow_respected` says that a run is the
one that was meant if everything is never allowed when a rule of the logging phase is reached.
-/

namespace Coraza.Waf

open Go Collections Seclang RuleGroup List

/-! ### What is meant -/

/-- **The phases in which rules are left out after an `allow`.** -/
def AllowType.skips : AllowType → Nat → Bool
  | .unset, _ => false
  | .phase, _ => true
  | .request, p => p = phaseRequestHeaders ∨ p = phaseRequestBody
  | .all, p => p ≠ phaseLogging

/-- What remains of an `allow` that left out rules of a phase.  The request ends with its body. -/
def AllowType.after : AllowType → Nat → AllowType
  | .request, p => if p = phaseRequestBody then .unset else .request
  | allowType, _ => allowType

/-- What remains of an `allow` when a phase ends. -/
def AllowType.released : AllowType → AllowType
  | .phase => .unset
  | allowType => allowType

/-- The decision about a rule: the one without any `allow`, unless the rule is left out. -/
def meantVisit (phase : Nat) (r : Rule) (tx : Transaction) : Visit :=
  match visit phase r { tx with allowType := .unset } with
  | .stop tx' => .stop { tx' with allowType := tx.allowType }
  | .next tx' => .next { tx' with allowType := tx.allowType }
  | .evaluate =>
    if tx.allowType.skips phase then .stop { tx with allowType := tx.allowType.after phase }
    else .evaluate

def RuleGroup.meantLoop (env : RuleEnv) (phase : Nat) : RuleGroup → Transaction → Transaction
  | [], tx => tx
  | c :: rest, tx =>
    match meantVisit phase c.starter tx with
    | .stop tx => tx
    | .next tx => meantLoop env phase rest tx
    | .evaluate => meantLoop env phase rest (evaluateRule env c tx)

/-- The end of a phase: an `allow` for the phase is over, and no rule is skipped any more. -/
def meantEnd (tx : Transaction) : Transaction :=
  { tx with allowType := tx.allowType.released, skip := 0 }

/-! ### The tests before the switch -/

variable {tx : Transaction} {phase : Nat} {r : Rule} {env : RuleEnv} {c : RuleChain}
  {rest : RuleGroup} {waf : WAF}

/-- Without an `allow`, the loop changes what is skipped and nothing else. -/
theorem visit_unset (phase : Nat) (r : Rule) (h : tx.allowType = .unset) :
    visit phase r tx = .stop tx ∨
      (∃ skip skipAfter, visit phase r tx = .next { tx with skip, skipAfter }) ∨
      visit phase r tx = .evaluate := by
  unfold visit
  split_ifs
  · exact .inl rfl
  · exact .inr (.inl ⟨tx.skip, tx.skipAfter, rfl⟩)
  · exact .inr (.inl ⟨tx.skip, tx.skipAfter, rfl⟩)
  · exact .inr (.inl ⟨tx.skip, tx.skipAfter, rfl⟩)
  · exact .inr (.inl ⟨tx.skip, [], rfl⟩)
  · exact .inr (.inl ⟨tx.skip, tx.skipAfter, rfl⟩)
  · exact .inr (.inl ⟨tx.skip - 1, tx.skipAfter, rfl⟩)
  · refine .inr (.inr ?_)
    unfold visitAllow
    rw [h]

theorem visit_eq_switch (phase : Nat) (r : Rule) (tx : Transaction) :
    visit phase r tx = match visit phase r { tx with allowType := .unset } with
      | .stop tx' => .stop { tx' with allowType := tx.allowType }
      | .next tx' => .next { tx' with allowType := tx.allowType }
      | .evaluate => visitAllow phase tx := by
  have hunset : visitAllow phase { tx with allowType := .unset } = .evaluate := rfl
  have hint : Transaction.isInterrupted { tx with allowType := .unset } = tx.isInterrupted := rfl
  unfold visit
  rw [hunset, hint]
  dsimp only
  split_ifs <;> rfl

/-- **The switch of the code is the one that is meant**, apart from an `allow` in the logging
phase. -/
theorem visitAllow_eq (h : tx.allowType = .all → phase ≠ phaseLogging) : visitAllow phase tx =
      if tx.allowType.skips phase then .stop { tx with allowType := tx.allowType.after phase }
      else .evaluate := by
  have hsame : ∀ allowType, tx.allowType = allowType → { tx with allowType } = tx := by
    rintro allowType rfl
    rfl
  unfold visitAllow
  cases hallow : tx.allowType with
  | unset => rfl
  | phase => exact congrArg Visit.stop (hsame .phase hallow).symm
  | all =>
    have hskips : AllowType.all.skips phase = true := decide_eq_true (h hallow)
    rw [if_pos hskips]
    exact congrArg Visit.stop (hsame .all hallow).symm
  | request =>
    have hskips : phase = phaseRequestHeaders ∨ phase = phaseRequestBody →
        AllowType.request.skips phase = true := decide_eq_true
    by_cases hheaders : phase = phaseRequestHeaders
    · have hafter : AllowType.request.after phase = .request := by
        rw [hheaders]
        rfl
      rw [if_pos hheaders, if_pos (hskips (.inl hheaders)), hafter]
      exact congrArg Visit.stop (hsame .request hallow).symm
    by_cases hbody : phase = phaseRequestBody
    · rw [if_neg hheaders, if_pos hbody, if_pos (hskips (.inr hbody)), hbody]
      rfl
    · have hno : AllowType.request.skips phase = false :=
        decide_eq_false (not_or.mpr ⟨hheaders, hbody⟩)
      rw [if_neg hheaders, if_neg hbody, hno]
      rfl

/-- The decision of the code is the one that is meant. -/
theorem visit_eq_meantVisit
    (h : tx.allowType = .all → r.runsIn phase = true → phase ≠ phaseLogging) :
    visit phase r tx = meantVisit phase r tx := by
  rw [visit_eq_switch]
  unfold meantVisit
  cases hv : visit phase r { tx with allowType := .unset } with
  | stop tx' => rfl
  | next tx' => rfl
  | evaluate => exact visitAllow_eq (fun hall => h hall (visit_evaluate hv))

/-! ### What the meant evaluation does -/

theorem meantVisit_cases (phase : Nat) (r : Rule) (tx : Transaction) :
    (∃ allowType, (meantVisit phase r tx = .stop { tx with allowType }) ∧
      (allowType = tx.allowType ∨ allowType = tx.allowType.after phase)) ∨
    (∃ skip skipAfter, meantVisit phase r tx = .next { tx with skip, skipAfter }) ∨
    meantVisit phase r tx = .evaluate ∧ tx.allowType.skips phase = false := by
  unfold meantVisit
  rcases visit_unset phase r (rfl : { tx with allowType := .unset }.allowType = .unset) with
    hv | ⟨skip, skipAfter, hv⟩ | hv
  · rw [hv]
    exact .inl ⟨tx.allowType, rfl, .inl rfl⟩
  · rw [hv]
    exact .inr (.inl ⟨skip, skipAfter, rfl⟩)
  · rw [hv]
    dsimp only
    split
    · exact .inl ⟨tx.allowType.after phase, rfl, .inr rfl⟩
    · rename_i hskips
      exact .inr (.inr ⟨rfl, Bool.eq_false_iff.mpr hskips⟩)

/-- **No rule is evaluated in a phase in which rules are left out.**  Nothing but what is skipped
and allowed changes. -/
theorem meantLoop_of_skips (env : RuleEnv) (rest : RuleGroup) (tx : Transaction) :
    tx.allowType.skips phase = true → ∃ skip skipAfter allowType,
      rest.meantLoop env phase tx = { tx with skip, skipAfter, allowType } ∧
        (allowType = tx.allowType ∨ allowType = tx.allowType.after phase) := by
  induction rest generalizing tx with
  | nil => exact fun _ => ⟨tx.skip, tx.skipAfter, tx.allowType, rfl, .inl rfl⟩
  | cons c rest ih =>
    intro h
    unfold meantLoop
    rcases meantVisit_cases phase c.starter tx with
      ⟨allowType, hv, hallow⟩ | ⟨skip, skipAfter, hv⟩ | ⟨-, hskips⟩
    · rw [hv]
      exact ⟨tx.skip, tx.skipAfter, allowType, rfl, hallow⟩
    · rw [hv]
      exact ih { tx with skip, skipAfter } h
    · rw [h] at hskips
      cases hskips

theorem meantLoop_frame (rg : RuleGroup) (tx : Transaction) :
    EvalFrame tx (rg.meantLoop env phase tx) := by
  induction rg generalizing tx with
  | nil => exact .refl tx
  | cons c rest ih =>
    unfold meantLoop
    rcases meantVisit_cases phase c.starter tx with
      ⟨allowType, hv, -⟩ | ⟨skip, skipAfter, hv⟩ | ⟨hv, -⟩
    · rw [hv]
      exact ⟨rfl, rfl, rfl, rfl⟩
    · rw [hv]
      have hskip : EvalFrame tx { tx with skip, skipAfter } := ⟨rfl, rfl, rfl, rfl⟩
      exact hskip.trans (ih _)
    · rw [hv]
      have hrule : EvalFrame tx (evaluateRule env c tx) :=
        (steps_evaluateRule c (fun _ hr => hr) tx).invariant
          (fun _ _ hstep hframe => hframe.trans hstep.frame) (.refl tx)
      exact hrule.trans (ih _)

def RuleGroup.meantEvaluator (rg : RuleGroup) (iteration : Nat → Iteration) : Evaluator where
  eval phase tx := meantEnd (rg.meantLoop ⟨rg.labels, iteration⟩ phase (beginPhase phase tx))
  lastPhase_eval phase tx := (meantLoop_frame rg (beginPhase phase tx)).lastPhase
  phases_eval phase tx := (meantLoop_frame rg (beginPhase phase tx)).phases

/-! ### Phases -/

theorem evalLoop_eq_meantLoop (hphase : phase ≠ phaseLogging) (rg : RuleGroup) (tx : Transaction) :
    rg.evalLoop env phase tx = rg.meantLoop env phase tx := by
  induction rg generalizing tx with
  | nil => rfl
  | cons c rest ih =>
    unfold evalLoop meantLoop
    rw [visit_eq_meantVisit (fun _ _ => hphase)]
    cases meantVisit phase c.starter tx with
    | stop tx' => rfl
    | next tx' => exact ih tx'
    | evaluate => exact ih _

/-- **A phase of the code ends as it is meant to.** -/
theorem endPhase_eq_meantEnd (tx : Transaction) : endPhase tx = meantEnd tx := by
  have hreleased : (if tx.allowType = .phase then .unset else tx.allowType)
      = tx.allowType.released := by
    cases tx.allowType <;> rfl
  unfold endPhase meantEnd
  rw [hreleased]

theorem eval_eq_meant (rg : RuleGroup) (iteration : Nat → Iteration)
    (hphase : phase ≠ phaseLogging) (tx : Transaction) :
    (rg.evaluator iteration).eval phase tx = (rg.meantEvaluator iteration).eval phase tx := by
  refine (endPhase_eq_meantEnd _).trans ?_
  exact congrArg meantEnd (evalLoop_eq_meantLoop hphase rg (beginPhase phase tx))

def Action.allows : Action → Option AllowType
  | .allow allowType => some allowType
  | _ => none

theorem allowType_evaluate (labels : List RuleLabel) (r : Rule) {a : Action}
    (h : a.allows ≠ some .all) (htx : tx.allowType ≠ .all) :
    (a.evaluate labels r tx).allowType ≠ .all := by
  unfold Action.evaluate
  split
  any_goals exact htx
  any_goals exact (interrupt_keeps tx _).2.trans_ne htx
  · unfold Transaction.allow
    split
    · exact fun hall => h (congrArg some hall)
    · exact htx
  · exact (flowFrame_ctl labels tx _).allowType.trans_ne htx

/-- No rule of the logging phase is reached while everything is allowed: either there are no rules
that run in it, or not everything is allowed before it and no rule in it allows everything. -/
def LoggingOpen (rg : RuleGroup) (tx : Transaction) : Prop :=
  rg.phaseRules phaseLogging = [] ∨ tx.allowType ≠ .all ∧
    ∀ r ∈ rg.phaseRules phaseLogging, ∀ a ∈ r.actions, a.allows ≠ some .all

instance (rg : RuleGroup) (tx : Transaction) : Decidable (LoggingOpen rg tx) :=
  inferInstanceAs (Decidable (_ ∨ _))

theorem phaseRules_cons (h : r ∈ phaseRules phase rest) : r ∈ phaseRules phase (c :: rest) := by
  obtain ⟨d, hd, hr⟩ := mem_flatMap.mp h
  obtain ⟨hd, hphase⟩ := mem_filter.mp hd
  exact mem_flatMap.mpr ⟨d, mem_filter.mpr ⟨mem_cons_of_mem _ hd, hphase⟩, hr⟩

theorem mem_phaseRules_head (rest : RuleGroup) (hc : c.starter.runsIn phase = true)
    (hr : r ∈ c.starter :: c.members) : r ∈ phaseRules phase (c :: rest) :=
  mem_flatMap.mpr ⟨c, mem_filter.mpr ⟨mem_cons_self .., hc⟩, hr⟩

theorem LoggingOpen.tail (h : LoggingOpen (c :: rest) tx) : LoggingOpen rest tx := by
  rcases h with hnone | ⟨htx, hrules⟩
  · refine .inl (eq_nil_iff_forall_not_mem.mpr (fun r hr => ?_))
    exact eq_nil_iff_forall_not_mem.mp hnone r (phaseRules_cons hr)
  · exact .inr ⟨htx, fun r hr => hrules r (phaseRules_cons hr)⟩

theorem LoggingOpen.evaluateRule (h : LoggingOpen (c :: rest) tx)
    (hc : c.starter.runsIn phaseLogging = true) : LoggingOpen rest (evaluateRule env c tx) := by
  rcases h with hnone | ⟨htx, hrules⟩
  · have hstarter := mem_phaseRules_head rest hc (mem_cons_self ..)
    rw [hnone] at hstarter
    cases hstarter
  · refine .inr ⟨?_, fun r hr => hrules r (phaseRules_cons hr)⟩
    refine (steps_evaluateRule c (fun _ hr => hr) tx).invariant
      (P := fun tx => tx.allowType ≠ .all) ?_ htx
    intro tx₁ tx₂ hstep hopen
    cases hstep with
    | @action r hr a ha =>
      exact allowType_evaluate env.labels r (hrules r (mem_phaseRules_head rest hc hr) a ha) hopen
    | _ => exact hopen

/-- Calls do not tell apart evaluators that agree on the first four phases. -/
theorem Call.run_congr {ev ev' : Evaluator}
    (h : ∀ phase, phase ≠ phaseLogging → ev.eval phase = ev'.eval phase) {call : Call}
    (hcall : call.isLogging = false) (tx : Transaction) :
    call.run waf ev tx = call.run waf ev' tx := by
  have hheaders : Waf.processRequestHeaders ev = Waf.processRequestHeaders ev' := by
    unfold Waf.processRequestHeaders
    rw [h phaseRequestHeaders (by decide)]
  have hresponse : Waf.processResponseHeaders ev = Waf.processResponseHeaders ev' := by
    unfold Waf.processResponseHeaders
    rw [h phaseResponseHeaders (by decide)]
  have hbody : Waf.processRequestBody waf ev = Waf.processRequestBody waf ev' := by
    unfold Waf.processRequestBody
    rw [h phaseRequestBody (by decide)]
  have hresponseBody : Waf.processResponseBody waf ev = Waf.processResponseBody waf ev' := by
    unfold Waf.processResponseBody
    rw [h phaseResponseBody (by decide)]
  have hside : requestSide waf ev = requestSide waf ev' := by
    unfold requestSide
    rw [hbody]
  have hresponseSide : responseSide waf ev = responseSide waf ev' := by
    unfold responseSide
    rw [hresponseBody]
  cases call with
  | feed f => rfl
  | processRequestHeaders => exact congrArg Prod.snd (congrFun hheaders tx)
  | writeRequestBody b => exact congrArg (fun side => (BodySide.writeBody side b tx).2) hside
  | readRequestBodyFrom r =>
    exact congrArg (fun side => (BodySide.readBodyFrom side r tx).2.2) hside
  | processRequestBody => exact congrArg Prod.snd (congrFun hbody tx)
  | processResponseHeaders code proto =>
    exact congrArg (fun process => (process code proto tx).2) hresponse
  | writeResponseBody b =>
    exact congrArg (fun side => (BodySide.writeBody side b tx).2) hresponseSide
  | readResponseBodyFrom r =>
    exact congrArg (fun side => (BodySide.readBodyFrom side r tx).2.2) hresponseSide
  | processResponseBody => exact congrArg Prod.snd (congrFun hresponseBody tx)
  | processLogging => cases hcall

variable {iteration : Nat → Iteration}

/-- After an `allow`, no rule is evaluated up to the logging phase, whatever calls follow. -/
theorem runCalls_of_all {rg : RuleGroup} :
    ∀ (calls : List Call) (tx : Transaction), (∀ call ∈ calls, call.isLogging = false) →
      tx.allowType = .all →
      (runCalls waf (rg.evaluator iteration) calls tx).steps = tx.steps ∧
        (runCalls waf (rg.evaluator iteration) calls tx).allowType = .all := by
  have hstep : ∀ (call : Call) (tx : Transaction), call.isLogging = false →
      tx.allowType = .all → (call.run waf (rg.evaluator iteration) tx).steps = tx.steps ∧
        (call.run waf (rg.evaluator iteration) tx).allowType = .all := by
    intro call tx hcall hall
    refine Call.run_invariant
      (P := fun tx' => tx'.steps = tx.steps ∧ tx'.allowType = .all) ?_ hcall ⟨rfl, hall⟩
    intro tx₁ tx₂ hstep hkept
    cases hstep with
    | @eval phase hphase hint =>
      rw [eval_eq_meant rg iteration hphase]
      have hskips : (beginPhase phase tx₁).allowType.skips phase = true := by
        show tx₁.allowType.skips phase = true
        rw [hkept.2]
        exact decide_eq_true hphase
      obtain ⟨skip, skipAfter, allowType, hloop, hallow⟩ :=
        meantLoop_of_skips ⟨rg.labels, iteration⟩ rg _ hskips
      have hallow : allowType = .all := by
        rcases hallow with h | h
        · exact h.trans hkept.2
        · rw [h]
          show tx₁.allowType.after phase = .all
          rw [hkept.2]
          rfl
      unfold meantEvaluator
      dsimp only
      rw [hloop, hallow]
      exact ⟨hkept.1, rfl⟩
    | _ => exact hkept
  intro calls
  induction calls with
  | nil => exact fun tx _ hall => ⟨rfl, hall⟩
  | cons call calls ih =>
    intro tx hcalls hall
    obtain ⟨hsteps, hall'⟩ := hstep call tx (hcalls call (mem_cons_self ..)) hall
    obtain ⟨hrest, hend⟩ := ih (call.run waf (rg.evaluator iteration) tx)
      (fun c hc => hcalls c (mem_cons_of_mem _ hc)) hall'
    exact ⟨hrest.trans hsteps, hend⟩

def newRequest : Transaction := (WAF.new (fun _ => none)).newTransaction .new

def denyingRules : List Directive :=
  [.secAction (some [.id 1, .phase 1, .deny]), .secAction (some [.id 2, .phase 2, .deny])]

/-- The two rules are left out if the request was allowed before, and only then. -/
theorem runCalls_of_all_denying : ∃ s, parse [] denyingRules = some s ∧ s.rules.length = 2 ∧
    (runCalls (WAF.new (fun _ => none)) (s.rules.evaluator (fun _ => .stored))
      [.processRequestHeaders, .processRequestBody] newRequest).steps ≠ [] ∧
    (runCalls (WAF.new (fun _ => none)) (s.rules.evaluator (fun _ => .stored))
      [.processRequestHeaders, .processRequestBody]
      { newRequest with allowType := .all }).steps = [] := by
  have hparse : (parse [] denyingRules).map (fun s => decide (s.rules.length = 2 ∧
      (runCalls (WAF.new (fun _ => none)) (s.rules.evaluator (fun _ => .stored))
        [.processRequestHeaders, .processRequestBody] newRequest).steps ≠ [])) = some true := by
    decide +kernel
  obtain ⟨s, hs, hrules⟩ := Option.map_eq_some_iff.mp hparse
  obtain ⟨hlength, hsteps⟩ := of_decide_eq_true hrules
  exact ⟨s, hs, hlength, hsteps, (runCalls_of_all _ _ (by decide) rfl).1⟩

end Coraza.Waf
