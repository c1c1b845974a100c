import Coraza.Waf.BodyLimits
import Coraza.Waf.CallSteps
import Coraza.Seclang.RuleParser

/-!
# Interruptions over whole runs

Rules interrupt a transaction only when the engine is on, but the limits of the bodies do not
look at the engine.  `detectionOnly_undisturbed` says what is true: while the mode is
`DetectionOnly` a run is not disrupted, if no body that would be rejected reaches its limit.

The functions that process a phase leave an interruption alone, but those for body bytes do not
look for one.  `first_interruption_final` says when an interruption is final.
-/

namespace Coraza.Waf

open Go Collections Seclang BodySide RuleGroup

/-! ### Detection only -/

/-- Setting the buffer leaves the mode and the interruption alone. -/
structure BodySide.Inert (side : BodySide) : Prop where
  ruleEngine : ∀ tx buffer, (side.setBuffer tx buffer).ruleEngine = tx.ruleEngine
  modes : ∀ tx buffer, (side.setBuffer tx buffer).modes = tx.modes
  interruption : ∀ tx buffer, (side.setBuffer tx buffer).interruption = tx.interruption

theorem requestSide_inert (waf : WAF) (ev : Evaluator) : (requestSide waf ev).Inert :=
  ⟨fun _ _ => rfl, fun _ _ => rfl, fun _ _ => rfl⟩

theorem responseSide_inert (waf : WAF) (ev : Evaluator) : (responseSide waf ev).Inert :=
  ⟨fun _ _ => rfl, fun _ _ => rfl, fun _ _ => rfl⟩

/-- **`DetectionOnly` has not disrupted.**  The history of the modes begins with that of the WAF.
If one of them was `DetectionOnly` and was set before there was an interruption, there was none
when the next mode was set, and there is none now if it is the last one. -/
structure Undisturbed (initial : RuleEngineStatus) (tx : Transaction) : Prop where
  mode : (tx.modes.getLastD (initial, false)).1 = tx.ruleEngine
  past : ((initial, false) :: tx.modes).IsChain
    (fun before after => before = (.detectionOnly, false) → after.2 = false)
  now : tx.modes.getLastD (initial, false) = (.detectionOnly, false) → tx.interruption = none

section

variable {initial : RuleEngineStatus} {tx tx' : Transaction} (h : Undisturbed initial tx)
include h

/-- Only the mode, its history and the interruption matter. -/
theorem Undisturbed.congr (hengine : tx'.ruleEngine = tx.ruleEngine)
    (hmodes : tx'.modes = tx.modes) (hint : tx'.interruption = tx.interruption) :
    Undisturbed initial tx' where
  mode := by
    rw [hmodes, hengine]
    exact h.mode
  past := by
    rw [hmodes]
    exact h.past
  now := by
    rw [hmodes, hint]
    exact h.now

/-- An interruption in the mode `DetectionOnly` is not the first one. -/
theorem Undisturbed.interrupt (hnext : tx.ruleEngine = .detectionOnly → tx.isInterrupted = true)
    (hengine : tx'.ruleEngine = tx.ruleEngine) (hmodes : tx'.modes = tx.modes) :
    Undisturbed initial tx' where
  mode := by
    rw [hmodes, hengine]
    exact h.mode
  past := by
    rw [hmodes]
    exact h.past
  now := by
    rw [hmodes]
    intro hlast
    have hint := hnext (h.mode.symm.trans (congrArg Prod.fst hlast))
    rw [Transaction.isInterrupted_eq_false.mpr (h.now hlast)] at hint
    cases hint

theorem Undisturbed.set (status : RuleEngineStatus) : Undisturbed initial
      { tx with ruleEngine := status, modes := tx.modes ++ [(status, tx.isInterrupted)] } where
  mode := by
    rw [List.getLastD_concat]
  past := by
    rw [← List.cons_append, List.isChain_append]
    refine ⟨h.past, .singleton _, ?_⟩
    intro before hbefore after hafter hquiet
    obtain rfl : (status, tx.isInterrupted) = after := Option.some.inj hafter
    have hlast : tx.modes.getLastD (initial, false) = before := by
      rw [List.getLast?_cons] at hbefore
      exact List.getLastD_eq_getLast?.trans (Option.some.inj hbefore)
    exact Transaction.isInterrupted_eq_false.mpr (h.now (hlast.trans hquiet))
  now := by
    rw [List.getLastD_concat]
    intro heq
    exact Transaction.isInterrupted_eq_false.mp (congrArg Prod.snd heq)

/-- A side that rejects interrupts only in another mode. -/
theorem Undisturbed.bodyStep {side : BodySide} {reached : Prop}
    (hside : side.Inert) (haction : side.limitAction = .reject)
    (hnot : tx.ruleEngine = .detectionOnly → tx.isInterrupted = false → ¬reached)
    (hstep : side.BodyStep reached tx tx') : Undisturbed initial tx' := by
  have hnext : reached → tx.ruleEngine = .detectionOnly → tx.isInterrupted = true :=
    fun hreached hmode => Bool.of_not_eq_false (fun hint => hnot hmode hint hreached)
  cases hstep with
  | same => exact h
  | stored buffer hoptions =>
    exact h.congr (hside.ruleEngine tx buffer) (hside.modes tx buffer)
      (hside.interruption tx buffer)
  | marked => exact h.congr rfl rfl rfl
  | markedStored buffer hoptions =>
    exact h.congr (hside.ruleEngine _ buffer) (hside.modes _ buffer) (hside.interruption _ buffer)
  | rejected haction hreached => exact h.interrupt (hnext hreached) rfl rfl
  | filled haction hreached buffer hoptions =>
    exact h.interrupt (hnext hreached) (hside.ruleEngine _ buffer) (hside.modes _ buffer)
  | processed hpart buffer hoptions => exact absurd (haction.symm.trans hpart) (by decide)

theorem Undisturbed.action {a : Action} (hstep : ActionStep a tx tx') :
    Undisturbed initial tx' := by
  cases hstep with
  | interrupt i hon => exact h.interrupt (fun hmode => by rw [hon] at hmode; cases hmode) rfl rfl
  | ruleEngine status => exact h.set status
  | _ => exact h.congr rfl rfl rfl

theorem Undisturbed.evalStep {labels : List RuleLabel} {rules : List Rule}
    (hstep : EvalStep labels rules tx tx') :
    Undisturbed initial tx' := by
  cases hstep with
  | rule hstep =>
    cases hstep with
    | @action r hr a ha => exact h.action (a.evaluate_step labels r tx)
    | _ => exact h.congr rfl rfl rfl
  | _ => exact h.congr rfl rfl rfl

end

section

variable {waf : WAF} {rg : RuleGroup} {iteration : Nat → Iteration} {initial : RuleEngineStatus}

theorem Undisturbed.eval {tx : Transaction} (h : Undisturbed initial tx) (phase : Nat) :
    Undisturbed initial ((rg.evaluator iteration).eval phase tx) := by
  refine eval_invariant (P := Undisturbed initial) ?_ ?_ ?_
  · exact h.congr rfl rfl rfl
  · exact fun tx tx' hstep _ h => h.evalStep hstep
  · exact fun tx h => h.congr rfl rfl rfl

theorem Undisturbed.call_partial {tx : Transaction} (h : Undisturbed initial tx) {call : Call}
    (hcall : call.limitAction waf = .processPartial) :
    Undisturbed initial (call.run waf (rg.evaluator iteration) tx) := by
  by_cases hlogging : call.isLogging = true
  · cases call with
    | processLogging =>
      show Undisturbed initial (processLogging _ tx)
      unfold processLogging
      split
      · exact h
      · exact h.eval _
    | _ => cases hlogging
  · -- no step of such a call is an interruption of the limit
    let accepting : WAF := { waf with
      requestBodyLimitAction := .processPartial
      responseBodyLimitAction := .processPartial }
    have hsteps : CallSteps accepting (rg.evaluator iteration) tx
        (call.run waf (rg.evaluator iteration) tx) :=
      Call.run_steps (Bool.not_eq_true _ ▸ hlogging) (fun hreject => by
        rw [hcall] at hreject
        cases hreject) tx
    refine CallSteps.invariant (fun tx tx' hstep h => ?_) hsteps h
    cases hstep with
    | vars vars asked => exact h.congr rfl rfl rfl
    | requestBody buffer hoptions => exact h.congr rfl rfl rfl
    | responseBody buffer hoptions => exact h.congr rfl rfl rfl
    | limit i hreject => rcases hreject with hreject | hreject <;> cases hreject
    | eval hphase hint => exact h.eval _

/-- A call reaches the limit of a body. -/
def Call.Reaches (waf : WAF) (ev : Evaluator) (tx : Transaction) : Call → Prop
  | .writeRequestBody b => (requestSide waf ev).WriteReaches b tx
  | .readRequestBodyFrom r => (requestSide waf ev).ReadReaches r tx
  | .writeResponseBody b => (responseSide waf ev).WriteReaches b tx
  | .readResponseBodyFrom r => (responseSide waf ev).ReadReaches r tx
  | _ => False

/-- A call that is made in the mode `DetectionOnly`, without an interruption, does not reach the
limit of a body that would be rejected. -/
def Call.Spares (waf : WAF) (ev : Evaluator) (tx : Transaction) (call : Call) : Prop :=
  tx.ruleEngine = .detectionOnly → tx.isInterrupted = false → call.limitAction waf = .reject →
    ¬call.Reaches waf ev tx

def SparedRun (waf : WAF) (ev : Evaluator) : List Call → Transaction → Prop
  | [], _ => True
  | call :: calls, tx => call.Spares waf ev tx ∧ SparedRun waf ev calls (call.run waf ev tx)

/-- **One call.** -/
theorem Undisturbed.call {tx : Transaction} (h : Undisturbed initial tx) {call : Call}
    (hcall : call.Spares waf (rg.evaluator iteration) tx) :
    Undisturbed initial (call.run waf (rg.evaluator iteration) tx) := by
  cases haction : call.limitAction waf with
  | processPartial => exact h.call_partial haction
  | reject =>
    have hspared : tx.ruleEngine = .detectionOnly → tx.isInterrupted = false →
        ¬call.Reaches waf (rg.evaluator iteration) tx := fun hmode hint => hcall hmode hint haction
    cases call with
    | writeRequestBody b =>
      exact h.bodyStep (requestSide_inert waf _) haction hspared
        (writeBody_bodyStep (requestSide_lawful _ _) b tx)
    | writeResponseBody b =>
      exact h.bodyStep (responseSide_inert waf _) haction hspared
        (writeBody_bodyStep (responseSide_lawful _ _) b tx)
    | readRequestBodyFrom r =>
      exact h.bodyStep (requestSide_inert waf _) haction hspared
        (readBodyFrom_bodyStep (requestSide_lawful _ _) r tx)
    | readResponseBodyFrom r =>
      exact h.bodyStep (responseSide_inert waf _) haction hspared
        (readBodyFrom_bodyStep (responseSide_lawful _ _) r tx)
    | _ => cases haction

/-- **A run.** -/
theorem Undisturbed.run (calls : List Call) (tx : Transaction) : Undisturbed initial tx →
    SparedRun waf (rg.evaluator iteration) calls tx →
    Undisturbed initial (runCalls waf (rg.evaluator iteration) calls tx) := by
  induction calls generalizing tx with
  | nil => exact fun h _ => h
  | cons call calls ih => exact fun h hspared => ih _ (h.call hspared.1) hspared.2

theorem undisturbed_newTransaction (waf : WAF) (vars : Variables) :
    Undisturbed waf.ruleEngine (waf.newTransaction vars) :=
  ⟨rfl, .singleton _, fun _ => rfl⟩

end

/-- The interruption that a call returns is that of the transaction afterwards, or there is
none. -/
theorem Call.returned_eq (waf : WAF) (ev : Evaluator) (tx : Transaction) (call : Call) :
    call.returned waf ev tx = none ∨
      call.returned waf ev tx = (call.run waf ev tx).interruption := by
  cases call with
  | feed f => exact .inl rfl
  | processRequestHeaders => exact (processRequestHeaders_call ev tx).returned
  | writeRequestBody b => exact writeBody_returned b tx
  | readRequestBodyFrom r => exact readBodyFrom_returned r tx
  | processRequestBody => exact (processRequestBody_call waf ev tx).returned
  | processResponseHeaders code proto =>
    exact (processResponseHeaders_call ev code proto tx).returned
  | writeResponseBody b => exact writeBody_returned b tx
  | readResponseBodyFrom r => exact readBodyFrom_returned r tx
  | processResponseBody => exact (processResponseBody_call waf ev tx).returned
  | processLogging => exact .inl rfl

/-- **`DetectionOnly` never disrupts** a run that spares the limits of bodies: after every call
the transaction is undisturbed, and if `DetectionOnly` is still the mode, and was set without an
interruption, the call returns none. -/
theorem detectionOnly_undisturbed (waf : WAF) (rg : RuleGroup) (iteration : Nat → Iteration)
    (vars : Variables) (calls : List Call) (call : Call)
    (hspared : SparedRun waf (rg.evaluator iteration) (calls ++ [call])
      (waf.newTransaction vars)) :
    let tx := runCalls waf (rg.evaluator iteration) calls (waf.newTransaction vars)
    let tx' := call.run waf (rg.evaluator iteration) tx
    Undisturbed waf.ruleEngine tx' ∧
      (tx'.modes.getLastD (waf.ruleEngine, false) = (.detectionOnly, false) →
        tx'.interruption = none ∧ call.returned waf (rg.evaluator iteration) tx = none) := by
  intro tx tx'
  have hrun : tx' = runCalls waf (rg.evaluator iteration) (calls ++ [call])
      (waf.newTransaction vars) := by
    unfold runCalls
    rw [List.foldl_append]
    rfl
  have htx' : Undisturbed waf.ruleEngine tx' := by
    rw [hrun]
    exact Undisturbed.run _ _ (undisturbed_newTransaction waf vars) hspared
  refine ⟨htx', fun hlast => ⟨htx'.now hlast, ?_⟩⟩
  rcases call.returned_eq waf (rg.evaluator iteration) tx with hnone | hsame
  · exact hnone
  · exact hsame.trans (htx'.now hlast)

/-- A WAF that only detects spares every body, as `coraza.NewWAF` has adjusted it. -/
theorem sparedRun_adjusted {waf : WAF} (h : waf.ruleEngine = .detectionOnly) (ev : Evaluator) :
    ∀ (calls : List Call) (tx : Transaction), SparedRun waf.adjusted ev calls tx := by
  have hadjusted : ∀ call : Call, call.limitAction waf.adjusted = .processPartial := by
    intro call
    unfold WAF.adjusted
    rw [if_pos h]
    cases call <;> rfl
  intro calls
  induction calls with
  | nil => exact fun _ => trivial
  | cons call calls ih =>
    refine fun tx => ⟨fun _ _ hreject => ?_, ih _⟩
    rw [hadjusted] at hreject
    cases hreject

/-- **A WAF that only detects never disrupts**, whatever its limits for bodies, unless a rule sets
another mode. -/
theorem adjusted_undisturbed (waf : WAF) (rg : RuleGroup) (iteration : Nat → Iteration)
    (vars : Variables) (calls : List Call) :
    let waf := { waf with ruleEngine := .detectionOnly }.adjusted
    Undisturbed .detectionOnly
      (runCalls waf (rg.evaluator iteration) calls (waf.newTransaction vars)) :=
  Undisturbed.run _ _ ⟨rfl, .singleton _, fun _ => rfl⟩ (sparedRun_adjusted rfl ..)

def detectOnly : List Directive :=
  [.secAction (some [.id 5, .phase 1, .pass, .ctl (.ruleEngine (some .detectionOnly))])]

def detectOnlyChain : RuleChain where
  starter := { Rule.new with
    id := 5, logID := Strconv.itoa 5, phase := 1
    actions := [.pass, .ctl (.ruleEngine (some .detectionOnly))] }
  members := []

def runDetectOnly (calls : List Call) : Transaction :=
  runCalls (limitWAF .reject).adjusted (evaluator [detectOnlyChain] (fun _ => .stored))
    calls ((limitWAF .reject).adjusted.newTransaction .new)

theorem detectionOnly_undisturbed_small :
    (runDetectOnly [.processRequestHeaders, .writeRequestBody (bytesOf "abc")]).interruption
      = none := by
  have hspared : SparedRun (limitWAF .reject).adjusted
      (evaluator [detectOnlyChain] (fun _ => .stored))
      [.processRequestHeaders, .writeRequestBody (bytesOf "abc")]
      ((limitWAF .reject).adjusted.newTransaction .new) := by
    refine ⟨fun _ _ h => ?_, fun _ _ _ hreached => ?_, trivial⟩
    · cases h
    · have hbelow : (runDetectOnly [.processRequestHeaders]).requestBodyBuffer.length
          + (bytesOf "abc").length < (runDetectOnly [.processRequestHeaders]).requestBodyLimit := by
        decide +kernel
      exact absurd hreached.2.2 (Int.not_le.mpr hbelow)
  exact ((detectionOnly_undisturbed _ _ _ _ [.processRequestHeaders] _ hspared).2
    (by decide +kernel)).1

/-- **A body that reaches its limit disrupts all the same.** -/
theorem detectionOnly_disturbed :
    (parse [] detectOnly).map ParserState.rules = some [detectOnlyChain] ∧
      (runDetectOnly [.processRequestHeaders]).modes = [(.detectionOnly, false)] ∧
      (runDetectOnly [.processRequestHeaders]).ruleEngine = .detectionOnly ∧
      (runDetectOnly [.processRequestHeaders]).interruption = none ∧
      (runDetectOnly [.processRequestHeaders, .writeRequestBody (bytesOf "abcd")]).modes
        = [(.detectionOnly, false)] ∧
      (runDetectOnly [.processRequestHeaders, .writeRequestBody (bytesOf "abcd")]).interruption
        = some ⟨0, .deny, 413, []⟩ :=
  ⟨rfl, by decide +kernel, by decide +kernel, by decide +kernel, by decide +kernel,
    by decide +kernel⟩

/-! ### The first interruption -/

def Delivery.Reaches (side : BodySide) (tx : Transaction) : Delivery → Prop
  | .write b => side.WriteReaches b tx
  | .read r => side.ReadReaches r tx

/-- A call for body bytes leaves the interruption `it` alone.  It must not end with an error.  A
buffer that is full must not be one that is processed in part, and a body that is rejected must not
reach its limit, unless that was the reason for the interruption. -/
structure BodySide.Keeps (side : BodySide) (it : Interruption) (d : Delivery) (tx : Transaction) :
    Prop where
  ends : ∃ res, (d.run side tx).1 = some res ∧ res.2.2 = none
  room : side.limitAction = .processPartial → side.limit tx ≠ (side.buffer tx).length
  below : side.limitAction = .reject → d.Reaches side tx → it = ⟨0, .deny, side.status, []⟩

section

variable {side : BodySide} (hlaw : side.Lawful) (hside : side.Inert) {it : Interruption}
  {tx : Transaction} (hint : tx.interruption = some it) (hengine : tx.isRuleEngineOff = false)
  (haccess : side.access tx = true)
  (hprocess : ∀ tx : Transaction, tx.isRuleEngineOff = false → tx.isInterrupted = true →
    side.process tx = ((tx.interruption, none), tx))

include hside hint hengine hprocess in
theorem BodySide.BodyStep.keeps {reached : Prop} {tx' : Transaction}
    (hstep : side.BodyStep reached tx tx')
    (hlimit : side.limitAction = .reject → reached → it = ⟨0, .deny, side.status, []⟩) :
    tx'.interruption = some it := by
  cases hstep with
  | same => exact hint
  | stored buffer hoptions => exact (hside.interruption tx buffer).trans hint
  | marked => exact hint
  | markedStored buffer hoptions => exact (hside.interruption _ buffer).trans hint
  | rejected haction hreached => exact congrArg some (hlimit haction hreached).symm
  | filled haction hreached buffer hoptions => exact congrArg some (hlimit haction hreached).symm
  | processed haction buffer hoptions =>
    -- the phase is not evaluated, because there is an interruption
    have hkept : (side.setBuffer (side.setDataError tx) buffer).interruption = some it :=
      (hside.interruption _ _).trans hint
    have hmode : (side.setBuffer (side.setDataError tx) buffer).isRuleEngineOff = false :=
      (congrArg (fun mode => decide (mode = RuleEngineStatus.off))
        (hside.ruleEngine _ _)).trans hengine
    rw [hprocess _ hmode (Option.isSome_iff_exists.mpr ⟨it, hkept⟩)]
    exact hkept

include hengine haccess in
/-- The checks return the interruption, unless a full buffer is processed in part. -/
theorem BodySide.early_named
    (hroom : side.limitAction = .processPartial → side.limit tx ≠ (side.buffer tx).length)
    {res : BodyResult} (h : side.early tx = some res) : res.1 = tx.interruption := by
  unfold early at h
  rw [hengine, haccess, if_neg Bool.false_ne_true, if_neg Bool.true_eq_false_eq_False] at h
  split at h
  · rename_i hfull
    cases haction : side.limitAction with
    | reject =>
      rw [haction] at h
      cases h
      rfl
    | processPartial => exact absurd hfull (hroom haction)
  · cases h

include hlaw hside hint hengine haccess hprocess in
/-- **A call for body bytes that leaves the interruption alone returns it.** -/
theorem BodySide.Keeps.run {d : Delivery} (h : side.Keeps it d tx) :
    (d.run side tx).1.bind (·.1) = some it ∧ (d.run side tx).2.interruption = some it := by
  obtain ⟨res, hres, herr⟩ := h.ends
  have hearly : ∀ res, side.early tx = some res → res.1 = tx.interruption :=
    fun res => early_named hengine haccess h.room
  have hkept : (d.run side tx).2.interruption = some it := by
    cases d with
    | write b =>
      exact (writeBody_bodyStep hlaw b tx).keeps hside hint hengine hprocess h.below
    | read r =>
      exact (readBodyFrom_bodyStep hlaw r tx).keeps hside hint hengine hprocess h.below
  have hnamed : res.1 = (d.run side tx).2.interruption := by
    cases d with
    | write b => exact writeBody_named hearly hres herr
    | read r =>
      obtain rfl := Option.some.inj hres
      exact readBodyFrom_named hearly herr
  rw [hres]
  exact ⟨hnamed.trans hkept, hkept⟩

end

section

variable {waf : WAF} {ev : Evaluator} {it : Interruption} {tx : Transaction}

section

variable (hengine : tx.isRuleEngineOff = false)
include hengine

theorem processRequestHeaders_interrupted
    (hint : tx.isInterrupted = true) : processRequestHeaders ev tx = (tx.interruption, tx) := by
  unfold processRequestHeaders
  rw [hengine, hint, if_neg Bool.false_ne_true, if_pos rfl, ite_self]

theorem processResponseHeaders_interrupted
    (hint : tx.isInterrupted = true) (code : Int) (proto : Bytes) :
    processResponseHeaders ev code proto tx = (tx.interruption, tx) := by
  unfold processResponseHeaders
  rw [hengine, hint, if_neg Bool.false_ne_true, if_pos rfl, ite_self]

theorem processRequestBody_interrupted (hint : tx.isInterrupted = true) :
    processRequestBody waf ev tx = ((tx.interruption, none), tx) := by
  unfold processRequestBody
  rw [hengine, hint]
  rfl

theorem processResponseBody_interrupted (hint : tx.isInterrupted = true) :
    processResponseBody waf ev tx = ((tx.interruption, none), tx) := by
  unfold processResponseBody
  rw [hengine, hint]
  rfl

end

/-- A transaction that was interrupted, with the engine on and access to both bodies. -/
structure Interrupted (it : Interruption) (tx : Transaction) : Prop where
  interruption : tx.interruption = some it
  engine : tx.ruleEngine = .on
  requestAccess : tx.requestBodyAccess = true
  responseAccess : tx.responseBodyAccess = true

/-- A call leaves the interruption `it` alone. -/
def Call.Keeps (waf : WAF) (ev : Evaluator) (it : Interruption) (tx : Transaction) : Call → Prop
  | .writeRequestBody b => (requestSide waf ev).Keeps it (.write b) tx
  | .readRequestBodyFrom r => (requestSide waf ev).Keeps it (.read r) tx
  | .writeResponseBody b => (responseSide waf ev).Keeps it (.write b) tx
  | .readResponseBodyFrom r => (responseSide waf ev).Keeps it (.read r) tx
  | _ => True

def Call.isFeed : Call → Bool
  | .feed _ => true
  | _ => false

theorem Interrupted.isRuleEngineOff (h : Interrupted it tx) : tx.isRuleEngineOff = false := by
  unfold Transaction.isRuleEngineOff
  rw [h.engine]
  rfl

theorem Interrupted.isInterrupted (h : Interrupted it tx) : tx.isInterrupted = true := by
  unfold Transaction.isInterrupted
  rw [h.interruption]
  rfl

/-- Nothing is evaluated any more, so the settings stay. -/
theorem Interrupted.settings (h : Interrupted it tx) {call : Call}
    (hlogging : call.isLogging = false) :
    (call.run waf ev tx).ruleEngine = .on ∧ (call.run waf ev tx).requestBodyAccess = true ∧
      (call.run waf ev tx).responseBodyAccess = true := by
  suffices hrun : (call.run waf ev tx).isInterrupted = true ∧
      (call.run waf ev tx).ruleEngine = .on ∧ (call.run waf ev tx).requestBodyAccess = true ∧
      (call.run waf ev tx).responseBodyAccess = true from hrun.2
  refine Call.run_invariant (P := fun tx => tx.isInterrupted = true ∧ tx.ruleEngine = .on ∧
    tx.requestBodyAccess = true ∧ tx.responseBodyAccess = true) ?_ hlogging
    ⟨h.isInterrupted, h.engine, h.requestAccess, h.responseAccess⟩
  rintro tx tx' hstep ⟨hint, hsettings⟩
  cases hstep with
  | limit i hreject => exact ⟨rfl, hsettings⟩
  | eval hphase hnone =>
    unfold Transaction.isInterrupted at hint
    rw [hnone] at hint
    cases hint
  | _ => exact ⟨hint, hsettings⟩

theorem Interrupted.returned (h : Interrupted it tx) {call : Call}
    (hlogging : call.isLogging = false) (hkeeps : call.Keeps waf ev it tx) :
    (call.run waf ev tx).interruption = some it ∧
      (call.isFeed = false → call.returned waf ev tx = some it) := by
  have hoff := h.isRuleEngineOff
  have hint := h.isInterrupted
  have hrequest : ∀ d, (requestSide waf ev).Keeps it d tx → _ := fun d hkeeps =>
    BodySide.Keeps.run (requestSide_lawful waf ev) (requestSide_inert waf ev)
      h.interruption hoff h.requestAccess (fun _ => processRequestBody_interrupted) hkeeps
  have hresponse : ∀ d, (responseSide waf ev).Keeps it d tx → _ := fun d hkeeps =>
    BodySide.Keeps.run (responseSide_lawful waf ev) (responseSide_inert waf ev)
      h.interruption hoff h.responseAccess (fun _ => processResponseBody_interrupted) hkeeps
  cases call with
  | feed f => exact ⟨h.interruption, fun hfeed => by cases hfeed⟩
  | processRequestHeaders =>
    unfold Call.run Call.returned
    rw [processRequestHeaders_interrupted hoff hint]
    exact ⟨h.interruption, fun _ => h.interruption⟩
  | writeRequestBody b => exact ⟨(hrequest _ hkeeps).2, fun _ => (hrequest _ hkeeps).1⟩
  | readRequestBodyFrom r => exact ⟨(hrequest _ hkeeps).2, fun _ => (hrequest _ hkeeps).1⟩
  | processRequestBody =>
    unfold Call.run Call.returned
    rw [processRequestBody_interrupted hoff hint]
    exact ⟨h.interruption, fun _ => h.interruption⟩
  | processResponseHeaders code proto =>
    dsimp only [Call.run, Call.returned]
    rw [processResponseHeaders_interrupted hoff hint]
    exact ⟨h.interruption, fun _ => h.interruption⟩
  | writeResponseBody b => exact ⟨(hresponse _ hkeeps).2, fun _ => (hresponse _ hkeeps).1⟩
  | readResponseBodyFrom r => exact ⟨(hresponse _ hkeeps).2, fun _ => (hresponse _ hkeeps).1⟩
  | processResponseBody =>
    unfold Call.run Call.returned
    rw [processResponseBody_interrupted hoff hint]
    exact ⟨h.interruption, fun _ => h.interruption⟩
  | processLogging => cases hlogging

theorem Interrupted.call (h : Interrupted it tx) {call : Call} (hlogging : call.isLogging = false)
    (hkeeps : call.Keeps waf ev it tx) : Interrupted it (call.run waf ev tx) := by
  have hsettings : (call.run waf ev tx).ruleEngine = .on ∧
      (call.run waf ev tx).requestBodyAccess = true ∧
      (call.run waf ev tx).responseBodyAccess = true := h.settings hlogging
  obtain ⟨hengine, hrequest, hresponse⟩ := hsettings
  exact ⟨(h.returned hlogging hkeeps).1, hengine, hrequest, hresponse⟩

end

def denyRequestChain : RuleChain where
  starter := { Rule.new with
    id := 7, logID := Strconv.itoa 7, phase := 1, actions := [.deny] }
  members := []

def accessWAF (action : BodyLimitAction) : WAF :=
  { limitWAF action with responseBodyAccess := true }

def runDenied (action : BodyLimitAction) (calls : List Call) : Transaction :=
  runCalls (accessWAF action) (evaluator [denyRequestChain] (fun _ => .stored))
    (.processRequestHeaders :: calls) ((accessWAF action).newTransaction .new)

/-- No rule was evaluated since `tx`, and there is an interruption. -/
structure Halted (tx tx' : Transaction) : Prop where
  isInterrupted : tx'.isInterrupted = true
  phases : tx'.phases = tx.phases
  steps : tx'.steps = tx.steps
  matchedRules : tx'.matchedRules = tx.matchedRules

/-- **After an interruption no rule is evaluated** before `ProcessLogging`, and there always is
one. -/
theorem halted_run {waf : WAF} {ev : Evaluator} {tx : Transaction} {calls : List Call}
    (hint : tx.isInterrupted = true) (hcalls : ∀ call ∈ calls, call.isLogging = false) :
    Halted tx (runCalls waf ev calls tx) := by
  refine List.foldlRecOn (motive := Halted tx) calls _ ⟨hint, rfl, rfl, rfl⟩ ?_
  refine fun _ h call hcall => Call.run_invariant (P := Halted tx) ?_ (hcalls call hcall) h
  intro tx₁ tx₂ hstep h
  cases hstep with
  | limit i => exact ⟨rfl, h.phases, h.steps, h.matchedRules⟩
  | eval hphase hnone =>
    exact absurd h.isInterrupted (Transaction.isInterrupted_eq_false.mpr hnone ▸ nofun)
  | _ => exact ⟨h.isInterrupted, h.phases, h.steps, h.matchedRules⟩

theorem halted_run_denied : Halted (runDenied .reject []) (runCalls (accessWAF .reject)
    (evaluator [denyRequestChain] (fun _ => .stored)) [.writeRequestBody (bytesOf "abcd")]
    (runDenied .reject [])) :=
  halted_run (by decide +kernel) (by decide)

end Coraza.Waf
