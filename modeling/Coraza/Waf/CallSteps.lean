import Coraza.Waf.BodyWrites

/-!
# What a call can do

`CallStep` lists everything that a call of the programming interface other than
`ProcessLogging` can do to a transaction, and `Call.run_steps` says that every such call is
a sequence of these steps.  An invariant of transactions has to be checked for the steps
only (`Call.run_invariant`).
-/

namespace Coraza.Waf

open Go BodySide

/-- One thing that a call can do to a transaction. -/
inductive CallStep (waf : WAF) (ev : Evaluator) : Transaction → Transaction → Prop where
  | vars {tx : Transaction} (vars : Variables) (asked : Nat) :
      CallStep waf ev tx { tx with vars, asked }
  /-- A buffer keeps its options. -/
  | requestBody {tx : Transaction} (requestBodyBuffer : BodyBuffer)
      (h : requestBodyBuffer.options = tx.requestBodyBuffer.options) :
      CallStep waf ev tx { tx with requestBodyBuffer }
  | responseBody {tx : Transaction} (responseBodyBuffer : BodyBuffer)
      (h : responseBodyBuffer.options = tx.responseBodyBuffer.options) :
      CallStep waf ev tx { tx with responseBodyBuffer }
  /-- A body that is too long interrupts, if the limit action is to reject it. -/
  | limit {tx : Transaction} (i : Interruption)
      (h : waf.requestBodyLimitAction = .reject ∨ waf.responseBodyLimitAction = .reject) :
      CallStep waf ev tx { tx with interruption := some i }
  /-- A phase is evaluated only without an interruption. -/
  | eval {tx : Transaction} {phase : Nat} (hphase : phase ≠ phaseLogging)
      (hint : tx.interruption = none) : CallStep waf ev tx (ev.eval phase tx)

abbrev CallSteps (waf : WAF) (ev : Evaluator) : Transaction → Transaction → Prop :=
  Relation.ReflTransGen (CallStep waf ev)

def Call.isLogging : Call → Bool
  | .processLogging => true
  | _ => false

section

variable {waf : WAF} {ev : Evaluator}

variable {tx : Transaction} {waf₀ : WAF}

theorem PhaseCall.steps {phase : Nat} {guard : Prop} {out : Option Interruption × Transaction}
    (h : PhaseCall ev phase guard tx out) (hphase : phase ≠ phaseLogging) :
    CallSteps waf ev tx out.2 := by
  cases h with
  | stopped => exact .refl
  | evaluated vars asked hint => exact .tail (.single (.vars vars asked)) (.eval hphase hint)

theorem steps_processRequestBody (tx : Transaction) :
    CallSteps waf ev tx (processRequestBody waf₀ ev tx).2 :=
  (processRequestBody_call waf₀ ev tx).steps (by decide)

theorem steps_processResponseBody (tx : Transaction) :
    CallSteps waf ev tx (processResponseBody waf₀ ev tx).2 :=
  (processResponseBody_call waf₀ ev tx).steps (by decide)

theorem BodySide.BodyStep.steps {side : BodySide} {reached : Prop} {tx' : Transaction}
    (h : side.BodyStep reached tx tx')
    (hset : ∀ tx buffer, buffer.options = (side.buffer tx).options →
      CallSteps waf ev tx (side.setBuffer tx buffer)) (hlaw : side.Lawful)
    (hprocess : ∀ tx, CallSteps waf ev tx (side.process tx).2)
    (hlimit : side.limitAction = .reject →
      waf.requestBodyLimitAction = .reject ∨ waf.responseBodyLimitAction = .reject) :
    CallSteps waf ev tx tx' := by
  have hmarked : CallSteps waf ev tx (side.setDataError tx) := .single (.vars _ tx.asked)
  have hmarkedStored : ∀ {buffer : BodyBuffer}, buffer.options = (side.buffer tx).options →
      CallSteps waf ev tx (side.setBuffer (side.setDataError tx) buffer) := by
    intro buffer hoptions
    refine hmarked.trans (hset _ buffer (hoptions.trans ?_))
    exact congrArg BodyBuffer.options (hlaw.buffer_vars tx _).symm
  cases h with
  | same => exact .refl
  | stored buffer hoptions => exact hset tx buffer hoptions
  | marked => exact hmarked
  | markedStored buffer hoptions => exact hmarkedStored hoptions
  | rejected haction hreached => exact hmarked.tail (.limit _ (hlimit haction))
  | filled haction hreached buffer hoptions =>
    exact (hmarkedStored hoptions).tail (.limit _ (hlimit haction))
  | processed haction buffer hoptions => exact (hmarkedStored hoptions).trans (hprocess _)

/-- What a call does when a body is too long. -/
def Call.limitAction (waf : WAF) : Call → BodyLimitAction
  | .writeRequestBody _ => waf.requestBodyLimitAction
  | .readRequestBodyFrom _ => waf.requestBodyLimitAction
  | .writeResponseBody _ => waf.responseBodyLimitAction
  | .readResponseBodyFrom _ => waf.responseBodyLimitAction
  | _ => .processPartial

variable {call : Call}

theorem Call.limitAction_reject (h : call.limitAction waf = .reject) :
    waf.requestBodyLimitAction = .reject ∨ waf.responseBodyLimitAction = .reject := by
  cases call with
  | writeRequestBody b => exact .inl h
  | readRequestBodyFrom r => exact .inl h
  | writeResponseBody b => exact .inr h
  | readResponseBodyFrom r => exact .inr h
  | _ => cases h

/-- **A call other than `ProcessLogging` is a sequence of steps**, and there is a step with an
interruption of the limit only if the call rejects bodies. -/
theorem Call.run_steps (h : call.isLogging = false) (hlimit : call.limitAction waf₀ = .reject →
      waf.requestBodyLimitAction = .reject ∨ waf.responseBodyLimitAction = .reject)
    (tx : Transaction) : CallSteps waf ev tx (call.run waf₀ ev tx) := by
  have hreq : ∀ (tx : Transaction) (b : BodyBuffer), b.options = tx.requestBodyBuffer.options →
      CallSteps waf ev tx ((requestSide waf₀ ev).setBuffer tx b) :=
    fun tx b h => .single (.requestBody b h)
  have hres : ∀ (tx : Transaction) (b : BodyBuffer), b.options = tx.responseBodyBuffer.options →
      CallSteps waf ev tx ((responseSide waf₀ ev).setBuffer tx b) :=
    fun tx b h => .single (.responseBody b h)
  have hreqLaw := requestSide_lawful waf₀ ev
  have hresLaw := responseSide_lawful waf₀ ev
  cases call with
  | feed f => exact .single (.vars (f tx.vars) tx.asked)
  | processRequestHeaders => exact (processRequestHeaders_call ev tx).steps (by decide)
  | writeRequestBody b =>
    exact (writeBody_bodyStep hreqLaw b tx).steps hreq hreqLaw steps_processRequestBody hlimit
  | readRequestBodyFrom r =>
    exact (readBodyFrom_bodyStep hreqLaw r tx).steps hreq hreqLaw steps_processRequestBody hlimit
  | processRequestBody => exact steps_processRequestBody tx
  | processResponseHeaders code proto =>
    exact (processResponseHeaders_call ev code proto tx).steps (by decide)
  | writeResponseBody b =>
    exact (writeBody_bodyStep hresLaw b tx).steps hres hresLaw steps_processResponseBody hlimit
  | readResponseBodyFrom r =>
    exact (readBodyFrom_bodyStep hresLaw r tx).steps hres hresLaw steps_processResponseBody hlimit
  | processResponseBody => exact steps_processResponseBody tx
  | processLogging => cases h

section

variable {P : Transaction → Prop} (hstep : ∀ tx tx', CallStep waf ev tx tx' → P tx → P tx')
include hstep

theorem CallSteps.invariant {tx' : Transaction}
    (h : CallSteps waf ev tx tx') (hP : P tx) : P tx' := by
  induction h with
  | refl => exact hP
  | tail _ hlast ih => exact hstep _ _ hlast ih

theorem Call.run_invariant (h : call.isLogging = false) (hP : P tx) : P (call.run waf ev tx) :=
  CallSteps.invariant hstep (Call.run_steps h Call.limitAction_reject tx) hP

/-- What every step keeps, and the evaluation of the logging phase, every call keeps. -/
theorem Call.run_keeps
    (hlogging : ∀ tx, P tx → P (ev.eval phaseLogging tx)) (call : Call) (hP : P tx) :
    P (call.run waf ev tx) := by
  cases call with
  | processLogging =>
    show P (Waf.processLogging ev tx)
    unfold Waf.processLogging
    split
    · exact hP
    · exact hlogging tx hP
  | _ => exact Call.run_invariant hstep rfl hP

end

theorem Call.run_isInterrupted (h : call.isLogging = false)
    (hint : tx.isInterrupted = true) : (call.run waf ev tx).isInterrupted = true := by
  refine Call.run_invariant (P := fun tx => tx.isInterrupted = true) ?_ h hint
  intro tx tx' hstep hint
  cases hstep with
  | limit i h => rfl
  | eval hphase hnone =>
    unfold Transaction.isInterrupted at hint
    rw [hnone] at hint
    cases hint
  | _ => exact hint

end

end Coraza.Waf
