import Coraza.Waf.Pool

/-!
# Errors of body processors

When a body processor fails, the transaction stores that in four variables, for rules to read.
For a request body this works: `requestParsed_single` says what is stored, and the variables keep
their values while the rules of the phase run.

The variables for a response body are stored as well, but `Transaction.Collection` has no entry
for them, so that a rule that names them reads nothing.  `parseErrors_visible_iff` is the exact
statement for both bodies.
-/

namespace Coraza.Waf

open Go Collections Seclang Variables List BodySide

inductive Direction where
  | request | response
  deriving DecidableEq

namespace Direction

def flags : Direction → List RuleVariable
  | request => [.reqbodyError, .reqbodyProcessorError]
  | response => [.resBodyError, .resBodyProcessorError]

def messages : Direction → List RuleVariable
  | request => [.reqbodyErrorMsg, .reqbodyProcessorErrorMsg]
  | response => [.resBodyErrorMsg, .resBodyProcessorErrorMsg]

def errors (d : Direction) : List RuleVariable := d.flags ++ d.messages

def phase : Direction → Nat
  | request => phaseRequestBody
  | response => phaseResponseBody

end Direction

/-- The values that a rule reads when it names a variable. -/
def readVariable (it : Iteration) (vars : Variables) (v : RuleVariable) : List Bytes :=
  (getFieldMatches it vars ⟨false, v, none, [], []⟩).map Match.value

variable {v : RuleVariable}

theorem readVariable_request (it : Iteration) (vars : Variables)
    (hv : v ∈ Direction.request.errors) : readVariable it vars v = [vars.single v] := by
  have hcollection : vars.collection v = some (.single (vars.single v)) := by
    cases v <;> first | rfl | exact absurd hv (by decide)
  unfold readVariable getFieldMatches
  rw [hcollection]
  rfl

/-- **`Transaction.Collection` has no entry for these.** -/
theorem readVariable_response (it : Iteration) (vars : Variables)
    (hv : v ∈ Direction.response.errors) : readVariable it vars v = [] := by
  have hcollection : vars.collection v = some .noop := by
    cases v <;> first | rfl | exact absurd hv (by decide)
  unfold readVariable getFieldMatches
  rw [hcollection]
  rfl

/-- Rules see that there was an error, with a message, or that there was none. -/
def Visible (d : Direction) (vars : Variables) : Option Bytes → Prop
  | some _ => (∀ v ∈ d.flags, ∀ it, readVariable it vars v = [bytesOf "1"]) ∧
      ∀ v ∈ d.messages, ∃ message ≠ [], ∀ it, readVariable it vars v = [message]
  | none => ∀ v ∈ d.errors, ∀ it, bytesOf "1" ∉ readVariable it vars v

/-! ### The error of a processor -/

section

variable (waf : WAF)

def requestProcessor (tx : Transaction) : Bytes :=
  let rbp := tx.vars.single .reqbodyProcessor
  Strings.toLower (if tx.forceRequestBodyVariable ∧ rbp = [] then bytesOf "URLENCODED" else rbp)

def requestVariables (tx : Transaction) : Variables :=
  let rbp := tx.vars.single .reqbodyProcessor
  let rbp := if tx.forceRequestBodyVariable ∧ rbp = [] then bytesOf "URLENCODED" else rbp
  if tx.forceRequestBodyVariable then tx.vars.setSingle .reqbodyProcessor rbp else tx.vars

/-- The error for which `ProcessRequestBody` calls `generateRequestBodyError`. -/
def requestError (tx : Transaction) : Option Bytes :=
  if requestProcessor tx = [] then none
  else
    match waf.getBodyProcessor (requestProcessor tx) with
    | none => some (bytesOf "invalid body processor")
    | some p => (p.processRequest tx.asked tx.requestBodyBuffer.content
        ⟨((tx.vars.map .requestHeaders).get (bytesOf "content-type")).headD [], waf.uploadDir,
          waf.requestBodyJsonDepthLimit⟩ (requestVariables tx)).2

/-- The error for which `ProcessResponseBody` calls `generateResponseBodyError`. -/
def responseError (tx : Transaction) : Option Bytes :=
  let bp := tx.vars.single .resBodyProcessor
  if bp = [] then none
  else
    match waf.getBodyProcessor bp with
    | none => some (bytesOf "invalid body processor")
    | some p =>
      (p.processResponse tx.asked tx.responseBodyBuffer.content ⟨[], [], 0⟩ tx.vars).2

def Direction.failure (tx : Transaction) : Direction → Option Bytes
  | request => requestError waf tx
  | response => responseError waf tx

/-- The transaction that the rules of the phase see first, when the body is processed. -/
def Direction.parsed (tx : Transaction) : Direction → Transaction
  | request => tx.askVariables (fun n =>
      parseRequestBody waf tx.forceRequestBodyVariable n tx.requestBodyBuffer.content)
  | response => tx.askVariables (fun n => parseResponseBody waf n tx.responseBodyBuffer.content)

end

/-- The body processors leave the variables for errors in a request body to the transaction. -/
def WAF.KeepsErrors (waf : WAF) : Prop :=
  ∀ name p, waf.processors name = some p → ∀ n body options vars, ∀ v ∈ Direction.request.errors,
    (p.processRequest n body options vars).1.single v = vars.single v ∧
      (p.processResponse n body options vars).1.single v = vars.single v

def Unset (tx : Transaction) : Prop :=
  ∀ v ∈ Direction.request.errors, tx.vars.single v ≠ bytesOf "1"

section

variable {waf : WAF}

theorem requestVariables_single {tx : Transaction}
    (hv : v ∈ Direction.request.errors) : (requestVariables tx).single v = tx.vars.single v := by
  have hne : v ≠ .reqbodyProcessor := ne_of_mem_of_not_mem hv (by decide)
  unfold requestVariables
  split
  · rw [setSingle_single, if_neg hne]
  · rfl

/-- Parsing a request body sets the variables if there is an error, and keeps them if not. -/
theorem requestParsed_single (hwaf : waf.KeepsErrors) (tx : Transaction) :
    match requestError waf tx with
    | some err => ∃ vars, (Direction.request.parsed waf tx).vars = generateRequestBodyError err vars
    | none => ∀ v ∈ Direction.request.errors,
        (Direction.request.parsed waf tx).vars.single v = tx.vars.single v := by
  have hparse : (Direction.request.parsed waf tx).vars
      = if requestProcessor tx = [] then requestVariables tx
        else match waf.getBodyProcessor (requestProcessor tx) with
          | none => generateRequestBodyError (bytesOf "invalid body processor")
              (requestVariables tx)
          | some p => afterProcessor generateRequestBodyError
              (p.processRequest tx.asked tx.requestBodyBuffer.content
                ⟨((tx.vars.map .requestHeaders).get (bytesOf "content-type")).headD [],
                  waf.uploadDir, waf.requestBodyJsonDepthLimit⟩ (requestVariables tx)) := rfl
  rw [hparse]
  unfold requestError
  by_cases hnone : requestProcessor tx = []
  · rw [if_pos hnone, if_pos hnone]
    exact fun v hv => requestVariables_single hv
  · rw [if_neg hnone, if_neg hnone]
    cases hp : waf.getBodyProcessor (requestProcessor tx) with
    | none => exact ⟨_, rfl⟩
    | some p =>
      dsimp only
      unfold afterProcessor
      split
      · rename_i err herr
        rw [herr]
        exact ⟨_, rfl⟩
      · rename_i herr
        rw [herr]
        exact fun v hv => ((hwaf _ p hp _ _ _ _ v hv).1).trans (requestVariables_single hv)

theorem responseParsed_single (hwaf : waf.KeepsErrors) (tx : Transaction)
    (hv : v ∈ Direction.request.errors) :
    (Direction.response.parsed waf tx).vars.single v = tx.vars.single v := by
  have hgenerate : ∀ err vars, (generateResponseBodyError err vars).single v = vars.single v := by
    intro err vars
    have h₁ : v ≠ .resBodyError := ne_of_mem_of_not_mem hv (by decide)
    have h₂ : v ≠ .resBodyErrorMsg := ne_of_mem_of_not_mem hv (by decide)
    have h₃ : v ≠ .resBodyProcessorError := ne_of_mem_of_not_mem hv (by decide)
    have h₄ : v ≠ .resBodyProcessorErrorMsg := ne_of_mem_of_not_mem hv (by decide)
    simp [generateResponseBodyError, h₁, h₂, h₃, h₄]
  show (parseResponseBody waf tx.asked tx.responseBodyBuffer.content tx.vars).single v = _
  unfold parseResponseBody
  dsimp only
  split
  · split
    · exact hgenerate ..
    · rename_i p hp
      unfold afterProcessor
      split
      · exact (hwaf _ p hp _ _ _ _ v hv).2
      · exact (hgenerate ..).trans (hwaf _ p hp _ _ _ _ v hv).2
  · have h₁ : v ≠ .responseBody := ne_of_mem_of_not_mem hv (by decide)
    have h₂ : v ≠ .responseContentLength := ne_of_mem_of_not_mem hv (by decide)
    simp [h₁, h₂]

/-! ### What rules see -/

/-- Rules see whether there was an error: in a request body if the error has a text, in a response
body if there was none. -/
def Direction.Shows : Direction → Option Bytes → Prop
  | request, err => err ≠ some []
  | response, err => err = none

theorem visible_congr {vars vars' : Variables}
    (h : ∀ v ∈ Direction.request.errors, vars'.single v = vars.single v) (d : Direction)
    (err : Option Bytes) : Visible d vars err ↔ Visible d vars' err := by
  have hread : ∀ v ∈ d.errors, ∀ it, readVariable it vars' v = readVariable it vars v := by
    intro v hv it
    cases d with
    | request => rw [readVariable_request it _ hv, readVariable_request it _ hv, h v hv]
    | response => rw [readVariable_response it _ hv, readVariable_response it _ hv]
  have hflags : ∀ v ∈ d.flags, v ∈ d.errors := fun v hv => mem_append_left _ hv
  have hmessages : ∀ v ∈ d.messages, v ∈ d.errors := fun v hv => mem_append_right _ hv
  cases err with
  | none =>
    refine forall₂_congr fun v hv => forall_congr' fun it => ?_
    rw [hread v hv it]
  | some err =>
    refine and_congr ?_ ?_
    · refine forall₂_congr fun v hv => forall_congr' fun it => ?_
      rw [hread v (hflags v hv) it]
    · refine forall₂_congr fun v hv => exists_congr fun message => and_congr_right fun _ => ?_
      refine forall_congr' fun it => ?_
      rw [hread v (hmessages v hv) it]

theorem visible_generateRequestBodyError (err : Bytes) (vars : Variables) :
    Visible .request (generateRequestBodyError err vars) (some err) ↔ err ≠ [] := by
  have hread : ∀ v ∈ Direction.request.errors, ∀ it,
      readVariable it (generateRequestBodyError err vars) v
        = [(generateRequestBodyError err vars).single v] := fun v hv it =>
    readVariable_request it _ hv
  constructor
  · rintro ⟨-, hmessages⟩ rfl
    obtain ⟨message, hne, hmessage⟩ := hmessages .reqbodyProcessorErrorMsg (by decide)
    have heq := (hread _ (by decide) .stored).symm.trans (hmessage .stored)
    rw [singleton_inj] at heq
    refine hne (heq.symm.trans ?_)
    simp [generateRequestBodyError]
  · intro hne
    refine ⟨fun v hv it => ?_, fun v hv => ?_⟩
    · rw [hread v (mem_append_left _ hv)]
      rcases mem_pair.mp hv with rfl | rfl <;> simp [generateRequestBodyError]
    · refine ⟨_, ?_, fun it => hread v (mem_append_right _ hv) it⟩
      rcases mem_pair.mp hv with rfl | rfl
      · have hcolon : bytesOf ": " ≠ [] := by decide +kernel
        simp [generateRequestBodyError, hcolon]
      · simpa [generateRequestBodyError] using hne

theorem visible_none {tx : Transaction} (d : Direction) (hunset : d = .request → Unset tx) :
    Visible d tx.vars none := by
  intro v hv it
  cases d with
  | request =>
    rw [readVariable_request it _ hv, mem_singleton]
    exact Ne.symm (hunset rfl v hv)
  | response =>
    rw [readVariable_response it _ hv]
    exact not_mem_nil

theorem not_visible_response (vars : Variables) (err : Bytes) :
    ¬Visible .response vars (some err) := by
  intro h
  have hread := h.1 .resBodyError (by decide) .stored
  rw [readVariable_response .stored _ (by decide)] at hread
  cases hread

/-- **What the first rule of the phase sees**, if the body is processed. -/
theorem parsed_visible_iff (hwaf : waf.KeepsErrors) {tx : Transaction} (d : Direction)
    (hunset : d = .request → Unset tx) :
    Visible d (d.parsed waf tx).vars (d.failure waf tx) ↔ d.Shows (d.failure waf tx) := by
  cases d with
  | request =>
    have hparsed := requestParsed_single hwaf tx
    unfold Direction.failure Direction.Shows
    dsimp only
    cases herr : requestError waf tx with
    | none =>
      rw [herr] at hparsed
      refine ⟨fun _ => nofun, fun _ => visible_none .request (fun _ v hv => ?_)⟩
      exact hparsed v hv ▸ hunset rfl v hv
    | some err =>
      rw [herr] at hparsed
      obtain ⟨vars, hvars⟩ := hparsed
      rw [hvars, visible_generateRequestBodyError, ne_eq, ne_eq, Option.some.injEq]
  | response =>
    unfold Direction.failure Direction.Shows
    cases herr : responseError waf tx with
    | none => exact ⟨fun _ => rfl, fun _ => visible_none .response nofun⟩
    | some err => exact ⟨fun h => absurd h (not_visible_response _ err), nofun⟩

end

/-- The rules of a phase keep the variables for errors in a request body. -/
theorem untouched_errors (hv : v ∈ Direction.request.errors) : untouched v = true := by
  cases v <;> first | rfl | exact absurd hv (by decide)

theorem evalSteps_errors {labels : List RuleLabel} {rules : List Rule} {tx tx' : Transaction}
    (h : EvalSteps labels rules tx tx') (hv : v ∈ Direction.request.errors) :
    tx'.vars.single v = tx.vars.single v :=
  EvalSteps.invariant (P := fun tx' => tx'.vars.single v = tx.vars.single v)
    (fun _ _ hstep heq => (hstep.single (untouched_errors hv)).trans heq) h rfl

/-! ### Calls -/

section

variable (waf : WAF) (ev : Evaluator)

def Direction.side : Direction → BodySide
  | request => requestSide waf ev
  | response => responseSide waf ev

/-- Is there a body to process? -/
def Direction.processes (tx : Transaction) : Direction → Bool
  | request => tx.requestBodyAccess && tx.requestBodyBuffer.length != 0
  | response => tx.responseBodyAccess && isResponseBodyProcessable waf tx

def Direction.entered (tx : Transaction) (d : Direction) : Transaction :=
  if d.processes waf tx then d.parsed waf tx else tx

/-- The error that the processor of a body reports, if there is a body to process. -/
def Direction.reported (tx : Transaction) (d : Direction) : Option Bytes :=
  if d.processes waf tx then d.failure waf tx else none

def Call.takes : Direction → Call → Bool
  | .request, .writeRequestBody _ | .request, .readRequestBodyFrom _ => true
  | .response, .writeResponseBody _ | .response, .readResponseBodyFrom _ => true
  | _, _ => false

/-- The state in which a call evaluates the phase of a body, if it does.  A call that takes bytes
does so when the limit is reached. -/
def Call.entering (tx : Transaction) (d : Direction) (call : Call) : Transaction :=
  if call.takes d then
    (d.side waf ev).setBuffer ((d.side waf ev).setDataError tx)
      ((d.side waf ev).buffer (call.run waf ev tx))
  else tx

def Call.Evaluates (tx : Transaction) (d : Direction) (call : Call) : Prop :=
  ∃ b, (call.run waf ev tx).phases = tx.phases ++ [(d.phase, b)]

/-- A call processes the request body, and the processor reports an error. -/
def Call.Fails (tx : Transaction) (call : Call) : Prop :=
  call.Evaluates waf ev tx .request ∧
    Direction.request.reported waf (call.entering waf ev tx .request) ≠ none

end

/-- Calls that only fill variables do not fill those for errors. -/
def Call.FeedsOther : Call → Prop
  | .feed f => ∀ vars, ∀ v ∈ Direction.request.errors, (f vars).single v = vars.single v
  | _ => True

def KeepsErrors (tx tx' : Transaction) : Prop :=
  ∀ v ∈ Direction.request.errors, tx'.vars.single v = tx.vars.single v

/-- What a call can do to the variables for errors in a request body.  It evaluates at most one
phase, and only the evaluation of the phase of a body does anything to them. -/
inductive ErrorsStep (waf : WAF) (ev : Evaluator) (entering : Direction → Transaction)
    (tx : Transaction) : Transaction → Prop where
  | quiet {tx' : Transaction} (hphases : tx'.phases = tx.phases)
      (hlast : tx'.lastPhase = tx.lastPhase) (h : KeepsErrors tx tx') :
      ErrorsStep waf ev entering tx tx'
  | other {tx₁ : Transaction} {phase : Nat} (hphase : ∀ d : Direction, phase ≠ d.phase)
      (hlast : phase ≤ phaseRequestHeaders → tx.lastPhase ≤ phaseRequestHeaders)
      (hphases : tx₁.phases = tx.phases) (h : KeepsErrors tx tx₁) :
      ErrorsStep waf ev entering tx (ev.eval phase tx₁)
  | body {d : Direction} (hnext : tx.lastPhase + 1 = d.phase)
      (hphases : (entering d).phases = tx.phases) (h : KeepsErrors tx (entering d)) :
      ErrorsStep waf ev entering tx (ev.eval d.phase (d.entered waf (entering d)))

section

/-- What the evaluation of rules leaves alone. -/
structure KeepsBodies (ev : Evaluator) : Prop where
  buffers : ∀ phase tx, (ev.eval phase tx).requestBodyBuffer = tx.requestBodyBuffer ∧
    (ev.eval phase tx).responseBodyBuffer = tx.responseBodyBuffer
  errors : ∀ phase tx, KeepsErrors tx (ev.eval phase tx)

theorem keepsBodies_evaluator (rg : RuleGroup) (iteration : Nat → Iteration) :
    KeepsBodies (rg.evaluator iteration) where
  buffers _ := RuleGroup.eval_buffers
  errors _ tx _ hv := RuleGroup.eval_single (untouched_errors hv) tx

variable {waf : WAF} {ev : Evaluator} (hev : KeepsBodies ev)

theorem Direction.setDataError_errors (waf : WAF) (ev : Evaluator) (d : Direction)
    (tx : Transaction) :
    KeepsErrors tx ((d.side waf ev).setDataError tx) := by
  intro v hv
  refine setDataError_single ?_ tx
  cases d with
  | request => exact ne_of_mem_of_not_mem hv (b := .inboundDataError) (by decide)
  | response => exact ne_of_mem_of_not_mem hv (b := .outboundDataError) (by decide)

variable (d : Direction)

theorem Direction.entered_phases (tx : Transaction) : (d.entered waf tx).phases = tx.phases := by
  unfold Direction.entered
  cases d <;> split <;> rfl

/-- **`ProcessRequestBody` and `ProcessResponseBody`**: nothing happens, or the phase is evaluated
after the body was processed. -/
theorem Direction.process_eq (waf : WAF) (ev : Evaluator) (d : Direction) (tx : Transaction) :
    ((d.side waf ev).process tx).2 = tx ∨ tx.lastPhase + 1 = d.phase ∧
      ((d.side waf ev).process tx).2 = ev.eval d.phase (d.entered waf tx) := by
  cases d with
  | request =>
    show (processRequestBody waf ev tx).2 = tx ∨ _ ∧ (processRequestBody waf ev tx).2 = _
    unfold processRequestBody
    split_ifs with hoff hint hlast hbody
    · exact .inl rfl
    · exact .inl rfl
    · exact .inl rfl
    · refine .inr ⟨congrArg (· + 1) (not_not.mp hlast), ?_⟩
      rw [Direction.entered, if_neg (by rcases hbody with h | h <;> simp [Direction.processes, h])]
      rfl
    · refine .inr ⟨congrArg (· + 1) (not_not.mp hlast), ?_⟩
      rw [Direction.entered, if_pos (by simpa [Direction.processes] using hbody)]
      rfl
  | response =>
    show (processResponseBody waf ev tx).2 = tx ∨ _ ∧ (processResponseBody waf ev tx).2 = _
    unfold processResponseBody
    split_ifs with hoff hint hlast hbody
    · exact .inl rfl
    · exact .inl rfl
    · exact .inl rfl
    · refine .inr ⟨congrArg (· + 1) (not_not.mp hlast), ?_⟩
      rw [Direction.entered, if_neg (by rcases hbody with h | h <;> simp [Direction.processes, h])]
      rfl
    · refine .inr ⟨congrArg (· + 1) (not_not.mp hlast), ?_⟩
      rw [Direction.entered, if_pos (by simpa [Direction.processes] using hbody)]
      rfl

include hev

theorem Direction.process_buffer (tx : Transaction) :
    (d.side waf ev).buffer ((d.side waf ev).process tx).2 = (d.side waf ev).buffer tx := by
  rcases d.process_eq waf ev tx with h | ⟨-, h⟩
  · rw [h]
  · rw [h]
    unfold Direction.entered
    cases d with
    | request => exact (hev.buffers ..).1.trans (by split <;> rfl)
    | response => exact (hev.buffers ..).2.trans (by split <;> rfl)

variable {tx tx' : Transaction} {entering : Direction → Transaction}

omit hev in
theorem ErrorsStep.same : ErrorsStep waf ev entering tx tx := .quiet rfl rfl (fun _ _ => rfl)

theorem Direction.bodyStep_errors {reached : Prop}
    (h : (d.side waf ev).BodyStep reached tx tx') (entering : Direction → Transaction)
    (hentering : entering d = (d.side waf ev).setBuffer ((d.side waf ev).setDataError tx)
      ((d.side waf ev).buffer tx')) : ErrorsStep waf ev entering tx tx' := by
  have hset := d.setDataError_errors waf ev tx
  have hbuffer : ∀ tx buffer, ((d.side waf ev).setBuffer tx buffer).phases = tx.phases ∧
      ((d.side waf ev).setBuffer tx buffer).lastPhase = tx.lastPhase ∧
      ((d.side waf ev).setBuffer tx buffer).vars = tx.vars := by
    intro tx buffer
    cases d <;> exact ⟨rfl, rfl, rfl⟩
  have hkeeps : ∀ buffer,
      KeepsErrors tx ((d.side waf ev).setBuffer ((d.side waf ev).setDataError tx) buffer) := by
    intro buffer v hv
    rw [(hbuffer _ buffer).2.2]
    exact hset v hv
  have hmarked : ∀ buffer, ErrorsStep waf ev entering tx
      ((d.side waf ev).setBuffer ((d.side waf ev).setDataError tx) buffer) :=
    fun buffer => .quiet (hbuffer _ _).1 (hbuffer _ _).2.1 (hkeeps buffer)
  cases h with
  | same => exact .same
  | stored buffer hoptions =>
    refine .quiet (hbuffer _ _).1 (hbuffer _ _).2.1 (fun v _ => ?_)
    rw [(hbuffer _ _).2.2]
  | marked => exact .quiet rfl rfl hset
  | markedStored buffer hoptions => exact hmarked buffer
  | rejected haction hreached => exact .quiet rfl rfl hset
  | filled haction hreached buffer hoptions =>
    exact .quiet (hbuffer _ _).1 (hbuffer _ _).2.1 (hkeeps buffer)
  | processed haction buffer hoptions =>
    have hset' : (d.side waf ev).setBuffer ((d.side waf ev).setDataError tx) buffer
        = entering d := by
      rw [hentering, d.process_buffer hev]
      cases d <;> rfl
    rcases d.process_eq waf ev (entering d) with heq | ⟨hnext, heq⟩
    · rw [hset', heq, ← hset']
      exact hmarked buffer
    · rw [hset', heq]
      rw [← hset', (hbuffer _ _).2.1] at hnext
      refine .body hnext ?_ ?_
      · rw [← hset']
        exact (hbuffer _ _).1
      · rw [← hset']
        exact hkeeps buffer

omit hev in
theorem Direction.process_errors (tx : Transaction)
    (entering : Direction → Transaction) (hentering : entering d = tx) :
    ErrorsStep waf ev entering tx ((d.side waf ev).process tx).2 := by
  rcases d.process_eq waf ev tx with heq | ⟨hnext, heq⟩
  · rw [heq]
    exact .same
  · have h : ErrorsStep waf ev entering tx (ev.eval d.phase (d.entered waf (entering d))) :=
      .body hnext (congrArg _ hentering) (fun v _ => by rw [hentering])
    rw [heq]
    rwa [hentering] at h

/-- **What a call can do.** -/
theorem Call.run_errors (waf : WAF) {call : Call} (hcall : call.FeedsOther) (tx : Transaction) :
    ErrorsStep waf ev (fun d => call.entering waf ev tx d) tx (call.run waf ev tx) := by
  have hreq := requestSide_lawful waf ev
  have hres := responseSide_lawful waf ev
  cases call with
  | feed f => exact .quiet rfl rfl (hcall tx.vars)
  | processRequestHeaders =>
    show ErrorsStep _ _ _ _ (Waf.processRequestHeaders _ tx).2
    unfold Waf.processRequestHeaders
    split_ifs with hoff hlast hint
    · exact .same
    · exact .same
    · exact .same
    · exact .other (by rintro (_ | _) <;> decide) (fun _ => by omega) rfl (fun _ _ => rfl)
  | writeRequestBody b =>
    exact Direction.bodyStep_errors hev .request (writeBody_bodyStep hreq b tx) _ rfl
  | readRequestBodyFrom r =>
    exact Direction.bodyStep_errors hev .request (readBodyFrom_bodyStep hreq r tx) _ rfl
  | processRequestBody => exact Direction.process_errors .request tx _ rfl
  | processResponseHeaders code proto =>
    show ErrorsStep _ _ _ _ (Waf.processResponseHeaders _ code proto tx).2
    unfold Waf.processResponseHeaders
    split_ifs with hoff hlast hint
    · exact .same
    · exact .same
    · exact .same
    · refine .other (by rintro (_ | _) <;> decide) (fun hle => absurd hle (by decide)) rfl ?_
      intro v hv
      have h₁ : v ≠ .responseProtocol := ne_of_mem_of_not_mem hv (by decide)
      have h₂ : v ≠ .responseStatus := ne_of_mem_of_not_mem hv (by decide)
      simp [Transaction.modifyVariables, h₁, h₂]
  | writeResponseBody b =>
    exact Direction.bodyStep_errors hev .response (writeBody_bodyStep hres b tx) _ rfl
  | readResponseBodyFrom r =>
    exact Direction.bodyStep_errors hev .response (readBodyFrom_bodyStep hres r tx) _ rfl
  | processResponseBody => exact Direction.process_errors .response tx _ rfl
  | processLogging =>
    show ErrorsStep _ _ _ _ (Waf.processLogging _ tx)
    unfold Waf.processLogging
    split
    · exact .same
    · exact .other (by rintro (_ | _) <;> decide) (fun hle => absurd hle (by decide)) rfl
        (fun _ _ => rfl)

/-! ### Runs -/

/-- Until a request body is processed, no variable says that there was an error in it. -/
def Calm (tx : Transaction) : Prop := tx.lastPhase ≤ phaseRequestHeaders → Unset tx

omit hev in
theorem Unset.keeps (h : Unset tx) (hkeeps : KeepsErrors tx tx') : Unset tx' :=
  fun v hv => hkeeps v hv ▸ h v hv

omit hev in
theorem Direction.entered_errors (hwaf : waf.KeepsErrors) (d : Direction)
    (hreported : d = .request → d.reported waf tx = none) : KeepsErrors tx (d.entered waf tx) := by
  unfold Direction.entered
  unfold Direction.reported at hreported
  split_ifs at hreported ⊢ with hprocesses
  · cases d with
    | request =>
      have hparsed := requestParsed_single hwaf tx
      have hnone : requestError waf tx = none := hreported rfl
      rw [hnone] at hparsed
      exact hparsed
    | response => exact fun v hv => responseParsed_single hwaf tx hv
  · exact fun _ _ => rfl

theorem Calm.step (h : Calm tx) (hstep : ErrorsStep waf ev entering tx tx') : Calm tx' := by
  cases hstep with
  | quiet hphases hlast hkeeps => exact fun hle => (h (hlast ▸ hle)).keeps hkeeps
  | other hphase hlast hphases hkeeps =>
    intro hle
    rw [ev.lastPhase_eval] at hle
    exact ((h (hlast hle)).keeps hkeeps).keeps (hev.errors _ _)
  | @body d hnext hphases hkeeps =>
    intro hle
    rw [ev.lastPhase_eval] at hle
    exact absurd hle (by cases d <;> decide)

theorem Unset.call (hwaf : waf.KeepsErrors) {call : Call} (hcall : call.FeedsOther) (h : Unset tx)
    (hfails : ¬call.Fails waf ev tx) : Unset (call.run waf ev tx) := by
  have hstep := Call.run_errors hev waf hcall tx
  unfold Call.Fails Call.Evaluates at hfails
  generalize call.run waf ev tx = tx' at hstep hfails ⊢
  cases hstep with
  | quiet hphases hlast hkeeps => exact h.keeps hkeeps
  | other hphase hlast hphases hkeeps => exact (h.keeps hkeeps).keeps (hev.errors _ _)
  | @body d hnext hphases hkeeps =>
    have hreported : d = .request → d.reported waf (call.entering waf ev tx d) = none := by
      rintro rfl
      by_contra hne
      have hlogged := ev.phases_eval phaseRequestBody
        (Direction.request.entered waf (call.entering waf ev tx .request))
      rw [Direction.entered_phases, hphases] at hlogged
      exact hfails ⟨⟨_, hlogged⟩, hne⟩
    exact ((h.keeps hkeeps).keeps (d.entered_errors hwaf hreported)).keeps (hev.errors _ _)

theorem Calm.run (calls : List Call) {tx : Transaction} (h : Calm tx)
    (hcalls : ∀ call ∈ calls, call.FeedsOther) : Calm (runCalls waf ev calls tx) :=
  foldlRecOn calls _ h
    (fun tx h call hcall => h.step hev (Call.run_errors hev _ (hcalls call hcall) tx))

/-- No processor of a request body reports an error. -/
def NoFailure (waf : WAF) (ev : Evaluator) (calls : List Call) (tx : Transaction) : Prop :=
  ∀ before call after, calls = before ++ call :: after →
    ¬call.Fails waf ev (runCalls waf ev before tx)

theorem Unset.run (hwaf : waf.KeepsErrors) : ∀ (calls : List Call) {tx : Transaction}, Unset tx →
    (∀ call ∈ calls, call.FeedsOther) → NoFailure waf ev calls tx →
    Unset (runCalls waf ev calls tx) := by
  intro calls
  induction calls with
  | nil => exact fun h _ _ => h
  | cons call calls ih =>
    intro tx h hcalls hfails
    obtain ⟨hcall, hcalls⟩ := forall_mem_cons.mp hcalls
    refine ih (h.call hev hwaf hcall (hfails [] call calls rfl)) hcalls ?_
    intro before call' after hsplit
    exact hfails (call :: before) call' after (congrArg _ hsplit)

theorem Call.run_of_evaluates {call : Call} (hcall : call.FeedsOther) {d : Direction}
    (h : call.Evaluates waf ev tx d) :
    tx.lastPhase + 1 = d.phase ∧ KeepsErrors tx (call.entering waf ev tx d) ∧
      call.run waf ev tx = ev.eval d.phase (d.entered waf (call.entering waf ev tx d)) := by
  have hstep := Call.run_errors hev waf hcall tx
  obtain ⟨b, hb⟩ := h
  generalize call.run waf ev tx = tx' at hstep hb ⊢
  cases hstep with
  | quiet hphases hlast hkeeps =>
    rw [hphases, self_eq_append_right] at hb
    cases hb
  | other hphase hlast hphases hkeeps =>
    rw [ev.phases_eval, hphases, append_cancel_left_eq] at hb
    cases hb
    exact absurd rfl (hphase d)
  | @body d' hnext hphases hkeeps =>
    rw [ev.phases_eval, Direction.entered_phases, hphases, append_cancel_left_eq] at hb
    have hd : d' = d := by
      have hphase : d'.phase = d.phase := congrArg (fun l => (l.headD (0, false)).1) hb
      revert hphase
      cases d <;> cases d' <;> decide
    subst hd
    exact ⟨hnext, hkeeps, rfl⟩

omit hev

/-- **What a rule of the phase sees**, at any moment of the evaluation. -/
theorem evalSteps_visible_iff (hwaf : waf.KeepsErrors) (d : Direction)
    (hunset : d = .request → Unset tx) (rules : List Rule) (labels : List RuleLabel) :
    (∀ s, EvalSteps labels rules (beginPhase d.phase (d.entered waf tx)) s →
      Visible d s.vars (d.reported waf tx)) ↔ d.Shows (d.reported waf tx) := by
  have hfirst : Visible d (d.entered waf tx).vars (d.reported waf tx) ↔
      d.Shows (d.reported waf tx) := by
    unfold Direction.entered Direction.reported
    split
    · exact parsed_visible_iff hwaf d hunset
    · refine ⟨fun _ => ?_, fun _ => visible_none d hunset⟩
      cases d with
      | request => exact nofun
      | response => rfl
  constructor
  · exact fun h => hfirst.mp (h (beginPhase d.phase (d.entered waf tx)) .refl)
  · intro h s hs
    exact (visible_congr (fun v hv => evalSteps_errors hs hv) d _).mp (hfirst.mpr h)

/-- A transaction that is new or was taken from the pool. -/
theorem unset_newTransaction {κ ε : Type} (w : PoolWAF) (clock : Variables.Clock)
    (opts : Options κ) (timestamp : Int)
    (used : Option (PooledTransaction κ ε × CloseAnswers)) :
    Unset (w.newTransaction clock opts timestamp
      (used.map (fun p => (p.1.close w p.2).2))).tx := by
  have hstart : ∀ vars : Variables, (∀ v ∈ Direction.request.errors, vars.single v = []) →
      ∀ v ∈ Direction.request.errors,
        (vars.start clock opts.id timestamp).single v ≠ bytesOf "1" := by
    intro vars hvars v hv
    have hone : bytesOf "1" ≠ [] ∧ bytesOf "1" ≠ bytesOf "0" := by decide +kernel
    have hempty := hvars v hv
    -- the flags are set to 0, and the messages are not set
    cases v with
    | reqbodyError | reqbodyProcessorError =>
      simp [start, defaults, timeVariables, hone.2.symm]
    | reqbodyErrorMsg | reqbodyProcessorErrorMsg =>
      simp [start, defaults, timeVariables, hempty, hone.1.symm]
    | _ => exact absurd hv (by decide)
  cases used with
  | none => exact hstart new (fun _ _ => rfl)
  | some p =>
    refine hstart p.1.tx.vars.reset (fun v hv => ?_)
    rw [reset_single _ (by revert v; decide), if_neg (by revert v; decide)]

/-- **Rules see the errors of body processors**, in every run of a transaction that is new or was
taken from the pool.  Where the phase of a body is evaluated, it is evaluated after the body was
processed, and its rules see what the processor has reported if and only if that is an error with
a text in the request body, or no error.  While no processor of a request body has failed, no
variable says so. -/
theorem parseErrors_visible_iff {κ ε : Type} {w : PoolWAF} (hwaf : w.toWAF.KeepsErrors)
    (clock : Variables.Clock) (opts : Options κ) (timestamp : Int)
    (used : Option (PooledTransaction κ ε × CloseAnswers)) (rg : RuleGroup)
    (iteration : Nat → Iteration) {calls : List Call} (hcalls : ∀ call ∈ calls, call.FeedsOther) :
    let ev := rg.evaluator iteration
    let start := (w.newTransaction clock opts timestamp
      (used.map (fun p => (p.1.close w p.2).2))).tx
    let tx := runCalls w.toWAF ev calls start
    (∀ (call : Call) (d : Direction), call.FeedsOther → call.Evaluates w.toWAF ev tx d →
      let tx₀ := call.entering w.toWAF ev tx d
      call.run w.toWAF ev tx = ev.eval d.phase (d.entered w.toWAF tx₀) ∧
      ((∀ s, EvalSteps rg.labels (rg.phaseRules d.phase)
          (beginPhase d.phase (d.entered w.toWAF tx₀)) s →
          Visible d s.vars (d.reported w.toWAF tx₀)) ↔
        d.Shows (d.reported w.toWAF tx₀))) ∧
    (NoFailure w.toWAF ev calls start →
      ∀ (d : Direction), ∀ v ∈ d.errors, ∀ it, bytesOf "1" ∉ readVariable it tx.vars v) := by
  intro ev start tx
  have hev := keepsBodies_evaluator rg iteration
  have hunset : Unset start := unset_newTransaction w clock opts timestamp used
  refine ⟨fun call d hcall hevaluates => ?_, fun hnone d => ?_⟩
  · obtain ⟨hnext, hkeeps, hrun⟩ := Call.run_of_evaluates hev hcall hevaluates
    refine ⟨hrun, evalSteps_visible_iff hwaf d ?_ _ _⟩
    rintro rfl
    have hcalm : Calm tx := Calm.run hev calls (fun _ => hunset) hcalls
    exact (hcalm (Nat.le_of_eq (Nat.succ.inj hnext))).keeps hkeeps
  · exact visible_none d (fun _ => Unset.run hev hwaf calls hunset hcalls hnone)

end

def strictProcessor : BodyProcessor where
  processRequest _ _ _ vars := (vars, some (bytesOf "bad body"))
  processResponse _ _ _ vars := (vars, some (bytesOf "bad body"))
  contentType _ _ _ _ := rfl

def strictWAF : PoolWAF :=
  { responseWAF with requestBodyAccess := true, processors := fun _ => some strictProcessor }

theorem strictWAF_keepsErrors : strictWAF.toWAF.KeepsErrors := by
  intro name p hp
  cases hp
  exact fun _ _ _ _ _ _ => ⟨rfl, rfl⟩

def strictCalls : List Call :=
  [.feed (fun vars => vars.setSingle .reqbodyProcessor (bytesOf "URLENCODED")),
    .processRequestHeaders, .writeRequestBody (bytesOf "a")]

theorem strictCalls_feedsOther : ∀ call ∈ strictCalls, call.FeedsOther := by
  intro call hcall
  rcases mem_cons.mp hcall with rfl | hcall
  · intro vars v hv
    rw [setSingle_single, if_neg (ne_of_mem_of_not_mem hv (by decide))]
  · rcases mem_pair.mp hcall with rfl | rfl <;> exact trivial

def strictTransaction : Transaction :=
  runCalls strictWAF.toWAF (RuleGroup.evaluator [] (fun _ => .stored)) strictCalls
    (strictWAF.newTransaction midnight ⟨bytesOf "a", ()⟩ 0
      (none : Option (PooledTransaction Unit Unit))).tx

theorem parseErrors_visible_strict :
    Direction.request.reported strictWAF.toWAF strictTransaction = some (bytesOf "bad body") ∧
      ∀ s, EvalSteps [] [] (beginPhase phaseRequestBody
        (Direction.request.entered strictWAF.toWAF strictTransaction)) s →
        Visible .request s.vars (some (bytesOf "bad body")) := by
  have hreported : Direction.request.reported strictWAF.toWAF strictTransaction
      = some (bytesOf "bad body") := by decide +kernel
  have hvisible := ((parseErrors_visible_iff strictWAF_keepsErrors midnight ⟨bytesOf "a", ()⟩ 0
    (none : Option (PooledTransaction Unit Unit × CloseAnswers)) [] (fun _ => .stored)
    strictCalls_feedsOther).1 .processRequestBody .request trivial
    ⟨false, by decide +kernel⟩).2
  refine ⟨hreported, ?_⟩
  rw [← hreported]
  refine hvisible.mpr ?_
  show Direction.request.reported strictWAF.toWAF strictTransaction ≠ some []
  decide +kernel

/-- **A response body cannot be processed, and no rule can read that.** -/
theorem responseError_invisible :
    let tx := (usedTransaction [.processRequestHeaders, .processRequestBody,
      .processResponseHeaders 200 (bytesOf "HTTP/1.1")]).tx
    let tx' := Direction.response.entered responseWAF.toWAF tx
    Call.processResponseBody.Evaluates responseWAF.toWAF
        (RuleGroup.evaluator [lostProcessorChain] (fun _ => .stored)) tx .response ∧
      Direction.response.reported responseWAF.toWAF tx = some (bytesOf "invalid body processor") ∧
      tx'.vars.single .resBodyError = bytesOf "1" ∧
      (∀ it, readVariable it tx'.vars .resBodyError = []) ∧
      ¬Visible .response tx'.vars (some (bytesOf "invalid body processor")) :=
  ⟨⟨false, by decide +kernel⟩, by decide +kernel, by decide +kernel,
    fun it => readVariable_response it _ (by decide), not_visible_response _ _⟩

end Coraza.Waf
