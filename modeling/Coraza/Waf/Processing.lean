import Coraza.Waf.Transaction

/-!
# Processing a request and a response

The entry points that feed bodies to a transaction and evaluate its phases.  The
functions for the request body and those for the response body are the same up to
the fields they use, so each pair is one definition over a `BodySide`.

A call that panics returns `none` in place of a result; the state is the one at
that moment.
-/

namespace Coraza.Waf

open Go Transaction

/-- What the functions that take body bytes return: the interruption, the number of
bytes taken, and an error. -/
abbrev BodyResult := Option Interruption × Int × Option Error

variable {tx : Transaction}

section

variable (waf : WAF) (ev : Evaluator)

def processRequestHeaders (tx : Transaction) : Option Interruption × Transaction :=
  if tx.isRuleEngineOff then (none, tx)
  else if tx.lastPhase ≥ phaseRequestHeaders then (tx.interruption, tx)
  else if tx.isInterrupted then (tx.interruption, tx)
  else
    let tx := ev.eval phaseRequestHeaders tx
    (tx.interruption, tx)

def generateRequestBodyError (err : Bytes) (vars : Variables) : Variables :=
  (((vars.setSingle .reqbodyError (bytesOf "1")).setSingle .reqbodyErrorMsg
    (vars.single .reqbodyProcessor ++ bytesOf ": " ++ err)).setSingle
    .reqbodyProcessorError (bytesOf "1")).setSingle .reqbodyProcessorErrorMsg err

def generateResponseBodyError (err : Bytes) (vars : Variables) : Variables :=
  (((vars.setSingle .resBodyError (bytesOf "1")).setSingle .resBodyErrorMsg
    (vars.single .resBodyProcessor ++ bytesOf ": " ++ err)).setSingle
    .resBodyProcessorError (bytesOf "1")).setSingle .resBodyProcessorErrorMsg err

/-- What the variables become when a body processor has run and reported `err`. -/
def afterProcessor (generateError : Bytes → Variables → Variables)
    (out : Variables × Option Bytes) : Variables :=
  match out.2 with
  | none => out.1
  | some err => generateError err out.1

/-- The part of `ProcessRequestBody` between its checks and the evaluation: the body
processor that the variables name is run on the body. -/
def parseRequestBody (force : Bool) (n : Nat) (body : Bytes) (vars : Variables) : Variables :=
  let mimeType := ((vars.map .requestHeaders).get (bytesOf "content-type")).headD []
  let rbp := vars.single .reqbodyProcessor
  let rbp := if force ∧ rbp = [] then bytesOf "URLENCODED" else rbp
  let vars := if force then vars.setSingle .reqbodyProcessor rbp else vars
  let rbp := Strings.toLower rbp
  if rbp = [] then vars
  else
    match waf.getBodyProcessor rbp with
    | none => generateRequestBodyError (bytesOf "invalid body processor") vars
    | some bodyprocessor =>
      afterProcessor generateRequestBodyError (bodyprocessor.processRequest n body
        ⟨mimeType, waf.uploadDir, waf.requestBodyJsonDepthLimit⟩ vars)

def processRequestBody (tx : Transaction) : (Option Interruption × Option Error) × Transaction :=
  if tx.isRuleEngineOff then ((none, none), tx)
  else if tx.isInterrupted then ((tx.interruption, none), tx)
  else if tx.lastPhase ≠ phaseRequestHeaders then ((none, none), tx)
  else
    let tx :=
      if tx.requestBodyAccess = false ∨ tx.requestBodyBuffer.length = 0 then tx
      else tx.askVariables (fun n =>
        parseRequestBody waf tx.forceRequestBodyVariable n tx.requestBodyBuffer.content)
    let tx := ev.eval phaseRequestBody tx
    ((tx.interruption, none), tx)

def processResponseHeaders (code : Int) (proto : Bytes) (tx : Transaction) :
    Option Interruption × Transaction :=
  if tx.isRuleEngineOff then (none, tx)
  else if tx.lastPhase ≥ phaseResponseHeaders then (tx.interruption, tx)
  else if tx.isInterrupted then (tx.interruption, tx)
  else
    let tx := tx.modifyVariables (fun vars =>
      (vars.setSingle .responseStatus (bytesOf (toString code))).setSingle .responseProtocol proto)
    let tx := ev.eval phaseResponseHeaders tx
    (tx.interruption, tx)

def isResponseBodyProcessable (tx : Transaction) : Bool :=
  tx.forceResponseBodyVariable ||
    waf.responseBodyMimeTypes.contains (tx.vars.single .responseContentType)

def parseResponseBody (n : Nat) (body : Bytes) (vars : Variables) : Variables :=
  let bp := vars.single .resBodyProcessor
  if bp ≠ [] then
    match waf.getBodyProcessor bp with
    | none => generateResponseBodyError (bytesOf "invalid body processor") vars
    | some b => afterProcessor generateResponseBodyError (b.processResponse n body ⟨[], [], 0⟩ vars)
  else
    (vars.setSingle .responseContentLength (bytesOf (toString body.length))).setSingle
      .responseBody body

/-- The error that `ProcessResponseBody` returns for a processor that does not exist. -/
def responseProcessorError (vars : Variables) : Option Error :=
  let bp := vars.single .resBodyProcessor
  if bp ≠ [] ∧ (waf.getBodyProcessor bp).isNone then
    some (.errorf "invalid bodyprocessor %q" [bp])
  else none

def processResponseBody (tx : Transaction) : (Option Interruption × Option Error) × Transaction :=
  if tx.isRuleEngineOff then ((none, none), tx)
  else if tx.isInterrupted then ((tx.interruption, none), tx)
  else if tx.lastPhase ≠ phaseResponseHeaders then ((none, none), tx)
  else
    if tx.responseBodyAccess = false ∨ isResponseBodyProcessable waf tx = false then
      let tx := ev.eval phaseResponseBody tx
      ((tx.interruption, none), tx)
    else
      let err := responseProcessorError waf tx.vars
      let tx := tx.askVariables (fun n => parseResponseBody waf n tx.responseBodyBuffer.content)
      let tx := ev.eval phaseResponseBody tx
      ((tx.interruption, err), tx)

/-- What one of these four functions returns and leaves: its checks stop it, or it evaluates its
phase with other variables, and without an interruption before. -/
inductive PhaseCall (phase : Nat) (guard : Prop) (tx : Transaction) :
    Option Interruption × Transaction → Prop where
  | stopped {it : Option Interruption} (h : it = none ∨ it = tx.interruption) :
      PhaseCall phase guard tx (it, tx)
  | evaluated (vars : Variables) (asked : Nat) (hint : tx.interruption = none) (hguard : guard) :
      PhaseCall phase guard tx ((ev.eval phase { tx with vars, asked }).interruption,
        ev.eval phase { tx with vars, asked })

theorem processRequestHeaders_call (tx : Transaction) :
    PhaseCall ev phaseRequestHeaders (tx.lastPhase < phaseRequestHeaders) tx
      (processRequestHeaders ev tx) := by
  unfold processRequestHeaders
  split_ifs with hoff hlast hint
  · exact .stopped (.inl rfl)
  · exact .stopped (.inr rfl)
  · exact .stopped (.inr rfl)
  · exact .evaluated _ _ (Option.not_isSome_iff_eq_none.mp hint) (not_le.mp hlast)

theorem processResponseHeaders_call (code : Int) (proto : Bytes) (tx : Transaction) :
    PhaseCall ev phaseResponseHeaders (tx.lastPhase < phaseResponseHeaders) tx
      (processResponseHeaders ev code proto tx) := by
  unfold processResponseHeaders
  split_ifs with hoff hlast hint
  · exact .stopped (.inl rfl)
  · exact .stopped (.inr rfl)
  · exact .stopped (.inr rfl)
  · exact .evaluated _ _ (Option.not_isSome_iff_eq_none.mp hint) (not_le.mp hlast)

theorem processRequestBody_call (tx : Transaction) :
    PhaseCall ev phaseRequestBody (tx.lastPhase = phaseRequestHeaders) tx
      ((processRequestBody waf ev tx).1.1, (processRequestBody waf ev tx).2) := by
  unfold processRequestBody
  split_ifs with hoff hint hlast
  · exact .stopped (.inl rfl)
  · exact .stopped (.inr rfl)
  · exact .stopped (.inl rfl)
  · exact .evaluated _ _ (Option.not_isSome_iff_eq_none.mp hint) (not_not.mp hlast)
  · exact .evaluated _ _ (Option.not_isSome_iff_eq_none.mp hint) (not_not.mp hlast)

theorem processResponseBody_call (tx : Transaction) :
    PhaseCall ev phaseResponseBody (tx.lastPhase = phaseResponseHeaders) tx
      ((processResponseBody waf ev tx).1.1, (processResponseBody waf ev tx).2) := by
  unfold processResponseBody
  split_ifs with hoff hint hlast
  · exact .stopped (.inl rfl)
  · exact .stopped (.inr rfl)
  · exact .stopped (.inl rfl)
  · exact .evaluated _ _ (Option.not_isSome_iff_eq_none.mp hint) (not_not.mp hlast)
  · exact .evaluated _ _ (Option.not_isSome_iff_eq_none.mp hint) (not_not.mp hlast)

theorem PhaseCall.returned {ev : Evaluator} {phase : Nat} {guard : Prop}
    {out : Option Interruption × Transaction} (h : PhaseCall ev phase guard tx out) :
    out.1 = none ∨ out.1 = out.2.interruption := by
  cases h with
  | stopped h => exact h
  | evaluated => exact .inr rfl

/-- The interruption that is returned is that of the transaction, if there was none before. -/
theorem processResponseBody_interruption (h : tx.interruption = none) :
    (processResponseBody waf ev tx).1.1 = (processResponseBody waf ev tx).2.interruption := by
  unfold processResponseBody
  split_ifs
  · exact h.symm
  · rfl
  · exact h.symm
  · rfl
  · rfl

/-- `ProcessLogging`, up to the audit log, which changes nothing in the transaction. -/
def processLogging (tx : Transaction) : Transaction :=
  if tx.isRuleEngineOff then tx else ev.eval phaseLogging tx

/-! ### Body bytes -/

def setAndReturnBodyLimitInterruption (tx : Transaction) (status : Int) :
    BodyResult × Transaction :=
  let tx := { tx with interruption := some ⟨0, .deny, status, []⟩ }
  ((tx.interruption, 0, none), tx)

/-- What distinguishes the functions for the two bodies.  Only those for the request
check for an overflow of the length. -/
structure BodySide where
  access : Transaction → Bool
  limit : Transaction → Int
  buffer : Transaction → BodyBuffer
  setBuffer : Transaction → BodyBuffer → Transaction
  dataError : RuleVariable
  limitAction : BodyLimitAction
  status : Int
  checksOverflow : Bool
  files : Nat → FileAnswers
  process : Transaction → (Option Interruption × Option Error) × Transaction

def requestSide : BodySide where
  access := requestBodyAccess
  limit := requestBodyLimit
  buffer := requestBodyBuffer
  setBuffer tx buffer := { tx with requestBodyBuffer := buffer }
  dataError := .inboundDataError
  limitAction := waf.requestBodyLimitAction
  status := 413
  checksOverflow := true
  files := waf.requestFiles
  process := processRequestBody waf ev

def responseSide : BodySide where
  access := responseBodyAccess
  limit := responseBodyLimit
  buffer := responseBodyBuffer
  setBuffer tx buffer := { tx with responseBodyBuffer := buffer }
  dataError := .outboundDataError
  limitAction := waf.responseBodyLimitAction
  status := 500
  checksOverflow := false
  files := waf.responseFiles
  process := processResponseBody waf ev

end

def sliceTo (b : Bytes) (n : Int) : Option Bytes :=
  if 0 ≤ n ∧ n ≤ b.length then some (b.take n.toNat) else none

namespace BodySide

variable (side : BodySide)

def setDataError (tx : Transaction) : Transaction :=
  tx.modifyVariables (fun vars => vars.setSingle side.dataError (bytesOf "1"))

theorem setDataError_single {side : BodySide} {v : RuleVariable} (h : v ≠ side.dataError)
    (tx : Transaction) : (side.setDataError tx).vars.single v = tx.vars.single v :=
  (Variables.setSingle_single ..).trans (if_neg h)

/-- The checks at the beginning of the four functions; `none` is to go on. -/
def early (tx : Transaction) : Option BodyResult :=
  if tx.isRuleEngineOff then some (none, 0, none)
  else if side.access tx = false then some (none, 0, none)
  else if side.limit tx = (side.buffer tx).length then
    match side.limitAction with
    | .reject => some (tx.interruption, 0, none)
    | .processPartial => some (none, 0, none)
  else none

/-- The checks take no bytes, and report an interruption only if there is one. -/
theorem early_eq {side : BodySide} {it : Option Interruption} {n : Int}
    {err : Option Error} (h : side.early tx = some (it, n, err)) :
    n = 0 ∧ err = none ∧ (it = none ∨ it = tx.interruption) := by
  unfold early at h
  split_ifs at h
  · cases h
    exact ⟨rfl, rfl, .inl rfl⟩
  · cases h
    exact ⟨rfl, rfl, .inl rfl⟩
  · split at h
    · cases h
      exact ⟨rfl, rfl, .inr rfl⟩
    · cases h
      exact ⟨rfl, rfl, .inl rfl⟩

/-- What the checks have found out when they let a call go on. -/
theorem early_none {side : BodySide} (h : side.early tx = none) :
    tx.isRuleEngineOff = false ∧ side.access tx = true ∧
      side.limit tx ≠ (side.buffer tx).length := by
  unfold early at h
  split_ifs at h with hoff haccess hfull
  · split at h <;> cases h
  · exact ⟨Bool.not_eq_true _ ▸ hoff, Bool.not_eq_false _ ▸ haccess, hfull⟩

/-- The end of the four functions: the phase is evaluated if the limit was reached. -/
def finish (run : Bool) (w : Nat) (tx : Transaction) : BodyResult × Transaction :=
  if run then
    let ((_, err), tx) := side.process tx
    ((tx.interruption, w, err), tx)
  else ((tx.interruption, w, none), tx)

def store (b : Bytes) (writingBytes : Int) (run : Bool) (tx : Transaction) :
    Option BodyResult × Transaction :=
  match sliceTo b writingBytes with
  | none => (none, tx)
  | some data =>
    let ((w, err), buffer) := BodyBuffer.write side.files (side.buffer tx) data
    let tx := side.setBuffer tx buffer
    match err with
    | some err => (some (none, 0, some err), tx)
    | none =>
      let (r, tx) := side.finish run w tx
      (some r, tx)

/-- `WriteRequestBody` and `WriteResponseBody`.  A slice and a buffer are too small for
their lengths to overflow when added. -/
def writeBody (b : Bytes) (tx : Transaction) : Option BodyResult × Transaction :=
  match side.early tx with
  | some r => (some r, tx)
  | none =>
    let length := (side.buffer tx).length
    let writingBytes : Int := b.length
    if side.checksOverflow ∧ length ≥ maxInt64 - writingBytes then
      (some (none, 0, some (.new "overflow reached while writing request body")), tx)
    else if length + writingBytes ≥ side.limit tx then
      let tx := side.setDataError tx
      match side.limitAction with
      | .reject =>
        let (r, tx) := setAndReturnBodyLimitInterruption tx side.status
        (some r, tx)
      | .processPartial => side.store b (wrap64 (side.limit tx - length)) true tx
    else side.store b writingBytes false tx

def afterCopy (run : Bool) (w : Nat) (tx : Transaction) : BodyResult × Transaction :=
  if (side.buffer tx).length = side.limit tx then
    let tx := side.setDataError tx
    match side.limitAction with
    | .reject => setAndReturnBodyLimitInterruption tx side.status
    | .processPartial => side.finish true w tx
  else side.finish run w tx

def copyFrom (r : Io.Stream) (writingBytes : Int) (run : Bool) (tx : Transaction) :
    BodyResult × Io.Stream × Transaction :=
  let ((w, err), r, buffer) :=
    Io.copyN Io.Stream.read (BodyBuffer.write side.files) (r.weight + 1) r (side.buffer tx)
      writingBytes
  let tx := side.setBuffer tx buffer
  if err ≠ none ∧ err ≠ some .eof then ((none, w, err), r, tx)
  else
    let (res, tx) := side.afterCopy run w tx
    (res, r, tx)

/-- `ReadRequestBodyFrom` and `ReadResponseBodyFrom`. -/
def readBodyFrom (r : Io.Stream) (tx : Transaction) : BodyResult × Io.Stream × Transaction :=
  match side.early tx with
  | some res => (res, r, tx)
  | none =>
    let length := (side.buffer tx).length
    match r.len with
    | none => side.copyFrom r (wrap64 (side.limit tx - length)) false tx
    | some l =>
      if side.checksOverflow ∧ length ≥ wrap64 (maxInt64 - l) then
        ((none, 0, some (.new "overflow reached while writing request body")), r, tx)
      else if wrap64 (length + l) ≥ side.limit tx then
        let tx := side.setDataError tx
        match side.limitAction with
        | .reject =>
          let (res, tx) := setAndReturnBodyLimitInterruption tx side.status
          (res, r, tx)
        | .processPartial => side.copyFrom r (wrap64 (side.limit tx - length)) true tx
      else side.copyFrom r l false tx

end BodySide

section

variable (waf : WAF) (ev : Evaluator)

def writeRequestBody (b : Bytes) (tx : Transaction) : Option BodyResult × Transaction :=
  (requestSide waf ev).writeBody b tx

def writeResponseBody (b : Bytes) (tx : Transaction) : Option BodyResult × Transaction :=
  (responseSide waf ev).writeBody b tx

def readRequestBodyFrom (r : Io.Stream) (tx : Transaction) : BodyResult × Io.Stream × Transaction :=
  (requestSide waf ev).readBodyFrom r tx

def readResponseBodyFrom (r : Io.Stream) (tx : Transaction) :
    BodyResult × Io.Stream × Transaction :=
  (responseSide waf ev).readBodyFrom r tx

/-- A call of the programming interface.  `feed` stands for the calls that only fill
variables: the connection, the URI, headers and arguments. -/
inductive Call where
  | feed (f : Variables → Variables)
  | processRequestHeaders
  | writeRequestBody (b : Bytes)
  | readRequestBodyFrom (r : Io.Stream)
  | processRequestBody
  | processResponseHeaders (code : Int) (proto : Bytes)
  | writeResponseBody (b : Bytes)
  | readResponseBodyFrom (r : Io.Stream)
  | processResponseBody
  | processLogging

def Call.run (tx : Transaction) : Call → Transaction
  | feed f => tx.modifyVariables f
  | processRequestHeaders => (Waf.processRequestHeaders ev tx).2
  | writeRequestBody b => (Waf.writeRequestBody waf ev b tx).2
  | readRequestBodyFrom r => (Waf.readRequestBodyFrom waf ev r tx).2.2
  | processRequestBody => (Waf.processRequestBody waf ev tx).2
  | processResponseHeaders code proto => (Waf.processResponseHeaders ev code proto tx).2
  | writeResponseBody b => (Waf.writeResponseBody waf ev b tx).2
  | readResponseBodyFrom r => (Waf.readResponseBodyFrom waf ev r tx).2.2
  | processResponseBody => (Waf.processResponseBody waf ev tx).2
  | processLogging => Waf.processLogging ev tx

def Call.returned (tx : Transaction) : Call → Option Interruption
  | feed _ => none
  | processRequestHeaders => (Waf.processRequestHeaders ev tx).1
  | writeRequestBody b => (Waf.writeRequestBody waf ev b tx).1.bind (·.1)
  | readRequestBodyFrom r => (Waf.readRequestBodyFrom waf ev r tx).1.1
  | processRequestBody => (Waf.processRequestBody waf ev tx).1.1
  | processResponseHeaders code proto => (Waf.processResponseHeaders ev code proto tx).1
  | writeResponseBody b => (Waf.writeResponseBody waf ev b tx).1.bind (·.1)
  | readResponseBodyFrom r => (Waf.readResponseBodyFrom waf ev r tx).1.1
  | processResponseBody => (Waf.processResponseBody waf ev tx).1.1
  | processLogging => none

def runCalls (calls : List Call) (tx : Transaction) : Transaction :=
  calls.foldl (Call.run waf ev) tx

end

end Coraza.Waf
