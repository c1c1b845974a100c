import Coraza.Waf.BodyBuffer
import Coraza.Waf.Variables

/-!
# Transactions

The state of a transaction: what the rules matched, whether they interrupted it,
the settings that `ctl` may change, the two body buffers and the variables.  The
fields `phases`, `steps` and `modes` are histories.  No function reads them; `phases`
lists the phases that were evaluated and whether the transaction was interrupted when
each began, `steps` what the rules of a chain did, and `modes` the modes of the engine
that rules have set and whether the transaction was interrupted at that moment.
-/

namespace Coraza.Waf

open Go Collections

/-- `PhaseRequestHeaders`; a `types.RulePhase` is a number. -/
def phaseRequestHeaders : Nat := 1
def phaseRequestBody : Nat := 2
def phaseResponseHeaders : Nat := 3
def phaseResponseBody : Nat := 4
def phaseLogging : Nat := 5

inductive RuleEngineStatus where
  | on | detectionOnly | off
  deriving DecidableEq

inductive AuditEngineStatus where
  | on | off | relevantOnly
  deriving DecidableEq

inductive AllowType where
  | unset | all | phase | request
  deriving DecidableEq

inductive BodyLimitAction where
  | processPartial | reject
  deriving DecidableEq

inductive InterruptionAction where
  | deny | drop | redirect
  deriving DecidableEq

structure Interruption where
  ruleID : Int
  action : InterruptionAction
  status : Int
  data : Bytes
  deriving DecidableEq

structure MatchData where
  matchVariable : RuleVariable
  key : Bytes
  value : Bytes
  message : Bytes
  data : Bytes
  chainLevel : Nat

inductive DisruptiveAction where
  | unknown | allow | deny | drop | pass | redirect
  deriving DecidableEq

/-- `corazarules.MatchedRule`, with the id of the rule for the rule. -/
structure MatchedRule where
  ruleID : Int
  message : Bytes
  data : Bytes
  uri : Bytes
  serverIPAddress : Bytes
  clientIPAddress : Bytes
  disruptive : Bool
  disruptiveAction : DisruptiveAction
  log : Bool
  audit : Bool
  matchedDatas : List MatchData

/-- What a rule of a chain did.  A rule is named by the number of members that
follow it in the chain. -/
inductive ChainStep where
  /-- Its own variables were tested, and matched or not. -/
  | tested (following : Nat) (matched : Bool)
  /-- Its flow or disruptive action number `index` was executed. -/
  | acted (following : Nat) (index : Nat)
  deriving DecidableEq

structure Transaction where
  matchedRules : List MatchedRule
  interruption : Option Interruption
  detectionOnlyInterruption : Option Interruption
  skipAfter : Bytes
  allowType : AllowType
  auditEngine : AuditEngineStatus
  forceRequestBodyVariable : Bool
  requestBodyAccess : Bool
  requestBodyLimit : Int
  forceResponseBodyVariable : Bool
  responseBodyAccess : Bool
  responseBodyLimit : Int
  ruleEngine : RuleEngineStatus
  lastPhase : Nat
  requestBodyBuffer : BodyBuffer
  responseBodyBuffer : BodyBuffer
  ruleRemoveByID : List Int
  ruleRemoveByIDRanges : List (Int × Int)
  ruleRemoveTargetByID : Int → List RuleVariableParams
  skip : Int
  capture : Bool
  audit : Bool
  vars : Variables
  /-- How many questions were put to the surroundings. -/
  asked : Nat
  phases : List (Nat × Bool)
  steps : List ChainStep
  modes : List (RuleEngineStatus × Bool)

namespace Transaction

def isRuleEngineOff (tx : Transaction) : Bool := tx.ruleEngine = .off

def isInterrupted (tx : Transaction) : Bool := tx.interruption.isSome

theorem isInterrupted_eq_false {tx : Transaction} :
    tx.isInterrupted = false ↔ tx.interruption = none :=
  Option.isSome_eq_false_iff.trans Option.isNone_iff_eq_none

def interrupt (tx : Transaction) (interruption : Interruption) : Transaction :=
  match tx.ruleEngine with
  | .on => { tx with interruption := some interruption }
  | .detectionOnly =>
    if tx.detectionOnlyInterruption.isNone then
      { tx with detectionOnlyInterruption := some interruption }
    else tx
  | .off => tx

def allow (tx : Transaction) (allowType : AllowType) : Transaction :=
  if tx.ruleEngine = .on then { tx with allowType } else tx

def removeRuleByID (tx : Transaction) (id : Int) : Transaction :=
  { tx with ruleRemoveByID := id :: tx.ruleRemoveByID }

def removeRuleByIDRange (tx : Transaction) (first last : Int) : Transaction :=
  { tx with ruleRemoveByIDRanges := tx.ruleRemoveByIDRanges ++ [(first, last)] }

def removeRuleTargetByID (tx : Transaction) (id : Int) (v : RuleVariable) (key : Bytes)
    (keyRx : Option (Bytes → Bool)) : Transaction :=
  let c : RuleVariableParams := ⟨false, v, keyRx, key, []⟩
  { tx with ruleRemoveTargetByID :=
      Function.update tx.ruleRemoveTargetByID id (tx.ruleRemoveTargetByID id ++ [c]) }

def modifyVariables (tx : Transaction) (f : Variables → Variables) : Transaction :=
  { tx with vars := f tx.vars }

def askVariables (tx : Transaction) (f : Nat → Variables → Variables) : Transaction :=
  { tx with vars := f tx.asked tx.vars, asked := tx.asked + 1 }

def matchVariable (tx : Transaction) (md : MatchData) : Transaction :=
  let name := bytesOf md.matchVariable.name
  let varName := if md.key ≠ [] then name ++ bytesOf ":" ++ md.key else name
  tx.modifyVariables (fun vars =>
    ((vars.modifyMap .matchedVars (fun m => m.add varName md.value)).setSingle
      .matchedVar md.value).setSingle .matchedVarName varName)

end Transaction

structure BodyProcessorOptions where
  mime : Bytes
  storagePath : Bytes
  requestBodyRecursionLimit : Int

/-- `plugintypes.BodyProcessor`; an error is given by its text.  The number tells one
call from another, because a processor may iterate over maps and use files.  No
processor sets the content type of the response. -/
structure BodyProcessor where
  processRequest : Nat → Bytes → BodyProcessorOptions → Variables → Variables × Option Bytes
  processResponse : Nat → Bytes → BodyProcessorOptions → Variables → Variables × Option Bytes
  contentType : ∀ n body options vars,
    (processResponse n body options vars).1.single .responseContentType
      = vars.single .responseContentType

/-- The parts of `WAF` that a transaction reads, and what it asks of the file system:
the answers for the buffer of the request body and for that of the response body. -/
structure WAF where
  ruleEngine : RuleEngineStatus
  auditEngine : AuditEngineStatus
  requestBodyAccess : Bool
  requestBodyLimit : Int
  requestBodyInMemoryLimit : Option Int
  responseBodyAccess : Bool
  responseBodyLimit : Int
  requestBodyLimitAction : BodyLimitAction
  responseBodyLimitAction : BodyLimitAction
  responseBodyMimeTypes : List Bytes
  requestBodyJsonDepthLimit : Int
  uploadDir : Bytes
  argumentLimit : Int
  /-- The registered body processors. -/
  processors : Bytes → Option BodyProcessor
  requestFiles : Nat → FileAnswers
  responseFiles : Nat → FileAnswers

/-- `NewWAF`, with the body processors that are registered and a file system that never
fails. -/
def WAF.new (processors : Bytes → Option BodyProcessor) : WAF where
  ruleEngine := .on
  auditEngine := .on
  requestBodyAccess := false
  requestBodyLimit := 134217728
  requestBodyInMemoryLimit := none
  responseBodyAccess := false
  responseBodyLimit := 524288
  requestBodyLimitAction := .reject
  responseBodyLimitAction := .processPartial
  responseBodyMimeTypes := []
  requestBodyJsonDepthLimit := 1024
  uploadDir := []
  argumentLimit := 1000
  processors
  requestFiles := fun _ => .good
  responseFiles := fun _ => .good

/-- The last adjustment that `coraza.NewWAF` makes: a WAF that only detects rejects no body. -/
def WAF.adjusted (waf : WAF) : WAF :=
  if waf.ruleEngine = .detectionOnly then
    { waf with
      requestBodyLimitAction := .processPartial
      responseBodyLimitAction := .processPartial }
  else waf

def WAF.getBodyProcessor (waf : WAF) (name : Bytes) : Option BodyProcessor :=
  waf.processors (Strings.toLower name)

/-- `WAF.newTransaction`.  The variables start with defaults, the id and the time. -/
def WAF.newTransaction (waf : WAF) (vars : Variables) : Transaction where
  matchedRules := []
  interruption := none
  detectionOnlyInterruption := none
  skipAfter := []
  allowType := .unset
  auditEngine := waf.auditEngine
  forceRequestBodyVariable := false
  requestBodyAccess := waf.requestBodyAccess
  requestBodyLimit := waf.requestBodyLimit
  forceResponseBodyVariable := false
  responseBodyAccess := waf.responseBodyAccess
  responseBodyLimit := waf.responseBodyLimit
  ruleEngine := waf.ruleEngine
  lastPhase := 0
  requestBodyBuffer :=
    .new ⟨waf.requestBodyInMemoryLimit.getD waf.requestBodyLimit, waf.requestBodyLimit⟩
  responseBodyBuffer := .new ⟨waf.responseBodyLimit, waf.responseBodyLimit⟩
  ruleRemoveByID := []
  ruleRemoveByIDRanges := []
  ruleRemoveTargetByID := fun _ => []
  skip := 0
  capture := false
  audit := false
  vars := vars
  asked := 0
  phases := []
  steps := []
  modes := []

/-- `WAF.Rules.Eval`, whatever the rules are.  It sets the last phase before the
first rule runs and nothing else does; the history gets one more entry. -/
structure Evaluator where
  eval : Nat → Transaction → Transaction
  lastPhase_eval : ∀ phase tx, (eval phase tx).lastPhase = phase
  phases_eval : ∀ phase tx, (eval phase tx).phases = tx.phases ++ [(phase, tx.isInterrupted)]

end Coraza.Waf
