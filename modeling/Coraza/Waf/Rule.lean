import Coraza.Go.Strconv
import Coraza.Waf.Transaction
import Coraza.Waf.Transformations

/-!
# Rules and their evaluation

A rule tests the values of its targets with an operator; each match runs its
nondisruptive actions at once.  A chain is a starter and its members, of which each
has the following ones as its own chain.  `doEvaluate` tests a rule and, if the rule
takes itself for a starter, goes through its chain and then runs the flow and
disruptive actions.

Operators are arbitrary functions, because a rule set may use any of them.  The
transformations are run directly; that the caches change nothing is
`runPhase_eq_direct`.  Two arguments make the code panic and are not values of the
types below: a macro that names `JSON`, whose collection is `nil`, and a `setvar`
without a value.
-/

namespace Coraza.Waf

open Go Collections

/-! ### Macros -/

structure MacroToken where
  text : Bytes
  macroVariable : RuleVariable
  key : Bytes

/-- `Keyed.Get`.  The names view returns values, not names. -/
def keyedGet (c : Collection) (key : Bytes) : List Bytes :=
  match c with
  | .keyed c => c.underlying.get key
  | .concat parts => parts.flatMap (fun c => c.underlying.get (Strings.toLower key))
  | _ => []

/-- `expandToken`; `none` is the panic of calling a method of `nil`. -/
def expandToken (vars : Variables) (token : MacroToken) : Option Bytes :=
  if token.macroVariable = .unknown then some token.text
  else
    match vars.collection token.macroVariable with
    | some (.single value) => some value
    | some (.size parts) => some (bytesOf (toString (size parts)))
    | some c => some ((keyedGet c token.key).headD token.text)
    | none => none

theorem expandToken_isSome (vars : Variables) {token : MacroToken}
    (h : token.macroVariable ≠ .json) : (expandToken vars token).isSome := by
  have hcol : (vars.collection token.macroVariable).isSome := by
    cases hv : token.macroVariable <;> first | rfl | exact absurd hv h
  obtain ⟨c, hc⟩ := Option.isSome_iff_exists.mp hcol
  rw [expandToken, hc]
  cases c <;> split <;> rfl

/-- `macro`, with tokens that can be expanded. -/
structure Macro where
  original : Bytes
  tokens : List MacroToken
  expandable : ∀ token ∈ tokens, token.macroVariable ≠ .json

def Macro.expand (m : Macro) (vars : Variables) : Bytes :=
  m.tokens.flatMap (fun token => (expandToken vars token).getD [])

/-! ### Actions -/

inductive ActionType where
  | metadata | disruptive | data | nondisruptive | flow
  deriving DecidableEq

/-- What a `ctl` action changes.  Values that are parsed when the action runs stand
as the result of the parser; one that does not parse changes nothing. -/
inductive Ctl where
  | auditEngine (status : Option AuditEngineStatus)
  | forceRequestBodyVariable (value : Option Bool)
  | requestBodyAccess (value : Option Bool)
  | requestBodyLimit (limit : Option Int)
  | requestBodyProcessor (name : Bytes)
  | ruleEngine (status : Option RuleEngineStatus)
  | ruleRemoveByID (id : Option Int)
  | ruleRemoveByIDRange (range : Option (Int × Int))
  | ruleRemoveByMsg (msg : Bytes)
  | ruleRemoveByTag (tag : Bytes)
  | ruleRemoveTargetByID (range : Option (Int × Int)) (v : RuleVariable) (key : Bytes)
      (keyRx : Option (Bytes → Bool))
  | ruleRemoveTargetByTag (tag : Bytes) (v : RuleVariable) (key : Bytes)
      (keyRx : Option (Bytes → Bool))
  | ruleRemoveTargetByMsg (msg : Bytes) (v : RuleVariable) (key : Bytes)
      (keyRx : Option (Bytes → Bool))
  | responseBodyAccess (value : Option Bool)
  | responseBodyLimit (limit : Option Int)
  | forceResponseBodyVariable (value : Option Bool)
  | responseBodyProcessor (name : Bytes)
  /-- The options without effect on a transaction: `auditLogParts`, `hashEngine`,
  `hashEnforcement`, `debugLogLevel`. -/
  | other

/-- The actions of the rule language, with their arguments. -/
inductive Action where
  | id (i : Int)
  | phase (p : Nat)
  | msg (m : Macro)
  | rev (r : Bytes)
  | severity (s : Int)
  | tag (t : Bytes)
  | accuracy
  | maturity
  | ver
  | status (n : Int)
  | chain
  | skip (n : Int)
  | skipAfter (marker : Bytes)
  | allow (t : AllowType)
  | block
  | deny
  | drop
  | pass
  | redirect (target : Bytes)
  | ctl (c : Ctl)
  | setvar (isRemove : Bool) (key value : Macro)
  | setenv (key : Bytes) (value : Macro)
  | log
  | nolog
  | auditlog
  | noauditlog
  | capture
  | multiMatch
  | logdata (m : Macro)
  /-- `none` is `t:none`. -/
  | t (f : Option (RuleTransformationParams Error))
  | exec
  | expirevar
  | initcol
  /-- An action whose `Init` rejects the argument. -/
  | invalid (name : String) (type : ActionType)

def Action.type : Action → ActionType
  | .id _ | .phase _ | .msg _ | .rev _ | .severity _ | .tag _ | .accuracy | .maturity
  | .ver => .metadata
  | .status _ => .data
  | .chain | .skip _ | .skipAfter _ => .flow
  | .allow _ | .block | .deny | .drop | .pass | .redirect _ => .disruptive
  | .invalid _ type => type
  | _ => .nondisruptive

def Action.name : Action → String
  | .id _ => "id"
  | .phase _ => "phase"
  | .msg _ => "msg"
  | .rev _ => "rev"
  | .severity _ => "severity"
  | .tag _ => "tag"
  | .accuracy => "accuracy"
  | .maturity => "maturity"
  | .ver => "ver"
  | .status _ => "status"
  | .chain => "chain"
  | .skip _ => "skip"
  | .skipAfter _ => "skipafter"
  | .allow _ => "allow"
  | .block => "block"
  | .deny => "deny"
  | .drop => "drop"
  | .pass => "pass"
  | .redirect _ => "redirect"
  | .ctl _ => "ctl"
  | .setvar _ _ _ => "setvar"
  | .setenv _ _ => "setenv"
  | .log => "log"
  | .nolog => "nolog"
  | .auditlog => "auditlog"
  | .noauditlog => "noauditlog"
  | .capture => "capture"
  | .multiMatch => "multimatch"
  | .logdata _ => "logdata"
  | .t _ => "t"
  | .exec => "exec"
  | .expirevar => "expirevar"
  | .initcol => "initcol"
  | .invalid name _ => name

/-- Flow and disruptive actions, which run at the end of a rule. -/
def Action.isFinal (a : Action) : Bool := a.type = .flow ∨ a.type = .disruptive

/-! ### Rules -/

/-- `plugintypes.Operator`.  The number tells one call from another; the operator may
read all variables and the last phase, and write to keyed variables only (captures,
`TX`, `ARGS_PATH`). -/
structure Operator where
  evaluate : Nat → Variables → Bool → Nat → Bytes → Bool × Variables
  keepsSingle : ∀ n vars capturing lastPhase value,
    (evaluate n vars capturing lastPhase value).2.single = vars.single

structure RuleOperatorParams where
  operator : Operator
  negation : Bool

/-- `Rule`, without its chain. -/
structure Rule where
  id : Int
  logID : Bytes
  rev : Bytes
  severity : Int
  tags : List Bytes
  phase : Nat
  secMark : Bytes
  parentID : Int
  /-- The field `variables`. -/
  targets : List RuleVariableParams
  operator : Option RuleOperatorParams
  transformations : List (RuleTransformationParams Error)
  actions : List Action
  capture : Bool
  disruptiveStatus : Int
  msg : Option Macro
  logData : Option Macro
  log : Bool
  audit : Bool
  multiMatch : Bool
  hasChain : Bool

def noID : Int := 0

def ruleSeverityUnset : Int := -1

def Rule.new : Rule where
  id := 0
  logID := []
  rev := []
  severity := ruleSeverityUnset
  tags := []
  phase := 2
  secMark := []
  parentID := 0
  targets := []
  operator := none
  transformations := []
  actions := []
  capture := false
  disruptiveStatus := 0
  msg := none
  logData := none
  log := false
  audit := false
  multiMatch := false
  hasChain := false

/-- `RuleSeverity.String`. -/
def severityText (s : Int) : Bytes :=
  bytesOf (if s = 0 then "emergency" else if s = 1 then "alert" else if s = 2 then "critical"
    else if s = 3 then "error" else if s = 4 then "warning" else if s = 5 then "notice"
    else if s = 6 then "info" else if s = 7 then "debug" else "unknown")

/-- What `ctl` reads of the rules of the WAF. -/
structure RuleLabel where
  id : Int
  tags : List Bytes
  msg : Option Bytes

/-- What the evaluation of a rule reads besides the transaction: the rules of the WAF,
and the orders in which maps are iterated. -/
structure RuleEnv where
  labels : List RuleLabel
  iteration : Nat → Iteration

namespace Rule

/-- `Action.Init`; `none` is an error. -/
def init (r : Rule) : Action → Option Rule
  | .id i => if i ≤ 0 then none else some { r with id := i, logID := Strconv.itoa i }
  | .phase p => if p > 5 ∨ p < 1 then none else some { r with phase := p }
  | .msg m => some { r with msg := some m }
  | .rev rev => some { r with rev }
  | .severity severity =>
    if severity < 0 ∨ severity > 7 then none else some { r with severity }
  | .tag tag => some { r with tags := r.tags ++ [tag] }
  | .status n => some { r with disruptiveStatus := n }
  | .chain => some { r with hasChain := true }
  | .skip n => if n < 1 then none else some r
  | .log => some { r with log := true, audit := true }
  | .nolog => some { r with log := false, audit := false }
  | .auditlog => some { r with audit := true }
  | .noauditlog => some { r with audit := false }
  | .capture => some { r with capture := true }
  | .multiMatch => some { r with multiMatch := true }
  | .logdata m => some { r with logData := some m }
  | .t none => some { r with transformations := [] }
  | .t (some t) => some { r with transformations := r.transformations ++ [t] }
  | .invalid _ _ => none
  | _ => some r

/-- The id under which a rule acts: that of its chain if it has none. -/
def rid (r : Rule) : Int := if r.id = noID then r.parentID else r.id

end Rule

/-! ### Execution of actions -/

/-- `RemoveRuleTargetByID` for some of the rules of the WAF. -/
def removeTargets (labels : List RuleLabel) (p : RuleLabel → Bool) (v : RuleVariable)
    (key : Bytes) (keyRx : Option (Bytes → Bool)) (tx : Transaction) : Transaction :=
  (labels.filter p).foldl (fun tx l => tx.removeRuleTargetByID l.id v key keyRx) tx

def Ctl.evaluate (labels : List RuleLabel) (tx : Transaction) : Ctl → Transaction
  | .auditEngine (some status) => { tx with auditEngine := status }
  | .forceRequestBodyVariable (some value) => { tx with forceRequestBodyVariable := value }
  | .requestBodyAccess (some value) =>
    if tx.lastPhase ≤ phaseRequestHeaders then { tx with requestBodyAccess := value } else tx
  | .requestBodyLimit (some limit) =>
    if tx.lastPhase ≤ phaseRequestHeaders then { tx with requestBodyLimit := limit } else tx
  | .requestBodyProcessor name =>
    if tx.lastPhase ≤ phaseRequestHeaders then
      tx.modifyVariables (fun vars => vars.setSingle .reqbodyProcessor (Strings.toUpper name))
    else tx
  | .ruleEngine (some status) =>
    { tx with ruleEngine := status, modes := tx.modes ++ [(status, tx.isInterrupted)] }
  | .ruleRemoveByID (some id) => tx.removeRuleByID id
  | .ruleRemoveByIDRange (some range) => tx.removeRuleByIDRange range.1 range.2
  | .ruleRemoveByMsg msg =>
    (labels.filter (fun l => l.msg = some msg)).foldl (fun tx l => tx.removeRuleByID l.id) tx
  | .ruleRemoveByTag tag =>
    (labels.filter (fun l => tag ∈ l.tags)).foldl (fun tx l => tx.removeRuleByID l.id) tx
  | .ruleRemoveTargetByID (some range) v key keyRx =>
    removeTargets labels (fun l => range.1 ≤ l.id ∧ l.id ≤ range.2) v key keyRx tx
  | .ruleRemoveTargetByTag tag v key keyRx =>
    removeTargets labels (fun l => tag ∈ l.tags) v key keyRx tx
  | .ruleRemoveTargetByMsg msg v key keyRx =>
    removeTargets labels (fun l => l.msg = some msg) v key keyRx tx
  | .responseBodyAccess (some value) =>
    if tx.lastPhase ≤ phaseResponseHeaders then { tx with responseBodyAccess := value } else tx
  | .responseBodyLimit (some limit) =>
    if tx.lastPhase ≤ phaseResponseHeaders then { tx with responseBodyLimit := limit } else tx
  | .forceResponseBodyVariable (some value) => { tx with forceResponseBodyVariable := value }
  | .responseBodyProcessor name =>
    if tx.lastPhase ≤ phaseResponseHeaders then
      tx.modifyVariables (fun vars => vars.setSingle .resBodyProcessor (Strings.toUpper name))
    else tx
  | _ => tx

/-- `setvarFn.evaluateTxCollection`, on the contents of `TX`. -/
def evaluateTxCollection (isRemove : Bool) (key value : Bytes) (col : Map) : Map :=
  if isRemove then col.remove key
  else
    match value with
    | [] => col.set key [[]]
    | b :: rest =>
      if b = 0x2B ∨ b = 0x2D then
        match (if rest = [] then some 0 else Strconv.atoi rest) with
        | none => if bytesOf "tx." <+: rest then col else col.set key [value]
        | some val =>
          let currentVal := (col.get key).headD []
          match (if currentVal = [] then some 0 else Strconv.atoi currentVal) with
          | none => col
          | some current =>
            let result := if b = 0x2B then current + val else current - val
            col.set key [Strconv.itoa (wrap64 result)]
      else col.set key [value]

def Rule.interruption (r : Rule) (action : InterruptionAction) (status : Int) (data : Bytes) :
    Interruption := ⟨r.rid, action, status, data⟩

def Rule.deny (r : Rule) : Interruption :=
  r.interruption .deny (if r.disruptiveStatus = 0 then 403 else r.disruptiveStatus) []

def Rule.drop (r : Rule) : Interruption := r.interruption .drop r.disruptiveStatus []

def Rule.redirect (r : Rule) (target : Bytes) : Interruption :=
  let rstatus := r.disruptiveStatus
  let status := if rstatus = 301 ∨ rstatus = 302 ∨ rstatus = 303 ∨ rstatus = 307
    then rstatus else 302
  r.interruption .redirect status target

def Action.evaluate (labels : List RuleLabel) (r : Rule) (tx : Transaction) : Action → Transaction
  | .deny => tx.interrupt r.deny
  | .drop => tx.interrupt r.drop
  | .redirect target => tx.interrupt (r.redirect target)
  | .allow allowType => tx.allow allowType
  | .skip n => { tx with skip := n }
  | .skipAfter marker => { tx with skipAfter := marker }
  | .ctl c => c.evaluate labels tx
  | .setvar isRemove key value =>
    tx.modifyVariables (fun vars => vars.modifyMap .tx (evaluateTxCollection isRemove
      (Strings.toLower (key.expand vars)) (value.expand vars)))
  | .setenv key value =>
    tx.modifyVariables (fun vars => vars.modifyMap .env (fun m => m.set key [value.expand vars]))
  | _ => tx

end Coraza.Waf
