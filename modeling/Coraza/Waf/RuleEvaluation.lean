import Coraza.Waf.Rule

/-!
# Evaluation of a rule and its chain

`test` is the part of `doEvaluate` that looks at the variables of the rule itself; it
ends at the test whether anything matched.  `doEvaluateWith` is the whole of it for a
given evaluation of the chain, and `membersLoop` is the loop over the chain.  The loop
calls `doEvaluate` of each member, which has the following members as its own chain,
so the recursion is on the list of members.
-/

namespace Coraza.Waf

open Go Collections

namespace Rule

/-- What `doEvaluate` writes to `RULE`. -/
def setRuleCollection (r : Rule) (vars : Variables) : Variables :=
  let set (name : String) (value : Bytes) (vars : Variables) : Variables :=
    vars.modifyMap .rule (fun m => m.setIndex (bytesOf name) 0 value)
  let expanded (name : String) (m : Option Macro) (vars : Variables) : Variables :=
    match m with
    | some m => set name (m.expand vars) vars
    | none => vars
  set "severity" (severityText r.severity)
    (expanded "logdata" r.logData
      (set "rev" r.rev (expanded "msg" r.msg (set "id" r.logID vars))))

def expandMessages (r : Rule) (vars : Variables) (md : MatchData) : MatchData :=
  { md with
    message := (r.msg.map (fun m => m.expand vars)).getD md.message
    data := (r.logData.map (fun m => m.expand vars)).getD md.data }

def matchVariable (labels : List RuleLabel) (r : Rule) (tx : Transaction) (md : MatchData) :
    Transaction :=
  (r.actions.filter (fun a => a.type = .nondisruptive)).foldl
    (fun tx a => a.evaluate labels r tx) (tx.matchVariable md)

def executeOperator (op : RuleOperatorParams) (data : Bytes) (tx : Transaction) :
    Bool × Transaction :=
  let result := op.operator.evaluate tx.asked tx.vars tx.capture tx.lastPhase data
  (result.1 ^^ op.negation, { tx with vars := result.2, asked := tx.asked + 1 })

/-- The round of the innermost loop for the value `carg` that `arg` was transformed to.
The state is the transaction and `matchedValues`. -/
def testValue (labels : List RuleLabel) (r : Rule) (op : RuleOperatorParams) (chainLevel : Nat)
    (arg : Match) (state : Transaction × List MatchData) (carg : Bytes) :
    Transaction × List MatchData :=
  let result := executeOperator op carg state.1
  if result.1 then
    let md : MatchData := ⟨arg.argVariable, arg.key, carg, [], [], chainLevel⟩
    let tx := r.matchVariable labels result.2 md
    let md := if r.parentID ≠ noID ∨ r.hasChain = false then r.expandMessages tx.vars md else md
    (tx, state.2 ++ [md])
  else (result.2, state.2)

def transformedValues (r : Rule) (value : Bytes) : List Bytes :=
  if r.multiMatch then (executeTransformationsMultimatchInto r.transformations [] value).1
  else [(executeTransformations r.transformations value).1]

def testArg (labels : List RuleLabel) (r : Rule) (op : RuleOperatorParams) (chainLevel : Nat)
    (state : Transaction × List MatchData) (arg : Match) : Transaction × List MatchData :=
  (r.transformedValues arg.value).foldl (r.testValue labels op chainLevel arg) state

/-- A target with the exceptions of `ctl:ruleRemoveTarget*`. -/
def exceptTarget (ecol : List RuleVariableParams) (v : RuleVariableParams) : RuleVariableParams :=
  let removed := ecol.filter (fun c => c.ruleVariable = v.ruleVariable)
  { v with exceptions := v.exceptions ++ removed.map (fun c => ⟨c.keyStr, c.keyRx⟩) }

def testTarget (env : RuleEnv) (r : Rule) (op : RuleOperatorParams) (chainLevel : Nat)
    (ecol : List RuleVariableParams) (state : Transaction × List MatchData)
    (v : RuleVariableParams) : Transaction × List MatchData :=
  let values :=
    getFieldMatches (env.iteration state.1.asked) state.1.vars (exceptTarget ecol v)
  values.foldl (r.testArg env.labels op chainLevel)
    ({ state.1 with asked := state.1.asked + 1 }, state.2)

/-- `doEvaluate` up to the test whether `matchedValues` is empty. -/
def test (env : RuleEnv) (r : Rule) (chainLevel : Nat) (tx : Transaction) :
    Transaction × List MatchData :=
  let tx := ({ tx with capture := r.capture } : Transaction).modifyVariables r.setRuleCollection
  match r.operator with
  | none =>
    let md : MatchData := ⟨.unknown, [], [], [], [], 0⟩
    let md := if r.parentID ≠ noID ∨ r.multiMatch = true
      then r.expandMessages tx.vars md else md
    (r.matchVariable env.labels tx md, [md])
  | some op => r.targets.foldl (r.testTarget env op chainLevel (tx.ruleRemoveTargetByID r.rid))
      (tx, [])

/-- The round of the loop over the actions at the end of `doEvaluate`. -/
def finalAction (labels : List RuleLabel) (r : Rule) (following : Nat) (tx : Transaction)
    (a : Action × Nat) : Transaction :=
  if a.1.isFinal then
    let tx := a.1.evaluate labels r tx
    { tx with steps := tx.steps ++ [.acted following a.2] }
  else tx

def finalActions (labels : List RuleLabel) (r : Rule) (following : Nat) (tx : Transaction) :
    Transaction :=
  r.actions.zipIdx.foldl (r.finalAction labels following) tx

/-- `DisruptiveActionMap`. -/
def disruptiveActionOf : Action → DisruptiveAction
  | .allow _ => .allow
  | .deny => .deny
  | .drop => .drop
  | .pass => .pass
  | .redirect _ => .redirect
  | _ => .unknown

/-- The new value of `HIGHEST_SEVERITY` when the rule matches. -/
def highestSeverity (r : Rule) (vars : Variables) : Variables :=
  if r.severity ≠ ruleSeverityUnset ∧
      r.severity < (Strconv.atoi (vars.single .highestSeverity)).getD 0 then
    vars.setSingle .highestSeverity (Strconv.itoa r.severity)
  else vars

def matchRule (r : Rule) (tx : Transaction) (mds : List MatchData) : Transaction :=
  let disruptive := r.actions.find? (fun a => a.type = .disruptive)
  let shown := mds.find? (fun md => md.message ≠ [])
  let mr : MatchedRule := {
    ruleID := r.id
    message := (shown.map MatchData.message).getD []
    data := (shown.map MatchData.data).getD []
    uri := tx.vars.single .requestURI
    serverIPAddress := tx.vars.single .serverAddr
    clientIPAddress := tx.vars.single .remoteAddr
    disruptive := disruptive.isSome ∧ tx.ruleEngine = .on
    disruptiveAction := (disruptive.map disruptiveActionOf).getD .unknown
    log := r.log
    audit := r.audit
    matchedDatas := mds }
  { tx with
    audit := tx.audit || r.audit
    vars := r.highestSeverity tx.vars
    matchedRules := tx.matchedRules ++ [mr] }

def expandFirst (r : Rule) (vars : Variables) : List MatchData → List MatchData
  | [] => []
  | md :: mds =>
    if r.hasChain ∨ r.operator.isNone then r.expandMessages vars md :: mds else md :: mds

def conclude (labels : List RuleLabel) (r : Rule) (following : Nat) (tx : Transaction)
    (matchedValues : List MatchData) : Transaction × List MatchData :=
  let matchedValues := r.expandFirst tx.vars matchedValues
  let tx := r.finalActions labels following tx
  (if r.id ≠ noID then r.matchRule tx matchedValues else tx, matchedValues)

/-- `doEvaluate` of a rule with `following` members after it, for a given loop over its
chain.  The loop returns `none` if a member does not match. -/
def doEvaluateWith (env : RuleEnv)
    (loop : Nat → Transaction → Transaction × Option (List MatchData))
    (r : Rule) (following chainLevel : Nat) (tx : Transaction) : Transaction × List MatchData :=
  let (tx, matchedValues) := r.test env chainLevel tx
  let tx := { tx with steps := tx.steps ++ [.tested following (!matchedValues.isEmpty)] }
  if matchedValues.isEmpty then (tx, [])
  else if r.parentID = noID then
    match loop chainLevel tx with
    | (tx, none) => (tx, [])
    | (tx, some chained) => r.conclude env.labels following tx (matchedValues ++ chained)
  else (tx, matchedValues)

end Rule

/-- The loop over the chain in `doEvaluate`. -/
def membersLoop (env : RuleEnv) : List Rule → Nat → Transaction →
    Transaction × Option (List MatchData)
  | [], _, tx => (tx, some [])
  | nr :: rest, chainLevel, tx =>
    match nr.doEvaluateWith env (membersLoop env rest) rest.length (chainLevel + 1) tx with
    | (tx, matchedChainValues) =>
      if matchedChainValues.isEmpty then (tx, none)
      else
        match membersLoop env rest (chainLevel + 1) tx with
        | (tx, none) => (tx, none)
        | (tx, some chained) => (tx, some (matchedChainValues ++ chained))

structure RuleChain where
  starter : Rule
  members : List Rule

namespace RuleChain

def doEvaluate (env : RuleEnv) (c : RuleChain) (chainLevel : Nat) (tx : Transaction) :
    Transaction × List MatchData :=
  c.starter.doEvaluateWith env (membersLoop env c.members) c.members.length chainLevel tx

def evaluate (env : RuleEnv) (c : RuleChain) (tx : Transaction) : Transaction :=
  (c.doEvaluate env 0 tx).1

end RuleChain

end Coraza.Waf
