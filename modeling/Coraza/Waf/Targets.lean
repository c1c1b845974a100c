import Coraza.Waf.Variables

/-!
# The targets of a rule

A target names a variable and perhaps a key, which is a text or a regular expression between
slashes.  `addVariable` adds a target to those of a rule and `addVariableNegation` an exception to
the targets that name a variable.  `parseCtlKey` is what `ctl` makes of the key of a target.

`regexp.Compile` is a parameter: a function that gives the `MatchString` of a pattern, or `none`
if the pattern is not valid.
-/

namespace Coraza.Waf

open Go Collections

abbrev Compile := Bytes → Option (Bytes → Bool)

/-- `utils.HasRegex`: the pattern, if the key is one between slashes. -/
def hasRegex (s : Bytes) : Option Bytes :=
  if s.length < 2 ∨ s.head? ≠ some 0x2F then none
  else if s.getLast? ≠ some 0x2F then none
  else if s.length = 2 then some []
  -- a slash after an odd number of backslashes is escaped
  else if (s.dropLast.reverse.takeWhile (fun b => b == 0x5C)).length % 2 = 0 then
    some (s.drop 1).dropLast
  else none

def caseSensitiveVariable : RuleVariable → Bool
  | .args | .argsNames | .argsGet | .argsPost | .argsGetNames | .argsPostNames => true
  | _ => false

def newRuleVariableParams (v : RuleVariable) (key : Bytes) (re : Option (Bytes → Bool))
    (iscount : Bool) : RuleVariableParams where
  count := iscount
  ruleVariable := v
  keyRx := re
  keyStr := if caseSensitiveVariable v then key else Strings.toLower key
  exceptions := []

/-- The pattern that is compiled for a key of a variable. -/
def keyPattern (v : RuleVariable) (rx : Bytes) : Bytes :=
  if caseSensitiveVariable v then rx else Strings.toLower rx

/-- The expression of a key, if it is one; `none` is an error. -/
def compileKey (compile : Compile) (v : RuleVariable) (key : Bytes) :
    Option (Option (Bytes → Bool)) :=
  match hasRegex key with
  | none => some none
  | some rx => (compile (keyPattern v rx)).map some

inductive TargetEdit where
  | add (params : RuleVariableParams)
  | except (v : RuleVariable) (exception : RuleVariableException)

def RuleVariableParams.except (v : RuleVariable) (exception : RuleVariableException)
    (rv : RuleVariableParams) : RuleVariableParams :=
  if rv.ruleVariable = v then { rv with exceptions := rv.exceptions ++ [exception] } else rv

def TargetEdit.apply (targets : List RuleVariableParams) : TargetEdit → List RuleVariableParams
  | .add params => targets ++ [params]
  | .except v exception => targets.map (RuleVariableParams.except v exception)

/-- `Rule.AddVariable`, as a change. -/
def addVariable (compile : Compile) (v : RuleVariable) (key : Bytes) (iscount : Bool) :
    Option TargetEdit :=
  (compileKey compile v key).map (fun re => .add (newRuleVariableParams v key re iscount))

/-- `Rule.AddVariableNegation`, as a change. -/
def addVariableNegation (compile : Compile) (v : RuleVariable) (key : Bytes) : Option TargetEdit :=
  (compileKey compile v key).map (fun re => .except v ⟨key, re⟩)

def canBeSelected : RuleVariable → Bool
  | .responseHeadersNames | .requestHeadersNames | .args | .argsGet | .argsPost | .argsPath
  | .filesSizes | .filesNames | .filesTmpContent | .multipartFilename | .multipartName
  | .matchedVarsNames | .matchedVars | .files | .requestCookies | .requestHeaders
  | .responseHeaders | .geo | .requestCookiesNames | .filesTmpNames | .argsNames | .argsGetNames
  | .argsPostNames | .tx | .rule | .json | .env | .responseArgs | .responseXML | .requestXML
  | .xml | .multipartPartHeaders => true
  | _ => false

/-- A target as `ParseVariables` reads it. -/
structure Target where
  isNegation : Bool
  isCount : Bool
  ruleVariable : RuleVariable
  key : Bytes

/-- The change that a target makes; `none` is an error. -/
def Target.edit (compile : Compile) (t : Target) : Option TargetEdit :=
  if t.isNegation then addVariableNegation compile t.ruleVariable t.key
  else addVariable compile t.ruleVariable t.key t.isCount

def targetEdits (compile : Compile) (targets : List Target) : Option (List TargetEdit) :=
  targets.mapM (Target.edit compile)

def applyEdits (targets : List RuleVariableParams) (edits : List TargetEdit) :
    List RuleVariableParams :=
  edits.foldl TargetEdit.apply targets

def parseTargets (compile : Compile) (targets : List Target) : Option (List RuleVariableParams) :=
  (targetEdits compile targets).map (applyEdits [])

/-- What `parseCtl` makes of the key of a target; `none` is an error. -/
def parseCtlKey (compile : Compile) (colkey : Bytes) : Option (Bytes × Option (Bytes → Bool)) :=
  match hasRegex colkey with
  | some rx => if rx = [] then none else (compile rx).map (fun re => ([], some re))
  | none => some (Strings.toLower colkey, none)

/-- The variables of the default build, where all keyed collections lower their keys. -/
structure LoweredVariables extends Variables where
  lowered : ∀ v, (map v).Lowered

namespace LoweredVariables

def new : LoweredVariables := ⟨Variables.new, fun _ => Map.Lowered.new⟩

def modifyMap (vars : LoweredVariables) (v : RuleVariable) (f : Map → Map)
    (hf : ∀ m, m.Lowered → (f m).Lowered) : LoweredVariables where
  toVariables := vars.toVariables.modifyMap v f
  lowered := by
    intro w
    by_cases h : w = v
    · rw [h, Variables.modifyMap_map_self]
      exact hf _ (vars.lowered v)
    · rw [Variables.modifyMap_map_of_ne _ h]
      exact vars.lowered w

end LoweredVariables

example : hasRegex (bytesOf "/^a/") = some (bytesOf "^a") ∧
    hasRegex (bytesOf "/a\\/") = none ∧ hasRegex (bytesOf "//") = some [] := by decide +kernel

end Coraza.Waf
