import Coraza.Waf.RuleGroup

/-!
# The rule parser

How directives become rules: the actions of a rule are merged with the default actions of
its phase, and a rule that follows an open chain is linked to it.  The texts of targets,
operators and action lists are taken as already split, with `none` for a text that the
splitter rejects; an action whose argument is rejected is `Action.invalid`.

`parse_wellLinked` says what holds of every chain that the parser builds: the starter has no
parent, the parent of each member has the id of the starter, and no rule has two disruptive
actions.
-/

namespace Coraza.Seclang

open Go Waf List

/-! ### Action lists -/

/-- `appendRuleAction`; the state is the list and `disruptiveActionIndex`. -/
def appendRuleAction (state : List Action × Option Nat) (a : Action) : List Action × Option Nat :=
  if a.type = .disruptive then
    match state.2 with
    | some index => (state.1.set index a, some index)
    | none => (state.1 ++ [a], some state.1.length)
  else (state.1 ++ [a], state.2)

/-- `parseActions`, for a list of known actions. -/
def parseActions (actions : List Action) : List Action :=
  (actions.foldl appendRuleAction ([], none)).1

def hasDisruptiveActions (actions : List Action) : Bool :=
  actions.any (fun a => a.type = .disruptive)

/-- The loop of `ParseDefaultActions`: the phase, and whether there is a disruptive action. -/
def scanDefaultActions : List Action → Nat → Bool → Option (Nat × Bool)
  | [], phase, disruptive => some (phase, disruptive)
  | .phase p :: rest, _, disruptive =>
    if p > 5 ∨ p < 1 then none else scanDefaultActions rest p disruptive
  | a :: rest, phase, disruptive =>
    if a.type = .metadata then none
    else if a.name = "t" then none
    else scanDefaultActions rest phase (disruptive || a.type = .disruptive)

abbrev DefaultActions := Nat → Option (List Action)

def parseDefaultActions (defaults : DefaultActions) (actions : List Action) :
    Option DefaultActions :=
  let act := parseActions actions
  match scanDefaultActions act 0 false with
  | none => none
  | some (phase, disruptive) =>
    if phase = 0 then none
    else if disruptive = false then none
    else if (defaults phase).isSome then none
    else some (Function.update defaults phase (some act))

/-- `defaultActionsPhase2`: `"phase:2,log,auditlog,pass"`. -/
def defaultActionsPhase2 : List Action := [.phase 2, .log, .auditlog, .pass]

def mergeActions (origin defaults : List Action) : List Action :=
  let da := (defaults.filter (fun a => a.type = .disruptive)).getLast?
  let res := defaults.filter (fun a => a.type ≠ .disruptive ∧ a.type ≠ .metadata)
  let own := origin.filter (fun a => ¬(a.type = .disruptive ∧ a.name = "block"))
  res ++ own ++ (if hasDisruptiveActions own then [] else da.toList)

/-! ### Rules -/

/-- The parts of `ParserConfig` that the parser of rules reads. -/
structure ParserConfig where
  ruleDefaultActions : List (Option (List Action))
  disabledRuleActions : List String
  ignoreRuleCompilationErrors : Bool

/-- The default actions that `ParseRule` reads from the configuration. -/
def ruleDefaults (config : ParserConfig) : Option DefaultActions := do
  let defaults ← config.ruleDefaultActions.foldlM
    (fun defaults actions => actions.bind (parseDefaultActions defaults)) (fun _ => none)
  if (defaults phaseRequestBody).isNone then parseDefaultActions defaults defaultActionsPhase2
  else some defaults

/-- `Init` and `AddAction`. -/
def initAction (rule : Rule) (a : Action) : Option Rule :=
  (rule.init a).map (fun rule => { rule with actions := rule.actions ++ [a] })

def withDefaults (defaults : DefaultActions) (phase : Nat) (act : List Action) : List Action :=
  match defaults phase with
  | some actions => mergeActions act actions
  | none => act

def applyParsedActions (config : ParserConfig) (defaults : DefaultActions) (rule : Rule)
    (act : List Action) : Option Rule := do
  if act.any (fun a => a.name ∈ config.disabledRuleActions) then none
  else
    let rule ← (act.filter (fun a => a.type = .metadata)).foldlM Rule.init rule
    ((withDefaults defaults rule.phase act).filter (fun a => a.type ≠ .metadata)).foldlM
      initAction rule

/-- The texts of `SecRule` and `SecAction`.  `SecAction` has no operator. -/
inductive RuleText where
  | withOperator (targets : Option (List RuleVariableParams))
      (operator : Option RuleOperatorParams) (actions : Option (List Action))
  | withoutOperator (actions : Option (List Action))

def RuleText.rawActions : RuleText → List Action
  | .withOperator _ _ actions => actions.getD []
  | .withoutOperator actions => actions.getD []

/-- `ParseRule` up to the question whether the rule continues a chain.  A `SecRule` without
actions gets no default actions either. -/
def compileRule (config : ParserConfig) (text : RuleText) : Option Rule := do
  let defaults ← ruleDefaults config
  match text with
  | .withOperator targets operator actions =>
    let targets ← targets
    let operator ← operator
    let actions ← actions
    let rule := { Rule.new with targets, operator := some operator }
    if actions = [] then some rule
    else applyParsedActions config defaults rule (parseActions actions)
  | .withoutOperator actions =>
    let actions ← actions
    if actions = [] then none
    else applyParsedActions config defaults Rule.new (parseActions actions)

def getLastRuleExpectingChain (rg : RuleGroup) : Option RuleChain :=
  match rg.getLast? with
  | none => none
  | some c => if (c.members.getLast?.getD c.starter).hasChain then some c else none

def linkedRule (parent rule : Rule) : Rule :=
  { rule with parentID := parent.id, logID := parent.logID, phase := 0 }

/-- `ParseRule` and, for a rule of its own, `RuleGroup.Add`.  The result is the rule group
and whether there was no error. -/
def parseRule (config : ParserConfig) (rg : RuleGroup) (text : RuleText) : RuleGroup × Bool :=
  match compileRule config text with
  | none => (rg, false)
  | some rule =>
    match getLastRuleExpectingChain rg with
    | some parent =>
      if hasDisruptiveActions (parseActions text.rawActions) then
        (rg.discardPendingChain, false)
      else
        (rg.dropLast ++ [{ parent with members :=
          parent.members ++ [linkedRule parent.starter rule] }],
          true)
    | none =>
      match rg.add rule with
      | some rg => (rg, true)
      | none => (rg, false)

/-! ### Directives -/

inductive Directive where
  | secRule (targets : Option (List RuleVariableParams)) (operator : Option RuleOperatorParams)
      (actions : Option (List Action))
  | secAction (actions : Option (List Action))
  | secMarker (label : Bytes)
  | secDefaultAction (actions : Option (List Action))
  | secIgnoreRuleCompilationErrors (value : Bool)

structure ParserState where
  config : ParserConfig
  rules : RuleGroup

def markerRule (label : Bytes) : Rule :=
  { Rule.new with secMark := label, logID := bytesOf "0", phase := 0 }

/-- One directive; `none` is an error that ends the parsing. -/
def ParserState.directive (s : ParserState) : Directive → Option ParserState
  | .secRule targets operator actions =>
    let (rules, ok) := parseRule s.config s.rules (.withOperator targets operator actions)
    if ok ∨ s.config.ignoreRuleCompilationErrors then some { s with rules } else none
  | .secAction actions =>
    let (rules, ok) := parseRule s.config s.rules (.withoutOperator actions)
    if ok then some { s with rules } else none
  | .secMarker label =>
    if label = [] then none
    else (s.rules.add (markerRule label)).map (fun rules => { s with rules })
  | .secDefaultAction actions =>
    let ruleDefaultActions := s.config.ruleDefaultActions ++ [actions]
    some { s with config := { s.config with ruleDefaultActions } }
  | .secIgnoreRuleCompilationErrors value =>
    some { s with config := { s.config with ignoreRuleCompilationErrors := value } }

def ParserState.initial (disabledRuleActions : List String) : ParserState :=
  ⟨⟨[], disabledRuleActions, false⟩, []⟩

def parse (disabledRuleActions : List String) (directives : List Directive) : Option ParserState :=
  directives.foldlM ParserState.directive (.initial disabledRuleActions)

/-! ### What holds of every parsed chain -/

def disruptiveCount (actions : List Action) : Nat :=
  actions.countP (fun a => a.type = .disruptive)

theorem hasDisruptiveActions_eq_false {actions : List Action} :
    hasDisruptiveActions actions = false ↔ disruptiveCount actions = 0 := by
  simp [hasDisruptiveActions, disruptiveCount]

/-- `disruptiveActionIndex` is unset as long as there is no disruptive action, and then the
position of the only one. -/
def IndexAgrees (state : List Action × Option Nat) : Prop :=
  match state.2 with
  | none => disruptiveCount state.1 = 0
  | some index => ∃ before a after, state.1 = before ++ a :: after ∧ before.length = index ∧
      disruptiveCount before = 0 ∧ disruptiveCount after = 0

theorem appendRuleAction_agrees {state : List Action × Option Nat} (h : IndexAgrees state)
    (a : Action) : IndexAgrees (appendRuleAction state a) := by
  obtain ⟨res, index⟩ := state
  unfold appendRuleAction
  cases index with
  | none =>
    have h : disruptiveCount res = 0 := h
    split
    · exact ⟨res, a, [], rfl, rfl, h, rfl⟩
    · rename_i ha
      show disruptiveCount (res ++ [a]) = 0
      unfold disruptiveCount at h ⊢
      rw [countP_append, h]
      simp [ha]
  | some index =>
    obtain ⟨before, b, after, hres, hlen, hbefore, hafter⟩ := h
    subst hres
    split
    · refine ⟨before, a, after, ?_, hlen, hbefore, hafter⟩
      dsimp only
      rw [← hlen, set_append_right _ _ (Nat.le_refl _), Nat.sub_self, set_cons_zero]
    · rename_i ha
      refine ⟨before, b, after ++ [a], by simp, hlen, hbefore, ?_⟩
      unfold disruptiveCount at hafter ⊢
      rw [countP_append, hafter]
      simp [ha]

theorem disruptiveCount_parseActions (actions : List Action) :
    disruptiveCount (parseActions actions) ≤ 1 := by
  have h : IndexAgrees (actions.foldl appendRuleAction ([], none)) :=
    List.foldlRecOn actions _ rfl (fun _ h a _ => appendRuleAction_agrees h a)
  unfold parseActions
  generalize actions.foldl appendRuleAction ([], none) = out at h ⊢
  obtain ⟨res, _ | index⟩ := out
  · have h : disruptiveCount res = 0 := h
    exact h.trans_le (Nat.zero_le 1)
  · obtain ⟨before, a, after, hres, -, hbefore, hafter⟩ := h
    subst hres
    unfold disruptiveCount at hbefore hafter ⊢
    rw [countP_append, countP_cons]
    split <;> omega

theorem disruptiveCount_mergeActions {origin : List Action} (h : disruptiveCount origin ≤ 1)
    (defaults : List Action) : disruptiveCount (mergeActions origin defaults) ≤ 1 := by
  unfold mergeActions
  generalize hown : origin.filter _ = own
  have hle : disruptiveCount own ≤ disruptiveCount origin := by
    rw [← hown]
    exact List.Sublist.countP_le filter_sublist
  have hres : disruptiveCount
      (defaults.filter (fun a => a.type ≠ .disruptive ∧ a.type ≠ .metadata)) = 0 := by
    unfold disruptiveCount
    rw [countP_eq_zero]
    intro a ha
    have := (List.mem_filter.mp ha).2
    simp only [decide_eq_true_eq] at this ⊢
    exact this.1
  unfold disruptiveCount at hres hle h ⊢
  rw [countP_append, countP_append]
  cases hd : hasDisruptiveActions own with
  | true =>
    simp only [if_true, countP_nil]
    omega
  | false =>
    have hzero := hasDisruptiveActions_eq_false.mp hd
    unfold disruptiveCount at hzero
    have hda : ∀ da : Option Action,
        da.toList.countP (fun a => decide (a.type = .disruptive)) ≤ 1 := by
      intro da
      cases da with
      | none => exact Nat.zero_le 1
      | some a => exact countP_le_length
    have := hda (defaults.filter (fun a => a.type = .disruptive)).getLast?
    simp only [Bool.false_eq_true, if_false]
    omega

variable {r r' : Rule} {config : ParserConfig} {c : RuleChain} {rg : RuleGroup}

theorem init_frame {a : Action} (h : r.init a = some r') :
    r'.parentID = r.parentID ∧ r'.actions = r.actions := by
  unfold Rule.init at h
  split at h
  any_goals (cases h; exact ⟨rfl, rfl⟩)
  any_goals (cases h)
  all_goals
    split at h
    · cases h
    · cases h
      exact ⟨rfl, rfl⟩

theorem foldlM_init {as : List Action} {r : Rule} :
    as.foldlM Rule.init r = some r' → r'.parentID = r.parentID ∧ r'.actions = r.actions := by
  induction as generalizing r with
  | nil =>
    intro h
    cases h
    exact ⟨rfl, rfl⟩
  | cons a as ih =>
    intro h
    obtain ⟨r₁, h₁, h⟩ := Option.bind_eq_some_iff.mp h
    have hfirst := init_frame h₁
    have hrest := ih h
    exact ⟨hrest.1.trans hfirst.1, hrest.2.trans hfirst.2⟩

theorem foldlM_initAction {as : List Action} {r : Rule} :
    as.foldlM initAction r = some r' → r'.parentID = r.parentID ∧ r'.actions = r.actions ++ as := by
  induction as generalizing r with
  | nil =>
    intro h
    cases h
    exact ⟨rfl, (append_nil _).symm⟩
  | cons a as ih =>
    intro h
    obtain ⟨r₁, h₁, h⟩ := Option.bind_eq_some_iff.mp h
    obtain ⟨r₀, h₀, rfl⟩ := Option.map_eq_some_iff.mp h₁
    have hfirst := init_frame h₀
    have hrest := ih h
    refine ⟨hrest.1.trans hfirst.1, hrest.2.trans ?_⟩
    rw [hfirst.2, append_assoc, singleton_append]

/-- A rule is compiled from a new one, with the actions of the text if there are any. -/
theorem exists_of_compileRule {text : RuleText} (h : compileRule config text = some r) :
    ∃ defaults targets operator, ruleDefaults config = some defaults ∧
      (text.rawActions = [] ∧ r = { Rule.new with targets, operator } ∨
        applyParsedActions config defaults { Rule.new with targets, operator }
          (parseActions text.rawActions) = some r) := by
  obtain ⟨defaults, hdefaults, h⟩ := Option.bind_eq_some_iff.mp h
  cases text with
  | withOperator targets operator actions =>
    obtain ⟨targets, -, h⟩ := Option.bind_eq_some_iff.mp h
    obtain ⟨operator, -, h⟩ := Option.bind_eq_some_iff.mp h
    obtain ⟨own, hactions, h⟩ := Option.bind_eq_some_iff.mp h
    have hraw : (RuleText.withOperator (some targets) (some operator) actions).rawActions
      = own := by
      rw [RuleText.rawActions, hactions, Option.getD_some]
    refine ⟨defaults, targets, some operator, hdefaults, ?_⟩
    rw [← hraw] at h
    split at h
    · rename_i hnil
      cases h
      exact .inl ⟨hnil, rfl⟩
    · exact .inr h
  | withoutOperator actions =>
    obtain ⟨own, hactions, h⟩ := Option.bind_eq_some_iff.mp h
    have hraw : (RuleText.withoutOperator actions).rawActions = own := by
      rw [RuleText.rawActions, hactions, Option.getD_some]
    refine ⟨defaults, Rule.new.targets, Rule.new.operator, hdefaults, .inr ?_⟩
    rw [← hraw] at h
    split at h
    · cases h
    · exact h

/-- A rule as it leaves the compiler. -/
structure Compiled (r : Rule) : Prop where
  parentID : r.parentID = noID
  oneDisruptive : disruptiveCount r.actions ≤ 1

theorem applyParsedActions_compiled {defaults : DefaultActions} (hparent : r.parentID = noID)
    (hactions : r.actions = []) {act : List Action} (hact : disruptiveCount act ≤ 1)
    (h : applyParsedActions config defaults r act = some r') : Compiled r' := by
  unfold applyParsedActions at h
  split at h
  · cases h
  · obtain ⟨r₁, h₁, h⟩ := Option.bind_eq_some_iff.mp h
    have hmeta := foldlM_init h₁
    have hrest := foldlM_initAction h
    have hmerged : disruptiveCount (withDefaults defaults r₁.phase act) ≤ 1 := by
      unfold withDefaults
      split
      · exact disruptiveCount_mergeActions hact _
      · exact hact
    refine ⟨hrest.1.trans (hmeta.1.trans hparent), ?_⟩
    rw [hrest.2, hmeta.2, hactions]
    exact (List.Sublist.countP_le filter_sublist).trans hmerged

theorem compileRule_compiled {text : RuleText} (h : compileRule config text = some r) :
    Compiled r := by
  obtain ⟨defaults, targets, operator, -, ⟨-, rfl⟩ | h⟩ := exists_of_compileRule h
  · exact ⟨rfl, Nat.zero_le 1⟩
  · exact applyParsedActions_compiled rfl rfl (disruptiveCount_parseActions _) h

theorem compiled_markerRule (label : Bytes) : Compiled (markerRule label) :=
  ⟨rfl, Nat.zero_le 1⟩

/-- A chain as the parser builds it. -/
structure WellLinked (c : RuleChain) : Prop where
  /-- The starter has no parent, and the parent of each member has the id of the starter. -/
  starter : c.starter.parentID = noID
  members : ∀ m ∈ c.members, m.parentID = c.starter.id
  /-- No rule has two disruptive actions. -/
  oneDisruptive : ∀ r ∈ c.starter :: c.members, disruptiveCount r.actions ≤ 1

theorem WellLinked.single (h : Compiled r) : WellLinked ⟨r, []⟩ where
  starter := h.parentID
  members := fun _ hm => absurd hm not_mem_nil
  oneDisruptive := by
    intro r' hr'
    rw [List.mem_singleton.mp hr']
    exact h.oneDisruptive

theorem WellLinked.link (h : WellLinked c) (hr : Compiled r) :
    WellLinked { c with members := c.members ++ [linkedRule c.starter r] } where
  starter := h.starter
  members := by
    intro m hm
    rcases List.mem_append.mp hm with hm | hm
    · exact h.members m hm
    · rw [List.mem_singleton.mp hm]
      rfl
  oneDisruptive := by
    intro r' hr'
    rcases List.mem_cons.mp hr' with rfl | hr'
    · exact h.oneDisruptive _ (mem_cons_self ..)
    · rcases List.mem_append.mp hr' with hr' | hr'
      · exact h.oneDisruptive r' (mem_cons_of_mem _ hr')
      · rw [List.mem_singleton.mp hr']
        exact hr.oneDisruptive

theorem wellLinked_add {rg' : RuleGroup} (h : ∀ c ∈ rg, WellLinked c) (hr : Compiled r)
    (hadd : rg.add r = some rg') : ∀ c ∈ rg', WellLinked c := by
  obtain ⟨-, rfl⟩ := RuleGroup.of_add hadd
  intro c hc
  rcases List.mem_append.mp hc with hc | hc
  · exact h c hc
  · rw [List.mem_singleton.mp hc]
    exact .single hr

/-- The chain that waits for a member is the last one, and its last rule has `chain`. -/
theorem of_getLastRuleExpectingChain (h : getLastRuleExpectingChain rg = some c) :
    rg.dropLast ++ [c] = rg ∧ (c.members.getLast?.getD c.starter).hasChain = true := by
  unfold getLastRuleExpectingChain at h
  split at h
  · cases h
  · split at h
    · cases h
      exact ⟨dropLast_append_getLast? c ‹_›, ‹_›⟩
    · cases h

theorem getLastRuleExpectingChain_mem (h : getLastRuleExpectingChain rg = some c) : c ∈ rg :=
  (of_getLastRuleExpectingChain h).1 ▸ mem_append_right _ (mem_singleton_self c)

theorem parseRule_wellLinked (config : ParserConfig) (h : ∀ c ∈ rg, WellLinked c)
    (text : RuleText) : ∀ c ∈ (parseRule config rg text).1, WellLinked c := by
  unfold parseRule
  split
  · exact h
  · rename_i rule hrule
    have hcompiled := compileRule_compiled hrule
    split
    · rename_i parent hparent
      have hmem := getLastRuleExpectingChain_mem hparent
      split
      · exact fun c hc => h c ((RuleGroup.discardPendingChain_sublist rg).subset hc)
      · intro c hc
        rcases List.mem_append.mp hc with hc | hc
        · exact h c (mem_of_mem_dropLast hc)
        · rw [List.mem_singleton.mp hc]
          exact (h parent hmem).link hcompiled
    · split
      · rename_i rg' hadd
        exact wellLinked_add h hcompiled hadd
      · exact h

theorem directive_wellLinked {s s' : ParserState} (h : ∀ c ∈ s.rules, WellLinked c)
    {d : Directive} (hd : s.directive d = some s') : ∀ c ∈ s'.rules, WellLinked c := by
  cases d with
  | secRule targets operator actions =>
    have hrule := parseRule_wellLinked s.config h (.withOperator targets operator actions)
    simp only [ParserState.directive] at hd
    split at hd
    · cases hd
      exact hrule
    · cases hd
  | secAction actions =>
    have hrule := parseRule_wellLinked s.config h (.withoutOperator actions)
    simp only [ParserState.directive] at hd
    split at hd
    · cases hd
      exact hrule
    · cases hd
  | secMarker label =>
    simp only [ParserState.directive] at hd
    split at hd
    · cases hd
    · obtain ⟨rg, hadd, rfl⟩ := Option.map_eq_some_iff.mp hd
      exact wellLinked_add h (compiled_markerRule label) hadd
  | secDefaultAction actions =>
    cases hd
    exact h
  | secIgnoreRuleCompilationErrors value =>
    cases hd
    exact h

/-- **Every chain that the parser builds is well linked.** -/
theorem parse_wellLinked {disabled : List String} {directives : List Directive}
    {s : ParserState} (h : parse disabled directives = some s) : ∀ c ∈ s.rules, WellLinked c := by
  have hrun : ∀ (directives : List Directive) (s₀ : ParserState), (∀ c ∈ s₀.rules, WellLinked c) →
      directives.foldlM ParserState.directive s₀ = some s → ∀ c ∈ s.rules, WellLinked c := by
    intro directives
    induction directives with
    | nil =>
      intro s₀ h₀ hs
      cases hs
      exact h₀
    | cons d directives ih =>
      intro s₀ h₀ hs
      obtain ⟨s₁, h₁, hs⟩ := Option.bind_eq_some_iff.mp hs
      exact ih s₁ (directive_wellLinked h₀ h₁) hs
  exact hrun directives _ (fun _ hc => absurd hc not_mem_nil) h

end Coraza.Seclang
