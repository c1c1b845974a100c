import Coraza.Lib.Lists
import Coraza.Seclang.RuleParser
import Coraza.Seclang.TargetUpdates
import Coraza.Waf.Removals

/-!
# Directives that edit rules

Besides the directives that add rules there are those that take rules out of the group again and
those that change the actions or the targets of rules.  `ConfigDirective` has all of them, and
`ParserState.configure` is what one of them does; `none` is an error, which ends the parsing.

`Rule.init` of an action writes few fields of a rule.  `updateChain_spec` says what an update of
the actions of a rule leaves of its id, its phase and its `chain`.
-/

namespace Coraza.Seclang

open Go Waf Lists List ParserState

/-! ### Updates of actions -/

def clearDisruptiveActions (r : Rule) : Rule :=
  { r with actions := r.actions.filter (fun a => a.type ≠ .disruptive) }

/-- The configuration of the parsers that the updates make. -/
def updateConfig : ParserConfig := ⟨[], [], false⟩

def updateChain (act : List Action) (c : RuleChain) : Option RuleChain :=
  let starter := if hasDisruptiveActions act then clearDisruptiveActions c.starter else c.starter
  (applyParsedActions updateConfig (fun _ => none) starter act).map
    (fun starter => { c with starter })

def updateActionBySingleID (act : List Action) (id : Int) : RuleGroup → Option RuleGroup
  | [] => none
  | c :: rest =>
    if c.starter.id = id then (updateChain act c).map (fun c => c :: rest)
    else (updateActionBySingleID act id rest).map (fun rest => c :: rest)

def updateActionByRange (act : List Action) (start stop : Int) (rg : RuleGroup) :
    Option RuleGroup :=
  rg.mapM (fun c =>
    if c.starter.id < start ∨ c.starter.id > stop then some c else updateChain act c)

/-- `directiveSecRuleUpdateActionByID`.  The loop returns at the first id. -/
def updateActionByID (act : List Action) : List IDOrRange → RuleGroup → Option RuleGroup
  | [], rg => some rg
  | .invalid :: _, _ => none
  | .id id :: _, rg => updateActionBySingleID act id rg
  | .range start stop :: rest, rg =>
    if start = stop then updateActionBySingleID act start rg
    else if start > stop then none
    else (updateActionByRange act start stop rg).bind (updateActionByID act rest)

/-! ### Directives -/

/-- One round of the loop of `directiveSecRuleRemoveByID`. -/
def removeIDOrRange (rg : RuleGroup) : IDOrRange → Option RuleGroup
  | .invalid => none
  | .id id => some (rg.deleteByID id)
  | .range start stop => if start > stop then none else some (rg.deleteByRange start stop)

inductive ConfigDirective where
  | basic (d : Directive)
  | secRuleRemoveByID (specs : List IDOrRange)
  | secRuleRemoveByTag (tag : Bytes)
  | secRuleRemoveByMsg (msg : Bytes)
  /-- The actions are `none` if the text is rejected. -/
  | secRuleUpdateActionByID (specs : List IDOrRange) (actions : Option (List Action))
  /-- An update of targets, with the targets that it leaves to each rule. -/
  | secRuleUpdateTarget (targets : List (List RuleVariableParams))

def retarget (rg : RuleGroup) (targets : List (List RuleVariableParams)) : RuleGroup :=
  rg.zipIdx.map (fun c => withTargets c.1 ((targets[c.2]?).getD c.1.starter.targets))

/-- One directive; `none` is an error. -/
def ParserState.configure (s : ParserState) : ConfigDirective → Option ParserState
  | .basic d => s.directive d
  | .secRuleRemoveByID specs =>
    (specs.foldlM removeIDOrRange s.rules).map (fun rules => { s with rules })
  | .secRuleRemoveByTag tag => some { s with rules := s.rules.deleteByTag tag }
  | .secRuleRemoveByMsg msg => (s.rules.deleteByMsg msg).map (fun rules => { s with rules })
  | .secRuleUpdateActionByID specs actions =>
    actions.bind (fun actions =>
      (updateActionByID (parseActions actions) specs s.rules).map (fun rules => { s with rules }))
  | .secRuleUpdateTarget targets => some { s with rules := retarget s.rules targets }

def ParserState.run (s : ParserState) (directives : List ConfigDirective) : Option ParserState :=
  directives.foldlM configure s

theorem run_cons (s : ParserState) (d : ConfigDirective) (ds : List ConfigDirective) :
    s.run (d :: ds) = (s.configure d).bind (fun s => s.run ds) := rfl

def Directive.ruleText : Directive → Option RuleText
  | .secRule targets operator actions => some (.withOperator targets operator actions)
  | .secAction actions => some (.withoutOperator actions)
  | _ => none

def ConfigDirective.ruleText : ConfigDirective → Option RuleText
  | .basic d => d.ruleText
  | _ => none

/-! ### What a directive does to the rules -/

/-- What a directive can do to the rules. -/
inductive RulesStep (s : ParserState) (d : ConfigDirective) : RuleGroup → Prop where
  /-- Nothing is changed, or rules are taken out. -/
  | removed {rg : RuleGroup} : rg.Sublist s.rules → RulesStep s d rg
  | added {text : RuleText} {rule : Rule} {rg : RuleGroup} : d.ruleText = some text →
      compileRule s.config text = some rule → getLastRuleExpectingChain s.rules = none →
      s.rules.add rule = some rg → RulesStep s d rg
  | linked {text : RuleText} {rule : Rule} {parent : RuleChain} : d.ruleText = some text →
      compileRule s.config text = some rule → getLastRuleExpectingChain s.rules = some parent →
      RulesStep s d (s.rules.dropLast ++
        [{ parent with members := parent.members ++ [linkedRule parent.starter rule] }])
  | marked {label : Bytes} {rg : RuleGroup} : d = .basic (.secMarker label) →
      s.rules.add (markerRule label) = some rg → RulesStep s d rg
  | updated {specs : List IDOrRange} {actions : List Action} {rg : RuleGroup} :
      d = .secRuleUpdateActionByID specs (some actions) →
      updateActionByID (parseActions actions) specs s.rules = some rg → RulesStep s d rg
  | retargeted {targets : List (List RuleVariableParams)} : RulesStep s d (retarget s.rules targets)

theorem parseRule_step {s : ParserState} {d : ConfigDirective} {text : RuleText}
    (hd : d.ruleText = some text) : RulesStep s d (parseRule s.config s.rules text).1 := by
  unfold parseRule
  split
  · exact .removed (List.Sublist.refl _)
  · rename_i rule hrule
    split
    · rename_i parent hparent
      split
      · exact .removed s.rules.discardPendingChain_sublist
      · exact .linked hd hrule hparent
    · rename_i hnone
      split
      · rename_i rg hadd
        exact .added hd hrule hnone hadd
      · exact .removed (List.Sublist.refl _)

theorem removeIDOrRange_sublist {specs : List IDOrRange} {rg rg' : RuleGroup} :
    specs.foldlM removeIDOrRange rg = some rg' → rg'.Sublist rg := by
  induction specs generalizing rg rg' with
  | nil =>
    intro h
    cases h
    exact List.Sublist.refl _
  | cons spec specs ih =>
    intro h
    obtain ⟨rg₁, h₁, h⟩ := Option.bind_eq_some_iff.mp h
    refine (ih h).trans ?_
    cases spec with
    | invalid => cases h₁
    | id id =>
      cases h₁
      exact eraseP_sublist
    | range start stop =>
      simp only [removeIDOrRange] at h₁
      split at h₁
      · cases h₁
      · cases h₁
        exact filter_sublist

theorem deleteByMsg_sublist {msg : Bytes} {rg rg' : RuleGroup} :
    rg.deleteByMsg msg = some rg' → rg'.Sublist rg := by
  induction rg generalizing rg' with
  | nil =>
    intro h
    cases h
    exact List.Sublist.refl _
  | cons c rest ih =>
    intro h
    unfold RuleGroup.deleteByMsg at h
    split at h
    · cases h
    · obtain ⟨kept, hkept, rfl⟩ := Option.map_eq_some_iff.mp h
      split
      · exact (ih hkept).cons_cons c
      · exact (ih hkept).cons c

/-- **One step of a configuration.** -/
theorem configure_step {s s' : ParserState} {d : ConfigDirective} (h : s.configure d = some s') :
    RulesStep s d s'.rules := by
  cases d with
  | basic d =>
    cases d with
    | secRule targets operator actions =>
      simp only [configure, directive] at h
      split at h
      · cases h
        exact parseRule_step rfl
      · cases h
    | secAction actions =>
      simp only [configure, directive] at h
      split at h
      · cases h
        exact parseRule_step rfl
      · cases h
    | secMarker label =>
      simp only [configure, directive] at h
      split at h
      · cases h
      · obtain ⟨rg, hadd, rfl⟩ := Option.map_eq_some_iff.mp h
        exact .marked rfl hadd
    | secDefaultAction actions | secIgnoreRuleCompilationErrors value =>
      cases h
      exact .removed (List.Sublist.refl _)
  | secRuleRemoveByID specs =>
    obtain ⟨rg, hrg, rfl⟩ := Option.map_eq_some_iff.mp h
    exact .removed (removeIDOrRange_sublist hrg)
  | secRuleRemoveByTag tag =>
    cases h
    exact .removed filter_sublist
  | secRuleRemoveByMsg msg =>
    obtain ⟨rg, hrg, rfl⟩ := Option.map_eq_some_iff.mp h
    exact .removed (deleteByMsg_sublist hrg)
  | secRuleUpdateActionByID specs actions =>
    obtain ⟨actions, rfl, h⟩ := Option.bind_eq_some_iff.mp h
    obtain ⟨rg, hrg, rfl⟩ := Option.map_eq_some_iff.mp h
    exact .updated rfl hrg
  | secRuleUpdateTarget targets =>
    cases h
    exact .retargeted

def EachStep (P : ParserState → ConfigDirective → Prop) : ParserState → List ConfigDirective → Prop
  | _, [] => True
  | s, d :: ds => P s d ∧ ∀ s', s.configure d = some s' → EachStep P s' ds

theorem EachStep.imp {P Q : ParserState → ConfigDirective → Prop} (h : ∀ {s d}, P s d → Q s d) :
    ∀ {ds : List ConfigDirective} {s : ParserState}, EachStep P s ds → EachStep Q s ds := by
  intro ds
  induction ds with
  | nil => exact id
  | cons d ds ih => exact fun hP => ⟨h hP.1, fun s' hs' => ih (hP.2 s' hs')⟩

/-- **What every step keeps holds after a configuration.** -/
theorem run_invariant {I : RuleGroup → Prop} {P : ParserState → ConfigDirective → Prop}
    (hstep : ∀ {s d rg}, I s.rules → P s d → RulesStep s d rg → I rg)
    {ds : List ConfigDirective} {s s' : ParserState} : I s.rules → EachStep P s ds →
      s.run ds = some s' → I s'.rules := by
  induction ds generalizing s s' with
  | nil =>
    intro hI _ h
    cases h
    exact hI
  | cons d ds ih =>
    intro hI hP h
    obtain ⟨s₁, h₁, h⟩ := Option.bind_eq_some_iff.mp h
    exact ih (hstep hI hP.1 (configure_step h₁)) (hP.2 s₁ h₁) h

/-! ### What actions write -/

def idOf : Action → Option Int
  | .id i => some i
  | _ => none

def phaseOf : Action → Option Nat
  | .phase p => some p
  | _ => none

def isChain : Action → Bool
  | .chain => true
  | _ => false

/-- The id that a list of actions writes: the last one counts. -/
def writtenID (as : List Action) : Option Int := (as.filterMap idOf).getLast?

def writtenPhase (as : List Action) : Option Nat := (as.filterMap phaseOf).getLast?

/-- What a list of actions does to the id, the phase and the `chain` of a rule. -/
structure Writes (as : List Action) (r r' : Rule) : Prop where
  id : r'.id = (writtenID as).getD r.id
  phase : r'.phase = (writtenPhase as).getD r.phase
  hasChain : r'.hasChain = (r.hasChain || as.any isChain)

theorem writes_nil (r : Rule) : Writes [] r r := ⟨rfl, rfl, (Bool.or_false _).symm⟩

theorem writes_init {r r' : Rule} {a : Action} (h : r.init a = some r') : Writes [a] r r' := by
  cases a with
  | id n | phase n | severity n | skip n =>
    simp only [Rule.init] at h
    split at h
    · cases h
    · cases h
      exact ⟨rfl, rfl, (Bool.or_false _).symm⟩
  | invalid name type => cases h
  | t f =>
    cases f <;> cases h <;> exact ⟨rfl, rfl, (Bool.or_false _).symm⟩
  | chain =>
    cases h
    exact ⟨rfl, rfl, (Bool.or_true _).symm⟩
  | _ =>
    cases h
    exact ⟨rfl, rfl, (Bool.or_false _).symm⟩

theorem writes_initAction {r r' : Rule} {a : Action} (h : initAction r a = some r') :
    Writes [a] r r' := by
  obtain ⟨r₀, h₀, rfl⟩ := Option.map_eq_some_iff.mp h
  have hinit := writes_init h₀
  exact ⟨hinit.id, hinit.phase, hinit.hasChain⟩

theorem getLast?_filterMap_append {α β : Type} (f : α → Option β) (l l' : List α) :
    ((l ++ l').filterMap f).getLast? = ((l'.filterMap f).getLast?).or (l.filterMap f).getLast? := by
  rw [filterMap_append, List.getLast?_append]

theorem Writes.append {as as' : List Action} {r r₁ r' : Rule} (h : Writes as r r₁)
    (h' : Writes as' r₁ r') : Writes (as ++ as') r r' where
  id := by
    rw [h'.id, h.id, writtenID, writtenID, writtenID, getLast?_filterMap_append]
    cases (as'.filterMap idOf).getLast? <;> rfl
  phase := by
    rw [h'.phase, h.phase, writtenPhase, writtenPhase, writtenPhase, getLast?_filterMap_append]
    cases (as'.filterMap phaseOf).getLast? <;> rfl
  hasChain := by rw [h'.hasChain, h.hasChain, any_append, Bool.or_assoc]

theorem writes_foldlM {f : Rule → Action → Option Rule}
    (hf : ∀ {r r' : Rule} {a : Action}, f r a = some r' → Writes [a] r r') {r' : Rule}
    {as : List Action} {r : Rule} : as.foldlM f r = some r' → Writes as r r' := by
  induction as generalizing r with
  | nil =>
    intro h
    cases h
    exact writes_nil _
  | cons a as ih =>
    intro h
    obtain ⟨r₁, h₁, h⟩ := Option.bind_eq_some_iff.mp h
    exact (hf h₁).append (ih h)

theorem filterMap_metadata (as : List Action) :
    (as.filter (fun a => a.type = .metadata)).filterMap idOf = as.filterMap idOf ∧
      (as.filter (fun a => a.type = .metadata)).filterMap phaseOf = as.filterMap phaseOf ∧
      (as.filter (fun a => a.type ≠ .metadata)).filterMap idOf = [] ∧
      (as.filter (fun a => a.type ≠ .metadata)).filterMap phaseOf = [] := by
  refine ⟨?_, ?_, ?_, ?_⟩
  · rw [filterMap_filter]
    refine filterMap_congr (fun a _ => ?_)
    cases a <;> first | rfl | exact ite_self _
  · rw [filterMap_filter]
    refine filterMap_congr (fun a _ => ?_)
    cases a <;> first | rfl | exact ite_self _
  · rw [filterMap_eq_nil_iff]
    intro a ha
    have htype := (List.mem_filter.mp ha).2
    cases a <;> first | rfl | simp [Action.type] at htype
  · rw [filterMap_eq_nil_iff]
    intro a ha
    have htype := (List.mem_filter.mp ha).2
    cases a <;> first | rfl | simp [Action.type] at htype

theorem any_isChain_metadata (as : List Action) :
    (as.filter (fun a => a.type = .metadata)).any isChain = false ∧
      (as.filter (fun a => a.type ≠ .metadata)).any isChain = as.any isChain := by
  constructor
  · rw [any_eq_false]
    intro a ha
    have htype := (List.mem_filter.mp ha).2
    cases a <;> first | exact Bool.false_ne_true | simp [Action.type] at htype
  · rw [any_filter]
    congr 1
    funext a
    cases a <;> first | rfl | exact Bool.and_false _

/-- **What the actions of a rule write.** -/
theorem applyParsedActions_spec {config : ParserConfig} {defaults : DefaultActions} {r r' : Rule}
    {act : List Action} (h : applyParsedActions config defaults r act = some r') :
    r'.id = (writtenID act).getD r.id ∧ r'.phase = (writtenPhase act).getD r.phase ∧
      ∃ phase, r'.hasChain = (r.hasChain || (withDefaults defaults phase act).any isChain) := by
  unfold applyParsedActions at h
  split at h
  · cases h
  · obtain ⟨r₁, h₁, h⟩ := Option.bind_eq_some_iff.mp h
    have hmeta := writes_foldlM writes_init h₁
    have hrest := writes_foldlM writes_initAction h
    obtain ⟨hid, hphase, -, -⟩ := filterMap_metadata act
    refine ⟨?_, ?_, r₁.phase, ?_⟩
    · rw [hrest.id, writtenID, (filterMap_metadata _).2.2.1, hmeta.id, writtenID, hid]
      rfl
    · rw [hrest.phase, writtenPhase, (filterMap_metadata _).2.2.2, hmeta.phase, writtenPhase,
        hphase]
      rfl
    · rw [hrest.hasChain, hmeta.hasChain, (any_isChain_metadata _).2, (any_isChain_metadata _).1,
        Bool.or_false]

/-- **What an update of the actions of a rule writes.** -/
theorem updateChain_spec {act : List Action} {c c' : RuleChain} (h : updateChain act c = some c') :
    c'.members = c.members ∧ c'.starter.id = (writtenID act).getD c.starter.id ∧
      c'.starter.phase = (writtenPhase act).getD c.starter.phase ∧
      c'.starter.hasChain = (c.starter.hasChain || act.any isChain) := by
  obtain ⟨starter, hstarter, rfl⟩ := Option.map_eq_some_iff.mp h
  obtain ⟨hid, hphase, phase, hchain⟩ := applyParsedActions_spec hstarter
  refine ⟨rfl, hid.trans ?_, hphase.trans ?_, hchain.trans ?_⟩
  · split <;> rfl
  · split <;> rfl
  · split <;> rfl

/-! ### Groups that agree rule by rule -/

theorem forall₂_retarget (rg : RuleGroup) (targets : List (List RuleVariableParams)) :
    List.Forall₂ (fun c c' => ∃ own, c' = withTargets c own) rg (retarget rg targets) := by
  have hfst : List.Forall₂ (fun c ci => c = Prod.fst ci) rg rg.zipIdx := by
    rw [← forall₂_map_right_iff, zipIdx_map_fst, forall₂_eq_eq_eq]
  refine List.forall₂_map_right_iff.mpr (hfst.imp (fun c ci hc => ?_))
  subst hc
  exact ⟨_, rfl⟩

/-! ### The rules that an update reaches -/

def Reached (specs : List IDOrRange) (id : Int) : Prop :=
  rounds specs id ≠ 0 ∨ idDone specs = some id

section

variable {act : List Action} {P : RuleChain → RuleChain → Prop} (hrefl : ∀ c, P c c)

include hrefl

theorem updateActionBySingleID_related {id : Int} : ∀ {rg rg' : RuleGroup},
    (∀ c ∈ rg, c.starter.id = id → ∀ c', updateChain act c = some c' → P c c') →
    updateActionBySingleID act id rg = some rg' → List.Forall₂ P rg rg' := by
  intro rg
  induction rg with
  | nil => exact fun _ h => nomatch h
  | cons c rest ih =>
    intro rg' hP h
    unfold updateActionBySingleID at h
    split at h
    · rename_i hid
      obtain ⟨c', hc', rfl⟩ := Option.map_eq_some_iff.mp h
      exact .cons (hP c (mem_cons_self ..) hid c' hc') (List.forall₂_same.mpr (fun c _ => hrefl c))
    · obtain ⟨rest', hrest, rfl⟩ := Option.map_eq_some_iff.mp h
      exact .cons (hrefl c) (ih (fun c hc => hP c (mem_cons_of_mem _ hc)) hrest)

theorem updateActionByRange_related {start stop : Int} {rg rg' : RuleGroup}
    (hP : ∀ c ∈ rg, start ≤ c.starter.id ∧ c.starter.id ≤ stop →
      ∀ c', updateChain act c = some c' → P c c')
    (h : updateActionByRange act start stop rg = some rg') : List.Forall₂ P rg rg' := by
  have hmap := forall₂_mapM h
  clear h
  induction hmap with
  | nil => exact .nil
  | @cons c c' rest rest' hc _ ih =>
    refine .cons ?_ (ih (fun c hc => hP c (mem_cons_of_mem _ hc)))
    split at hc
    · cases hc
      exact hrefl c
    · rename_i hin
      exact hP c (mem_cons_self ..) (by omega) c' hc

/-- **What each update of a rule keeps, the directive keeps**, for all rules that it reaches; `Q`
is what is known of these. -/
theorem updateActionByID_related {Q : RuleChain → Prop}
    (htrans : ∀ {c c' c''}, P c c' → P c' c'' → P c c'')
    (hnext : ∀ {specs c c'}, P c c' → (Reached specs c.starter.id → Q c) →
      Reached specs c'.starter.id → Q c')
    (hupdate : ∀ {c c'}, Q c → updateChain act c = some c' → P c c')
    {specs : List IDOrRange} {rg rg' : RuleGroup} :
    (∀ c ∈ rg, Reached specs c.starter.id → Q c) →
    updateActionByID act specs rg = some rg' → List.Forall₂ P rg rg' := by
  induction specs generalizing rg rg' with
  | nil =>
    intro _ h
    cases h
    exact List.forall₂_same.mpr (fun c _ => hrefl c)
  | cons spec specs ih =>
    intro hreached h
    have hsingle : ∀ {id : Int}, idDone (spec :: specs) = some id →
        updateActionBySingleID act id rg = some rg' → List.Forall₂ P rg rg' := by
      intro id hdone h
      refine updateActionBySingleID_related hrefl (fun c hc hcid c' hc' => ?_) h
      exact hupdate (hreached c hc (.inr (hcid ▸ hdone))) hc'
    cases spec with
    | invalid => cases h
    | id id => exact hsingle rfl h
    | range start stop =>
      unfold updateActionByID at h
      split at h
      · rename_i heq
        exact hsingle (by rw [idDone, if_pos heq]) h
      · split at h
        · cases h
        · rename_i hne hgt
          obtain ⟨rg₁, h₁, h⟩ := Option.bind_eq_some_iff.mp h
          have hranges : rangesDone (.range start stop :: specs)
              = (start, stop) :: rangesDone specs := by rw [rangesDone, if_pos (by omega)]
          have hdone : idDone (.range start stop :: specs) = idDone specs := by
            rw [idDone, if_neg hne, if_neg hgt]
          have hfirst : List.Forall₂ P rg rg₁ := by
            refine updateActionByRange_related hrefl (fun c hc hin c' hc' => ?_) h₁
            refine hupdate (hreached c hc (.inl ?_)) hc'
            unfold rounds
            rw [hranges, countP_cons_of_pos (by simpa using hin)]
            exact Nat.succ_ne_zero _
          have hrest : ∀ c ∈ rg₁, Reached specs c.starter.id → Q c := by
            intro c₁ hc₁ hr
            obtain ⟨c, hc, hP⟩ := exists_of_mem_right hfirst hc₁
            refine hnext hP (fun hr => hreached c hc ?_) hr
            rcases hr with hr | hr
            · refine .inl (fun hzero => hr ?_)
              unfold rounds at hzero ⊢
              rw [hranges, countP_cons] at hzero
              omega
            · exact .inr (hdone.trans hr)
          exact forall₂_trans (R := P) htrans hfirst (ih hrest h)

end

end Coraza.Seclang
