import Coraza.Seclang.Directives

/-!
# Where the rules of a group come from

`Traced` is the parser with the positions of the directives: for each chain of the group those of
its starter and its members, and those of the rules that failed and were skipped.  `trace_state`
says that the parser is not changed by them, and `aligned_step` that they fit the rules after every
directive: what a rule carries is what the directive at its position was written with.
-/

namespace Coraza.Seclang

open Go Waf Lists List

/-! ### Directives with positions -/

def Directive.writesChain (d : Directive) : Bool :=
  d.ruleText.any (fun text => (parseActions text.rawActions).any isChain)

def carries (ds : List Directive) (i : Nat) : Bool := ds[i]?.any Directive.writesChain

/-! ### The parser with positions -/

inductive Outcome where
  | failed
  | discarded
  | linked (parent : RuleChain) (rule : Rule)
  | added (rule : Rule)

def outcome (config : ParserConfig) (rg : RuleGroup) (text : RuleText) : Outcome :=
  match compileRule config text with
  | none => .failed
  | some rule =>
    match getLastRuleExpectingChain rg with
    | some parent =>
      if hasDisruptiveActions (parseActions text.rawActions) then .discarded
      else .linked parent rule
    | none => if (rg.add rule).isSome then .added rule else .failed

def Outcome.rules (rg : RuleGroup) : Outcome → RuleGroup
  | .failed => rg
  | .discarded => rg.discardPendingChain
  | .linked parent rule =>
    rg.dropLast ++ [{ parent with members := parent.members ++ [linkedRule parent.starter rule] }]
  | .added rule => rg ++ [⟨rule, []⟩]

theorem parseRule_rules (config : ParserConfig) (rg : RuleGroup) (text : RuleText) :
    (parseRule config rg text).1 = (outcome config rg text).rules rg := by
  unfold parseRule outcome
  cases compileRule config text with
  | none => rfl
  | some rule =>
    cases getLastRuleExpectingChain rg with
    | some parent =>
      cases hasDisruptiveActions (parseActions text.rawActions) <;> simp [Outcome.rules]
    | none =>
      unfold RuleGroup.add
      by_cases hold : rule.id ≠ 0 ∧ (rg.findByID rule.id).isSome
      · simp only [if_pos hold, Option.isSome_none, Bool.false_eq_true, if_false, Outcome.rules]
      · simp only [if_neg hold, Option.isSome_some, if_true, Outcome.rules]

/-- The parser with the positions of the directives: for each chain those of its rules, those of
the rules that failed, and the number of directives. -/
structure Traced where
  state : ParserState
  origins : List (List Nat)
  failed : List Nat
  read : Nat

def Traced.afterRule (t : Traced) (state : ParserState) : Outcome → Traced
  | .failed => ⟨state, t.origins, t.failed ++ [t.read], t.read + 1⟩
  | .discarded => ⟨state, t.origins.dropLast, t.failed ++ [t.read], t.read + 1⟩
  | .linked _ _ =>
    ⟨state, t.origins.dropLast ++ [t.origins.getLast?.getD [] ++ [t.read]], t.failed, t.read + 1⟩
  | .added _ => ⟨state, t.origins ++ [[t.read]], t.failed, t.read + 1⟩

def Traced.step (t : Traced) (d : Directive) : Option Traced :=
  (t.state.directive d).map (fun state =>
    match d with
    | .secRule targets operator actions => t.afterRule state
        (outcome t.state.config t.state.rules (.withOperator targets operator actions))
    | .secAction actions => t.afterRule state
        (outcome t.state.config t.state.rules (.withoutOperator actions))
    | .secMarker _ => ⟨state, t.origins ++ [[t.read]], t.failed, t.read + 1⟩
    | _ => { t with state, read := t.read + 1 })

/-- The parser after `SecIgnoreRuleCompilationErrors On`. -/
def ParserState.relaxed (disabledRuleActions : List String) : ParserState :=
  ⟨⟨[], disabledRuleActions, true⟩, []⟩

def trace (disabled : List String) (ds : List Directive) : Option Traced :=
  ds.foldlM Traced.step ⟨.relaxed disabled, [], [], 0⟩

theorem trace_state (disabled : List String) (ds : List Directive) :
    (trace disabled ds).map Traced.state
      = ds.foldlM ParserState.directive (.relaxed disabled) := by
  have hfold : ∀ (ds : List Directive) (t : Traced), (ds.foldlM Traced.step t).map Traced.state
      = ds.foldlM ParserState.directive t.state := by
    intro ds
    induction ds with
    | nil => exact fun t => rfl
    | cons d ds ih =>
      intro t
      have hstep : (t.step d).map Traced.state = t.state.directive d := by
        unfold Traced.step
        rw [Option.map_map]
        refine (Option.map_congr (fun state _ => ?_)).trans Option.map_id'
        cases d with
        | secRule targets operator actions =>
          simp only [Function.comp_apply]
          cases outcome t.state.config t.state.rules (.withOperator targets operator actions) <;>
            rfl
        | secAction actions =>
          simp only [Function.comp_apply]
          cases outcome t.state.config t.state.rules (.withoutOperator actions) <;> rfl
        | _ => rfl
      rw [foldlM_cons, foldlM_cons, ← hstep]
      cases t.step d with
      | none => rfl
      | some t' => exact ih t'
  exact hfold ds _

theorem trace_concat (disabled : List String) (ds : List Directive) (d : Directive) :
    trace disabled (ds ++ [d]) = (trace disabled ds).bind (fun t => t.step d) := by
  unfold trace
  rw [foldlM_append]
  congr 1
  funext t
  exact bind_pure _

/-! ### What a chain carries -/

theorem any_isChain_mergeActions (origin : List Action) {defaults : List Action}
    (h : defaults.any isChain = false) :
    (mergeActions origin defaults).any isChain = origin.any isChain := by
  have hnone := List.any_eq_false.mp h
  have hres : (defaults.filter (fun a => a.type ≠ .disruptive ∧ a.type ≠ .metadata)).any isChain
      = false := List.any_eq_false.mpr (fun a ha => hnone a (mem_of_mem_filter ha))
  have hda : (defaults.filter (fun a => a.type = .disruptive)).getLast?.toList.any isChain
      = false := by
    refine List.any_eq_false.mpr (fun a ha => hnone a ?_)
    exact mem_of_mem_filter (mem_of_getLast? (Option.mem_toList.mp ha))
  have hown : (origin.filter (fun a => ¬(a.type = .disruptive ∧ a.name = "block"))).any isChain
      = origin.any isChain := by
    rw [any_filter]
    congr 1
    funext a
    cases a <;> first | rfl | exact Bool.and_false _
  unfold mergeActions
  rw [any_append, any_append, hres, hown, Bool.false_or]
  split
  · exact Bool.or_false _
  · rw [hda, Bool.or_false]

variable {disabled : List String} {t : Traced} {d : Directive} {ds : List Directive}
  {os : List (List Nat)}

theorem compileRule_hasChain {ignore : Bool} {text : RuleText} {rule : Rule}
    (h : compileRule ⟨[], disabled, ignore⟩ text = some rule) :
    rule.hasChain = (parseActions text.rawActions).any isChain := by
  have hdefaults : ruleDefaults ⟨[], disabled, ignore⟩
      = some (Function.update (fun _ => none) 2 (some defaultActionsPhase2)) := rfl
  have hmerge : ∀ phase act, (withDefaults (Function.update (fun _ => none) 2
      (some defaultActionsPhase2)) phase act).any isChain = act.any isChain := by
    intro phase act
    unfold withDefaults
    by_cases hphase : phase = 2
    · rw [hphase]
      exact any_isChain_mergeActions act rfl
    · rw [Function.update_of_ne hphase]
  obtain ⟨defaults, targets, operator, hread, ⟨hnil, rfl⟩ | h⟩ := exists_of_compileRule h
  · rw [hnil]
    rfl
  · cases hdefaults.symm.trans hread
    obtain ⟨-, -, phase, hchain⟩ := applyParsedActions_spec h
    rw [hchain, hmerge]
    exact Bool.false_or _

/-! ### Steps -/

def Directive.isPlain : Directive → Bool
  | .secRule _ _ _ | .secAction _ | .secMarker _ => true
  | _ => false

/-- What a directive does to the rules and the positions. -/
inductive Change (t : Traced) (d : Directive) (t' : Traced) : Prop where
  | failed : d.ruleText.isSome = true →
      (∀ text, d.ruleText = some text → compileRule t.state.config text = none ∨
        getLastRuleExpectingChain t.state.rules = none) →
      t'.state.rules = t.state.rules → t'.origins = t.origins →
      t'.failed = t.failed ++ [t.read] → Change t d t'
  | discarded {parent : RuleChain} : d.ruleText.isSome = true →
      getLastRuleExpectingChain t.state.rules = some parent →
      t'.state.rules = t.state.rules.discardPendingChain → t'.origins = t.origins.dropLast →
      t'.failed = t.failed ++ [t.read] → Change t d t'
  | linked {parent : RuleChain} {rule : Rule} : d.ruleText.isSome = true →
      getLastRuleExpectingChain t.state.rules = some parent → rule.hasChain = d.writesChain →
      t'.state.rules = t.state.rules.dropLast ++
        [{ parent with members := parent.members ++ [linkedRule parent.starter rule] }] →
      t'.origins = t.origins.dropLast ++ [t.origins.getLast?.getD [] ++ [t.read]] →
      t'.failed = t.failed → Change t d t'
  | added {rule : Rule} :
      (d.ruleText = none ∨ getLastRuleExpectingChain t.state.rules = none) →
      rule.hasChain = d.writesChain → t'.state.rules = t.state.rules ++ [⟨rule, []⟩] →
      t'.origins = t.origins ++ [[t.read]] → t'.failed = t.failed → Change t d t'

theorem afterRule_change {text : RuleText} (hconfig : t.state.config = ⟨[], disabled, true⟩)
    (htext : d.ruleText = some text) {state : ParserState}
    (hrules : state.rules = (outcome t.state.config t.state.rules text).rules t.state.rules) :
    Change t d (t.afterRule state (outcome t.state.config t.state.rules text)) := by
  have hwrites : ∀ {rule}, compileRule t.state.config text = some rule →
      rule.hasChain = d.writesChain := by
    intro rule hrule
    rw [hconfig] at hrule
    rw [compileRule_hasChain hrule, Directive.writesChain, htext]
    rfl
  have hsome : d.ruleText.isSome = true := by rw [htext]; rfl
  unfold outcome at hrules ⊢
  cases hcompile : compileRule t.state.config text with
  | none =>
    rw [hcompile] at hrules
    refine .failed hsome (fun text' htext' => .inl ?_) hrules rfl rfl
    cases htext.symm.trans htext'
    exact hcompile
  | some rule =>
    rw [hcompile] at hrules
    cases hlast : getLastRuleExpectingChain t.state.rules with
    | some parent =>
      rw [hlast] at hrules
      dsimp only at hrules ⊢
      split at hrules
      · rename_i hd
        rw [if_pos hd]
        exact .discarded hsome hlast hrules rfl rfl
      · rename_i hd
        rw [if_neg hd]
        exact .linked hsome hlast (hwrites hcompile) hrules rfl rfl
    | none =>
      rw [hlast] at hrules
      dsimp only at hrules ⊢
      split at hrules
      · rename_i hadd
        rw [if_pos hadd]
        exact .added (.inr hlast) (hwrites hcompile) hrules rfl rfl
      · rename_i hadd
        rw [if_neg hadd]
        exact .failed hsome (fun _ _ => .inr hlast) hrules rfl rfl

theorem step_change {t' : Traced} (hconfig : t.state.config = ⟨[], disabled, true⟩)
    (hplain : d.isPlain = true) (h : t.step d = some t') :
    t'.state.config = t.state.config ∧ t'.read = t.read + 1 ∧ Change t d t' := by
  obtain ⟨state, hstate, rfl⟩ := Option.map_eq_some_iff.mp h
  have hafter : ∀ o, (t.afterRule state o).state = state ∧
    (t.afterRule state o).read = t.read + 1 := by
    intro o
    cases o <;> exact ⟨rfl, rfl⟩
  have hrule : ∀ {text : RuleText}, d.ruleText = some text →
      (∃ rules ok, parseRule t.state.config t.state.rules text = (rules, ok) ∧
        state = { t.state with rules }) →
      (t.afterRule state (outcome t.state.config t.state.rules text)).state.config
          = t.state.config ∧
        (t.afterRule state (outcome t.state.config t.state.rules text)).read = t.read + 1 ∧
        Change t d (t.afterRule state (outcome t.state.config t.state.rules text)) := by
    rintro text htext ⟨rules, ok, hparse, rfl⟩
    refine ⟨by rw [(hafter _).1], (hafter _).2, afterRule_change hconfig htext ?_⟩
    rw [← parseRule_rules, hparse]
  cases d with
  | secRule targets operator actions =>
    exact hrule rfl ⟨_, _, rfl, (Option.some.inj (Option.ite_none_right_eq_some.mp hstate).2).symm⟩
  | secAction actions =>
    exact hrule rfl ⟨_, _, rfl, (Option.some.inj (Option.ite_none_right_eq_some.mp hstate).2).symm⟩
  | secMarker label =>
    simp only [ParserState.directive] at hstate
    split at hstate
    · cases hstate
    · obtain ⟨rules, hadd, rfl⟩ := Option.map_eq_some_iff.mp hstate
      exact ⟨rfl, rfl, .added (.inl rfl) rfl (RuleGroup.of_add hadd).2 rfl rfl⟩
  | secDefaultAction actions => cases hplain
  | secIgnoreRuleCompilationErrors value => cases hplain

/-! ### Positions and rules agree -/

/-- The rules of a chain carry what the directives at the positions carry. -/
def Matches (ds : List Directive) (c : RuleChain) (l : List Nat) : Prop :=
  List.Forall₂ (fun r i => r.hasChain = carries ds i) (c.starter :: c.members) l

/-- What holds after every configuration: the positions fit the rules, they are in order, and no
rule of the group has failed. -/
structure Aligned (disabled : List String) (ds : List Directive) (t : Traced) : Prop where
  read : t.read = ds.length
  config : t.state.config = ⟨[], disabled, true⟩
  matched : List.Forall₂ (Matches ds) t.state.rules t.origins
  sorted : t.origins.flatten.Pairwise (· < ·)
  bound : ∀ i ∈ t.origins.flatten ++ t.failed, i < ds.length
  kept : ∀ i ∈ t.origins.flatten, i ∉ t.failed
  /-- The starter of a chain with members has `chain`. -/
  starter : ∀ c ∈ t.state.rules, c.members ≠ [] → c.starter.hasChain = true
  /-- No chain is open before a rule with `chain`. -/
  settled : ∀ rg c rest, t.state.rules = rg ++ c :: rest → c.starter.hasChain = true →
    getLastRuleExpectingChain rg = none

theorem carries_append (ds : List Directive) (d : Directive) {i : Nat} (hi : i < ds.length) :
    carries (ds ++ [d]) i = carries ds i := by
  unfold carries
  rw [List.getElem?_append_left hi]

theorem carries_length (ds : List Directive) (d : Directive) :
    carries (ds ++ [d]) ds.length = d.writesChain := by
  unfold carries
  rw [List.getElem?_concat_length]
  rfl

theorem matches_append (d : Directive) {rg : RuleGroup} (h : List.Forall₂ (Matches ds) rg os)
    (hbound : ∀ i ∈ os.flatten, i < ds.length) : List.Forall₂ (Matches (ds ++ [d])) rg os := by
  have hl : ∀ {rs : List Rule} {l : List Nat},
      List.Forall₂ (fun r i => r.hasChain = carries ds i) rs l → (∀ i ∈ l, i < ds.length) →
      List.Forall₂ (fun r i => r.hasChain = carries (ds ++ [d]) i) rs l := by
    intro rs l h
    induction h with
    | nil => exact fun _ => .nil
    | cons hr _ ih =>
      intro hb
      refine .cons ?_ (ih (fun i hi => hb i (mem_cons_of_mem _ hi)))
      rw [carries_append ds d (hb _ (mem_cons_self ..))]
      exact hr
  induction h with
  | nil => exact .nil
  | cons hc _ ih =>
    exact .cons (hl hc (fun i hi => hbound i (mem_append_left _ hi)))
      (ih (fun i hi => hbound i (mem_append_right _ hi)))

variable (h : Aligned disabled ds t)
include h

theorem Aligned.expecting {parent : RuleChain}
    (hparent : getLastRuleExpectingChain t.state.rules = some parent) :
    ∃ rg os l, t.state.rules = rg ++ [parent] ∧ t.origins = os ++ [l] ∧
      List.Forall₂ (Matches ds) rg os ∧ Matches ds parent l := by
  have hrules := (of_getLastRuleExpectingChain hparent).1
  have hmatched := h.matched
  rw [← hrules] at hmatched
  obtain ⟨os, l, hos, hrg, hl⟩ := exists_of_forall₂_concat hmatched
  exact ⟨_, os, l, hrules.symm, hos, hrg, hl⟩

theorem Aligned.concat (d : Directive) (hos : os.flatten = t.origins.flatten ++ [t.read]) :
    os.flatten.Pairwise (· < ·) ∧ (∀ i ∈ os.flatten ++ t.failed, i < (ds ++ [d]).length) ∧
      ∀ i ∈ os.flatten, i ∉ t.failed := by
  obtain ⟨hin, hfailed⟩ := forall_mem_append.mp h.bound
  rw [hos, h.read, length_append]
  simp only [forall_mem_append, forall_mem_singleton, pairwise_append]
  refine ⟨⟨h.sorted, pairwise_singleton _ _, hin⟩, ⟨⟨?_, Nat.lt_succ_self _⟩, ?_⟩, h.kept, ?_⟩
  · exact fun i hi => Nat.lt_succ_of_lt (hin i hi)
  · exact fun i hi => Nat.lt_succ_of_lt (hfailed i hi)
  · exact fun hi => Nat.lt_irrefl _ (hfailed _ hi)

theorem Aligned.fail (d : Directive) (hos : os.flatten.Sublist t.origins.flatten) :
    os.flatten.Pairwise (· < ·) ∧
      (∀ i ∈ os.flatten ++ (t.failed ++ [t.read]), i < (ds ++ [d]).length) ∧
      ∀ i ∈ os.flatten, i ∉ t.failed ++ [t.read] := by
  obtain ⟨hin, hfailed⟩ := forall_mem_append.mp h.bound
  rw [h.read, length_append]
  simp only [forall_mem_append, forall_mem_singleton]
  refine ⟨h.sorted.sublist hos, ⟨?_, ?_, Nat.lt_succ_self _⟩, ?_⟩
  · exact fun i hi => Nat.lt_succ_of_lt (hin i (hos.subset hi))
  · exact fun i hi => Nat.lt_succ_of_lt (hfailed i hi)
  · intro i hi hmem
    rcases List.mem_append.mp hmem with hmem | hmem
    · exact h.kept i (hos.subset hi) hmem
    · exact (hin i (hos.subset hi)).ne (List.mem_singleton.mp hmem)

theorem Aligned.starter_hasChain {parent : RuleChain}
    (hparent : getLastRuleExpectingChain t.state.rules = some parent) :
    parent.starter.hasChain = true := by
  by_cases hm : parent.members = []
  · have hopen := (of_getLastRuleExpectingChain hparent).2
    rwa [hm] at hopen
  · exact h.starter parent (getLastRuleExpectingChain_mem hparent) hm

/-- **The positions fit the rules.** -/
theorem aligned_step {t' : Traced} (hplain : d.isPlain = true)
    (hstep : t.step d = some t') : Aligned disabled (ds ++ [d]) t' := by
  obtain ⟨hconfig, hread, hchange⟩ := step_change h.config hplain hstep
  have hread' : t'.read = (ds ++ [d]).length := by
    rw [hread, h.read, length_append, length_singleton]
  have hmatched := matches_append d h.matched (fun i hi => h.bound i (mem_append_left _ hi))
  have hconfig := hconfig.trans h.config
  obtain ⟨⟨config', rules'⟩, origins', failed', read'⟩ := t'
  cases hchange with
  | failed _ _ hrules horigins hfailed =>
    cases hrules
    cases horigins
    cases hfailed
    obtain ⟨hsorted, hbound, hkept⟩ := h.fail d (List.Sublist.refl t.origins.flatten)
    exact ⟨hread', hconfig, hmatched, hsorted, hbound, hkept, h.starter, h.settled⟩
  | @discarded parent _ hparent hrules horigins hfailed =>
    cases horigins
    cases hfailed
    obtain ⟨rg, os, l, hrg, hos, -, -⟩ := h.expecting hparent
    obtain rfl : rules' = t.state.rules.dropLast := by
      rw [show rules' = _ from hrules, hrg, dropLast_concat,
        RuleGroup.discardPendingChain_concat rg (h.starter_hasChain hparent)]
    have hsub : t.origins.dropLast.flatten.Sublist t.origins.flatten := by
      rw [hos, dropLast_concat, flatten_append]
      exact sublist_append_left _ _
    obtain ⟨hsorted, hbound, hkept⟩ := h.fail d hsub
    refine ⟨hread', hconfig, forall₂_dropLast hmatched, hsorted, hbound, hkept,
      fun c hc => h.starter c (mem_of_mem_dropLast hc), fun rg₁ c rest hsplit hc => ?_⟩
    refine h.settled rg₁ c (rest ++ [parent]) ?_ hc
    dsimp only at hsplit
    rw [hrg, dropLast_concat] at hsplit
    rw [hrg, hsplit, append_assoc, cons_append]
  | @linked parent rule _ hparent hchain hrules horigins hfailed =>
    cases hrules
    cases horigins
    cases hfailed
    obtain ⟨rg, os, l, hrg, hos, hinit, hlast⟩ := h.expecting hparent
    have hstarter := h.starter_hasChain hparent
    have hflat : (t.origins.dropLast ++ [t.origins.getLast?.getD [] ++ [t.read]]).flatten
        = t.origins.flatten ++ [t.read] := by
      simp [hos]
    obtain ⟨hsorted, hbound, hkept⟩ := h.concat d hflat
    refine ⟨hread', hconfig, ?_, hsorted, hbound, hkept, ?_, fun rg₁ c rest hsplit hc => ?_⟩
    · rw [hrg, hos] at hmatched
      obtain ⟨os', l', heq, hinit, hlast⟩ := exists_of_forall₂_concat hmatched
      obtain ⟨rfl, hl⟩ := append_inj' heq rfl
      cases hl
      rw [hrg, hos, dropLast_concat, dropLast_concat, List.getLast?_concat]
      refine rel_append hinit (.cons ?_ .nil)
      refine rel_append hlast (.cons ?_ .nil)
      rw [h.read, carries_length]
      exact hchain
    · rw [hrg, dropLast_concat]
      refine forall_mem_append.mpr ⟨fun c hc => ?_, forall_mem_singleton.mpr fun _ => ?_⟩
      · exact h.starter c (hrg ▸ mem_append_left _ hc)
      · exact hstarter
    · dsimp only at hsplit
      rw [hrg, dropLast_concat] at hsplit
      rcases append_singleton_cases hsplit with ⟨rfl, rfl, rfl⟩ | ⟨rest', rfl, hrg₁⟩
      · exact h.settled _ parent [] hrg hc
      · refine h.settled rg₁ c (rest' ++ [parent]) ?_ hc
        rw [hrg, hrg₁, append_assoc, cons_append]
  | @added rule hnone hchain hrules horigins hfailed =>
    cases hrules
    cases horigins
    cases hfailed
    have hflat : (t.origins ++ [[t.read]]).flatten = t.origins.flatten ++ [t.read] := by simp
    obtain ⟨hsorted, hbound, hkept⟩ := h.concat d hflat
    refine ⟨hread', hconfig, rel_append hmatched (.cons (.cons ?_ .nil) .nil), hsorted, hbound,
      hkept, ?_, fun rg₁ c rest hsplit hc => ?_⟩
    · rw [h.read, carries_length]
      exact hchain
    · exact forall_mem_append.mpr ⟨h.starter, forall_mem_singleton.mpr fun hm => absurd rfl hm⟩
    · rcases append_singleton_cases hsplit with ⟨rfl, rfl, rfl⟩ | ⟨rest', rfl, hrg₁⟩
      · rcases hnone with hmarker | hnone
        · rw [hchain, Directive.writesChain, hmarker] at hc
          cases hc
        · exact hnone
      · exact h.settled rg₁ c rest' hrg₁ hc

end Coraza.Seclang
