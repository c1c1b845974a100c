import Coraza.Seclang.Directives

/-!
# The identity of a rule

`RuleGroup.Add` refuses an id that the group already has, and nothing else looks for duplicates.
The updates of actions run `id` and `phase` on a rule that is in the group, so they can give it an
id that another rule has.  `identity_stable` says that all ids of the group are distinct as long as
no update writes an id or a phase that the rule does not have.
-/

namespace Coraza.Seclang

open Go Waf Lists List ParserState

def DistinctIDs (ids : List Int) : Prop := (ids.filter (fun id => id ≠ 0)).Nodup

instance (ids : List Int) : Decidable (DistinctIDs ids) :=
  inferInstanceAs (Decidable (List.Nodup _))

def startingIDs (rg : RuleGroup) : List Int := rg.map (fun c => c.starter.id)

def allIDs (rg : RuleGroup) : List Int := rg.rules.map Rule.id

def identities (rg : RuleGroup) : List (List (Int × Nat)) :=
  rg.map (fun c => (c.starter :: c.members).map (fun r => (r.id, r.phase)))

/-- An update writes no id and no phase that a rule it reaches does not have. -/
def OwnIdentity (s : ParserState) : ConfigDirective → Prop
  | .secRuleUpdateActionByID specs (some actions) =>
    ∀ c ∈ s.rules, Reached specs c.starter.id →
      (∀ id ∈ writtenID (parseActions actions), id = c.starter.id) ∧
      ∀ phase ∈ writtenPhase (parseActions actions), phase = c.starter.phase
  | _ => True

/-- A rule that continues a chain is written without an id. -/
def MemberWithoutID (s : ParserState) (d : ConfigDirective) : Prop :=
  ∀ text, d.ruleText = some text → (getLastRuleExpectingChain s.rules).isSome = true →
    writtenID (parseActions text.rawActions) = none

def KeepsIdentity (s : ParserState) : ConfigDirective → Prop
  | .secRuleUpdateActionByID specs actions => ∀ s',
    s.configure (.secRuleUpdateActionByID specs actions) = some s' →
      identities s'.rules = identities s.rules
  | _ => True

/-! ### Steps -/

theorem compileRule_id {config : ParserConfig} {text : RuleText} {rule : Rule}
    (h : compileRule config text = some rule) :
    rule.id = (writtenID (parseActions text.rawActions)).getD 0 := by
  obtain ⟨defaults, targets, operator, -, ⟨hnil, rfl⟩ | h⟩ := exists_of_compileRule h
  · rw [hnil]
    rfl
  · exact (applyParsedActions_spec h).1

variable {rg : RuleGroup} {s : ParserState}

theorem distinctIDs_add {rg' : RuleGroup} {rule : Rule} (h : DistinctIDs (startingIDs rg))
    (hadd : rg.add rule = some rg') : DistinctIDs (startingIDs rg') := by
  obtain ⟨hnew, rfl⟩ := RuleGroup.of_add hadd
  unfold DistinctIDs startingIDs at h ⊢
  rw [map_append, filter_append]
  by_cases hzero : rule.id = 0
  · have hnone : ([(⟨rule, []⟩ : RuleChain)].map (fun c => c.starter.id)).filter
        (fun id => id ≠ 0) = [] := by simp [hzero]
    rw [hnone, append_nil]
    exact h
  · have hone : ([(⟨rule, []⟩ : RuleChain)].map (fun c => c.starter.id)).filter
        (fun id => id ≠ 0) = [rule.id] := by simp [hzero]
    rw [hone, nodup_append]
    refine ⟨h, nodup_singleton _, ?_⟩
    intro id hid id' hid' heq
    obtain ⟨c, hc, hcid⟩ := List.mem_map.mp (mem_of_mem_filter hid)
    rw [List.mem_singleton.mp hid'] at heq
    refine hnew ⟨hzero, ?_⟩
    unfold RuleGroup.findByID
    rw [List.find?_isSome]
    exact ⟨c, hc, decide_eq_true (hcid.trans heq)⟩

/-- A chain with the ids and the phases of another one, and with its members. -/
structure SameIdentity (c c' : RuleChain) : Prop where
  members : c'.members = c.members
  id : c'.starter.id = c.starter.id
  phase : c'.starter.phase = c.starter.phase

theorem identities_eq {rg' : RuleGroup} (h : List.Forall₂ SameIdentity rg rg') :
    identities rg' = identities rg := by
  induction h with
  | nil => rfl
  | @cons c c' rg rg' hsame _ ih =>
    have hhead : (c'.starter :: c'.members).map (fun r => (r.id, r.phase))
        = (c.starter :: c.members).map (fun r => (r.id, r.phase)) := by
      rw [map_cons, map_cons, hsame.members, hsame.id, hsame.phase]
    exact congrArg₂ List.cons hhead ih

theorem startingIDs_eq (rg : RuleGroup) :
    startingIDs rg = (identities rg).map (fun rules => (rules.head?.map Prod.fst).getD 0) := by
  unfold startingIDs identities
  rw [map_map]
  rfl

/-- An update that writes only what the rules have keeps all ids and phases. -/
theorem identities_update {specs : List IDOrRange} {actions : List Action}
    (hown : OwnIdentity s (.secRuleUpdateActionByID specs (some actions)))
    (h : updateActionByID (parseActions actions) specs s.rules = some rg) :
    identities rg = identities s.rules := by
  refine identities_eq (updateActionByID_related (fun c => ⟨rfl, rfl, rfl⟩) ?_ ?_ ?_ hown h)
  · intro c c' c'' h h'
    exact ⟨h'.members.trans h.members, h'.id.trans h.id, h'.phase.trans h.phase⟩
  · intro specs c c' hsame hc hr
    rw [hsame.id] at hr
    rw [hsame.id, hsame.phase]
    exact hc hr
  · intro c c' hc hupdate
    obtain ⟨hmembers, hid, hphase, -⟩ := updateChain_spec hupdate
    refine ⟨hmembers, hid.trans ?_, hphase.trans ?_⟩
    · cases hw : writtenID (parseActions actions) with
      | none => rfl
      | some id => exact hc.1 id hw
    · cases hw : writtenPhase (parseActions actions) with
      | none => rfl
      | some phase => exact hc.2 phase hw

theorem distinctIDs_step {d : ConfigDirective} (h : DistinctIDs (startingIDs s.rules))
    (hown : OwnIdentity s d) (hstep : RulesStep s d rg) : DistinctIDs (startingIDs rg) := by
  cases hstep with
  | removed hsub => exact h.sublist ((hsub.map _).filter _)
  | added _ _ _ hadd => exact distinctIDs_add h hadd
  | marked _ hadd => exact distinctIDs_add h hadd
  | @linked text rule parent _ _ hparent =>
    have hids : startingIDs (s.rules.dropLast ++
        [{ parent with members := parent.members ++ [linkedRule parent.starter rule] }])
        = startingIDs (s.rules.dropLast ++ [parent]) := by
      unfold startingIDs
      rw [map_append, map_append]
      rfl
    rw [hids, (of_getLastRuleExpectingChain hparent).1]
    exact h
  | updated hd hupdate =>
    subst hd
    rw [startingIDs_eq, identities_update hown hupdate, ← startingIDs_eq]
    exact h
  | @retargeted targets =>
    have hsame : List.Forall₂ SameIdentity s.rules (retarget s.rules targets) := by
      refine (forall₂_retarget s.rules targets).imp ?_
      rintro c c' ⟨own, rfl⟩
      exact ⟨rfl, rfl, rfl⟩
    rw [startingIDs_eq, identities_eq hsame, ← startingIDs_eq]
    exact h

/-! ### Members -/

def MembersWithoutIDs (rg : RuleGroup) : Prop := ∀ c ∈ rg, ∀ m ∈ c.members, m.id = 0

theorem membersWithoutIDs_step {d : ConfigDirective} (h : MembersWithoutIDs s.rules)
    (hd : MemberWithoutID s d) (hstep : RulesStep s d rg) : MembersWithoutIDs rg := by
  have hadded : ∀ {rule : Rule} {rg : RuleGroup}, s.rules.add rule = some rg →
      MembersWithoutIDs rg := by
    intro rule rg hadd
    obtain ⟨-, rfl⟩ := RuleGroup.of_add hadd
    intro c hc m hm
    rcases List.mem_append.mp hc with hc | hc
    · exact h c hc m hm
    · rw [List.mem_singleton.mp hc] at hm
      cases hm
  have hsame : ∀ {rg : RuleGroup}, List.Forall₂ (fun c c' => c'.members = c.members) s.rules rg →
      MembersWithoutIDs rg := by
    intro rg hmembers c hc m hm
    obtain ⟨c₀, hc₀, heq⟩ := exists_of_mem_right hmembers hc
    rw [heq] at hm
    exact h c₀ hc₀ m hm
  cases hstep with
  | removed hsub => exact fun c hc => h c (hsub.subset hc)
  | added _ _ _ hadd => exact hadded hadd
  | marked _ hadd => exact hadded hadd
  | @linked text rule parent htext hrule hparent =>
    intro c hc m hm
    rcases List.mem_append.mp hc with hc | hc
    · exact h c (mem_of_mem_dropLast hc) m hm
    · rw [List.mem_singleton.mp hc] at hm
      rcases List.mem_append.mp hm with hm | hm
      · exact h parent (getLastRuleExpectingChain_mem hparent) m hm
      · rw [List.mem_singleton.mp hm]
        show rule.id = 0
        rw [compileRule_id hrule, hd text htext (by rw [hparent]; rfl)]
        rfl
  | updated _ hupdate =>
    refine hsame (updateActionByID_related (P := fun c c' => c'.members = c.members)
      (Q := fun _ => True) (fun c => rfl) ?_ ?_ ?_ ?_ hupdate)
    · exact fun h h' => h'.trans h
    · exact fun _ _ _ => trivial
    · exact fun _ hc => (updateChain_spec hc).1
    · exact fun _ _ _ => trivial
  | @retargeted targets =>
    refine hsame ((forall₂_retarget s.rules targets).imp ?_)
    rintro c c' ⟨own, rfl⟩
    rfl

theorem filter_allIDs (h : MembersWithoutIDs rg) :
    (allIDs rg).filter (fun id => id ≠ 0) = (startingIDs rg).filter (fun id => id ≠ 0) := by
  induction rg with
  | nil => rfl
  | cons c rg ih =>
    have hmembers : (c.members.map Rule.id).filter (fun id => id ≠ 0) = [] := by
      rw [filter_eq_nil_iff]
      intro id hid
      obtain ⟨m, hm, rfl⟩ := List.mem_map.mp hid
      simp [h c (mem_cons_self ..) m hm]
    have hall : allIDs (c :: rg) = c.starter.id :: (c.members.map Rule.id ++ allIDs rg) := by
      simp [allIDs, RuleGroup.rules]
    have hstart : startingIDs (c :: rg) = c.starter.id :: startingIDs rg := rfl
    rw [hall, hstart, filter_cons, filter_cons, filter_append, hmembers,
      nil_append, ih (fun c hc => h c (mem_cons_of_mem _ hc))]

/-! ### Configurations -/

/-- **Rule identity.**  In a configuration that is accepted, if no `SecRuleUpdateActionById` writes
an id or a phase that a rule it reaches does not have, then none of them changes an id or a phase,
and the ids of the rules of the group are distinct.  If besides the rules that continue a chain
are written without an id, then the ids of all rules are distinct, those of members included. -/
theorem identity_stable {disabled : List String} {ds : List ConfigDirective} {s : ParserState}
    (hown : EachStep OwnIdentity (.initial disabled) ds)
    (hrun : (initial disabled).run ds = some s) :
    EachStep KeepsIdentity (.initial disabled) ds ∧ DistinctIDs (startingIDs s.rules) ∧
      (EachStep MemberWithoutID (.initial disabled) ds → DistinctIDs (allIDs s.rules)) := by
  have hdistinct : DistinctIDs (startingIDs s.rules) :=
    run_invariant (I := fun rg => DistinctIDs (startingIDs rg)) (s := .initial disabled)
      distinctIDs_step nodup_nil hown hrun
  refine ⟨?_, hdistinct, ?_⟩
  · refine hown.imp (fun {s d} hd => ?_)
    cases d with
    | secRuleUpdateActionByID specs actions =>
      intro s' hs'
      obtain ⟨own, rfl, hupdate⟩ := Option.bind_eq_some_iff.mp hs'
      obtain ⟨rg, hrg, rfl⟩ := Option.map_eq_some_iff.mp hupdate
      exact identities_update hd hrg
    | _ => trivial
  · intro hmember
    have hzero : MembersWithoutIDs s.rules :=
      run_invariant (s := .initial disabled) membersWithoutIDs_step
        (fun _ hc => absurd hc not_mem_nil) hmember hrun
    unfold DistinctIDs
    rw [filter_allIDs hzero]
    exact hdistinct

def passRule (id : Int) : ConfigDirective := .basic (.secAction (some [.id id, .phase 1, .pass]))

/-- `SecRuleUpdateActionById 2 "deny"` after two rules. -/
theorem identity_stable_deny : ∃ s, (initial []).run
    [passRule 1, passRule 2, .secRuleUpdateActionByID [.id 2] (some [.deny])] = some s ∧
      DistinctIDs (startingIDs s.rules) := by
  have hsome : ((initial []).run
      [passRule 1, passRule 2, .secRuleUpdateActionByID [.id 2] (some [.deny])]).isSome = true := by
    decide +kernel
  obtain ⟨s, hs⟩ := Option.isSome_iff_exists.mp hsome
  have hown : ∀ s, OwnIdentity s (.secRuleUpdateActionByID [.id 2] (some [.deny])) :=
    fun s c _ _ => ⟨fun _ hid => (nomatch hid), fun _ hphase => (nomatch hphase)⟩
  refine ⟨s, hs, (identity_stable ?_ hs).2.1⟩
  exact ⟨trivial, fun _ _ => ⟨trivial, fun s₂ _ => ⟨hown s₂, fun _ _ => trivial⟩⟩⟩

/-- **An update writes ids and phases.**  `SecRuleUpdateActionById 2 "id:1,phase:3"` makes two
rules with the id 1 and moves one of them to another phase. -/
theorem identity_overwritten :
    ((initial []).run [passRule 1, passRule 2]).map (fun s => identities s.rules)
      = some [[(1, 1)], [(2, 1)]] ∧
    ((initial []).run [passRule 1, passRule 2,
        .secRuleUpdateActionByID [.id 2] (some [.id 1, .phase 3])]).map
          (fun s => (identities s.rules, decide (DistinctIDs (startingIDs s.rules))))
      = some ([[(1, 1)], [(1, 3)]], false) := by
  constructor
  · decide +kernel
  · decide +kernel

end Coraza.Seclang
