import Coraza.Seclang.Directives

/-!
# Chains that are never closed

A rule with `chain` waits for the next rule of the configuration.  The parser does not ask whether
that rule ever comes: the text may end, a marker may be added, or an update may write `chain` on a
rule that has others after it.  Such a rule is evaluated as if it were complete.

`chains_closed_iff` says that in all other configurations every chain is closed, apart from the
last one if the text ends there.
-/

namespace Coraza.Seclang

open Go Waf Lists ParserState List

/-- Every rule of the chain with `chain` has a next one. -/
def Closed (c : RuleChain) : Prop :=
  ∀ pre r post, c.starter :: c.members = pre ++ r :: post → r.hasChain = true → post ≠ []

def lastRule (c : RuleChain) : Rule := c.members.getLast?.getD c.starter

/-- The last rule of the group, or of its chain, waits for no member when a marker is added; and
an update writes `chain` on the last rule of the group, or on rules that have members. -/
def KeepsClosed (s : ParserState) : ConfigDirective → Prop
  | .basic (.secMarker _) => getLastRuleExpectingChain s.rules = none
  | .secRuleUpdateActionByID specs (some actions) =>
    (parseActions actions).any isChain = true →
      writtenID (parseActions actions) = none ∧
      ∀ c ∈ s.rules.dropLast, Reached specs c.starter.id → c.members ≠ []
  | _ => True

theorem cons_members_eq (c : RuleChain) :
    c.starter :: c.members = (c.starter :: c.members).dropLast ++ [lastRule c] := by
  have hlast : (c.starter :: c.members).getLast? = some (lastRule c) := by
    rw [getLast?_cons]
    rfl
  exact (dropLast_append_getLast? _ hlast).symm

theorem closed_iff {c : RuleChain} : Closed c ↔ (lastRule c).hasChain = false := by
  constructor
  · intro h
    cases hchain : (lastRule c).hasChain with
    | false => rfl
    | true => exact absurd rfl (h _ _ [] (cons_members_eq c) hchain)
  · rintro hlast pre r post hsplit hr rfl
    rw [cons_members_eq] at hsplit
    obtain ⟨-, hr'⟩ := append_inj' hsplit rfl
    obtain ⟨rfl, -⟩ := cons.inj hr'
    rw [hlast] at hr
    cases hr

def EarlierClosed (rg : RuleGroup) : Prop := ∀ c ∈ rg.dropLast, (lastRule c).hasChain = false

variable {rg : RuleGroup}

theorem closed_of_notExpecting (h : EarlierClosed rg)
    (hnone : getLastRuleExpectingChain rg = none) : ∀ c ∈ rg, (lastRule c).hasChain = false := by
  intro c hc
  unfold getLastRuleExpectingChain at hnone
  split at hnone
  · rename_i hlast
    rw [getLast?_eq_none_iff.mp hlast] at hc
    cases hc
  · rename_i last hlast
    rw [← dropLast_append_getLast? last hlast] at hc
    rcases mem_append.mp hc with hc | hc
    · exact h c hc
    · rw [mem_singleton.mp hc]
      split at hnone
      · cases hnone
      · rename_i hopen
        exact Bool.eq_false_iff.mpr hopen

theorem earlierClosed_add {rg rg' : RuleGroup} {rule : Rule} (h : EarlierClosed rg)
    (hnone : getLastRuleExpectingChain rg = none) (hadd : rg.add rule = some rg') :
    EarlierClosed rg' := by
  obtain ⟨-, rfl⟩ := RuleGroup.of_add hadd
  unfold EarlierClosed
  rw [dropLast_concat]
  exact closed_of_notExpecting h hnone

/-- A group in which the chains before the last one have the members and the `chain` that they had
before, or members that were not touched. -/
theorem earlierClosed_of_forall₂ {rg rg' : RuleGroup} (h : EarlierClosed rg)
    {P : RuleChain → RuleChain → Prop} (hP : List.Forall₂ P rg rg')
    (hsame : ∀ {c c'}, c ∈ rg.dropLast → P c c' → c'.members = c.members ∧
      (c.members = [] → c'.starter.hasChain = c.starter.hasChain)) : EarlierClosed rg' := by
  intro c' hc'
  obtain ⟨c, hc, hcc'⟩ := exists_of_mem_right (forall₂_dropLast hP) hc'
  obtain ⟨hmembers, hstarter⟩ := hsame hc hcc'
  have hlast := h c hc
  unfold lastRule at hlast ⊢
  rw [hmembers]
  cases hm : c.members.getLast? with
  | none =>
    rw [hm] at hlast
    exact (hstarter (getLast?_eq_none_iff.mp hm)).trans hlast
  | some m =>
    rw [hm] at hlast
    exact hlast

theorem earlierClosed_update {s : ParserState} {specs : List IDOrRange} {actions : List Action}
    (h : EarlierClosed s.rules) (hd : KeepsClosed s (.secRuleUpdateActionByID specs (some actions)))
    (hupdate : updateActionByID (parseActions actions) specs s.rules = some rg) :
    EarlierClosed rg := by
  cases hchain : (parseActions actions).any isChain with
  | false =>
    have hrel : List.Forall₂ (fun c c' : RuleChain => c'.members = c.members ∧
        c'.starter.hasChain = c.starter.hasChain) s.rules rg := by
      refine updateActionByID_related (Q := fun _ => True) (fun c => ⟨rfl, rfl⟩) ?_ ?_ ?_ ?_ hupdate
      · exact fun h h' => ⟨h'.1.trans h.1, h'.2.trans h.2⟩
      · exact fun _ _ _ => trivial
      · intro c c' _ hc
        obtain ⟨hmembers, -, -, hhas⟩ := updateChain_spec hc
        rw [hchain, Bool.or_false] at hhas
        exact ⟨hmembers, hhas⟩
      · exact fun _ _ _ => trivial
    exact earlierClosed_of_forall₂ h hrel (fun _ hcc' => ⟨hcc'.1, fun _ => hcc'.2⟩)
  | true =>
    obtain ⟨hid, hmembers⟩ := hd hchain
    have hrel : List.Forall₂ (fun c c' : RuleChain => c'.members = c.members ∧
        c'.starter.id = c.starter.id ∧ (c'.starter.hasChain = c.starter.hasChain ∨
          Reached specs c.starter.id)) s.rules rg := by
      refine updateActionByID_related (Q := fun c => Reached specs c.starter.id)
        (fun c => ⟨rfl, rfl, .inl rfl⟩) ?_ ?_ ?_ (fun _ _ hr => hr) hupdate
      · rintro c c' c'' ⟨hm, hi, hc⟩ ⟨hm', hi', hc'⟩
        refine ⟨hm'.trans hm, hi'.trans hi, ?_⟩
        rw [hi] at hc'
        rcases hc with hc | hc
        · exact hc'.imp_left (fun hc' => hc'.trans hc)
        · exact .inr hc
      · intro specs' c c' hcc' hc hr
        rw [hcc'.2.1] at hr ⊢
        exact hc hr
      · intro c c' hr hc
        obtain ⟨hm, hi, -, -⟩ := updateChain_spec hc
        rw [hid] at hi
        exact ⟨hm, hi, .inr hr⟩
    refine earlierClosed_of_forall₂ h hrel (fun hc hcc' => ⟨hcc'.1, fun hnil => ?_⟩)
    exact hcc'.2.2.resolve_right (fun hr => hmembers _ hc hr hnil)

theorem earlierClosed_step {s : ParserState} {d : ConfigDirective}
    (h : EarlierClosed s.rules) (hd : KeepsClosed s d) (hstep : RulesStep s d rg) :
    EarlierClosed rg := by
  cases hstep with
  | removed hsub => exact fun c hc => h c ((sublist_dropLast hsub).subset hc)
  | added _ _ hnone hadd => exact earlierClosed_add h hnone hadd
  | marked hmarker hadd =>
    subst hmarker
    exact earlierClosed_add h hd hadd
  | linked _ _ _ =>
    unfold EarlierClosed
    rw [dropLast_concat]
    exact h
  | updated hdirective hupdate =>
    subst hdirective
    exact earlierClosed_update h hd hupdate
  | @retargeted targets =>
    refine earlierClosed_of_forall₂ h (forall₂_retarget s.rules targets) ?_
    rintro c c' - ⟨own, rfl⟩
    exact ⟨rfl, fun _ => rfl⟩

/-- **Closed chains.**  In an accepted configuration where no marker is added while a chain is
open, and no update writes `chain` on a rule without members that has others after it, every rule
with `chain` has a next member if and only if no chain is open where the text ends. -/
theorem chains_closed_iff {disabled : List String} {ds : List ConfigDirective} {s : ParserState}
    (hsteps : EachStep KeepsClosed (.initial disabled) ds)
    (hrun : (initial disabled).run ds = some s) :
    (∀ c ∈ s.rules, Closed c) ↔ getLastRuleExpectingChain s.rules = none := by
  have hearlier : EarlierClosed s.rules :=
    run_invariant (s := .initial disabled) earlierClosed_step
      (fun _ hc => absurd hc not_mem_nil) hsteps hrun
  constructor
  · intro h
    cases hlast : getLastRuleExpectingChain s.rules with
    | none => rfl
    | some c =>
      have hclosed := closed_iff.mp (h c (getLastRuleExpectingChain_mem hlast))
      exact absurd hclosed (Bool.eq_false_iff.not.mpr
        (not_not.mpr (of_getLastRuleExpectingChain hlast).2))
  · intro hnone c hc
    exact closed_iff.mpr (closed_of_notExpecting hearlier hnone c hc)

def denyRule (id : Int) (chain : Bool) : ConfigDirective :=
  .basic (.secAction (some ([.id id, .phase 1, .deny] ++ if chain then [.chain] else [])))

def memberRule : ConfigDirective := .basic (.secAction (some [.nolog]))

/-- A chain with its member, and a marker after it. -/
theorem chains_closed_iff_member : ∃ s, (initial []).run
    [denyRule 1 true, memberRule, .basic (.secMarker (bytesOf "END"))] = some s ∧
      ∀ c ∈ s.rules, Closed c := by
  have hmarker : ((initial []).run [denyRule 1 true, memberRule]).map
      (fun s => (getLastRuleExpectingChain s.rules).isNone) = some true := by decide +kernel
  have hend : ((initial []).run [denyRule 1 true, memberRule,
      .basic (.secMarker (bytesOf "END"))]).map
        (fun s => (getLastRuleExpectingChain s.rules).isNone) = some true := by decide +kernel
  obtain ⟨s, hs, hnone⟩ := Option.map_eq_some_iff.mp hend
  refine ⟨s, hs, (chains_closed_iff ?_ hs).mpr (Option.isNone_iff_eq_none.mp hnone)⟩
  refine ⟨trivial, fun s₁ h₁ => ⟨trivial, fun s₂ h₂ => ⟨?_, fun _ _ => trivial⟩⟩⟩
  obtain ⟨s', hs', hnone'⟩ := Option.map_eq_some_iff.mp hmarker
  have hrun : (initial []).run [denyRule 1 true, memberRule] = some s₂ := by
    rw [run_cons, h₁, Option.bind_some, run_cons, h₂]
    rfl
  cases hs'.symm.trans hrun
  exact Option.isNone_iff_eq_none.mp hnone'

/-- **Chains stay open**: at the end of the text, at a marker, and at an update. -/
theorem chains_left_open :
    (∃ s, (initial []).run [denyRule 1 true] = some s ∧ ∃ c ∈ s.rules, ¬Closed c) ∧
      (∃ s, (initial []).run
          [denyRule 1 true, .basic (.secMarker (bytesOf "END")), memberRule] = some s ∧
        ∃ c ∈ s.rules, ¬Closed c) ∧
      ∃ s, (initial []).run [denyRule 1 false, denyRule 2 false,
          .secRuleUpdateActionByID [.id 1] (some [.chain])] = some s ∧
        ∃ c ∈ s.rules, ¬Closed c := by
  have hopen : ∀ {ds}, ((initial []).run ds).map
      (fun s => s.rules.any (fun c => (lastRule c).hasChain)) = some true →
      ∃ s, (initial []).run ds = some s ∧ ∃ c ∈ s.rules, ¬Closed c := by
    intro ds h
    obtain ⟨s, hs, hany⟩ := Option.map_eq_some_iff.mp h
    obtain ⟨c, hc, hchain⟩ := any_eq_true.mp hany
    refine ⟨s, hs, c, hc, fun hclosed => ?_⟩
    rw [closed_iff.mp hclosed] at hchain
    cases hchain
  exact ⟨hopen (by decide +kernel), hopen (by decide +kernel), hopen (by decide +kernel)⟩

end Coraza.Seclang
