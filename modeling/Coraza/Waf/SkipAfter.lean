import Coraza.Waf.ActionSteps
import Coraza.Waf.CallSteps
import Coraza.Waf.RuntimeRemovals

/-!
# Skipping to a marker

`skipAfter` passes over the rules of a phase up to a marker.  The name of the marker is kept in
the transaction until a rule with this marker is reached, and the end of a phase does not forget
it: if the phase never reaches the marker, the next phases go on skipping.  A phase misses a
marker that does not follow the rule, one that was taken out of the transaction by its id, 0, and
any marker after an interruption.  This does no harm if the next phase begins with the marker.

`carriedSkips` are the rules that a phase passes over for a `skipAfter` from before, and
`skipAfter_confined` says that there are none if the rules are `Confining`: nothing takes out the
id 0, and the marker of each `skipAfter` is the first of all rules, or it follows and the rule does
not interrupt.
-/

namespace Coraza.Waf

open Go Collections Seclang

/-! ### What is skipped for an earlier phase -/

/-- The rule would be looked at, if nothing were skipped up to a marker. -/
def passedOver (phase : Nat) (r : Rule) (tx : Transaction) : Bool :=
  r.runsIn phase = true ∧ ¬Excluded tx r.id ∧ r.secMark ≠ tx.skipAfter

/-- The rules that a phase passes over for a `skipAfter` from before the phase. -/
def carriedSkips (phase : Nat) : RuleGroup → Transaction → List RuleChain
  | [], _ => []
  | c :: rest, tx =>
    if tx.skipAfter = [] then []
    else match visit phase c.starter tx with
      | .next tx' =>
        (if passedOver phase c.starter tx then [c] else []) ++ carriedSkips phase rest tx'
      | _ => []

theorem carriedSkips_of_nil {phase : Nat} {tx : Transaction} (h : tx.skipAfter = []) :
    ∀ rg : RuleGroup, carriedSkips phase rg tx = [] := by
  intro rg
  cases rg with
  | nil => rfl
  | cons c rest => exact if_pos h

/-! ### Rules that reach their markers -/

def RuleChain.skipTargets (c : RuleChain) : List Bytes :=
  (c.starter :: c.members).flatMap (fun r => r.actions.filterMap Action.skipTarget)

def MarkerIn (rg : RuleGroup) (marker : Bytes) : Prop :=
  ∃ d ∈ rg, d.starter.secMark = marker ∧ d.starter.id = 0 ∧ d.starter.phase = 0

def MarkerFirst (rg : RuleGroup) (marker : Bytes) : Prop := MarkerIn (rg.take 1) marker

/-- The action takes out the rules and markers with the id. -/
def Action.removesID (labels : List RuleLabel) (id : Int) : Action → Bool
  | .ctl c => c.removesID labels id
  | _ => false

/-- What is asked of the actions of a chain, with the rules that follow it in a group. -/
def ConfiningChain (rg rest : RuleGroup) (c : RuleChain) : Prop :=
  (∀ marker ∈ c.skipTargets, MarkerFirst rg marker ∨ MarkerIn rest marker ∧
    (c.starter.phase ≠ phaseLogging →
      ∀ r ∈ c.starter :: c.members, ∀ a ∈ r.actions, a.interruption r = none)) ∧
    ∀ r ∈ c.starter :: c.members, ∀ a ∈ r.actions, a.removesID rg.labels 0 = false

def ConfiningFrom (rg : RuleGroup) : RuleGroup → Prop
  | [] => True
  | c :: rest => ConfiningChain rg rest c ∧ ConfiningFrom rg rest

/-- **The rules reach their markers**: no `ctl` takes out the id of the markers, and the marker of
each `skipAfter` is the first of all, or follows the rule, which does not interrupt outside the
logging phase. -/
def Confining (rg : RuleGroup) : Prop := ConfiningFrom rg rg

instance (rg : RuleGroup) (marker : Bytes) : Decidable (MarkerIn rg marker) :=
  inferInstanceAs (Decidable (∃ d ∈ rg, _))

instance (rg : RuleGroup) (marker : Bytes) : Decidable (MarkerFirst rg marker) :=
  inferInstanceAs (Decidable (MarkerIn (rg.take 1) marker))

instance (rg rest : RuleGroup) (c : RuleChain) : Decidable (ConfiningChain rg rest c) := by
  unfold ConfiningChain
  infer_instance

instance instDecidableConfiningFrom (rg : RuleGroup) :
    ∀ rest : RuleGroup, Decidable (ConfiningFrom rg rest)
  | [] => inferInstanceAs (Decidable True)
  | c :: rest =>
    have := instDecidableConfiningFrom rg rest
    inferInstanceAs (Decidable (ConfiningChain rg rest c ∧ ConfiningFrom rg rest))

instance (rg : RuleGroup) : Decidable (Confining rg) :=
  inferInstanceAs (Decidable (ConfiningFrom rg rg))

/-! ### One chain -/

theorem excluded_action (labels : List RuleLabel) (r : Rule) (tx : Transaction) {a : Action}
    {id : Int} (h : a.removesID labels id = false) :
    Excluded (a.evaluate labels r tx) id ↔ Excluded tx id := by
  cases a with
  | ctl c =>
    refine (excluded_ctl labels tx c id).trans (or_iff_left ?_)
    rw [show c.removesID labels id = false from h]
    exact Bool.false_ne_true
  | _ => exact (sameRemovals_action labels r tx rfl).excluded id

/-- What the evaluation of a chain keeps: the id of the markers is not taken out, and what is
skipped to is a marker of the chain. -/
def SkipsOwn (c : RuleChain) (tx : Transaction) : Prop :=
  ¬Excluded tx 0 ∧ (tx.skipAfter ≠ [] → tx.skipAfter ∈ c.skipTargets)

section

variable {iteration : Nat → Iteration} {rg rest : RuleGroup} {c : RuleChain}

theorem skipsOwn_step (hc : ConfiningChain rg rest c) {tx tx' : Transaction}
    (hstep : RuleStep rg.labels (c.starter :: c.members) tx tx') (h : SkipsOwn c tx) :
    SkipsOwn c tx' := by
  cases hstep with
  | @action r hr a ha =>
    refine ⟨fun hout => h.1 ((excluded_action _ r tx (hc.2 r hr a ha)).mp hout), ?_⟩
    rw [skipAfter_evaluate]
    cases htarget : a.skipTarget with
    | none => exact h.2
    | some marker =>
      exact fun _ => List.mem_flatMap.mpr ⟨r, hr, List.mem_filterMap.mpr ⟨a, ha, htarget⟩⟩
  | _ => exact h

theorem skipsOwn_evaluateRule (hc : ConfiningChain rg rest c) {tx : Transaction}
    (h : SkipsOwn c tx) : SkipsOwn c (evaluateRule ⟨rg.labels, iteration⟩ c tx) := by
  have hsteps : RuleSteps rg.labels (c.starter :: c.members) tx
      (evaluateRule ⟨rg.labels, iteration⟩ c tx) :=
    @steps_evaluateRule ⟨rg.labels, iteration⟩ _ c (fun _ hr => hr) tx
  exact hsteps.invariant (fun _ _ => skipsOwn_step hc) h

/-- Rules without an interrupting action keep the interruption. -/
theorem interruption_evaluateRule {env : RuleEnv}
    (h : ∀ r ∈ c.starter :: c.members, ∀ a ∈ r.actions, a.interruption r = none)
    (tx : Transaction) : (evaluateRule env c tx).interruption = tx.interruption := by
  refine (steps_evaluateRule c (fun _ hr => hr) tx).invariant
    (P := fun tx' => tx'.interruption = tx.interruption) ?_ rfl
  intro tx₁ tx₂ hstep hkept
  cases hstep with
  | action hr ha => exact (interruption_evaluate env.labels (h _ hr _ ha) tx₁).trans hkept
  | _ => exact hkept

end

/-! ### One phase -/

/-- Nothing is left to skip to but the first marker, and the markers are not taken out. -/
def NothingPending (rg : RuleGroup) (tx : Transaction) : Prop :=
  ¬Excluded tx 0 ∧ (tx.skipAfter = [] ∨ MarkerFirst rg tx.skipAfter)

/-- What is skipped to is the first marker, or is reached by the rules that follow. -/
structure Settled (rg : RuleGroup) (phase : Nat) (rest : RuleGroup) (tx : Transaction) : Prop where
  kept : ¬Excluded tx 0
  ahead : tx.skipAfter ≠ [] → MarkerFirst rg tx.skipAfter ∨
    ¬(tx.isInterrupted = true ∧ phase ≠ phaseLogging) ∧ MarkerIn rest tx.skipAfter

section

variable {iteration : Nat → Iteration} {phase : Nat} {rg rest : RuleGroup} {c : RuleChain}
  {tx : Transaction}

theorem Settled.next (h : Settled rg phase (c :: rest) tx)
    (hc : ¬(c.starter.secMark = tx.skipAfter ∧ c.starter.id = 0 ∧ c.starter.phase = 0)) :
    Settled rg phase rest tx := by
  refine ⟨h.kept, fun hskip => (h.ahead hskip).imp_right (fun hahead => ⟨hahead.1, ?_⟩)⟩
  obtain ⟨d, hd, hmarker⟩ := hahead.2
  rcases List.mem_cons.mp hd with rfl | hd
  · exact (hc hmarker).elim
  · exact ⟨d, hd, hmarker⟩

theorem settled_of_nil {tx' : Transaction} (h : ¬Excluded tx' 0) (hskip : tx'.skipAfter = []) :
    Settled rg phase rest tx' := ⟨h, fun hne => (hne hskip).elim⟩

/-- The switch over `AllowType` changes nothing else. -/
theorem visitAllow_cases (phase : Nat) (tx : Transaction) : visitAllow phase tx = .evaluate ∨
      ∃ allowType, visitAllow phase tx = .stop { tx with allowType } := by
  unfold visitAllow
  split
  · exact .inl rfl
  · exact .inr ⟨tx.allowType, rfl⟩
  · split_ifs
    · exact .inr ⟨tx.allowType, rfl⟩
    · exact .inr ⟨.unset, rfl⟩
    · exact .inl rfl
  · exact .inr ⟨tx.allowType, rfl⟩

theorem visit_settled (h : Settled rg phase (c :: rest) tx) : match visit phase c.starter tx with
    | .stop tx' => NothingPending rg tx'
    | .next tx' => Settled rg phase rest tx'
    | .evaluate => tx.skipAfter = [] ∧ ¬(tx.isInterrupted = true ∧ phase ≠ phaseLogging) := by
  unfold visit
  by_cases hint : tx.isInterrupted = true ∧ phase ≠ phaseLogging
  · rw [if_pos hint]
    refine ⟨h.kept, or_iff_not_imp_left.mpr (fun hskip => ?_)⟩
    exact (h.ahead hskip).resolve_right (fun hahead => hahead.1 hint)
  rw [if_neg hint]
  by_cases hphase : c.starter.phase ≠ 0 ∧ c.starter.phase ≠ phase
  · rw [if_pos hphase]
    exact h.next (fun hmarker => hphase.1 hmarker.2.2)
  rw [if_neg hphase]
  by_cases hid : c.starter.id ∈ tx.ruleRemoveByID
  · rw [if_pos hid]
    exact h.next (fun hmarker => h.kept (.inl (hmarker.2.1 ▸ hid)))
  rw [if_neg hid]
  by_cases hrange : ∃ range ∈ tx.ruleRemoveByIDRanges,
      range.1 ≤ c.starter.id ∧ c.starter.id ≤ range.2
  · rw [if_pos hrange]
    exact h.next (fun hmarker => h.kept (.inr (hmarker.2.1 ▸ hrange)))
  rw [if_neg hrange]
  by_cases hskip : tx.skipAfter ≠ []
  · rw [if_pos hskip]
    by_cases hmark : c.starter.secMark = tx.skipAfter
    · rw [if_pos hmark]
      exact settled_of_nil h.kept rfl
    · rw [if_neg hmark]
      exact h.next (fun hmarker => hmark hmarker.1)
  rw [if_neg hskip]
  rw [not_not] at hskip
  by_cases hcount : tx.skip > 0
  · rw [if_pos hcount]
    exact settled_of_nil h.kept hskip
  rw [if_neg hcount]
  rcases visitAllow_cases phase tx with hallow | ⟨allowType, hallow⟩
  · rw [hallow]
    exact ⟨hskip, hint⟩
  · rw [hallow]
    exact ⟨h.kept, .inl hskip⟩

/-- A chain that is evaluated skips to the first marker, or to one that follows. -/
theorem settled_evaluateRule (hc : ConfiningChain rg rest c)
    (hruns : c.starter.runsIn phase = true) (hkept : ¬Excluded tx 0) (hskip : tx.skipAfter = [])
    (hint : ¬(tx.isInterrupted = true ∧ phase ≠ phaseLogging)) :
    Settled rg phase rest (evaluateRule ⟨rg.labels, iteration⟩ c tx) := by
  have hown : SkipsOwn c (evaluateRule ⟨rg.labels, iteration⟩ c tx) :=
    skipsOwn_evaluateRule hc ⟨hkept, fun hne => (hne hskip).elim⟩
  refine ⟨hown.1, fun hne => (hc.1 _ (hown.2 hne)).imp_right (fun hahead => ⟨fun hstop => ?_,
    hahead.1⟩)⟩
  have hphase : c.starter.phase ≠ phaseLogging := by
    rcases of_decide_eq_true hruns with h | h
    · rw [h]
      decide
    · rw [h]
      exact hstop.2
  refine hint ⟨?_, hstop.2⟩
  have hsame : (evaluateRule ⟨rg.labels, iteration⟩ c tx).interruption = tx.interruption :=
    interruption_evaluateRule (hahead.2 hphase) tx
  exact (congrArg Option.isSome hsame).symm.trans hstop.1

end

/-- **A phase ends without anything to skip to** but the first marker. -/
theorem evalLoop_settled (iteration : Nat → Iteration) (phase : Nat) (rg rest : RuleGroup) :
    ConfiningFrom rg rest → ∀ tx, Settled rg phase rest tx →
      NothingPending rg (rest.evalLoop ⟨rg.labels, iteration⟩ phase tx) := by
  induction rest with
  | nil =>
    intro _ tx h
    refine ⟨h.kept, or_iff_not_imp_left.mpr (fun hskip => ?_)⟩
    refine (h.ahead hskip).resolve_right (fun hahead => ?_)
    obtain ⟨d, hd, -⟩ := hahead.2
    cases hd
  | cons c rest ih =>
    intro hrg tx h
    have hvisit := visit_settled h
    unfold RuleGroup.evalLoop
    cases hv : visit phase c.starter tx with
    | stop tx' =>
      rw [hv] at hvisit
      exact hvisit
    | next tx' =>
      rw [hv] at hvisit
      exact ih hrg.2 tx' hvisit
    | evaluate =>
      rw [hv] at hvisit
      exact ih hrg.2 _ (settled_evaluateRule hrg.1 (visit_evaluate hv) h.kept hvisit.1 hvisit.2)

/-! ### Runs -/

variable {iteration : Nat → Iteration}

theorem nothingPending_eval {rg : RuleGroup} (hrg : Confining rg)
    (phase : Nat) {tx : Transaction} (h : NothingPending rg tx) :
    NothingPending rg ((rg.evaluator iteration).eval phase tx) :=
  evalLoop_settled iteration phase rg rg hrg (beginPhase phase tx)
    ⟨h.1, fun hskip => .inl (h.2.resolve_left hskip)⟩

theorem nothingPending_call {rg : RuleGroup} (hrg : Confining rg)
    {waf : WAF} (call : Call) {tx : Transaction} (h : NothingPending rg tx) :
    NothingPending rg (call.run waf (rg.evaluator iteration) tx) := by
  refine Call.run_keeps (P := NothingPending rg) ?_ (fun _ => nothingPending_eval hrg _) call h
  intro tx₁ tx₂ hstep hpending
  cases hstep with
  | eval hphase hint => exact nothingPending_eval hrg _ hpending
  | _ => exact hpending

/-- A phase that begins with the marker passes over nothing. -/
theorem carriedSkips_of_nothingPending {rg : RuleGroup} {tx : Transaction} (phase : Nat)
    (h : NothingPending rg tx) : carriedSkips phase rg tx = [] := by
  rcases h.2 with hskip | ⟨d, hd, hmark, hid, hphase⟩
  · exact carriedSkips_of_nil hskip rg
  cases rg with
  | nil => cases hd
  | cons c rest =>
    obtain rfl : d = c := List.mem_singleton.mp hd
    unfold carriedSkips
    split
    · rfl
    rename_i hskip
    by_cases hint : tx.isInterrupted = true ∧ phase ≠ phaseLogging
    · have hstop : visit phase d.starter tx = .stop tx := if_pos hint
      rw [hstop]
    · have hkept : ¬Excluded tx d.starter.id := hid.symm ▸ h.1
      have hnext := visit_marker hphase hkept hint hmark.symm (hmark.symm ▸ hskip)
      have hpassed : passedOver phase d.starter tx = false :=
        decide_eq_false (fun hpassed => hpassed.2.2 hmark)
      rw [hnext, hpassed]
      exact carriedSkips_of_nil rfl rest

/-- **`skipAfter` is confined to its phase** if the rules reach their markers: after any calls, no
phase passes over rules for a `skipAfter` from before. -/
theorem skipAfter_confined (waf : WAF) (rg : RuleGroup) (iteration : Nat → Iteration)
    (vars : Variables) (calls : List Call) (phase : Nat) (hrg : Confining rg) :
    carriedSkips phase rg
      (runCalls waf (rg.evaluator iteration) calls (waf.newTransaction vars)) = [] := by
  have hrun : NothingPending rg
      (runCalls waf (rg.evaluator iteration) calls (waf.newTransaction vars)) := by
    refine List.foldlRecOn calls _ ⟨?_, .inl rfl⟩
      (fun tx h call _ => nothingPending_call hrg call h)
    rintro (hid | ⟨range, hrange, -⟩)
    · cases hid
    · cases hrange
  exact carriedSkips_of_nothingPending phase hrun

/-- A rule of the first phase that skips to a marker, which may be missing, and a rule of the
second phase that denies. -/
def skippingRules (marker : Bool) : List Directive :=
  [.secAction (some [.id 1, .phase 1, .nolog, .skipAfter (bytesOf "END")])] ++
    (if marker then [.secMarker (bytesOf "END")] else []) ++
    [.secAction (some [.id 2, .phase 2, .deny])]

def afterHeaders (rg : RuleGroup) : Transaction :=
  runCalls (WAF.new (fun _ => none)) (rg.evaluator (fun _ => .stored)) [.processRequestHeaders]
    ((WAF.new (fun _ => none)).newTransaction .new)

theorem skipAfter_confined_marker : ∃ s, parse [] (skippingRules true) = some s ∧
    Confining s.rules ∧ carriedSkips 2 s.rules (afterHeaders s.rules) = [] := by
  have hparse : (parse [] (skippingRules true)).map (fun s => decide (Confining s.rules))
      = some true := by decide +kernel
  obtain ⟨s, hs, hconfining⟩ := Option.map_eq_some_iff.mp hparse
  have hrg : Confining s.rules := of_decide_eq_true hconfining
  exact ⟨s, hs, hrg, skipAfter_confined (WAF.new (fun _ => none)) s.rules (fun _ => .stored) .new
    [.processRequestHeaders] 2 hrg⟩

/-- **A phase goes on skipping for the one before.**  Without the marker, the rule of the second
phase is passed over and does not deny. -/
theorem skipAfter_carried : (parse [] (skippingRules false)).map (fun s =>
      ((carriedSkips 2 s.rules (afterHeaders s.rules)).map (fun c => c.starter.id),
        ((s.rules.evaluator (fun _ => .stored)).eval 2 (afterHeaders s.rules)).isInterrupted))
      = some ([2], false) ∧
    (parse [] (skippingRules true)).map (fun s =>
      ((s.rules.evaluator (fun _ => .stored)).eval 2 (afterHeaders s.rules)).isInterrupted)
      = some true := by
  constructor <;> decide +kernel

end Coraza.Waf
