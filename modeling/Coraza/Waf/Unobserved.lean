import Coraza.Waf.RuleGroup

/-!
# Changes that a rule does not observe

A change of a transaction is unobserved by some rules if it leaves alone what the test of a
rule reads and commutes with everything that such a test does.  Then testing first and
changing afterwards is the same as changing first (`Unobserved.test`).  The history of
a chain is such a change, so a test leaves it as it is (`Rule.test_steps`) and does not
depend on it.
-/

namespace Coraza.Waf

open Go

/-- A change `g` that the tests of some rules do not observe. -/
structure Unobserved (labels : List RuleLabel) (rules : List Rule)
    (g : Transaction → Transaction) : Prop where
  vars : ∀ tx, (g tx).vars = tx.vars
  asked : ∀ tx, (g tx).asked = tx.asked
  capture : ∀ tx, (g tx).capture = tx.capture
  lastPhase : ∀ tx, (g tx).lastPhase = tx.lastPhase
  ruleRemoveTargetByID : ∀ tx, (g tx).ruleRemoveTargetByID = tx.ruleRemoveTargetByID
  setVars : ∀ (tx : Transaction) vars, g { tx with vars } = { g tx with vars }
  setAsked : ∀ (tx : Transaction) asked, g { tx with asked } = { g tx with asked }
  setCapture : ∀ (tx : Transaction) capture, g { tx with capture } = { g tx with capture }
  action : ∀ r ∈ rules, ∀ a ∈ r.actions, a.type = .nondisruptive → ∀ tx,
    g (a.evaluate labels r tx) = a.evaluate labels r (g tx)

section

variable {env : RuleEnv} {rules : List Rule} {g : Transaction → Transaction}

variable (hg : Unobserved env.labels rules g)
include hg

theorem Unobserved.modifyVariables (tx : Transaction)
    (f : Variables → Variables) : (g tx).modifyVariables f = g (tx.modifyVariables f) := by
  unfold Transaction.modifyVariables
  rw [hg.setVars tx (f tx.vars), hg.vars]

variable {r : Rule}

theorem Unobserved.matchVariable (hr : r ∈ rules) (tx : Transaction) (md : MatchData) :
    r.matchVariable env.labels (g tx) md = g (r.matchVariable env.labels tx md) := by
  have hfold : ∀ (as : List Action) (tx : Transaction),
      (∀ a ∈ as, a ∈ r.actions ∧ a.type = .nondisruptive) →
      as.foldl (fun tx a => a.evaluate env.labels r tx) (g tx)
        = g (as.foldl (fun tx a => a.evaluate env.labels r tx) tx) := by
    intro as
    induction as with
    | nil => exact fun tx _ => rfl
    | cons a as ih =>
      intro tx h
      obtain ⟨ha, htype⟩ := h a (List.mem_cons_self ..)
      rw [List.foldl_cons, ← hg.action r hr a ha htype]
      exact ih _ (fun b hb => h b (List.mem_cons_of_mem _ hb))
  have hmem : ∀ a ∈ r.actions.filter (fun a => a.type = .nondisruptive),
      a ∈ r.actions ∧ a.type = .nondisruptive := by
    intro a ha
    obtain ⟨ha, htype⟩ := List.mem_filter.mp ha
    exact ⟨ha, of_decide_eq_true htype⟩
  unfold Rule.matchVariable Transaction.matchVariable
  rw [hg.modifyVariables]
  exact hfold _ _ hmem

theorem Unobserved.executeOperator (op : RuleOperatorParams) (data : Bytes) (tx : Transaction) :
    Rule.executeOperator op data (g tx)
      = ((Rule.executeOperator op data tx).1, g (Rule.executeOperator op data tx).2) := by
  have h : ∀ vars, g { tx with vars, asked := tx.asked + 1 }
      = { g tx with vars, asked := (g tx).asked + 1 } := by
    intro vars
    rw [hg.setAsked { tx with vars } (tx.asked + 1), hg.setVars tx vars, hg.asked]
  have hresult : op.operator.evaluate (g tx).asked (g tx).vars (g tx).capture (g tx).lastPhase data
      = op.operator.evaluate tx.asked tx.vars tx.capture tx.lastPhase data := by
    rw [hg.asked, hg.vars, hg.capture, hg.lastPhase]
  unfold Rule.executeOperator
  rw [hresult, h]

theorem Unobserved.testValue (hr : r ∈ rules)
    (op : RuleOperatorParams) (level : Nat) (arg : Match) (tx : Transaction)
    (mds : List MatchData) (carg : Bytes) :
    r.testValue env.labels op level arg (g tx, mds) carg
      = Prod.map g id (r.testValue env.labels op level arg (tx, mds) carg) := by
  unfold Rule.testValue
  dsimp only
  rw [hg.executeOperator]
  split
  · rw [hg.matchVariable hr, hg.vars]
    rfl
  · rfl

theorem Unobserved.testArg (hr : r ∈ rules)
    (op : RuleOperatorParams) (level : Nat) (state : Transaction × List MatchData) (arg : Match) :
    r.testArg env.labels op level (Prod.map g id state) arg
      = Prod.map g id (r.testArg env.labels op level state arg) :=
  List.foldl_hom (Prod.map g id)
    (fun state carg => hg.testValue hr op level arg state.1 state.2 carg)

theorem Unobserved.testTarget (hr : r ∈ rules)
    (op : RuleOperatorParams) (level : Nat) (ecol : List RuleVariableParams)
    (state : Transaction × List MatchData) (v : RuleVariableParams) :
    r.testTarget env op level ecol (Prod.map g id state) v
      = Prod.map g id (r.testTarget env op level ecol state v) := by
  obtain ⟨tx, mds⟩ := state
  have hstart : (({ g tx with asked := (g tx).asked + 1 } : Transaction), mds)
      = Prod.map g id (({ tx with asked := tx.asked + 1 } : Transaction), mds) := by
    rw [Prod.map_apply, hg.setAsked tx (tx.asked + 1), hg.asked, id_eq]
  unfold Rule.testTarget
  dsimp only [Prod.map_apply, id_eq]
  rw [hstart, hg.vars, hg.asked]
  exact List.foldl_hom (Prod.map g id) (fun state arg => hg.testArg hr op level state arg)

/-- **A test does not observe the change.** -/
theorem Unobserved.test (hr : r ∈ rules) (level : Nat) (tx : Transaction) :
    r.test env level (g tx) = (g (r.test env level tx).1, (r.test env level tx).2) := by
  have hstart : ({ g tx with capture := r.capture } : Transaction).modifyVariables
        r.setRuleCollection
      = g (({ tx with capture := r.capture } : Transaction).modifyVariables
        r.setRuleCollection) := by
    rw [← hg.modifyVariables, hg.setCapture tx r.capture]
  unfold Rule.test
  dsimp only
  rw [hstart]
  split
  · rw [hg.matchVariable hr, hg.vars]
  · rename_i op _
    rw [hg.ruleRemoveTargetByID]
    generalize Transaction.modifyVariables _ _ = tx₀
    have hround := fun state v =>
      hg.testTarget hr op level (tx₀.ruleRemoveTargetByID r.rid) state v
    have hloop : r.targets.foldl _ (Prod.map g id (tx₀, [])) = Prod.map g id _ :=
      List.foldl_hom (Prod.map g id) hround
    exact hloop

end

/-! ### The history of a chain -/

variable (labels : List RuleLabel)

theorem ctl_steps (steps : List ChainStep) (c : Ctl) (tx : Transaction) :
    ({ c.evaluate labels tx with steps } : Transaction) = c.evaluate labels { tx with steps } := by
  unfold Ctl.evaluate
  split
  any_goals rfl
  any_goals (split_ifs <;> rfl)
  all_goals
    refine (List.foldl_hom (fun tx : Transaction => { tx with steps }) ?_).symm
    exact fun _ _ => rfl

theorem action_steps (steps : List ChainStep) (r : Rule) (a : Action) (tx : Transaction) :
    ({ a.evaluate labels r tx with steps } : Transaction)
      = a.evaluate labels r { tx with steps } := by
  have hinterrupt : ∀ i : Interruption, ({ tx.interrupt i with steps } : Transaction)
        = ({ tx with steps } : Transaction).interrupt i := by
    intro i
    unfold Transaction.interrupt
    dsimp only
    split
    · rfl
    · split <;> rfl
    · rfl
  unfold Action.evaluate
  split
  any_goals rfl
  any_goals exact hinterrupt _
  · unfold Transaction.allow
    split <;> rfl
  · exact ctl_steps labels steps _ tx

theorem unobserved_steps (rules : List Rule) (steps : List ChainStep) :
    Unobserved labels rules (fun tx => { tx with steps }) where
  vars := fun _ => rfl
  asked := fun _ => rfl
  capture := fun _ => rfl
  lastPhase := fun _ => rfl
  ruleRemoveTargetByID := fun _ => rfl
  setVars := fun _ _ => rfl
  setAsked := fun _ _ => rfl
  setCapture := fun _ _ => rfl
  action := fun r _ a _ _ tx => action_steps labels steps r a tx

theorem Rule.test_history (env : RuleEnv) (r : Rule) (level : Nat) (tx : Transaction)
    (steps : List ChainStep) :
    r.test env level { tx with steps }
      = ({ (r.test env level tx).1 with steps }, (r.test env level tx).2) :=
  (unobserved_steps env.labels [r] steps).test (List.mem_singleton.mpr rfl) level tx

theorem Rule.test_steps (env : RuleEnv) (r : Rule) (level : Nat) (tx : Transaction) :
    (r.test env level tx).1.steps = tx.steps := by
  have h := r.test_history env level tx tx.steps
  exact congrArg (fun out => out.1.steps) h

end Coraza.Waf
