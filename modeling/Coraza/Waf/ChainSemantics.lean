import Coraza.Seclang.RuleParser
import Coraza.Waf.Unobserved

/-!
# The meaning of a chain

A chain is meant to be tested rule by rule, in order, until a rule does not match; only if
all rules matched, the flow and disruptive actions of the starter are executed, and those of
the members never are.  `ChainSemantics` states this of the history that an evaluation
leaves in the transaction.

A rule takes itself for the starter if the id of its parent is `0`.  A starter with an id
passes it to its members, and then the evaluation is as meant
(`evaluate_steps_of_id`).  The members of a starter without an id take themselves for
starters: each goes through the rest of the chain and executes its own actions, and the
loop then goes through the rest once more.  As long as some rule does not match, this
cannot be seen; `chain_evaluation_iff` is the exact condition.
-/

namespace Coraza.Waf

open Go Seclang List

/-! ### The specification -/

def testsOf (steps : List ChainStep) : List (Nat × Bool) :=
  steps.filterMap (fun
    | .tested following matched => some (following, matched)
    | .acted _ _ => none)

def actsOf (steps : List ChainStep) : List (Nat × Nat) :=
  steps.filterMap (fun
    | .tested _ _ => none
    | .acted following index => some (following, index))

def finalIndices (r : Rule) : List Nat :=
  (r.actions.zipIdx.filter (fun a => a.1.isFinal)).map Prod.snd

/-- The last `n` rules of a chain are tested in order, each at most once, up to the first
that does not match. -/
inductive InOrder : Nat → List (Nat × Bool) → Prop where
  | done : InOrder 0 []
  | stop (n : Nat) : InOrder (n + 1) [(n, false)]
  | next {n : Nat} {tests : List (Nat × Bool)} (h : InOrder n tests) :
      InOrder (n + 1) ((n, true) :: tests)

/-- **What the evaluation of a chain is meant to do.** -/
structure ChainSemantics (c : RuleChain) (steps : List ChainStep) : Prop where
  /-- The rules are tested in order, each at most once, up to the first that does not match. -/
  inOrder : InOrder (c.members.length + 1) (testsOf steps)
  /-- Only actions of the starter are executed. -/
  onlyStarter : ∀ act ∈ actsOf steps, act.1 = c.members.length
  /-- They are all executed if every rule matched, and otherwise none is. -/
  executed : (actsOf steps).map Prod.snd
    = if ∀ test ∈ testsOf steps, test.2 = true then finalIndices c.starter else []

theorem InOrder.nodup {n : Nat} {tests : List (Nat × Bool)} (h : InOrder n tests) :
    (tests.map Prod.fst).Nodup ∧ ∀ i ∈ tests.map Prod.fst, i < n := by
  induction h with
  | done => exact ⟨nodup_nil, fun i hi => absurd hi not_mem_nil⟩
  | stop n => simp
  | @next n tests h ih =>
    refine ⟨List.nodup_cons.mpr ⟨fun hmem => Nat.lt_irrefl n (ih.2 n hmem), ih.1⟩, ?_⟩
    intro i hi
    rcases List.mem_cons.mp hi with rfl | hi
    · exact Nat.lt_succ_self _
    · exact Nat.lt_succ_of_lt (ih.2 i hi)

/-! ### The tests of a list of rules -/

def matchesAll (env : RuleEnv) : List Rule → Nat → Transaction → Bool
  | [], _, _ => true
  | r :: rest, level, tx =>
    !(r.test env level tx).2.isEmpty && matchesAll env rest (level + 1) (r.test env level tx).1

def testTrace (env : RuleEnv) : List Rule → Nat → Transaction → List ChainStep
  | [], _, _ => []
  | r :: rest, level, tx =>
    .tested rest.length (!(r.test env level tx).2.isEmpty) ::
      if (r.test env level tx).2.isEmpty then []
      else testTrace env rest (level + 1) (r.test env level tx).1

section

variable {env : RuleEnv}

theorem matchesAll_history (env : RuleEnv) (steps : List ChainStep)
    (rules : List Rule) (level : Nat) (tx : Transaction) :
    matchesAll env rules level { tx with steps } = matchesAll env rules level tx := by
  induction rules generalizing level tx with
  | nil => rfl
  | cons r rest ih =>
    rw [matchesAll, matchesAll, r.test_history env level tx steps, ih]

theorem testTrace_history (steps : List ChainStep) : ∀ (rules : List Rule) (level : Nat)
    (tx : Transaction), testTrace env rules level { tx with steps }
      = testTrace env rules level tx := by
  intro rules
  induction rules with
  | nil => exact fun _ _ => rfl
  | cons r rest ih =>
    intro level tx
    rw [testTrace, testTrace, r.test_history env level tx steps, ih]

theorem testsOf_append (l l' : List ChainStep) : testsOf (l ++ l') = testsOf l ++ testsOf l' :=
  filterMap_append ..

theorem actsOf_append (l l' : List ChainStep) : actsOf (l ++ l') = actsOf l ++ actsOf l' :=
  filterMap_append ..

theorem actsOf_testTrace (rules : List Rule) (level : Nat) (tx : Transaction) :
    actsOf (testTrace env rules level tx) = [] := by
  induction rules generalizing level tx with
  | nil => rfl
  | cons r rest ih =>
    rw [testTrace]
    split
    · rfl
    · exact ih _ _

theorem inOrder_testTrace (rules : List Rule) (level : Nat) (tx : Transaction) :
    InOrder rules.length (testsOf (testTrace env rules level tx)) := by
  induction rules generalizing level tx with
  | nil => exact .done
  | cons r rest ih =>
    rw [testTrace]
    cases h : (r.test env level tx).2.isEmpty with
    | true => exact .stop rest.length
    | false => exact .next (ih _ _)

/-- All tests in the history matched if and only if all rules match. -/
theorem testTrace_matched (rules : List Rule) (level : Nat) (tx : Transaction) :
    (∀ test ∈ testsOf (testTrace env rules level tx), test.2 = true)
      ↔ matchesAll env rules level tx = true := by
  induction rules generalizing level tx with
  | nil => exact ⟨fun _ => rfl, fun _ test h => absurd h not_mem_nil⟩
  | cons r rest ih =>
    rw [testTrace, matchesAll]
    cases h : (r.test env level tx).2.isEmpty with
    | true => simp [testsOf]
    | false =>
      have := ih (level + 1) (r.test env level tx).1
      simp only [testsOf, Bool.not_false, Bool.true_and] at this ⊢
      rw [← this]
      simp

/-! ### The steps of an evaluation -/

variable (labels : List RuleLabel)

theorem finalActions_steps (r : Rule) (following : Nat)
    (tx : Transaction) : (r.finalActions labels following tx).steps
      = tx.steps ++ (finalIndices r).map (ChainStep.acted following) := by
  have hfold : ∀ (as : List (Action × Nat)) (tx : Transaction),
      (as.foldl (r.finalAction labels following) tx).steps
        = tx.steps ++ ((as.filter (fun a => a.1.isFinal)).map Prod.snd).map
          (ChainStep.acted following) := by
    intro as
    induction as with
    | nil => exact fun tx => (append_nil _).symm
    | cons a as ih =>
      intro tx
      rw [foldl_cons, ih, Rule.finalAction, filter_cons]
      have hframe := (actionFrame_evaluate labels r tx a.1).steps
      split
      · simp [hframe]
      · rfl
  exact hfold _ tx

theorem conclude_steps (r : Rule) (following : Nat) (tx : Transaction)
    (mds : List MatchData) : (r.conclude labels following tx mds).1.steps
      = tx.steps ++ (finalIndices r).map (ChainStep.acted following) := by
  rw [← finalActions_steps labels]
  unfold Rule.conclude
  split <;> rfl

theorem conclude_nonempty (r : Rule) (following : Nat)
    (tx : Transaction) {mds : List MatchData} (h : mds.isEmpty = false) :
    (r.conclude labels following tx mds).2.isEmpty = false := by
  cases mds with
  | nil => cases h
  | cons md mds =>
    unfold Rule.conclude Rule.expandFirst
    dsimp only
    split <;> rfl

def Rule.tested (env : RuleEnv) (r : Rule) (following level : Nat) (tx : Transaction) :
    Transaction :=
  { (r.test env level tx).1 with
    steps := tx.steps ++ [.tested following (!(r.test env level tx).2.isEmpty)] }

theorem matchesAll_tested (rules : List Rule) (level : Nat) (r : Rule) (following level' : Nat)
    (tx : Transaction) : matchesAll env rules level (r.tested env following level' tx)
      = matchesAll env rules level (r.test env level' tx).1 :=
  matchesAll_history env _ rules level _

theorem testTrace_tested (rules : List Rule) (level : Nat) (r : Rule) (following level' : Nat)
    (tx : Transaction) : testTrace env rules level (r.tested env following level' tx)
      = testTrace env rules level (r.test env level' tx).1 :=
  testTrace_history _ rules level _

section

variable {loop : Nat → Transaction → Transaction × Option (List MatchData)} {r : Rule}
  {following level : Nat} {tx : Transaction}

theorem doEvaluateWith_unmatched (h : (r.test env level tx).2.isEmpty = true) :
    r.doEvaluateWith env loop following level tx = (r.tested env following level tx, []) := by
  unfold Rule.doEvaluateWith Rule.tested
  dsimp only
  rw [if_pos h, r.test_steps]

variable (h : (r.test env level tx).2.isEmpty = false)
include h

theorem doEvaluateWith_member
    (hparent : r.parentID ≠ noID) : r.doEvaluateWith env loop following level tx
      = (r.tested env following level tx, (r.test env level tx).2) := by
  unfold Rule.doEvaluateWith Rule.tested
  dsimp only
  rw [if_neg (by rw [h]; exact Bool.false_ne_true), if_neg hparent, r.test_steps]

theorem doEvaluateWith_starter
    (hparent : r.parentID = noID) : r.doEvaluateWith env loop following level tx
      = match loop level (r.tested env following level tx) with
        | (tx, none) => (tx, [])
        | (tx', some chained) =>
          r.conclude env.labels following tx' ((r.test env level tx).2 ++ chained) := by
  have hmatched : ¬(r.test env level tx).2.isEmpty = true := by
    rw [h]
    exact Bool.false_ne_true
  have htested : { (r.test env level tx).1 with
      steps := (r.test env level tx).1.steps ++
        [.tested following (!(r.test env level tx).2.isEmpty)] }
      = r.tested env following level tx := by
    unfold Rule.tested
    rw [r.test_steps]
  unfold Rule.doEvaluateWith
  rcases hout : loop level (r.tested env following level tx) with ⟨tx₁, _ | chained⟩
  · dsimp only
    rw [if_neg hmatched, if_pos hparent, htested, hout]
  · dsimp only
    rw [if_neg hmatched, if_pos hparent, htested, hout]

theorem doEvaluateWith_starter_some (hparent : r.parentID = noID)
    (hsome : (loop level (r.tested env following level tx)).2.isSome = true) :
    (r.doEvaluateWith env loop following level tx).1.steps
        = (loop level (r.tested env following level tx)).1.steps ++
          (finalIndices r).map (ChainStep.acted following) ∧
      (r.doEvaluateWith env loop following level tx).2.isEmpty = false := by
  rw [doEvaluateWith_starter h hparent]
  generalize loop level _ = out at hsome ⊢
  obtain ⟨tx₁, _ | chained⟩ := out
  · cases hsome
  · have hmds : ((r.test env level tx).2 ++ chained).isEmpty = false := by
      cases hmds : (r.test env level tx).2 with
      | nil => rw [hmds] at h; cases h
      | cons md mds => rfl
    exact ⟨conclude_steps .., conclude_nonempty _ _ _ _ hmds⟩

theorem doEvaluateWith_starter_none (hparent : r.parentID = noID)
    (hnone : (loop level (r.tested env following level tx)).2.isSome = false) :
    r.doEvaluateWith env loop following level tx
      = ((loop level (r.tested env following level tx)).1, []) := by
  rw [doEvaluateWith_starter h hparent]
  generalize loop level _ = out at hnone ⊢
  obtain ⟨tx₁, _ | chained⟩ := out
  · rfl
  · cases hnone

end

theorem doEvaluateWith_grows (env : RuleEnv)
    {loop : Nat → Transaction → Transaction × Option (List MatchData)}
    (hloop : ∀ level tx, tx.steps <+: (loop level tx).1.steps) (r : Rule) (following level : Nat)
    (tx : Transaction) : (r.tested env following level tx).steps
      <+: (r.doEvaluateWith env loop following level tx).1.steps := by
  have hgrow := hloop level (r.tested env following level tx)
  cases h : (r.test env level tx).2.isEmpty with
  | true => rw [doEvaluateWith_unmatched h]
  | false =>
    by_cases hparent : r.parentID = noID
    · cases hres : (loop level (r.tested env following level tx)).2.isSome with
      | true =>
        rw [(doEvaluateWith_starter_some h hparent hres).1]
        exact hgrow.trans (prefix_append ..)
      | false =>
        rw [doEvaluateWith_starter_none h hparent hres]
        exact hgrow
    · rw [doEvaluateWith_member h hparent]

theorem membersLoop_cons (env : RuleEnv) (m : Rule) (rest : List Rule) (level : Nat)
    (tx : Transaction) :
    let out := m.doEvaluateWith env (membersLoop env rest) rest.length (level + 1) tx
    (membersLoop env (m :: rest) level tx).1
        = (if out.2.isEmpty then out.1 else (membersLoop env rest (level + 1) out.1).1) ∧
      (membersLoop env (m :: rest) level tx).2.isSome
        = (!out.2.isEmpty && (membersLoop env rest (level + 1) out.1).2.isSome) := by
  rw [membersLoop]
  generalize m.doEvaluateWith env _ _ _ _ = out
  obtain ⟨tx₁, mds⟩ := out
  dsimp only
  cases mds.isEmpty with
  | true => exact ⟨rfl, rfl⟩
  | false =>
    generalize membersLoop env rest (level + 1) tx₁ = out
    obtain ⟨tx₂, _ | chained⟩ := out <;> exact ⟨rfl, rfl⟩

theorem membersLoop_grows (env : RuleEnv) : ∀ (members : List Rule) (level : Nat)
    (tx : Transaction), tx.steps <+: (membersLoop env members level tx).1.steps := by
  intro members
  induction members with
  | nil => exact fun _ tx => prefix_refl _
  | cons m rest ih =>
    intro level tx
    have hfirst := (prefix_append tx.steps _).trans
      (doEvaluateWith_grows env ih m rest.length (level + 1) tx)
    rw [(membersLoop_cons env m rest level tx).1]
    split
    · exact hfirst
    · exact hfirst.trans (ih (level + 1) _)

/-! ### Starters with an id -/

variable {r : Rule} {level : Nat} {tx : Transaction} {c : RuleChain}

theorem tested_steps {following : Nat} (h : (r.test env level tx).2.isEmpty = false) :
    (r.tested env following level tx).steps
      = tx.steps ++ [.tested following true] := by
  rw [Rule.tested, h]
  rfl

theorem tested_steps_unmatched (rest : List Rule) (h : (r.test env level tx).2.isEmpty = true) :
    (r.tested env rest.length level tx).steps
      = tx.steps ++ testTrace env (r :: rest) level tx := by
  rw [Rule.tested, testTrace, if_pos h]

/-- The history of a rule that matches and of the tests after it. -/
theorem tested_steps_matched (rest : List Rule) (h : (r.test env level tx).2.isEmpty = false) :
    (r.tested env rest.length level tx).steps
        ++ testTrace env rest (level + 1) (r.tested env rest.length level tx)
      = tx.steps ++ testTrace env (r :: rest) level tx := by
  rw [testTrace_tested, tested_steps h, testTrace, h, append_assoc]
  rfl

theorem matched_of_matchesAll {rest : List Rule}
    (h : matchesAll env (r :: rest) level tx = true) : (r.test env level tx).2.isEmpty = false := by
  rw [matchesAll, Bool.and_eq_true, Bool.not_eq_true'] at h
  exact h.1

theorem matchesAll_cons {rest : List Rule} (h : (r.test env level tx).2.isEmpty = false)
    (following : Nat) :
    matchesAll env (r :: rest) level tx
      = matchesAll env rest (level + 1) (r.tested env following level tx) := by
  rw [matchesAll_tested, matchesAll, h]
  rfl

/-- Members that know their parent are tested one after the other, and that is all. -/
theorem membersLoop_of_parent (members : List Rule) :
    (∀ m ∈ members, m.parentID ≠ noID) → ∀ (level : Nat) (tx : Transaction),
      (membersLoop env members level tx).1.steps
        = tx.steps ++ testTrace env members (level + 1) tx ∧
      (membersLoop env members level tx).2.isSome = matchesAll env members (level + 1) tx := by
  induction members with
  | nil => exact fun _ _ tx => ⟨(append_nil _).symm, rfl⟩
  | cons m rest ih =>
    intro hparent level tx
    obtain ⟨hm, hparent⟩ := List.forall_mem_cons.mp hparent
    obtain ⟨hsteps, hsome⟩ := ih hparent (level + 1) (m.tested env rest.length (level + 1) tx)
    obtain ⟨hround, hroundSome⟩ := membersLoop_cons env m rest level tx
    rw [hround, hroundSome]
    cases h : (m.test env (level + 1) tx).2.isEmpty with
    | true =>
      rw [doEvaluateWith_unmatched h]
      refine ⟨tested_steps_unmatched _ h, ?_⟩
      rw [matchesAll, h]
      rfl
    | false =>
      rw [doEvaluateWith_member h hm, h, matchesAll_cons h rest.length]
      refine ⟨?_, hsome⟩
      rw [if_neg Bool.false_ne_true, hsteps, tested_steps_matched _ h]

/-- **A starter with an id.**  Its chain is tested rule by rule; if all match, its own
actions follow. -/
theorem evaluate_steps_of_id (hlinked : WellLinked c) (hid : c.starter.id ≠ noID)
    (tx : Transaction) : (c.evaluate env tx).steps
      = tx.steps ++ testTrace env (c.starter :: c.members) 0 tx ++
        if matchesAll env (c.starter :: c.members) 0 tx then
          (finalIndices c.starter).map (ChainStep.acted c.members.length)
        else [] := by
  obtain ⟨hsteps, hsome⟩ := membersLoop_of_parent c.members
    (fun m hm => by rw [hlinked.members m hm]; exact hid) 0
    (c.starter.tested env c.members.length 0 tx)
  unfold RuleChain.evaluate RuleChain.doEvaluate
  cases h : (c.starter.test env 0 tx).2.isEmpty with
  | true =>
    rw [doEvaluateWith_unmatched h, matchesAll, h]
    simpa using tested_steps_unmatched _ h
  | false =>
    rw [matchesAll_cons h c.members.length, ← tested_steps_matched _ h, ← hsteps, ← hsome]
    cases hres : (membersLoop env c.members 0
        (c.starter.tested env c.members.length 0 tx)).2.isSome with
    | true => exact (doEvaluateWith_starter_some h hlinked.starter hres).1
    | false =>
      rw [doEvaluateWith_starter_none h hlinked.starter hres]
      simp

/-! ### Starters without an id -/

/-- Members without a parent id, one of which does not match: the tests stop there, and the
chain does not match. -/
theorem membersLoop_unmatched (members : List Rule) :
    (∀ m ∈ members, m.parentID = noID) → ∀ (level : Nat) (tx : Transaction),
      matchesAll env members (level + 1) tx = false →
      (membersLoop env members level tx).1.steps
        = tx.steps ++ testTrace env members (level + 1) tx ∧
      (membersLoop env members level tx).2.isSome = false := by
  induction members with
  | nil => exact fun _ _ _ h => Bool.noConfusion h
  | cons m rest ih =>
    intro hparent level tx hfail
    obtain ⟨hm, hparent⟩ := List.forall_mem_cons.mp hparent
    obtain ⟨hround, hroundSome⟩ := membersLoop_cons env m rest level tx
    rw [hround, hroundSome]
    cases h : (m.test env (level + 1) tx).2.isEmpty with
    | true =>
      rw [doEvaluateWith_unmatched h]
      exact ⟨tested_steps_unmatched _ h, rfl⟩
    | false =>
      rw [matchesAll_cons h rest.length] at hfail
      obtain ⟨hsteps, hsome⟩ := ih hparent (level + 1) _ hfail
      rw [doEvaluateWith_starter_none h hm hsome]
      refine ⟨?_, rfl⟩
      rw [← tested_steps_matched _ h, ← hsteps]
      rfl

theorem membersLoop_last {m : Rule} (hparent : m.parentID = noID)
    (h : (m.test env (level + 1) tx).2.isEmpty = false) :
    (membersLoop env [m] level tx).1.steps = tx.steps ++ [.tested 0 true] ++
        (finalIndices m).map (ChainStep.acted 0) ∧
      (membersLoop env [m] level tx).2.isSome = true := by
  obtain ⟨hround, hroundSome⟩ := membersLoop_cons env m [] level tx
  have hnil : (membersLoop env [] (level + 1)
      (m.tested env ([] : List Rule).length (level + 1) tx)).2.isSome = true := rfl
  obtain ⟨hsteps, hmds⟩ := doEvaluateWith_starter_some h hparent hnil
  rw [hround, hroundSome, hmds]
  refine ⟨?_, rfl⟩
  rw [← tested_steps h]
  exact hsteps

def lastTests (steps : List ChainStep) : Nat := ((testsOf steps).map Prod.fst).count 0

theorem lastTests_append (l l' : List ChainStep) :
    lastTests (l ++ l') = lastTests l + lastTests l' := by
  unfold lastTests
  rw [testsOf_append, map_append, count_append]

theorem lastTests_mono {l l' : List ChainStep} (h : l <+: l') : lastTests l ≤ lastTests l' := by
  obtain ⟨more, rfl⟩ := h
  rw [lastTests_append]
  exact Nat.le_add_right ..

theorem lastTests_single (env : RuleEnv) (m : Rule) (level : Nat) (tx : Transaction) :
    lastTests tx.steps + 1 ≤ lastTests (membersLoop env [m] level tx).1.steps := by
  have hgrow := lastTests_mono
    (doEvaluateWith_grows env (membersLoop_grows env []) m 0 (level + 1) tx)
  rw [Rule.tested, lastTests_append] at hgrow
  rw [(membersLoop_cons env m [] level tx).1]
  split <;> exact hgrow

/-- Two or more members without a parent id, all of which match: the last but one goes
through the last, and the loop around it does so again. -/
theorem membersLoop_twice (members : List Rule) :
    (∀ m ∈ members, m.parentID = noID) → 2 ≤ members.length →
    ∀ (level : Nat) (tx : Transaction), matchesAll env members (level + 1) tx = true →
      lastTests tx.steps + 2 ≤ lastTests (membersLoop env members level tx).1.steps := by
  induction members with
  | nil => exact fun _ h => absurd h (by decide)
  | cons m rest ih =>
    intro hparent hlen level tx hmatch
    obtain ⟨hfirst, hparents⟩ := List.forall_mem_cons.mp hparent
    have hm := matched_of_matchesAll hmatch
    rw [matchesAll_cons hm rest.length] at hmatch
    have hstart : lastTests tx.steps ≤ lastTests (m.tested env rest.length (level + 1) tx).steps :=
      lastTests_mono (prefix_append ..)
    obtain ⟨hround, -⟩ := membersLoop_cons env m rest level tx
    rw [hround]
    rcases rest with _ | ⟨last, _ | ⟨m₃, rest⟩⟩
    · exact absurd hlen (Nat.lt_irrefl 1)
    · -- `last` is tested in the chain of `m`, which matches, and then again
      obtain ⟨-, hsome⟩ := membersLoop_last (hparents last (List.mem_singleton.mpr rfl))
        (matched_of_matchesAll hmatch)
      obtain ⟨hout, hmds⟩ := doEvaluateWith_starter_some hm hfirst hsome
      rw [hmds, if_neg Bool.false_ne_true]
      have hinner := lastTests_single env last (level + 1)
        (m.tested env [last].length (level + 1) tx)
      have hagain := lastTests_single env last (level + 1)
        (m.doEvaluateWith env (membersLoop env [last]) [last].length (level + 1) tx).1
      rw [hout, lastTests_append] at hagain
      omega
    · -- the members after `m` already do so in its chain
      have hinner := ih hparents (Nat.le_add_left 2 _) (level + 1) _ hmatch
      generalize hrest : last :: m₃ :: rest = members at hinner hstart ⊢
      have hdone : lastTests (membersLoop env members (level + 1)
            (m.tested env members.length (level + 1) tx)).1.steps
          ≤ lastTests (m.doEvaluateWith env (membersLoop env members) members.length
            (level + 1) tx).1.steps := by
        cases hsome : (membersLoop env members (level + 1)
            (m.tested env members.length (level + 1) tx)).2.isSome with
        | true =>
          rw [(doEvaluateWith_starter_some hm hfirst hsome).1]
          exact lastTests_mono (prefix_append ..)
        | false =>
          rw [doEvaluateWith_starter_none hm hfirst hsome]
      have hgrow := lastTests_mono (membersLoop_grows env members (level + 1)
        (m.doEvaluateWith env (membersLoop env members) members.length (level + 1) tx).1)
      split <;> omega

theorem lastTests_of_inOrder {n : Nat} {steps : List ChainStep} (h : InOrder n (testsOf steps)) :
    lastTests steps ≤ 1 :=
  List.nodup_iff_count_le_one.mp h.nodup.1 0

/-! ### The exact condition -/

/-- The tests of all rules, and then the actions of the starter if all matched. -/
theorem chainSemantics_of_steps (env : RuleEnv) (tx : Transaction) {steps : List ChainStep}
    (hsteps : steps = testTrace env (c.starter :: c.members) 0 tx ++
      if matchesAll env (c.starter :: c.members) 0 tx then
        (finalIndices c.starter).map (ChainStep.acted c.members.length)
      else []) : ChainSemantics c steps := by
  have hacted : ∀ (n : Nat) (l : List Nat), testsOf (l.map (ChainStep.acted n)) = [] ∧
      actsOf (l.map (ChainStep.acted n)) = l.map (fun i => (n, i)) := by
    intro n l
    unfold testsOf actsOf
    constructor <;> simp [filterMap_map]
  have hmatched : (∀ test ∈ testsOf (testTrace env (c.starter :: c.members) 0 tx), test.2 = true)
      ↔ matchesAll env (c.starter :: c.members) 0 tx = true := testTrace_matched _ 0 tx
  cases hall : matchesAll env (c.starter :: c.members) 0 tx with
  | false =>
    rw [hall, if_neg Bool.false_ne_true, append_nil] at hsteps
    subst hsteps
    refine ⟨inOrder_testTrace (c.starter :: c.members) 0 tx, ?_, ?_⟩
    · rw [actsOf_testTrace]
      exact fun act hact => absurd hact not_mem_nil
    · rw [actsOf_testTrace, if_neg (fun h => Bool.false_ne_true (hall.symm.trans (hmatched.mp h)))]
      rfl
  | true =>
    rw [hall, if_pos rfl] at hsteps
    have htests : testsOf steps = testsOf (testTrace env (c.starter :: c.members) 0 tx) := by
      rw [hsteps, testsOf_append, (hacted _ _).1, append_nil]
    have hacts : actsOf steps = (finalIndices c.starter).map (fun i => (c.members.length, i)) := by
      rw [hsteps, actsOf_append, actsOf_testTrace, (hacted _ _).2, nil_append]
    refine ⟨htests ▸ inOrder_testTrace (c.starter :: c.members) 0 tx, ?_, ?_⟩
    · rw [hacts]
      intro act hact
      obtain ⟨i, -, rfl⟩ := List.mem_map.mp hact
      rfl
    · rw [hacts, htests, if_pos (hmatched.mpr hall), map_map]
      exact map_id _

/-- A chain of a starter without an id, not all of whose rules match. -/
theorem evaluate_steps_unmatched (hlinked : WellLinked c) (hid : c.starter.id = noID)
    (hfail : matchesAll env (c.starter :: c.members) 0 tx = false) :
    (c.evaluate env tx).steps = tx.steps ++ testTrace env (c.starter :: c.members) 0 tx := by
  unfold RuleChain.evaluate RuleChain.doEvaluate
  cases h : (c.starter.test env 0 tx).2.isEmpty with
  | true =>
    rw [doEvaluateWith_unmatched h]
    exact tested_steps_unmatched _ h
  | false =>
    rw [matchesAll_cons h c.members.length] at hfail
    obtain ⟨hsteps, hsome⟩ := membersLoop_unmatched c.members
      (fun m hm => (hlinked.members m hm).trans hid) 0 _ hfail
    rw [doEvaluateWith_starter_none h hlinked.starter hsome, ← tested_steps_matched _ h]
    exact hsteps

theorem evaluate_steps_one {starter m : Rule} (hlinked : WellLinked ⟨starter, [m]⟩)
    (hid : starter.id = noID) (hmatch : matchesAll env [starter, m] 0 tx = true) :
    (RuleChain.evaluate env ⟨starter, [m]⟩ tx).steps
      = tx.steps ++ testTrace env [starter, m] 0 tx ++
        (finalIndices m).map (ChainStep.acted 0) ++
        (finalIndices starter).map (ChainStep.acted 1) := by
  have h := matched_of_matchesAll hmatch
  rw [matchesAll_cons h 1] at hmatch
  have hm := matched_of_matchesAll hmatch
  have hparent : m.parentID = noID :=
    (hlinked.members m (List.mem_singleton.mpr rfl)).trans hid
  obtain ⟨hsteps, hsome⟩ := membersLoop_last hparent hm
  have htrace : testTrace env [m] 1 (starter.tested env 1 0 tx) = [.tested 0 true] := by
    rw [testTrace, hm]
    rfl
  have hstart : (starter.tested env 1 0 tx).steps ++ [.tested 0 true]
      = tx.steps ++ testTrace env [starter, m] 0 tx := by
    rw [← htrace]
    exact tested_steps_matched [m] h
  rw [← hstart, ← hsteps]
  exact (doEvaluateWith_starter_some h hlinked.starter hsome).1

theorem finalIndices_eq_nil : finalIndices r = [] ↔ ∀ a ∈ r.actions, a.isFinal = false := by
  unfold finalIndices
  rw [map_eq_nil_iff, filter_eq_nil_iff]
  constructor
  · intro h a ha
    obtain ⟨i, hi, rfl⟩ := getElem_of_mem ha
    have := h (r.actions[i], i) (mem_zipIdx_iff_getElem?.mpr (List.getElem?_eq_getElem hi))
    simpa using this
  · intro h a ha
    rw [h a.1 (fst_mem_of_mem_zipIdx ha)]
    exact Bool.false_ne_true

theorem evaluate_twice (hlinked : WellLinked c) (hid : c.starter.id = noID)
    (hlen : 2 ≤ c.members.length) (hmatch : matchesAll env (c.starter :: c.members) 0 tx = true) :
    2 ≤ lastTests (c.evaluate env tx).steps := by
  have h := matched_of_matchesAll hmatch
  rw [matchesAll_cons h c.members.length] at hmatch
  have htwice := membersLoop_twice c.members
    (fun m hm => (hlinked.members m hm).trans hid) hlen 0 _ hmatch
  unfold RuleChain.evaluate RuleChain.doEvaluate
  cases hsome : (membersLoop env c.members 0
      (c.starter.tested env c.members.length 0 tx)).2.isSome with
  | true =>
    rw [(doEvaluateWith_starter_some h hlinked.starter hsome).1, lastTests_append]
    omega
  | false =>
    rw [doEvaluateWith_starter_none h hlinked.starter hsome]
    exact (Nat.le_add_left ..).trans htwice

/-- When the members of a starter without an id are evaluated as meant although all rules
match. -/
theorem chainSemantics_without_id (hlinked : WellLinked c) (hid : c.starter.id = noID)
    (htx : tx.steps = []) (hmatch : matchesAll env (c.starter :: c.members) 0 tx = true) :
    ChainSemantics c (c.evaluate env tx).steps ↔
      c.members = [] ∨ ∃ m, c.members = [m] ∧ ∀ a ∈ m.actions, a.isFinal = false := by
  obtain ⟨starter, members⟩ := c
  rcases members with _ | ⟨m, _ | ⟨m₂, rest⟩⟩
  · have h := matched_of_matchesAll hmatch
    have hsome : (membersLoop env [] 0 (starter.tested env 0 0 tx)).2.isSome = true := rfl
    have hsteps : (RuleChain.evaluate env ⟨starter, []⟩ tx).steps
        = testTrace env [starter] 0 tx ++ (finalIndices starter).map (ChainStep.acted 0) := by
      have htrace := tested_steps_matched [] h
      rw [htx, nil_append] at htrace
      rw [← htrace]
      exact (doEvaluateWith_starter_some h hlinked.starter hsome).1.trans
        (congrArg (fun l => l ++ _) (append_nil _).symm)
    refine ⟨fun _ => .inl rfl, fun _ => ?_⟩
    refine chainSemantics_of_steps env tx (hsteps.trans ?_)
    rw [hmatch]
    rfl
  · have hsteps := evaluate_steps_one hlinked hid hmatch
    rw [htx] at hsteps
    constructor
    · intro hsem
      refine .inr ⟨m, rfl, finalIndices_eq_nil.mp ?_⟩
      cases hfinal : finalIndices m with
      | nil => rfl
      | cons i is =>
        have hact : (0, i) ∈ actsOf (RuleChain.evaluate env ⟨starter, [m]⟩ tx).steps := by
          rw [hsteps, hfinal]
          simp [actsOf]
        exact absurd (hsem.onlyStarter _ hact) (by simp)
    · intro hmembers
      rcases hmembers with hmembers | ⟨m', hm', hfinal⟩
      · cases hmembers
      · cases hm'
        refine chainSemantics_of_steps env tx (hsteps.trans ?_)
        rw [finalIndices_eq_nil.mpr hfinal, hmatch, map_nil, append_nil]
        rfl
  · constructor
    · intro hsem
      have htwice := evaluate_twice hlinked hid (Nat.le_add_left 2 rest.length) hmatch
      have honce := lastTests_of_inOrder hsem.inOrder
      omega
    · intro hmembers
      rcases hmembers with hmembers | ⟨m', hm', -⟩
      · cases hmembers
      · cases hm'

/-- **The exact condition for the meaning of a chain.**  A chain that the parser built is
evaluated as meant if and only if its starter has an id, or it has no members, or it has one
member without a flow or disruptive action, or some rule does not match. -/
theorem chain_evaluation_iff {disabled : List String} {directives : List Directive}
    {s : ParserState} (hparse : parse disabled directives = some s) {c : RuleChain}
    (hc : c ∈ s.rules) (env : RuleEnv) (tx : Transaction) :
    ChainSemantics c (c.evaluate env { tx with steps := [] }).steps ↔
      c.starter.id ≠ noID ∨ c.members = [] ∨
      (∃ m, c.members = [m] ∧ ∀ a ∈ m.actions, a.isFinal = false) ∨
      matchesAll env (c.starter :: c.members) 0 tx = false := by
  have hlinked := parse_wellLinked hparse c hc
  have hhistory := matchesAll_history env [] (c.starter :: c.members) 0 tx
  have hnil : ({ tx with steps := [] } : Transaction).steps = [] := rfl
  rw [← hhistory]
  generalize ({ tx with steps := [] } : Transaction) = tx₀ at hnil ⊢
  by_cases hid : c.starter.id = noID
  · cases hmatch : matchesAll env (c.starter :: c.members) 0 tx₀ with
    | true =>
      rw [chainSemantics_without_id hlinked hid hnil hmatch]
      simp [hid]
    | false =>
      refine ⟨fun _ => .inr (.inr (.inr rfl)), fun _ => chainSemantics_of_steps env tx₀ ?_⟩
      rw [evaluate_steps_unmatched hlinked hid hmatch, hmatch, hnil]
      exact (append_nil _).symm
  · refine ⟨fun _ => .inl hid, fun _ => chainSemantics_of_steps env tx₀ ?_⟩
    rw [evaluate_steps_of_id hlinked hid, hnil, nil_append]

end

def denyDirectives (id : List Action) : List Directive :=
  [.secDefaultAction (some [.phase 2, .log, .deny]), .secAction (some (id ++ [.chain, .pass])),
    .secAction (some [.nolog])]

def denyChain (id : Int) (logID : Bytes) : RuleChain where
  starter := { Rule.new with
    id, logID, actions := [.log, .chain, .pass], log := true, audit := true, hasChain := true }
  members := [{ Rule.new with
    logID, parentID := id, phase := 0, actions := [.log, .nolog, .deny] }]

def denyState (id : Int) (logID : Bytes) : ParserState :=
  ⟨⟨[some [.phase 2, .log, .deny]], [], false⟩, [denyChain id logID]⟩

def denyTransaction : Transaction := (WAF.new (fun _ => none)).newTransaction .new

/-- With an id the chain is evaluated as meant. -/
theorem chain_evaluation_with_id :
    parse [] (denyDirectives [.id 1]) = some (denyState 1 (Strconv.itoa 1)) ∧
      ChainSemantics (denyChain 1 (Strconv.itoa 1))
        ((denyChain 1 (Strconv.itoa 1)).evaluate ⟨[], fun _ => .stored⟩
          { denyTransaction with steps := [] }).steps := by
  have hparse : parse [] (denyDirectives [.id 1]) = some (denyState 1 (Strconv.itoa 1)) := rfl
  exact ⟨hparse, (chain_evaluation_iff hparse (List.mem_singleton.mpr rfl) _ _).mpr
    (.inl (by decide))⟩

/-- **Without an id the member denies the request.** -/
theorem chain_evaluation_without_id : parse [] (denyDirectives []) = some (denyState 0 []) ∧
      ((denyChain 0 []).evaluate ⟨[], fun _ => .stored⟩
        { denyTransaction with steps := [] }).interruption = some ⟨0, .deny, 403, []⟩ ∧
      ¬ ChainSemantics (denyChain 0 []) ((denyChain 0 []).evaluate ⟨[], fun _ => .stored⟩
        { denyTransaction with steps := [] }).steps := by
  refine ⟨rfl, by decide +kernel, ?_⟩
  intro hsem
  have hact := hsem.onlyStarter (0, 2) (by decide +kernel)
  exact absurd hact (by decide)

end Coraza.Waf
