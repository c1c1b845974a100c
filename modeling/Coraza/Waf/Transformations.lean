import Coraza.Go.Utf8
import Coraza.Lib.Lists

/-!
# Transformation chains of rules

A rule transforms a value with a list of transformations before its operator
sees it.  This file has the list as `AddTransformation` and
`ClearTransformations` build it, the global table that gives each list of names a
number, and the two ways of running the list without any cache:
`executeTransformations` keeps the last value, and
`executeTransformationsMultimatch` keeps every value that a transformation
reported as changed.

The numbers matter because caches are keyed by them.  A list of names is written
as one string, each name after a `+`; `joinNames_injective` says that nothing is
lost as long as no name contains a `+`, and `build_named` that after any sequence
of calls the numbers of a rule are those of its own names.  Numbers are therefore
equal exactly if the lists are (`prefixIDs_eq_iff`).
-/

namespace Coraza.Waf

open Go List Lists

/-- `plugintypes.Transformation`: the new value, whether it changed, and an
error. -/
abbrev Transformation (ε : Type) := Bytes → Bytes × Bool × Option ε

/-- A transformation name; the separator `+` is not part of any. -/
abbrev TransformationName := { name : Bytes // 0x2B ∉ name }

/-! ### The numbers of transformation lists -/

/-- `transformationIDToName` and `transformationNameToID`, which are inverse to
each other. -/
structure Registry where
  idToName : List Bytes
  nameToID : Bytes → Option Nat
  agree : ∀ name id, nameToID name = some id ↔ idToName[id]? = some name

namespace Registry

def initial : Registry where
  idToName := [[]]
  nameToID := fun name => if name = [] then some 0 else none
  agree := by
    intro name id
    cases id with
    | zero => by_cases h : name = [] <;> simp [h, eq_comm]
    | succ id => by_cases h : name = [] <;> simp [h]

def extend (reg : Registry) (name : Bytes) (hnew : reg.nameToID name = none) : Registry where
  idToName := reg.idToName ++ [name]
  nameToID := fun n => if n = name then some reg.idToName.length else reg.nameToID n
  agree := by
    intro n id
    by_cases hn : n = name
    · subst hn
      rw [if_pos rfl, Option.some.injEq]
      constructor
      · rintro rfl
        simp
      · intro h
        by_contra hne
        rcases Nat.lt_or_gt_of_ne hne with hlt | hgt
        · rw [List.getElem?_eq_none (by simp; omega)] at h
          cases h
        · rw [List.getElem?_append_left hgt, ← reg.agree, hnew] at h
          cases h
    · rw [if_neg hn, reg.agree]
      rcases Nat.lt_trichotomy id reg.idToName.length with hlt | rfl | hgt
      · rw [List.getElem?_append_left hlt]
      · simp [Ne.symm hn]
      · rw [List.getElem?_eq_none (by omega), List.getElem?_eq_none (by simp; omega)]

def transformationID (reg : Registry) (currentID : Nat) (transformationName : Bytes) :
    Nat × Registry :=
  let currName := reg.idToName.getD currentID []
  let nextName := currName ++ 0x2B :: transformationName
  match h : reg.nameToID nextName with
  | some id => (id, reg)
  | none => (reg.idToName.length, reg.extend nextName h)

def HasName (reg : Registry) (id : Nat) (name : Bytes) : Prop := reg.idToName[id]? = some name

theorem HasName.unique {reg : Registry} {id : Nat} {name name' : Bytes} (h : reg.HasName id name)
    (h' : reg.HasName id name') : name = name' := by
  unfold HasName at h h'
  rw [h] at h'
  exact Option.some.inj h'

theorem HasName.eq {reg : Registry} {id id' : Nat} {name : Bytes} (h : reg.HasName id name)
    (h' : reg.HasName id' name) : id = id' :=
  Option.some.inj (((reg.agree ..).mpr h).symm.trans ((reg.agree ..).mpr h'))

theorem transformationID_mono {reg : Registry} {id : Nat} {name : Bytes} (h : reg.HasName id name)
    (cur : Nat) (n : Bytes) : (reg.transformationID cur n).2.HasName id name := by
  unfold transformationID
  dsimp only
  split
  · exact h
  · have hlt : id < reg.idToName.length := by
      by_contra hge
      unfold HasName at h
      rw [List.getElem?_eq_none (Nat.not_lt.mp hge)] at h
      cases h
    unfold HasName extend
    rw [List.getElem?_append_left hlt]
    exact h

theorem transformationID_hasName {reg : Registry} {cur : Nat} {currName : Bytes}
    (h : reg.HasName cur currName) (n : Bytes) :
    (reg.transformationID cur n).2.HasName (reg.transformationID cur n).1
      (currName ++ 0x2B :: n) := by
  have hget : reg.idToName.getD cur [] = currName := by
    rw [getD_eq_getElem?_getD, h, Option.getD_some]
  unfold transformationID
  dsimp only
  rw [hget]
  split
  · rename_i id hid
    exact (reg.agree _ _).mp hid
  · unfold HasName extend
    simp

end Registry

/-! ### Names of lists -/

def joinNames (names : List TransformationName) : Bytes :=
  names.flatMap (fun name => 0x2B :: name.val)

theorem joinNames_append (names : List TransformationName) (name : TransformationName) :
    joinNames (names ++ [name]) = joinNames names ++ 0x2B :: name.val := by
  simp [joinNames]

theorem takeWhile_joinNames (name : TransformationName) (names : List TransformationName) :
    (name.val ++ joinNames names).takeWhile (fun b => b != 0x2B) = name.val := by
  have hname : ∀ b ∈ name.val, (b != 0x2B) = true := by
    intro b hb
    rw [bne_iff_ne]
    rintro rfl
    exact name.property hb
  rw [takeWhile_append_of_pos hname]
  cases names with
  | nil => simp [joinNames]
  | cons n names => simp [joinNames]

/-- **A list of names is determined by its string.** -/
theorem joinNames_injective {names names' : List TransformationName} :
    joinNames names = joinNames names' → names = names' := by
  induction names generalizing names' with
  | nil =>
    intro h
    cases names' with
    | nil => rfl
    | cons n names' => simp [joinNames] at h
  | cons n names ih =>
    intro h
    cases names' with
    | nil => simp [joinNames] at h
    | cons n' names' =>
      have htail : n.val ++ joinNames names = n'.val ++ joinNames names' := by
        simpa [joinNames] using h
      have hn : n = n' := by
        apply Subtype.ext
        rw [← takeWhile_joinNames n names, htail, takeWhile_joinNames]
      subst hn
      rw [ih (append_cancel_left htail)]

/-! ### Building the list of a rule -/

structure RuleTransformationParams (ε : Type) where
  function : Transformation ε
  id : Nat

/-- The fields of a rule that hold its transformations. -/
structure Chain (ε : Type) where
  transformations : List (RuleTransformationParams ε)
  transformationsID : Nat
  transformationPrefixIDs : List Nat

namespace Chain

variable {ε : Type}

def empty : Chain ε := ⟨[], 0, []⟩

/-- `Rule.AddTransformation`; `none` is the error for an empty name. -/
def addTransformation (chain : Chain ε) (reg : Registry) (name : Bytes) (t : Transformation ε) :
    Option (Chain ε × Registry) :=
  if name = [] then none
  else
    let (id, reg) := reg.transformationID 0 name
    let (transformationsID, reg) := reg.transformationID chain.transformationsID name
    some ({ transformations := chain.transformations ++ [⟨t, id⟩]
            transformationsID
            transformationPrefixIDs := chain.transformationPrefixIDs ++ [transformationsID] }, reg)

/-- The transformations with the numbers of the prefixes they end. -/
def steps (chain : Chain ε) : List (RuleTransformationParams ε × Nat) :=
  chain.transformations.zip chain.transformationPrefixIDs

end Chain

/-- A call made while rules are built: a new rule, or one of the two methods on an
existing one. -/
inductive BuildOp where
  | newRule
  | addTransformation (rule : Nat) (name : TransformationName)
  | clearTransformations (rule : Nat)

/-- One call.  `fns` gives each name its function.  A call that fails changes
nothing. -/
def buildStep {ε : Type} (fns : TransformationName → Transformation ε)
    (state : Registry × List (Chain ε)) (op : BuildOp) : Registry × List (Chain ε) :=
  match op with
  | .newRule => (state.1, state.2 ++ [Chain.empty])
  | .addTransformation rule name =>
    match state.2[rule]? with
    | none => state
    | some chain =>
      match chain.addTransformation state.1 name.val (fns name) with
      | none => state
      | some (chain, reg) => (reg, state.2.set rule chain)
  | .clearTransformations rule => (state.1, state.2.set rule Chain.empty)

def build {ε : Type} (fns : TransformationName → Transformation ε) (ops : List BuildOp) :
    Registry × List (Chain ε) :=
  ops.foldl (buildStep fns) (Registry.initial, [])

def namesStep (names : List (List TransformationName)) : BuildOp → List (List TransformationName)
  | .newRule => names ++ [[]]
  | .addTransformation rule name =>
    match names[rule]? with
    | none => names
    | some ns => if name.val = [] then names else names.set rule (ns ++ [name])
  | .clearTransformations rule => names.set rule []

def ruleNames (ops : List BuildOp) : List (List TransformationName) := ops.foldl namesStep []

/-- The list of a rule is that of `names`: at each place the function of the name,
its number, and the number of the list up to there.  `done` is what comes before. -/
def StepsNamed {ε : Type} (reg : Registry) (fns : TransformationName → Transformation ε)
    (done : List TransformationName) :
    List TransformationName → List (RuleTransformationParams ε × Nat) → Prop
  | [], [] => True
  | name :: names, step :: steps =>
    step.1.function = fns name ∧ reg.HasName step.1.id (joinNames [name]) ∧
      reg.HasName step.2 (joinNames (done ++ [name])) ∧
      StepsNamed reg fns (done ++ [name]) names steps
  | _, _ => False

/-- The fields of a rule agree with a list of names. -/
structure Chain.Named {ε : Type} (reg : Registry) (fns : TransformationName → Transformation ε)
    (names : List TransformationName) (chain : Chain ε) : Prop where
  length : chain.transformationPrefixIDs.length = chain.transformations.length
  current : reg.HasName chain.transformationsID (joinNames names)
  steps : StepsNamed reg fns [] names chain.steps

section

variable {ε : Type} {reg : Registry} {fns : TransformationName → Transformation ε}

/-- `StepsNamed` as a relation, for inductions over both lists. -/
inductive NamedSteps (reg : Registry) (fns : TransformationName → Transformation ε) :
    List TransformationName → List TransformationName →
    List (RuleTransformationParams ε × Nat) → Prop where
  | nil {done} : NamedSteps reg fns done [] []
  | cons {done name names step steps} (hf : step.1.function = fns name)
      (hid : reg.HasName step.1.id (joinNames [name]))
      (hpre : reg.HasName step.2 (joinNames (done ++ [name])))
      (hrest : NamedSteps reg fns (done ++ [name]) names steps) :
      NamedSteps reg fns done (name :: names) (step :: steps)

variable {reg' : Registry}

section

variable {done names : List TransformationName} {steps : List (RuleTransformationParams ε × Nat)}

theorem NamedSteps.stepsNamed (h : NamedSteps reg fns done names steps) :
    StepsNamed reg fns done names steps := by
  induction h with
  | nil => trivial
  | cons hf hid hpre _ ih => exact ⟨hf, hid, hpre, ih⟩

theorem StepsNamed.named : ∀ {names done : List TransformationName}
    {steps : List (RuleTransformationParams ε × Nat)}, StepsNamed reg fns done names steps →
    NamedSteps reg fns done names steps
  | [], _, [], _ => .nil
  | _ :: _, _, _ :: _, ⟨hf, hid, hpre, hrest⟩ => .cons hf hid hpre hrest.named

theorem StepsNamed.mono (hreg : ∀ id name, reg.HasName id name →
      reg'.HasName id name) (h : StepsNamed reg fns done names steps) :
    StepsNamed reg' fns done names steps := by
  induction h.named with
  | nil => trivial
  | cons hf hid hpre hrest ih => exact ⟨hf, hreg _ _ hid, hreg _ _ hpre, ih hrest.stepsNamed⟩

variable {step : RuleTransformationParams ε × Nat}

theorem StepsNamed.snoc {name : TransformationName}
    (hf : step.1.function = fns name) (hid : reg.HasName step.1.id (joinNames [name]))
    (hpre : reg.HasName step.2 (joinNames (done ++ names ++ [name])))
    (h : StepsNamed reg fns done names steps) :
    StepsNamed reg fns done (names ++ [name]) (steps ++ [step]) := by
  induction h.named with
  | nil =>
    rw [append_nil] at hpre
    exact ⟨hf, hid, hpre, trivial⟩
  | @cons done n names _ _ hf' hid' hpre' hrest ih =>
    refine ⟨hf', hid', hpre', ih ?_ hrest.stepsNamed⟩
    rwa [append_assoc done [n] names, singleton_append]

theorem StepsNamed.at
    (h : StepsNamed reg fns done names steps) : ∀ {k : Nat}, steps[k]? = some step →
    reg.HasName step.1.id (joinNames names[k]?.toList) ∧
      reg.HasName step.2 (joinNames (done ++ names.take (k + 1))) := by
  induction h.named with
  | nil => exact fun hstep => (nomatch hstep)
  | cons hf hid hpre hrest ih =>
    intro k hstep
    cases k with
    | zero =>
      cases hstep
      exact ⟨hid, hpre⟩
    | succ k =>
      obtain ⟨hid', hpre'⟩ := ih hrest.stepsNamed hstep
      refine ⟨hid', ?_⟩
      rwa [append_assoc, singleton_append] at hpre'

theorem StepsNamed.length (h : StepsNamed reg fns done names steps) :
    steps.length = names.length := by
  induction h.named with
  | nil => rfl
  | cons _ _ _ hrest ih => exact congrArg (· + 1) (ih hrest.stepsNamed)

end

/-- The tables keep the empty name at number `0`. -/
def Registry.Rooted (reg : Registry) : Prop := reg.HasName 0 []

theorem Chain.named_empty (h : reg.Rooted) : Chain.Named reg fns [] Chain.empty :=
  ⟨rfl, h, trivial⟩

theorem Chain.Named.mono {names : List TransformationName} {chain : Chain ε}
    (h : Chain.Named reg fns names chain)
    (hreg : ∀ id name, reg.HasName id name → reg'.HasName id name) :
    Chain.Named reg' fns names chain :=
  ⟨h.length, hreg _ _ h.current, h.steps.mono hreg⟩

theorem Chain.Named.addTransformation {names : List TransformationName} {chain chain' : Chain ε}
    (hroot : reg.Rooted) (h : Chain.Named reg fns names chain) {name : TransformationName}
    (hadd : chain.addTransformation reg name.val (fns name) = some (chain', reg')) :
    Chain.Named reg' fns (names ++ [name]) chain' ∧
      ∀ id n, reg.HasName id n → reg'.HasName id n := by
  unfold Chain.addTransformation at hadd
  split at hadd
  · cases hadd
  · cases hadd
    have hone := Registry.transformationID_hasName hroot name.val
    have hcur := Registry.transformationID_hasName
      (Registry.transformationID_mono h.current 0 name.val) name.val
    have hmono : ∀ id n, reg.HasName id n →
        ((reg.transformationID 0 name.val).2.transformationID chain.transformationsID
          name.val).2.HasName id n :=
      fun id n hn => Registry.transformationID_mono (Registry.transformationID_mono hn _ _) _ _
    rw [← joinNames_append] at hcur
    refine ⟨⟨?_, hcur, ?_⟩, hmono⟩
    · simp [h.length]
    · unfold Chain.steps
      rw [zip_append h.length.symm]
      refine StepsNamed.snoc rfl ?_ hcur (h.steps.mono hmono)
      rw [show joinNames [name] = [] ++ 0x2B :: name.val from append_nil _]
      exact Registry.transformationID_mono hone chain.transformationsID name.val

theorem Chain.Named.at {names : List TransformationName} {chain : Chain ε}
    (h : Chain.Named reg fns names chain) {k : Nat} (hk : k < names.length) :
    ∃ t id, chain.transformations[k]? = some t ∧ chain.transformationPrefixIDs[k]? = some id ∧
      reg.HasName t.id (joinNames names[k]?.toList) ∧
      reg.HasName id (joinNames (names.take (k + 1))) := by
  rw [← h.steps.length] at hk
  obtain ⟨ht, hid⟩ := List.getElem?_zip_eq_some.mp (List.getElem?_eq_getElem hk)
  exact ⟨_, _, ht, hid, h.steps.at (List.getElem?_eq_getElem hk)⟩

/-- Every rule carries the numbers of its own names. -/
structure BuildNamed (fns : TransformationName → Transformation ε)
    (state : Registry × List (Chain ε)) : Prop where
  rooted : state.1.Rooted
  rules : ∀ chain ∈ state.2, ∃ names, Chain.Named state.1 fns names chain

/-- Every rule carries the numbers of the names that it was given. -/
structure Replays (fns : TransformationName → Transformation ε)
    (names : List (List TransformationName)) (state : Registry × List (Chain ε)) : Prop where
  rooted : state.1.Rooted
  rules : List.Forall₂ (Chain.Named state.1 fns) names state.2

theorem Replays.step {names : List (List TransformationName)} {state : Registry × List (Chain ε)}
    (h : Replays fns names state) (op : BuildOp) :
    Replays fns (namesStep names op) (buildStep fns state op) := by
  have hempty : Chain.Named state.1 fns [] Chain.empty := Chain.named_empty h.rooted
  cases op with
  | newRule => exact ⟨h.rooted, rel_append h.rules (.cons hempty .nil)⟩
  | clearTransformations rule => exact ⟨h.rooted, forall₂_set h.rules hempty rule⟩
  | addTransformation rule name =>
    unfold buildStep namesStep
    dsimp only
    cases hget : state.2[rule]? with
    | none =>
      rw [List.getElem?_eq_none_iff, ← h.rules.length_eq, ← List.getElem?_eq_none_iff] at hget
      rw [hget]
      exact h
    | some chain =>
      obtain ⟨ns, hns, hnamed⟩ := forall₂_getElem? h.rules hget
      rw [hns]
      dsimp only
      cases hadd : chain.addTransformation state.1 name.val (fns name) with
      | none =>
        unfold Chain.addTransformation at hadd
        split at hadd
        · rw [if_pos ‹_›]
          exact h
        · cases hadd
      | some added =>
        have hname : name.val ≠ [] := by
          intro hnil
          unfold Chain.addTransformation at hadd
          rw [if_pos hnil] at hadd
          cases hadd
        obtain ⟨hnew, hmono⟩ := hnamed.addTransformation h.rooted hadd
        rw [if_neg hname]
        exact ⟨hmono 0 [] h.rooted,
          forall₂_set (h.rules.imp (fun _ _ hold => hold.mono hmono)) hnew rule⟩

theorem build_replays (fns : TransformationName → Transformation ε) (ops : List BuildOp) :
    Replays fns (ruleNames ops) (build fns ops) := by
  have hrun : ∀ (ops : List BuildOp) {names : List (List TransformationName)}
      {state : Registry × List (Chain ε)}, Replays fns names state →
      Replays fns (ops.foldl namesStep names) (ops.foldl (buildStep fns) state) := by
    intro ops
    induction ops with
    | nil => exact id
    | cons op ops ih => exact fun h => ih (h.step op)
  exact hrun ops ⟨rfl, .nil⟩

/-- **After any sequence of calls every rule carries the numbers of its own
names.** -/
theorem build_named (fns : TransformationName → Transformation ε) (ops : List BuildOp) :
    BuildNamed fns (build fns ops) := by
  have hreplays := build_replays fns ops
  refine ⟨hreplays.rooted, fun chain hc => ?_⟩
  obtain ⟨names, -, hnamed⟩ := exists_of_mem_right hreplays.rules hc
  exact ⟨names, hnamed⟩

/-- **Numbers of lists are equal exactly if the lists are**, between any two rules, and the number
of a single transformation is that of the list that has only its name. -/
theorem prefixIDs_eq_iff {ε : Type} (fns : TransformationName → Transformation ε)
    (ops : List BuildOp) {i j : Nat} {chain chain' : Chain ε}
    (hi : (build fns ops).2[i]? = some chain) (hj : (build fns ops).2[j]? = some chain') :
    ∃ names names', (ruleNames ops)[i]? = some names ∧ (ruleNames ops)[j]? = some names' ∧
      chain.transformationPrefixIDs.length = names.length ∧
      chain.transformations.length = names.length ∧
      ∀ k < names.length, ∀ k' < names'.length,
        (chain.transformationPrefixIDs[k]? = chain'.transformationPrefixIDs[k']? ↔
          names.take (k + 1) = names'.take (k' + 1)) ∧
        (chain.transformations[k]?.map RuleTransformationParams.id
            = chain'.transformationPrefixIDs[k']? ↔
          names[k]?.toList = names'.take (k' + 1)) := by
  have hreplays := build_replays fns ops
  have hiff : ∀ {id id' : Nat} {ns ns' : List TransformationName},
      (build fns ops).1.HasName id (joinNames ns) → (build fns ops).1.HasName id' (joinNames ns') →
      (id = id' ↔ ns = ns') := by
    intro id id' ns ns' h h'
    constructor
    · rintro rfl
      exact joinNames_injective (h.unique h')
    · rintro rfl
      exact h.eq h'
  obtain ⟨names, hnames, hnamed⟩ := forall₂_getElem? hreplays.rules hi
  obtain ⟨names', hnames', hnamed'⟩ := forall₂_getElem? hreplays.rules hj
  have hlength := hnamed.steps.length
  rw [Chain.steps, length_zip, hnamed.length, Nat.min_self] at hlength
  refine ⟨names, names', hnames, hnames', hnamed.length.trans hlength, hlength, ?_⟩
  intro k hk k' hk'
  obtain ⟨t, id, ht, hid, hstep, hprefix⟩ := hnamed.at hk
  obtain ⟨t', id', ht', hid', hstep', hprefix'⟩ := hnamed'.at hk'
  rw [ht, hid, hid', Option.map_some, Option.some.injEq, Option.some.injEq]
  exact ⟨hiff hprefix hprefix', hiff hstep hprefix'⟩

/-- Two rules whose lists begin with the same transformation and go on with different ones. -/
def sharedPrefix : List BuildOp :=
  [.newRule, .newRule, .addTransformation 0 ⟨[0x61], by decide⟩,
    .addTransformation 0 ⟨[0x62], by decide⟩, .addTransformation 1 ⟨[0x61], by decide⟩,
    .addTransformation 1 ⟨[0x63], by decide⟩]

theorem prefixIDs_eq_iff_shared : ∃ chain chain' : Chain Unit,
    (build (fun _ value => (value, false, none)) sharedPrefix).2 = [chain, chain'] ∧
      chain.transformationPrefixIDs[0]? = chain'.transformationPrefixIDs[0]? ∧
      chain.transformationPrefixIDs[1]? ≠ chain'.transformationPrefixIDs[1]? ∧
      chain.transformations[0]?.map RuleTransformationParams.id
        = chain'.transformationPrefixIDs[0]? ∧
      chain.transformations[1]?.map RuleTransformationParams.id
        ≠ chain'.transformationPrefixIDs[1]? := by
  refine ⟨_, _, rfl, ?_⟩
  obtain ⟨names, names', hnames, hnames', -, -, hiff⟩ := prefixIDs_eq_iff
    (fun _ value => (value, false, (none : Option Unit))) sharedPrefix (i := 0) (j := 1) rfl rfl
  cases (show (ruleNames sharedPrefix)[0]? = some _ from rfl).symm.trans hnames
  cases (show (ruleNames sharedPrefix)[1]? = some _ from rfl).symm.trans hnames'
  have hfirst := hiff 0 (by decide) 0 (by decide)
  have hsecond := hiff 1 (by decide) 1 (by decide)
  exact ⟨hfirst.1.mpr rfl, fun h => absurd (hsecond.1.mp h) (by decide), hfirst.2.mpr rfl,
    fun h => absurd (hsecond.2.mp h) (by decide)⟩

end

/-! ### Running the list without a cache -/

section

variable {ε : Type}

def executeStep (f : Transformation ε) (state : Bytes × List ε) : Bytes × List ε :=
  match f state.1 with
  | (_, _, some err) => (state.1, state.2 ++ [err])
  | (v, _, none) => (v, state.2)

def executeTransformations (transformations : List (RuleTransformationParams ε)) (value : Bytes) :
    Bytes × List ε :=
  transformations.foldl (fun state t => executeStep t.function state) (value, [])

/-- One round of the loop of `executeTransformationsMultimatchInto`; the state is
the list of results, the current value and the errors. -/
def multimatchStep (f : Transformation ε) (state : List Bytes × Bytes × List ε) :
    List Bytes × Bytes × List ε :=
  match f state.2.1 with
  | (_, _, some err) => (state.1, state.2.1, state.2.2 ++ [err])
  | (transformedValue, changed, none) =>
    if changed then (state.1 ++ [transformedValue], transformedValue, state.2.2) else state

def executeTransformationsMultimatchInto (transformations : List (RuleTransformationParams ε))
    (result : List Bytes) (value : Bytes) : List Bytes × List ε :=
  let state := transformations.foldl (fun state t => multimatchStep t.function state)
    (result ++ [value], value, [])
  (state.1, state.2.2)

theorem StepsNamed.map_function {reg : Registry} {fns : TransformationName → Transformation ε}
    {names done : List TransformationName} {steps : List (RuleTransformationParams ε × Nat)}
    (h : StepsNamed reg fns done names steps) :
    steps.map (fun step => step.1.function) = names.map fns := by
  induction h.named with
  | nil => rfl
  | cons hf _ _ hrest ih => rw [map_cons, map_cons, hf, ih hrest.stepsNamed]

theorem Chain.Named.map_function {reg : Registry} {fns : TransformationName → Transformation ε}
    {names : List TransformationName} {chain : Chain ε} (h : Chain.Named reg fns names chain) :
    chain.transformations.map (fun t => t.function) = names.map fns := by
  have hfst : chain.steps.map Prod.fst = chain.transformations :=
    map_fst_zip (le_of_eq h.length.symm)
  rw [← h.steps.map_function, ← hfst, map_map]
  rfl

end

end Coraza.Waf
