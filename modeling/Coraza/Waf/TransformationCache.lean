import Coraza.Go.Memory
import Coraza.Waf.Transformations

/-!
# The transformation caches of a phase

Many rules transform the same argument in the same way, so a phase keeps two
maps.  The prefix cache has, for an argument and a list of transformations, the
value after the list; a rule resumes from the longest list it finds.  The step
cache has the result of one transformation on one long value, whatever argument
it came from, and stops storing when it is full.  Both are keyed by the address
and length of a string and keep the string alive.

The model threads the caches through the four functions that use them, and places
every string a transformation returns with a `Memory`, that is, anywhere the
run-time system may put it while the strings in the caches and on the stack are
alive.  `CachesOk` is the joint invariant: each entry of either map is what its
own transformations make of the input it keeps.  Every function keeps it and
returns what running the transformations directly returns; `runPhase_eq_direct`
is the statement for a whole phase.
-/

namespace Coraza.Waf

open Go List

def cachedTransformationStepMinInputBytes : Nat := 512

def maxTransformationStepCacheEntries : Nat := 512

def maxTransformationStepCacheBytes : Nat := 16 * 2 ^ 20

/-! ### The maps -/

structure TransformationKey (Var : Type) where
  input : Nat
  inputLength : Nat
  argVariable : Var
  transformationsID : Nat
  multiMatch : Bool
  deriving DecidableEq

structure TransformationValue (ε : Type) where
  input : Str
  arg : Str
  errs : List ε
  changed : Bool

structure TransformationStepKey where
  input : Nat
  inputLength : Nat
  transformationID : Nat
  deriving DecidableEq

structure TransformationStepValue (ε : Type) where
  input : Str
  output : Str
  changed : Bool
  err : Option ε

structure TransformationStepCache (ε : Type) where
  values : AList (fun _ : TransformationStepKey => TransformationStepValue ε)
  retainedBytes : Nat

def TransformationStepCache.store {ε : Type} (cache : TransformationStepCache ε)
    (key : TransformationStepKey) (value : TransformationStepValue ε) :
    TransformationStepCache ε :=
  let inputLen := value.input.bytes.length
  let outputLen := value.output.bytes.length
  if cache.values.entries.length ≥ maxTransformationStepCacheEntries then cache
  else if inputLen > maxTransformationStepCacheBytes ∨
      outputLen > maxTransformationStepCacheBytes - inputLen then cache
  else if inputLen + outputLen > maxTransformationStepCacheBytes - cache.retainedBytes then cache
  else
    { values := cache.values.insert key value
      retainedBytes := cache.retainedBytes + (inputLen + outputLen) }

/-- The two caches of a transaction, and the number of strings placed so far. -/
structure Caches (Var ε : Type) where
  cache : AList (fun _ : TransformationKey Var => TransformationValue ε)
  stepCache : TransformationStepCache ε
  clock : Nat

section

variable {Var ε : Type}

def Caches.empty : Caches Var ε := ⟨∅, ⟨∅, 0⟩, 0⟩

def Caches.retained (st : Caches Var ε) : List Str :=
  st.cache.entries.flatMap (fun e => [e.2.input, e.2.arg]) ++
    st.stepCache.values.entries.flatMap (fun e => [e.2.input, e.2.output])

end

/-! ### The cached functions -/

/-- What a transformation returned, its value placed in memory. -/
structure CallResult (ε : Type) where
  value : Str
  changed : Bool
  err : Option ε

/-- The parts of a `collections.Match` that the caches read. -/
structure Arg (Var : Type) where
  argVariable : Var
  value : Str

section

variable {Var ε : Type} [DecidableEq Var] (mem : Memory)

/-- A call of a transformation function while `locals` are on the stack. -/
def callFunction (st : Caches Var ε) (locals : List Str) (f : Transformation ε) (value : Str) :
    CallResult ε × Caches Var ε :=
  let out := f value.bytes
  (⟨mem.alloc st.clock (locals ++ st.retained) out.1, out.2.1, out.2.2⟩,
    { st with clock := st.clock + 1 })

def executeTransformationCached (st : Caches Var ε) (locals : List Str)
    (transformation : RuleTransformationParams ε) (input : Str) : CallResult ε × Caches Var ε :=
  let key : TransformationStepKey := ⟨input.ptr, input.bytes.length, transformation.id⟩
  match st.stepCache.values.lookup key with
  | some cached => (⟨cached.output, cached.changed, cached.err⟩, st)
  | none =>
    let (r, st) := callFunction mem st locals transformation.function input
    (r, { st with stepCache := st.stepCache.store key ⟨input, r.value, r.changed, r.err⟩ })

/-- One transformation in a cached loop: through the step cache if there is one
and the value is long. -/
def runTransformation (useSteps : Bool) (st : Caches Var ε) (locals : List Str)
    (transformation : RuleTransformationParams ε) (value : Str) : CallResult ε × Caches Var ε :=
  if useSteps ∧ cachedTransformationStepMinInputBytes ≤ value.bytes.length then
    executeTransformationCached mem st locals transformation value
  else callFunction mem st locals transformation.function value

def newTransformationKey (arg : Arg Var) (transformationsID : Nat) (multiMatch : Bool) :
    TransformationKey Var :=
  ⟨arg.value.ptr, arg.value.bytes.length, arg.argVariable, transformationsID, multiMatch⟩

def Caches.setPrefix (st : Caches Var ε) (key : TransformationKey Var)
    (value : TransformationValue ε) : Caches Var ε :=
  { st with cache := st.cache.insert key value }

/-- The search from the longest list backwards; the first hit and its index. -/
def searchPrefixes (st : Caches Var ε) (arg : Arg Var) (ids : List Nat) :
    Nat → Option (Nat × TransformationValue ε)
  | 0 => none
  | n + 1 =>
    match st.cache.lookup (newTransformationKey arg (ids.getD n 0) false) with
    | some cached => some (n, cached)
    | none => searchPrefixes st arg ids n

/-- The loop over the remaining transformations, storing each intermediate value.
Only the version with the step cache stores whether the value changed. -/
def chainLoop (useSteps : Bool) (arg : Arg Var) :
    List (RuleTransformationParams ε × Nat) → Caches Var ε → Str → List ε →
      (Str × List ε) × Caches Var ε
  | [], st, value, errs => ((value, errs), st)
  | (t, id) :: steps, st, value, errs =>
    let (r, st) := runTransformation mem useSteps st [arg.value, value] t value
    let value := if r.err.isSome then value else r.value
    let errs := errs ++ r.err.toList
    chainLoop useSteps arg steps
      (st.setPrefix (newTransformationKey arg id false)
        ⟨arg.value, value, errs, useSteps && r.changed && r.err.isNone⟩) value errs

/-- The common part of `transformField` and `transformFieldCached`. -/
def transformWithPrefixes (useSteps : Bool) (chain : Chain ε) (st : Caches Var ε)
    (arg : Arg Var) : (Str × List ε) × Caches Var ε :=
  let ids := chain.transformationPrefixIDs
  match searchPrefixes st arg ids ids.length with
  | some (index, cached) =>
    if index = ids.length - 1 then ((cached.arg, cached.errs), st)
    else chainLoop mem useSteps arg (chain.steps.drop (index + 1)) st cached.arg cached.errs
  | none => chainLoop mem useSteps arg chain.steps st arg.value []

variable (isTX : Var → Bool)

def transformField (chain : Chain ε) (st : Caches Var ε) (arg : Arg Var) :
    (Bytes × List ε) × Caches Var ε :=
  if chain.transformations.length = 0 then ((arg.value.bytes, []), st)
  else if isTX arg.argVariable then
    (executeTransformations chain.transformations arg.value.bytes, st)
  else
    let (r, st) := transformWithPrefixes mem false chain st arg
    ((r.1.bytes, r.2), st)

/-- `Rule.transformFieldCached`, with the step cache of the transaction. -/
def transformFieldCached (chain : Chain ε) (st : Caches Var ε) (arg : Arg Var) :
    (Bytes × List ε) × Caches Var ε :=
  if arg.value.bytes.length < cachedTransformationStepMinInputBytes then
    transformField mem isTX chain st arg
  else if chain.transformations.length = 0 then ((arg.value.bytes, []), st)
  else if isTX arg.argVariable then
    (executeTransformations chain.transformations arg.value.bytes, st)
  else
    let (r, st) := transformWithPrefixes mem true chain st arg
    ((r.1.bytes, r.2), st)

/-- The first loop of `transformFieldMultimatchCached`: the cached values in
order, up to the first that is missing, and the steps that are left. -/
def multimatchHits (st : Caches Var ε) (arg : Arg Var) :
    List (RuleTransformationParams ε × Nat) → List Bytes → Str → List ε →
      (List Bytes × Str × List ε) × List (RuleTransformationParams ε × Nat)
  | [], result, value, errs => ((result, value, errs), [])
  | step :: steps, result, value, errs =>
    match st.cache.lookup (newTransformationKey arg step.2 true) with
    | none => ((result, value, errs), step :: steps)
    | some cached =>
      multimatchHits st arg steps
        (if cached.changed then result ++ [cached.arg.bytes] else result) cached.arg cached.errs

/-- The second loop of `transformFieldMultimatchCached`. -/
def multimatchLoop (useSteps : Bool) (arg : Arg Var) :
    List (RuleTransformationParams ε × Nat) → Caches Var ε → List Bytes → Str → List ε →
      (List Bytes × List ε) × Caches Var ε
  | [], st, result, _, errs => ((result, errs), st)
  | (t, id) :: steps, st, result, value, errs =>
    let (r, st) := runTransformation mem useSteps st [arg.value, value] t value
    let changed := r.err.isNone && r.changed
    let value := if changed then r.value else value
    let result := if changed then result ++ [r.value.bytes] else result
    let errs := errs ++ r.err.toList
    multimatchLoop useSteps arg steps
      (st.setPrefix (newTransformationKey arg id true) ⟨arg.value, value, errs, changed⟩)
      result value errs

/-- `Rule.transformFieldMultimatchCached`; `useSteps` says whether a step cache is
passed. -/
def transformFieldMultimatchCached (useSteps : Bool) (chain : Chain ε) (st : Caches Var ε)
    (arg : Arg Var) (result : List Bytes) : (List Bytes × List ε) × Caches Var ε :=
  if chain.transformations.length = 0 ∨
      arg.value.bytes.length < cachedTransformationStepMinInputBytes ∨ isTX arg.argVariable then
    (executeTransformationsMultimatchInto chain.transformations result arg.value.bytes, st)
  else
    let (acc, steps) := multimatchHits st arg chain.steps (result ++ [arg.value.bytes]) arg.value []
    multimatchLoop mem useSteps arg steps st acc.1 acc.2.1 acc.2.2

/-- The values that `doEvaluate` hands to the operator for one argument, and the
errors it logs. -/
def transformArgument (multiMatch : Bool) (chain : Chain ε) (st : Caches Var ε) (arg : Arg Var) :
    (List Bytes × List ε) × Caches Var ε :=
  if multiMatch then
    if arg.value.bytes.length < cachedTransformationStepMinInputBytes ∨ isTX arg.argVariable then
      (executeTransformationsMultimatchInto chain.transformations [] arg.value.bytes, st)
    else transformFieldMultimatchCached mem isTX true chain st arg []
  else
    let (r, st) :=
      if arg.value.bytes.length < cachedTransformationStepMinInputBytes then
        transformField mem isTX chain st arg
      else transformFieldCached mem isTX chain st arg
    (([r.1], r.2), st)

end

/-! ### What an entry should hold -/

/-- The value after a list of transformations, its errors, and whether the last one
changed the value. -/
structure Outcome (ε : Type) where
  value : Bytes
  errs : List ε
  changed : Bool

section

variable {ε : Type}

/-- One more transformation.  Under multiMatch a value reported as unchanged is
not taken over. -/
def outcomeStep (multi : Bool) (f : Transformation ε) (o : Outcome ε) : Outcome ε :=
  match f o.value with
  | (_, _, some err) => ⟨o.value, o.errs ++ [err], false⟩
  | (v, changed, none) =>
    if multi && !changed then ⟨o.value, o.errs, false⟩ else ⟨v, o.errs, changed⟩

def outcome (multi : Bool) (fns : TransformationName → Transformation ε)
    (names : List TransformationName) (b : Bytes) : Outcome ε :=
  names.foldl (fun o name => outcomeStep multi (fns name) o) ⟨b, [], false⟩

theorem outcome_append (multi : Bool) (fns : TransformationName → Transformation ε)
    (names : List TransformationName) (name : TransformationName) (b : Bytes) :
    outcome multi fns (names ++ [name]) b
      = outcomeStep multi (fns name) (outcome multi fns names b) := by
  rw [outcome, foldl_append]
  rfl

theorem executeStep_eq (f : Transformation ε) (o : Outcome ε) : executeStep f (o.value, o.errs)
      = ((outcomeStep false f o).value, (outcomeStep false f o).errs) := by
  unfold executeStep outcomeStep
  rcases hf : f o.value with ⟨v, changed, err⟩
  cases err <;> simp

variable {reg : Registry} {fns : TransformationName → Transformation ε}
  {names : List TransformationName} {chain : Chain ε}

theorem Chain.Named.foldl_function (h : Chain.Named reg fns names chain) {α : Type}
    (g : Transformation ε → α → α) (a : α) :
    chain.transformations.foldl (fun s t => g t.function s) a
      = names.foldl (fun s name => g (fns name) s) a := by
  have hfold := congrArg (fun fs => fs.foldl (fun s f => g f s) a) h.map_function
  simpa only [foldl_map] using hfold

theorem executeTransformations_eq (h : Chain.Named reg fns names chain) (b : Bytes) :
    executeTransformations chain.transformations b
      = ((outcome false fns names b).value, (outcome false fns names b).errs) := by
  rw [executeTransformations, h.foldl_function executeStep]
  clear h
  induction names using List.reverseRecOn with
  | nil => rfl
  | append_singleton names name ih =>
    rw [foldl_append, ih, outcome_append, foldl_cons, foldl_nil, executeStep_eq]

def multimatchState (fns : TransformationName → Transformation ε)
    (names : List TransformationName) (result : List Bytes) (b : Bytes) :
    List Bytes × Bytes × List ε :=
  names.foldl (fun s name => multimatchStep (fns name) s) (result ++ [b], b, [])

theorem multimatchStep_eq (f : Transformation ε) (result : List Bytes) (o : Outcome ε) :
    multimatchStep f (result, o.value, o.errs)
      = (if (outcomeStep true f o).changed then result ++ [(outcomeStep true f o).value]
          else result, (outcomeStep true f o).value, (outcomeStep true f o).errs) := by
  unfold multimatchStep outcomeStep
  rcases hf : f o.value with ⟨v, changed, err⟩
  cases err <;> cases changed <;> simp

theorem executeTransformationsMultimatchInto_eq (h : Chain.Named reg fns names chain)
    (result : List Bytes) (b : Bytes) :
    executeTransformationsMultimatchInto chain.transformations result b
      = ((multimatchState fns names result b).1, (multimatchState fns names result b).2.2) := by
  rw [executeTransformationsMultimatchInto, h.foldl_function multimatchStep]
  rfl

theorem multimatchState_concat (fns : TransformationName → Transformation ε)
    (names : List TransformationName) (name : TransformationName) (result : List Bytes)
    (b : Bytes) : multimatchState fns (names ++ [name]) result b
      = multimatchStep (fns name) (multimatchState fns names result b) := by
  rw [multimatchState, foldl_append]
  rfl

theorem multimatchState_eq (fns : TransformationName → Transformation ε) (result : List Bytes)
    (b : Bytes) (names : List TransformationName) :
    multimatchState fns names result b = ((multimatchState fns names result b).1,
      (outcome true fns names b).value, (outcome true fns names b).errs) := by
  induction names using List.reverseRecOn with
  | nil => rfl
  | append_singleton names name ih =>
    rw [multimatchState_concat, outcome_append, ih, multimatchStep_eq]

theorem multimatchState_append (fns : TransformationName → Transformation ε)
    (names : List TransformationName) (name : TransformationName) (result : List Bytes)
    (b : Bytes) :
    (multimatchState fns (names ++ [name]) result b).1
      = if (outcome true fns (names ++ [name]) b).changed then
          (multimatchState fns names result b).1 ++ [(outcome true fns (names ++ [name]) b).value]
        else (multimatchState fns names result b).1 := by
  rw [multimatchState_concat, outcome_append, multimatchState_eq, multimatchStep_eq]

end

/-! ### The invariant -/

section

variable {Var ε : Type}

/-- An entry of the prefix cache is the outcome of the list of its number on the
input it keeps. -/
structure PrefixEntryOk (reg : Registry) (fns : TransformationName → Transformation ε)
    (key : TransformationKey Var) (e : TransformationValue ε) (names : List TransformationName) :
    Prop where
  id : reg.HasName key.transformationsID (joinNames names)
  ptr : e.input.ptr = key.input
  len : e.input.bytes.length = key.inputLength
  value : e.arg.bytes = (outcome key.multiMatch fns names e.input.bytes).value
  errs : e.errs = (outcome key.multiMatch fns names e.input.bytes).errs
  changed : key.multiMatch = true → e.changed = (outcome true fns names e.input.bytes).changed

/-- An entry of the step cache is what its transformation returned for the input
it keeps. -/
structure StepEntryOk (reg : Registry) (fns : TransformationName → Transformation ε)
    (key : TransformationStepKey) (e : TransformationStepValue ε) (name : TransformationName) :
    Prop where
  id : reg.HasName key.transformationID (joinNames [name])
  ptr : e.input.ptr = key.input
  len : e.input.bytes.length = key.inputLength
  result : fns name e.input.bytes = (e.output.bytes, e.changed, e.err)

variable [DecidableEq Var]

/-- **The joint invariant of the two caches.** -/
structure CachesOk (reg : Registry) (fns : TransformationName → Transformation ε)
    (st : Caches Var ε) : Prop where
  prefixes : ∀ key e, st.cache.lookup key = some e → ∃ names, PrefixEntryOk reg fns key e names
  steps : ∀ key e, st.stepCache.values.lookup key = some e → ∃ name, StepEntryOk reg fns key e name

theorem cachesOk_empty (reg : Registry) (fns : TransformationName → Transformation ε) :
    CachesOk reg fns (Caches.empty : Caches Var ε) :=
  ⟨fun _ _ h => (nomatch h), fun _ _ h => (nomatch h)⟩

/-! ### What the caches keep alive -/

variable {st : Caches Var ε} {key : TransformationKey Var} {names : List TransformationName}
  {value : Str}

theorem mem_retained_prefix {e : TransformationValue ε} (h : st.cache.lookup key = some e) :
    e.input ∈ st.retained ∧ e.arg ∈ st.retained := by
  have hmem : Sigma.mk key e ∈ st.cache.entries := AList.mem_lookup_iff.mp h
  constructor
  · exact mem_append_left _ (List.mem_flatMap.mpr ⟨_, hmem, by simp⟩)
  · exact mem_append_left _ (List.mem_flatMap.mpr ⟨_, hmem, by simp⟩)

omit [DecidableEq Var] in
theorem mem_retained_step {key : TransformationStepKey} {e : TransformationStepValue ε}
    (h : st.stepCache.values.lookup key = some e) :
    e.input ∈ st.retained ∧ e.output ∈ st.retained := by
  have hmem : Sigma.mk key e ∈ st.stepCache.values.entries := AList.mem_lookup_iff.mp h
  constructor
  · exact mem_append_right _ (List.mem_flatMap.mpr ⟨_, hmem, by simp⟩)
  · exact mem_append_right _ (List.mem_flatMap.mpr ⟨_, hmem, by simp⟩)

theorem mem_flatMap_insert {κ ν : Type} [DecidableEq κ] {m : AList (fun _ : κ => ν)} {k : κ}
    {v : ν} {a b : ν → Str} {s : Str}
    (h : s ∈ (m.insert k v).entries.flatMap (fun e => [a e.2, b e.2])) :
    s = a v ∨ s = b v ∨ s ∈ m.entries.flatMap (fun e => [a e.2, b e.2]) := by
  rw [AList.entries_insert, flatMap_cons, cons_append, singleton_append, mem_cons, mem_cons] at h
  exact h.imp id (fun h => h.imp id (fun h => ((kerase_sublist k _).flatMap _).subset h))

theorem retained_setPrefix {value : TransformationValue ε} {s : Str}
    (h : s ∈ (st.setPrefix key value).retained) :
    s = value.input ∨ s = value.arg ∨ s ∈ st.retained := by
  rcases List.mem_append.mp h with h | h
  · exact (mem_flatMap_insert h).imp id (fun h => h.imp id (mem_append_left _))
  · exact .inr (.inr (mem_append_right _ h))

theorem store_cases (cache : TransformationStepCache ε) (key : TransformationStepKey)
    (value : TransformationStepValue ε) :
    (cache.store key value).values = cache.values ∨
      (cache.store key value).values = cache.values.insert key value := by
  unfold TransformationStepCache.store
  dsimp only
  split
  · exact .inl rfl
  split
  · exact .inl rfl
  split
  · exact .inl rfl
  · exact .inr rfl

omit [DecidableEq Var] in
theorem retained_store {key : TransformationStepKey} {value : TransformationStepValue ε} {s : Str}
    (h : s ∈ Caches.retained { st with stepCache := st.stepCache.store key value }) :
    s = value.input ∨ s = value.output ∨ s ∈ st.retained := by
  rcases List.mem_append.mp h with h | h
  · exact .inr (.inr (mem_append_left _ h))
  · dsimp only at h
    rcases store_cases st.stepCache key value with hv | hv
    · rw [hv] at h
      exact .inr (.inr (mem_append_right _ h))
    · rw [hv] at h
      exact (mem_flatMap_insert h).imp id (fun h => h.imp id (mem_append_right _))

/-! ### One transformation -/

variable {reg : Registry} {fns : TransformationName → Transformation ε}

theorem CachesOk.tick (h : CachesOk reg fns st) (n : Nat) :
    CachesOk reg fns { st with clock := n } := ⟨h.prefixes, h.steps⟩

theorem CachesOk.store (h : CachesOk reg fns st) {key : TransformationStepKey}
    {value : TransformationStepValue ε} {name : TransformationName}
    (hv : StepEntryOk reg fns key value name) :
    CachesOk reg fns { st with stepCache := st.stepCache.store key value } := by
  refine ⟨h.prefixes, fun k e he => ?_⟩
  rcases store_cases st.stepCache key value with hs | hs
  · rw [hs] at he
    exact h.steps k e he
  · rw [hs] at he
    by_cases hk : k = key
    · subst hk
      rw [AList.lookup_insert] at he
      cases he
      exact ⟨name, hv⟩
    · rw [AList.lookup_insert_ne hk] at he
      exact h.steps k e he

theorem CachesOk.setPrefix (h : CachesOk reg fns st) {value : TransformationValue ε}
    (hv : PrefixEntryOk reg fns key value names) : CachesOk reg fns (st.setPrefix key value) := by
  refine ⟨fun k e he => ?_, h.steps⟩
  unfold Caches.setPrefix at he
  by_cases hk : k = key
  · subst hk
    rw [AList.lookup_insert] at he
    cases he
    exact ⟨names, hv⟩
  · rw [AList.lookup_insert_ne hk] at he
    exact h.prefixes k e he

theorem names_unique {id : Nat} {names' : List TransformationName}
    (h : reg.HasName id (joinNames names)) (h' : reg.HasName id (joinNames names')) :
    names = names' :=
  joinNames_injective (h.unique h')

/-- What `runTransformation` does: it returns what the function returns, keeps the
caches right and touches only the step cache, and its result may live with the
locals and the caches. -/
structure RunOk (reg : Registry) (fns : TransformationName → Transformation ε)
    (name : TransformationName) (locals : List Str) (value : Str) (st : Caches Var ε)
    (out : CallResult ε × Caches Var ε) : Prop where
  result : fns name value.bytes = (out.1.value.bytes, out.1.changed, out.1.err)
  caches : CachesOk reg fns out.2
  live : Coherent (out.1.value :: (locals ++ out.2.retained))

section

variable (mem : Memory) {st : Caches Var ε} {locals : List Str} {value : Str}
  {name : TransformationName} {t : RuleTransformationParams ε}

theorem callFunction_ok (hok : CachesOk reg fns st)
    (hlive : Coherent (locals ++ st.retained)) (hf : t.function = fns name) :
    RunOk reg fns name locals value st (callFunction mem st locals t.function value) := by
  refine ⟨?_, hok.tick _, hlive.alloc mem _ _⟩
  rw [hf]
  rfl

theorem executeTransformationCached_ok (hok : CachesOk reg fns st)
    (hlive : Coherent (locals ++ st.retained)) (hvalue : value ∈ locals)
    (hf : t.function = fns name) (hid : reg.HasName t.id (joinNames [name])) :
    RunOk reg fns name locals value st (executeTransformationCached mem st locals t value) := by
  unfold executeTransformationCached
  dsimp only
  split
  · -- a hit: the entry was made from the same contents, because it keeps them alive
    rename_i cached hhit
    obtain ⟨name', hentry⟩ := hok.steps _ _ hhit
    obtain ⟨hin, hout⟩ := mem_retained_step hhit
    have hname : name' = name := by
      have := names_unique hentry.id hid
      simpa using this
    subst hname
    have hbytes : cached.input.bytes = value.bytes :=
      hlive _ (mem_append_right _ hin) _ (mem_append_left _ hvalue) hentry.ptr hentry.len
    refine ⟨by rw [← hbytes]; exact hentry.result, hok, hlive.mono (fun s hs => ?_)⟩
    rcases List.mem_cons.mp hs with rfl | hs
    · exact mem_append_right _ hout
    · exact hs
  · have hcall : RunOk reg fns name locals value st
        (callFunction mem st locals t.function value) := callFunction_ok mem hok hlive hf
    have hentry : StepEntryOk reg fns ⟨value.ptr, value.bytes.length, t.id⟩
        ⟨value, _, _, _⟩ name := ⟨hid, rfl, rfl, hcall.result⟩
    refine ⟨hcall.result, hcall.caches.store hentry, hcall.live.mono (fun s hs => ?_)⟩
    rcases List.mem_cons.mp hs with rfl | hs
    · exact mem_cons_self ..
    · rcases List.mem_append.mp hs with hs | hs
      · exact mem_cons_of_mem _ (mem_append_left _ hs)
      · rcases retained_store hs with rfl | rfl | hs
        · exact mem_cons_of_mem _ (mem_append_left _ hvalue)
        · exact mem_cons_self ..
        · exact mem_cons_of_mem _ (mem_append_right _ hs)

theorem runTransformation_ok (useSteps : Bool) (hok : CachesOk reg fns st)
    (hlive : Coherent (locals ++ st.retained)) (hvalue : value ∈ locals)
    (hf : t.function = fns name) (hid : reg.HasName t.id (joinNames [name])) :
    RunOk reg fns name locals value st (runTransformation mem useSteps st locals t value) := by
  unfold runTransformation
  split
  · exact executeTransformationCached_ok mem hok hlive hvalue hf hid
  · exact callFunction_ok mem hok hlive hf

end

/-! ### The loops -/

omit [DecidableEq Var] in
theorem outcomeStep_single {f : Transformation ε} {r : CallResult ε} {o : Outcome ε}
    (hv : value.bytes = o.value) (h : f value.bytes = (r.value.bytes, r.changed, r.err)) :
    (outcomeStep false f o).value = (if r.err.isSome then value else r.value).bytes ∧
      (outcomeStep false f o).errs = o.errs ++ r.err.toList := by
  unfold outcomeStep
  rw [← hv, h]
  cases herr : r.err <;> simp

omit [DecidableEq Var] in
theorem outcomeStep_multi {f : Transformation ε} {r : CallResult ε} {o : Outcome ε}
    (hv : value.bytes = o.value) (h : f value.bytes = (r.value.bytes, r.changed, r.err)) :
    outcomeStep true f o
      = ⟨(if r.err.isNone && r.changed then r.value else value).bytes, o.errs ++ r.err.toList,
          r.err.isNone && r.changed⟩ := by
  unfold outcomeStep
  rw [← hv, h]
  cases herr : r.err <;> cases hc : r.changed <;> simp

theorem live_setPrefix {arg v : Str} {e : TransformationValue ε}
    (hlive : Coherent (v :: ([arg, value] ++ st.retained))) (hin : e.input = arg) {value' : Str}
    (hvalue : value' = v ∨ value' = value) (harg : e.arg = value') :
    Coherent ([arg, value'] ++ (st.setPrefix key e).retained) := by
  have hv : value' ∈ v :: ([arg, value] ++ st.retained) := by
    rcases hvalue with rfl | rfl <;> simp
  refine hlive.mono (fun s hs => ?_)
  rcases List.mem_append.mp hs with hs | hs
  · rcases List.mem_cons.mp hs with rfl | hs
    · simp
    · rw [mem_singleton] at hs
      rwa [hs]
  · rcases retained_setPrefix hs with rfl | rfl | hs
    · rw [hin]
      simp
    · rwa [harg]
    · exact mem_cons_of_mem _ (mem_append_right _ hs)

variable (mem : Memory) {arg : Arg Var} {steps : List (RuleTransformationParams ε × Nat)}

variable {errs : List ε}

/-- **The loop from a prefix on.**  `done` are the names that led to `value`. -/
theorem chainLoop_ok (useSteps : Bool)
    {names done : List TransformationName} {st : Caches Var ε} {value : Str}
    (hsteps : StepsNamed reg fns done names steps) (hok : CachesOk reg fns st)
    (hlive : Coherent ([arg.value, value] ++ st.retained))
    (hvalue : value.bytes = (outcome false fns done arg.value.bytes).value)
    (herrs : errs = (outcome false fns done arg.value.bytes).errs) :
    let out := chainLoop mem useSteps arg steps st value errs
    let o := outcome false fns (done ++ names) arg.value.bytes
    (out.1.1.bytes = o.value ∧ out.1.2 = o.errs) ∧ CachesOk reg fns out.2 ∧
      Coherent out.2.retained := by
  induction hsteps.named generalizing st value errs with
  | nil =>
    rw [append_nil]
    exact ⟨⟨hvalue, herrs⟩, hok, hlive.mono (fun s hs => mem_append_right _ hs)⟩
  | @cons done name names step steps hf hid hpre hrest ih =>
    have hmem : value ∈ [arg.value, value] := by simp
    have hrun := runTransformation_ok mem useSteps hok hlive hmem hf hid
    obtain ⟨hval', herrs'⟩ := outcomeStep_single hvalue hrun.result
    rw [← outcome_append] at hval' herrs'
    rw [← herrs] at herrs'
    rw [append_cons]
    refine ih hrest.stepsNamed (hrun.caches.setPrefix ⟨hpre, rfl, rfl, hval'.symm, herrs'.symm,
      fun hm => (nomatch hm)⟩) (live_setPrefix hrun.live rfl ?_ rfl) hval'.symm herrs'.symm
    split
    · exact .inr rfl
    · exact .inl rfl

/-- **The multiMatch loop from a prefix on.** -/
theorem multimatchLoop_ok (useSteps : Bool) (start : List Bytes)
    {names done : List TransformationName} {st : Caches Var ε} {result : List Bytes} {value : Str}
    (hsteps : StepsNamed reg fns done names steps) (hok : CachesOk reg fns st)
    (hlive : Coherent ([arg.value, value] ++ st.retained))
    (hstate : (result, value.bytes, errs) = multimatchState fns done start arg.value.bytes) :
    let out := multimatchLoop mem useSteps arg steps st result value errs
    let s := multimatchState fns (done ++ names) start arg.value.bytes
    out.1 = (s.1, s.2.2) ∧ CachesOk reg fns out.2 ∧ Coherent out.2.retained := by
  induction hsteps.named generalizing st result value errs with
  | nil =>
    rw [append_nil, ← hstate]
    exact ⟨rfl, hok, hlive.mono (fun s hs => mem_append_right _ hs)⟩
  | @cons done name names step steps hf hid hpre hrest ih =>
    obtain ⟨t, id⟩ := step
    have hmem : value ∈ [arg.value, value] := by simp
    have hrun := runTransformation_ok mem useSteps hok hlive hmem hf hid
    have hout := multimatchState_eq fns start arg.value.bytes done
    rw [← hstate] at hout
    injection hout with _ hout
    injection hout with hvalue herrs
    rw [append_cons, multimatchLoop]
    generalize runTransformation mem useSteps st [arg.value, value] t value = out at hrun ⊢
    obtain ⟨r, st'⟩ := out
    have hnext := outcomeStep_multi hvalue hrun.result
    rw [← outcome_append, ← herrs] at hnext
    refine ih hrest.stepsNamed (hrun.caches.setPrefix ⟨hpre, rfl, rfl, ?_, ?_, ?_⟩)
      (live_setPrefix hrun.live rfl ?_ rfl) ?_
    · rw [newTransformationKey, hnext]
    · rw [newTransformationKey, hnext]
    · rw [hnext]
      exact fun _ => rfl
    · split
      · exact .inl rfl
      · exact .inr rfl
    · rw [multimatchState_eq, multimatchState_append, hnext, ← hstate]
      cases r.err.isNone && r.changed <;> rfl

/-! ### Resuming from an entry -/

omit [DecidableEq Var] in
theorem coherent_locals (hlive : Coherent (arg.value :: st.retained))
    (hvalue : value ∈ arg.value :: st.retained) : Coherent ([arg.value, value] ++ st.retained) := by
  refine hlive.mono (fun s hs => ?_)
  simp only [cons_append, mem_cons] at hs
  rcases hs with rfl | rfl | hs
  · exact mem_cons_self ..
  · exact hvalue
  · exact mem_cons_of_mem _ hs

/-- What an entry found for `arg` holds. -/
theorem CachesOk.hit (hok : CachesOk reg fns st) (hlive : Coherent (arg.value :: st.retained))
    {id : Nat} {multi : Bool} {cached : TransformationValue ε}
    (hhit : st.cache.lookup (newTransformationKey arg id multi) = some cached)
    (hid : reg.HasName id (joinNames names)) :
    cached.arg.bytes = (outcome multi fns names arg.value.bytes).value ∧
      cached.errs = (outcome multi fns names arg.value.bytes).errs ∧
      (multi = true → cached.changed = (outcome true fns names arg.value.bytes).changed) ∧
      cached.arg ∈ st.retained := by
  obtain ⟨names', hentry⟩ := hok.prefixes _ _ hhit
  obtain ⟨hin, hout⟩ := mem_retained_prefix hhit
  have hnames : names' = names := names_unique hentry.id hid
  subst hnames
  have hbytes : cached.input.bytes = arg.value.bytes :=
    hlive _ (mem_cons_of_mem _ hin) _ (mem_cons_self ..) hentry.ptr hentry.len
  rw [← hbytes]
  exact ⟨hentry.value, hentry.errs, hentry.changed, hout⟩

omit [DecidableEq Var] in
theorem StepsNamed.drop {names done : List TransformationName} (n : Nat)
    (h : StepsNamed reg fns done names steps) :
    StepsNamed reg fns (done ++ names.take n) (names.drop n) (steps.drop n) := by
  induction h.named generalizing n with
  | nil => simpa using h
  | cons _ _ _ hrest ih =>
    cases n with
    | zero => simpa using h
    | succ n =>
      have hdrop := ih n hrest.stepsNamed
      rwa [append_assoc, singleton_append] at hdrop

omit [DecidableEq Var] in
theorem Chain.Named.hasName {chain : Chain ε} (h : Chain.Named reg fns names chain) {n : Nat}
    (hn : n < chain.transformationPrefixIDs.length) :
    reg.HasName (chain.transformationPrefixIDs.getD n 0) (joinNames (names.take (n + 1))) := by
  have hlen := h.steps.length
  rw [Chain.steps, length_zip, ← h.length, Nat.min_self] at hlen
  obtain ⟨-, id, -, hid, -, hprefix⟩ := h.at (hlen ▸ hn)
  rw [getD_eq_getElem?_getD, hid]
  exact hprefix

theorem searchPrefixes_some {ids : List Nat} : ∀ {bound n : Nat} {cached : TransformationValue ε},
      searchPrefixes st arg ids bound = some (n, cached) →
      n < bound ∧ st.cache.lookup (newTransformationKey arg (ids.getD n 0) false)
        = some cached := by
  intro bound
  induction bound with
  | zero => intro n cached h; exact absurd h (by simp [searchPrefixes])
  | succ bound ih =>
    intro n cached h
    rw [searchPrefixes] at h
    split at h
    · rename_i c hc
      cases h
      exact ⟨Nat.lt_succ_self _, hc⟩
    · obtain ⟨hlt, hlook⟩ := ih h
      exact ⟨Nat.lt_succ_of_lt hlt, hlook⟩

theorem transformWithPrefixes_ok (useSteps : Bool) {chain : Chain ε}
    (h : Chain.Named reg fns names chain) (hok : CachesOk reg fns st)
    (hlive : Coherent (arg.value :: st.retained)) :
    let out := transformWithPrefixes mem useSteps chain st arg
    (out.1.1.bytes, out.1.2) = executeTransformations chain.transformations arg.value.bytes ∧
      CachesOk reg fns out.2 ∧ Coherent out.2.retained := by
  have hsub : ∀ s ∈ st.retained, s ∈ arg.value :: st.retained :=
    fun s hs => mem_cons_of_mem _ hs
  rw [executeTransformations_eq h]
  unfold transformWithPrefixes
  dsimp only
  split
  · rename_i n cached hsearch
    obtain ⟨hn, hhit⟩ := searchPrefixes_some hsearch
    obtain ⟨hvalue, herrs, -, hmem⟩ := hok.hit hlive hhit (h.hasName hn)
    split
    · rename_i hlast
      have htake : names.take (n + 1) = names := by
        refine take_of_length_le ?_
        have hlen := h.steps.length
        rw [Chain.steps, length_zip] at hlen
        rw [h.length] at hlast hn
        omega
      rw [htake] at hvalue herrs
      exact ⟨by rw [hvalue, herrs], hok, hlive.mono hsub⟩
    · have hdrop := h.steps.drop (n + 1)
      rw [nil_append] at hdrop
      obtain ⟨⟨hv, he⟩, hrest⟩ := chainLoop_ok mem useSteps hdrop hok
        (coherent_locals hlive (hsub _ hmem)) hvalue herrs
      rw [take_append_drop] at hv he
      exact ⟨by rw [hv, he], hrest⟩
  · have herrs : ([] : List ε) = (outcome false fns [] arg.value.bytes).errs := rfl
    obtain ⟨⟨hv, he⟩, hrest⟩ := chainLoop_ok mem useSteps h.steps hok
      (coherent_locals hlive (mem_cons_self ..)) rfl herrs
    rw [nil_append] at hv he
    exact ⟨by rw [hv, he], hrest⟩

/-- **The hits of the multiMatch search.**  They end after some list `done'` with the
state the direct loop has there. -/
theorem multimatchHits_ok (start : List Bytes) (hok : CachesOk reg fns st)
    (hlive : Coherent (arg.value :: st.retained)) {names done : List TransformationName}
    {result : List Bytes} {value : Str}
    (hsteps : StepsNamed reg fns done names steps) (hmem : value ∈ arg.value :: st.retained)
    (hstate : (result, value.bytes, errs) = multimatchState fns done start arg.value.bytes) :
    let out := multimatchHits st arg steps result value errs
    ∃ done' names', done ++ names = done' ++ names' ∧ StepsNamed reg fns done' names' out.2 ∧
      out.1.2.1 ∈ arg.value :: st.retained ∧
      (out.1.1, out.1.2.1.bytes, out.1.2.2) = multimatchState fns done' start arg.value.bytes := by
  induction hsteps.named generalizing result value errs with
  | nil => exact ⟨_, _, rfl, hsteps, hmem, hstate⟩
  | cons hf hid hpre hrest ih =>
    dsimp only
    rw [multimatchHits]
    split
    · exact ⟨_, _, rfl, hsteps, hmem, hstate⟩
    · rename_i cached hhit
      obtain ⟨hvalue, herrs, hchanged, hret⟩ := hok.hit hlive hhit hpre
      rw [append_cons]
      refine ih hrest.stepsNamed (mem_cons_of_mem _ hret) ?_
      rw [multimatchState_eq, multimatchState_append, ← hstate, hvalue, herrs, hchanged rfl]

/-- What the four cached functions have in common. -/
structure Transparent (reg : Registry) (fns : TransformationName → Transformation ε) {α : Type}
    (direct : α) (out : α × Caches Var ε) : Prop where
  result : out.1 = direct
  caches : CachesOk reg fns out.2
  live : Coherent out.2.retained

section

variable (isTX : Var → Bool) {st : Caches Var ε} {chain : Chain ε}
  {names : List TransformationName} (h : Chain.Named reg fns names chain)
  (hok : CachesOk reg fns st) (hlive : Coherent (arg.value :: st.retained))

include hlive in
omit [DecidableEq Var] in
theorem retained_coherent : Coherent st.retained :=
  hlive.mono (fun _ hs => mem_cons_of_mem _ hs)

include h hok hlive

theorem transformField_ok :
    Transparent reg fns (executeTransformations chain.transformations arg.value.bytes)
      (transformField mem isTX chain st arg) := by
  unfold transformField
  split
  · rename_i hnil
    rw [length_eq_zero_iff] at hnil
    exact ⟨by rw [hnil]; rfl, hok, retained_coherent hlive⟩
  split
  · exact ⟨rfl, hok, retained_coherent hlive⟩
  · obtain ⟨hres, hrest⟩ := transformWithPrefixes_ok mem false h hok hlive
    exact ⟨hres, hrest.1, hrest.2⟩

theorem transformFieldCached_ok :
    Transparent reg fns (executeTransformations chain.transformations arg.value.bytes)
      (transformFieldCached mem isTX chain st arg) := by
  unfold transformFieldCached
  split
  · exact transformField_ok mem isTX h hok hlive
  split
  · rename_i hnil
    rw [length_eq_zero_iff] at hnil
    exact ⟨by rw [hnil]; rfl, hok, retained_coherent hlive⟩
  split
  · exact ⟨rfl, hok, retained_coherent hlive⟩
  · obtain ⟨hres, hrest⟩ := transformWithPrefixes_ok mem true h hok hlive
    exact ⟨hres, hrest.1, hrest.2⟩

theorem transformFieldMultimatchCached_ok (useSteps : Bool) (start : List Bytes) :
    Transparent reg fns
      (executeTransformationsMultimatchInto chain.transformations start arg.value.bytes)
      (transformFieldMultimatchCached mem isTX useSteps chain st arg start) := by
  unfold transformFieldMultimatchCached
  split
  · exact ⟨rfl, hok, retained_coherent hlive⟩
  · rw [executeTransformationsMultimatchInto_eq h]
    obtain ⟨done, rest, hnames, hsteps, hmem, hstate⟩ :=
      multimatchHits_ok start hok hlive h.steps (mem_cons_self ..) rfl
    obtain ⟨hres, hrest⟩ := multimatchLoop_ok mem useSteps start hsteps hok
      (coherent_locals hlive hmem) hstate
    rw [← hnames] at hres
    exact ⟨hres, hrest.1, hrest.2⟩

end

/-! ### A phase -/

structure Request (Var ε : Type) where
  chain : Chain ε
  multiMatch : Bool
  argVariable : Var
  value : Bytes

def Request.direct (q : Request Var ε) : List Bytes × List ε :=
  if q.multiMatch then executeTransformationsMultimatchInto q.chain.transformations [] q.value
  else
    let out := executeTransformations q.chain.transformations q.value
    ([out.1], out.2)

/-- The argument through the caches; it lies wherever the memory puts it. -/
def Request.eval (isTX : Var → Bool) (st : Caches Var ε) (q : Request Var ε) :
    (List Bytes × List ε) × Caches Var ε :=
  let value := mem.alloc st.clock st.retained q.value
  transformArgument mem isTX q.multiMatch q.chain { st with clock := st.clock + 1 }
    ⟨q.argVariable, value⟩

def runPhase (isTX : Var → Bool) :
    List (Request Var ε) → Caches Var ε → List (List Bytes × List ε) × Caches Var ε
  | [], st => ([], st)
  | q :: qs, st =>
    let (r, st) := q.eval mem isTX st
    let (rs, st) := runPhase isTX qs st
    (r :: rs, st)

theorem Request.eval_ok (isTX : Var → Bool) {q : Request Var ε}
    (h : Chain.Named reg fns names q.chain) (hok : CachesOk reg fns st)
    (hlive : Coherent st.retained) : Transparent reg fns q.direct (q.eval mem isTX st) := by
  have hok' := hok.tick (st.clock + 1)
  have hlive' : Coherent ((⟨q.argVariable, mem.alloc st.clock st.retained q.value⟩ : Arg Var).value
      :: Caches.retained { st with clock := st.clock + 1 }) := hlive.alloc mem st.clock q.value
  unfold Request.eval Request.direct transformArgument
  dsimp only
  split
  · split
    · exact ⟨rfl, hok', hlive⟩
    · exact transformFieldMultimatchCached_ok mem isTX h hok' hlive' true []
  · split
    · obtain ⟨hres, hc, hl⟩ := transformField_ok mem isTX h hok' hlive'
      exact ⟨by rw [hres]; rfl, hc, hl⟩
    · obtain ⟨hres, hc, hl⟩ := transformFieldCached_ok mem isTX h hok' hlive'
      exact ⟨by rw [hres]; rfl, hc, hl⟩

theorem runPhase_ok (isTX : Var → Bool) : ∀ {qs : List (Request Var ε)} {st : Caches Var ε},
    (∀ q ∈ qs, ∃ names, Chain.Named reg fns names q.chain) → CachesOk reg fns st →
    Coherent st.retained →
    Transparent reg fns (qs.map Request.direct) (runPhase mem isTX qs st) := by
  intro qs
  induction qs with
  | nil => exact fun _ hok hlive => ⟨rfl, hok, hlive⟩
  | cons q qs ih =>
    intro st hqs hok hlive
    obtain ⟨names, hq⟩ := hqs q (mem_cons_self ..)
    obtain ⟨hres, hc, hl⟩ := Request.eval_ok mem isTX hq hok hlive
    obtain ⟨hress, hcs, hls⟩ := ih (fun p hp => hqs p (mem_cons_of_mem _ hp)) hc hl
    refine ⟨?_, hcs, hls⟩
    rw [map_cons, ← hres, ← hress]
    rfl

end

/-- **The caches are transparent.**  Whatever rules were built before, a phase that
starts with empty caches hands every operator the values, and logs the errors,
that running the transformations on the argument gives. -/
theorem runPhase_eq_direct {Var ε : Type} [DecidableEq Var] (mem : Memory) (isTX : Var → Bool)
    (fns : TransformationName → Transformation ε) (ops : List BuildOp) (qs : List (Request Var ε))
    (hqs : ∀ q ∈ qs, q.chain ∈ (build fns ops).2) :
    (runPhase mem isTX qs Caches.empty).1 = qs.map Request.direct := by
  have hbuild := build_named fns ops
  exact (runPhase_ok mem isTX (fun q hq => hbuild.rules _ (hqs q hq)) (cachesOk_empty _ _)
    Coherent.nil).result

/-- Two rules that share the transformation `a`, on one long argument, with and
without multiMatch. -/
theorem runPhase_eq_direct_shared : let a : TransformationName := ⟨[0x61], by decide⟩
    let b : TransformationName := ⟨[0x62], by decide⟩
    let fns : TransformationName → Transformation Unit := fun name value =>
      if name = a then (value.reverse, true, none) else (value, false, some ())
    let ops : List BuildOp := [.newRule, .addTransformation 0 a, .addTransformation 0 b,
      .newRule, .addTransformation 1 a]
    let qs : List (Request Bool Unit) := (build fns ops).2.flatMap (fun chain =>
      [⟨chain, false, false, List.replicate 512 0x41⟩,
        ⟨chain, true, false, List.replicate 512 0x41⟩])
    qs.length = 4 ∧
      (runPhase Memory.interning id qs Caches.empty).1 = qs.map Request.direct := by
  intro a b fns ops qs
  refine ⟨by decide +kernel, runPhase_eq_direct _ _ fns ops qs (fun q hq => ?_)⟩
  obtain ⟨chain, hchain, hq⟩ := List.mem_flatMap.mp hq
  simp only [mem_cons, not_mem_nil, or_false] at hq
  rcases hq with rfl | rfl
  · exact hchain
  · exact hchain

/-! ### The budget of the step cache -/

/-- The number of entries, and the bytes that they keep alive. -/
structure TransformationStepCache.Budget {ε : Type} (cache : TransformationStepCache ε) : Prop where
  entries : cache.values.entries.length ≤ maxTransformationStepCacheEntries
  bytes : cache.retainedBytes = (cache.values.entries.map
    (fun e => e.2.input.bytes.length + e.2.output.bytes.length)).sum
  limit : cache.retainedBytes ≤ maxTransformationStepCacheBytes

/-- A key that is not there is stored within the budget, or not at all. -/
theorem TransformationStepCache.Budget.store {ε : Type} {cache : TransformationStepCache ε}
    (h : cache.Budget) {key : TransformationStepKey} (hkey : cache.values.lookup key = none)
    (value : TransformationStepValue ε) : (cache.store key value).Budget := by
  unfold TransformationStepCache.store
  dsimp only
  split
  · exact h
  split
  · exact h
  split
  · exact h
  · rename_i hentries _ hbytes
    have hinsert : (cache.values.insert key value).entries = ⟨key, value⟩ :: cache.values.entries :=
      AList.entries_insert_of_notMem (AList.lookup_eq_none.mp hkey)
    have hlimit := h.limit
    refine ⟨?_, ?_, by dsimp only; omega⟩
    · rw [hinsert]
      exact Nat.lt_of_not_le hentries
    · rw [hinsert, map_cons, sum_cons, ← h.bytes]
      exact Nat.add_comm ..

/-- A call that may change the step cache. -/
inductive CacheCall (ε : Type) where
  | execute (locals : List Str) (transformation : RuleTransformationParams ε) (input : Str)
  /-- `resetTransformationCaches`. -/
  | reset

def CacheCall.run {Var ε : Type} [DecidableEq Var] (mem : Memory) (st : Caches Var ε) :
    CacheCall ε → Caches Var ε
  | .execute locals transformation input =>
    (executeTransformationCached mem st locals transformation input).2
  | .reset => { Caches.empty with clock := st.clock }

/-- **The step cache stays within its budget**, whatever is transformed and in any order. -/
theorem stepCache_budget {Var ε : Type} [DecidableEq Var] (mem : Memory)
    (calls : List (CacheCall ε)) :
    (calls.foldl (CacheCall.run mem) (Caches.empty : Caches Var ε)).stepCache.Budget := by
  have hempty : (Caches.empty : Caches Var ε).stepCache.Budget :=
    ⟨Nat.zero_le _, rfl, Nat.zero_le _⟩
  refine List.foldlRecOn (motive := fun st : Caches Var ε => st.stepCache.Budget) calls _ hempty
    (fun st h call _ => ?_)
  cases call with
  | reset => exact hempty
  | execute locals transformation input =>
    unfold CacheCall.run executeTransformationCached
    dsimp only
    split
    · exact h
    · rename_i hkey
      exact h.store hkey _

end Coraza.Waf
