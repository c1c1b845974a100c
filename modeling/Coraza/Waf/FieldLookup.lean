import Coraza.Go.Slice
import Coraza.Waf.Variables

/-!
# Two ways to look up a field

A rule gets the entries of a target with `getFieldMatches`, which appends them to a buffer that
the transaction keeps and uses again.  `GetField` is the public way: it collects the entries in
slices of their own.  Each kind of collection has methods for both, `Append*` and `Find*`.

Here both are modelled with their buffers and with the variables that the matches carry; a map may
be iterated in another order each time.  `getField_perm` says that the results agree, and
`view_fieldMatches` that `getFieldMatches` is the second one without its buffer.
-/

namespace Coraza.Waf

open Go Collections List RuleVariableParams

instance : Inhabited Match := ⟨⟨.unknown, [], []⟩⟩

def tag (v : RuleVariable) (kv : KeyValue) : Match := ⟨v, kv.key, kv.value⟩

structure View where
  ruleVariable : RuleVariable
  keyed : Keyed

namespace View

def range (it : Iteration) (c : View) : List (Bytes × List KeyValue) := c.keyed.underlying.range it

def matchData (c : View) (lists : List (List KeyValue)) : List Match :=
  lists.flatMap (fun data => data.map (fun d => tag c.ruleVariable (c.keyed.shown d)))

def countAll (lists : List (List KeyValue)) : Nat := (lists.map List.length).sum

/-- `FindAll`: one loop counts the entries and a second one copies them. -/
def findAll (its : Nat → Iteration) (c : View) : List Match :=
  let n := countAll ((c.range (its 0)).map Prod.snd)
  if n = 0 then []
  else fill (List.replicate n default) (c.matchData ((c.range (its 1)).map Prod.snd))

def findRegex (its : Nat → Iteration) (c : View) (key : Bytes → Bool) : List Match :=
  let matched := ((c.range (its 0)).filter (fun e => key e.1)).map Prod.snd
  let n := countAll matched
  if n = 0 then [] else fill (List.replicate n default) (c.matchData matched)

/-- The matches for `data[key]`. -/
def findKey (c : View) (key : Bytes) : List Match :=
  match c.keyed.underlying.data.lookup key with
  | none => []
  | some data =>
    if data.length = 0 then []
    else fill (List.replicate data.length default) (c.matchData [data])

def findString (its : Nat → Iteration) (c : View) (key : Bytes) : List Match :=
  match c.keyed with
  | .map m =>
    if key = [] then c.findAll its
    else if m.data.entries.length = 0 then []
    else c.findKey (m.fold key)
  | .names _ => c.findKey key

def appendAll (grow : Nat → List Match) (c : View) (result : Slice Match)
    (lists : List (List KeyValue)) : Slice Match :=
  lists.foldl (fun result data =>
    result.extend grow (data.map (fun d => tag c.ruleVariable (c.keyed.shown d)))) result

def appendMatches (grow : Nat → List Match) (its : Nat → Iteration) (c : View)
    (result : Slice Match) : Slice Match :=
  c.appendAll grow result ((c.range (its 0)).map Prod.snd)

def appendMatchesRegex (grow : Nat → List Match) (its : Nat → Iteration) (c : View)
    (result : Slice Match) (key : Bytes → Bool) : Slice Match :=
  c.appendAll grow result (((c.range (its 0)).filter (fun e => key e.1)).map Prod.snd)

def appendMatchesString (grow : Nat → List Match) (its : Nat → Iteration) (c : View)
    (result : Slice Match) (key : Bytes) : Slice Match :=
  match c.keyed with
  | .map m =>
    if key = [] then c.appendMatches grow its result
    else c.appendAll grow result [m.values (m.fold key)]
  | .names m => c.appendAll grow result [m.values key]

end View

/-- What a target asks a collection for: everything, the entries of an expression or those of a
key. -/
inductive Selector where
  | all
  | regex (key : Bytes → Bool)
  | string (key : Bytes)

/-- The choice that `GetField` and `getFieldMatches` make. -/
def RuleVariableParams.selector (rv : RuleVariableParams) : Selector :=
  match rv.keyRx with
  | some rx => .regex rx
  | none => if rv.keyStr ≠ [] then .string rv.keyStr else .all

namespace View

def find (its : Nat → Iteration) (c : View) : Selector → List Match
  | .all => c.findAll its
  | .regex key => c.findRegex its key
  | .string key => c.findString its key

def append (grow : Nat → List Match) (its : Nat → Iteration) (c : View) (result : Slice Match) :
    Selector → Slice Match
  | .all => c.appendMatches grow its result
  | .regex key => c.appendMatchesRegex grow its result key
  | .string key => c.appendMatchesString grow its result key

end View

def later (its : Nat → Iteration) : Nat → Iteration := fun n => its (n + 2)

def replaceVariable (v : RuleVariable) (md : List Match) : List Match :=
  md.map (fun m => { m with argVariable := v })

/-- The `Find*` methods of `ConcatKeyed`. -/
def concatFind (v : RuleVariable) (s : Selector) : (Nat → Iteration) → List View → List Match
  | _, [] => []
  | its, d :: ds => replaceVariable v (d.find its s) ++ concatFind v s (later its) ds

/-- The `Append*` methods of `ConcatKeyed`, with `setMatchVariable` for what each collection
appended. -/
def concatAppend (grow : Nat → List Match) (v : RuleVariable) (s : Selector) :
    (Nat → Iteration) → Slice Match → List View → Slice Match
  | _, result, [] => result
  | its, result, d :: ds =>
    concatAppend grow v s (later its)
      ((d.append grow its result s).mapFrom result.len (fun m => { m with argVariable := v })) ds

/-- What `Transaction.Collection` returns, with the variables of the matches. -/
inductive TaggedCollection where
  | single (v : RuleVariable) (value : Bytes)
  | keyed (c : View)
  | concat (v : RuleVariable) (parts : List View)
  | size (v : RuleVariable) (parts : List Map)
  | noop

def concatVariables : RuleVariable → List RuleVariable
  | .args => [.argsGet, .argsPost, .argsPath]
  | .argsNames => [.argsGetNames, .argsPostNames, .unknown]
  | _ => []

def tagged (v : RuleVariable) : Collection → TaggedCollection
  | .single value => .single v value
  | .keyed c => .keyed ⟨v.shown, c⟩
  | .concat parts => .concat v (List.zipWith View.mk (concatVariables v) parts)
  | .size parts => .size v parts
  | .noop => .noop

/-! ### `GetField` -/

/-- The entries that `GetField` finds.  A collection without keys cannot be asked for one. -/
def TaggedCollection.find (its : Nat → Iteration) (s : Selector) : TaggedCollection → List Match
  | .keyed c => c.find its s
  | .concat v parts => concatFind v s its parts
  | .single v value =>
    match s with
    | .all => [⟨v, [], value⟩]
    | _ => []
  | .size v parts =>
    match s with
    | .all => [⟨v, [], bytesOf (toString (Collections.size parts))⟩]
    | _ => []
  | .noop => []

def countMatch (rv : RuleVariableParams) (n : Nat) : Match :=
  ⟨rv.ruleVariable, rv.keyStr, bytesOf (toString n)⟩

def kept (rv : RuleVariableParams) (m : Match) : Bool :=
  !isRuleVariableException m.key false rv.exceptions

def getField (its : Nat → Iteration) (vars : Variables) (rv : RuleVariableParams) : List Match :=
  match vars.collection rv.ruleVariable with
  | none => []
  | some col =>
    let found := (tagged rv.ruleVariable col).find its rv.selector
    let found :=
      if rv.exceptions.length ≠ 0 then ((Slice.ofList found []).filterInPlace (kept rv)).view
      else found
    if rv.count then [countMatch rv found.length] else found

/-! ### `getFieldMatches` -/

/-- The entries that `getFieldMatches` appends.  All collections of a transaction have the
appending methods, so that those without are not asked for here. -/
def TaggedCollection.append (grow : Nat → List Match) (its : Nat → Iteration) (s : Selector)
    (result : Slice Match) : TaggedCollection → Slice Match
  | .keyed c => c.append grow its result s
  | .concat v parts => concatAppend grow v s its result parts
  | .single v value =>
    match s with
    | .all => result.append grow ⟨v, [], value⟩
    | _ => result
  | .size v parts =>
    match s with
    | .all => result.append grow ⟨v, [], bytesOf (toString (Collections.size parts))⟩
    | _ => result
  | .noop => result

/-- `Transaction.getFieldMatches`, with the buffer `tx.fieldMatches` that it takes and leaves
there. -/
def fieldMatches (grow : Nat → List Match) (its : Nat → Iteration) (buffer : Slice Match)
    (vars : Variables) (rv : RuleVariableParams) : Slice Match :=
  match vars.collection rv.ruleVariable with
  | none => buffer.reset
  | some col =>
    let found := (tagged rv.ruleVariable col).append grow its rv.selector buffer.reset
    let found := if rv.exceptions.length ≠ 0 then found.filterInPlace (kept rv) else found
    if rv.count then found.reset.append grow (countMatch rv found.len) else found

/-! ### What the methods give -/

def Selector.entries (it : Iteration) (c : Keyed) : Selector → List KeyValue
  | .all => c.appendMatches it
  | .regex key => c.appendMatchesRegex it key
  | .string key => c.appendMatchesString it key

variable (grow : Nat → List Match) (its : Nat → Iteration)

namespace View

variable (c : View)

theorem matchData_length (lists : List (List KeyValue)) :
    (c.matchData lists).length = countAll lists := by
  unfold matchData countAll
  rw [length_flatMap]
  simp only [length_map]

theorem countAll_perm {l l' : List (List KeyValue)} (h : l.Perm l') : countAll l = countAll l' :=
  (h.map List.length).sum_nat

theorem fill_matchData {n : Nat} {lists : List (List KeyValue)} (h : n = countAll lists) :
    (if n = 0 then [] else fill (List.replicate n default) (c.matchData lists))
      = c.matchData lists := by
  split
  · rename_i hzero
    refine (eq_nil_of_length_eq_zero ?_).symm
    rw [matchData_length, ← h, hzero]
  · refine fill_eq ?_
    rw [length_replicate, matchData_length, h]

theorem matchData_range (l : List (Bytes × List KeyValue)) : c.matchData (l.map Prod.snd)
      = (l.flatMap (fun e => e.2.map c.keyed.shown)).map (tag c.ruleVariable) := by
  unfold matchData
  rw [flatMap_map, map_flatMap]
  simp only [map_map]
  rfl

theorem range_perm (it it' : Iteration) (c : View) : (c.range it).Perm (c.range it') :=
  (it.perm _).trans (it'.perm _).symm

theorem findAll_eq : c.findAll its = (c.keyed.appendMatches (its 1)).map (tag c.ruleVariable) := by
  have hcount : countAll ((c.range (its 0)).map Prod.snd)
      = countAll ((c.range (its 1)).map Prod.snd) :=
    countAll_perm ((range_perm (its 0) (its 1) c).map Prod.snd)
  exact (fill_matchData c hcount).trans (matchData_range c _)

theorem findRegex_eq (key : Bytes → Bool) :
    c.findRegex its key = (c.keyed.appendMatchesRegex (its 0) key).map (tag c.ruleVariable) := by
  exact (fill_matchData c rfl).trans (matchData_range c _)

theorem matchData_single (data : List KeyValue) :
    c.matchData [data] = (data.map c.keyed.shown).map (tag c.ruleVariable) := by
  unfold matchData
  rw [flatMap_singleton, map_map]
  rfl

theorem findKey_eq (key : Bytes) : c.findKey key
      = ((c.keyed.underlying.values key).map c.keyed.shown).map (tag c.ruleVariable) := by
  unfold findKey Map.values
  cases c.keyed.underlying.data.lookup key with
  | none => rfl
  | some data =>
    have hcount : data.length = countAll [data] := by simp [countAll]
    exact (fill_matchData c hcount).trans (matchData_single c data)

/-- **The `Find*` methods give the entries of the selector**, in the order of one iteration. -/
theorem find_eq (s : Selector) :
    ∃ it, c.find its s = (s.entries it c.keyed).map (tag c.ruleVariable) := by
  cases s with
  | all => exact ⟨its 1, findAll_eq its c⟩
  | regex key => exact ⟨its 0, findRegex_eq its c key⟩
  | string key =>
    refine ⟨its 1, ?_⟩
    obtain ⟨v, m | m⟩ := c
    · by_cases hkey : key = []
      · simp only [find, findString, Selector.entries, Keyed.appendMatchesString, if_pos hkey]
        exact findAll_eq its ⟨v, .map m⟩
      · have hvalues : (if m.data.entries.length = 0 then [] else (⟨v, .map m⟩ : View).findKey
            (m.fold key)) = (m.values (m.fold key)).map (tag v) := by
          split
          · rename_i hempty
            have hlookup : m.data.lookup (m.fold key) = none := by
              rw [AList.lookup_eq_none, AList.mem_keys, AList.keys, eq_nil_of_length_eq_zero hempty]
              exact not_mem_nil
            rw [Map.values, hlookup]
            rfl
          · refine (findKey_eq ⟨v, .map m⟩ (m.fold key)).trans ?_
            exact congrArg (List.map (tag v)) (map_id _)
        simp only [find, findString, Selector.entries, Keyed.appendMatchesString, if_neg hkey]
        exact hvalues
    · exact findKey_eq ⟨v, .names m⟩ key

theorem view_appendAll (lists : List (List KeyValue)) (result : Slice Match) :
      (c.appendAll grow result lists).view = result.view ++ c.matchData lists := by
  induction lists generalizing result with
  | nil => exact (append_nil _).symm
  | cons data lists ih =>
    refine (ih _).trans ?_
    rw [Slice.view_extend, append_assoc]
    rfl

/-- **The `Append*` methods append the entries of the selector.** -/
theorem view_append (result : Slice Match) (s : Selector) : (c.append grow its result s).view
      = result.view ++ (s.entries (its 0) c.keyed).map (tag c.ruleVariable) := by
  cases s with
  | all => exact (view_appendAll grow c _ result).trans (by rw [matchData_range]; rfl)
  | regex key => exact (view_appendAll grow c _ result).trans (by rw [matchData_range]; rfl)
  | string key =>
    obtain ⟨v, m | m⟩ := c
    · by_cases hkey : key = []
      · simp only [append, appendMatchesString, Selector.entries, Keyed.appendMatchesString,
          if_pos hkey]
        exact (view_appendAll grow ⟨v, .map m⟩ _ result).trans (by rw [matchData_range]; rfl)
      · simp only [append, appendMatchesString, Selector.entries, Keyed.appendMatchesString,
          if_neg hkey]
        rw [view_appendAll, matchData_single]
        exact congrArg (result.view ++ ·) (congrArg (List.map (tag v)) (map_id _))
    · exact (view_appendAll grow ⟨v, .names m⟩ _ result).trans (by rw [matchData_single]; rfl)

end View

theorem Selector.entries_perm (it it' : Iteration) (c : Keyed) (s : Selector) :
    (s.entries it c).Perm (s.entries it' c) := by
  have hrange : (c.underlying.range it).Perm (c.underlying.range it') :=
    (it.perm _).trans (it'.perm _).symm
  have hall : (c.appendMatches it).Perm (c.appendMatches it') := hrange.flatMap_right _
  cases s with
  | all => exact hall
  | regex key => exact (hrange.filter _).flatMap_right _
  | string key =>
    cases c with
    | map m =>
      simp only [entries, Keyed.appendMatchesString]
      split
      · exact hall
      · exact List.Perm.refl _
    | names m => exact List.Perm.refl _

/-! ### Concatenations -/

def concatEntries (s : Selector) : (Nat → Iteration) → List View → List KeyValue
  | _, [] => []
  | its, d :: ds => s.entries (its 0) d.keyed ++ concatEntries s (later its) ds

theorem concatEntries_const (s : Selector) (it : Iteration) (ds : List View) :
    concatEntries s (fun _ => it) ds = (ds.map View.keyed).flatMap (s.entries it) := by
  induction ds with
  | nil => rfl
  | cons d ds ih =>
    rw [map_cons, flatMap_cons, ← ih]
    rfl

theorem concatFind_perm (v : RuleVariable) (s : Selector)
    (ds : List View) (its its' : Nat → Iteration) :
    (concatFind v s its ds).Perm ((concatEntries s its' ds).map (tag v)) := by
  induction ds generalizing its its' with
  | nil => exact List.Perm.refl _
  | cons d ds ih =>
    obtain ⟨it, hit⟩ := d.find_eq its s
    have hfirst : replaceVariable v (d.find its s) = (s.entries it d.keyed).map (tag v) := by
      rw [hit, replaceVariable, map_map]
      rfl
    show (replaceVariable v (d.find its s) ++ concatFind v s (later its) ds).Perm _
    rw [hfirst, concatEntries, map_append]
    exact ((s.entries_perm it (its' 0) d.keyed).map _).append (ih (later its) (later its'))

theorem view_concatAppend (v : RuleVariable) (s : Selector)
    (ds : List View) (its : Nat → Iteration) (result : Slice Match) :
    (concatAppend grow v s its result ds).view
      = result.view ++ (concatEntries s its ds).map (tag v) := by
  induction ds generalizing its result with
  | nil => exact (append_nil _).symm
  | cons d ds ih =>
    refine (ih (later its) _).trans ?_
    -- only what this collection appended gets the variable of the concatenation
    rw [Slice.view_mapFrom, View.view_append, ← Slice.length_view result, take_left,
      drop_left, map_map, append_assoc, concatEntries, map_append]
    rfl

/-! ### The two lookups -/

def TaggedCollection.matches (its : Nat → Iteration) (s : Selector) : TaggedCollection → List Match
  | .keyed c => (s.entries (its 0) c.keyed).map (tag c.ruleVariable)
  | .concat v parts => (concatEntries s its parts).map (tag v)
  | .single v value =>
    match s with
    | .all => [⟨v, [], value⟩]
    | _ => []
  | .size v parts =>
    match s with
    | .all => [⟨v, [], bytesOf (toString (Collections.size parts))⟩]
    | _ => []
  | .noop => []

theorem TaggedCollection.find_perm (its its' : Nat → Iteration) (s : Selector)
    (col : TaggedCollection) : (col.find its s).Perm (col.matches its' s) := by
  cases col with
  | keyed c =>
    obtain ⟨it, hit⟩ := c.find_eq its s
    simp only [find, hit]
    exact (s.entries_perm it (its' 0) c.keyed).map _
  | concat v parts => exact concatFind_perm v s parts its its'
  | single v value => cases s <;> exact List.Perm.refl _
  | size v parts => cases s <;> exact List.Perm.refl _
  | noop => exact List.Perm.refl _

theorem TaggedCollection.view_append
    (s : Selector) (result : Slice Match) (col : TaggedCollection) :
    (col.append grow its s result).view = result.view ++ col.matches its s := by
  cases col with
  | keyed c => exact c.view_append grow its result s
  | concat v parts => exact view_concatAppend grow v s parts its result
  | single v value =>
    cases s with
    | all => exact Slice.view_append grow result _
    | regex key => exact (append_nil _).symm
    | string key => exact (append_nil _).symm
  | size v parts =>
    cases s with
    | all => exact Slice.view_append grow result _
    | regex key => exact (append_nil _).symm
    | string key => exact (append_nil _).symm
  | noop => exact (append_nil _).symm

/-- What both lookups make of the matches of a collection. -/
def finish (rv : RuleVariableParams) (found : List Match) : List Match :=
  let found := if rv.exceptions.length ≠ 0 then found.filter (kept rv) else found
  if rv.count then [countMatch rv found.length] else found

theorem finish_perm (rv : RuleVariableParams) {l l' : List Match} (h : l.Perm l') :
    (finish rv l).Perm (finish rv l') := by
  have hkept : (if rv.exceptions.length ≠ 0 then l.filter (kept rv) else l).Perm
      (if rv.exceptions.length ≠ 0 then l'.filter (kept rv) else l') := by
    split
    · exact h.filter _
    · exact h
  unfold finish
  dsimp only
  split
  · rw [hkept.length_eq]
  · exact hkept

theorem getField_eq (vars : Variables) (rv : RuleVariableParams) :
    getField its vars rv = match vars.collection rv.ruleVariable with
      | none => []
      | some col => finish rv ((tagged rv.ruleVariable col).find its rv.selector) := by
  unfold getField finish
  cases vars.collection rv.ruleVariable with
  | none => rfl
  | some col => simp only [Slice.view_filterInPlace, Slice.view_ofList]

theorem view_fieldMatches_eq (buffer : Slice Match) (vars : Variables) (rv : RuleVariableParams) :
    (fieldMatches grow its buffer vars rv).view = match vars.collection rv.ruleVariable with
      | none => []
      | some col => finish rv ((tagged rv.ruleVariable col).matches its rv.selector) := by
  unfold fieldMatches
  cases vars.collection rv.ruleVariable with
  | none => exact Slice.view_reset buffer
  | some col =>
    have hfound : ((tagged rv.ruleVariable col).append grow its rv.selector buffer.reset).view
        = (tagged rv.ruleVariable col).matches its rv.selector := by
      rw [TaggedCollection.view_append, Slice.view_reset, nil_append]
    dsimp only
    generalize (tagged rv.ruleVariable col).append grow its rv.selector buffer.reset = found
      at hfound ⊢
    have hkept : (if rv.exceptions.length ≠ 0 then found.filterInPlace (kept rv) else found).view
        = if rv.exceptions.length ≠ 0 then found.view.filter (kept rv) else found.view := by
      split
      · exact Slice.view_filterInPlace (kept rv) found
      · rfl
    unfold finish
    dsimp only
    rw [← hfound, ← hkept]
    split
    · rw [Slice.view_append, Slice.view_reset, Slice.length_view, nil_append]
    · rfl

variable {vars : Variables} {v : RuleVariable}

theorem collection_single {value : Bytes} (h : vars.collection v = some (.single value)) :
    v.shown = v := by
  cases v <;> cases h <;> rfl

theorem collection_size {parts : List Map} (h : vars.collection v = some (.size parts)) :
    v.shown = v := by
  cases v <;> cases h
  rfl

theorem collection_concat {parts : List Keyed} (h : vars.collection v = some (.concat parts)) :
    v.shown = v ∧ (List.zipWith View.mk (concatVariables v) parts).map View.keyed = parts := by
  cases v <;> cases h <;> exact ⟨rfl, rfl⟩

variable (it : Iteration)

theorem selectMatches_keyed (c : Keyed) (rv : RuleVariableParams) :
    selectMatches it (.keyed c) rv = rv.selector.entries it c := by
  unfold selectMatches selector
  cases rv.keyRx with
  | some rx => rfl
  | none =>
    dsimp only
    split <;> rfl

theorem selectMatches_concat (parts : List Keyed) (rv : RuleVariableParams) :
    selectMatches it (.concat parts) rv = parts.flatMap (rv.selector.entries it) := by
  unfold selectMatches selector
  cases rv.keyRx with
  | some rx => rfl
  | none =>
    dsimp only
    split <;> rfl

/-- The matches of a collection are the entries that the rule loop selects. -/
theorem matches_eq {rv : RuleVariableParams} {col : Collection}
    (h : vars.collection rv.ruleVariable = some col) (it : Iteration) :
    (tagged rv.ruleVariable col).matches (fun _ => it) rv.selector
      = (selectMatches it col rv).map (tag rv.ruleVariable.shown) := by
  cases col with
  | keyed c =>
    rw [selectMatches_keyed]
    rfl
  | concat parts =>
    obtain ⟨hshown, hparts⟩ := collection_concat h
    rw [selectMatches_concat, hshown]
    simp only [tagged, TaggedCollection.matches, concatEntries_const, hparts]
  | single value =>
    rw [collection_single h]
    unfold selectMatches selector
    cases rv.keyRx with
    | some rx => rfl
    | none =>
      dsimp only
      split <;> rfl
  | size parts =>
    rw [collection_size h]
    unfold selectMatches selector
    cases rv.keyRx with
    | some rx => rfl
    | none =>
      dsimp only
      split <;> rfl
  | noop =>
    unfold selectMatches
    cases rv.keyRx with
    | some rx => rfl
    | none =>
      dsimp only
      split <;> rfl

/-- **The buffer does not matter**: `getFieldMatches` gives a rule the matches that the model of
the rule loop works with. -/
theorem view_fieldMatches (buffer : Slice Match) (vars : Variables) (rv : RuleVariableParams) :
    (fieldMatches grow (fun _ => it) buffer vars rv).view = getFieldMatches it vars rv := by
  rw [view_fieldMatches_eq]
  unfold getFieldMatches
  cases hcol : vars.collection rv.ruleVariable with
  | none => rfl
  | some col =>
    dsimp only
    rw [matches_eq hcol]
    unfold finish
    generalize selectMatches it col rv = selected
    have hkept : (if rv.exceptions.length ≠ 0
          then (selected.map (tag rv.ruleVariable.shown)).filter (kept rv)
          else selected.map (tag rv.ruleVariable.shown))
        = (if rv.exceptions.length ≠ 0
            then selected.filter (fun kv => !isRuleVariableException kv.key false rv.exceptions)
            else selected).map (tag rv.ruleVariable.shown) := by
      split
      · rw [filter_map]
        rfl
      · rfl
    dsimp only
    rw [hkept, length_map]
    rfl

theorem getField_perm_finish (its its' : Nat → Iteration) (vars : Variables)
    (rv : RuleVariableParams) :
    (getField its vars rv).Perm (match vars.collection rv.ruleVariable with
      | none => []
      | some col => finish rv ((tagged rv.ruleVariable col).matches its' rv.selector)) := by
  rw [getField_eq]
  cases vars.collection rv.ruleVariable with
  | none => exact List.Perm.refl _
  | some col => exact finish_perm rv (TaggedCollection.find_perm its its' rv.selector _)

/-- `GetField` and the lookup of the rule loop. -/
theorem getFieldPerm_getFieldMatches (vars : Variables)
    (rv : RuleVariableParams) : (getField its vars rv).Perm (getFieldMatches it vars rv) := by
  rw [← view_fieldMatches (fun _ => []) it (Slice.ofList [] []), view_fieldMatches_eq]
  exact getField_perm_finish its _ vars rv

/-- **Both lookups agree**, whatever the buffer held and in whatever orders the maps are
iterated. -/
theorem getField_perm (its its' : Nat → Iteration)
    (buffer : Slice Match) (vars : Variables) (rv : RuleVariableParams) :
    (getField its vars rv).Perm (fieldMatches grow its' buffer vars rv).view := by
  rw [view_fieldMatches_eq]
  exact getField_perm_finish its its' vars rv

end Coraza.Waf
