import Coraza.BodyProcessors.Urlencoded

/-!
# JSON bodies

A document is flattened: a scalar is an argument whose name is the path to it, and an array
that is not empty has its length under its own path.  `readItems_eq` says that the flattened
map assigns the entries of the document one after the other, so a path that occurs again
replaces what it had.  The collection of arguments then files the paths by default in lower
case, in any order, and keeps one value for each.

`json_leaves_iff` says when no scalar of the document is lost on the way.
-/

namespace Coraza.BodyProcessors

open Go Collections Waf List Maps

/-! ### Documents -/

/-- A value that `gjson` found.  Numbers and booleans are given by their text. -/
inductive Json where
  | null
  | string (str : Bytes)
  | raw (text : Bytes)
  | array (elems : List Json)
  | object (members : List (Bytes × Json))

/-- The functions of package `gjson`.  A result that does not exist is given as an object
without members: `ForEach` does nothing for either. -/
structure Gjson where
  parse : Bytes → Json
  valid : Bytes → Bool

inductive JsonKey where
  | string (str : Bytes)
  | number (num : Nat)

def Json.text : Json → Option Bytes
  | null => some []
  | string str => some str
  | raw text => some text
  | array _ | object _ => none

/-! ### Flattening -/

abbrev JsonMap := AList (fun _ : Bytes => Bytes)

/-- The variables of `readItems` that the function passed to `ForEach` changes. -/
structure Items where
  objKey : Bytes
  arrayLen : Nat
  res : JsonMap
  iterationError : Option Bytes

def appendKey (objKey : Bytes) : JsonKey → Bytes
  | .string str => objKey ++ [0x2E] ++ str
  | .number num => objKey ++ [0x2E] ++ Strconv.itoa num

def countKey (arrayLen : Nat) : JsonKey → Nat
  | .string _ => arrayLen
  | .number _ => arrayLen + 1

/-- The function that `readItems` passes to `ForEach`, for a given recursive call; it returns
whether to go on.  After an error the path keeps the key. -/
def readItem (read : Bytes → JsonMap → JsonMap × Option Bytes) (key : JsonKey) (value : Json)
    (s : Items) : Items × Bool :=
  let objKey := appendKey s.objKey key
  let arrayLen := countKey s.arrayLen key
  match value.text with
  | some val => ({ s with arrayLen, res := s.res.insert objKey val }, true)
  | none =>
    match read objKey s.res with
    | (res, some err) => (⟨objKey, arrayLen, res, some err⟩, false)
    | (res, none) => (⟨s.objKey, arrayLen, res, none⟩, true)

def Items.finish (s : Items) : JsonMap × Option Bytes :=
  (if s.arrayLen > 0 then s.res.insert s.objKey (Strconv.itoa s.arrayLen) else s.res,
    s.iterationError)

mutual

/-- `readItems`.  `ForEach` calls the function once for a scalar, with a key that is no
string. -/
def readItems : Json → Int → Bytes → JsonMap → JsonMap × Option Bytes
  | json, maxRecursion, objKey, res =>
    if maxRecursion = 0 then
      (res, some (bytesOf "max recursion reached while reading json object"))
    else
      match json with
      | .array elems => (readElems elems 0 (maxRecursion - 1) ⟨objKey, 0, res, none⟩).finish
      | .object members => (readMembers members (maxRecursion - 1) ⟨objKey, 0, res, none⟩).finish
      | json => (readItem (fun _ res => (res, none)) (.number 0) json
        ⟨objKey, 0, res, none⟩).1.finish

def readElems : List Json → Nat → Int → Items → Items
  | [], _, _, s => s
  | value :: rest, i, maxRecursion, s =>
    match readItem (readItems value maxRecursion) (.number i) value s with
    | (s, true) => readElems rest (i + 1) maxRecursion s
    | (s, false) => s

def readMembers : List (Bytes × Json) → Int → Items → Items
  | [], _, s => s
  | (name, value) :: rest, maxRecursion, s =>
    match readItem (readItems value maxRecursion) (.string name) value s with
    | (s, true) => readMembers rest maxRecursion s
    | (s, false) => s

end

def readJSON (gjson : Gjson) (s : Bytes) (maxRecursion : Int) : JsonMap × Option Bytes :=
  let (res, err) := readItems (gjson.parse s) maxRecursion (bytesOf "json") ∅
  match err with
  | some err => (res, some err)
  | none => if gjson.valid s then (res, none) else (res, some (bytesOf "invalid JSON"))

def setFirstAll (m : Map) (l : List (Bytes × Bytes)) : Map :=
  l.foldl (fun m e => m.setIndex e.1 0 e.2) m

/-- The two methods of `jsonBodyProcessor`: the collection that is filled, the recursion limit
and the key of `TX` for the whole body. -/
def jsonProcess (gjson : Gjson) (col : RuleVariable) (maxRecursion : Int) (rawKey : Bytes)
    (it : Iteration) (ss : Bytes) (vars : Variables) : Variables × Option Bytes :=
  let (data, err) := readJSON gjson ss maxRecursion
  let vars := vars.modifyMap col (fun m => setFirstAll m (it.entries data))
  match err with
  | some err => (vars, some err)
  | none => (vars.modifyMap .tx (fun m => m.set rawKey [ss]), none)

def ignoreJSONRecursionLimit : Int := -1

def jsonProcessRequest (gjson : Gjson) (it : Iteration) (ss : Bytes)
    (bpo : BodyProcessorOptions) (vars : Variables) : Variables × Option Bytes :=
  jsonProcess gjson .argsPost bpo.requestBodyRecursionLimit (bytesOf "json_request_body") it ss vars

def jsonProcessResponse (gjson : Gjson) (it : Iteration) (ss : Bytes) (vars : Variables) :
    Variables × Option Bytes :=
  jsonProcess gjson .responseArgs ignoreJSONRecursionLimit (bytesOf "json_response_body") it ss vars

theorem jsonProcess_single (gjson : Gjson) (col : RuleVariable) (maxRecursion : Int)
    (rawKey : Bytes) (it : Iteration) (ss : Bytes) (vars : Variables) :
    (jsonProcess gjson col maxRecursion rawKey it ss vars).1.single = vars.single := by
  unfold jsonProcess
  dsimp only
  split <;> rfl

def jsonBodyProcessor (gjson : Gjson) (iteration : Nat → Iteration) : BodyProcessor where
  processRequest n body options vars := jsonProcessRequest gjson (iteration n) body options vars
  processResponse n body _ vars := jsonProcessResponse gjson (iteration n) body vars
  contentType := fun _ _ _ _ => congrFun (jsonProcess_single ..) _

/-! ### The entries of a document -/

mutual

def Json.items (path : Bytes) : Json → List (Bytes × Bytes)
  | .null => [(path, [])]
  | .string str => [(path, str)]
  | .raw text => [(path, text)]
  | .array elems => elemItems path 0 elems ++
      if elems.length > 0 then [(path, Strconv.itoa elems.length)] else []
  | .object members => memberItems path members

def elemItems (path : Bytes) (i : Nat) : List Json → List (Bytes × Bytes)
  | [] => []
  | value :: rest => value.items (appendKey path (.number i)) ++ elemItems path (i + 1) rest

def memberItems (path : Bytes) : List (Bytes × Json) → List (Bytes × Bytes)
  | [] => []
  | (name, value) :: rest => value.items (appendKey path (.string name)) ++ memberItems path rest

end

/-- The entries of a document.  A scalar is treated as the only element of an array. -/
def Json.document (json : Json) (path : Bytes) : List (Bytes × Bytes) :=
  match json.text with
  | some val => [(appendKey path (.number 0), val), (path, Strconv.itoa 1)]
  | none => json.items path

mutual

def Json.leaves : Json → List Bytes
  | .null => [[]]
  | .string str => [str]
  | .raw text => [text]
  | .array elems => elemLeaves elems
  | .object members => memberLeaves members

def elemLeaves : List Json → List Bytes
  | [] => []
  | value :: rest => value.leaves ++ elemLeaves rest

def memberLeaves : List (Bytes × Json) → List Bytes
  | [] => []
  | (_, value) :: rest => value.leaves ++ memberLeaves rest

end

mutual

def Json.depth : Json → Nat
  | .array elems => elemDepth elems + 1
  | .object members => memberDepth members + 1
  | _ => 0

def elemDepth : List Json → Nat
  | [] => 0
  | value :: rest => max value.depth (elemDepth rest)

def memberDepth : List (Bytes × Json) → Nat
  | [] => 0
  | (_, value) :: rest => max value.depth (memberDepth rest)

end

/-- The document does not reach the recursion limit; a negative limit is none. -/
def Json.Within (json : Json) (maxRecursion : Int) : Prop :=
  maxRecursion < 0 ∨ 0 < maxRecursion ∧ (json.depth : Int) ≤ maxRecursion

/-! ### The flattened map -/

theorem readItem_eq {read : Bytes → JsonMap → JsonMap × Option Bytes} {objKey : Bytes}
    {key : JsonKey} {value : Json} (hread : value.text = none → ∀ res,
      read (appendKey objKey key) res
        = (assignAll res (value.items (appendKey objKey key)), none))
    (arrayLen : Nat) (res : JsonMap) :
    readItem read key value ⟨objKey, arrayLen, res, none⟩
      = (⟨objKey, countKey arrayLen key,
          assignAll res (value.items (appendKey objKey key)), none⟩, true) := by
  unfold readItem
  cases hvalue : value.text with
  | some val =>
    have hitems : value.items (appendKey objKey key) = [(appendKey objKey key, val)] := by
      cases value <;> cases hvalue <;> rfl
    rw [hitems]
    rfl
  | none =>
    dsimp only
    rw [hread hvalue res]

theorem within_child {value : Json} {maxRecursion : Int}
    (h : maxRecursion < 0 ∨ (value.depth : Int) ≤ maxRecursion) (hvalue : value.text = none) :
    value.Within maxRecursion := by
  have hpos : 0 < value.depth := by
    cases value with
    | array elems => exact Nat.succ_pos _
    | object members => exact Nat.succ_pos _
    | _ => cases hvalue
  unfold Json.Within
  omega

theorem document_eq_items {value : Json} (hvalue : value.text = none) (path : Bytes) :
    value.document path = value.items path := by
  unfold Json.document
  rw [hvalue]

theorem Json.Within.ne_zero {json : Json} {maxRecursion : Int} (h : json.Within maxRecursion) :
    maxRecursion ≠ 0 := by
  unfold Json.Within at h
  omega

mutual

/-- **The flattened map assigns the entries of the document.** -/
theorem readItems_eq : ∀ (json : Json) {maxRecursion : Int}, json.Within maxRecursion →
    ∀ (objKey : Bytes) (res : JsonMap), readItems json maxRecursion objKey res
      = (assignAll res (json.document objKey), none)
  | .array elems, maxRecursion, h, objKey, res => by
    have hchild : maxRecursion - 1 < 0 ∨ (elemDepth elems : Int) ≤ maxRecursion - 1 := by
      unfold Json.Within Json.depth at h
      omega
    unfold readItems
    rw [if_neg h.ne_zero]
    dsimp only
    rw [readElems_eq elems 0 hchild, document_eq_items rfl]
    unfold Items.finish Json.items
    rw [assignAll_append, Nat.zero_add]
    split_ifs <;> rfl
  | .object members, maxRecursion, h, objKey, res => by
    have hchild : maxRecursion - 1 < 0 ∨ (memberDepth members : Int) ≤ maxRecursion - 1 := by
      unfold Json.Within Json.depth at h
      omega
    unfold readItems
    rw [if_neg h.ne_zero]
    dsimp only
    rw [readMembers_eq members hchild]
    rfl
  | .null, maxRecursion, h, objKey, res => by
    unfold readItems
    rw [if_neg h.ne_zero]
    rfl
  | .string str, maxRecursion, h, objKey, res => by
    unfold readItems
    rw [if_neg h.ne_zero]
    rfl
  | .raw text, maxRecursion, h, objKey, res => by
    unfold readItems
    rw [if_neg h.ne_zero]
    rfl

theorem readElems_eq : ∀ (elems : List Json) (i : Nat) {maxRecursion : Int},
    (maxRecursion < 0 ∨ (elemDepth elems : Int) ≤ maxRecursion) →
    ∀ (objKey : Bytes) (arrayLen : Nat) (res : JsonMap),
      readElems elems i maxRecursion ⟨objKey, arrayLen, res, none⟩
        = ⟨objKey, arrayLen + elems.length, assignAll res (elemItems objKey i elems), none⟩
  | [], i, maxRecursion, h, objKey, arrayLen, res => rfl
  | value :: rest, i, maxRecursion, h, objKey, arrayLen, res => by
    unfold elemDepth at h
    have hread : value.text = none → ∀ res, readItems value maxRecursion
        (appendKey objKey (.number i)) res
        = (assignAll res (value.items (appendKey objKey (.number i))), none) := by
      intro hvalue res
      rw [readItems_eq value (within_child (by omega) hvalue), document_eq_items hvalue]
    unfold readElems
    rw [readItem_eq hread]
    dsimp only
    rw [readElems_eq rest (i + 1) (by omega)]
    rw [elemItems, assignAll_append, length_cons, Nat.add_comm rest.length 1, ← Nat.add_assoc]
    rfl

theorem readMembers_eq : ∀ (members : List (Bytes × Json)) {maxRecursion : Int},
    (maxRecursion < 0 ∨ (memberDepth members : Int) ≤ maxRecursion) →
    ∀ (objKey : Bytes) (arrayLen : Nat) (res : JsonMap),
      readMembers members maxRecursion ⟨objKey, arrayLen, res, none⟩
        = ⟨objKey, arrayLen, assignAll res (memberItems objKey members), none⟩
  | [], maxRecursion, h, objKey, arrayLen, res => rfl
  | (name, value) :: rest, maxRecursion, h, objKey, arrayLen, res => by
    unfold memberDepth at h
    have hread : value.text = none → ∀ res, readItems value maxRecursion
        (appendKey objKey (.string name)) res
        = (assignAll res (value.items (appendKey objKey (.string name))), none) := by
      intro hvalue res
      rw [readItems_eq value (within_child (by omega) hvalue), document_eq_items hvalue]
    unfold readMembers
    rw [readItem_eq hread]
    dsimp only
    rw [readMembers_eq rest (by omega)]
    rw [memberItems, assignAll_append]
    rfl

end

mutual

theorem leaves_subset : ∀ (value : Json) (path : Bytes), ∀ v ∈ value.leaves,
    ∃ k, (k, v) ∈ value.items path
  | .null, path, v, hv => ⟨path, by rw [List.mem_singleton.mp hv]; exact List.mem_singleton.mpr rfl⟩
  | .string str, path, v, hv =>
    ⟨path, by rw [List.mem_singleton.mp hv]; exact List.mem_singleton.mpr rfl⟩
  | .raw text, path, v, hv =>
    ⟨path, by rw [List.mem_singleton.mp hv]; exact List.mem_singleton.mpr rfl⟩
  | .array elems, path, v, hv => by
    obtain ⟨k, hk⟩ := elemLeaves_subset elems path 0 v hv
    exact ⟨k, mem_append_left _ hk⟩
  | .object members, path, v, hv => memberLeaves_subset members path v hv

theorem elemLeaves_subset : ∀ (elems : List Json) (path : Bytes) (i : Nat), ∀ v ∈ elemLeaves elems,
    ∃ k, (k, v) ∈ elemItems path i elems
  | value :: rest, path, i, v, hv => by
    rw [elemLeaves, mem_append] at hv
    rcases hv with hv | hv
    · obtain ⟨k, hk⟩ := leaves_subset value (appendKey path (.number i)) v hv
      exact ⟨k, mem_append_left _ hk⟩
    · obtain ⟨k, hk⟩ := elemLeaves_subset rest path (i + 1) v hv
      exact ⟨k, mem_append_right _ hk⟩

theorem memberLeaves_subset : ∀ (members : List (Bytes × Json)) (path : Bytes),
    ∀ v ∈ memberLeaves members, ∃ k, (k, v) ∈ memberItems path members
  | (name, value) :: rest, path, v, hv => by
    rw [memberLeaves, mem_append] at hv
    rcases hv with hv | hv
    · obtain ⟨k, hk⟩ := leaves_subset value (appendKey path (.string name)) v hv
      exact ⟨k, mem_append_left _ hk⟩
    · obtain ⟨k, hk⟩ := memberLeaves_subset rest path v hv
      exact ⟨k, mem_append_right _ hk⟩

end

/-! ### The arguments -/

/-- A collection that was empty keeps one value for each key. -/
theorem setFirstAll_eq : ∀ (l : List (Bytes × Bytes)) {m : Map}, (∀ f, (m.values f).length ≤ 1) →
    setFirstAll m l = m.setAll (l.map (fun e => (e.1, [e.2]))) := by
  intro l
  induction l with
  | nil => exact fun _ => rfl
  | cons e l ih =>
    intro m hm
    have hstep : setFirstAll m (e :: l) = setFirstAll (m.setIndex e.1 0 e.2) l := rfl
    rw [hstep, Map.setIndex_zero (hm _), ih]
    · rfl
    · intro f
      rw [Map.values_set]
      split_ifs
      · exact le_refl 1
      · exact hm f

/-- The pairs of the collection: under each key the one that was set last. -/
theorem mem_pairs_setFirstAll {m : Map} (hm : m.data = ∅) (l : List (Bytes × Bytes))
    (kv : KeyValue) : kv ∈ (setFirstAll m l).pairs ↔
      ∃ f, lastAt (l.map (fun e => (m.fold e.1, e))) f = some (kv.key, kv.value) := by
  have hone : ∀ f, (m.values f).length ≤ 1 := by
    intro f
    unfold Map.values
    rw [hm]
    exact Nat.zero_le 1
  have hfiling : (l.map (fun e => (e.1, [e.2]))).map m.filing
      = (l.map (fun e => (m.fold e.1, e))).map
        (Prod.map id (fun e => [(⟨e.1, e.2⟩ : KeyValue)])) := by
    rw [map_map, map_map]
    rfl
  rw [setFirstAll_eq l hone, Map.mem_pairs]
  refine exists_congr (fun f => ?_)
  rw [Map.values_setAll hm, hfiling, lastAt_map]
  cases lastAt (l.map (fun e => (m.fold e.1, e))) f with
  | none => simp
  | some e =>
    obtain ⟨k, v⟩ := e
    obtain ⟨k', v'⟩ := kv
    simp [eq_comm]

/-- The text `v` is kept whatever the order: some path has it, and so has every path that the
collection does not tell from that one. -/
def Kept (m : Map) (entries : List (Bytes × Bytes)) (v : Bytes) : Prop :=
  ∃ k ∈ entries.map Prod.fst, ∀ k' ∈ entries.map Prod.fst, m.fold k' = m.fold k →
    lastAt entries k' = some v

theorem kept_of_distinct {m : Map} {entries : List (Bytes × Bytes)}
    (h : (entries.map (fun e => m.fold e.1)).Nodup) {k v : Bytes} (hkv : (k, v) ∈ entries) :
    Kept m entries v := by
  refine ⟨k, mem_map_of_mem hkv, fun k' hk' hfold => ?_⟩
  obtain ⟨e, he, rfl⟩ := List.mem_map.mp hk'
  obtain rfl : e = (k, v) := inj_on_of_nodup_map h he hkv hfold
  refine lastAt_of_mem (List.Nodup.of_map m.fold ?_) hkv
  rwa [map_map]

section

variable {m : Map} (hm : m.data = ∅) (entries : List (Bytes × Bytes))

theorem mem_entries_assignAll (it : Iteration) {e : Bytes × Bytes} :
    e ∈ it.entries (assignAll ∅ entries) ↔ lastAt entries e.1 = some e.2 := by
  rw [it.mem_entries, lookup_assignAll]
  show (lastAt entries e.1).or none = _ ↔ _
  rw [Option.or_none]

include hm

theorem pairs_of_kept {v : Bytes} (hv : Kept m entries v) (it : Iteration) :
    ∃ kv ∈ (setFirstAll m (it.entries (assignAll ∅ entries))).pairs, kv.value = v := by
  obtain ⟨k, hk, hall⟩ := hv
  have hmem : (k, v) ∈ it.entries (assignAll ∅ entries) :=
    (mem_entries_assignAll entries it).mpr (hall k hk rfl)
  have hsome : (lastAt ((it.entries (assignAll ∅ entries)).map
      (fun e => (m.fold e.1, e))) (m.fold k)).isSome = true := by
    refine lastAt_isSome.mpr ?_
    rw [map_map]
    exact List.mem_map.mpr ⟨_, hmem, rfl⟩
  obtain ⟨e, hlast⟩ := Option.isSome_iff_exists.mp hsome
  obtain ⟨e', he', heq⟩ := List.mem_map.mp (mem_of_lastAt hlast)
  obtain ⟨hfold, rfl⟩ := Prod.mk.inj heq
  have he := (mem_entries_assignAll entries it).mp he'
  have hpath : e'.1 ∈ entries.map Prod.fst := lastAt_isSome.mp (by rw [he]; rfl)
  have hvalue : e'.2 = v := Option.some.inj (he.symm.trans (hall e'.1 hpath hfold))
  exact ⟨⟨e'.1, e'.2⟩, (mem_pairs_setFirstAll hm _ _).mpr ⟨_, hlast⟩, hvalue⟩

/-- A text that is not kept is lost if the paths that have it come first. -/
theorem exists_lost {v : Bytes} (hv : ¬ Kept m entries v) :
    ∃ it : Iteration, ∀ kv ∈ (setFirstAll m (it.entries (assignAll ∅ entries))).pairs,
      kv.value ≠ v := by
  have hperm := filter_append_perm (fun e : Bytes × Bytes => e.2 = v)
    ((assignAll ∅ entries).entries.map (fun e => (e.1, e.2)))
  obtain ⟨it, hit⟩ := exists_iteration hperm
  refine ⟨it, fun kv hkv hvalue => hv ?_⟩
  obtain ⟨f, hlast⟩ := (mem_pairs_setFirstAll hm _ _).mp hkv
  obtain ⟨e, he, heq⟩ := List.mem_map.mp (mem_of_lastAt hlast)
  obtain ⟨rfl, rfl⟩ := Prod.mk.inj heq
  have hkey : lastAt entries kv.key = some kv.value :=
    (mem_entries_assignAll entries it).mp he
  refine ⟨kv.key, lastAt_isSome.mp (by rw [hkey]; rfl), fun k' hk' hfold => ?_⟩
  obtain ⟨w, hw⟩ := Option.isSome_iff_exists.mp (lastAt_isSome.mpr hk')
  by_contra hne
  have hw' : w ≠ v := fun h => hne (hw.trans (congrArg some h))
  -- the path comes in the second part, so the last one of its key does too
  have hmem : (k', w) ∈ it.entries (assignAll ∅ entries) :=
    (mem_entries_assignAll entries it).mpr hw
  unfold Iteration.entries at hmem hlast
  rw [hit] at hmem hlast
  have hsecond : (k', w) ∈ ((assignAll ∅ entries).entries.map
      (fun e => (e.1, e.2))).filter (fun e => !decide (e.2 = v)) := by
    refine (List.mem_append.mp hmem).resolve_left (fun h => hw' ?_)
    simpa using (List.mem_filter.mp h).2
  rw [map_append, lastAt_append_right] at hlast
  · obtain ⟨e', he', heq'⟩ := List.mem_map.mp (mem_of_lastAt hlast)
    obtain ⟨-, rfl⟩ := Prod.mk.inj heq'
    exact absurd hvalue (by simpa using (List.mem_filter.mp he').2)
  · rw [map_map]
    exact List.mem_map.mpr ⟨(k', w), hsecond, hfold⟩

end

/-- **When a JSON body loses no scalar.**  For a valid document within the recursion limit,
every scalar is the value of some argument whatever the order of the map, if and only if each
scalar is kept. -/
theorem json_leaves_iff (gjson : Gjson) (n : Nat) {body : Bytes} (hvalid : gjson.valid body = true)
    {options : BodyProcessorOptions}
    (hwithin : (gjson.parse body).Within options.requestBodyRecursionLimit) {vars : Variables}
    (hempty : (vars.map .argsPost).data = ∅) :
    (∀ iteration, ∀ v ∈ (gjson.parse body).leaves,
      ∃ kv ∈ (((jsonBodyProcessor gjson iteration).processRequest n body options vars).1.map
        .argsPost).pairs, kv.value = v) ↔
      ∀ v ∈ (gjson.parse body).leaves,
        Kept (vars.map .argsPost) ((gjson.parse body).document (bytesOf "json")) v := by
  have hargs : ∀ iteration : Nat → Iteration,
      ((jsonBodyProcessor gjson iteration).processRequest n body options vars).1.map .argsPost
        = setFirstAll (vars.map .argsPost) ((iteration n).entries
          (assignAll ∅ ((gjson.parse body).document (bytesOf "json")))) := by
    intro iteration
    have hread : readJSON gjson body options.requestBodyRecursionLimit
        = (assignAll ∅ ((gjson.parse body).document (bytesOf "json")), none) := by
      unfold readJSON
      rw [readItems_eq _ hwithin]
      dsimp only
      rw [if_pos hvalid]
    show ((jsonProcess gjson .argsPost _ _ (iteration n) body vars).1).map .argsPost = _
    unfold jsonProcess
    rw [hread]
    rw [Variables.modifyMap_map_of_ne _ (by decide), Variables.modifyMap_map_self]
  constructor
  · intro hall v hv
    by_contra hkept
    obtain ⟨it, hlost⟩ := exists_lost hempty _ hkept
    obtain ⟨kv, hkv, hvalue⟩ := hall (fun _ => it) v hv
    rw [hargs] at hkv
    exact hlost kv hkv hvalue
  · intro hkept iteration v hv
    rw [hargs]
    exact pairs_of_kept hempty _ (hkept v hv) (iteration n)

def constantGjson (json : Json) : Gjson := ⟨fun _ => json, fun _ => true⟩

/-- The document `{"a":{"b":1},"c":[true,null]}`. -/
def distinctDocument : Json :=
  .object [(bytesOf "a", .object [(bytesOf "b", .raw (bytesOf "1"))]),
    (bytesOf "c", .array [.raw (bytesOf "true"), .null])]

/-- A document whose paths are all told apart loses nothing. -/
theorem json_leaves_distinct : distinctDocument.leaves = [bytesOf "1", bytesOf "true", []] ∧
    ∀ iteration, ∀ v ∈ distinctDocument.leaves,
      ∃ kv ∈ (((jsonBodyProcessor (constantGjson distinctDocument) iteration).processRequest 0
        (bytesOf "\x7b\"a\":\x7b\"b\":1\x7d,\"c\":[true,null]\x7d") ⟨[], [], 1024⟩ .new).1.map
        .argsPost).pairs, kv.value = v := by
  refine ⟨by decide +kernel, (json_leaves_iff (constantGjson distinctDocument) 0 rfl
    (.inr (by decide +kernel)) rfl).mpr (fun v hv => ?_)⟩
  obtain ⟨k, hk⟩ := leaves_subset distinctDocument (bytesOf "json") v hv
  exact kept_of_distinct (by decide +kernel) hk

/-- The document `{"a":1,"A":2}`. -/
def caseDocument : Json :=
  .object [(bytesOf "a", .raw (bytesOf "1")), (bytesOf "A", .raw (bytesOf "2"))]

/-- **Of two members whose names differ only in case one is lost**, and the order of the map
decides which. -/
theorem json_leaves_case : caseDocument.leaves = [bytesOf "1", bytesOf "2"] ∧
    [Iteration.stored, ⟨List.reverse, List.reverse_perm⟩].map (fun it =>
      (((jsonBodyProcessor (constantGjson caseDocument) (fun _ => it)).processRequest 0
        (bytesOf "\x7b\"a\":1,\"A\":2\x7d") ⟨[], [], 1024⟩ .new).1.map .argsPost).pairs.map
          KeyValue.value) = [[bytesOf "1"], [bytesOf "2"]] := by
  decide +kernel

end Coraza.BodyProcessors
