import Coraza.Go.Maps
import Coraza.Go.Strings

/-!
# Collections

The values that rules look at live in collections.  A `Map` has lists of
key-value pairs under keys; by default it lowers the keys it is asked for, and
each pair remembers how its key was spelt.  The other collections are views: the
names of a map, several collections one after the other, their total size.

A Go map is iterated in any order.  `Iteration` is one choice of orders, and every
function that ranges over a map takes it.
-/

namespace Coraza.Collections

open Go List Maps

/-- An order for every list of entries. -/
structure Iteration where
  order : ∀ {α : Type}, List α → List α
  perm : ∀ {α : Type} (l : List α), (order l).Perm l

def Iteration.stored : Iteration := ⟨id, fun l => List.Perm.refl l⟩

/-- The entries of a Go map in the order of an iteration. -/
def Iteration.entries {β : Type} (it : Iteration) (m : AList (fun _ : Bytes => β)) :
    List (Bytes × β) :=
  it.order (m.entries.map (fun e => (e.1, e.2)))

theorem exists_iteration {α : Type} {l l' : List α} (h : l'.Perm l) :
    ∃ it : Iteration, it.order l = l' := by
  classical
  refine ⟨⟨fun {β} x => if hx : (⟨β, x⟩ : Σ β : Type, List β) = ⟨α, l⟩ then
    (Sigma.mk.inj_iff.mp hx).1 ▸ l' else x, ?_⟩, ?_⟩
  · intro β x
    split
    · rename_i hx
      cases hx
      exact h
    · exact List.Perm.refl x
  · exact dif_pos rfl

theorem Iteration.mem_entries {β : Type} (it : Iteration) {m : AList (fun _ : Bytes => β)}
    {e : Bytes × β} : e ∈ it.entries m ↔ m.lookup e.1 = some e.2 := by
  unfold Iteration.entries
  rw [(it.perm _).mem_iff, mem_map]
  constructor
  · rintro ⟨e', he', rfl⟩
    exact AList.mem_lookup_iff.mpr he'
  · intro h
    exact ⟨⟨e.1, e.2⟩, AList.mem_lookup_iff.mp h, rfl⟩

structure KeyValue where
  key : Bytes
  value : Bytes
  deriving DecidableEq, Repr

/-- `Map`, without the variable it belongs to. -/
structure Map where
  isCaseSensitive : Bool
  data : AList (fun _ : Bytes => List KeyValue)

namespace Map

def new : Map := ⟨false, ∅⟩

/-- The key under which a map files `key`. -/
def fold (m : Map) (key : Bytes) : Bytes :=
  if m.isCaseSensitive then key else Strings.toLower key

def values (m : Map) (key : Bytes) : List KeyValue := (m.data.lookup key).getD []

def get (m : Map) (key : Bytes) : List Bytes := (m.values (m.fold key)).map KeyValue.value

def add (m : Map) (key value : Bytes) : Map :=
  { m with data := m.data.insert (m.fold key) (m.values (m.fold key) ++ [⟨key, value⟩]) }

def set (m : Map) (key : Bytes) (values : List Bytes) : Map :=
  { m with data := m.data.insert (m.fold key) (values.map (fun v => ⟨key, v⟩)) }

def setIndex (m : Map) (key : Bytes) (index : Nat) (value : Bytes) : Map :=
  let values := m.values (m.fold key)
  let av : KeyValue := ⟨key, value⟩
  let values :=
    if values.length = 0 then [av]
    else if values.length ≤ index then values ++ [av]
    else values.set index av
  { m with data := m.data.insert (m.fold key) values }

def remove (m : Map) (key : Bytes) : Map := { m with data := m.data.erase (m.fold key) }

def reset (m : Map) : Map := { m with data := ∅ }

def len (m : Map) : Nat := m.data.entries.length

def range (it : Iteration) (m : Map) : List (Bytes × List KeyValue) :=
  it.order (m.data.entries.map (fun e => (e.1, e.2)))

def pairs (m : Map) : List KeyValue := m.data.entries.flatMap (fun e => e.2)

/-! ### Filling a map -/

def setAll (m : Map) (l : List (Bytes × List Bytes)) : Map :=
  l.foldl (fun m e => m.set e.1 e.2) m

def filing (m : Map) (e : Bytes × List Bytes) : Bytes × List KeyValue :=
  (m.fold e.1, e.2.map (fun v => ⟨e.1, v⟩))

theorem setAll_eq (l : List (Bytes × List Bytes)) (m : Map) :
    m.setAll l = { m with data := assignAll m.data (l.map m.filing) } := by
  induction l generalizing m with
  | nil => rfl
  | cons e l ih =>
    have hstep : m.setAll (e :: l) = (m.set e.1 e.2).setAll l := rfl
    rw [hstep, ih]
    rfl

variable {m : Map}

theorem values_setAll (hm : m.data = ∅) (l : List (Bytes × List Bytes)) (f : Bytes) :
    (m.setAll l).values f = (lastAt (l.map m.filing) f).getD [] := by
  rw [setAll_eq]
  unfold values
  rw [lookup_assignAll, hm]
  show ((lastAt _ f).or none).getD [] = _
  rw [Option.or_none]

theorem values_set (m : Map) (key : Bytes) (vs : List Bytes) (f : Bytes) :
    (m.set key vs).values f = if f = m.fold key then (m.filing (key, vs)).2 else m.values f := by
  unfold set values
  by_cases h : f = m.fold key
  · rw [if_pos h, h]
    rw [AList.lookup_insert]
    rfl
  · rw [if_neg h]
    rw [AList.lookup_insert_ne h]

@[simp] theorem get_set (m : Map) (key : Bytes) (vs : List Bytes) :
    (m.set key vs).get key = vs := by
  show ((m.set key vs).values (m.fold key)).map KeyValue.value = vs
  rw [values_set, if_pos rfl]
  unfold filing
  rw [map_map]
  exact map_id vs

theorem values_set_of_ne (m : Map) {key f : Bytes} (h : f ≠ m.fold key) (vs : List Bytes) :
    (m.set key vs).values f = m.values f := by rw [values_set, if_neg h]

theorem setIndex_zero {key : Bytes} (h : (m.values (m.fold key)).length ≤ 1) (value : Bytes) :
    m.setIndex key 0 value = m.set key [value] := by
  unfold setIndex set
  match m.values (m.fold key), h with
  | [], _ => rfl
  | [_], _ => rfl

def addAll (m : Map) (l : List (Bytes × Bytes)) : Map := l.foldl (fun m e => m.add e.1 e.2) m

theorem addAll_eq (hm : m.data = ∅) (l : List (Bytes × Bytes)) : m.addAll l
      = { m with data := group (l.map (fun e => (m.fold e.1, (⟨e.1, e.2⟩ : KeyValue)))) } := by
  induction l using List.reverseRecOn with
  | nil =>
    show m = { m with data := ∅ }
    rw [← hm]
  | append_singleton l e ih =>
    have hstep : m.addAll (l ++ [e]) = (m.addAll l).add e.1 e.2 := foldl_concat ..
    have hgroup : ∀ (l : List (Bytes × KeyValue)) (e : Bytes × KeyValue),
        group (l ++ [e]) = appendAt (group l) e := fun l e => foldl_concat ..
    rw [hstep, ih, map_append, map_singleton, hgroup]
    rfl

theorem pairs_addAll (hm : m.data = ∅) (l : List (Bytes × Bytes)) :
    (m.addAll l).pairs.Perm (l.map (fun e => ⟨e.1, e.2⟩)) := by
  have hperm := flatMap_group (fun _ kv => kv)
    (l.map (fun e => (m.fold e.1, (⟨e.1, e.2⟩ : KeyValue))))
  simp only [map_id', map_map] at hperm
  rw [addAll_eq hm]
  exact hperm

theorem len_addAll (hm : m.data = ∅) (l : List (Bytes × Bytes)) :
    (m.addAll l).len = (l.map (fun e => m.fold e.1)).toFinset.card := by
  rw [addAll_eq hm, len, length_group, map_map]
  rfl

/-- Every pair stands under its own key. -/
def Filed (m : Map) : Prop := ∀ f, ∀ kv ∈ m.values f, m.fold kv.key = f

theorem filed_setAll (hm : m.data = ∅) (l : List (Bytes × List Bytes)) : (m.setAll l).Filed := by
  intro f kv hkv
  rw [values_setAll hm] at hkv
  cases hlast : lastAt (l.map m.filing) f with
  | none =>
    rw [hlast] at hkv
    cases hkv
  | some kvs =>
    rw [hlast] at hkv
    obtain ⟨e, -, he⟩ := List.mem_map.mp (mem_of_lastAt hlast)
    obtain ⟨hkey, hvalues⟩ := Prod.mk.inj he
    rw [← hvalues] at hkv
    obtain ⟨v, -, rfl⟩ := List.mem_map.mp hkv
    rw [setAll_eq]
    exact hkey

theorem mem_pairs {kv : KeyValue} : kv ∈ m.pairs ↔ ∃ f, kv ∈ m.values f := by
  unfold pairs values
  rw [mem_flatMap]
  constructor
  · rintro ⟨⟨f, kvs⟩, he, hkv⟩
    refine ⟨f, ?_⟩
    rw [AList.mem_lookup_iff.mpr he]
    exact hkv
  · rintro ⟨f, hkv⟩
    cases hlookup : m.data.lookup f with
    | none =>
      rw [hlookup] at hkv
      cases hkv
    | some kvs =>
      rw [hlookup] at hkv
      exact ⟨⟨f, kvs⟩, AList.mem_lookup_iff.mp hlookup, hkv⟩

/-- **How often a pair occurs.** -/
theorem count_pairs (hm : m.Filed) (kv : KeyValue) :
    m.pairs.count kv = (m.values (m.fold kv.key)).count kv := by
  obtain ⟨isCaseSensitive, ⟨entries, hnodup⟩⟩ := m
  have hfiled : ∀ e ∈ entries, kv ∈ e.2 → e.1 = Map.fold ⟨isCaseSensitive, ∅⟩ kv.key := by
    intro e he hkv
    refine (hm e.1 kv ?_).symm
    unfold values
    rw [AList.mem_lookup_iff.mpr he]
    exact hkv
  clear hm
  show (entries.flatMap (fun e => e.2)).count kv
    = ((List.dlookup (Map.fold ⟨isCaseSensitive, ∅⟩ kv.key) entries).getD []).count kv
  generalize Map.fold ⟨isCaseSensitive, ∅⟩ kv.key = f at hfiled
  induction entries with
  | nil => rfl
  | cons e entries ih =>
    obtain ⟨a, kvs⟩ := e
    rw [nodupKeys_cons] at hnodup
    rw [flatMap_cons, count_append]
    have hrest := ih hnodup.2 (fun e he => hfiled e (mem_cons_of_mem _ he))
    by_cases ha : a = f
    · subst ha
      have hnone : List.dlookup a entries = none := List.dlookup_eq_none.mpr hnodup.1
      rw [hnone] at hrest
      rw [hrest, dlookup_cons_eq]
      rfl
    · have hkvs : kvs.count kv = 0 := by
        refine List.count_eq_zero.mpr (fun hkv => ha ?_)
        exact hfiled ⟨a, kvs⟩ (mem_cons_self ..) hkv
      rw [hkvs, Nat.zero_add, hrest, dlookup_cons_ne _ _ (Ne.symm ha)]

/-! ### The maps of the default build -/

theorem values_insert (m : Map) (f : Bytes) (kvs : List KeyValue) (f' : Bytes) :
    values { m with data := m.data.insert f kvs } f' = if f' = f then kvs else m.values f' := by
  unfold values
  by_cases h : f' = f
  · rw [if_pos h, h, AList.lookup_insert]
    rfl
  · rw [if_neg h, AList.lookup_insert_ne h]

theorem values_erase (m : Map) (f f' : Bytes) :
    values { m with data := m.data.erase f } f' = if f' = f then [] else m.values f' := by
  unfold values
  by_cases h : f' = f
  · rw [if_pos h, h, AList.lookup_erase]
    rfl
  · rw [if_neg h, AList.lookup_erase_ne h]

@[simp] theorem get_remove (m : Map) (key : Bytes) : (m.remove key).get key = [] := by
  show ((m.remove key).values (m.fold key)).map KeyValue.value = []
  rw [remove, values_erase, if_pos rfl]
  rfl

theorem Filed.insert (hm : m.Filed) {f : Bytes} {kvs : List KeyValue}
    (h : ∀ kv ∈ kvs, m.fold kv.key = f) : Filed { m with data := m.data.insert f kvs } := by
  intro f' kv hkv
  rw [values_insert] at hkv
  split at hkv
  · rename_i hf
    rw [hf]
    exact h kv hkv
  · exact hm f' kv hkv

/-- What every map of the default build is like: keys are lowered, and every pair stands under
its own key. -/
structure Lowered (m : Map) : Prop where
  isCaseSensitive : m.isCaseSensitive = false
  filed : m.Filed

namespace Lowered

variable {m : Map}

theorem fold_eq (hm : m.Lowered) (key : Bytes) : m.fold key = Strings.toLower key := by
  rw [fold, hm.isCaseSensitive]
  rfl

theorem new : Map.new.Lowered := ⟨rfl, fun _ _ h => absurd h not_mem_nil⟩

variable (hm : m.Lowered)
include hm

theorem add (key value : Bytes) : (m.add key value).Lowered := by
  refine ⟨hm.isCaseSensitive, hm.filed.insert ?_⟩
  intro kv hkv
  rcases List.mem_append.mp hkv with h | h
  · exact hm.filed _ kv h
  · rw [List.mem_singleton.mp h]

theorem set (key : Bytes) (values : List Bytes) : (m.set key values).Lowered := by
  refine ⟨hm.isCaseSensitive, hm.filed.insert ?_⟩
  intro kv hkv
  obtain ⟨v, -, rfl⟩ := List.mem_map.mp hkv
  rfl

theorem setIndex (key : Bytes) (index : Nat) (value : Bytes) :
    (m.setIndex key index value).Lowered := by
  refine ⟨hm.isCaseSensitive, hm.filed.insert ?_⟩
  intro kv hkv
  split at hkv
  · rw [List.mem_singleton.mp hkv]
  · split at hkv
    · rcases List.mem_append.mp hkv with h | h
      · exact hm.filed _ kv h
      · rw [List.mem_singleton.mp h]
    · rcases mem_or_eq_of_mem_set hkv with h | h
      · exact hm.filed _ kv h
      · rw [h]

theorem remove (key : Bytes) : (m.remove key).Lowered := by
  refine ⟨hm.isCaseSensitive, fun f kv hkv => ?_⟩
  rw [Map.remove, values_erase] at hkv
  split at hkv
  · cases hkv
  · exact hm.filed f kv hkv

theorem reset : m.reset.Lowered :=
  ⟨hm.isCaseSensitive, fun _ _ h => absurd h not_mem_nil⟩

theorem toLower_eq {f : Bytes} (h : m.values f ≠ []) : Strings.toLower f = f := by
  obtain ⟨kv, hkv⟩ := exists_mem_of_ne_nil _ h
  have hf := hm.filed f kv hkv
  rw [hm.fold_eq] at hf
  rw [← hf, Strings.toLower_toLower]

theorem mem_values {f : Bytes} {kv : KeyValue} :
    kv ∈ m.values f ↔ kv ∈ m.pairs ∧ Strings.toLower kv.key = f := by
  constructor
  · intro h
    exact ⟨mem_pairs.mpr ⟨f, h⟩, (hm.fold_eq _).symm.trans (hm.filed f kv h)⟩
  · rintro ⟨hkv, rfl⟩
    obtain ⟨f, hf⟩ := mem_pairs.mp hkv
    have hkey := hm.filed f kv hf
    rw [hm.fold_eq] at hkey
    rwa [hkey]

theorem values_perm (f : Bytes) :
    (m.values f).Perm (m.pairs.filter (fun kv => Strings.toLower kv.key = f)) := by
  rw [perm_iff_count]
  intro kv
  by_cases hkey : Strings.toLower kv.key = f
  · rw [count_filter (by simpa using hkey), count_pairs hm.filed, hm.fold_eq, hkey]
  · have hleft : kv ∉ m.values f := fun h => hkey (hm.mem_values.mp h).2
    have hright : kv ∉ m.pairs.filter (fun kv => Strings.toLower kv.key = f) := by
      rw [mem_filter]
      exact fun h => hkey (by simpa using h.2)
    rw [List.count_eq_zero.mpr hleft, List.count_eq_zero.mpr hright]

end Lowered

/-! ### A map as a store -/

inductive Write where
  | add (key value : Bytes)
  | set (key : Bytes) (values : List Bytes)
  | setIndex (key : Bytes) (index : Nat) (value : Bytes)
  | remove (key : Bytes)
  | reset

def Write.run (m : Map) : Write → Map
  | add key value => m.add key value
  | set key values => m.set key values
  | setIndex key index value => m.setIndex key index value
  | remove key => m.remove key
  | reset => m.reset

def Write.effect (fold : Bytes → Bytes) (f : Bytes) (vs : List Bytes) : Write → List Bytes
  | add key value => if f = fold key then vs ++ [value] else vs
  | set key values => if f = fold key then values else vs
  | setIndex key index value =>
    if f = fold key then if vs.length ≤ index then vs ++ [value] else vs.set index value else vs
  | remove key => if f = fold key then [] else vs
  | reset => []

theorem get_insert (m : Map) (k : Bytes) (kvs : List KeyValue) (key : Bytes) :
    get { m with data := m.data.insert (m.fold k) kvs } key
      = if m.fold key = m.fold k then kvs.map KeyValue.value else m.get key := by
  show (values _ (m.fold key)).map _ = _
  rw [values_insert]
  exact apply_ite ..

theorem get_run (m : Map) (key : Bytes) (w : Write) :
    (w.run m).get key = w.effect m.fold (m.fold key) (m.get key) := by
  cases w with
  | add k value =>
    refine (get_insert ..).trans (ite_congr rfl (fun h => ?_) (fun _ => rfl))
    rw [← h]
    exact map_append
  | set k vs =>
    refine (get_insert ..).trans (ite_congr rfl (fun _ => ?_) (fun _ => rfl))
    rw [map_map]
    exact map_id vs
  | setIndex k index value =>
    refine (get_insert ..).trans (ite_congr rfl (fun h => ?_) (fun _ => rfl))
    unfold get
    rw [← h, length_map]
    cases m.values (m.fold key) with
    | nil => rfl
    | cons kv kvs =>
      rw [if_neg (by simp), apply_ite (map _), map_append, map_set]
      rfl
  | remove k =>
    show (values { m with data := m.data.erase (m.fold k) } _).map _ = _
    rw [values_erase]
    exact apply_ite ..
  | reset => rfl

/-- **A map is a store**: after any calls a key has the values that those for keys which are filed
with it make of those before. -/
theorem get_writes (ws : List Write) (m : Map) (key : Bytes) :
    (ws.foldl Write.run m).get key = ws.foldl (Write.effect m.fold (m.fold key)) (m.get key) := by
  induction ws generalizing m with
  | nil => rfl
  | cons w ws ih =>
    have hfold : (w.run m).fold = m.fold := by cases w <;> rfl
    rw [foldl_cons, ih, hfold, get_run]
    rfl

end Map

/-- A view of a map: its pairs, or its names in place of the values
(`NamedCollectionNames`). -/
inductive Keyed where
  | map (m : Map)
  | names (m : Map)

namespace Keyed

def underlying : Keyed → Map
  | map m => m
  | names m => m

def shown : Keyed → KeyValue → KeyValue
  | map _, kv => kv
  | names _, kv => ⟨kv.key, kv.key⟩

def appendMatches (it : Iteration) (c : Keyed) : List KeyValue :=
  (c.underlying.range it).flatMap (fun e => e.2.map c.shown)

/-- `AppendMatchesRegex`; a compiled expression is its `MatchString`. -/
def appendMatchesRegex (it : Iteration) (c : Keyed) (key : Bytes → Bool) : List KeyValue :=
  ((c.underlying.range it).filter (fun e => key e.1)).flatMap (fun e => e.2.map c.shown)

/-- `AppendMatchesString`.  The names view does not lower the key, and has no case
for the empty one. -/
def appendMatchesString (it : Iteration) (c : Keyed) (key : Bytes) : List KeyValue :=
  match c with
  | map m => if key = [] then appendMatches it (map m) else m.values (m.fold key)
  | names m => (m.values key).map (names m).shown

end Keyed

/-- What `Transaction.Collection` may return. -/
inductive Collection where
  | single (value : Bytes)
  | keyed (c : Keyed)
  | concat (parts : List Keyed)
  | size (parts : List Map)
  | noop

def size (parts : List Map) : Nat :=
  (parts.map (fun m => (m.pairs.map (fun kv => kv.key.length + kv.value.length)).sum)).sum

end Coraza.Collections
