import Coraza.Go.Memory
import Coraza.Operators.BinaryPrefilter
import Coraza.Operators.Prefilter

/-!
# The cache of byte bitmaps in a transaction

Several rules look at the same long value, so a transaction keeps the byte bitmaps of the last four
values for which a filter had to compute one.  An entry is found by the data pointer and the length
of the value, not by its contents.  Four filters read the cache, and two of them also fill it: the
required bytes of a literal filter that has nothing better, the literal filters of `@rx` with an
exact search, the multi-pattern search of `@pm`, and the filter of the binary expressions.

`filters_transparent` says that the cache is never noticed: over any sequence of filter calls that
starts with the empty cache, every call answers as the filter without a cache does.  The invariant
is that an entry has the bitmap of its own value (`Ring.Ok`).  With the rule of the run-time system,
that pointer and length determine the contents of a string as long as the entry keeps it alive
(`Go.Memory`), what is loaded for a value is the bitmap of that value, and then each filter agrees
with itself because its required bytes are necessary for its own search to succeed.
-/

namespace Coraza.Operators

open Go Go.Syntax RequiredByteMatcher List

/-! ### The ring -/

structure BytePresenceCacheEntry where
  value : Str
  present : Bitmap

/-- The fields `bytePresenceCache` and `bytePresenceNext` of a transaction. -/
structure Ring where
  entries : Fin 4 → BytePresenceCacheEntry
  next : Fin 4

variable {ring : Ring}

namespace Ring

def empty : Ring := ⟨fun _ => ⟨⟨0, []⟩, Bitmap.zero⟩, 0⟩

def loadBytePresence (ring : Ring) (value : Str) : Option Bitmap :=
  ((finRange 4).find? (fun index =>
    (ring.entries index).value.bytes.length = value.bytes.length ∧ value.bytes.length ≠ 0 ∧
      (ring.entries index).value.ptr = value.ptr)).map (fun index => (ring.entries index).present)

def storeBytePresence (ring : Ring) (value : Str) (present : Bitmap) : Ring :=
  ⟨Function.update ring.entries ring.next ⟨value, present⟩, ring.next + 1⟩

/-- The cache as a filter sees it that is called on a string at the address `ptr`. -/
def cache (ptr : Nat) : BytePresenceCache Ring where
  loadBytePresence ring value := ring.loadBytePresence ⟨ptr, value⟩
  storeBytePresence ring value present := ring.storeBytePresence ⟨ptr, value⟩ present

def retained (ring : Ring) : List Str :=
  (finRange 4).map (fun index => (ring.entries index).value)

/-- Every entry has the bitmap of its value, and the values can be told apart by pointer and
length. -/
structure Ok (ring : Ring) : Prop where
  bitmap : ∀ index, (ring.entries index).present = Bitmap.presence (ring.entries index).value.bytes
  live : Coherent ring.retained

theorem mem_retained (ring : Ring) (index : Fin 4) : (ring.entries index).value ∈ ring.retained :=
  mem_map_of_mem (mem_finRange index)

theorem loadBytePresence_eq_some {value : Str} {present : Bitmap}
    (h : ring.loadBytePresence value = some present) :
    ∃ index, (ring.entries index).present = present ∧ (ring.entries index).value.ptr = value.ptr ∧
      (ring.entries index).value.bytes.length = value.bytes.length := by
  obtain ⟨index, hfind, hpresent⟩ := Option.map_eq_some_iff.mp h
  have hfound := find?_some hfind
  rw [decide_eq_true_iff] at hfound
  exact ⟨index, hpresent, hfound.2.2, hfound.1⟩

theorem entries_store (ring : Ring) (value : Str) (present : Bitmap) (index : Fin 4) :
    (ring.storeBytePresence value present).entries index =
      if index = ring.next then ⟨value, present⟩ else ring.entries index :=
  Function.update_apply ..

theorem ok_empty : empty.Ok := by
  refine ⟨fun index => rfl, fun s hs t ht _ _ => ?_⟩
  obtain ⟨_, -, rfl⟩ := mem_map.mp hs
  obtain ⟨_, -, rfl⟩ := mem_map.mp ht
  rfl

theorem Ok.coherentAt (h : ring.Ok) {value : Str} (hlive : Coherent (value :: ring.retained)) :
    (cache value.ptr).CoherentAt ring value.bytes := by
  intro present hload
  obtain ⟨index, rfl, hptr, hlength⟩ := loadBytePresence_eq_some hload
  have hentry := mem_cons_of_mem value (ring.mem_retained index)
  rw [h.bitmap index, hlive _ hentry value mem_cons_self hptr hlength]

theorem Ok.store (h : ring.Ok) {value : Str} (hlive : Coherent (value :: ring.retained)) :
    (ring.storeBytePresence value (Bitmap.presence value.bytes)).Ok := by
  refine ⟨fun index => ?_, hlive.mono (fun s hs => ?_)⟩
  · rw [entries_store]
    split
    · rfl
    · exact h.bitmap index
  · obtain ⟨index, -, rfl⟩ := mem_map.mp hs
    rw [entries_store]
    split
    · exact mem_cons_self
    · exact mem_cons_of_mem value (ring.mem_retained index)

end Ring

/-! ### What a filter does with the cache -/

section

variable {σ : Type}

/-- A call that answers as it would without the cache, and that leaves the transaction alone or
stores the bitmap of the value. -/
structure Transparent (cache : BytePresenceCache σ) (tx : σ) (value : Bytes) (plain : Bool)
    (out : Bool × σ) : Prop where
  answer : out.1 = plain
  state : out.2 = tx ∨ out.2 = cache.storeBytePresence tx value (Bitmap.presence value)

variable {cache : BytePresenceCache σ} {tx : σ} {value : Bytes}
  (hcoh : cache.CoherentAt tx value)

include hcoh

theorem coherentAt_some : ∀ c ∈ some cache, c.CoherentAt tx value := by
  rintro c ⟨⟩
  exact hcoh

theorem matchWithState_transparent (set : ByteSet) :
    Transparent cache tx value ((ofSet set).match value)
      ((ofSet set).matchWithState (some cache) tx value) := by
  refine ⟨matchWithState_eq (coherentAt_some hcoh), ?_⟩
  unfold matchWithState
  dsimp only
  split
  · exact .inl rfl
  split
  · exact .inl rfl
  split
  · exact .inl rfl
  · exact .inr rfl

/-- A search that succeeds only on texts with a required byte is not changed by asking the cache
first. -/
theorem possibleFromCache_and {set : ByteSet} {found : Bool}
    (hbyte : found = true → ∃ c ∈ value, set.bytes c = true) :
    ((ofSet set).possibleFromCache (some cache) tx value && found) = found := by
  cases found with
  | false => exact Bool.and_false _
  | true =>
    rw [Bool.and_true]
    exact possibleFromCache_of_match (coherentAt_some hcoh) (hbyte rfl)

theorem indexed_transparent {needles : List Bytes} {caseFold : Bool} {matcher : IndexedMatcher}
    (h : IndexedMatcher.new needles caseFold = some matcher) :
    matcher.matchWithState (some cache) tx value = matcher.match value := by
  unfold IndexedMatcher.matchWithState
  rcases IndexedMatcher.new_required h with hnone | ⟨set, hset, hbyte⟩
  · rw [hnone]
  · rw [hset]
    exact possibleFromCache_and hcoh (hbyte value)

theorem possible_transparent (filter : BinaryRequiredPrefilter) :
    Transparent cache tx value (filter.possible none () value).1
      (filter.possible (some cache) tx value) := by
  have hplain : (filter.possible none () value).1 = _ :=
    BinaryRequiredPrefilter.possible_eq (fun c hc => nomatch hc)
  have hcached : (filter.possible (some cache) tx value).1 = _ :=
    BinaryRequiredPrefilter.possible_eq (coherentAt_some hcoh)
  refine ⟨hcached.trans hplain.symm, ?_⟩
  unfold BinaryRequiredPrefilter.possible
  split
  · exact .inl rfl
  dsimp only
  split
  · exact .inl rfl
  split
  · exact .inl rfl
  split
  · exact .inl rfl
  · exact .inr rfl

/-- The function with a transaction, before the exceptions under folding. -/
theorem stateful_transparent {parts : FilterParts} {P : Bytes → Prop} (h : parts.Sound P) :
    Transparent cache tx value (parts.pf value)
      ((if parts.populateCache then parts.cacheMatcher.matchWithState
        else fun cache tx value =>
          if parts.cacheMatcher.possibleFromCache cache tx value = false then (false, tx)
          else (parts.pf value, tx) : StateFilter σ) (some cache) tx value) := by
  obtain ⟨set, hset, hbyte⟩ := h.byte
  have hpopulate := h.populate
  rw [hset] at hpopulate ⊢
  split
  · rename_i hfill
    rw [hpopulate hfill]
    exact matchWithState_transparent hcoh set
  · dsimp only
    have hand := possibleFromCache_and hcoh (hbyte value)
    split
    · rename_i himpossible
      rw [himpossible] at hand
      exact ⟨hand, .inl rfl⟩
    · exact ⟨rfl, .inl rfl⟩

end

def CompiledPrefilter.plain {σ : Type} (filter : CompiledPrefilter σ) (value : Bytes) : Bool :=
  match filter.match with
  | some prefilter => prefilter value
  | none => true

theorem prefilter_transparent {σ : Type} {parsed : Option Regexp} {filter : CompiledPrefilter σ}
    (h : compilePrefilter σ parsed = some filter) {cache : BytePresenceCache σ} {tx : σ}
    {value : Bytes} (hcoh : cache.CoherentAt tx value) :
    Transparent cache tx value (filter.plain value) (filter.maybe (some cache) tx value) := by
  have hshape : filter = .noFilter ∨ ∃ parts ci P, filter = finishPrefilter parts ci ∧
      FilterParts.Sound parts P := by
    cases parsed with
    | none =>
      cases h
      exact .inl rfl
    | some re =>
      obtain ⟨filter', hfilter, hnone, hsome⟩ := compilePrefilter_spec σ re
      rw [hfilter] at h
      cases h
      cases hs : searchedLiterals re with
      | none => exact .inl (hnone hs)
      | some e =>
        obtain ⟨parts, hfinish, hsound⟩ := hsome e hs
        exact .inr ⟨parts, _, _, hfinish, hsound⟩
  rcases hshape with rfl | ⟨parts, ci, P, rfl, hsound⟩
  · exact ⟨rfl, .inl rfl⟩
  · obtain ⟨hanswer, hstate⟩ := stateful_transparent hcoh hsound
    cases ci with
    | false => exact ⟨hanswer, hstate⟩
    | true => exact ⟨congrArg (· || containsFoldException value) hanswer, hstate⟩

/-! ### Runs -/

inductive Filter where
  | required (matcher : RequiredByteMatcher)
  | literals (filter : CompiledPrefilter Ring)
  | indexed (matcher : IndexedMatcher)
  | binary (filter : BinaryRequiredPrefilter)

namespace Filter

inductive Built : Filter → Prop where
  | required {needles caseFold matcher} :
      newRequiredByteMatcher needles caseFold = some matcher → Built (.required matcher)
  | literals {parsed filter} : compilePrefilter Ring parsed = some filter → Built (.literals filter)
  | indexed {needles caseFold matcher} :
      IndexedMatcher.new needles caseFold = some matcher → Built (.indexed matcher)
  | binary {parsed filter} :
      compileBinaryRequiredPrefilter parsed = some filter → Built (.binary filter)

def stateless : Filter → Bytes → Bool
  | .required matcher, value => matcher.match value
  | .literals filter, value => filter.plain value
  | .indexed matcher, value => matcher.match value
  | .binary filter, value => (filter.possible none () value).1

def stateful : Filter → Ring → Str → Bool × Ring
  | .required matcher, ring, value =>
    matcher.matchWithState (some (Ring.cache value.ptr)) ring value.bytes
  | .literals filter, ring, value => filter.maybe (some (Ring.cache value.ptr)) ring value.bytes
  | .indexed matcher, ring, value =>
    (matcher.matchWithState (some (Ring.cache value.ptr)) ring value.bytes, ring)
  | .binary filter, ring, value => filter.possible (some (Ring.cache value.ptr)) ring value.bytes

theorem Built.transparent {filter : Filter} (h : filter.Built) {value : Str}
    (hcoh : (Ring.cache value.ptr).CoherentAt ring value.bytes) :
    Transparent (Ring.cache value.ptr) ring value.bytes (filter.stateless value.bytes)
      (filter.stateful ring value) := by
  cases h with
  | required hnew =>
    obtain ⟨set, -, rfl⟩ := Option.map_eq_some_iff.mp hnew
    exact matchWithState_transparent hcoh set
  | literals hcompile => exact prefilter_transparent hcompile hcoh
  | indexed hnew => exact ⟨indexed_transparent hcoh hnew, .inl rfl⟩
  | binary _ => exact possible_transparent hcoh _

/-- One call answers as without the cache and keeps the invariant. -/
theorem Built.step {filter : Filter} (h : filter.Built) (hring : ring.Ok) {value : Str}
    (hlive : Coherent (value :: ring.retained)) :
    (filter.stateful ring value).1 = filter.stateless value.bytes ∧
      (filter.stateful ring value).2.Ok := by
  obtain ⟨hanswer, hstate⟩ := h.transparent (hring.coherentAt hlive)
  refine ⟨hanswer, ?_⟩
  rcases hstate with hstate | hstate
  · rw [hstate]
    exact hring
  · rw [hstate]
    exact hring.store hlive

end Filter

/-- Filter calls one after the other, on values that the memory places.  The number counts the
strings placed before. -/
def runFilters (mem : Memory) : Nat → List (Filter × Bytes) → Ring → List Bool
  | _, [], _ => []
  | clock, (filter, value) :: calls, ring =>
    let out := filter.stateful ring (mem.alloc clock ring.retained value)
    out.1 :: runFilters mem (clock + 1) calls out.2

theorem runFilters_eq (mem : Memory) : ∀ {calls : List (Filter × Bytes)} {clock : Nat}
    {ring : Ring},
    (∀ call ∈ calls, call.1.Built) → ring.Ok →
    runFilters mem clock calls ring = calls.map (fun call => call.1.stateless call.2) := by
  intro calls
  induction calls with
  | nil => exact fun _ _ => rfl
  | cons call calls ih =>
    intro clock ring hbuilt hring
    rw [forall_mem_cons] at hbuilt
    obtain ⟨hanswer, hok⟩ := hbuilt.1.step hring (hring.live.alloc mem clock call.2)
    rw [runFilters, map_cons, ih hbuilt.2 hok, hanswer, Memory.alloc_bytes]

/-- **The cache is transparent.**  Whatever filters are called on whatever values, one after the
other in a transaction that starts with an empty cache, each answers as it does without the cache.
-/
theorem filters_transparent (mem : Memory) (calls : List (Filter × Bytes))
    (hbuilt : ∀ call ∈ calls, call.1.Built) :
    runFilters mem 0 calls Ring.empty = calls.map (fun call => call.1.stateless call.2) :=
  runFilters_eq mem hbuilt Ring.ok_empty

def cachedText : Bytes := replicate 600 0x41

/-- The required byte `x` is looked for twice in a long text, and then `@pm` looks for `x`. -/
theorem filters_transparent_twice : ∃ matcher indexed,
    newRequiredByteMatcher [[0x78]] false = some matcher ∧
      IndexedMatcher.new [[0x78]] true = some indexed ∧
      runFilters Memory.interning 0 [(.required matcher, cachedText),
        (.required matcher, cachedText),
          (.indexed indexed, cachedText)] Ring.empty
        = [matcher.match cachedText, matcher.match cachedText, indexed.match cachedText] := by
  have hne : ∀ n ∈ ([[0x78]] : List Bytes), n ≠ [] := by decide
  obtain ⟨set, hset, -⟩ := newRequiredByteMatcher_covers hne false
  obtain ⟨indexed, hindexed, -⟩ := IndexedMatcher.match_iff (cons_ne_nil _ _) hne true
  refine ⟨_, indexed, hset, hindexed, ?_⟩
  refine filters_transparent Memory.interning _ (fun call hcall => ?_)
  simp only [mem_cons, not_mem_nil, or_false] at hcall
  rcases hcall with rfl | rfl | rfl
  · exact .required hset
  · exact .required hset
  · exact .indexed hindexed

end Coraza.Operators
