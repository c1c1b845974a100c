import Coraza.Operators.Ascii

/-!
# The required-byte filter

A `RequiredByteMatcher` is a set of bytes chosen so that every needle has one of
them: a text without any of the bytes contains none of the needles.  The set is
chosen greedily, the byte that occurs in the most needles still without one
first; `newRequiredByteMatcher` loops until every needle has one, so on an empty
needle it would not return, which the model says with `none`.

The set is kept twice, as a table and as a bitmap.  The bitmap is compared with
the byte-presence bitmap of a text that a transaction may have cached.  `ByteSet`
has the agreement of the two as a field.

The results are `newRequiredByteMatcher_covers`, that the loop ends on non-empty
needles and leaves none without a chosen byte, `Covers.exists_byte`, that a text
with an occurrence of a needle then has a chosen byte, and `matchWithState_eq`,
that a cached bitmap gives the same answer as the text.
-/

namespace Coraza.Operators

open Go

/-! ### Bitmaps of bytes -/

abbrev Bitmap := Fin 4 → BitVec 64

namespace Bitmap

def word (c : UInt8) : Fin 4 := ⟨c.toNat / 64, by have := c.toNat_lt; omega⟩

def insert (bits : Bitmap) (c : UInt8) : Bitmap :=
  Function.update bits (word c) (bits (word c) ||| 1#64 <<< (c.toNat % 64))

def test (bits : Bitmap) (c : UInt8) : Bool := (bits (word c)).getLsbD (c.toNat % 64)

/-- The loop `if present[index]&bits[index] != 0 { return true }`. -/
def intersects (present bits : Bitmap) : Bool :=
  (List.finRange 4).any (fun index => present index &&& bits index != 0#64)

def zero : Bitmap := fun _ => 0#64

/-- The bytes of a text, as `matchWithState` collects them. -/
def presence (value : Bytes) : Bitmap := value.foldl insert zero

@[simp] theorem test_zero (c : UInt8) : test zero c = false := by simp [test, zero]

theorem test_insert (bits : Bitmap) (c d : UInt8) :
    test (insert bits c) d = (decide (d = c) || test bits d) := by
  unfold test insert
  by_cases hw : word d = word c
  · have hdiv : d.toNat / 64 = c.toNat / 64 := congrArg Fin.val hw
    have hiff : d = c ↔ d.toNat % 64 = c.toNat % 64 := by
      rw [← UInt8.toNat_inj]
      omega
    rw [hw, Function.update_self, BitVec.getLsbD_or, BitVec.getLsbD_shiftLeft]
    by_cases hdc : d.toNat % 64 = c.toNat % 64
    · have : c.toNat % 64 < 64 := Nat.mod_lt _ (by omega)
      simp [hiff, hdc, this]
    · have hone : (1#64).getLsbD (d.toNat % 64 - c.toNat % 64) = true →
          d.toNat % 64 < c.toNat % 64 := by
        intro h
        have := BitVec.getLsbD_one (w := 64) (i := d.toNat % 64 - c.toNat % 64)
        simp only [this, Bool.and_eq_true, decide_eq_true_eq] at h
        omega
      simp only [hiff, hdc, decide_false]
      cases hb : (1#64).getLsbD (d.toNat % 64 - c.toNat % 64) with
      | false => simp
      | true => simp [hone hb]
  · have hne : d ≠ c := fun h => hw (h ▸ rfl)
    rw [Function.update_of_ne hw]
    simp [hne]

theorem test_presence (value : Bytes) (c : UInt8) : test (presence value) c = true ↔ c ∈ value := by
  have hfold : ∀ (value : Bytes) (bits : Bitmap),
      test (value.foldl insert bits) c = true ↔ c ∈ value ∨ test bits c = true := by
    intro value
    induction value with
    | nil => simp
    | cons b value ih =>
      intro bits
      rw [List.foldl_cons, ih, test_insert, List.mem_cons, Bool.or_eq_true, decide_eq_true_eq]
      tauto
  rw [presence, hfold]
  simp

theorem exists_byte (i : Fin 4) {k : Nat} (hk : k < 64) :
    ∃ c : UInt8, word c = i ∧ c.toNat % 64 = k := by
  have hlt : 64 * i.val + k < 256 := by have := i.isLt; omega
  have hto : (UInt8.ofNat (64 * i.val + k)).toNat = 64 * i.val + k := UInt8.toNat_ofNat_lt hlt
  refine ⟨UInt8.ofNat (64 * i.val + k), Fin.ext ?_, ?_⟩
  · simp only [word]
    omega
  · rw [hto]
    omega

theorem intersects_iff (a b : Bitmap) :
    intersects a b = true ↔ ∃ c, test a c = true ∧ test b c = true := by
  unfold intersects
  simp only [List.any_eq_true, List.mem_finRange, true_and, bne_iff_ne]
  constructor
  · rintro ⟨i, hi⟩
    have hbit : ∃ k, k < 64 ∧ (a i &&& b i).getLsbD k = true := by
      by_contra hno
      apply hi
      apply BitVec.eq_of_getLsbD_eq
      intro k hk
      rw [BitVec.getLsbD_zero, Bool.eq_false_iff]
      exact fun h => hno ⟨k, hk, h⟩
    obtain ⟨k, hk, hbit⟩ := hbit
    obtain ⟨c, hword, hmod⟩ := exists_byte i hk
    rw [BitVec.getLsbD_and, Bool.and_eq_true] at hbit
    refine ⟨c, ?_, ?_⟩
    · rw [test, hword, hmod]
      exact hbit.1
    · rw [test, hword, hmod]
      exact hbit.2
  · rintro ⟨c, ha, hb⟩
    refine ⟨word c, fun h => ?_⟩
    have hand : (a (word c) &&& b (word c)).getLsbD (c.toNat % 64) = true := by
      rw [BitVec.getLsbD_and, Bool.and_eq_true]
      exact ⟨ha, hb⟩
    rw [h] at hand
    simp at hand

end Bitmap

/-! ### The chosen bytes -/

/-- The `bytes` and `bits` of a matcher: one set of bytes, kept twice. -/
structure ByteSet where
  bytes : UInt8 → Bool
  bits : Bitmap
  agree : ∀ c, Bitmap.test bits c = bytes c

namespace ByteSet

def empty : ByteSet := ⟨fun _ => false, Bitmap.zero, Bitmap.test_zero⟩

def insert (set : ByteSet) (c : UInt8) : ByteSet :=
  ⟨fun d => decide (d = c) || set.bytes d, set.bits.insert c, fun d => by
    rw [Bitmap.test_insert, set.agree]⟩

/-- `requiredByteMatcher.add`: under folding a lower-case letter brings its upper
case along. -/
def add (set : ByteSet) (value : UInt8) (caseFold : Bool) : ByteSet :=
  if caseFold ∧ 0x61 ≤ value.toNat ∧ value.toNat ≤ 0x7A then
    (set.insert value).insert (upperByte value)
  else set.insert value

theorem bytes_insert (set : ByteSet) (c d : UInt8) :
    (set.insert c).bytes d = (decide (d = c) || set.bytes d) := rfl

theorem bytes_add_of_bytes {set : ByteSet} {d : UInt8} (h : set.bytes d = true) (value : UInt8)
    (caseFold : Bool) : (set.add value caseFold).bytes d = true := by
  unfold add
  split <;> simp [bytes_insert, h]

theorem bytes_add_self (set : ByteSet) (value : UInt8) (caseFold : Bool) :
    (set.add value caseFold).bytes value = true ∧
      (caseFold = true → (set.add value caseFold).bytes (upperByte value) = true) := by
  unfold add
  split
  · simp [bytes_insert]
  · rename_i hcond
    refine ⟨by simp [bytes_insert], fun hfold => ?_⟩
    have hup : upperByte value = value := by
      rw [upperByte, if_neg (fun h => hcond ⟨hfold, h⟩)]
    simp [bytes_insert, hup]

end ByteSet

/-! ### The greedy choice -/

def distinctBytes (needle : Bytes) : Bytes :=
  needle.foldl (fun group value => if value ∈ group then group else group ++ [value]) []

def counts (groups : List Bytes) (value : UInt8) : Nat :=
  (groups.map (fun group => group.count value)).sum

def betterByte (groups : List Bytes) (best value : UInt8) : UInt8 :=
  if counts groups value > counts groups best ∨
      (counts groups value = counts groups best ∧ byteRarity value > byteRarity best) then value
  else best

/-- The byte in the most groups, a rarer one among equals. -/
def bestByte (groups : List Bytes) : UInt8 :=
  ((List.range' 1 255).map UInt8.ofNat).foldl (betterByte groups) 0

/-- The loop of `newRequiredByteMatcher` over the groups not yet covered.  A round
covers at least one group unless all that are left are empty, and then no later
round does: out of fuel means that the loop does not end. -/
def cover (caseFold : Bool) : Nat → List Bytes → ByteSet → Option ByteSet
  | _, [], set => some set
  | 0, _ :: _, _ => none
  | fuel + 1, group :: groups, set =>
    let best := bestByte (group :: groups)
    cover caseFold fuel ((group :: groups).filter (fun g => !g.contains best))
      (set.add best caseFold)

structure RequiredByteMatcher where
  set : ByteSet
  characters : Bytes
  ascii : Bool

/-- The last loop of `newRequiredByteMatcher`: the chosen bytes in order, if all
of them are ASCII. -/
def RequiredByteMatcher.ofSet (set : ByteSet) : RequiredByteMatcher :=
  let selected := ((List.range 256).map UInt8.ofNat).filter set.bytes
  let ascii := selected.all (fun value => value.toNat < runeSelf)
  { set, characters := if ascii then selected else [], ascii }

/-- `newRequiredByteMatcher`; `none` if it does not return. -/
def newRequiredByteMatcher (needles : List Bytes) (caseFold : Bool) : Option RequiredByteMatcher :=
  let groups := needles.map distinctBytes
  (cover caseFold groups.length groups ByteSet.empty).map RequiredByteMatcher.ofSet

theorem mem_distinctBytes (needle : Bytes) (c : UInt8) : c ∈ distinctBytes needle ↔ c ∈ needle := by
  have hfold : ∀ (needle group : Bytes),
      c ∈ needle.foldl (fun group value => if value ∈ group then group else group ++ [value]) group
        ↔ c ∈ needle ∨ c ∈ group := by
    intro needle
    induction needle with
    | nil => simp
    | cons b needle ih =>
      intro group
      rw [List.foldl_cons, ih, List.mem_cons]
      by_cases hb : b ∈ group
      · rw [if_pos hb]
        constructor
        · rintro (h | h)
          · exact Or.inl (Or.inr h)
          · exact Or.inr h
        · rintro ((rfl | h) | h)
          · exact Or.inr hb
          · exact Or.inl h
          · exact Or.inr h
      · rw [if_neg hb, List.mem_append, List.mem_singleton]
        tauto
  rw [distinctBytes, hfold]
  simp

theorem counts_le_betterByte (groups : List Bytes) (best value : UInt8) :
    counts groups best ≤ counts groups (betterByte groups best value) ∧
      counts groups value ≤ counts groups (betterByte groups best value) := by
  unfold betterByte
  split <;> omega

theorem counts_le_bestByte (groups : List Bytes) (value : UInt8) :
    counts groups value ≤ counts groups (bestByte groups) := by
  have hfold : ∀ (l : Bytes) (best : UInt8),
      counts groups best ≤ counts groups (l.foldl (betterByte groups) best) ∧
        ∀ v ∈ l, counts groups v ≤ counts groups (l.foldl (betterByte groups) best) :=
    Lists.foldl_le (fun b => OrderDual.toDual (counts groups b))
      (S := fun v c => counts groups v ≤ OrderDual.ofDual c) (fun h h' => h'.trans h)
      (counts_le_betterByte groups)
  obtain ⟨h0, hl⟩ := hfold ((List.range' 1 255).map UInt8.ofNat) 0
  by_cases hv : value.toNat = 0
  · have : value = 0 := UInt8.toNat_inj.mp hv
    rw [this]
    exact h0
  · refine hl value (List.mem_map.mpr ⟨value.toNat, ?_, UInt8.ofNat_toNat⟩)
    have := value.toNat_lt
    rw [List.mem_range'_1]
    omega

theorem counts_pos_iff (value : UInt8) (groups : List Bytes) :
    0 < counts groups value ↔ ∃ g ∈ groups, value ∈ g := by
  induction groups with
  | nil => simp [counts]
  | cons g groups ih =>
    have hcons : counts (g :: groups) value = g.count value + counts groups value := by
      simp [counts]
    rw [hcons, Nat.add_pos_iff_pos_or_pos, ih, List.count_pos_iff, List.exists_mem_cons_iff]

theorem exists_mem_bestByte {groups : List Bytes} {group : Bytes} (hg : group ∈ groups)
    (hne : group ≠ []) : ∃ g ∈ groups, bestByte groups ∈ g := by
  obtain ⟨c, rest, rfl⟩ := List.exists_cons_of_ne_nil hne
  have hc : 0 < counts groups c :=
    (counts_pos_iff c groups).mpr ⟨_, hg, List.mem_cons_self ..⟩
  exact (counts_pos_iff _ groups).mp (lt_of_lt_of_le hc (counts_le_bestByte groups c))

/-! ### Every needle has a chosen byte -/

def Covers (caseFold : Bool) (set : ByteSet) (group : Bytes) : Prop :=
  ∃ b ∈ group, set.bytes b = true ∧ (caseFold = true → set.bytes (upperByte b) = true)

variable {caseFold : Bool}

theorem Covers.add {set : ByteSet} {group : Bytes} (h : Covers caseFold set group) (value : UInt8) :
    Covers caseFold (set.add value caseFold) group := by
  obtain ⟨b, hb, hset, hup⟩ := h
  exact ⟨b, hb, ByteSet.bytes_add_of_bytes hset value caseFold,
    fun hf => ByteSet.bytes_add_of_bytes (hup hf) value caseFold⟩

/-- **The greedy loop ends and leaves no group uncovered.** -/
theorem cover_covers (caseFold : Bool) (fuel : Nat) (groups : List Bytes) (set : ByteSet) :
    groups.length ≤ fuel → (∀ g ∈ groups, g ≠ []) →
      ∃ set', cover caseFold fuel groups set = some set' ∧
        (∀ g ∈ groups, Covers caseFold set' g) ∧
        ∀ g, Covers caseFold set g → Covers caseFold set' g := by
  induction fuel generalizing groups set with
  | zero =>
    intro hlen _
    have hnil : groups = [] := List.length_eq_zero_iff.mp (Nat.le_zero.mp hlen)
    subst hnil
    exact ⟨set, rfl, fun g hg => (nomatch hg), fun g h => h⟩
  | succ fuel ih =>
    intro hlen hne
    cases groups with
    | nil => exact ⟨set, rfl, fun g hg => (nomatch hg), fun g h => h⟩
    | cons group groups =>
      -- the round removes the groups that have the best byte, at least one
      obtain ⟨g0, hg0, hbest⟩ := exists_mem_bestByte (List.mem_cons_self (a := group) (l := groups))
        (hne group (List.mem_cons_self ..))
      have hshort : ((group :: groups).filter
          (fun g => !g.contains (bestByte (group :: groups)))).length ≤ fuel := by
        have hlt := List.length_filter_lt_length_iff_exists
          (p := fun g : Bytes => !g.contains (bestByte (group :: groups))) (l := group :: groups)
        have := hlt.mpr ⟨g0, hg0, by simp [hbest]⟩
        omega
      obtain ⟨set', hrun, hcov, hmono⟩ := ih _ (set.add (bestByte (group :: groups)) caseFold)
        hshort (fun g hg => hne g (List.mem_of_mem_filter hg))
      refine ⟨set', hrun, fun g hg => ?_, fun g h => hmono g (h.add _)⟩
      by_cases hin : bestByte (group :: groups) ∈ g
      · exact hmono g ⟨_, hin, ByteSet.bytes_add_self set _ caseFold⟩
      · exact hcov g (List.mem_filter.mpr ⟨hg, by simp [hin]⟩)

variable {needles : List Bytes}

theorem newRequiredByteMatcher_covers (h : ∀ n ∈ needles, n ≠ [])
    (caseFold : Bool) : ∃ set, newRequiredByteMatcher needles caseFold
        = some (RequiredByteMatcher.ofSet set) ∧ ∀ n ∈ needles, Covers caseFold set n := by
  have hne : ∀ g ∈ needles.map distinctBytes, g ≠ [] := by
    intro g hg
    obtain ⟨n, hn, rfl⟩ := List.mem_map.mp hg
    obtain ⟨c, rest, hc⟩ := List.exists_cons_of_ne_nil (h n hn)
    refine List.ne_nil_of_mem ((mem_distinctBytes n c).mpr ?_)
    rw [hc]
    exact List.mem_cons_self ..
  obtain ⟨set, hrun, hcov, _⟩ := cover_covers caseFold _ _ ByteSet.empty (le_refl _) hne
  refine ⟨set, by rw [newRequiredByteMatcher, hrun]; rfl, fun n hn => ?_⟩
  obtain ⟨b, hb, hset⟩ := hcov _ (List.mem_map.mpr ⟨n, hn, rfl⟩)
  exact ⟨b, (mem_distinctBytes n b).mp hb, hset⟩

theorem cover_eq_none (fuel : Nat) {groups : List Bytes} (set : ByteSet) :
    [] ∈ groups → cover caseFold fuel groups set = none := by
  induction fuel generalizing groups set with
  | zero =>
    intro h
    cases groups with
    | nil => cases h
    | cons => rfl
  | succ fuel ih =>
    intro h
    cases groups with
    | nil => cases h
    | cons group groups =>
      exact ih _ (List.mem_filter.mpr ⟨h, rfl⟩)

theorem ne_nil_of_newRequiredByteMatcher
    {matcher : RequiredByteMatcher} (h : newRequiredByteMatcher needles caseFold = some matcher) :
    ∀ n ∈ needles, n ≠ [] := by
  rintro n hn rfl
  have hempty : [] ∈ needles.map distinctBytes := List.mem_map.mpr ⟨[], hn, rfl⟩
  rw [newRequiredByteMatcher, cover_eq_none _ _ hempty] at h
  cases h

/-! ### Matching, with and without a cached bitmap -/

/-- The interface `bytePresenceCache`, which a transaction may have. -/
structure BytePresenceCache (σ : Type) where
  loadBytePresence : σ → Bytes → Option Bitmap
  storeBytePresence : σ → Bytes → Bitmap → σ

/-- What the cache is for: a bitmap found for a text has the bytes of that text. -/
def BytePresenceCache.Coherent {σ : Type} (cache : BytePresenceCache σ) (tx : σ) : Prop :=
  ∀ value present, cache.loadBytePresence tx value = some present →
    present = Bitmap.presence value

def BytePresenceCache.CoherentAt {σ : Type} (cache : BytePresenceCache σ) (tx : σ)
    (value : Bytes) : Prop :=
  ∀ present, cache.loadBytePresence tx value = some present → present = Bitmap.presence value

def cachedBytePresenceMinInputBytes : Nat := 512

namespace RequiredByteMatcher

def «match» (matcher : RequiredByteMatcher) (value : Bytes) : Bool :=
  if matcher.ascii then Strings.containsAny value matcher.characters
  else value.any matcher.set.bytes

section

variable {σ : Type}

/-- `requiredByteMatcher.matchWithState`: the answer and the transaction after
it. -/
def matchWithState (matcher : RequiredByteMatcher) (cache : Option (BytePresenceCache σ))
    (tx : σ) (value : Bytes) : Bool × σ :=
  match cache with
  | none => (matcher.match value, tx)
  | some cache =>
    if value.length < cachedBytePresenceMinInputBytes then (matcher.match value, tx)
    else
      match cache.loadBytePresence tx value with
      | some present => (present.intersects matcher.set.bits, tx)
      | none =>
        if matcher.match value then (true, tx)
        else (false, cache.storeBytePresence tx value (Bitmap.presence value))

def possibleFromCache (matcher : RequiredByteMatcher) (cache : Option (BytePresenceCache σ))
    (tx : σ) (value : Bytes) : Bool :=
  match cache with
  | none => true
  | some cache =>
    if value.length < cachedBytePresenceMinInputBytes then true
    else
      match cache.loadBytePresence tx value with
      | none => true
      | some present => present.intersects matcher.set.bits

end

/-- **The two forms of the search agree:** runes of `characters`, or bytes of the
table. -/
theorem ofSet_match_iff (set : ByteSet) (value : Bytes) :
    (ofSet set).match value = true ↔ ∃ c ∈ value, set.bytes c = true := by
  have hsel : ∀ c, c ∈ ((List.range 256).map UInt8.ofNat).filter set.bytes ↔
      set.bytes c = true := by
    intro c
    rw [List.mem_filter, and_iff_right_iff_imp]
    intro _
    exact List.mem_map.mpr ⟨c.toNat, List.mem_range.mpr c.toNat_lt, UInt8.ofNat_toNat⟩
  unfold RequiredByteMatcher.match ofSet
  dsimp only
  split
  · rename_i hascii
    have hlow : ∀ c ∈ ((List.range 256).map UInt8.ofNat).filter set.bytes, c.toNat < 0x80 := by
      intro c hc
      have := List.all_eq_true.mp hascii c hc
      exact of_decide_eq_true this
    rw [Strings.containsAny_ascii hlow]
    simp only [hsel]
  · exact List.any_eq_true

theorem intersects_presence_iff (set : ByteSet) (value : Bytes) :
    (Bitmap.presence value).intersects set.bits = true ↔ ∃ c ∈ value, set.bytes c = true := by
  simp only [Bitmap.intersects_iff, Bitmap.test_presence, set.agree]

section

variable {σ : Type} {set : ByteSet} {value : Bytes} {cache : Option (BytePresenceCache σ)} {tx : σ}

/-- A cached bitmap gives the same answer as the text. -/
theorem matchWithState_eq (hcoh : ∀ c ∈ cache, c.CoherentAt tx value) :
    ((ofSet set).matchWithState cache tx value).1 = (ofSet set).match value := by
  unfold matchWithState
  cases cache with
  | none => rfl
  | some cache =>
    dsimp only
    split
    · rfl
    · split
      · rename_i present hload
        rw [hcoh cache rfl present hload, Bool.eq_iff_iff, ofSet_match_iff]
        exact intersects_presence_iff set value
      · split
        · rename_i h
          exact h.symm
        · rename_i h
          exact (Bool.eq_false_iff.mpr h).symm

theorem possibleFromCache_of_match (hcoh : ∀ c ∈ cache, c.CoherentAt tx value)
    (h : ∃ c ∈ value, set.bytes c = true) :
    (ofSet set).possibleFromCache cache tx value = true := by
  unfold possibleFromCache
  cases cache with
  | none => rfl
  | some cache =>
    dsimp only
    split
    · rfl
    · split
      · rfl
      · rename_i present hload
        rw [hcoh cache rfl present hload]
        exact (intersects_presence_iff set value).mpr h

end

end RequiredByteMatcher

/-- **A text with an occurrence of a covered needle has a chosen byte.** -/
theorem Covers.exists_byte {set : ByteSet} {needle value : Bytes}
    (h : Covers caseFold set needle) (hocc : Occurs caseFold needle value) :
    ∃ c ∈ value, set.bytes c = true := by
  obtain ⟨b, hb, hset, hup⟩ := h
  obtain ⟨c, hc, rfl | ⟨hf, rfl⟩⟩ := hocc.exists_byte hb
  · exact ⟨c, hc, hset⟩
  · exact ⟨_, hc, hup hf⟩

/-- **The chosen bytes cover every needle**: the loop ends, the table and the bitmap agree, and
every text with a needle is accepted, as it is written and up to ASCII case. -/
theorem requiredBytes_cover (h : ∀ n ∈ needles, n ≠ []) (caseFold : Bool) :
    ∃ matcher, newRequiredByteMatcher needles caseFold = some matcher ∧
      (∀ c, matcher.set.bits.test c = matcher.set.bytes c) ∧
      (∀ n ∈ needles, ∃ b ∈ n, matcher.set.bytes b = true) ∧
      ∀ n ∈ needles, ∀ value, n <:+: value ∨ Occurs caseFold n value →
        matcher.match value = true := by
  obtain ⟨set, hset, hcov⟩ := newRequiredByteMatcher_covers h caseFold
  refine ⟨_, hset, set.agree, fun n hn => ?_, fun n hn value hocc => ?_⟩
  · obtain ⟨b, hb, hbyte, -⟩ := hcov n hn
    exact ⟨b, hb, hbyte⟩
  rcases hocc with hinfix | hocc
  · -- a byte of the needle itself was chosen
    obtain ⟨b, hb, hbyte, -⟩ := hcov n hn
    exact (RequiredByteMatcher.ofSet_match_iff set value).mpr ⟨b, hinfix.subset hb, hbyte⟩
  · exact (RequiredByteMatcher.ofSet_match_iff set value).mpr ((hcov n hn).exists_byte hocc)

theorem requiredBytes_cover_letters :
    ∃ matcher, newRequiredByteMatcher [[0x61, 0x62], [0x43]] true = some matcher ∧
      matcher.match [0x20, 0x41, 0x42] = true ∧ matcher.match [0x20, 0x43] = true := by
  obtain ⟨matcher, hnew, -, -, hall⟩ := @requiredBytes_cover [[0x61, 0x62], [0x43]] (by decide) true
  refine ⟨matcher, hnew, ?_, ?_⟩
  · exact hall [0x61, 0x62] (by decide) _ (.inr ⟨[0x20], [], rfl⟩)
  · exact hall [0x43] (by decide) _ (.inl ⟨[0x20], [], rfl⟩)

end Coraza.Operators
