import Coraza.Go.Encoding
import Coraza.Operators.FoldedMatcher
import Coraza.Operators.RequiredByte

/-!
# Searching many literals at once

An `IndexedMatcher` is a Wu-Manber search: the shortest needle is a window over
the text, the byte or the pair of bytes under the end of the window says how far
the window may be moved, and where it may not, the needles that have these bytes
at the end of their window are compared.

The source has the loop four times, for one byte and for two, with and without
folding.  The four differ only in the key that is read at a position, so here
they are one loop, `search`, and one argument: `WindowIndex` says what a shift
and a bucket must satisfy for the search to be exact, and the four indexes are
shown to satisfy it.  Shifts are stored in a byte and wrap; a wrapped shift is
smaller than the true one, so nothing is skipped.  The result is
`IndexedMatcher.match_iff`.

`@pm` shares a compiled search under a key that is computed from its patterns; `pmMemoizeKey_inj`
says that different lists of patterns have different keys.
-/

namespace Coraza.Operators

open Go List

/-- `indexedMatcher`.  The pair index exists if the needles have two bytes. -/
structure IndexedMatcher where
  shift : UInt8 → Nat
  endBuckets : UInt8 → List Bytes
  pairShift : Option (Nat → Nat)
  pairBuckets : Nat → List Bytes
  minLen : Nat
  caseFold : Bool
  required : Option RequiredByteMatcher

/-- `bytePair`: `uint16(first)<<8 | uint16(second)`. -/
def bytePair (first second : UInt8) : Nat := first.toNat * 256 + second.toNat

def foldedBytePair (first second : UInt8) : Nat := bytePair (lowerByte first) (lowerByte second)

def minNeedleLen : List Bytes → Nat
  | [] => 0
  | needle :: needles =>
    needles.foldl (fun m n => if n.length < m then n.length else m) needle.length

namespace IndexedMatcher

/-- The shifts one needle puts in the table of single bytes.  A shift is
converted to a byte. -/
def shiftEntries (minLen : Nat) (caseFold : Bool) (needle : Bytes) : List (UInt8 × Nat) :=
  (List.range minLen).flatMap (fun i =>
    let shift := (minLen - 1 - i) % 256
    let c := needle.getD i 0
    if caseFold ∧ 0x61 ≤ c.toNat ∧ c.toNat ≤ 0x7A then [(c, shift), (upperByte c, shift)]
    else [(c, shift)])

def pairEntries (minLen : Nat) (needle : Bytes) : List (Nat × Nat) :=
  (List.range (minLen - 1)).map (fun i =>
    (bytePair (needle.getD i 0) (needle.getD (i + 1) 0), (minLen - 2 - i) % 256))

def endBucket (minLen : Nat) (needles : List Bytes) (c : UInt8) : List Bytes :=
  needles.filter (fun needle => needle.getD (minLen - 1) 0 == c)

def pairBucket (minLen : Nat) (needles : List Bytes) (pair : Nat) : List Bytes :=
  needles.filter (fun needle =>
    bytePair (needle.getD (minLen - 2) 0) (needle.getD (minLen - 1) 0) == pair)

def normalize (needles : List Bytes) (caseFold : Bool) : List Bytes :=
  if caseFold then needles.map lowerASCII else needles

def buildPairIndex (needles : List Bytes) (caseFold : Bool) (required : RequiredByteMatcher) :
    IndexedMatcher :=
  let minLen := minNeedleLen needles
  { shift := fun _ => 0
    endBuckets := fun _ => []
    pairShift := some ((needles.flatMap (pairEntries minLen)).foldl Scan.lowerAt
      (fun _ => min (minLen - 1) 255))
    pairBuckets := pairBucket minLen needles
    minLen, caseFold, required := some required }

def buildByteIndex (needles : List Bytes) (caseFold : Bool) (required : RequiredByteMatcher) :
    IndexedMatcher :=
  let minLen := minNeedleLen needles
  { shift := (needles.flatMap (shiftEntries minLen caseFold)).foldl Scan.lowerAt
      (fun _ => min minLen 255)
    endBuckets := endBucket minLen needles
    pairShift := none
    pairBuckets := fun _ => []
    minLen, caseFold, required := some required }

def build (normalized : List Bytes) (caseFold : Bool) (required : RequiredByteMatcher) :
    IndexedMatcher :=
  if 2 ≤ minNeedleLen normalized then buildPairIndex normalized caseFold required
  else buildByteIndex normalized caseFold required

/-- `newIndexedMatcher`; `none` if the choice of required bytes does not end. -/
def new (needles : List Bytes) (caseFold : Bool) : Option IndexedMatcher :=
  if needles = [] then
    some { shift := fun _ => 0, endBuckets := fun _ => [], pairShift := none,
           pairBuckets := fun _ => [], minLen := 0, caseFold, required := none }
  else
    let normalized := normalize needles caseFold
    (newRequiredByteMatcher normalized caseFold).map (build normalized caseFold)

/-! ### The loop -/

def verify (equal : Bytes → Bytes → Bool) (value : Bytes) (start : Nat) (needle : Bytes) : Bool :=
  decide (start + needle.length ≤ value.length) &&
    equal ((value.drop start).take needle.length) needle

def windowFound (minLen : Nat) (shiftAt : Nat → Nat) (bucketAt : Nat → List Bytes)
    (equal : Bytes → Bytes → Bool) (value : Bytes) (last : Nat) : Bool :=
  decide (shiftAt last = 0) && (bucketAt last).any (verify equal value (last + 1 - minLen))

def windowStep (shiftAt : Nat → Nat) (last : Nat) : Nat :=
  if shiftAt last ≠ 0 then shiftAt last else 1

def search (minLen : Nat) (shiftAt : Nat → Nat) (bucketAt : Nat → List Bytes)
    (equal : Bytes → Bytes → Bool) (value : Bytes) : Bool :=
  Scan.scan value.length (windowFound minLen shiftAt bucketAt equal value) (windowStep shiftAt)
    value.length (minLen - 1)

def matchCaseSensitive (matcher : IndexedMatcher) (value : Bytes) : Bool :=
  if matcher.minLen = 0 ∨ value.length < matcher.minLen then false
  else
    match matcher.pairShift with
    | some pairShift =>
      let pair (last : Nat) : Nat := bytePair (value.getD (last - 1) 0) (value.getD last 0)
      search matcher.minLen (fun last => pairShift (pair last))
        (fun last => matcher.pairBuckets (pair last)) (· == ·) value
    | none =>
      search matcher.minLen (fun last => matcher.shift (value.getD last 0))
        (fun last => matcher.endBuckets (value.getD last 0)) (· == ·) value

def matchFold (matcher : IndexedMatcher) (value : Bytes) : Bool :=
  if matcher.minLen = 0 ∨ value.length < matcher.minLen then false
  else
    match matcher.pairShift with
    | some pairShift =>
      let pair (last : Nat) : Nat := foldedBytePair (value.getD (last - 1) 0) (value.getD last 0)
      search matcher.minLen (fun last => pairShift (pair last))
        (fun last => matcher.pairBuckets (pair last)) equalFoldASCIIBytes value
    | none =>
      search matcher.minLen (fun last => matcher.shift (value.getD last 0))
        (fun last => matcher.endBuckets (lowerByte (value.getD last 0))) equalFoldASCIIBytes value

def «match» (matcher : IndexedMatcher) (value : Bytes) : Bool :=
  if matcher.caseFold then matcher.matchFold value else matcher.matchCaseSensitive value

def matchWithState {σ : Type} (matcher : IndexedMatcher) (cache : Option (BytePresenceCache σ))
    (tx : σ) (value : Bytes) : Bool :=
  match matcher.required with
  | some required => required.possibleFromCache cache tx value && matcher.match value
  | none => matcher.match value

/-! ### What makes a window search exact -/

/-- The shifts and buckets of a window over `text`, read off keys of `kw` bytes:
a key that a needle has `d` bytes before the end of its window shifts by at most
`d`, and the needles that start with the window are in its bucket. -/
structure WindowIndex (needles : List Bytes) (minLen kw : Nat) (text : Bytes)
    (shiftAt : Nat → Nat) (bucketAt : Nat → List Bytes) : Prop where
  width : 1 ≤ kw ∧ kw ≤ minLen
  minLen_le : ∀ n ∈ needles, minLen ≤ n.length
  shift_le : ∀ last, shiftAt last + kw ≤ minLen + 1
  shift_place : ∀ n ∈ needles, ∀ start, n <+: text.drop start → ∀ i, kw ≤ i + 1 → i < minLen →
    shiftAt (start + i) ≤ minLen - 1 - i
  mem_bucket : ∀ n ∈ needles, ∀ start, n <+: text.drop start → n ∈ bucketAt (start + (minLen - 1))
  bucket_sub : ∀ last, ∀ n ∈ bucketAt last, n ∈ needles

section

variable {needles : List Bytes} {minLen kw : Nat} {text value : Bytes} {shiftAt : Nat → Nat}
  {bucketAt : Nat → List Bytes} {equal : Bytes → Bytes → Bool}

theorem WindowIndex.skips (h : WindowIndex needles minLen kw text shiftAt bucketAt)
    (hlen : text.length = value.length)
    (heq : ∀ start n, start + n.length ≤ value.length →
      (equal ((value.drop start).take n.length) n = true ↔ n <+: text.drop start)) :
    Scan.Skips (minLen - 1) value.length (windowFound minLen shiftAt bucketAt equal value)
      (windowStep shiftAt) (fun last => ∃ n ∈ needles, n <+: text.drop (last + 1 - minLen)) := by
  obtain ⟨hkw, hkm⟩ := h.width
  have hne : ∀ n ∈ needles, n ≠ [] := by
    rintro n hn rfl
    have := h.minLen_le _ hn
    rw [length_nil] at this
    omega
  refine ⟨?_, ?_, ?_⟩
  · intro i hi hin hf
    simp only [windowFound, verify, Bool.and_eq_true, decide_eq_true_eq, any_eq_true] at hf
    obtain ⟨_, n, hn, hfit, hequal⟩ := hf
    exact ⟨i, le_refl i, hin, n, h.bucket_sub i n hn, (heq _ n hfit).mp hequal⟩
  · intro i _ _ _
    unfold windowStep
    split <;> omega
  · rintro i hi hin hf j hij hstep hjn ⟨n, hn, hocc⟩
    -- the window of the occurrence covers `i`, or it is past every shift
    by_cases hfar : minLen < (j - i) + kw
    · have hle := h.shift_le i
      unfold windowStep at hstep
      split at hstep <;> omega
    · have hplace := h.shift_place n hn _ hocc (minLen - 1 - (j - i)) (by omega) (by omega)
      rw [show j + 1 - minLen + (minLen - 1 - (j - i)) = i by omega] at hplace
      unfold windowStep at hstep
      split at hstep
      · omega
      · rename_i hzero
        have hji : j = i := by omega
        subst hji
        have hbucket := h.mem_bucket n hn _ hocc
        rw [show j + 1 - minLen + (minLen - 1) = j by omega] at hbucket
        have hfit : j + 1 - minLen + n.length ≤ value.length := by
          have := Scan.prefix_drop_length hocc (hne n hn)
          omega
        have hfound : windowFound minLen shiftAt bucketAt equal value j = true := by
          simp only [windowFound, verify, Bool.and_eq_true, decide_eq_true_eq, any_eq_true]
          exact ⟨not_not.mp hzero, n, hbucket, hfit, (heq _ n hfit).mpr hocc⟩
        rw [hfound] at hf
        cases hf

theorem WindowIndex.search_iff (h : WindowIndex needles minLen kw text shiftAt bucketAt)
    (hlen : text.length = value.length)
    (heq : ∀ start n, start + n.length ≤ value.length →
      (equal ((value.drop start).take n.length) n = true ↔ n <+: text.drop start)) :
    search minLen shiftAt bucketAt equal value = true ↔ ∃ n ∈ needles, n <:+: text := by
  obtain ⟨hkw, hkm⟩ := h.width
  refine ((h.skips hlen heq).scan_iff _ _ (le_refl _) (Nat.le_add_left _ _)).trans ?_
  constructor
  · rintro ⟨j, _, _, n, hn, hocc⟩
    exact ⟨n, hn, Scan.infix_iff_prefix_drop.mpr ⟨_, hocc⟩⟩
  · rintro ⟨n, hn, hocc⟩
    obtain ⟨k, hk⟩ := Scan.infix_iff_prefix_drop.mp hocc
    have hnl := h.minLen_le n hn
    have hfit := Scan.prefix_drop_length hk (by
      rintro rfl
      rw [length_nil] at hnl
      omega)
    refine ⟨k + minLen - 1, by omega, by omega, n, hn, ?_⟩
    rwa [show k + minLen - 1 + 1 - minLen = k by omega]

end

/-! ### The two indexes -/

theorem minNeedleLen_le : ∀ {needles : List Bytes}, ∀ n ∈ needles,
    minNeedleLen needles ≤ n.length := by
  have hfold : ∀ (needles : List Bytes) (m : Nat),
      needles.foldl (fun m n => if n.length < m then n.length else m) m ≤ m ∧
        ∀ n ∈ needles,
          needles.foldl (fun m n => if n.length < m then n.length else m) m ≤ n.length := by
    refine Lists.foldl_le id (S := fun (n : Bytes) (m : Nat) => m ≤ n.length) le_trans ?_
    intro m n
    dsimp only [id]
    split <;> omega
  intro needles n hn
  cases needles with
  | nil => cases hn
  | cons needle needles =>
    rcases List.mem_cons.mp hn with rfl | hn
    · exact (hfold needles _).1
    · exact (hfold needles _).2 n hn

variable {needles normalized : List Bytes} {caseFold : Bool}

theorem minNeedleLen_pos (hne : needles ≠ []) (hn : ∀ n ∈ needles, n ≠ []) :
    0 < minNeedleLen needles := by
  cases needles with
  | nil => exact absurd rfl hne
  | cons needle needles =>
    rw [forall_mem_cons] at hn
    refine List.foldlRecOn (motive := fun m => 0 < m) needles _ (List.length_pos_iff.mpr hn.1) ?_
    intro m hm n hmem
    have hpos := List.length_pos_iff.mpr (hn.2 n hmem)
    split <;> omega

section

variable {needles : List Bytes} {minLen : Nat}

theorem pair_windowIndex (hmin : 2 ≤ minLen) (hlen : ∀ n ∈ needles, minLen ≤ n.length)
    (text : Bytes) :
    WindowIndex needles minLen 2 text
      (fun last => (needles.flatMap (pairEntries minLen)).foldl Scan.lowerAt
        (fun _ => min (minLen - 1) 255) (bytePair (text.getD (last - 1) 0) (text.getD last 0)))
      (fun last => pairBucket minLen needles
        (bytePair (text.getD (last - 1) 0) (text.getD last 0))) := by
  obtain ⟨htable, hentries⟩ := Scan.foldl_lowerAt_le (needles.flatMap (pairEntries minLen))
    (fun _ => min (minLen - 1) 255)
  refine ⟨⟨by omega, hmin⟩, hlen, fun last => ?_, ?_, ?_, ?_⟩
  · have := htable (bytePair (text.getD (last - 1) 0) (text.getD last 0))
    omega
  · intro n hn start hocc i hi him
    have hnl := hlen n hn
    have hb := Scan.prefix_drop_getD 0 hocc (show i < n.length by omega)
    have ha := Scan.prefix_drop_getD 0 hocc (show i - 1 < n.length by omega)
    rw [show start + (i - 1) = start + i - 1 by omega] at ha
    have hmem : (bytePair (n.getD (i - 1) 0) (n.getD i 0), (minLen - 2 - (i - 1)) % 256)
        ∈ needles.flatMap (pairEntries minLen) := by
      refine List.mem_flatMap.mpr ⟨n, hn, List.mem_map.mpr ⟨i - 1, ?_, ?_⟩⟩
      · rw [mem_range]
        omega
      · rw [Nat.sub_add_cancel (by omega)]
    have hle := hentries _ hmem
    simp only [ha, hb] at hle ⊢
    omega
  · intro n hn start hocc
    have hnl := hlen n hn
    have hb := Scan.prefix_drop_getD 0 hocc (show minLen - 1 < n.length by omega)
    have ha := Scan.prefix_drop_getD 0 hocc (show minLen - 2 < n.length by omega)
    rw [show start + (minLen - 2) = start + (minLen - 1) - 1 by omega] at ha
    exact List.mem_filter.mpr ⟨hn, by simp only [ha, hb, beq_self_eq_true]⟩
  · exact fun last n hn => mem_of_mem_filter hn

theorem mem_shiftEntries {caseFold : Bool} {n : Bytes} {i : Nat} (hi : i < minLen) {c : UInt8}
    (hc : c = n.getD i 0 ∨ (caseFold = true ∧ c = upperByte (n.getD i 0))) :
    (c, (minLen - 1 - i) % 256) ∈ shiftEntries minLen caseFold n := by
  refine List.mem_flatMap.mpr ⟨i, List.mem_range.mpr hi, ?_⟩
  dsimp only
  split
  · rcases hc with rfl | ⟨_, rfl⟩ <;> simp
  · rename_i hno
    rcases hc with rfl | ⟨hf, rfl⟩
    · simp
    · rw [upperByte, if_neg (fun h => hno ⟨hf, h⟩)]
      simp

theorem byte_windowIndex (caseFold : Bool) (hmin : 1 ≤ minLen)
    (hlen : ∀ n ∈ needles, minLen ≤ n.length) (value : Bytes) :
    WindowIndex needles minLen 1 (if caseFold then value.map lowerByte else value)
      (fun last => (needles.flatMap (shiftEntries minLen caseFold)).foldl Scan.lowerAt
        (fun _ => min minLen 255) (value.getD last 0))
      (fun last => endBucket minLen needles
        (if caseFold then lowerByte (value.getD last 0) else value.getD last 0)) := by
  obtain ⟨htable, hentries⟩ := Scan.foldl_lowerAt_le
    (needles.flatMap (shiftEntries minLen caseFold)) (fun _ => min minLen 255)
  refine ⟨⟨le_refl 1, hmin⟩, hlen, fun last => ?_, ?_, ?_, ?_⟩
  · have := htable (value.getD last 0)
    omega
  · intro n hn start hocc i _ him
    have hnl := hlen n hn
    have hbyte : value.getD (start + i) 0 = n.getD i 0 ∨
        (caseFold = true ∧ value.getD (start + i) 0 = upperByte (n.getD i 0)) := by
      have hget := Scan.prefix_drop_getD 0 hocc (show i < n.length by omega)
      cases caseFold with
      | false => exact Or.inl hget
      | true =>
        simp only [if_true, getD_map_lowerByte] at hget
        exact (lowerByte_eq_cases hget).imp_right (fun h => ⟨rfl, h⟩)
    have hle := hentries _ (List.mem_flatMap.mpr ⟨n, hn, mem_shiftEntries him hbyte⟩)
    exact hle.trans (Nat.mod_le _ _)
  · intro n hn start hocc
    have hnl := hlen n hn
    have hget := Scan.prefix_drop_getD 0 hocc (show minLen - 1 < n.length by omega)
    refine List.mem_filter.mpr ⟨hn, ?_⟩
    cases caseFold with
    | false => simpa using hget.symm
    | true =>
      simp only [if_true, getD_map_lowerByte] at hget ⊢
      rw [hget]
      exact beq_self_eq_true _
  · exact fun last n hn => mem_of_mem_filter hn

end

/-! ### Exactness -/

theorem eq_slice (start : Nat) (n value : Bytes) :
    ((value.drop start).take n.length == n) = true ↔ n <+: value.drop start := by
  rw [beq_iff_eq, Scan.prefix_iff_take]

theorem not_occurs_of_short {value : Bytes} (h : value.length < minNeedleLen normalized) :
    ¬ ∃ n ∈ normalized, Occurs caseFold n value := by
  rintro ⟨n, hn, hocc⟩
  have hle := hocc.length_le
  have hmin := minNeedleLen_le n hn
  cases caseFold
  · simp only [Bool.false_eq_true, if_false] at hle
    omega
  · simp only [if_true, length_map] at hle
    omega

theorem match_eq_search {matcher : IndexedMatcher} {value : Bytes}
    (hmin : matcher.minLen = minNeedleLen normalized) (hpos : 0 < minNeedleLen normalized)
    {loop : Bool} (hloop : loop = true ↔ ∃ n ∈ normalized, Occurs matcher.caseFold n value) :
    (if matcher.minLen = 0 ∨ value.length < matcher.minLen then false else loop) = true ↔
      ∃ n ∈ normalized, Occurs matcher.caseFold n value := by
  by_cases hshort : value.length < minNeedleLen normalized
  · rw [if_pos (Or.inr (hmin ▸ hshort))]
    exact ⟨fun h => (nomatch h), fun h => absurd h (not_occurs_of_short hshort)⟩
  · rw [if_neg (by rw [hmin]; omega)]
    exact hloop

theorem buildPairIndex_match_iff (htwo : 2 ≤ minNeedleLen normalized) (caseFold : Bool)
    (required : RequiredByteMatcher) (value : Bytes) :
    (buildPairIndex normalized caseFold required).match value = true ↔
      ∃ n ∈ normalized, Occurs caseFold n value := by
  cases caseFold with
  | false =>
    refine match_eq_search rfl (by omega) ?_
    exact (pair_windowIndex htwo minNeedleLen_le value).search_iff rfl
      (fun start n _ => eq_slice start n value)
  | true =>
    refine match_eq_search rfl (by omega) ?_
    have hidx := pair_windowIndex htwo minNeedleLen_le (value.map lowerByte)
    simp only [getD_map_lowerByte] at hidx
    exact hidx.search_iff (length_map _) (fun start n => equalFoldASCIIBytes_slice)

theorem buildByteIndex_match_iff (hpos : 0 < minNeedleLen normalized) (caseFold : Bool)
    (required : RequiredByteMatcher) (value : Bytes) :
    (buildByteIndex normalized caseFold required).match value = true ↔
      ∃ n ∈ normalized, Occurs caseFold n value := by
  have hidx := byte_windowIndex caseFold hpos minNeedleLen_le value
  cases caseFold with
  | false =>
    refine match_eq_search rfl hpos ?_
    exact hidx.search_iff rfl (fun start n _ => eq_slice start n value)
  | true =>
    refine match_eq_search rfl hpos ?_
    exact hidx.search_iff (length_map _) (fun start n => equalFoldASCIIBytes_slice)

theorem build_match_iff (hne : normalized ≠ []) (hn : ∀ n ∈ normalized, n ≠ []) (caseFold : Bool)
    (required : RequiredByteMatcher) (value : Bytes) :
    (build normalized caseFold required).match value = true ↔
      ∃ n ∈ normalized, Occurs caseFold n value := by
  unfold build
  split
  · rename_i htwo
    exact buildPairIndex_match_iff htwo caseFold required value
  · exact buildByteIndex_match_iff (minNeedleLen_pos hne hn) caseFold required value

/-- **The search for many literals is exact.** -/
theorem match_iff (hne : needles ≠ []) (hn : ∀ n ∈ needles, n ≠ []) (caseFold : Bool) :
    ∃ matcher, new needles caseFold = some matcher ∧ ∀ value,
      (matcher.match value = true ↔ ∃ n ∈ normalize needles caseFold, Occurs caseFold n value) := by
  have hnorm : normalize needles caseFold ≠ [] ∧ ∀ n ∈ normalize needles caseFold, n ≠ [] := by
    cases caseFold with
    | false => exact ⟨hne, hn⟩
    | true =>
      refine ⟨by simpa [normalize] using hne, fun n h => ?_⟩
      obtain ⟨m, hm, rfl⟩ := List.mem_map.mp h
      simpa [lowerASCII] using hn m hm
  obtain ⟨set, hset, _⟩ := newRequiredByteMatcher_covers hnorm.2 caseFold
  refine ⟨build (normalize needles caseFold) caseFold (RequiredByteMatcher.ofSet set), ?_,
    build_match_iff hnorm.1 hnorm.2 caseFold _⟩
  rw [new, if_neg hne]
  simp only [hset, Option.map_some]

/-- **`match` says whether a needle occurs in the text**, byte by byte or with the ASCII letters
of both in lower case.  The needles may have any lengths: a shift that does not fit in a byte is
stored modulo 256, and is then smaller than the distance to the next occurrence. -/
theorem match_iff_contains {needles : List Bytes} (hne : needles ≠ []) (hn : ∀ n ∈ needles, n ≠ [])
    (caseFold : Bool) :
    ∃ matcher, new needles caseFold = some matcher ∧ ∀ value,
      (matcher.match value = true ↔ ∃ n ∈ needles,
        if caseFold then lowerASCII n <:+: lowerASCII value else n <:+: value) := by
  obtain ⟨matcher, hnew, hmatch⟩ := match_iff hne hn caseFold
  refine ⟨matcher, hnew, fun value => (hmatch value).trans ?_⟩
  cases caseFold with
  | false => exact Iff.rfl
  | true =>
    constructor
    · rintro ⟨n, hnorm, hocc⟩
      obtain ⟨m, hm, rfl⟩ := List.mem_map.mp hnorm
      exact ⟨m, hm, hocc⟩
    · rintro ⟨m, hm, hocc⟩
      exact ⟨lowerASCII m, mem_map_of_mem hm, hocc⟩

def longNeedle : Bytes := List.replicate 300 0x41

theorem match_iff_contains_long : ∃ matcher, new [longNeedle] true = some matcher ∧ ∀ value,
      (matcher.match value = true ↔ ∃ n ∈ [longNeedle],
        if true = true then lowerASCII n <:+: lowerASCII value else n <:+: value) :=
  match_iff_contains (cons_ne_nil _ _)
    (List.forall_mem_singleton.mpr (cons_ne_nil _ _)) true

/-- A text on which the search answers has a required byte, if the matcher has any. -/
theorem new_required {matcher : IndexedMatcher} (h : new needles caseFold = some matcher) :
    matcher.required = none ∨ ∃ set, matcher.required = some (RequiredByteMatcher.ofSet set) ∧
      ∀ value, matcher.match value = true → ∃ c ∈ value, set.bytes c = true := by
  unfold new at h
  split at h
  · cases h
    exact .inl rfl
  rename_i hne
  obtain ⟨required, hrequired, rfl⟩ := Option.map_eq_some_iff.mp h
  have hn := ne_nil_of_newRequiredByteMatcher hrequired
  have hnorm : normalize needles caseFold ≠ [] := by
    cases caseFold with
    | false => exact hne
    | true => exact fun hnil => hne (List.map_eq_nil_iff.mp hnil)
  obtain ⟨set, hset, hcov⟩ := newRequiredByteMatcher_covers hn caseFold
  rw [hset] at hrequired
  cases hrequired
  refine .inr ⟨set, ?_, fun value hmatch => ?_⟩
  · unfold build
    split <;> rfl
  · obtain ⟨n, hmem, hocc⟩ := (build_match_iff hnorm hn caseFold _ value).mp hmatch
    exact (hcov n hmem).exists_byte hocc

theorem normalize_eq (h : caseFold = true → ∀ n ∈ needles, lowerASCII n = n) :
    normalize needles caseFold = needles := by
  cases caseFold with
  | false => rfl
  | true => exact (map_congr_left (h rfl)).trans (map_id needles)

end IndexedMatcher

/-! ### The key of a set of patterns -/

/-- A string: its length is an `int`. -/
def GoString := {s : Bytes // s.length < 2 ^ 63}

/-- `binary.BigEndian.AppendUint64(nil, v)`. -/
def appendUint64 (v : Nat) : Bytes :=
  (List.range 8).map (fun i => UInt8.ofNat (v / 256 ^ (7 - i)))

/-- What `pmMemoizeKey` hashes: every pattern after its length. -/
def encodePatterns (patterns : List GoString) : Bytes :=
  patterns.flatMap (fun pattern => appendUint64 pattern.1.length ++ pattern.1)

def pmMemoizeKey (sha256 : Bytes → Bytes) (operator buildOptions : Bytes)
    (patterns : List GoString) : Bytes :=
  operator ++ [0x3A] ++ buildOptions ++ [0x3A]
    ++ Hex.encodeToString (sha256 (encodePatterns patterns))

theorem appendUint64_inj {v w : Nat} (hv : v < 256 ^ 8) (hw : w < 256 ^ 8)
    (h : appendUint64 v = appendUint64 w) : v = w := by
  have hdigit : ∀ i ∈ List.range 8, v / 256 ^ (7 - i) % 256 = w / 256 ^ (7 - i) % 256 := by
    intro i hi
    have hbyte := congrArg UInt8.toNat (List.map_inj_left.mp h i hi)
    rwa [UInt8.toNat_ofNat', UInt8.toNat_ofNat'] at hbyte
  have hdiv : ∀ k ≤ 8, v / 256 ^ (8 - k) = w / 256 ^ (8 - k) := by
    intro k
    induction k with
    | zero => exact fun _ => by rw [Nat.div_eq_of_lt hv, Nat.div_eq_of_lt hw]
    | succ k ih =>
      intro hk
      have hmod := hdigit k (mem_range.mpr (by omega))
      have hrest := ih (by omega)
      rw [show 8 - k = 7 - k + 1 by omega, Nat.pow_succ, ← Nat.div_div_eq_div_mul,
        ← Nat.div_div_eq_div_mul] at hrest
      rw [show 8 - (k + 1) = 7 - k by omega]
      omega
  simpa using hdiv 8 (Nat.le_refl 8)

theorem encodePatterns_inj : Function.Injective encodePatterns := by
  intro ps
  induction ps with
  | nil =>
    intro qs h
    cases qs with
    | nil => rfl
    | cons q qs => cases h
  | cons p ps ih =>
    intro qs h
    cases qs with
    | nil => cases h
    | cons q qs =>
      unfold encodePatterns at h
      rw [flatMap_cons, flatMap_cons, append_assoc, append_assoc] at h
      obtain ⟨hlength, hrest⟩ := List.append_inj h rfl
      have hpq := appendUint64_inj (by have := p.2; omega) (by have := q.2; omega) hlength
      obtain ⟨hpattern, hrest⟩ := List.append_inj hrest hpq
      rw [Subtype.ext hpattern, ih hrest]

/-- **Two lists of patterns have one key only if they are equal**, if the hash function has no
collision on what is hashed for them. -/
theorem pmMemoizeKey_inj (ps qs : List GoString) :
    (encodePatterns ps = encodePatterns qs → ps = qs) ∧
      ∀ sha256 : Bytes → Bytes,
        (sha256 (encodePatterns ps) = sha256 (encodePatterns qs) →
          encodePatterns ps = encodePatterns qs) →
        ∀ operator buildOptions, pmMemoizeKey sha256 operator buildOptions ps
          = pmMemoizeKey sha256 operator buildOptions qs → ps = qs := by
  refine ⟨fun h => encodePatterns_inj h, fun sha256 hfree operator buildOptions hkey => ?_⟩
  have hhex := Hex.encodeToString_inj (List.append_cancel_left hkey)
  exact encodePatterns_inj (hfree hhex)

theorem pmMemoizeKey_inj_split :
    pmMemoizeKey id [0x70] [] [⟨[0x61], by decide⟩, ⟨[0x62], by decide⟩]
      ≠ pmMemoizeKey id [0x70] [] [⟨[0x61, 0x62], by decide⟩] := by
  intro h
  have heq := (pmMemoizeKey_inj _ _).2 id (fun heq => heq) _ _ h
  exact absurd (congrArg List.length heq) (by decide)

end Coraza.Operators
