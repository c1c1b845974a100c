import Coraza.Go.Strings
import Coraza.Lib.Scan

/-!
# Bytes and ASCII letters in the literal filter

The filter in front of a regular expression compares bytes, and under `(?i)` it
folds only `A` to `Z`.  This file has the byte-level helpers of `rxprefilter.go`:
the two case conversions that the source writes out at each use, the comparison
`equalFoldASCIIBytes`, the word-sized test `isASCII` and the rarity heuristic
`byteRarity`.

The facts used above it are `lowerByte_eq_cases`, which lists the bytes with a
given lower case, `equalFoldASCIIBytes_iff`, and `isASCII_iff`.
-/

namespace Coraza.Operators

open Go List

/-! ### Case conversion of one byte -/

def lowerByte (c : UInt8) : UInt8 :=
  if 0x41 ≤ c.toNat ∧ c.toNat ≤ 0x5A then UInt8.ofNat (c.toNat + 0x20) else c

def upperByte (c : UInt8) : UInt8 :=
  if 0x61 ≤ c.toNat ∧ c.toNat ≤ 0x7A then UInt8.ofNat (c.toNat - 0x20) else c

theorem toNat_lowerByte (c : UInt8) : (lowerByte c).toNat =
    if 0x41 ≤ c.toNat ∧ c.toNat ≤ 0x5A then c.toNat + 0x20 else c.toNat := by
  unfold lowerByte
  split
  · exact UInt8.toNat_ofNat_lt (by omega)
  · rfl

theorem toNat_upperByte (c : UInt8) : (upperByte c).toNat =
    if 0x61 ≤ c.toNat ∧ c.toNat ≤ 0x7A then c.toNat - 0x20 else c.toNat := by
  unfold upperByte
  split
  · exact UInt8.toNat_ofNat_lt (by omega)
  · rfl

/-- The bytes with the lower case `b` are `b` and its upper case. -/
theorem lowerByte_eq_cases {c b : UInt8} (h : lowerByte c = b) : c = b ∨ c = upperByte b := by
  have hl := toNat_lowerByte c
  have hu := toNat_upperByte b
  rw [h] at hl
  simp only [← UInt8.toNat_inj]
  split at hl
  · rw [if_pos (by omega)] at hu
    omega
  · exact Or.inl hl.symm

theorem lowerByte_not_upper (c : UInt8) :
    ¬ (0x41 ≤ (lowerByte c).toNat ∧ (lowerByte c).toNat ≤ 0x5A) := by
  rw [toNat_lowerByte]
  split <;> omega

@[simp] theorem lowerByte_lowerByte (c : UInt8) : lowerByte (lowerByte c) = lowerByte c := by
  rw [lowerByte, if_neg (lowerByte_not_upper c)]

theorem getD_map_lowerByte (value : Bytes) (i : Nat) :
    (value.map lowerByte).getD i 0 = lowerByte (value.getD i 0) := by
  rw [getD_eq_getElem?_getD, getD_eq_getElem?_getD, List.getElem?_map]
  cases value[i]? <;> rfl

/-- The comparison of a slice with a needle in lower case.  The slices passed to
it have the length of the needle, so `lower[i]` is always in range. -/
def equalFoldASCIIBytes : Bytes → Bytes → Bool
  | [], _ => true
  | _ :: _, [] => false
  | c :: value, d :: lower =>
    if lowerByte c != d then false else equalFoldASCIIBytes value lower

theorem equalFoldASCIIBytes_iff {value lower : Bytes} : value.length = lower.length →
    (equalFoldASCIIBytes value lower = true ↔ value.map lowerByte = lower) := by
  induction value generalizing lower with
  | nil =>
    intro h
    have hl : lower = [] := List.length_eq_zero_iff.mp h.symm
    subst hl
    simp [equalFoldASCIIBytes]
  | cons c value ih =>
    intro h
    cases lower with
    | nil => cases h
    | cons d lower =>
      rw [equalFoldASCIIBytes, map_cons, List.cons.injEq]
      by_cases hc : lowerByte c = d
      · rw [if_neg (by simp [hc]), ih (Nat.succ.inj h)]
        exact ⟨fun hv => ⟨hc, hv⟩, fun hv => hv.2⟩
      · rw [if_pos (by simp [hc])]
        exact ⟨fun hf => (nomatch hf), fun hv => absurd hv.1 hc⟩

/-- `lowerASCII`: the copy is made from the first upper-case letter on, which
changes nothing before it. -/
def lowerASCII (value : Bytes) : Bytes := value.map lowerByte

/-- A slice of the needle's length equals the needle under folding exactly where
the needle starts in the folded text. -/
theorem equalFoldASCIIBytes_slice {value needle : Bytes} {start : Nat}
    (h : start + needle.length ≤ value.length) :
    equalFoldASCIIBytes ((value.drop start).take needle.length) needle = true ↔
      needle <+: (value.map lowerByte).drop start := by
  rw [equalFoldASCIIBytes_iff, Scan.prefix_iff_take, map_take, map_drop]
  rw [length_take, length_drop]
  omega

/-- What a search for a needle means: the needle is a contiguous part of the text,
under folding of the text with its ASCII letters in lower case. -/
def Occurs (caseFold : Bool) (needle value : Bytes) : Prop :=
  needle <:+: (if caseFold then value.map lowerByte else value)

theorem Occurs.exists_byte {caseFold : Bool} {needle value : Bytes}
    (h : Occurs caseFold needle value) {b : UInt8} (hb : b ∈ needle) :
    ∃ c ∈ value, c = b ∨ (caseFold = true ∧ c = upperByte b) := by
  have hmem := h.subset hb
  cases caseFold with
  | false => exact ⟨b, hmem, Or.inl rfl⟩
  | true =>
    obtain ⟨c, hc, hlow⟩ := List.mem_map.mp hmem
    exact ⟨c, hc, (lowerByte_eq_cases hlow).imp_right (fun h => ⟨rfl, h⟩)⟩

/-! ### ASCII -/

/-- The machine word size in bytes; it is `4` on a 32-bit platform. -/
def asciiWordSize : Nat := 8

def asciiHighBits : Nat := 0x8080808080808080 >>> (64 - 8 * asciiWordSize)

def packBytes : Bytes → Nat
  | [] => 0
  | b :: s => b.toNat ||| packBytes s <<< 8

def asciiWord (s : Bytes) : Nat := packBytes (s.take asciiWordSize)

/-- The loop over words, and after it the loop over bytes. -/
def isASCIIWords : Nat → Bytes → Bool
  | 0, s => s.all (fun b => b.toNat ≤ 0x7F)
  | n + 1, s =>
    if asciiWordSize ≤ s.length then
      if asciiWord s &&& asciiHighBits ≠ 0 then false else isASCIIWords n (s.drop asciiWordSize)
    else s.all (fun b => b.toNat ≤ 0x7F)

/-- The loop over blocks of four words, and after it the other two. -/
def isASCIIBlocks : Nat → Bytes → Bool
  | 0, s => isASCIIWords s.length s
  | n + 1, s =>
    if 4 * asciiWordSize ≤ s.length then
      if (asciiWord s ||| asciiWord (s.drop asciiWordSize)
          ||| asciiWord (s.drop (2 * asciiWordSize)) ||| asciiWord (s.drop (3 * asciiWordSize)))
          &&& asciiHighBits ≠ 0 then false
      else isASCIIBlocks n (s.drop (4 * asciiWordSize))
    else isASCIIWords s.length s

def isASCII (s : Bytes) : Bool := isASCIIBlocks s.length s

def allASCIIStrings (ss : List Bytes) : Bool := ss.all isASCII

/-- `asciiHighBits` for a word of `n` bytes. -/
def highMask : Nat → Nat
  | 0 => 0
  | n + 1 => 0x80 ||| highMask n <<< 8

theorem byte_and_high : ∀ b < 256, (b &&& 0x80 = 0 ↔ b < 0x80) := by decide +kernel

theorem pack_and_mask (b w m : Nat) (hb : b < 256) :
    (b ||| w <<< 8) &&& (0x80 ||| m <<< 8) = (b &&& 0x80) ||| (w &&& m) <<< 8 := by
  apply Nat.eq_of_testBit_eq
  intro i
  simp only [Nat.testBit_and, Nat.testBit_or, Nat.testBit_shiftLeft]
  by_cases hi : 8 ≤ i
  · have hpow : 256 ≤ 2 ^ i := Nat.pow_le_pow_right (n := 2) (by omega) hi
    have hbi : b.testBit i = false := Nat.testBit_lt_two_pow (by omega)
    have hhi : (0x80 : Nat).testBit i = false := Nat.testBit_lt_two_pow (by omega)
    simp [hi, hbi, hhi]
  · simp [hi]

theorem packBytes_and_highMask (s : Bytes) :
    packBytes s &&& highMask s.length = 0 ↔ ∀ b ∈ s, b.toNat < 0x80 := by
  induction s with
  | nil => simp [packBytes]
  | cons b s ih =>
    have hb : b.toNat < 256 := b.toNat_lt
    rw [packBytes, length_cons, highMask, pack_and_mask _ _ _ hb, Nat.or_eq_zero_iff,
      byte_and_high _ hb, Nat.shiftLeft_eq_zero_iff, ih, forall_mem_cons]

theorem asciiWord_and {s : Bytes} (h : asciiWordSize ≤ s.length) :
    asciiWord s &&& asciiHighBits = 0 ↔ ∀ b ∈ s.take asciiWordSize, b.toNat < 0x80 := by
  have hlen : (s.take asciiWordSize).length = asciiWordSize := by
    rw [length_take]
    omega
  have hmask : asciiHighBits = highMask (s.take asciiWordSize).length := by
    rw [hlen]
    decide
  rw [hmask, asciiWord, packBytes_and_highMask]

theorem forall_mem_take_drop {P : UInt8 → Prop} (n : Nat) (s : Bytes) :
    (∀ b ∈ s, P b) ↔ (∀ b ∈ s.take n, P b) ∧ ∀ b ∈ s.drop n, P b := by
  nth_rewrite 1 [← take_append_drop n s]
  rw [forall_mem_append]

theorem all_le_iff (s : Bytes) :
    s.all (fun b => b.toNat ≤ 0x7F) = true ↔ ∀ b ∈ s, b.toNat < 0x80 := by
  simp only [all_eq_true, decide_eq_true_eq, Nat.lt_succ_iff]

theorem isASCIIWords_iff : ∀ (n : Nat) (s : Bytes),
    isASCIIWords n s = true ↔ ∀ b ∈ s, b.toNat < 0x80 := by
  intro n
  induction n with
  | zero => exact all_le_iff
  | succ n ih =>
    intro s
    rw [isASCIIWords]
    by_cases hlen : asciiWordSize ≤ s.length
    · rw [if_pos hlen, forall_mem_take_drop asciiWordSize, ← asciiWord_and hlen, ← ih]
      by_cases hw : asciiWord s &&& asciiHighBits = 0
      · rw [if_neg (not_not.mpr hw)]
        exact ⟨fun h => ⟨hw, h⟩, fun h => h.2⟩
      · rw [if_pos hw]
        exact ⟨fun h => (nomatch h), fun h => absurd h.1 hw⟩
    · rw [if_neg hlen]
      exact all_le_iff s

theorem isASCIIBlocks_iff (n : Nat) (s : Bytes) :
    isASCIIBlocks n s = true ↔ ∀ b ∈ s, b.toNat < 0x80 := by
  induction n generalizing s with
  | zero => exact isASCIIWords_iff s.length s
  | succ n ih =>
    rw [isASCIIBlocks]
    by_cases hlen : 4 * asciiWordSize ≤ s.length
    · rw [if_pos hlen]
      have hsplit : (∀ b ∈ s, b.toNat < 0x80) ↔ (asciiWord s ||| asciiWord (s.drop asciiWordSize)
            ||| asciiWord (s.drop (2 * asciiWordSize))
            ||| asciiWord (s.drop (3 * asciiWordSize))) &&& asciiHighBits = 0 ∧
          ∀ b ∈ s.drop (4 * asciiWordSize), b.toNat < 0x80 := by
        have h2 : s.drop (2 * asciiWordSize) = (s.drop asciiWordSize).drop asciiWordSize := by
          rw [drop_drop, Nat.two_mul]
        have h3 : s.drop (3 * asciiWordSize) = (s.drop (2 * asciiWordSize)).drop asciiWordSize := by
          rw [drop_drop]; rfl
        have h4 : s.drop (4 * asciiWordSize) = (s.drop (3 * asciiWordSize)).drop asciiWordSize := by
          rw [drop_drop]; rfl
        have hl : ∀ k ≤ 3, asciiWordSize ≤ (s.drop (k * asciiWordSize)).length := by
          intro k hk
          rw [length_drop]
          simp only [asciiWordSize] at hlen ⊢
          omega
        have hl0 := hl 0 (by omega)
        have hl1 := hl 1 (by omega)
        rw [Nat.zero_mul, drop_zero] at hl0
        rw [Nat.one_mul] at hl1
        simp only [Nat.and_or_distrib_right, Nat.or_eq_zero_iff]
        rw [asciiWord_and hl0, asciiWord_and hl1, asciiWord_and (hl 2 (by omega)),
          asciiWord_and (hl 3 (by omega)), forall_mem_take_drop asciiWordSize s,
          forall_mem_take_drop asciiWordSize (s.drop asciiWordSize), ← h2,
          forall_mem_take_drop asciiWordSize (s.drop (2 * asciiWordSize)), ← h3,
          forall_mem_take_drop asciiWordSize (s.drop (3 * asciiWordSize)), ← h4]
        simp only [and_assoc]
      rw [hsplit, ← ih]
      split
      · rename_i hw
        exact ⟨fun h => (nomatch h), fun h => absurd h.1 hw⟩
      · rename_i hw
        exact ⟨fun h => ⟨not_not.mp hw, h⟩, fun h => h.2⟩
    · rw [if_neg hlen]
      exact isASCIIWords_iff s.length s

/-- **The word loops test every byte.** -/
theorem isASCII_iff (s : Bytes) : isASCII s = true ↔ ∀ b ∈ s, b.toNat < 0x80 :=
  isASCIIBlocks_iff s.length s

/-! ### Rarity -/

/-- `byteRarity`: how telling a byte is in typical input. -/
def byteRarity (value : UInt8) : Nat :=
  -- e t a o i n s h r
  if value ∈ ([0x65, 0x74, 0x61, 0x6F, 0x69, 0x6E, 0x73, 0x68, 0x72] : Bytes) then 0
  -- d l u c m f y w g p b v
  else if value ∈ ([0x64, 0x6C, 0x75, 0x63, 0x6D, 0x66, 0x79, 0x77, 0x67, 0x70, 0x62, 0x76] :
      Bytes) then 1
  -- k j q x z
  else if value ∈ ([0x6B, 0x6A, 0x71, 0x78, 0x7A] : Bytes) then 2
  else 3

end Coraza.Operators
