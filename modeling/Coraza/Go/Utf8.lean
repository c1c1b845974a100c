import Mathlib

/-!
# UTF-8, as package `unicode/utf8` reads it

A Go string is a list of bytes that need not be UTF-8.  `decodeRune` is
`utf8.DecodeRuneInString`: it reads one rune off the front and says how many
bytes it took, and a byte that starts no well-formed sequence is read alone, as
`runeError`.  `encodeRune` is the other direction, the bytes of `string(r)`;
what is not a code point is written as `runeError`.

Two facts carry everything above this file.  `decodeRune_eq` says that a rune
which is not `runeError` was read from exactly its own encoding, so a rune the
reader saw is a substring of the text.  `encodeRune_ascii` says that the
encoding of a rune is one byte below `0x80` or only bytes from `0x80` on, so an
ASCII text comes from ASCII runes.
-/

namespace Go

open List

/-- A Go string, or a `[]byte`.  A Go `rune` is a `Nat`; none is negative here. -/
abbrev Bytes := List UInt8

instance : LawfulBEq Bytes := inferInstance

/-- `utf8.RuneError`, which also stands for a byte outside any sequence. -/
def runeError : Nat := 0xFFFD

/-- `utf8.RuneSelf`: below it a byte is a rune of its own. -/
def runeSelf : Nat := 0x80

def maxRune : Nat := 0x10FFFF

def isCont (b : UInt8) : Bool := 0x80 ≤ b.toNat && b.toNat ≤ 0xBF

/-- The least second byte a three-byte sequence may have; `0xE0` excludes the
overlong forms. -/
def lo3 (x : Nat) : Nat := if x = 0xE0 then 0xA0 else 0x80

/-- The greatest second byte a three-byte sequence may have; `0xED` excludes the
surrogates. -/
def hi3 (x : Nat) : Nat := if x = 0xED then 0x9F else 0xBF

/-- The least second byte a four-byte sequence may have. -/
def lo4 (x : Nat) : Nat := if x = 0xF0 then 0x90 else 0x80

/-- The greatest second byte a four-byte sequence may have; `0xF4` stops at
`maxRune`. -/
def hi4 (x : Nat) : Nat := if x = 0xF4 then 0x8F else 0xBF

/-- `utf8.DecodeRuneInString`: the first rune and the number of bytes it takes.
The width is `0` only at the end of the text. -/
def decodeRune : Bytes → Nat × Nat
  | [] => (runeError, 0)
  | b0 :: rest =>
    let x := b0.toNat
    if x < 0x80 then (x, 1)
    else if 0xC2 ≤ x ∧ x ≤ 0xDF then
      match rest with
      | b1 :: _ =>
        if isCont b1 then ((x - 0xC0) * 64 + (b1.toNat - 0x80), 2) else (runeError, 1)
      | [] => (runeError, 1)
    else if 0xE0 ≤ x ∧ x ≤ 0xEF then
      match rest with
      | b1 :: b2 :: _ =>
        if lo3 x ≤ b1.toNat ∧ b1.toNat ≤ hi3 x ∧ isCont b2 then
          ((x - 0xE0) * 4096 + (b1.toNat - 0x80) * 64 + (b2.toNat - 0x80), 3)
        else (runeError, 1)
      | _ => (runeError, 1)
    else if 0xF0 ≤ x ∧ x ≤ 0xF4 then
      match rest with
      | b1 :: b2 :: b3 :: _ =>
        if lo4 x ≤ b1.toNat ∧ b1.toNat ≤ hi4 x ∧ isCont b2 ∧ isCont b3 then
          ((x - 0xF0) * 262144 + (b1.toNat - 0x80) * 4096 + (b2.toNat - 0x80) * 64
            + (b3.toNat - 0x80), 4)
        else (runeError, 1)
      | _ => (runeError, 1)
    else (runeError, 1)

def encodeValid (r : Nat) : Bytes :=
  if r < 0x80 then [UInt8.ofNat r]
  else if r < 0x800 then [UInt8.ofNat (0xC0 + r / 64), UInt8.ofNat (0x80 + r % 64)]
  else if r < 0x10000 then
    [UInt8.ofNat (0xE0 + r / 4096), UInt8.ofNat (0x80 + r / 64 % 64),
      UInt8.ofNat (0x80 + r % 64)]
  else
    [UInt8.ofNat (0xF0 + r / 262144), UInt8.ofNat (0x80 + r / 4096 % 64),
      UInt8.ofNat (0x80 + r / 64 % 64), UInt8.ofNat (0x80 + r % 64)]

/-- A code point: at most `maxRune` and no surrogate. -/
def validRune (r : Nat) : Bool := r ≤ maxRune && !(0xD800 ≤ r && r ≤ 0xDFFF)

/-- `string(r)`, that is `utf8.AppendRune`: a value that is no code point is
written as `runeError`. -/
def encodeRune (r : Nat) : Bytes := encodeValid (if validRune r then r else runeError)

def encodeRunes (rs : List Nat) : Bytes := rs.flatMap encodeRune

@[simp] theorem encodeRunes_nil : encodeRunes [] = [] := rfl

@[simp] theorem encodeRunes_cons (r : Nat) (rs : List Nat) :
    encodeRunes (r :: rs) = encodeRune r ++ encodeRunes rs := rfl

/-! ### Bytes and numbers -/

theorem length_encodeRune (r : Nat) : (encodeRune r).length ≤ 4 ∧
    (r < 0x10000 → (encodeRune r).length ≤ 3) ∧ (r < 0x800 → (encodeRune r).length ≤ 2) ∧
    (r < 0x80 → (encodeRune r).length ≤ 1) := by
  have hvalid : ∀ r, (encodeValid r).length
      = if r < 0x80 then 1 else if r < 0x800 then 2 else if r < 0x10000 then 3 else 4 := by
    intro r
    unfold encodeValid
    split_ifs <;> rfl
  unfold encodeRune validRune maxRune runeError
  rw [hvalid]
  simp only [Bool.and_eq_true, Bool.not_eq_true', Bool.and_eq_false_iff, decide_eq_true_eq,
    decide_eq_false_iff_not]
  split_ifs <;> omega

variable {b b0 b1 b2 : UInt8} {r : Nat}

theorem UInt8.eq_ofNat {n : Nat} (h : b.toNat = n) : b = UInt8.ofNat n := by
  rw [← h, UInt8.ofNat_toNat]

theorem UInt8.toNat_ofNat_lt {n : Nat} (h : n < 256) : (UInt8.ofNat n).toNat = n := by
  rw [UInt8.toNat_ofNat']
  exact Nat.mod_eq_of_lt h

/-- A statement about every byte can be checked byte by byte. -/
theorem UInt8.forall_of_fin {P : UInt8 → Prop} (h : ∀ n : Fin 256, P (UInt8.ofNat n)) (b : UInt8) :
    P b := by
  have hb := h ⟨b.toNat, b.toNat_lt⟩
  rwa [UInt8.ofNat_toNat] at hb

theorem isCont_iff : isCont b = true ↔ 0x80 ≤ b.toNat ∧ b.toNat ≤ 0xBF := by
  simp [isCont]

theorem validRune_iff : validRune r = true ↔ r ≤ 0x10FFFF ∧ (r < 0xD800 ∨ 0xDFFF < r) := by
  unfold validRune maxRune
  simp only [Bool.and_eq_true, Bool.not_eq_true', Bool.and_eq_false_iff, decide_eq_true_eq,
    decide_eq_false_iff_not, Nat.not_le]

/-! ### One sequence of each length -/

theorem decodeRune_one (h0 : b0.toNat < 0x80) (t : Bytes) :
    decodeRune (b0 :: t) = (b0.toNat, 1) := by
  simp only [decodeRune, if_pos h0]

theorem decodeRune_two (h0 : 0xC2 ≤ b0.toNat ∧ b0.toNat ≤ 0xDF) (h1 : isCont b1 = true)
    (t : Bytes) : decodeRune (b0 :: b1 :: t) = ((b0.toNat - 0xC0) * 64 + (b1.toNat - 0x80), 2) := by
  have hx : ¬ b0.toNat < 0x80 := by omega
  simp only [decodeRune, if_neg hx, if_pos h0, if_pos h1]

theorem decodeRune_three (h0 : 0xE0 ≤ b0.toNat ∧ b0.toNat ≤ 0xEF)
    (h1 : lo3 b0.toNat ≤ b1.toNat ∧ b1.toNat ≤ hi3 b0.toNat) (h2 : isCont b2 = true) (t : Bytes) :
    decodeRune (b0 :: b1 :: b2 :: t)
      = ((b0.toNat - 0xE0) * 4096 + (b1.toNat - 0x80) * 64 + (b2.toNat - 0x80), 3) := by
  have hx : ¬ b0.toNat < 0x80 := by omega
  have hx2 : ¬ (0xC2 ≤ b0.toNat ∧ b0.toNat ≤ 0xDF) := by omega
  simp only [decodeRune, if_neg hx, if_neg hx2, if_pos h0]
  exact if_pos ⟨h1.1, h1.2, h2⟩

theorem decodeRune_four {b3 : UInt8} (h0 : 0xF0 ≤ b0.toNat ∧ b0.toNat ≤ 0xF4)
    (h1 : lo4 b0.toNat ≤ b1.toNat ∧ b1.toNat ≤ hi4 b0.toNat) (h2 : isCont b2 = true)
    (h3 : isCont b3 = true) (t : Bytes) :
    decodeRune (b0 :: b1 :: b2 :: b3 :: t)
      = ((b0.toNat - 0xF0) * 262144 + (b1.toNat - 0x80) * 4096 + (b2.toNat - 0x80) * 64
        + (b3.toNat - 0x80), 4) := by
  have hx : ¬ b0.toNat < 0x80 := by omega
  have hx2 : ¬ (0xC2 ≤ b0.toNat ∧ b0.toNat ≤ 0xDF) := by omega
  have hx3 : ¬ (0xE0 ≤ b0.toNat ∧ b0.toNat ≤ 0xEF) := by omega
  simp only [decodeRune, if_neg hx, if_neg hx2, if_neg hx3, if_pos h0]
  exact if_pos ⟨h1.1, h1.2, h2, h3⟩

/-! ### What a decoded rune was read from -/

theorem encodeRune_one (h : b.toNat < 0x80) : encodeRune b.toNat = [b] := by
  have hv : validRune b.toNat = true := validRune_iff.mpr (by omega)
  rw [encodeRune, if_pos hv, encodeValid, if_pos h, UInt8.ofNat_toNat]

theorem encodeRune_two (h0 : 0xC2 ≤ b0.toNat ∧ b0.toNat ≤ 0xDF) (h1 : isCont b1 = true) :
    encodeRune ((b0.toNat - 0xC0) * 64 + (b1.toNat - 0x80)) = [b0, b1] := by
  obtain ⟨hl, hh⟩ := isCont_iff.mp h1
  have hv : validRune ((b0.toNat - 0xC0) * 64 + (b1.toNat - 0x80)) = true :=
    validRune_iff.mpr (by omega)
  rw [encodeRune, if_pos hv, encodeValid, if_neg (by omega), if_pos (by omega),
    ← UInt8.eq_ofNat (b := b0) (by omega), ← UInt8.eq_ofNat (b := b1) (by omega)]

theorem encodeRune_three (h0 : 0xE0 ≤ b0.toNat ∧ b0.toNat ≤ 0xEF)
    (h1 : lo3 b0.toNat ≤ b1.toNat ∧ b1.toNat ≤ hi3 b0.toNat) (h2 : isCont b2 = true) :
    encodeRune ((b0.toNat - 0xE0) * 4096 + (b1.toNat - 0x80) * 64 + (b2.toNat - 0x80))
      = [b0, b1, b2] := by
  obtain ⟨hl, hh⟩ := isCont_iff.mp h2
  have hlo : 0x80 ≤ b1.toNat ∧ (0xE0 < b0.toNat ∨ 0xA0 ≤ b1.toNat) := by
    have := h1.1
    unfold lo3 at this
    split at this <;> omega
  have hhi : b1.toNat ≤ 0xBF ∧ (b0.toNat ≠ 0xED ∨ b1.toNat ≤ 0x9F) := by
    have := h1.2
    unfold hi3 at this
    split at this <;> omega
  have hv : validRune ((b0.toNat - 0xE0) * 4096 + (b1.toNat - 0x80) * 64 + (b2.toNat - 0x80))
      = true := validRune_iff.mpr (by omega)
  rw [encodeRune, if_pos hv, encodeValid, if_neg (by omega), if_neg (by omega),
    if_pos (by omega), ← UInt8.eq_ofNat (b := b0) (by omega),
    ← UInt8.eq_ofNat (b := b1) (by omega), ← UInt8.eq_ofNat (b := b2) (by omega)]

theorem encodeRune_four {b3 : UInt8} (h0 : 0xF0 ≤ b0.toNat ∧ b0.toNat ≤ 0xF4)
    (h1 : lo4 b0.toNat ≤ b1.toNat ∧ b1.toNat ≤ hi4 b0.toNat) (h2 : isCont b2 = true)
    (h3 : isCont b3 = true) :
    encodeRune ((b0.toNat - 0xF0) * 262144 + (b1.toNat - 0x80) * 4096 + (b2.toNat - 0x80) * 64
      + (b3.toNat - 0x80)) = [b0, b1, b2, b3] := by
  obtain ⟨hl2, hh2⟩ := isCont_iff.mp h2
  obtain ⟨hl3, hh3⟩ := isCont_iff.mp h3
  have hlo : 0x80 ≤ b1.toNat ∧ (0xF0 < b0.toNat ∨ 0x90 ≤ b1.toNat) := by
    have := h1.1
    unfold lo4 at this
    split at this <;> omega
  have hhi : b1.toNat ≤ 0xBF ∧ (b0.toNat ≠ 0xF4 ∨ b1.toNat ≤ 0x8F) := by
    have := h1.2
    unfold hi4 at this
    split at this <;> omega
  have hv : validRune ((b0.toNat - 0xF0) * 262144 + (b1.toNat - 0x80) * 4096
      + (b2.toNat - 0x80) * 64 + (b3.toNat - 0x80)) = true := validRune_iff.mpr (by omega)
  rw [encodeRune, if_pos hv, encodeValid, if_neg (by omega), if_neg (by omega),
    if_neg (by omega), ← UInt8.eq_ofNat (b := b0) (by omega),
    ← UInt8.eq_ofNat (b := b1) (by omega), ← UInt8.eq_ofNat (b := b2) (by omega),
    ← UInt8.eq_ofNat (b := b3) (by omega)]

/-- **A rune was read from its own encoding**, unless a byte outside any sequence was read. -/
theorem decodeRune_valid {rest : Bytes} (h : decodeRune (b0 :: rest) ≠ (runeError, 1)) :
    b0 :: rest = encodeRune (decodeRune (b0 :: rest)).1
      ++ (b0 :: rest).drop (decodeRune (b0 :: rest)).2 := by
  unfold decodeRune at h ⊢
  dsimp only at h ⊢
  split at h
  · rename_i hx
    rw [if_pos hx, encodeRune_one hx]
    rfl
  rename_i hx
  rw [if_neg hx]
  split at h
  · rename_i hx2
    rw [if_pos hx2]
    split at h
    · split at h
      · rename_i hc
        simp only [if_pos hc]
        rw [encodeRune_two hx2 hc]
        rfl
      · exact absurd rfl h
    · exact absurd rfl h
  rename_i hx2
  rw [if_neg hx2]
  split at h
  · rename_i hx3
    rw [if_pos hx3]
    split at h
    · split at h
      · rename_i hc
        simp only [if_pos hc]
        rw [encodeRune_three hx3 ⟨hc.1, hc.2.1⟩ hc.2.2]
        rfl
      · exact absurd rfl h
    · exact absurd rfl h
  rename_i hx3
  rw [if_neg hx3]
  split at h
  · rename_i hx4
    rw [if_pos hx4]
    split at h
    · split at h
      · rename_i hc
        simp only [if_pos hc]
        rw [encodeRune_four hx4 ⟨hc.1, hc.2.1⟩ hc.2.2.1 hc.2.2.2]
        rfl
      · exact absurd rfl h
    · exact absurd rfl h
  · exact absurd rfl h

theorem decodeRune_eq {s : Bytes} (h : (decodeRune s).1 ≠ runeError) :
    s = encodeRune (decodeRune s).1 ++ s.drop (decodeRune s).2 := by
  cases s with
  | nil => exact absurd rfl h
  | cons b0 rest => exact decodeRune_valid (fun heq => h (congrArg Prod.fst heq))

theorem decodeRune_width_pos {s : Bytes} (h : s ≠ []) : 0 < (decodeRune s).2 := by
  cases s with
  | nil => exact absurd rfl h
  | cons b0 rest =>
    unfold decodeRune
    dsimp only
    repeat' split
    all_goals exact Nat.succ_pos _

/-! ### Reading back an encoding -/

theorem isCont_ofNat (n : Nat) (h : n < 64) : isCont (UInt8.ofNat (0x80 + n)) = true := by
  rw [isCont_iff, UInt8.toNat_ofNat_lt (by omega)]
  omega

theorem decodeRune_encodeValid (hv : validRune r = true) (t : Bytes) :
    decodeRune (encodeValid r ++ t) = (r, (encodeValid r).length) := by
  obtain ⟨hmax, hsur⟩ := validRune_iff.mp hv
  have hlast : (UInt8.ofNat (0x80 + r % 64)).toNat = 0x80 + r % 64 :=
    UInt8.toNat_ofNat_lt (by omega)
  unfold encodeValid
  split
  · rename_i h1
    have hb : (UInt8.ofNat r).toNat = r := UInt8.toNat_ofNat_lt (by omega)
    exact (decodeRune_one (by omega) t).trans (by rw [hb]; rfl)
  split
  · have hb : (UInt8.ofNat (0xC0 + r / 64)).toNat = 0xC0 + r / 64 :=
      UInt8.toNat_ofNat_lt (by omega)
    refine (decodeRune_two (by omega) (isCont_ofNat _ (by omega)) t).trans ?_
    rw [hb, hlast]
    exact Prod.ext (by simp only; omega) rfl
  split
  · have hb : (UInt8.ofNat (0xE0 + r / 4096)).toNat = 0xE0 + r / 4096 :=
      UInt8.toNat_ofNat_lt (by omega)
    have hc : (UInt8.ofNat (0x80 + r / 64 % 64)).toNat = 0x80 + r / 64 % 64 :=
      UInt8.toNat_ofNat_lt (by omega)
    refine (decodeRune_three (by omega) ?_ (isCont_ofNat _ (by omega)) t).trans ?_
    · unfold lo3 hi3
      constructor <;> split <;> omega
    · rw [hb, hc, hlast]
      exact Prod.ext (by simp only; omega) rfl
  · have hb : (UInt8.ofNat (0xF0 + r / 262144)).toNat = 0xF0 + r / 262144 :=
      UInt8.toNat_ofNat_lt (by omega)
    have hc : (UInt8.ofNat (0x80 + r / 4096 % 64)).toNat = 0x80 + r / 4096 % 64 :=
      UInt8.toNat_ofNat_lt (by omega)
    have hd : (UInt8.ofNat (0x80 + r / 64 % 64)).toNat = 0x80 + r / 64 % 64 :=
      UInt8.toNat_ofNat_lt (by omega)
    refine (decodeRune_four (by omega) ?_ (isCont_ofNat _ (by omega))
      (isCont_ofNat _ (by omega)) t).trans ?_
    · unfold lo4 hi4
      constructor <;> split <;> omega
    · rw [hb, hc, hd, hlast]
      exact Prod.ext (by simp only; omega) rfl

/-- What `string(r)` reads back as: `r` itself, or `runeError` in its place. -/
def cleanRune (r : Nat) : Nat := if validRune r then r else runeError

theorem validRune_cleanRune (r : Nat) : validRune (cleanRune r) = true := by
  unfold cleanRune
  split
  · assumption
  · decide

/-- **Reading back an encoded rune.** -/
theorem decodeRune_encodeRune (r : Nat) (t : Bytes) :
    decodeRune (encodeRune r ++ t) = (cleanRune r, (encodeRune r).length) :=
  decodeRune_encodeValid (validRune_cleanRune r) t

theorem decodeRune_clean {rest : Bytes} (h : decodeRune (b0 :: rest) ≠ (runeError, 1)) :
    cleanRune (decodeRune (b0 :: rest)).1 = (decodeRune (b0 :: rest)).1 ∧
      (encodeRune (decodeRune (b0 :: rest)).1).length = (decodeRune (b0 :: rest)).2 := by
  have hback := decodeRune_encodeRune (decodeRune (b0 :: rest)).1
    ((b0 :: rest).drop (decodeRune (b0 :: rest)).2)
  rw [← decodeRune_valid h] at hback
  exact ⟨(congrArg Prod.fst hback).symm, (congrArg Prod.snd hback).symm⟩

/-! ### ASCII -/

theorem encodeRune_ne_nil (r : Nat) : encodeRune r ≠ [] := by
  unfold encodeRune encodeValid
  split_ifs <;> exact cons_ne_nil _ _

theorem encodeRune_high (h : 0x80 ≤ r) : ∀ b ∈ encodeRune r, 0x80 ≤ b.toNat := by
  by_cases hv : validRune r = true
  · have hmax := (validRune_iff.mp hv).1
    rw [encodeRune, if_pos hv, encodeValid, if_neg (Nat.not_lt.mpr h)]
    split_ifs <;> simp only [mem_cons, not_mem_nil, or_false, forall_eq_or_imp, forall_eq]
    · refine ⟨?_, ?_⟩ <;> rw [UInt8.toNat_ofNat_lt] <;> omega
    · refine ⟨?_, ?_, ?_⟩ <;> rw [UInt8.toNat_ofNat_lt] <;> omega
    · refine ⟨?_, ?_, ?_, ?_⟩ <;> rw [UInt8.toNat_ofNat_lt] <;> omega
  · rw [encodeRune, if_neg hv]
    decide +kernel

/-- The encoding of a rune is one ASCII byte, or has none. -/
theorem encodeRune_ascii (r : Nat) : (r < 0x80 ∧ encodeRune r = [UInt8.ofNat r]) ∨
      (0x80 ≤ r ∧ ∃ b t, encodeRune r = b :: t ∧ 0x80 ≤ b.toNat) := by
  by_cases hr : r < 0x80
  · have hv : validRune r = true := validRune_iff.mpr (by omega)
    exact Or.inl ⟨hr, by rw [encodeRune, if_pos hv, encodeValid, if_pos hr]⟩
  have hhigh := encodeRune_high (Nat.not_lt.mp hr)
  obtain ⟨b, t, h⟩ := exists_cons_of_ne_nil (encodeRune_ne_nil r)
  rw [h] at hhigh
  exact Or.inr ⟨Nat.not_lt.mp hr, b, t, h, hhigh b mem_cons_self⟩

/-- A sequence that does not start in ASCII has no ASCII byte, and its rune is
outside ASCII. -/
theorem decodeRune_high (h : 0x80 ≤ b0.toNat) (t : Bytes) : 0x80 ≤ (decodeRune (b0 :: t)).1 ∧
      ∀ b ∈ (b0 :: t).take (decodeRune (b0 :: t)).2, 0x80 ≤ b.toNat := by
  by_cases hone : decodeRune (b0 :: t) = (runeError, 1)
  · rw [hone]
    refine ⟨by decide, fun b hb => ?_⟩
    rw [take_succ_cons, take_zero, mem_singleton] at hb
    rwa [hb]
  have hread := decodeRune_valid hone
  rw [← (decodeRune_clean hone).2] at hread ⊢
  generalize (decodeRune (b0 :: t)).1 = r at hread ⊢
  have hr : 0x80 ≤ r := by
    rcases encodeRune_ascii r with ⟨hlt, hascii⟩ | ⟨hr, _⟩
    · rw [hascii] at hread
      have hb0 : b0 = UInt8.ofNat r := (cons.inj hread).1
      rw [hb0, UInt8.toNat_ofNat_lt (by omega)] at h
      exact absurd hlt (Nat.not_lt.mpr h)
    · exact hr
  have htake := congrArg (take (encodeRune r).length) hread
  rw [take_left] at htake
  rw [htake]
  exact ⟨hr, encodeRune_high hr⟩

end Go
