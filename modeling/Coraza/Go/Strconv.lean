import Coraza.Go.Io

/-!
# Numbers as package `strconv` reads and writes them

`itoa` writes a number in decimal and `atoi` reads one; `atoi_itoa` says that it is the same number
again.  `parseUint8` and `parseInt8` read the
octal numbers of escapes in a text; like the functions of the package they give the nearest number
of eight bits if the number is too large, and 0 for a text that is no number.
-/

namespace Go.Strconv

open List

def digits : Bytes → Option Nat
  | [] => none
  | b :: bs => (b :: bs).foldl (fun acc d =>
      acc.bind (fun n => if 0x30 ≤ d ∧ d ≤ 0x39 then some (10 * n + (d.toNat - 0x30)) else none))
      (some 0)

/-- `strconv.Atoi`; `none` is an error. -/
def atoi (s : Bytes) : Option Int :=
  let value : Option Int :=
    match s with
    | [] => none
    | b :: bs =>
      if b = 0x2B then (digits bs).map Int.ofNat
      else if b = 0x2D then (digits bs).map (fun n => -(n : Int))
      else (digits s).map Int.ofNat
  value.filter (fun n => -2 ^ 63 ≤ n ∧ n < 2 ^ 63)

/-- The loop of `strconv.ParseUint` with base 10: what it returns, unless a character is no digit.
A number that does not fit is noticed before the characters behind it. -/
def uintLoop (n : Nat) : Bytes → Option Nat
  | [] => some n
  | b :: bs =>
    if 0x30 ≤ b ∧ b ≤ 0x39 then
      let n := 10 * n + (b.toNat - 0x30)
      if n ≥ 2 ^ 64 then some (2 ^ 64 - 1) else uintLoop n bs
    else none

/-- The number that `strconv.Atoi` returns, with or without an error. -/
def atoiValue (s : Bytes) : Int :=
  let magnitude (negative : Bool) (s : Bytes) : Int :=
    if s = [] then 0
    else
      match uintLoop 0 s with
      | none => 0
      | some n => if negative then -(min n (2 ^ 63) : Nat) else (min n (2 ^ 63 - 1) : Nat)
  match s with
  | [] => 0
  | b :: bs =>
    if b = 0x2B then magnitude false bs
    else if b = 0x2D then magnitude true bs
    else magnitude false s

def itoa (n : Int) : Bytes := bytesOf (toString n)

def octalDigits : Bytes → Option Nat
  | [] => none
  | b :: bs => (b :: bs).foldl (fun acc d =>
      acc.bind (fun n => if 0x30 ≤ d ∧ d ≤ 0x37 then some (8 * n + (d.toNat - 0x30)) else none))
      (some 0)

/-- The number that `strconv.ParseUint(s, 8, 8)` returns, with or without an error. -/
def parseUint8 (s : Bytes) : Nat :=
  match octalDigits s with
  | none => 0
  | some n => min n 255

/-- The number that `strconv.ParseInt(s, 8, 8)` returns, with or without an error. -/
def parseInt8 (s : Bytes) : Int :=
  let magnitude (negative : Bool) (s : Bytes) : Int :=
    match octalDigits s with
    | none => 0
    | some n => if negative then -(min n 128 : Nat) else (min n 127 : Nat)
  match s with
  | [] => 0
  | b :: bs =>
    if b = 0x2B then magnitude false bs
    else if b = 0x2D then magnitude true bs
    else magnitude false s

/-! ### Decimal texts -/

theorem toList_eq (bytes : ByteArray) : bytes.toList = bytes.data.toList := by
  have hloop : ∀ (n i : Nat) (r : List UInt8), bytes.size - i = n →
      ByteArray.toList.loop bytes i r = r.reverse ++ bytes.data.toList.drop i := by
    intro n
    induction n with
    | zero =>
      intro i r hi
      have hsize : bytes.data.toList.length ≤ i := by
        show bytes.size ≤ i
        omega
      unfold ByteArray.toList.loop
      rw [if_neg (by omega), drop_of_length_le hsize, append_nil]
    | succ n ih =>
      intro i r hi
      have hlt : i < bytes.data.size := by
        show i < bytes.size
        omega
      have hget : bytes.get! i = bytes.data.toList[i] := by
        exact getElem!_pos bytes.data i hlt
      unfold ByteArray.toList.loop
      rw [if_pos (by omega), ih (i + 1) _ (by omega), reverse_cons, append_assoc,
        singleton_append, drop_eq_getElem_cons hlt, hget]
  exact hloop bytes.size 0 [] (Nat.sub_zero _)

theorem bytesOf_ofList : ∀ {l : List Char}, (∀ c ∈ l, c.toNat < 0x80) →
    bytesOf (String.ofList l) = l.map (fun c => c.val.toUInt8) := by
  have hencode : ∀ {l : List Char}, (∀ c ∈ l, c.toNat < 0x80) →
      l.utf8Encode.data.toList = l.map (fun c => c.val.toUInt8) := by
    intro l
    induction l with
    | nil => exact fun _ => rfl
    | cons c l ih =>
      intro h
      rw [forall_mem_cons] at h
      have hsize : c.utf8Size = 1 := Char.utf8Size_eq_one_iff.mpr (Nat.le_of_lt_succ h.1)
      rw [utf8Encode_cons, ByteArray.toList_data_append, ih h.2, utf8Encode_singleton,
        String.utf8EncodeChar_eq_singleton hsize, toList_data_toByteArray, map_cons,
        singleton_append]
  intro l h
  show (String.ofList l).toByteArray.toList = _
  rw [toList_eq, String.toByteArray_ofList, hencode h]

def decimal (n : Nat) : Bytes := (Nat.toDigits 10 n).map (fun c => c.val.toUInt8)

variable {c : Char}

theorem isDigit_bounds (h : c.isDigit = true) : 0x30 ≤ c.toNat ∧ c.toNat ≤ 0x39 := by
  unfold Char.isDigit at h
  simp only [Bool.and_eq_true, decide_eq_true_eq] at h
  exact ⟨h.1, h.2⟩

theorem mem_toDigits {n : Nat} (h : c ∈ Nat.toDigits 10 n) : 0x30 ≤ c.toNat ∧ c.toNat ≤ 0x39 :=
  isDigit_bounds (Nat.isDigit_of_mem_toDigits (by decide) (by decide) h)

theorem itoa_natCast (n : Nat) : itoa n = decimal n := by
  exact bytesOf_ofList (fun c hc => by have := (mem_toDigits hc).2; omega)

theorem itoa_neg {n : Nat} (h : 0 < n) : itoa (-(n : Int)) = 0x2D :: decimal n := by
  obtain ⟨m, rfl⟩ := Nat.exists_eq_succ_of_ne_zero (Nat.ne_of_gt h)
  have htext : toString (-((m + 1 : Nat) : Int))
    = String.ofList ('-' :: Nat.toDigits 10 (m + 1)) := by
    show "-" ++ String.ofList (Nat.toDigits 10 (m + 1)) = _
    rw [← singleton_append, String.ofList_append]
  have hascii : ∀ c ∈ '-' :: Nat.toDigits 10 (m + 1), c.toNat < 0x80 := by
    refine List.forall_mem_cons.mpr ⟨by decide, fun c hc => ?_⟩
    have := (mem_toDigits hc).2
    omega
  unfold itoa
  rw [htext, bytesOf_ofList hascii]
  rfl

theorem decimal_ne_nil (n : Nat) : decimal n ≠ [] := by
  unfold decimal
  simp [Nat.toDigits_ne_nil]

theorem toNat_digit (h : 0x30 ≤ c.toNat ∧ c.toNat ≤ 0x39) : c.val.toUInt8.toNat = c.toNat := by
  show c.val.toNat % 256 = c.toNat
  have hc : c.val.toNat = c.toNat := rfl
  omega

theorem digit_bounds (h : 0x30 ≤ c.toNat ∧ c.toNat ≤ 0x39) :
    0x30 ≤ c.val.toUInt8 ∧ c.val.toUInt8 ≤ 0x39 := by
  rw [UInt8.le_iff_toNat_le, UInt8.le_iff_toNat_le, toNat_digit h]
  exact h

theorem mem_decimal {n : Nat} {b : UInt8} (h : b ∈ decimal n) : 0x30 ≤ b ∧ b ≤ 0x39 := by
  obtain ⟨c, hc, rfl⟩ := List.mem_map.mp h
  exact digit_bounds (mem_toDigits hc)

/-- **The digits of a number are read back.** -/
theorem digits_decimal (n : Nat) : digits (decimal n) = some n := by
  have hfold : ∀ (l : List Char) (m : Nat), (∀ c ∈ l, 0x30 ≤ c.toNat ∧ c.toNat ≤ 0x39) →
      (l.map (fun c => c.val.toUInt8)).foldl (fun acc d => acc.bind (fun n =>
        if 0x30 ≤ d ∧ d ≤ 0x39 then some (10 * n + (d.toNat - 0x30)) else none)) (some m)
        = some (Nat.ofDigitChars 10 l m) := by
    intro l
    induction l with
    | nil => exact fun m _ => rfl
    | cons c l ih =>
      intro m h
      rw [forall_mem_cons] at h
      have hval := toNat_digit h.1
      rw [map_cons, foldl_cons, Nat.ofDigitChars_cons, ← ih _ h.2]
      congr 1
      show (if _ then _ else _) = _
      rw [if_pos (digit_bounds h.1), hval]
      rfl
  have hne := decimal_ne_nil n
  have hread := hfold (Nat.toDigits 10 n) 0 (fun c hc => mem_toDigits hc)
  rw [Nat.ofDigitChars_ten_toDigits] at hread
  unfold digits
  split
  · rename_i hnil
    exact absurd hnil hne
  · rename_i b bs hcons
    rw [← hcons]
    exact hread

/-- **`Atoi` reads what `Itoa` writes**, if it fits in 64 bits. -/
theorem atoi_itoa (n : Int) :
    atoi (itoa n) = if -2 ^ 63 ≤ n ∧ n < 2 ^ 63 then some n else none := by
  have hfilter : (some n).filter (fun n => -2 ^ 63 ≤ n ∧ n < 2 ^ 63)
      = if -2 ^ 63 ≤ n ∧ n < 2 ^ 63 then some n else none := by
    simp only [Option.filter, decide_eq_true_eq]
  rcases Int.lt_or_le n 0 with hneg | hpos
  · obtain ⟨m, rfl⟩ : ∃ m : Nat, n = -(m : Int) := ⟨n.natAbs, by omega⟩
    rw [itoa_neg (by omega)]
    unfold atoi
    dsimp only
    rw [digits_decimal]
    exact hfilter
  · obtain ⟨m, rfl⟩ : ∃ m : Nat, n = (m : Int) := ⟨n.toNat, by omega⟩
    rw [itoa_natCast]
    obtain ⟨b, bs, hb⟩ := exists_cons_of_ne_nil (decimal_ne_nil m)
    have hdigit : 0x30 ≤ b := (mem_decimal (hb ▸ mem_cons_self ..)).1
    have hread := digits_decimal m
    rw [hb] at hread ⊢
    unfold atoi
    dsimp only
    rw [if_neg (by rintro rfl; exact absurd hdigit (by decide)),
      if_neg (by rintro rfl; exact absurd hdigit (by decide)), hread]
    exact hfilter

theorem atoi_bounds {s : Bytes} {n : Int} (h : atoi s = some n) : -2 ^ 63 ≤ n ∧ n < 2 ^ 63 := by
  exact of_decide_eq_true (Option.filter_eq_some_iff.mp h).2

theorem atoi_decimal (n : Nat) :
    atoi (decimal n) = if n < 2 ^ 63 then some (n : Int) else none := by
  rw [← itoa_natCast, atoi_itoa]
  by_cases h : n < 2 ^ 63
  · rw [if_pos h, if_pos (by omega)]
  · rw [if_neg h, if_neg (by omega)]

theorem itoa_wrap64 (x : Int) : itoa (wrap64 x) = itoa x ↔ -2 ^ 63 ≤ x ∧ x < 2 ^ 63 := by
  refine ⟨fun h => ?_, fun h => by rw [wrap64_of_range h.1 h.2]⟩
  have hread := congrArg atoi h
  rw [atoi_itoa, atoi_itoa, if_pos (wrap64_bounds x)] at hread
  split at hread
  · assumption
  · cases hread

theorem length_itoa_lt {n : Nat} (h : 2 ≤ n) : (itoa n).length < n := by
  have hlt : n < 10 ^ (n - 1) := by
    have hself : n - 1 < 2 ^ (n - 1) := Nat.lt_pow_self (by decide)
    have hpow : 2 ^ (n - 1) < 10 ^ (n - 1) := Nat.pow_lt_pow_left (by decide) (by omega)
    omega
  have hdigits : (Nat.toDigits 10 n).length ≤ n - 1 :=
    Nat.toDigits_length 10 n (n - 1) (by omega) hlt
  have hlength : (itoa n).length = (Nat.toDigits 10 n).length := by
    rw [itoa_natCast]
    exact length_map ..
  omega

example : atoi (bytesOf "-12") = some (-12) ∧ atoi (bytesOf "1x") = none := by decide +kernel

end Go.Strconv
