import Coraza.Go.Utf8

/-!
# Packages `encoding/hex` and `encoding/base64`

Both write a text of bytes with the characters of an alphabet.  Decoding hexadecimal digits fails
at the first byte that is no digit, or at the end if there is an odd number of them.  Decoding
base64 ignores line breaks and takes the characters in groups of four; the last group may be
shorter, or it is filled up with `=` in an encoding with padding.
-/

namespace Go

open List

/-! ### Hexadecimal digits -/

variable (src : Bytes)

namespace Hex

/-- `hex.InvalidByteError` and `hex.ErrLength`. -/
inductive DecodeError where
  | invalidByte (b : UInt8)
  | length
  deriving DecidableEq

def fromHexChar (c : UInt8) : Option UInt8 :=
  if 0x30 ≤ c ∧ c ≤ 0x39 then some (c - 0x30)
  else if 0x61 ≤ c ∧ c ≤ 0x66 then some (c - 0x61 + 10)
  else if 0x41 ≤ c ∧ c ≤ 0x46 then some (c - 0x41 + 10)
  else none

def decodeString : Bytes → Except DecodeError Bytes
  | [] => .ok []
  | [c] => .error (if (fromHexChar c).isSome then .length else .invalidByte c)
  | c1 :: c2 :: rest =>
    match fromHexChar c1, fromHexChar c2 with
    | none, _ => .error (.invalidByte c1)
    | some _, none => .error (.invalidByte c2)
    | some a, some b => (decodeString rest).map (fun dst => (a <<< 4 ||| b) :: dst)

def hextable (n : UInt8) : UInt8 := if n < 10 then 0x30 + n else 0x61 + (n - 10)

def encodeToString (src : Bytes) : Bytes :=
  src.flatMap (fun (b : UInt8) => [hextable (b >>> 4), hextable (b &&& 0x0F)])

theorem length_decodeString : ∀ {src dst : Bytes}, decodeString src = .ok dst →
    2 * dst.length = src.length := by
  intro src
  induction src using decodeString.induct with
  | case1 =>
    intro dst h
    cases h
    rfl
  | case2 c => exact fun h => nomatch h
  | case3 c1 c2 rest h1 =>
    intro dst h
    rw [decodeString, h1] at h
    cases h
  | case4 c1 c2 rest a h1 h2 =>
    intro dst h
    rw [decodeString, h1, h2] at h
    cases h
  | case5 c1 c2 rest a b h1 h2 ih =>
    intro dst h
    rw [decodeString, h1, h2] at h
    cases hrest : decodeString rest with
    | error e =>
      rw [hrest] at h
      cases h
    | ok out =>
      rw [hrest] at h
      cases h
      have := ih hrest
      rw [length_cons, length_cons, length_cons]
      omega

theorem length_encodeToString : (encodeToString src).length = 2 * src.length := by
  unfold encodeToString
  induction src with
  | nil => rfl
  | cons b src ih =>
    rw [flatMap_cons, length_append, ih]
    show 2 + 2 * src.length = 2 * (src.length + 1)
    omega

theorem fromHexChar_hextable : ∀ b : UInt8, fromHexChar (hextable (b >>> 4)) = some (b >>> 4) ∧
      fromHexChar (hextable (b &&& 0x0F)) = some (b &&& 0x0F) ∧
      (b >>> 4) <<< 4 ||| (b &&& 0x0F) = b :=
  UInt8.forall_of_fin (by decide +kernel)

/-- **Decoding gives back what was encoded.** -/
theorem decodeString_encodeToString : decodeString (encodeToString src) = .ok src := by
  induction src with
  | nil => rfl
  | cons b src ih =>
    obtain ⟨hhigh, hlow, hbyte⟩ := fromHexChar_hextable b
    unfold encodeToString at ih ⊢
    rw [flatMap_cons, cons_append, cons_append, nil_append, decodeString, hhigh, hlow]
    dsimp only
    rw [ih, hbyte]
    rfl

theorem encodeToString_inj : Function.Injective encodeToString := by
  intro src src' h
  have hdecode := congrArg decodeString h
  rw [decodeString_encodeToString, decodeString_encodeToString] at hdecode
  exact Except.ok.inj hdecode

end Hex

/-! ### Base64 -/

namespace Base64

/-- The characters of `StdEncoding`. -/
def encodeChar (n : UInt8) : UInt8 :=
  if n < 26 then 0x41 + n
  else if n < 52 then 0x61 + (n - 26)
  else if n < 62 then 0x30 + (n - 52)
  else if n = 62 then 0x2B
  else 0x2F

def decodeChar (c : UInt8) : Option Nat :=
  if 0x41 ≤ c ∧ c ≤ 0x5A then some (c.toNat - 0x41)
  else if 0x61 ≤ c ∧ c ≤ 0x7A then some (c.toNat - 0x61 + 26)
  else if 0x30 ≤ c ∧ c ≤ 0x39 then some (c.toNat - 0x30 + 52)
  else if c = 0x2B then some 62
  else if c = 0x2F then some 63
  else none

def encodeToString : Bytes → Bytes
  | [] => []
  | [a] => [encodeChar (a >>> 2), encodeChar ((a &&& 3) <<< 4), 0x3D, 0x3D]
  | [a, b] =>
    [encodeChar (a >>> 2), encodeChar ((a &&& 3) <<< 4 ||| b >>> 4), encodeChar ((b &&& 15) <<< 2),
      0x3D]
  | a :: b :: c :: rest =>
    encodeChar (a >>> 2) :: encodeChar ((a &&& 3) <<< 4 ||| b >>> 4)
      :: encodeChar ((b &&& 15) <<< 2 ||| c >>> 6) :: encodeChar (c &&& 63) :: encodeToString rest

def threeBytes (x : Nat) : Bytes :=
  [UInt8.ofNat (x >>> 16), UInt8.ofNat (x >>> 8), UInt8.ofNat x]

/-- The groups of a text without line breaks. -/
def decodeQuanta (padding : Bool) : Bytes → Option Bytes
  | [] => some []
  | [_] => none
  | [a, b] =>
    match decodeChar a, decodeChar b with
    | some a, some b => if padding then none else some ((threeBytes (a <<< 18 ||| b <<< 12)).take 1)
    | _, _ => none
  | [a, b, c] =>
    match decodeChar a, decodeChar b, decodeChar c with
    | some a, some b, some c =>
      if padding then none else some ((threeBytes (a <<< 18 ||| b <<< 12 ||| c <<< 6)).take 2)
    | _, _, _ => none
  | a :: b :: c :: d :: rest =>
    match decodeChar a, decodeChar b, decodeChar c, decodeChar d with
    | some a, some b, some c, some d =>
      (decodeQuanta padding rest).map
        (fun dst => threeBytes (a <<< 18 ||| b <<< 12 ||| c <<< 6 ||| d) ++ dst)
    | some a, some b, some c, none =>
      if padding ∧ d = 0x3D ∧ rest = [] then
        some ((threeBytes (a <<< 18 ||| b <<< 12 ||| c <<< 6)).take 2)
      else none
    | some a, some b, none, _ =>
      if padding ∧ c = 0x3D ∧ d = 0x3D ∧ rest = [] then
        some ((threeBytes (a <<< 18 ||| b <<< 12)).take 1)
      else none
    | _, _, _, _ => none

/-- `Encoding.Decode` of `StdEncoding` and, without padding, of `RawStdEncoding`; `none` is an
error. -/
def decode (padding : Bool) (src : Bytes) : Option Bytes :=
  decodeQuanta padding (src.filter (fun c => c != 0x0D && c != 0x0A))

theorem length_encodeToString : ∀ src : Bytes, src ≠ [] →
    src.length < (encodeToString src).length := by
  have hle : ∀ src : Bytes, src.length ≤ (encodeToString src).length ∧
      (src ≠ [] → src.length < (encodeToString src).length) := by
    intro src
    induction src using encodeToString.induct with
    | case1 => exact ⟨Nat.le_refl 0, fun h => absurd rfl h⟩
    | case2 a => exact ⟨Nat.le_add_left 1 3, fun _ => Nat.lt_add_of_pos_left (Nat.succ_pos 2)⟩
    | case3 a b => exact ⟨Nat.le_add_left 2 2, fun _ => Nat.lt_add_of_pos_left (Nat.succ_pos 1)⟩
    | case4 a b c rest ih =>
      unfold encodeToString
      simp only [length_cons]
      omega
  exact fun src => (hle src).2

theorem length_threeBytes (x : Nat) : (threeBytes x).length = 3 := rfl

theorem length_decodeQuanta {padding : Bool} : ∀ {src dst : Bytes},
    decodeQuanta padding src = some dst → 4 * dst.length ≤ 3 * src.length := by
  intro src
  fun_induction decodeQuanta padding src
  all_goals intro dst h
  all_goals try cases h
  case case1.refl => exact Nat.le_refl 0
  case case9 ih =>
    obtain ⟨out, hout, rfl⟩ := Option.map_eq_some_iff.mp h
    have hrest := ih hout
    rw [length_append, length_threeBytes]
    simp only [length_cons]
    omega
  all_goals
    rw [length_take]
    simp only [length_cons]
    omega

theorem length_decode {padding : Bool} {src dst : Bytes} (h : decode padding src = some dst) :
    4 * dst.length ≤ 3 * src.length :=
  (length_decodeQuanta h).trans (Nat.mul_le_mul_left 3 (length_filter_le _ src))

/-! ### Groups of six bits -/

def joinSextets (vs : List Nat) : Nat := vs.foldl (fun x v => x <<< 6 ||| v) 0

/-- The bytes of a sequence of values of six bits: three for a group of four values, and for a
last group those that are complete. -/
def groupBytes : List Nat → Bytes
  | a :: b :: c :: d :: rest => threeBytes (joinSextets [a, b, c, d]) ++ groupBytes rest
  | [a, b, c] => (threeBytes (joinSextets [a, b, c] <<< 6)).take 2
  | [a, b] => (threeBytes (joinSextets [a, b] <<< 12)).take 1
  | _ => []

def sextets : Bytes → List UInt8
  | [] => []
  | [a] => [a >>> 2, (a &&& 3) <<< 4]
  | [a, b] => [a >>> 2, (a &&& 3) <<< 4 ||| b >>> 4, (b &&& 15) <<< 2]
  | a :: b :: c :: rest =>
    a >>> 2 :: ((a &&& 3) <<< 4 ||| b >>> 4) :: ((b &&& 15) <<< 2 ||| c >>> 6) :: (c &&& 63)
      :: sextets rest

def rawEncodeToString (src : Bytes) : Bytes := (sextets src).map encodeChar

def padding (src : Bytes) : Bytes :=
  match src.length % 3 with
  | 1 => [0x3D, 0x3D]
  | 2 => [0x3D]
  | _ => []

theorem encodeToString_eq : encodeToString src = rawEncodeToString src ++ padding src := by
  fun_induction encodeToString src with
  | case1 => rfl
  | case2 a => rfl
  | case3 a b => rfl
  | case4 a b c rest ih =>
    have hpadding : padding (a :: b :: c :: rest) = padding rest := by
      unfold padding
      rw [show (a :: b :: c :: rest).length = rest.length + 3 from rfl, Nat.add_mod_right]
    rw [ih, hpadding]
    rfl

theorem mul_or {n k : Nat} (h : n < 2 ^ k) (m : Nat) : m * 2 ^ k ||| n = m * 2 ^ k + n := by
  rw [← Nat.shiftLeft_eq, Nat.shiftLeft_add_eq_or_of_lt h]

theorem shift_or {v : Nat} (hv : v < 64) (x : Nat) : x <<< 6 ||| v = x * 64 + v := by
  rw [Nat.shiftLeft_eq]
  exact mul_or (k := 6) hv x

theorem joinSextets_two {a b : Nat} (hb : b < 64) : joinSextets [a, b] = a * 64 + b := by
  show (0 <<< 6 ||| a) <<< 6 ||| b = a * 64 + b
  rw [Nat.zero_shiftLeft, Nat.zero_or, shift_or hb]

theorem joinSextets_three {a b c : Nat} (hb : b < 64) (hc : c < 64) :
    joinSextets [a, b, c] = (a * 64 + b) * 64 + c := by
  show joinSextets [a, b] <<< 6 ||| c = _
  rw [shift_or hc, joinSextets_two hb]

theorem joinSextets_four {a b c d : Nat} (hb : b < 64) (hc : c < 64) (hd : d < 64) :
    joinSextets [a, b, c, d] = ((a * 64 + b) * 64 + c) * 64 + d := by
  show joinSextets [a, b, c] <<< 6 ||| d = _
  rw [shift_or hd, joinSextets_three hb hc]

theorem sextet_values : ∀ a : UInt8, (a >>> 2).toNat = a.toNat / 4 ∧
    ((a &&& 3) <<< 4).toNat = a.toNat % 4 * 2 ^ 4 ∧ (a >>> 4).toNat = a.toNat / 16 ∧
    ((a &&& 15) <<< 2).toNat = a.toNat % 16 * 2 ^ 2 ∧ (a >>> 6).toNat = a.toNat / 64 ∧
    (a &&& 63).toNat = a.toNat % 64 :=
  UInt8.forall_of_fin (by decide +kernel)

theorem threeBytes_eq {x : Nat} {a b c : UInt8}
    (h : x = a.toNat * 65536 + b.toNat * 256 + c.toNat) : threeBytes x = [a, b, c] := by
  have ha := a.toNat_lt
  have hb := b.toNat_lt
  have hc := c.toNat_lt
  have hbyte : ∀ {n : Nat} {u : UInt8}, n % 256 = u.toNat → UInt8.ofNat n = u := by
    intro n u hn
    rw [← UInt8.toNat_inj, UInt8.toNat_ofNat', ← hn]
  unfold threeBytes
  rw [Nat.shiftRight_eq_div_pow, Nat.shiftRight_eq_div_pow, hbyte (u := a) (by omega),
    hbyte (u := b) (by omega), hbyte (u := c) (by omega)]

theorem toNat_sextet_mid (a b : UInt8) :
    ((a &&& 3) <<< 4 ||| b >>> 4).toNat = a.toNat % 4 * 16 + b.toNat / 16 := by
  have hb := b.toNat_lt
  rw [UInt8.toNat_or, (sextet_values a).2.1, (sextet_values b).2.2.1]
  exact mul_or (k := 4) (by omega) _

theorem toNat_sextet_low (b c : UInt8) :
    ((b &&& 15) <<< 2 ||| c >>> 6).toNat = b.toNat % 16 * 4 + c.toNat / 64 := by
  have hc := c.toNat_lt
  rw [UInt8.toNat_or, (sextet_values b).2.2.2.1, (sextet_values c).2.2.2.2.1]
  exact mul_or (k := 2) (by omega) _

/-- **The bytes of their own values of six bits.** -/
theorem groupBytes_sextets : groupBytes ((sextets src).map UInt8.toNat) = src := by
  fun_induction sextets src with
  | case1 => rfl
  | case2 a =>
    obtain ⟨hhigh, hlow, -⟩ := sextet_values a
    show (threeBytes (joinSextets [(a >>> 2).toNat, ((a &&& 3) <<< 4).toNat] <<< 12)).take 1 = [a]
    rw [joinSextets_two (by omega), threeBytes_eq (a := a) (b := 0) (c := 0)]
    · rfl
    · rw [hhigh, hlow, UInt8.toNat_zero]
      omega
  | case3 a b =>
    have hhigh := (sextet_values a).1
    have hmid := toNat_sextet_mid a b
    have hlow := (sextet_values b).2.2.2.1
    have hb := b.toNat_lt
    show (threeBytes (joinSextets [(a >>> 2).toNat, ((a &&& 3) <<< 4 ||| b >>> 4).toNat,
      ((b &&& 15) <<< 2).toNat] <<< 6)).take 2 = [a, b]
    rw [joinSextets_three (by omega) (by omega), Nat.shiftLeft_eq,
      threeBytes_eq (a := a) (b := b) (c := 0)]
    · rfl
    · rw [hhigh, hmid, hlow, UInt8.toNat_zero]
      omega
  | case4 a b c rest ih =>
    have hhigh := (sextet_values a).1
    have hmid := toNat_sextet_mid a b
    have hlow := toNat_sextet_low b c
    have hlast := (sextet_values c).2.2.2.2.2
    have hb := b.toNat_lt
    have hc := c.toNat_lt
    show threeBytes (joinSextets [(a >>> 2).toNat, ((a &&& 3) <<< 4 ||| b >>> 4).toNat,
      ((b &&& 15) <<< 2 ||| c >>> 6).toNat, (c &&& 63).toNat])
        ++ groupBytes ((sextets rest).map UInt8.toNat) = a :: b :: c :: rest
    rw [ih, joinSextets_four (by omega) (by omega) (by omega),
      threeBytes_eq (a := a) (b := b) (c := c)]
    · rfl
    · rw [hhigh, hmid, hlow, hlast]
      omega

theorem sextets_lt : ∀ v ∈ sextets src, v.toNat < 64 := by
  fun_induction sextets src with
  | case1 => exact fun v hv => nomatch hv
  | case2 a =>
    obtain ⟨hhigh, hlow, -⟩ := sextet_values a
    have ha := a.toNat_lt
    simp only [forall_mem_cons, hhigh, hlow]
    exact ⟨by omega, by omega, fun v hv => nomatch hv⟩
  | case3 a b =>
    have ha := a.toNat_lt
    have hb := b.toNat_lt
    simp only [forall_mem_cons, (sextet_values a).1, toNat_sextet_mid a b,
      (sextet_values b).2.2.2.1]
    exact ⟨by omega, by omega, by omega, fun v hv => nomatch hv⟩
  | case4 a b c rest ih =>
    have ha := a.toNat_lt
    have hb := b.toNat_lt
    have hc := c.toNat_lt
    simp only [forall_mem_cons, (sextet_values a).1, toNat_sextet_mid a b,
      toNat_sextet_low b c, (sextet_values c).2.2.2.2.2]
    exact ⟨by omega, by omega, by omega, by omega, ih⟩

/-! ### Characters -/

def isChar (c : UInt8) : Bool := (decodeChar c).isSome

def charValue (c : UInt8) : Nat := (decodeChar c).getD 0

theorem charValue_encodeChar : ∀ v : UInt8, v.toNat < 64 →
    isChar (encodeChar v) = true ∧ charValue (encodeChar v) = v.toNat :=
  UInt8.forall_of_fin (by decide +kernel)

theorem rawEncodeToString_values : (∀ c ∈ rawEncodeToString src, isChar c = true) ∧
      (rawEncodeToString src).map charValue = (sextets src).map UInt8.toNat := by
  have hvalue := fun v hv => charValue_encodeChar v (sextets_lt src v hv)
  unfold rawEncodeToString
  constructor
  · intro c hc
    obtain ⟨v, hv, rfl⟩ := List.mem_map.mp hc
    exact (hvalue v hv).1
  · rw [map_map]
    exact map_congr_left (fun v hv => (hvalue v hv).2)

def charValues (src : Bytes) : List Nat := (src.takeWhile isChar).map charValue

theorem charValues_cons {c : UInt8} {v : Nat} (h : decodeChar c = some v) (t : Bytes) :
    charValues (c :: t) = v :: charValues t := by
  have hchar : isChar c = true := by
    unfold isChar
    rw [h]
    rfl
  have hvalue : charValue c = v := by
    unfold charValue
    rw [h]
    rfl
  unfold charValues
  rw [takeWhile_cons_of_pos hchar, map_cons, hvalue]

theorem charValues_stop {c : UInt8} (h : decodeChar c = none) (t : Bytes) :
    charValues (c :: t) = [] := by
  have hchar : ¬isChar c = true := by
    unfold isChar
    rw [h]
    exact Bool.false_ne_true
  unfold charValues
  rw [takeWhile_cons_of_neg hchar, map_nil]

theorem joinSextets_shift_two (a b : Nat) : joinSextets [a, b] <<< 12 = a <<< 18 ||| b <<< 12 := by
  show ((0 <<< 6 ||| a) <<< 6 ||| b) <<< 12 = _
  rw [Nat.zero_shiftLeft, Nat.zero_or, Nat.shiftLeft_or_distrib, ← Nat.shiftLeft_add]

theorem joinSextets_shift_three (a b c : Nat) :
    joinSextets [a, b, c] <<< 6 = a <<< 18 ||| b <<< 12 ||| c <<< 6 := by
  show (((0 <<< 6 ||| a) <<< 6 ||| b) <<< 6 ||| c) <<< 6 = _
  rw [Nat.zero_shiftLeft, Nat.zero_or]
  simp only [Nat.shiftLeft_or_distrib, ← Nat.shiftLeft_add]

theorem joinSextets_shift_four (a b c d : Nat) :
    joinSextets [a, b, c, d] = a <<< 18 ||| b <<< 12 ||| c <<< 6 ||| d := by
  show joinSextets [a, b, c] <<< 6 ||| d = _
  rw [joinSextets_shift_three]

/-- What the decoder accepts, it decodes up to the first character outside the alphabet. -/
theorem decodeQuanta_eq {padding : Bool} : ∀ {src dst : Bytes},
    decodeQuanta padding src = some dst → dst = groupBytes (charValues src) := by
  intro src
  fun_induction decodeQuanta padding src
  all_goals intro dst h
  all_goals try cases h
  case case1.refl => rfl
  case case4.refl hb ha _ =>
    rw [charValues_cons ha, charValues_cons hb, ← joinSextets_shift_two]
    rfl
  case case7.refl hc hb ha _ =>
    rw [charValues_cons ha, charValues_cons hb, charValues_cons hc, ← joinSextets_shift_three]
    rfl
  case case9 hd hc hb ha ih =>
    obtain ⟨out, hout, rfl⟩ := Option.map_eq_some_iff.mp h
    rw [charValues_cons ha, charValues_cons hb, charValues_cons hc, charValues_cons hd,
      ← joinSextets_shift_four, ih hout]
    rfl
  case case10.refl hd hc hb ha _ =>
    rw [charValues_cons ha, charValues_cons hb, charValues_cons hc, charValues_stop hd,
      ← joinSextets_shift_three]
    rfl
  case case12.refl hc hb ha _ =>
    rw [charValues_cons ha, charValues_cons hb, charValues_stop hc, ← joinSextets_shift_two]
    rfl

end Base64

end Go
