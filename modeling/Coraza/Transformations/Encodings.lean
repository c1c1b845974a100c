import Coraza.Go.Encoding
import Coraza.Go.Strconv
import Coraza.Go.Unicode

/-!
# Encodings, digests and the length

The transformations `base64Decode`, `base64DecodeExt`, `base64Encode`, `hexDecode`, `hexEncode`,
`length`, `md5` and `sha1`.  All of them report a change whenever they do not fail.

A text and its encoding have different lengths unless the text is empty, so that only the empty text
is its own encoding or decoding (`doBase64decode_eq_iff` and its siblings).  The length of a text is
the text itself only for the text `1` (`length_eq_iff`).
-/

namespace Coraza.Transformations

open Go

inductive TransformationError where
  | hex (err : Hex.DecodeError)
  | text (message : Bytes)
  deriving DecidableEq

/-! ### Base64 -/

/-- `base64DecMap`; bytes above 127 are not in the table and count as invalid, 127. -/
def base64DecMap (c : UInt8) : Nat := if c = 0x3D then 64 else (Base64.decodeChar c).getD 127

/-- What the loop of `doBase64decode` appends for the characters of a last, incomplete group. -/
def base64Rest (n x : Nat) : Bytes :=
  match n with
  | 2 => [UInt8.ofNat (x <<< 12 >>> 16)]
  | 3 => [UInt8.ofNat (x <<< 6 >>> 16), UInt8.ofNat (x <<< 6 >>> 8)]
  | _ => []

/-- The URL-safe alphabet has other characters for the last two values. -/
def fromURLSafe (c : UInt8) : UInt8 := if c = 0x2D then 0x2B else if c = 0x5F then 0x2F else c

def base64Value (ext : Bool) (c : UInt8) : Nat := base64DecMap (if ext then fromURLSafe c else c)

/-- The loop of `doBase64decode`, after `n` characters of a group with the value `x`. -/
def base64Loop (ext : Bool) : Nat → Nat → Bytes → Bytes
  | n, x, [] => base64Rest n x
  | n, x, c :: rest =>
    if ext ∧ (isSpace c.toNat ∨ c = 0x2E) then base64Loop ext n x rest
    else if c = 0x0D ∨ c = 0x0A then base64Loop ext n x rest
    else if c = 0x3D ∨ c = 0x20 then base64Rest n x
    else if base64Value ext c = 127 then
      if ext then base64Loop ext n x rest else base64Rest n x
    else if n + 1 = 4 then
      Base64.threeBytes (x <<< 6 ||| base64Value ext c &&& 0x3F) ++ base64Loop ext 0 0 rest
    else base64Loop ext (n + 1) (x <<< 6 ||| base64Value ext c &&& 0x3F) rest

def beginsBase64Encoding (src : Bytes) : Bool :=
  match src.dropWhile (fun c => c == 0x0D || c == 0x0A) with
  | [] => false
  | c :: _ => base64DecMap c ≠ 127 ∧ c ≠ 0x3D

def fastPathLoop : Bool → Bytes → Bool
  | seenData, [] => seenData
  | seenData, c :: rest =>
    if c = 0x0D ∨ c = 0x0A then fastPathLoop seenData rest
    else if base64DecMap c = 127 ∨ ¬seenData ∧ c = 0x3D then false
    else fastPathLoop true rest

def hasBase64FastPathPrefix (src : Bytes) : Bool := fastPathLoop false (src.take 64)

def doBase64decode (src : Bytes) (ext : Bool) : Bytes :=
  if src = [] then src
  else
    let decoded :=
      if ext = false ∧ beginsBase64Encoding src ∧ hasBase64FastPathPrefix src then
        Base64.decode (0x3D ∈ src) src
      else none
    match decoded with
    | some dst => dst
    | none => base64Loop ext 0 0 src

def base64decode (data : Bytes) : Bytes × Bool := (doBase64decode data false, true)

def base64decodeext (data : Bytes) : Bytes × Bool := (doBase64decode data true, true)

def base64encode (data : Bytes) : Bytes × Bool := (Base64.encodeToString data, true)

theorem length_base64Loop (ext : Bool) : ∀ (src : Bytes) (n x : Nat), n < 4 →
    4 * (base64Loop ext n x src).length ≤ 3 * (n + src.length) := by
  have hrest : ∀ n x, 4 * (base64Rest n x).length ≤ 3 * n := by
    intro n x
    unfold base64Rest
    split
    · exact Nat.le_add_left 4 2
    · exact Nat.le_succ 8
    · exact Nat.zero_le _
  intro src
  induction src with
  | nil => exact fun n x _ => hrest n x
  | cons c src ih =>
    intro n x hn
    have hstop : 4 * (base64Rest n x).length ≤ 3 * (n + (src.length + 1)) :=
      (hrest n x).trans (by omega)
    have hskip : 4 * (base64Loop ext n x src).length ≤ 3 * (n + (src.length + 1)) :=
      (ih n x hn).trans (by omega)
    unfold base64Loop
    rw [List.length_cons]
    split_ifs
    · exact hskip
    · exact hskip
    · exact hstop
    · exact hskip
    · exact hstop
    · rw [List.length_append, Base64.length_threeBytes]
      have := ih 0 0 (by decide)
      omega
    · exact (ih (n + 1) _ (by omega)).trans (by omega)

theorem length_doBase64decode {src : Bytes} (ext : Bool) (h : src ≠ []) :
    (doBase64decode src ext).length < src.length := by
  have hpos := List.length_pos_iff.mpr h
  have hle : 4 * (doBase64decode src ext).length ≤ 3 * src.length := by
    have hloop := length_base64Loop ext src 0 0 (by decide)
    unfold doBase64decode
    rw [if_neg h]
    dsimp only
    split
    · rename_i dst hdst
      split at hdst
      · exact Base64.length_decode hdst
      · cases hdst
    · exact hloop.trans (by omega)
  omega

theorem doBase64decode_eq_iff (src : Bytes) (ext : Bool) :
    doBase64decode src ext = src ↔ src = [] := by
  constructor
  · intro heq
    by_contra h
    exact absurd (congrArg List.length heq) (Nat.ne_of_lt (length_doBase64decode ext h))
  · rintro rfl
    rfl

theorem base64encode_eq_iff (data : Bytes) : (base64encode data).1 = data ↔ data = [] := by
  constructor
  · intro heq
    by_contra h
    exact absurd (congrArg List.length heq) (Nat.ne_of_gt (Base64.length_encodeToString data h))
  · rintro rfl
    rfl

/-! ### Hexadecimal digits -/

def hexDecode (data : Bytes) : Bytes × Bool × Option TransformationError :=
  match Hex.decodeString data with
  | .ok dst => (dst, true, none)
  | .error err => ([], false, some (.hex err))

def hexEncode (data : Bytes) : Bytes × Bool := (Hex.encodeToString data, true)

theorem hexDecode_eq_iff {data dst : Bytes} (h : Hex.decodeString data = .ok dst) :
    dst = data ↔ data = [] := by
  have hlength := Hex.length_decodeString h
  constructor
  · rintro rfl
    exact List.length_eq_zero_iff.mp (by omega)
  · rintro rfl
    exact List.length_eq_zero_iff.mp (by rw [List.length_nil] at hlength; omega)

theorem hexEncode_eq_iff (data : Bytes) : (hexEncode data).1 = data ↔ data = [] := by
  have hlength : (hexEncode data).1.length = 2 * data.length := Hex.length_encodeToString data
  constructor
  · intro heq
    rw [heq] at hlength
    exact List.length_eq_zero_iff.mp (by omega)
  · rintro rfl
    rfl

/-! ### The length -/

def length (data : Bytes) : Bytes × Bool := (Strconv.itoa data.length, true)

/-- Only the text `1` is its own length. -/
theorem length_eq_iff (data : Bytes) : (length data).1 = data ↔ data = bytesOf "1" := by
  constructor
  · intro heq
    have hlength : (Strconv.itoa data.length).length = data.length := congrArg List.length heq
    have hlt : data.length < 2 := by
      by_contra hge
      exact absurd hlength (Nat.ne_of_lt (Strconv.length_itoa_lt (Nat.not_lt.mp hge)))
    have hitoa : ∀ n : Nat, n < 2 → (Strconv.itoa n).length = n → Strconv.itoa n = bytesOf "1" := by
      decide +kernel
    rw [← heq]
    exact hitoa data.length hlt hlength
  · rintro rfl
    decide +kernel

/-! ### Digests -/

/-- The digests of the standard library, and whether it runs in FIPS 140-3 mode. -/
structure Digests where
  md5Sum : Bytes → Bytes
  sha1Sum : Bytes → Bytes
  fips140Enabled : Bool

/-- What `md5` and `sha1` have in common: an error in FIPS mode, and a constant for the empty
text. -/
def digest (fips : Bool) (message : String) (empty : Bytes) (sum : Bytes → Bytes) (data : Bytes) :
    Bytes × Bool × Option TransformationError :=
  if fips then (data, false, some (.text (bytesOf message)))
  else if data = [] then (empty, true, none)
  else (sum data, true, none)

def emptyMD5 : Bytes :=
  [0xD4, 0x1D, 0x8C, 0xD9, 0x8F, 0x00, 0xB2, 0x04, 0xE9, 0x80, 0x09, 0x98, 0xEC, 0xF8, 0x42, 0x7E]

def emptySHA1 : Bytes :=
  [0xDA, 0x39, 0xA3, 0xEE, 0x5E, 0x6B, 0x4B, 0x0D, 0x32, 0x55, 0xBF, 0xEF, 0x95, 0x60, 0x18, 0x90,
    0xAF, 0xD8, 0x07, 0x09]

def md5T (lib : Digests) : Bytes → Bytes × Bool × Option TransformationError :=
  digest lib.fips140Enabled "md5 transformation is unavailable in FIPS 140-3 mode" emptyMD5
    lib.md5Sum

def sha1T (lib : Digests) : Bytes → Bytes × Bool × Option TransformationError :=
  digest lib.fips140Enabled "sha1 transformation is unavailable in FIPS 140-3 mode" emptySHA1
    lib.sha1Sum

end Coraza.Transformations
