import Coraza.Go.Strings
import Coraza.Lib.Rewriting

/-!
# URL encodings

The transformations `urlDecode`, `urlDecodeUni`, `urlEncode` and `utf8toUnicode`.  None of them
returns an error, so a transformation is here a function to the new text and the flag.

The flag of `urlDecodeUni` and of `urlEncode` tells whether the text is a different one
(`urlDecodeUni_tracks`, `urlEncode_tracks`), and so does that of `utf8toUnicode`
(`utf8ToUnicode_changed_iff`).  `urlDecode` sets its flag as soon as it sees a percent sign or a
plus sign; what it writes is a different text only if it decodes something
(`urlDecode_ne_iff`).
-/

namespace Coraza.Transformations

open Go Rewriting List

def validHex (x : UInt8) : Bool :=
  (0x30 ≤ x && x ≤ 0x39) || (0x61 ≤ x && x ≤ 0x66) || (0x41 ≤ x && x ≤ 0x46)

def xsingle2c (what : UInt8) : UInt8 :=
  if 0x41 ≤ what then (what &&& 0xDF) - 0x41 + 10 else what - 0x30

/-- `strings.X2c`, which reads each of two digits as `xsingle2c` does. -/
def x2c (d1 d2 : UInt8) : UInt8 := xsingle2c d1 * 16 + xsingle2c d2

theorem xsingle2c_lt : ∀ d : UInt8, validHex d = true → (xsingle2c d).toNat < 16 :=
  UInt8.forall_of_fin (by decide +kernel)

def c2x (c : UInt8) : Bytes :=
  let digit (n : UInt8) : UInt8 := if n < 10 then 0x30 + n else 0x61 + (n - 10)
  [digit (c >>> 4), digit (c &&& 0x0F)]

/-! ### `urlDecode` -/

def urlDecodeStep (_ : Unit) (b : UInt8) (t : Bytes) : Piece UInt8 Unit :=
  if b = 0x25 then
    match t with
    | c1 :: c2 :: _ => if validHex c1 && validHex c2 then replace [x2c c1 c2] 2 else copy b
    | _ => copy b
  else if b = 0x2B then replace [0x20] 0
  else copy b

def doURLDecode (input : Bytes) : Bytes := (run urlDecodeStep (fun _ => []) () input).1

def urlDecode (data : Bytes) : Bytes × Bool :=
  fromFirst (fun b => b == 0x25 || b == 0x2B) (fun input => (doURLDecode input, true)) data

/-! ### `urlDecodeUni` -/

/-- `hexNibble`; `none` is `-1`. -/
def hexNibble (c : UInt8) : Option UInt8 :=
  if 0x30 ≤ c ∧ c ≤ 0x39 then some (c - 0x30)
  else if 0x61 ≤ c ∧ c ≤ 0x66 then some (c - 0x61 + 10)
  else if 0x41 ≤ c ∧ c ≤ 0x46 then some (c - 0x41 + 10)
  else none

set_option maxRecDepth 4000 in
def unicodeBestFitASCII : List (Nat × UInt8) :=
  [(0x00A0, 0x20), (0x00A1, 0x21), (0x00A2, 0x63), (0x00A4, 0x24), (0x00A5, 0x59), (0x00A6, 0x7C),
   (0x00A9, 0x43), (0x00AA, 0x61), (0x00AB, 0x3C), (0x00AD, 0x2D), (0x00AE, 0x52), (0x00B2, 0x32),
   (0x00B3, 0x33), (0x00B7, 0x2E), (0x00B8, 0x2C), (0x00B9, 0x31), (0x00BA, 0x6F), (0x00BB, 0x3E),
   (0x00C0, 0x41), (0x00C1, 0x41), (0x00C2, 0x41), (0x00C3, 0x41), (0x00C4, 0x41), (0x00C5, 0x41),
   (0x00C6, 0x41), (0x00C7, 0x43), (0x00C8, 0x45), (0x00C9, 0x45), (0x00CA, 0x45), (0x00CB, 0x45),
   (0x00CC, 0x49), (0x00CD, 0x49), (0x00CE, 0x49), (0x00CF, 0x49), (0x00D0, 0x44), (0x00D1, 0x4E),
   (0x00D2, 0x4F), (0x00D3, 0x4F), (0x00D4, 0x4F), (0x00D5, 0x4F), (0x00D6, 0x4F), (0x00D8, 0x4F),
   (0x00D9, 0x55), (0x00DA, 0x55), (0x00DB, 0x55), (0x00DC, 0x55), (0x00DD, 0x59), (0x00E0, 0x61),
   (0x00E1, 0x61), (0x00E2, 0x61), (0x00E3, 0x61), (0x00E4, 0x61), (0x00E5, 0x61), (0x00E6, 0x61),
   (0x00E7, 0x63), (0x00E8, 0x65), (0x00E9, 0x65), (0x00EA, 0x65), (0x00EB, 0x65), (0x00EC, 0x69),
   (0x00ED, 0x69), (0x00EE, 0x69), (0x00EF, 0x69), (0x00F1, 0x6E), (0x00F2, 0x6F), (0x00F3, 0x6F),
   (0x00F4, 0x6F), (0x00F5, 0x6F), (0x00F6, 0x6F), (0x00F8, 0x6F), (0x00F9, 0x75), (0x00FA, 0x75),
   (0x00FB, 0x75), (0x00FC, 0x75), (0x00FD, 0x79), (0x00FF, 0x79), (0x0100, 0x41), (0x0101, 0x61),
   (0x0102, 0x41), (0x0103, 0x61), (0x0104, 0x41), (0x0105, 0x61), (0x0106, 0x43), (0x0107, 0x63),
   (0x0108, 0x43), (0x0109, 0x63), (0x010A, 0x43), (0x010B, 0x63), (0x010C, 0x43), (0x010D, 0x63),
   (0x010E, 0x44), (0x010F, 0x64), (0x0110, 0x44), (0x0111, 0x64), (0x0112, 0x45), (0x0113, 0x65),
   (0x0114, 0x45), (0x0115, 0x65), (0x0116, 0x45), (0x0117, 0x65), (0x0118, 0x45), (0x0119, 0x65),
   (0x011A, 0x45), (0x011B, 0x65), (0x011C, 0x47), (0x011D, 0x67), (0x011E, 0x47), (0x011F, 0x67),
   (0x0120, 0x47), (0x0121, 0x67), (0x0122, 0x47), (0x0123, 0x67), (0x0124, 0x48), (0x0125, 0x68),
   (0x0126, 0x48), (0x0127, 0x68), (0x0128, 0x49), (0x0129, 0x69), (0x012A, 0x49), (0x012B, 0x69),
   (0x012C, 0x49), (0x012D, 0x69), (0x012E, 0x49), (0x012F, 0x69), (0x0130, 0x49), (0x0131, 0x69),
   (0x0134, 0x4A), (0x0135, 0x6A), (0x0136, 0x4B), (0x0137, 0x6B), (0x0139, 0x4C), (0x013A, 0x6C),
   (0x013B, 0x4C), (0x013C, 0x6C), (0x013D, 0x4C), (0x013E, 0x6C), (0x0141, 0x4C), (0x0142, 0x6C),
   (0x0143, 0x4E), (0x0144, 0x6E), (0x0145, 0x4E), (0x0146, 0x6E), (0x0147, 0x4E), (0x0148, 0x6E),
   (0x014C, 0x4F), (0x014D, 0x6F), (0x014E, 0x4F), (0x014F, 0x6F), (0x0150, 0x4F), (0x0151, 0x6F),
   (0x0152, 0x4F), (0x0153, 0x6F), (0x0154, 0x52), (0x0155, 0x72), (0x0156, 0x52), (0x0157, 0x72),
   (0x0158, 0x52), (0x0159, 0x72), (0x015A, 0x53), (0x015B, 0x73), (0x015C, 0x53), (0x015D, 0x73),
   (0x015E, 0x53), (0x015F, 0x73), (0x0160, 0x53), (0x0161, 0x73), (0x0162, 0x54), (0x0163, 0x74),
   (0x0164, 0x54), (0x0165, 0x74), (0x0166, 0x54), (0x0167, 0x74), (0x0168, 0x55), (0x0169, 0x75),
   (0x016A, 0x55), (0x016B, 0x75), (0x016C, 0x55), (0x016D, 0x75), (0x016E, 0x55), (0x016F, 0x75),
   (0x0170, 0x55), (0x0171, 0x75), (0x0172, 0x55), (0x0173, 0x75), (0x0174, 0x57), (0x0175, 0x77),
   (0x0176, 0x59), (0x0177, 0x79), (0x0178, 0x59), (0x0179, 0x5A), (0x017B, 0x5A), (0x017C, 0x7A),
   (0x017D, 0x5A), (0x017E, 0x7A), (0x0180, 0x62), (0x0189, 0x44), (0x0191, 0x46), (0x0192, 0x66),
   (0x0197, 0x49), (0x019A, 0x6C), (0x019F, 0x4F), (0x01A0, 0x4F), (0x01A1, 0x6F), (0x01AB, 0x74),
   (0x01AE, 0x54), (0x01AF, 0x55), (0x01B0, 0x75), (0x01B6, 0x7A), (0x01CD, 0x41), (0x01CE, 0x61),
   (0x01CF, 0x49), (0x01D0, 0x69), (0x01D1, 0x4F), (0x01D2, 0x6F), (0x01D3, 0x55), (0x01D4, 0x75),
   (0x01D5, 0x55), (0x01D6, 0x75), (0x01D7, 0x55), (0x01D8, 0x75), (0x01D9, 0x55), (0x01DA, 0x75),
   (0x01DB, 0x55), (0x01DC, 0x75), (0x01DE, 0x41), (0x01DF, 0x61), (0x01E4, 0x47), (0x01E5, 0x67),
   (0x01E6, 0x47), (0x01E7, 0x67), (0x01E8, 0x4B), (0x01E9, 0x6B), (0x01EA, 0x4F), (0x01EB, 0x6F),
   (0x01EC, 0x4F), (0x01ED, 0x6F), (0x01F0, 0x6A), (0x0261, 0x67), (0x02B9, 0x27), (0x02BA, 0x22),
   (0x02BC, 0x27), (0x02C4, 0x5E), (0x02C6, 0x5E), (0x02C8, 0x27), (0x02CB, 0x60), (0x02CD, 0x5F),
   (0x02DC, 0x7E), (0x0300, 0x60), (0x0302, 0x5E), (0x0303, 0x7E), (0x030E, 0x22), (0x0331, 0x5F),
   (0x0332, 0x5F), (0x2000, 0x20), (0x2001, 0x20), (0x2002, 0x20), (0x2003, 0x20), (0x2004, 0x20),
   (0x2005, 0x20), (0x2006, 0x20), (0x2010, 0x2D), (0x2011, 0x2D), (0x2013, 0x2D), (0x2014, 0x2D),
   (0x2018, 0x27), (0x2019, 0x27), (0x201A, 0x2C), (0x201C, 0x22), (0x201D, 0x22), (0x201E, 0x22),
   (0x2022, 0x2E), (0x2026, 0x2E), (0x2032, 0x27), (0x2035, 0x60), (0x2039, 0x3C), (0x203A, 0x3E),
   (0x2122, 0x54), (0xFF01, 0x21), (0xFF02, 0x22), (0xFF03, 0x23), (0xFF04, 0x24), (0xFF05, 0x25),
   (0xFF06, 0x26), (0xFF07, 0x27), (0xFF08, 0x28), (0xFF09, 0x29), (0xFF0A, 0x2A), (0xFF0B, 0x2B),
   (0xFF0C, 0x2C), (0xFF0D, 0x2D), (0xFF0E, 0x2E), (0xFF0F, 0x2F), (0xFF10, 0x30), (0xFF11, 0x31),
   (0xFF12, 0x32), (0xFF13, 0x33), (0xFF14, 0x34), (0xFF15, 0x35), (0xFF16, 0x36), (0xFF17, 0x37),
   (0xFF18, 0x38), (0xFF19, 0x39), (0xFF1A, 0x3A), (0xFF1B, 0x3B), (0xFF1C, 0x3C), (0xFF1D, 0x3D),
   (0xFF1E, 0x3E), (0xFF20, 0x40), (0xFF21, 0x41), (0xFF22, 0x42), (0xFF23, 0x43), (0xFF24, 0x44),
   (0xFF25, 0x45), (0xFF26, 0x46), (0xFF27, 0x47), (0xFF28, 0x48), (0xFF29, 0x49), (0xFF2A, 0x4A),
   (0xFF2B, 0x4B), (0xFF2C, 0x4C), (0xFF2D, 0x4D), (0xFF2E, 0x4E), (0xFF2F, 0x4F), (0xFF30, 0x50),
   (0xFF31, 0x51), (0xFF32, 0x52), (0xFF33, 0x53), (0xFF34, 0x54), (0xFF35, 0x55), (0xFF36, 0x56),
   (0xFF37, 0x57), (0xFF38, 0x58), (0xFF39, 0x59), (0xFF3A, 0x5A), (0xFF3B, 0x5B), (0xFF3C, 0x5C),
   (0xFF3D, 0x5D), (0xFF3E, 0x5E), (0xFF3F, 0x5F), (0xFF40, 0x60), (0xFF41, 0x61), (0xFF42, 0x62),
   (0xFF43, 0x63), (0xFF44, 0x64), (0xFF45, 0x65), (0xFF46, 0x66), (0xFF47, 0x67), (0xFF48, 0x68),
   (0xFF49, 0x69), (0xFF4A, 0x6A), (0xFF4B, 0x6B), (0xFF4C, 0x6C), (0xFF4D, 0x6D), (0xFF4E, 0x6E),
   (0xFF4F, 0x6F), (0xFF50, 0x70), (0xFF51, 0x71), (0xFF52, 0x72), (0xFF53, 0x73), (0xFF54, 0x74),
   (0xFF55, 0x75), (0xFF56, 0x76), (0xFF57, 0x77), (0xFF58, 0x78), (0xFF59, 0x79), (0xFF5A, 0x7A),
   (0xFF5B, 0x7B), (0xFF5C, 0x7C), (0xFF5D, 0x7D), (0xFF5E, 0x7E)]

def uniByte (h2 h3 h4 h5 : UInt8) : UInt8 :=
  let code := h2.toNat <<< 12 ||| h3.toNat <<< 8 ||| h4.toNat <<< 4 ||| h5.toNat
  match unicodeBestFitASCII.lookup code with
  | some b => b
  | none =>
    let low := h4 <<< 4 ||| h5
    -- full width ASCII
    if 0 < low ∧ low < 0x5F ∧ h2 = 15 ∧ h3 = 15 then low + 0x20 else low

/-- A round of `inplaceUniDecode`.  A run of literal bytes is copied byte by byte. -/
def uniDecodeStep (_ : Unit) (b : UInt8) (t : Bytes) : Piece UInt8 Unit :=
  if b = 0x2B then replace [0x20] 0
  else if b = 0x25 then
    match t with
    | [] => copy b
    | u :: t =>
      if u = 0x75 ∨ u = 0x55 then
        match t with
        | c2 :: c3 :: c4 :: c5 :: _ =>
          match hexNibble c2, hexNibble c3, hexNibble c4, hexNibble c5 with
          | some h2, some h3, some h4, some h5 => replace [uniByte h2 h3 h4 h5] 5
          | _, _, _, _ => ⟨[b, u], 1, false, ()⟩
        | _ => ⟨[b, u], 1, false, ()⟩
      else
        match t with
        | c2 :: _ =>
          match hexNibble u, hexNibble c2 with
          | some h1, some h2 => replace [h1 <<< 4 ||| h2] 2
          | _, _ => copy b
        | [] => copy b
  else copy b

def inplaceUniDecode (input : Bytes) : Bytes × Bool := run uniDecodeStep (fun _ => []) () input

def urlDecodeUni (data : Bytes) : Bytes × Bool :=
  fromFirst (fun b => b == 0x25 || b == 0x2B) inplaceUniDecode data

/-! ### `urlEncode` -/

/-- A byte that `doURLEncode` leaves alone. -/
def urlKept (cc : UInt8) : Bool :=
  cc == 42 || (48 ≤ cc && cc ≤ 57) || (65 ≤ cc && cc ≤ 90) || (97 ≤ cc && cc ≤ 122)

def urlEncodeStep (_ : Unit) (cc : UInt8) (_ : Bytes) : Piece UInt8 Unit :=
  if cc = 0x20 then replace [0x2B] 0
  else if urlKept cc then copy cc
  else replace (0x25 :: c2x cc) 0

/-- `urlEncode`, that is `doURLEncode`, for which an empty text is no special case. -/
def urlEncode (data : Bytes) : Bytes × Bool := run urlEncodeStep (fun _ => []) () data

/-! ### `utf8toUnicode` -/

def unicodeEscapeLength (current : Nat) : Nat :=
  if current ≤ 0xFFFF then 6 else if current ≤ 0xFFFFF then 7 else 8

/-- The digit of a rune that `appendUnicodeEscape` finds `shift` bits from the end. -/
def hexadecimal (current shift : Nat) : UInt8 :=
  let n := current >>> shift &&& 0xF
  UInt8.ofNat (if n < 10 then 0x30 + n else 0x61 + (n - 10))

/-- `appendUnicodeEscape`: what is appended. -/
def unicodeEscape (current : Nat) : Bytes :=
  let digits := unicodeEscapeLength current - 2
  [0x25, 0x75] ++ (range digits).map (fun k => hexadecimal current ((digits - 1 - k) * 4))

def doUTF8ToUnicode (input : Bytes) : Bytes :=
  (decodeRunes input).flatMap (fun current =>
    if current < runeSelf then [UInt8.ofNat current] else unicodeEscape current)

def utf8ToUnicode (str : Bytes) : Bytes × Bool :=
  fromFirst (fun b => runeSelf ≤ b.toNat) (fun input => (doUTF8ToUnicode input, true)) str

/-! ### The flags -/

theorem urlDecodeStep_right (state : Unit) (b : UInt8) (t : Bytes) :
    (urlDecodeStep state b t).Right b t := by
  unfold urlDecodeStep
  split
  · split
    · split
      · exact right_replace (by simp) (by simp) b
      · exact right_copy b _
    · exact right_copy b _
  · split
    · rename_i hb
      subst hb
      exact right_replace_single (by decide) t
    · exact right_copy b _

theorem uniDecodeStep_right (state : Unit) (b : UInt8) (t : Bytes) :
    (uniDecodeStep state b t).Right b t := by
  unfold uniDecodeStep
  split
  · rename_i hb
    subst hb
    exact right_replace_single (by decide) t
  · split
    · split
      · exact right_copy b _
      · split
        · split
          · split
            · exact right_replace (by simp) (by simp) b
            · exact .refl _
          · exact .refl _
        · split
          · split
            · exact right_replace (by simp) (by simp) b
            · exact right_copy b _
          · exact right_copy b _
    · exact right_copy b _

variable (data : Bytes)

theorem urlDecodeUni_eq_run : urlDecodeUni data = run uniDecodeStep (fun _ => []) () data := by
  have hcopy : ∀ b t, (b == 0x25 || b == 0x2B) = false → uniDecodeStep () b t = copy b := by
    intro b t hb
    obtain ⟨hpercent, hplus⟩ := Bool.or_eq_false_iff.mp hb
    unfold uniDecodeStep
    rw [if_neg (beq_eq_false_iff_ne.mp hplus), if_neg (beq_eq_false_iff_ne.mp hpercent)]
  exact fromFirst_run hcopy data

/-- **The flag of `urlDecodeUni` is right.** -/
theorem urlDecodeUni_tracks : Tracks data (urlDecodeUni data).1 (urlDecodeUni data).2 := by
  rw [urlDecodeUni_eq_run]
  exact run_tracks uniDecodeStep_right () data

/-- A plus sign, or a percent sign with two hexadecimal digits after it. -/
def startsUrlEscape (b : UInt8) (t : Bytes) : Bool :=
  b == 0x2B || b == 0x25 && match t with
    | c1 :: c2 :: _ => validHex c1 && validHex c2
    | _ => false

def hasUrlEscape : Bytes → Bool
  | [] => false
  | b :: t => startsUrlEscape b t || hasUrlEscape t

theorem hasUrlEscape_iff (data : Bytes) :
    hasUrlEscape data = true ↔ ∃ b t, b :: t <:+ data ∧ startsUrlEscape b t = true := by
  induction data with
  | nil => exact ⟨nofun, fun ⟨b, t, hsuffix, _⟩ => nomatch suffix_nil.mp hsuffix⟩
  | cons c rest ih =>
    rw [hasUrlEscape, Bool.or_eq_true, ih]
    constructor
    · rintro (h | ⟨b, t, hsuffix, h⟩)
      · exact ⟨c, rest, suffix_rfl, h⟩
      · exact ⟨b, t, hsuffix.trans (suffix_cons c rest), h⟩
    · rintro ⟨b, t, hsuffix, h⟩
      rcases suffix_cons_iff.mp hsuffix with heq | hsuffix
      · cases heq
        exact .inl h
      · exact .inr ⟨b, t, hsuffix, h⟩

theorem urlDecodeStep_changed (b : UInt8) (t : Bytes) :
    (urlDecodeStep () b t).changed = startsUrlEscape b t := by
  unfold urlDecodeStep startsUrlEscape
  by_cases hb : b = 0x25
  · subst hb
    rw [if_pos rfl]
    split
    · split
      · rename_i h
        rw [h]
        rfl
      · rename_i h
        rw [Bool.eq_false_iff.mpr h]
        rfl
    · rfl
  · rw [if_neg hb, beq_false_of_ne hb, Bool.false_and]
    split
    · rename_i hplus
      rw [hplus]
      rfl
    · rename_i hplus
      rw [beq_false_of_ne hplus]
      rfl

theorem urlDecode_eq_run : (urlDecode data).1 = (run urlDecodeStep (fun _ => []) () data).1 := by
  have hcopy : ∀ b t, (b == 0x25 || b == 0x2B) = false → urlDecodeStep () b t = copy b := by
    intro b t hb
    obtain ⟨hpercent, hplus⟩ := Bool.or_eq_false_iff.mp hb
    unfold urlDecodeStep
    rw [if_neg (beq_eq_false_iff_ne.mp hpercent), if_neg (beq_eq_false_iff_ne.mp hplus)]
  rw [← fromFirst_run hcopy]
  unfold urlDecode fromFirst
  cases data.findIdx? (fun b => b == 0x25 || b == 0x2B) <;> rfl

/-- **`urlDecode` writes another text exactly if there is something to decode.** -/
theorem urlDecode_ne_iff : (urlDecode data).1 ≠ data ↔ hasUrlEscape data = true := by
  have hfurther : ∀ b t, (urlDecodeStep () b t).changed = false →
      (urlDecodeStep () b t).further = 0 := by
    intro b t
    unfold urlDecodeStep
    split
    · split
      · split
        · exact nofun
        · exact fun _ => rfl
      · exact fun _ => rfl
    · split <;> exact fun _ => rfl
  rw [urlDecode_eq_run, ← (run_tracks urlDecodeStep_right () data).changed_iff,
    run_changed_iff hfurther,
    hasUrlEscape_iff]
  simp only [urlDecodeStep_changed]

/-- The flag of `urlDecode` says that there is a percent sign or a plus sign. -/
theorem urlDecode_changed : (urlDecode data).2 = data.any (fun b => b == 0x25 || b == 0x2B) :=
  (fromFirst_always _ _ data).1

/-- What `urlEncode` writes for a byte is as long or longer, so that the flag is right with the
two texts the other way round. -/
theorem urlEncode_tracks : Tracks (urlEncode data).1 data (urlEncode data).2 := by
  refine run_induction (P := fun _ read written c => Tracks written read c) (fun _ => .refl []) ?_
    data ()
  intro _ b t rest c ih
  have hpiece : Tracks (urlEncodeStep () b t).written [b] (urlEncodeStep () b t).changed := by
    unfold urlEncodeStep
    split
    · rename_i hb
      subst hb
      exact .of_ne (by decide) (by decide)
    · split
      · exact .refl [b]
      · exact .of_lt (Nat.lt_add_of_pos_left (Nat.zero_lt_succ 1))
  have hfurther : (urlEncodeStep () b t).further = 0 := by
    unfold urlEncodeStep
    split
    · rfl
    · split <;> rfl
  rw [hfurther] at ih
  exact hpiece.append ih

theorem unicodeEscape_ascii (current : Nat) : ∀ b ∈ unicodeEscape current, b.toNat < runeSelf := by
  intro b hb
  rcases mem_append.mp hb with hb | hb
  · have hstart : ∀ b ∈ [(0x25 : UInt8), 0x75], b.toNat < runeSelf := by
      decide +kernel
    exact hstart b hb
  · obtain ⟨k, _, rfl⟩ := mem_map.mp hb
    have hn : ∀ n < 16, (UInt8.ofNat (if n < 10 then 0x30 + n else 0x61 + (n - 10))).toNat
        < runeSelf := by decide
    exact hn _ (Nat.lt_of_le_of_lt Nat.and_le_right (by decide))

theorem utf8ToUnicode_ascii {str : Bytes} (h : (utf8ToUnicode str).2 = true) :
    ∀ b ∈ (utf8ToUnicode str).1, b.toNat < runeSelf := by
  unfold utf8ToUnicode fromFirst at *
  cases hi : str.findIdx? (fun b => runeSelf ≤ b.toNat) with
  | none =>
    rw [hi] at h
    cases h
  | some i =>
    obtain ⟨hlt, _, hbefore⟩ := findIdx?_eq_some_iff_getElem.mp hi
    intro b hb
    rcases mem_append.mp hb with hb | hb
    · obtain ⟨k, hk, rfl⟩ := mem_iff_getElem.mp hb
      rw [length_take] at hk
      rw [getElem_take]
      exact Nat.lt_of_not_le (of_decide_eq_false
        (Bool.eq_false_iff.mpr (hbefore k (Nat.lt_of_lt_of_le hk (Nat.min_le_left ..)))))
    · obtain ⟨current, _, hb⟩ := mem_flatMap.mp hb
      split at hb
      · rename_i hascii
        rw [mem_singleton.mp hb, UInt8.toNat_ofNat_lt (Nat.lt_trans hascii (by decide))]
        exact hascii
      · exact unicodeEscape_ascii current b hb

/-- **The flag of `utf8toUnicode` is right**: what it writes is ASCII. -/
theorem utf8ToUnicode_changed_iff (str : Bytes) :
    (utf8ToUnicode str).2 = true ↔ (utf8ToUnicode str).1 ≠ str := by
  have halways := fromFirst_always (fun b : UInt8 => runeSelf ≤ b.toNat) doUTF8ToUnicode str
  constructor
  · intro hchanged heq
    have hascii := utf8ToUnicode_ascii hchanged
    rw [utf8ToUnicode, halways.1, any_eq_true] at hchanged
    obtain ⟨b, hb, hhigh⟩ := hchanged
    rw [← heq] at hb
    exact absurd (of_decide_eq_true hhigh) (Nat.not_le_of_lt (hascii b hb))
  · intro hne
    by_contra hchanged
    exact hne (halways.2 (Bool.eq_false_iff.mpr hchanged))

end Coraza.Transformations
