import Coraza.Transformations.Escapes

/-!
# Writing bytes as JavaScript escapes

A byte can be written in a JavaScript string as `\xHH`, as `\OOO`, as `\u00HH` and, since ES2015,
as `\u{HH}`.  `JsForm` is the choice, made for each byte of a text, and `js_escapes_read_iff` says
when `jsDecode` gives the text back: exactly if no byte is written in octal.  The loop that
collects octal digits begins at the backslash, so that it never has a number to parse; it writes a
zero byte for the escape and leaves the last digit in the text (`octal_read`).
-/

namespace Coraza.Transformations

open Go Rewriting List

/-! ### Escapes -/

inductive JsForm where
  | hex | octal | unicode | braced
  deriving DecidableEq

/-- A byte with the form in which it is written, and whether its two hexadecimal digits are in
upper case. -/
structure JsByte where
  byte : UInt8
  form : JsForm
  upperHigh : Bool
  upperLow : Bool

def hexDigit (upper : Bool) (n : UInt8) : UInt8 :=
  if n < 10 then 0x30 + n else (if upper then 0x41 else 0x61) + (n - 10)

/-- The octal digit of a byte `shift` bits from the end. -/
def octalDigit (b shift : UInt8) : UInt8 := 0x30 + ((b >>> shift) &&& 7)

namespace JsByte

def high (x : JsByte) : UInt8 := hexDigit x.upperHigh (x.byte >>> 4)

def low (x : JsByte) : UInt8 := hexDigit x.upperLow (x.byte &&& 0x0F)

def text (x : JsByte) : Bytes :=
  match x.form with
  | .hex => [0x5C, 0x78, x.high, x.low]
  | .octal => [0x5C, octalDigit x.byte 6, octalDigit x.byte 3, octalDigit x.byte 0]
  | .unicode => [0x5C, 0x75, 0x30, 0x30, x.high, x.low]
  | .braced => [0x5C, 0x75, 0x7B, x.high, x.low, 0x7D]

/-- What `jsDecode` writes for an escape. -/
def read (x : JsByte) : Bytes :=
  match x.form with
  | .octal => [0, octalDigit x.byte 0]
  | _ => [x.byte]

/-! ### One escape -/

theorem hexDigits_eq (x : JsByte) : validHex x.high = true ∧ validHex x.low = true ∧
    x2c x.high x.low = x.byte := by
  have hall : ∀ u v : Bool, ∀ b : UInt8, validHex (hexDigit u (b >>> 4)) = true ∧
      validHex (hexDigit v (b &&& 0x0F)) = true ∧
      x2c (hexDigit u (b >>> 4)) (hexDigit v (b &&& 0x0F)) = b := by
    intro u v
    cases u <;> cases v <;> exact UInt8.forall_of_fin (by decide +kernel)
  exact hall x.upperHigh x.upperLow x.byte

theorem run_escape {c v : UInt8} {t : Bytes} {n : Nat} (h : jsEscape c t = (v, n)) :
    (run jsStep (fun _ => []) () (0x5C :: c :: t)).1
      = v :: (run jsStep (fun _ => []) () ((c :: t).drop n)).1 := by
  have hstep : jsStep () 0x5C (c :: t) = replace [v] n := by
    show replace [(jsEscape c t).1] (jsEscape c t).2 = _
    rw [h]
  rw [run_cons, hstep]
  rfl

theorem hex_read {h l : UInt8} (hh : validHex h = true) (hl : validHex l = true) (rest : Bytes) :
    jsEscape 0x78 (h :: l :: rest) = (x2c h l, 3) := by
  have hpair : hexPair (h :: l :: rest) = some (x2c h l) := by
    show (if (validHex h && validHex l) = true then some (x2c h l) else none) = _
    rw [hh, hl]
    rfl
  unfold jsEscape
  rw [if_neg (show ¬0 < extLen 0x78 (h :: l :: rest) by simp [extLen]), if_neg (by decide),
    if_pos rfl, hpair]

theorem unicode_read {h l : UInt8} (hh : validHex h = true) (hl : validHex l = true)
    (rest : Bytes) : jsEscape 0x75 (0x30 :: 0x30 :: h :: l :: rest) = (x2c h l, 5) := by
  have hquad : hexQuad (0x30 :: 0x30 :: h :: l :: rest) = some (x2c h l) := by
    have hbyte : uByte 0x30 0x30 h l = x2c h l := by
      unfold uByte
      rw [if_neg (fun hwide => absurd hwide.2.2.1 (by decide))]
    show (if (validHex 0x30 && validHex 0x30 && validHex h && validHex l) = true then
      some (uByte 0x30 0x30 h l) else none) = _
    rw [hh, hl, hbyte]
    rfl
  unfold jsEscape
  rw [if_neg (show ¬0 < extLen 0x75 (0x30 :: 0x30 :: h :: l :: rest) by simp [extLen]),
    if_pos rfl, hquad]

theorem braced_read {h l : UInt8} (hh : validHex h = true) (hl : validHex l = true)
    (rest : Bytes) : jsEscape 0x75 (0x7B :: h :: l :: 0x7D :: rest) = (x2c h l, 5) := by
  have hdigits : hexDigits (h :: l :: 0x7D :: rest) = [h, l] := by
    unfold hexDigits
    rw [take_succ_cons, take_succ_cons, take_succ_cons,
      takeWhile_cons_of_pos hh, takeWhile_cons_of_pos hl,
      takeWhile_cons_of_neg (by decide)]
  have hlength : extLen 0x75 (0x7B :: h :: l :: 0x7D :: rest) = 2 := by
    show (if (0x75 : UInt8) = 0x75 ∧ (0x7B : UInt8) = 0x7B then
      jsExtendedUnicodeEscapeLen (h :: l :: 0x7D :: rest) else 0) = 2
    rw [if_pos ⟨rfl, rfl⟩]
    unfold jsExtendedUnicodeEscapeLen
    rw [hdigits]
    rfl
  have hvalue : extByte (hexValue [h, l]) = x2c h l := by
    have hhigh := xsingle2c_lt h hh
    have hlow := xsingle2c_lt l hl
    have hcode : hexValue [h, l] = (xsingle2c h).toNat * 16 + (xsingle2c l).toNat := by
      show (0 <<< 4 ||| (xsingle2c h).toNat) <<< 4 ||| (xsingle2c l).toNat = _
      rw [Nat.zero_shiftLeft, Nat.zero_or, ← Nat.shiftLeft_add_eq_or_of_lt hlow, Nat.shiftLeft_eq]
    have hbyte : (x2c h l).toNat = hexValue [h, l] := by
      rw [hcode, x2c, UInt8.toNat_add, UInt8.toNat_mul]
      show ((xsingle2c h).toNat * 16 % 256 + (xsingle2c l).toNat) % 256 = _
      omega
    unfold extByte
    rw [if_neg (by omega), ← hbyte, UInt8.ofNat_toNat]
  unfold jsEscape
  rw [hlength, if_pos (by decide), drop_one, tail_cons]
  show (extByte (hexValue [h, l]), 5) = _
  rw [hvalue]

/-- **An octal escape is read as a zero byte**, and its last digit is left. -/
theorem octal_read {a b c : UInt8} (ha : isODigit a = true) (hb : isODigit b = true)
    (hc : isODigit c = true) (rest : Bytes) :
    jsEscape a (b :: c :: rest) = (0, 2) := by
  have hletter : ∀ a : UInt8, isODigit a = true → a ≠ 0x75 ∧ a ≠ 0x78 :=
    UInt8.forall_of_fin (by decide +kernel)
  have hnumber : ∀ a : UInt8, Strconv.parseInt8 [0x5C, a] = 0 :=
    UInt8.forall_of_fin (by decide +kernel)
  have hloop : octalLoop (0x5C :: a :: b :: c :: rest) 3 0 = 3 := by
    simp [octalLoop, ha, hb, hc]
  obtain ⟨hu, hx⟩ := hletter a ha
  have hescape : octalEscape (0x5C :: a :: b :: c :: rest) = (0, 2) := by
    unfold octalEscape
    rw [hloop]
    dsimp only
    rw [if_pos ⟨rfl, 0x5C, rfl, by decide⟩]
    show (UInt8.ofNat (Strconv.parseInt8 [0x5C, a] % 256).toNat, 2) = _
    rw [hnumber]
    rfl
  unfold jsEscape
  rw [if_neg (show ¬0 < extLen a (b :: c :: rest) by simp [extLen, hu]), if_neg hu, if_neg hx,
    if_pos ha]
  exact hescape

theorem octalDigits_eq : ∀ b : UInt8, isODigit (octalDigit b 6) = true ∧
    isODigit (octalDigit b 3) = true ∧ isODigit (octalDigit b 0) = true :=
  UInt8.forall_of_fin (by decide +kernel)

/-- What is read for an escape does not depend on what follows. -/
theorem run_text (x : JsByte) (rest : Bytes) : (run jsStep (fun _ => []) () (x.text ++ rest)).1
      = x.read ++ (run jsStep (fun _ => []) () rest).1 := by
  obtain ⟨hhigh, hlow, hbyte⟩ := x.hexDigits_eq
  unfold text read
  cases x.form with
  | hex =>
    refine (run_escape (hex_read hhigh hlow rest)).trans ?_
    rw [hbyte]
    rfl
  | unicode =>
    refine (run_escape (unicode_read hhigh hlow rest)).trans ?_
    rw [hbyte]
    rfl
  | braced =>
    refine (run_escape (braced_read hhigh hlow rest)).trans ?_
    rw [hbyte]
    rfl
  | octal =>
    obtain ⟨ha, hb, hc⟩ := octalDigits_eq x.byte
    refine (run_escape (octal_read ha hb hc rest)).trans ?_
    have hne : octalDigit x.byte 0 ≠ 0x5C := by
      intro heq
      rw [heq] at hc
      exact absurd hc (by decide)
    show 0 :: (run jsStep (fun _ => []) () (octalDigit x.byte 0 :: rest)).1 = _
    have hcopy : jsStep () (octalDigit x.byte 0) rest = copy (octalDigit x.byte 0) := by
      unfold jsStep
      rw [if_neg hne]
    rw [run_cons, hcopy]
    rfl

end JsByte

/-! ### A text -/

theorem jsDecode_escapes (xs : List JsByte) :
    (jsDecode (xs.flatMap JsByte.text)).1 = xs.flatMap JsByte.read := by
  have hcopy : ∀ b t, (b == 0x5C) = false → jsStep () b t = copy b := by
    intro b t hb
    unfold jsStep
    rw [if_neg (beq_eq_false_iff_ne.mp hb)]
  have hrun : (run jsStep (fun _ => []) () (xs.flatMap JsByte.text)).1
      = xs.flatMap JsByte.read ++ [] := run_flatMap xs (fun x _ => x.run_text)
  unfold jsDecode
  rw [fromFirst_run hcopy, hrun, append_nil]

theorem JsByte.length_read (x : JsByte) : x.read.length = if x.form = .octal then 2 else 1 := by
  unfold read
  cases x.form <;> rfl

theorem length_reads (xs : List JsByte) :
    (xs.flatMap JsByte.read).length = xs.length + xs.countP (fun x => x.form = .octal) := by
  induction xs with
  | nil => rfl
  | cons x xs ih =>
    rw [flatMap_cons, length_append, x.length_read, ih, countP_cons, length_cons]
    by_cases h : x.form = .octal
    · rw [if_pos h, if_pos (decide_eq_true h)]
      omega
    · rw [if_neg h, if_neg (by simpa using h)]
      omega

/-- **`jsDecode` gives a text back exactly if none of its bytes is written in octal.** -/
theorem js_escapes_read_iff (xs : List JsByte) :
    (jsDecode (xs.flatMap JsByte.text)).1 = xs.map JsByte.byte ↔ ∀ x ∈ xs, x.form ≠ .octal := by
  rw [jsDecode_escapes]
  constructor
  · intro heq x hx hoctal
    have hlength := congrArg List.length heq
    rw [length_reads, length_map] at hlength
    have hcount : xs.countP (fun x => x.form = .octal) = 0 := by omega
    exact List.countP_eq_zero.mp hcount x hx (decide_eq_true hoctal)
  · intro hforms
    have hread : ∀ x ∈ xs, x.read = [x.byte] := by
      intro x hx
      have hform := hforms x hx
      unfold JsByte.read
      cases hx : x.form with
      | octal => exact absurd hx hform
      | hex | unicode | braced => rfl
    rw [map_eq_flatMap]
    exact flatMap_congr hread

/-- The letter `A` in octal, `\101`, is read as a zero byte and the digit `1`. -/
theorem js_octal_lost :
    ¬∀ xs : List JsByte, (jsDecode (xs.flatMap JsByte.text)).1 = xs.map JsByte.byte := by
  intro h
  have hlost := h [⟨0x41, .octal, false, false⟩]
  exact absurd hlost (by decide +kernel)

end Coraza.Transformations
