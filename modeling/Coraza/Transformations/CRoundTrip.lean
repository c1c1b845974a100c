import Coraza.Lib.InPlace
import Coraza.Transformations.JsRoundTrip

/-!
# Writing bytes as escapes of C

A byte of a string in C is written as `\xHH`, as `\OOO`, with a letter or a sign after the
backslash if there is one for it, or as itself.  `CByte` is a byte with such a choice, and
`escapeSeqDecode_cBytes` says that `escapeSeqDecode` gives the bytes back, whatever is chosen for
each of them.

`doEscapeSeqDecode` works in a buffer of the size of its input.  `doEscapeSeqDecode` below is that
loop with its two cursors; it computes `escapeSeqDecode` (`doEscapeSeqDecode_eq`), and its write
cursor `d` never passes its read cursor `i`.  `c_escapes_read` states both results.
-/

namespace Coraza.Transformations

open Go Rewriting

/-! ### The escapes -/

/-- The bytes that are written with a letter or a sign after the backslash. -/
def cNamed : List (UInt8 × UInt8) :=
  [(0x61, 0x07), (0x62, 0x08), (0x66, 0x0C), (0x6E, 0x0A), (0x72, 0x0D), (0x74, 0x09), (0x76, 0x0B),
    (0x5C, 0x5C), (0x3F, 0x3F), (0x27, 0x27), (0x22, 0x22)]

/-- A byte with the way it is written. -/
inductive CByte where
  | hex (byte : UInt8) (upperX upperHigh upperLow : Bool)
  | octal (byte : UInt8)
  | named (letter byte : UInt8) (h : (letter, byte) ∈ cNamed)
  | literal (byte : UInt8) (h : byte ≠ 0x5C)

namespace CByte

def byte : CByte → UInt8
  | hex b _ _ _ => b
  | octal b => b
  | named _ b _ => b
  | literal b _ => b

def text : CByte → Bytes
  | hex b upperX upperHigh upperLow =>
    [0x5C, if upperX then 0x58 else 0x78, hexDigit upperHigh (b >>> 4),
      hexDigit upperLow (b &&& 0x0F)]
  | octal b => [0x5C, octalDigit b 6, octalDigit b 3, octalDigit b 0]
  | named letter _ _ => [0x5C, letter]
  | literal b _ => [b]

end CByte

theorem escapeSeq_named {c e : UInt8} (h : (c, e) ∈ cNamed) (t : Bytes) :
    escapeSeq c t = (e, 1) := by
  have hall : cNamed.all (fun p => namedEscape p.1 = some p.2) = true := by decide
  simp only [escapeSeq, of_decide_eq_true (List.all_eq_true.mp hall (c, e) h)]

theorem escapeSeq_hex {x h l : UInt8} (hx : x = 0x78 ∨ x = 0x58) (hh : validHex h = true)
    (hl : validHex l = true) (rest : Bytes) : escapeSeq x (h :: l :: rest) = (x2c h l, 3) := by
  have hnamed : namedEscape x = none := by
    rcases hx with rfl | rfl <;> rfl
  simp only [escapeSeq, hnamed, if_pos hx, hexPair, hh, hl, Bool.and_self, if_true]

theorem escapeSeq_octal (b : UInt8) (rest : Bytes) :
    escapeSeq (octalDigit b 6) (octalDigit b 3 :: octalDigit b 0 :: rest) = (b, 3) := by
  obtain ⟨ha, hb, hc⟩ := JsByte.octalDigits_eq b
  have hletter : ∀ a : UInt8, isODigit a = true →
      namedEscape a = none ∧ a ≠ 0x78 ∧ a ≠ 0x58 := UInt8.forall_of_fin (by decide +kernel)
  have hvalue : ∀ b : UInt8, UInt8.ofNat (Strconv.parseUint8
      [octalDigit b 6, octalDigit b 3, octalDigit b 0]) = b :=
    UInt8.forall_of_fin (by decide +kernel)
  obtain ⟨hnamed, hx, hX⟩ := hletter _ ha
  have hdigits : octalDigits (octalDigit b 6 :: octalDigit b 3 :: octalDigit b 0 :: rest)
      = [octalDigit b 6, octalDigit b 3, octalDigit b 0] := by
    simp [octalDigits, ha, hb, hc]
  simp only [escapeSeq, hnamed, hx, hX, or_self, ha, hdigits, hvalue]
  rfl

/-- What is read for a byte does not depend on what follows. -/
theorem run_cByte (x : CByte) (rest : Bytes) :
    (run escapeSeqStep (fun _ => []) () (x.text ++ rest)).1
      = [x.byte] ++ (run escapeSeqStep (fun _ => []) () rest).1 := by
  -- a round at a backslash
  have hescape : ∀ {c v : UInt8} {t : Bytes} {n : Nat}, escapeSeq c t = (v, n) →
      (run escapeSeqStep (fun _ => []) () (0x5C :: c :: t)).1
        = [v] ++ (run escapeSeqStep (fun _ => []) () ((c :: t).drop n)).1 := by
    intro c v t n h
    have hstep : escapeSeqStep () 0x5C (c :: t) = replace [v] n := by
      show replace [(escapeSeq c t).1] (escapeSeq c t).2 = _
      rw [h]
    rw [run_cons, hstep]
    rfl
  cases x with
  | hex b upperX upperHigh upperLow =>
    obtain ⟨hhigh, hlow, hbyte⟩ := JsByte.hexDigits_eq ⟨b, .hex, upperHigh, upperLow⟩
    have hx : (if upperX then 0x58 else 0x78) = (0x78 : UInt8)
        ∨ (if upperX then 0x58 else 0x78) = (0x58 : UInt8) := by
      cases upperX
      · exact .inl rfl
      · exact .inr rfl
    refine (hescape (escapeSeq_hex hx hhigh hlow rest)).trans ?_
    rw [hbyte]
    rfl
  | octal b => exact hescape (escapeSeq_octal b rest)
  | named letter b h => exact hescape (escapeSeq_named h rest)
  | literal b h =>
    have hcopy : escapeSeqStep () b rest = copy b := by
      simp only [escapeSeqStep, h, if_false]
    show (run escapeSeqStep (fun _ => []) () (b :: rest)).1 = _
    rw [run_cons, hcopy]
    rfl

theorem escapeSeqStep_copy (b : UInt8) (t : Bytes) (h : (b == 0x5C) = false) :
    escapeSeqStep () b t = copy b := by
  simp only [escapeSeqStep, beq_eq_false_iff_ne.mp h, if_false]

/-- **`escapeSeqDecode` gives the bytes back**, however each of them is written. -/
theorem escapeSeqDecode_cBytes (xs : List CByte) :
    (escapeSeqDecode (xs.flatMap CByte.text)).1 = xs.map CByte.byte := by
  have hrun : (run escapeSeqStep (fun _ => []) () (xs.flatMap CByte.text)).1
      = xs.flatMap (fun x => [x.byte]) ++ [] := run_flatMap xs (fun x _ => run_cByte x)
  unfold escapeSeqDecode
  rw [fromFirst_run escapeSeqStep_copy, hrun, List.append_nil, ← List.map_eq_flatMap]

/-! ### The loop with its cursors -/

/-- `doEscapeSeqDecode` after a number of rounds: `data` is the buffer, `d` the write cursor and `i`
the read cursor. -/
def doEscapeSeqDecode (input : Bytes) (pos rounds : Nat) : Cursors UInt8 Unit :=
  (Cursors.round escapeSeqStep input)^[rounds] (Cursors.start input pos ())

theorem escapeSeqStep_fits (state : Unit) (b : UInt8) (t : Bytes) :
    (escapeSeqStep state b t).Fits t := by
  unfold escapeSeqStep
  split
  · cases t with
    | nil => exact ⟨Nat.le_refl 1, Nat.le_refl 0⟩
    | cons c t =>
      obtain ⟨_, hle⟩ := escapeSeq_read c t
      exact ⟨Nat.le_add_left 1 _, hle⟩
  · exact ⟨Nat.le_refl 1, Nat.zero_le _⟩

/-- The loop begins at a backslash of the input, and when the input is read the buffer holds what
`escapeSeqDecode` returns. -/
theorem doEscapeSeqDecode_eq {input : Bytes} {pos : Nat}
    (hpos : input.findIdx? (fun b => b == 0x5C) = some pos) :
    let c := doEscapeSeqDecode input pos input.length
    c.read = input.length ∧ (c.buffer.take c.write, c.changed) = escapeSeqDecode input := by
  obtain ⟨hlt, -⟩ := List.findIdx?_eq_some_iff_getElem.mp hpos
  unfold escapeSeqDecode fromFirst
  rw [hpos]
  exact Cursors.rounds_all escapeSeqStep_fits (Nat.le_of_lt hlt) ()

/-- **Escapes of C are read back, in place.**  Whatever bytes are written, each as `\xHH`, in octal,
with a letter or as itself, `escapeSeqDecode` gives them back; and on every input the write cursor
is at no time beyond the read cursor, nor the read cursor beyond the end. -/
theorem c_escapes_read :
    (∀ xs : List CByte, (escapeSeqDecode (xs.flatMap CByte.text)).1 = xs.map CByte.byte) ∧
      ∀ (input : Bytes) (pos : Nat), input.findIdx? (fun b => b == 0x5C) = some pos →
        (∀ rounds, (doEscapeSeqDecode input pos rounds).write
            ≤ (doEscapeSeqDecode input pos rounds).read ∧
          (doEscapeSeqDecode input pos rounds).read ≤ input.length) ∧
        ((doEscapeSeqDecode input pos input.length).buffer.take
            (doEscapeSeqDecode input pos input.length).write,
          (doEscapeSeqDecode input pos input.length).changed) = escapeSeqDecode input := by
  refine ⟨escapeSeqDecode_cBytes, ?_⟩
  intro input pos hpos
  obtain ⟨hlt, -⟩ := List.findIdx?_eq_some_iff_getElem.mp hpos
  refine ⟨?_, (doEscapeSeqDecode_eq hpos).2⟩
  intro rounds
  have hsound := Cursors.sound_rounds escapeSeqStep_fits (Nat.le_of_lt hlt) () rounds
  exact ⟨hsound.write_le, hsound.read_le⟩

/-- `\x41\102C` is read as `ABC`, from its first byte on. -/
theorem c_escapes_read_abc : (escapeSeqDecode ([CByte.hex 0x41 false false false, .octal 0x42,
        .literal 0x43 (by decide)].flatMap CByte.text)).1 = [0x41, 0x42, 0x43] ∧
      (doEscapeSeqDecode [0x61, 0x5C, 0x6E] 1 1).write
        ≤ (doEscapeSeqDecode [0x61, 0x5C, 0x6E] 1 1).read :=
  ⟨c_escapes_read.1 _, ((c_escapes_read.2 [0x61, 0x5C, 0x6E] 1 rfl).1 1).1⟩

end Coraza.Transformations
