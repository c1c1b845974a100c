import Coraza.Go.Strconv
import Coraza.Transformations.Percent

/-!
# Escapes with a backslash

The transformations `cssDecode`, `escapeSeqDecode` and `jsDecode`.  Each of them copies a text up to
its first backslash and then decodes escapes one after the other.

An escape of C or JavaScript is at least two bytes long and gives one byte, so the flag of
`escapeSeqDecode` and of `jsDecode` is right (`escapeSeqDecode_tracks`, `jsDecode_tracks`).  An
escape of CSS may be shorter than what it stands for: the code point 0 is written `\0` and read as
U+FFFD, which takes three bytes.  The flag of `cssDecode`, which is set if there is a backslash, is
right all the same (`cssDecode_changed_iff`): bytes `0xEF` are only ever added, and not counting
them twice makes every escape lighter.
-/

namespace Coraza.Transformations

open Go Rewriting List

/-- The hexadecimal digits at the beginning of a text, six of them at most. -/
def hexDigits (text : Bytes) : Bytes := (text.take 6).takeWhile validHex

def hexValue (ds : Bytes) : Nat := ds.foldl (fun code d => code <<< 4 ||| (xsingle2c d).toNat) 0

/-! ### `cssDecode` -/

def isspace (char : UInt8) : Bool :=
  char = 0x20 ∨ char = 0x0C ∨ char = 0x0A ∨ char = 0x09 ∨ char = 0x0D ∨ char = 0x0B

/-- The code point of an escape with hexadecimal digits. -/
def cssRune (code : Nat) : Nat :=
  let code := if code = 0 then runeError else code
  -- full width ASCII
  if 0xFF01 ≤ code ∧ code ≤ 0xFF5E then code - 0xFEE0 else code

def startsSpace : Bytes → Bool
  | [] => false
  | b :: _ => isspace b

/-- How many bytes are read for an escape with hexadecimal digits: a single white space after the
digits belongs to it. -/
def cssEscapeLen (t : Bytes) : Nat :=
  (hexDigits t).length + if startsSpace (t.drop (hexDigits t).length) then 1 else 0

def cssStep (_ : Unit) (b : UInt8) (t : Bytes) : Piece UInt8 Unit :=
  if b = 0x5C then
    match t with
    | [] => replace [] 0
    | c :: _ =>
      if hexDigits t ≠ [] then
        replace (encodeRune (cssRune (hexValue (hexDigits t)))) (cssEscapeLen t)
      else if c = 0x0A then replace [] 1
      else replace [c] 1
  else copy b

def cssDecodeInplace (input : Bytes) : Bytes := (run cssStep (fun _ => []) () input).1

def cssDecode (data : Bytes) : Bytes × Bool :=
  fromFirst (fun b => b == 0x5C) (fun input => (cssDecodeInplace input, true)) data

/-! ### `escapeSeqDecode` -/

def namedEscape (c : UInt8) : Option UInt8 :=
  match c with
  | 0x61 => some 0x07
  | 0x62 => some 0x08
  | 0x66 => some 0x0C
  | 0x6E => some 0x0A
  | 0x72 => some 0x0D
  | 0x74 => some 0x09
  | 0x76 => some 0x0B
  | 0x5C => some 0x5C
  | 0x3F => some 0x3F
  | 0x27 => some 0x27
  | 0x22 => some 0x22
  | _ => none

/-- `isODigit`, and `isodigit` of `js_decode.go`. -/
def isODigit (c : UInt8) : Bool := 0x30 ≤ c && c ≤ 0x37

/-- The octal digits at the beginning of a text, three of them at most. -/
def octalDigits (text : Bytes) : Bytes := (text.take 3).takeWhile isODigit

def hexPair : Bytes → Option UInt8
  | h1 :: h2 :: _ => if validHex h1 && validHex h2 then some (x2c h1 h2) else none
  | _ => none

/-- The escape after a backslash: the byte, and how many bytes are read for it. -/
def escapeSeq (c : UInt8) (t : Bytes) : UInt8 × Nat :=
  match namedEscape c with
  | some e => (e, 1)
  | none =>
    match if c = 0x78 ∨ c = 0x58 then hexPair t else none with
    | some v => (v, 3)
    | none =>
      if isODigit c then
        (UInt8.ofNat (Strconv.parseUint8 (octalDigits (c :: t))), (octalDigits (c :: t)).length)
      -- not an escape
      else (c, 1)

def escapeSeqStep (_ : Unit) (b : UInt8) (t : Bytes) : Piece UInt8 Unit :=
  if b = 0x5C then
    match t with
    | [] => copy b
    | c :: t => replace [(escapeSeq c t).1] (escapeSeq c t).2
  else copy b

def escapeSeqDecode (input : Bytes) : Bytes × Bool :=
  fromFirst (fun b => b == 0x5C) (run escapeSeqStep (fun _ => []) ()) input

/-! ### `jsDecode` -/

/-- `jsExtendedUnicodeEscapeLen`, for a text that begins after the brace. -/
def jsExtendedUnicodeEscapeLen (text : Bytes) : Nat :=
  let j := (hexDigits text).length
  if j = 0 ∨ text[j]? ≠ some 0x7D then 0 else j

/-- `extLen`, for the byte after the backslash and what follows. -/
def extLen (c : UInt8) (t : Bytes) : Nat :=
  match t with
  | brace :: rest => if c = 0x75 ∧ brace = 0x7B then jsExtendedUnicodeEscapeLen rest else 0
  | [] => 0

def extByte (code : Nat) : UInt8 :=
  -- full width ASCII
  if 0xFF01 ≤ code ∧ code ≤ 0xFF5E then UInt8.ofNat code + 0x20 else UInt8.ofNat code

def uByte (h1 h2 h3 h4 : UInt8) : UInt8 :=
  let d := x2c h3 h4
  if 0 < d ∧ d < 0x5F ∧ (h1 = 0x66 ∨ h1 = 0x46) ∧ (h2 = 0x66 ∨ h2 = 0x46) then d + 0x20 else d

def hexQuad : Bytes → Option UInt8
  | h1 :: h2 :: h3 :: h4 :: _ =>
    if validHex h1 && validHex h2 && validHex h3 && validHex h4 then some (uByte h1 h2 h3 h4)
    else none
  | _ => none

/-- The loop that reads an octal escape: the value of `j` after at most `n` more rounds.  It looks
one byte ahead of the one it stores, which is the backslash at first. -/
def octalLoop (text : Bytes) : Nat → Nat → Nat
  | 0, j => j
  | n + 1, j =>
    match text[j + 1]? with
    | none => j
    | some c => if isODigit c then octalLoop text n (j + 1) else j + 1

/-- An octal escape, with the backslash: the byte, and the final value of `j`. -/
def octalEscape (text : Bytes) : UInt8 × Nat :=
  let j := octalLoop text 3 0
  let j := if j = 3 ∧ ∃ c ∈ text.head?, 0x33 < c then 2 else j
  (UInt8.ofNat (Strconv.parseInt8 (text.take j) % 256).toNat, j)

def jsNamed (c : UInt8) : UInt8 :=
  match c with
  | 0x61 => 0x07
  | 0x62 => 0x08
  | 0x66 => 0x0C
  | 0x6E => 0x0A
  | 0x72 => 0x0D
  | 0x74 => 0x09
  | 0x76 => 0x0B
  | c => c

/-- The escape after a backslash: the byte, and how many bytes are read for it. -/
def jsEscape (c : UInt8) (t : Bytes) : UInt8 × Nat :=
  if 0 < extLen c t then (extByte (hexValue ((t.drop 1).take (extLen c t))), extLen c t + 3)
  else
    match if c = 0x75 then hexQuad t else none with
    | some v => (v, 5)
    | none =>
      match if c = 0x78 then hexPair t else none with
      | some v => (v, 3)
      | none => if isODigit c then octalEscape (0x5C :: c :: t) else (jsNamed c, 1)

def jsStep (_ : Unit) (b : UInt8) (t : Bytes) : Piece UInt8 Unit :=
  if b = 0x5C then
    match t with
    | [] => copy b
    | c :: t => replace [(jsEscape c t).1] (jsEscape c t).2
  else copy b

def jsDecode (data : Bytes) : Bytes × Bool :=
  fromFirst (fun b => b == 0x5C) (run jsStep (fun _ => []) ()) data

/-! ### The flags of `escapeSeqDecode` and `jsDecode` -/

theorem length_takeWhile_le {p : UInt8 → Bool} (n : Nat) (text : Bytes) :
    ((text.take n).takeWhile p).length ≤ text.length :=
  (List.takeWhile_prefix p).length_le.trans (List.take_prefix n text).length_le

theorem hexPair_length {t : Bytes} {v : UInt8} (h : hexPair t = some v) : 2 ≤ t.length := by
  unfold hexPair at h
  split at h
  · exact Nat.le_add_left 2 _
  · cases h

theorem hexQuad_length {t : Bytes} {v : UInt8} (h : hexQuad t = some v) : 4 ≤ t.length := by
  unfold hexQuad at h
  split at h
  · exact Nat.le_add_left 4 _
  · cases h

theorem escapeSeq_read (c : UInt8) (t : Bytes) :
    1 ≤ (escapeSeq c t).2 ∧ (escapeSeq c t).2 ≤ (c :: t).length := by
  have hone : 1 ≤ 1 ∧ 1 ≤ (c :: t).length := ⟨Nat.le_refl 1, Nat.le_add_left 1 _⟩
  unfold escapeSeq
  split
  · exact hone
  · split
    · rename_i hpair
      have hlen := hexPair_length (Option.ite_none_right_eq_some.mp hpair).2
      exact ⟨Nat.le_add_left 1 2, Nat.succ_le_succ hlen⟩
    · split
      · rename_i hdigit
        refine ⟨?_, length_takeWhile_le 3 (c :: t)⟩
        unfold octalDigits
        rw [take_succ_cons, takeWhile_cons_of_pos hdigit]
        exact Nat.le_add_left 1 _
      · exact hone

/-- **The flag of `escapeSeqDecode` is right.** -/
theorem escapeSeqDecode_tracks (input : Bytes) :
    Tracks input (escapeSeqDecode input).1 (escapeSeqDecode input).2 := by
  refine fromFirst_tracks _ (run_tracks ?_ ()) input
  intro _ b t
  unfold escapeSeqStep
  split
  · cases t with
    | nil => exact right_copy b []
    | cons c t => exact right_replace (escapeSeq_read c t).1 (escapeSeq_read c t).2 b
  · exact right_copy b t

theorem octalLoop_le (text : Bytes) (n j : Nat) : j < text.length →
    octalLoop text n j < text.length := by
  induction n generalizing j with
  | zero => exact fun h => h
  | succ n ih =>
    intro h
    unfold octalLoop
    split
    · exact h
    · rename_i c hc
      have hlt : j + 1 < text.length := (List.getElem?_eq_some_iff.mp hc).1
      split
      · exact ih (j + 1) hlt
      · exact hlt

theorem octalEscape_read {c : UInt8} (t : Bytes) (h : isODigit c = true) :
    1 ≤ (octalEscape (0x5C :: c :: t)).2 ∧
      (octalEscape (0x5C :: c :: t)).2 ≤ (c :: t).length := by
  have hlt : octalLoop (0x5C :: c :: t) 3 0 < (0x5C :: c :: t).length :=
    octalLoop_le _ 3 0 (by simp)
  have hpos : 1 ≤ octalLoop (0x5C :: c :: t) 3 0 := by
    have hmono : ∀ n j, j ≤ octalLoop (0x5C :: c :: t) n j := by
      intro n
      induction n with
      | zero => exact fun j => Nat.le_refl j
      | succ n ih =>
        intro j
        unfold octalLoop
        split
        · exact Nat.le_refl j
        · split
          · exact (Nat.le_succ j).trans (ih (j + 1))
          · exact Nat.le_succ j
    unfold octalLoop
    dsimp only [List.getElem?_cons_succ, List.getElem?_cons_zero]
    rw [if_pos h]
    exact hmono 2 1
  unfold octalEscape
  rw [length_cons] at hlt
  dsimp only
  split
  · rename_i hthree
    exact ⟨by decide, by omega⟩
  · exact ⟨hpos, Nat.le_of_lt_succ hlt⟩

theorem extLen_le {c : UInt8} {t : Bytes} (h : 0 < extLen c t) :
    extLen c t + 3 ≤ (c :: t).length := by
  unfold extLen at h ⊢
  split at h
  · rename_i brace rest
    split at h
    · rename_i hbrace
      rw [if_pos hbrace]
      have hle : jsExtendedUnicodeEscapeLen rest + 1 ≤ rest.length := by
        unfold jsExtendedUnicodeEscapeLen at h ⊢
        dsimp only at h ⊢
        split at h
        · cases h
        · rename_i hclosed
          rw [if_neg hclosed]
          rw [not_or, not_not] at hclosed
          exact (List.getElem?_eq_some_iff.mp hclosed.2).1
      rw [length_cons, length_cons]
      omega
    · cases h
  · cases h

theorem jsEscape_read (c : UInt8) (t : Bytes) :
    1 ≤ (jsEscape c t).2 ∧ (jsEscape c t).2 ≤ (c :: t).length := by
  unfold jsEscape
  split
  · rename_i h
    exact ⟨Nat.le_add_left 1 _, extLen_le h⟩
  · split
    · rename_i hquad
      have hlen := hexQuad_length (Option.ite_none_right_eq_some.mp hquad).2
      exact ⟨Nat.le_add_left 1 4, Nat.succ_le_succ hlen⟩
    · split
      · rename_i hpair
        have hlen := hexPair_length (Option.ite_none_right_eq_some.mp hpair).2
        exact ⟨Nat.le_add_left 1 2, Nat.succ_le_succ hlen⟩
      · split
        · rename_i hdigit
          exact octalEscape_read t hdigit
        · exact ⟨Nat.le_refl 1, Nat.le_add_left 1 _⟩

/-- **The flag of `jsDecode` is right.** -/
theorem jsDecode_tracks (data : Bytes) : Tracks data (jsDecode data).1 (jsDecode data).2 := by
  refine fromFirst_tracks _ (run_tracks ?_ ()) data
  intro _ b t
  unfold jsStep
  split
  · cases t with
    | nil => exact right_copy b []
    | cons c t => exact right_replace (jsEscape_read c t).1 (jsEscape_read c t).2 b
  · exact right_copy b t

/-! ### The flag of `cssDecode` -/

/-- The weight of a byte: bytes `0xEF` are not counted twice. -/
def cssWeight (b : UInt8) : Int := if b = 0xEF then -1 else 1

theorem cssWeight_le (l : Bytes) : (l.map cssWeight).sum ≤ l.length := by
  induction l with
  | nil => exact Int.le_refl 0
  | cons b l ih =>
    have hb : cssWeight b ≤ 1 := by
      unfold cssWeight
      split <;> decide
    rw [map_cons, sum_cons, length_cons]
    omega

theorem cssWeight_eq (l : Bytes) : 0xEF ∉ l → (l.map cssWeight).sum = l.length := by
  induction l with
  | nil => exact fun _ => rfl
  | cons b l ih =>
    intro h
    obtain ⟨hb, hl⟩ := not_or.mp (fun hmem => h (List.mem_cons.mpr hmem))
    rw [map_cons, sum_cons, length_cons, ih hl, cssWeight, if_neg (Ne.symm hb)]
    omega

theorem hexValue_lt : ∀ ds : Bytes, (∀ d ∈ ds, validHex d = true) →
    hexValue ds < 2 ^ (4 * ds.length) := by
  have hfold : ∀ (ds : Bytes) (code k : Nat), (∀ d ∈ ds, validHex d = true) → code < 2 ^ (4 * k) →
      ds.foldl (fun code d => code <<< 4 ||| (xsingle2c d).toNat) code
        < 2 ^ (4 * (k + ds.length)) := by
    intro ds
    induction ds with
    | nil => exact fun code k _ h => h
    | cons d ds ih =>
      intro code k hds h
      have hd : (xsingle2c d).toNat < 2 ^ 4 := xsingle2c_lt d (hds d (mem_cons_self ..))
      have hcode : code <<< 4 ||| (xsingle2c d).toNat < 2 ^ (4 * (k + 1)) := by
        refine Nat.or_lt_two_pow ?_ (hd.trans_le (Nat.pow_le_pow_right (by decide) (by omega)))
        rw [Nat.shiftLeft_eq, Nat.mul_add, Nat.pow_add]
        exact Nat.mul_lt_mul_of_pos_right h (by decide)
      have := ih _ (k + 1) (fun d hd => hds d (mem_cons_of_mem _ hd)) hcode
      rwa [Nat.add_right_comm] at this
  intro ds hds
  have := hfold ds 0 0 hds (by decide)
  rwa [Nat.zero_add] at this

/-- What is written for hexadecimal digits is not heavier than the digits. -/
theorem cssWeight_encodeRune {ds : Bytes} (hds : ∀ d ∈ ds, validHex d = true) (hne : ds ≠ []) :
    ((encodeRune (cssRune (hexValue ds))).map cssWeight).sum ≤ ds.length := by
  have hpos : 0 < ds.length := List.length_pos_iff.mpr hne
  have hlt := hexValue_lt ds hds
  by_cases hzero : hexValue ds = 0
  · have herror : ((encodeRune (cssRune 0)).map cssWeight).sum = 1 := by decide
    rw [hzero]
    omega
  · have hrune : cssRune (hexValue ds) ≤ hexValue ds := by
      unfold cssRune
      rw [if_neg hzero]
      dsimp only
      split <;> omega
    have hweight := cssWeight_le (encodeRune (cssRune (hexValue ds)))
    obtain ⟨h4, h3, h2, h1⟩ := length_encodeRune (cssRune (hexValue ds))
    have hle : (encodeRune (cssRune (hexValue ds))).length ≤ ds.length := by
      match hn : ds.length, hpos with
      | 1, _ =>
        rw [hn] at hlt
        exact h1 (hrune.trans_lt (hlt.trans (by decide)))
      | 2, _ =>
        rw [hn] at hlt
        exact h2 (hrune.trans_lt (hlt.trans (by decide)))
      | 3, _ =>
        rw [hn] at hlt
        exact h3 (hrune.trans_lt (hlt.trans (by decide)))
      | n + 4, _ => exact h4.trans (Nat.le_add_left 4 n)
    omega

theorem hexDigits_isPrefix (t : Bytes) : hexDigits t <+: t :=
  (List.takeWhile_prefix _).trans (List.take_prefix 6 t)

theorem cssWeight_escape (t : Bytes) :
    ((hexDigits t).length : Int) ≤ ((t.take (cssEscapeLen t)).map cssWeight).sum := by
  have hdigits : t.take (hexDigits t).length = hexDigits t :=
    (List.prefix_iff_eq_take.mp (hexDigits_isPrefix t)).symm
  have hhex : (((hexDigits t).map cssWeight).sum : Int) = (hexDigits t).length := by
    refine cssWeight_eq _ (fun hmem => ?_)
    have := mem_takeWhile_imp hmem
    cases this
  unfold cssEscapeLen
  rw [take_add, hdigits, map_append, sum_append, hhex]
  split
  · rename_i hspace
    cases hdrop : t.drop (hexDigits t).length with
    | nil => simp
    | cons b rest =>
      rw [hdrop] at hspace
      have hweight : cssWeight b = 1 := by
        unfold cssWeight
        rw [if_neg]
        rintro rfl
        cases hspace
      simp [hweight]
  · simp

/-- **Every escape of CSS makes a text lighter.** -/
theorem cssStep_lightens (state : Unit) (b : UInt8) (t : Bytes) :
    Lightens cssWeight (b :: t.take (cssStep state b t).further) (cssStep state b t).written
      (cssStep state b t).changed := by
  have hlighter : ∀ (written : Bytes) (further : Nat),
      (written.map cssWeight).sum < 1 + ((t.take further).map cssWeight).sum →
      Lightens cssWeight (0x5C :: t.take further) written true := by
    intro written further h
    exact ⟨Int.le_of_lt h, fun _ => h⟩
  unfold cssStep
  split
  · rename_i hb
    subst hb
    cases t with
    | nil => exact hlighter [] 0 (by decide)
    | cons c t =>
      dsimp only
      split
      · rename_i hdigits
        refine hlighter _ _ ?_
        have hread := cssWeight_escape (c :: t)
        have hhex : ∀ d ∈ hexDigits (c :: t), validHex d = true :=
          fun d hd => mem_takeWhile_imp hd
        have hwritten := cssWeight_encodeRune hhex hdigits
        exact Int.lt_of_le_of_lt (hwritten.trans hread) (Int.lt_add_of_pos_left _ (by decide))
      · split
        · rename_i hnewline
          refine hlighter [] 1 ?_
          rw [hnewline, take_succ_cons, take_zero]
          decide
        · refine hlighter [c] 1 ?_
          simp
  · exact ⟨Int.le_refl _, nofun⟩

/-- **The flag of `cssDecode` is right.** -/
theorem cssDecode_changed_iff (data : Bytes) :
    (cssDecode data).2 = true ↔ (cssDecode data).1 ≠ data := by
  refine fromFirst_changed_iff (fun b t hb => ?_) data
  have hlighter := run_lighter cssStep_lightens () (b :: t)
  refine hlighter.ne ?_
  rw [run_cons, Bool.or_eq_true]
  refine .inl ?_
  unfold cssStep
  rw [if_pos (beq_iff_eq.mp hb)]
  split
  · rfl
  · split_ifs <;> rfl

end Coraza.Transformations
