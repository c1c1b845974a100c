import Coraza.Transformations.Whitespace

/-!
# Upper and lower case

The transformations `uppercase` and `lowercase`.  The first compares the texts.  The second looks
for the first rune that it has to write in another way, copies everything before it and reports a
change without comparing anything.  That is right since it writes what `strings.ToLower` writes, and
such a rune is never written as it was: `lowerCase_eq`.
-/

namespace Coraza.Transformations

open Go Rewriting

def upperCase : Bytes → Bytes × Bool := compared Strings.toUpper

/-- Where `lowerCase` finds `firstChange`. -/
def lowerableAt (b : UInt8) (t : Bytes) : Bool :=
  if b.toNat < runeSelf then 0x41 ≤ b ∧ b ≤ 0x5A
  else (decodeRune (b :: t)).2 = 1 ∨
    Go.toLower (decodeRune (b :: t)).1 ≠ (decodeRune (b :: t)).1

def lowerCaseStep (_ : Unit) (b : UInt8) (t : Bytes) : Piece UInt8 Unit :=
  if b.toNat < runeSelf then replace [if 0x41 ≤ b ∧ b ≤ 0x5A then b + 0x20 else b] 0
  else if (decodeRune (b :: t)).2 = 1 then replace [0xEF, 0xBF, 0xBD] 0
  else replace (encodeRune (Go.toLower (decodeRune (b :: t)).1)) (runeFurther b t)

def lowerCase (data : Bytes) : Bytes × Bool :=
  fromPiece lowerableAt runeFurther
    (fun rest => ((run lowerCaseStep (fun _ => []) () rest).1, true)) data

/-! ### `lowercase` against `strings.ToLower` -/

theorem toLower_runeError : Go.toLower runeError = runeError := by decide

theorem toLower_cons_rune (b : UInt8) (t : Bytes) :
    Strings.toLower (b :: t) = encodeRune (Go.toLower (decodeRune (b :: t)).1)
      ++ Strings.toLower (t.drop (runeFurther b t)) := by
  rw [Strings.toLower, decodeRunes_cons, List.map_cons, drop_runeFurther]
  rfl

theorem lowerCaseStep_eq (b : UInt8) (t : Bytes) : lowerCaseStep () b t
    = replace (encodeRune (Go.toLower (decodeRune (b :: t)).1)) (runeFurther b t) := by
  unfold lowerCaseStep
  by_cases hascii : b.toNat < runeSelf
  · rw [if_pos hascii, runeFurther_ascii hascii, decodeRune_one hascii,
      Strings.encodeRune_lowerByte hascii]
    rfl
  · rw [if_neg hascii]
    by_cases hsize : (decodeRune (b :: t)).2 = 1
    · rw [if_pos hsize]
      unfold runeFurther
      rw [decodeRune_single (Nat.not_lt.mp hascii) hsize]
      rfl
    · rw [if_neg hsize]

theorem run_lowerCaseStep (data : Bytes) :
    (run lowerCaseStep (fun _ => []) () data).1 = Strings.toLower data := by
  refine run_induction (P := fun _ text written _ => written = Strings.toLower text)
    (fun _ => rfl) ?_ data ()
  rintro _ b t rest _ hrest
  rw [lowerCaseStep_eq] at hrest ⊢
  dsimp only [replace] at hrest ⊢
  rw [hrest, toLower_cons_rune]

theorem encodeRune_of_not_lowerableAt {b : UInt8} {t : Bytes} (h : lowerableAt b t = false) :
    encodeRune (Go.toLower (decodeRune (b :: t)).1) = b :: t.take (runeFurther b t) := by
  unfold lowerableAt at h
  by_cases hascii : b.toNat < runeSelf
  · rw [if_pos hascii, decide_eq_false_iff_not] at h
    rw [runeFurther_ascii hascii, decodeRune_one hascii, Strings.encodeRune_lowerByte hascii,
      Strings.lowerByte, if_neg h]
    rfl
  · rw [if_neg hascii, decide_eq_false_iff_not, not_or, not_not] at h
    rw [h.2, take_runeFurther]
    exact fun herror => h.1 (congrArg Prod.snd herror)

/-- A text whose first rune is not written as it is has another lower case. -/
theorem toLower_ne_of_lowerableAt {b : UInt8} {t : Bytes} (h : lowerableAt b t = true) :
    Strings.toLower (b :: t) ≠ b :: t := by
  intro heq
  rw [toLower_cons_rune] at heq
  have hread := decodeRune_encodeRune (Go.toLower (decodeRune (b :: t)).1)
    (Strings.toLower (t.drop (runeFurther b t)))
  rw [heq] at hread
  -- the rune is its own lower case
  have hsame : Go.toLower (decodeRune (b :: t)).1 = (decodeRune (b :: t)).1 := by
    have hrune := congrArg Prod.fst hread
    unfold cleanRune at hrune
    split at hrune
    · exact hrune.symm
    · rw [hrune]
      exact toLower_runeError
  unfold lowerableAt at h
  by_cases hascii : b.toNat < runeSelf
  · rw [if_pos hascii, decide_eq_true_eq] at h
    have hlower := Strings.encodeRune_lowerByte hascii
    rw [decodeRune_one hascii] at hsame
    rw [hsame, encodeRune_one hascii, Strings.lowerByte, if_pos h] at hlower
    have hbyte := congrArg UInt8.toNat (List.cons.inj hlower).1
    rw [UInt8.toNat_add, show (0x20 : UInt8).toNat = 32 from rfl] at hbyte
    omega
  · rw [if_neg hascii, decide_eq_true_eq] at h
    rcases h with hsize | hlower
    · -- a byte that is no rune is written as three
      have hwidth := congrArg Prod.snd hread
      rw [decodeRune_single (Nat.not_lt.mp hascii) hsize] at hwidth
      exact absurd hwidth (by decide)
    · exact hlower hsame

/-- **`lowercase` writes what `strings.ToLower` writes, and its flag compares the texts.** -/
theorem lowerCase_eq (data : Bytes) : lowerCase data = compared Strings.toLower data := by
  refine fromPiece_induction (P := fun text out => out = compared Strings.toLower text) rfl ?_ ?_
    data
  · intro b t hb
    have hne := toLower_ne_of_lowerableAt hb
    unfold compared
    rw [run_lowerCaseStep, decide_eq_true hne.symm]
  · rintro b t _ hb rfl
    have hcopied := toLower_cons_rune b t
    rw [encodeRune_of_not_lowerableAt hb] at hcopied
    unfold compared
    rw [hcopied]
    refine Prod.ext rfl (decide_eq_decide.mpr (not_congr ?_))
    have hsplit : b :: t = (b :: t.take (runeFurther b t)) ++ t.drop (runeFurther b t) := by
      rw [List.cons_append, List.take_append_drop]
    constructor
    · intro h
      rw [← h]
      exact hsplit
    · exact fun h => List.append_cancel_left (hsplit.symm.trans h)

end Coraza.Transformations
