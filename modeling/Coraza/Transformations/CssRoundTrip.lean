import Coraza.Transformations.JsRoundTrip

/-!
# Writing characters as escapes of CSS

In CSS a character is written as a backslash with six hexadecimal digits, as a backslash with fewer
digits and one white space that ends them, or as itself.  `CssChar` is a character with such a
choice, and `css_escapes_read` says that `cssDecode` gives the text back in UTF-8.

The decoder takes as many as six digits and then one white space, if there is one.  Six digits need
nothing to end them, so a white space that is a character of its own must not come next;
`NotAbsorbed` excludes this and nothing else.
-/

namespace Coraza.Transformations

open Go Rewriting List

/-! ### Hexadecimal digits -/

/-- The last hexadecimal digits of a number, as many as there are choices of upper or lower case. -/
def hexText : List Bool → Nat → Bytes
  | [], _ => []
  | upper :: uppers, n =>
    hexDigit upper (UInt8.ofNat (n / 16 ^ uppers.length % 16)) :: hexText uppers n

theorem hexDigit_value (upper : Bool) (n : Nat) (h : n < 16) :
    validHex (hexDigit upper (UInt8.ofNat n)) = true ∧
      (xsingle2c (hexDigit upper (UInt8.ofNat n))).toNat = n := by
  have hall : ∀ (upper : Bool) (n : Fin 16), validHex (hexDigit upper (UInt8.ofNat n)) = true ∧
      (xsingle2c (hexDigit upper (UInt8.ofNat n))).toNat = n := by decide
  exact hall upper ⟨n, h⟩

theorem length_hexText (uppers : List Bool) (n : Nat) :
    (hexText uppers n).length = uppers.length := by
  induction uppers with
  | nil => rfl
  | cons upper uppers ih => simp [hexText, ih]

theorem validHex_hexText (uppers : List Bool) (n : Nat) :
    ∀ d ∈ hexText uppers n, validHex d = true := by
  induction uppers with
  | nil => simp [hexText]
  | cons upper uppers ih =>
    simp only [hexText, mem_cons, forall_eq_or_imp]
    exact ⟨(hexDigit_value upper _ (Nat.mod_lt _ (by decide))).1, ih⟩

theorem hexValue_hexText {uppers : List Bool} {n : Nat} (h : n < 16 ^ uppers.length) :
    hexValue (hexText uppers n) = n := by
  have hfold : ∀ (uppers : List Bool) (code : Nat),
      (hexText uppers n).foldl (fun code d => code <<< 4 ||| (xsingle2c d).toNat) code
        = code * 16 ^ uppers.length + n % 16 ^ uppers.length := by
    intro uppers
    induction uppers with
    | nil => simp [hexText, Nat.mod_one]
    | cons upper uppers ih =>
      intro code
      have hlt : n / 16 ^ uppers.length % 16 < 16 := Nat.mod_lt _ (by decide)
      rw [hexText, foldl_cons, (hexDigit_value upper _ hlt).2, ih, length_cons,
        ← Nat.shiftLeft_add_eq_or_of_lt (i := 4) hlt, Nat.shiftLeft_eq, Nat.mod_pow_succ]
      ring
  rw [hexValue, hfold, Nat.zero_mul, Nat.zero_add, Nat.mod_eq_of_lt h]

/-! ### The escapes -/

/-- The ways to write a character; the cases of its digits are part of the choice. -/
inductive CssForm where
  | six (uppers : List Bool)
  | spaced (uppers : List Bool) (space : UInt8)
  | literal

/-- Can a character be written this way? -/
def CssForm.Fits (rune : Nat) : CssForm → Prop
  | six uppers => uppers.length = 6
  | spaced uppers space =>
    1 ≤ uppers.length ∧ uppers.length ≤ 5 ∧ rune < 16 ^ uppers.length ∧ isspace space = true
  | literal => rune ≠ 0x5C

/-- A character that an escape can stand for, with the way it is written. -/
structure CssChar where
  rune : Nat
  form : CssForm
  scalar : validRune rune = true
  ne_zero : rune ≠ 0
  narrow : ¬(0xFF01 ≤ rune ∧ rune ≤ 0xFF5E)
  fits : form.Fits rune

def CssChar.text (x : CssChar) : Bytes :=
  match x.form with
  | .six uppers => 0x5C :: hexText uppers x.rune
  | .spaced uppers space => 0x5C :: (hexText uppers x.rune ++ [space])
  | .literal => encodeRune x.rune

/-- After six digits there is no white space that is written as itself. -/
def NotAbsorbed (x y : CssChar) : Prop :=
  (∃ uppers, x.form = .six uppers) → y.form = .literal →
    y.rune ∉ [0x20, 0x0C, 0x0A, 0x09, 0x0D, 0x0B]

theorem CssChar.cssRune_eq (x : CssChar) : cssRune x.rune = x.rune := by
  simp only [cssRune, x.ne_zero, if_false, x.narrow]

theorem run_css_escape {t : Bytes} (h : hexDigits t ≠ []) :
    (run cssStep (fun _ => []) () (0x5C :: t)).1
      = encodeRune (cssRune (hexValue (hexDigits t)))
        ++ (run cssStep (fun _ => []) () (t.drop (cssEscapeLen t))).1 := by
  have hstep : cssStep () 0x5C t
      = replace (encodeRune (cssRune (hexValue (hexDigits t)))) (cssEscapeLen t) := by
    cases t with
    | nil => exact absurd rfl h
    | cons c t => simp only [cssStep, if_true, h, ne_eq, not_false_eq_true]
  rw [run_cons, hstep]
  rfl

theorem hexDigits_append {ds rest : Bytes} (hds : ∀ d ∈ ds, validHex d = true)
    (hend : ds.length = 6 ∨ ds.length < 6 ∧ ∀ b ∈ rest.head?, validHex b = false) :
    hexDigits (ds ++ rest) = ds := by
  have hall : ds.takeWhile validHex = ds := List.takeWhile_eq_self_iff.mpr hds
  unfold hexDigits
  rcases hend with hsix | ⟨hlt, hstop⟩
  · rw [take_append_of_le_length (Nat.le_of_eq hsix.symm), ← hsix, take_length, hall]
  · rw [take_append, take_of_length_le (Nat.le_of_lt hlt),
      takeWhile_append_of_pos hds]
    cases rest with
    | nil => simp
    | cons b rest =>
      obtain ⟨k, hk⟩ : ∃ k, 6 - ds.length = k + 1 := ⟨5 - ds.length, by omega⟩
      rw [hk, take_succ_cons, takeWhile_cons_of_neg (by simp [hstop b rfl]), append_nil]

theorem run_css_copy (rest : Bytes) (bs : Bytes) : 0x5C ∉ bs →
    (run cssStep (fun _ => []) () (bs ++ rest)).1
      = bs ++ (run cssStep (fun _ => []) () rest).1 := by
  induction bs with
  | nil => intro _; rfl
  | cons b bs ih =>
    intro h
    obtain ⟨hb, hbs⟩ := not_or.mp (fun hmem => h (List.mem_cons.mpr hmem))
    have hcopy : cssStep () b (bs ++ rest) = copy b := by
      simp only [cssStep, Ne.symm hb, if_false]
    rw [cons_append, run_cons, hcopy]
    dsimp only [copy]
    rw [drop_zero, ih hbs]
    rfl

theorem isspace_validHex : ∀ b : UInt8, isspace b = true → validHex b = false :=
  UInt8.forall_of_fin (by decide +kernel)

theorem backslash_encodeRune {r : Nat} (h : r ≠ 0x5C) : 0x5C ∉ encodeRune r := by
  intro hmem
  rcases encodeRune_ascii r with ⟨hr, henc⟩ | ⟨hr, -⟩
  · rw [henc, mem_singleton] at hmem
    have hnat := congrArg UInt8.toNat hmem
    rw [UInt8.toNat_ofNat_lt (by omega)] at hnat
    exact h hnat.symm
  · have hhigh := encodeRune_high hr 0x5C hmem
    exact absurd hhigh (by decide)

/-- **One character**: what is read for it, if what follows does not begin with white space after
six digits. -/
theorem run_cssChar (x : CssChar) {rest : Bytes}
    (h : (∃ uppers, x.form = .six uppers) → startsSpace rest = false) :
    (run cssStep (fun _ => []) () (x.text ++ rest)).1
      = encodeRune x.rune ++ (run cssStep (fun _ => []) () rest).1 := by
  have hfits := x.fits
  unfold CssChar.text
  cases hform : x.form with
  | six uppers =>
    rw [hform] at hfits
    have hsix : uppers.length = 6 := hfits
    have hdigits : hexDigits (hexText uppers x.rune ++ rest) = hexText uppers x.rune :=
      hexDigits_append (validHex_hexText uppers x.rune) (.inl (by rw [length_hexText, hsix]))
    have hvalue : hexValue (hexText uppers x.rune) = x.rune := by
      refine hexValue_hexText ?_
      have hmax := (validRune_iff.mp x.scalar).1
      rw [hsix]
      omega
    have hlen : cssEscapeLen (hexText uppers x.rune ++ rest) = (hexText uppers x.rune).length := by
      simp [cssEscapeLen, hdigits, h ⟨uppers, hform⟩]
    have hne : hexDigits (hexText uppers x.rune ++ rest) ≠ [] := by
      rw [hdigits, ← length_pos_iff, length_hexText]
      omega
    dsimp only [cons_append]
    rw [run_css_escape hne, hdigits, hvalue, x.cssRune_eq, hlen, drop_left]
  | spaced uppers space =>
    rw [hform] at hfits
    obtain ⟨hone, hfive, hlt, hspace⟩ := hfits
    have hdigits : hexDigits (hexText uppers x.rune ++ space :: rest) = hexText uppers x.rune := by
      refine hexDigits_append (validHex_hexText uppers x.rune) (.inr ⟨?_, ?_⟩)
      · rw [length_hexText]
        omega
      · rintro b ⟨⟩
        exact isspace_validHex space hspace
    have hlen : cssEscapeLen (hexText uppers x.rune ++ space :: rest)
        = (hexText uppers x.rune).length + 1 := by
      simp [cssEscapeLen, hdigits, startsSpace, hspace]
    have hne : hexDigits (hexText uppers x.rune ++ space :: rest) ≠ [] := by
      rw [hdigits, ← length_pos_iff, length_hexText]
      omega
    dsimp only [cons_append]
    rw [append_assoc, singleton_append, run_css_escape hne, hdigits,
      hexValue_hexText hlt, x.cssRune_eq, hlen, drop_append, drop_of_length_le (by omega)]
    simp
  | literal =>
    rw [hform] at hfits
    exact run_css_copy rest _ (backslash_encodeRune hfits)

/-! ### A text -/

theorem CssChar.startsSpace_append (x : CssChar) (rest : Bytes)
    (h : x.form = .literal → x.rune ∉ [0x20, 0x0C, 0x0A, 0x09, 0x0D, 0x0B]) :
    startsSpace (x.text ++ rest) = false := by
  unfold text
  cases hform : x.form with
  | six uppers => rfl
  | spaced uppers space => rfl
  | literal =>
    have hrune := h hform
    rcases encodeRune_ascii x.rune with ⟨hr, henc⟩ | ⟨hr, b, t, henc, hb⟩
    · have hall : ∀ r : Fin 0x80, (r : Nat) ∉ [0x20, 0x0C, 0x0A, 0x09, 0x0D, 0x0B] →
          isspace (UInt8.ofNat r) = false := by decide
      simpa [henc, startsSpace] using hall ⟨x.rune, hr⟩ hrune
    · have hall : ∀ b : UInt8, 0x80 ≤ b.toNat → isspace b = false :=
        UInt8.forall_of_fin (by decide +kernel)
      simpa [henc, startsSpace] using hall b hb

theorem cssStep_copy (b : UInt8) (t : Bytes) (h : (b == 0x5C) = false) :
    cssStep () b t = copy b := by
  simp only [cssStep, beq_eq_false_iff_ne.mp h, if_false]

theorem run_cssChars (xs : List CssChar) : xs.IsChain NotAbsorbed →
    (run cssStep (fun _ => []) () (xs.flatMap CssChar.text)).1
      = encodeRunes (xs.map CssChar.rune) := by
  induction xs with
  | nil => intro _; rfl
  | cons x xs ih =>
    intro hchain
    have hnext : (∃ uppers, x.form = .six uppers) →
        startsSpace (xs.flatMap CssChar.text) = false := by
      intro hsix
      cases xs with
      | nil => rfl
      | cons y ys =>
        exact y.startsSpace_append _ (List.isChain_cons_cons.mp hchain |>.1 hsix)
    rw [flatMap_cons, run_cssChar x hnext, ih hchain.of_cons]
    rfl

/-- **Escapes of CSS are read back.**  Whatever characters are written, each with six digits, with
fewer digits and a white space, or as itself, `cssDecode` gives their encoding in UTF-8, if no white
space is written as itself right after six digits. -/
theorem css_escapes_read (xs : List CssChar) (h : xs.IsChain NotAbsorbed) :
    (cssDecode (xs.flatMap CssChar.text)).1 = encodeRunes (xs.map CssChar.rune) := by
  have hrun : (cssDecode (xs.flatMap CssChar.text)).1
      = (fromFirst (fun b => b == 0x5C) (run cssStep (fun _ => []) ())
          (xs.flatMap CssChar.text)).1 := by
    unfold cssDecode cssDecodeInplace fromFirst
    split <;> rfl
  rw [hrun, fromFirst_run cssStep_copy, run_cssChars xs h]

/-- `\0000e9`, `\4a ` and a literal `b` are read as `éJb`. -/
theorem css_escapes_read_three : ∃ xs : List CssChar, xs.flatMap CssChar.text
        = [0x5C, 0x30, 0x30, 0x30, 0x30, 0x65, 0x39, 0x5C, 0x34, 0x61, 0x20, 0x62] ∧
      (cssDecode (xs.flatMap CssChar.text)).1 = encodeRunes (xs.map CssChar.rune) := by
  refine ⟨[⟨0xE9, .six [false, false, false, false, false, false], by decide, by decide, by decide,
      rfl⟩,
    ⟨0x4A, .spaced [false, false] 0x20, by decide, by decide, by decide,
      ⟨by decide, by decide, by decide, by decide⟩⟩,
    ⟨0x62, .literal, by decide, by decide, by decide, fun h => absurd h (by decide)⟩],
    by decide +kernel, css_escapes_read _ ?_⟩
  refine List.isChain_cons_cons.mpr ⟨?_, List.isChain_cons_cons.mpr ⟨?_, .singleton _⟩⟩
  · intro _ hform
    cases hform
  · rintro ⟨uppers, hform⟩
    cases hform

end Coraza.Transformations
