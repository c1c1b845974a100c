import Coraza.Operators.Ascii

/-!
# Searching one literal without regard to ASCII case

Two searches of `rxprefilter.go` for a needle in lower case.
`containsFoldASCIIOnly` looks for the rarest byte of the needle, in either case,
and compares around it.  A `FoldedLiteralMatcher` is a Horspool search: the byte
under the end of the needle says how far the needle may be moved.  Both are loops
with jumps, and both find the needle exactly where it is a contiguous part of the
text with its ASCII letters in lower case: `containsFoldASCIIOnly_iff` and
`FoldedLiteralMatcher.match_iff`, put together in `folded_search_exact`.

The table of the Horspool search is built by overwriting entries; `ShiftTable`
is what every round of the construction keeps.
-/

namespace Coraza.Operators

open Go List Strings

/-! ### The anchor -/

/-- The index of the rarest byte of a needle, the first one among equals. -/
def rarestIndex (needle : Bytes) : Nat :=
  (List.range' 1 (needle.length - 1)).foldl
    (fun anchor index =>
      if byteRarity (needle.getD index 0) > byteRarity (needle.getD anchor 0) then index
      else anchor) 0

theorem rarestIndex_lt {needle : Bytes} (h : needle ≠ []) : rarestIndex needle < needle.length := by
  have hpos := List.length_pos_iff.mpr h
  refine List.foldlRecOn (motive := fun a => a < needle.length) _ _ hpos (fun a ha i hi => ?_)
  split
  · rw [mem_range'_1] at hi
    omega
  · exact ha

/-- Where a needle occurs in the folded text, the text has the needle's byte in
one of its cases. -/
theorem lowerByte_getD_occurrence {value needle : Bytes} {start i : Nat}
    (h : needle <+: (value.map lowerByte).drop start) (hi : i < needle.length) :
    lowerByte (value.getD (start + i) 0) = needle.getD i 0 := by
  rw [← getD_map_lowerByte, Scan.prefix_drop_getD 0 h hi]

/-! ### The anchored search -/

/-- The first position of `lower` or, where it is another byte, `upper`. -/
def nextAnchor (candidates : Bytes) (lower upper : UInt8) : Option Nat :=
  let next := indexByte candidates lower
  if upper ≠ lower then
    match next, indexByte candidates upper with
    | none, upperNext => upperNext
    | some n, some u => if u < n then some u else some n
    | some n, none => some n
  else next

section

variable (s needle : Bytes)

def lastAnchor : Nat := s.length - needle.length + rarestIndex needle

def anchorNext (searchStart : Nat) : Option Nat :=
  let lower := needle.getD (rarestIndex needle) 0
  nextAnchor ((s.drop searchStart).take (lastAnchor s needle + 1 - searchStart)) lower
    (upperByte lower)

def anchorFound (searchStart : Nat) : Bool :=
  match anchorNext s needle searchStart with
  | none => false
  | some next =>
    let candidate := searchStart + next - rarestIndex needle
    equalFoldASCIIBytes ((s.drop candidate).take needle.length) needle

/-- To the position after the next anchor; without one the loop is over. -/
def anchorStep (searchStart : Nat) : Nat :=
  match anchorNext s needle searchStart with
  | none => lastAnchor s needle + 1
  | some next => next + 1

def containsFoldASCIIOnly : Bool :=
  if needle.length = 0 then true
  else if s.length < needle.length then false
  else
    Scan.scan (lastAnchor s needle + 1) (anchorFound s needle) (anchorStep s needle)
      (lastAnchor s needle + 1) (rarestIndex needle)

end

/-- `containsFoldASCII`: a needle outside ASCII is never ruled out. -/
def containsFoldASCII (s needle : Bytes) : Bool :=
  if needle.length = 0 then true
  else if s.length < needle.length then false
  else if isASCII needle then containsFoldASCIIOnly s needle
  else true

theorem nextAnchor_eq (lower upper : UInt8) : ∀ cs : Bytes,
    nextAnchor cs lower upper = cs.findIdx? (fun b => b == lower || b == upper) := by
  intro cs
  by_cases hul : upper = lower
  · subst hul
    simp [nextAnchor, indexByte]
  · induction cs with
    | nil => simp [nextAnchor, indexByte]
    | cons b cs ih =>
      simp only [nextAnchor, indexByte, if_pos (show upper ≠ lower from hul),
        List.findIdx?_cons] at ih ⊢
      by_cases hl : b = lower
      · subst hl
        have hu : (b == upper) = false := beq_false_of_ne (Ne.symm hul)
        simp only [hu, beq_self_eq_true]
        cases List.findIdx? (fun c => c == upper) cs <;> simp
      · have hl' : (b == lower) = false := beq_false_of_ne hl
        by_cases hu : b = upper
        · subst hu
          simp only [hl', beq_self_eq_true]
          cases List.findIdx? (fun b => b == lower) cs <;> simp
        · have hu' : (b == upper) = false := beq_false_of_ne hu
          simp only [hl', hu', ← ih]
          cases List.findIdx? (fun b => b == lower) cs <;>
            cases List.findIdx? (fun b => b == upper) cs <;> simp
          split <;> simp_all

theorem nextAnchor_none {cs : Bytes} {lower upper : UInt8}
    (h : nextAnchor cs lower upper = none) {b : UInt8} (hb : b ∈ cs) :
    b ≠ lower ∧ b ≠ upper := by
  rw [nextAnchor_eq, List.findIdx?_eq_none_iff] at h
  have hf := h b hb
  simp only [Bool.or_eq_false_iff, beq_eq_false_iff_ne] at hf
  exact hf

theorem nextAnchor_some {cs : Bytes} {lower upper : UInt8} {k : Nat}
    (h : nextAnchor cs lower upper = some k) :
    k < cs.length ∧ ∀ i < k, cs.getD i 0 ≠ lower ∧ cs.getD i 0 ≠ upper := by
  rw [nextAnchor_eq, List.findIdx?_eq_some_iff_getElem] at h
  obtain ⟨hk, _, hbefore⟩ := h
  refine ⟨hk, fun i hi => ?_⟩
  have hf := hbefore i hi
  simp only [Bool.or_eq_true, beq_iff_eq, not_or] at hf
  rw [getD_eq_getElem?_getD, List.getElem?_eq_getElem (hi.trans hk)]
  exact hf

section

variable {s needle : Bytes}

theorem getD_of_prefix_anchor {j : Nat} (hn : needle ≠ [])
    (h : needle <+: (s.map lowerByte).drop (j - rarestIndex needle)) (hj : rarestIndex needle ≤ j) :
    let lower := needle.getD (rarestIndex needle) 0
    s.getD j 0 = lower ∨ s.getD j 0 = upperByte lower := by
  have hlow := lowerByte_getD_occurrence h (rarestIndex_lt hn)
  rw [Nat.sub_add_cancel hj] at hlow
  exact lowerByte_eq_cases hlow

theorem getD_slice {i j n : Nat} (hij : i ≤ j) (hj : j < n) :
    ((s.drop i).take (n - i)).getD (j - i) 0 = s.getD j 0 := by
  rw [getD_eq_getElem?_getD, getD_eq_getElem?_getD,
    List.getElem?_take_of_lt (by omega), List.getElem?_drop, Nat.add_sub_cancel' hij]

theorem anchor_skips (hn : needle ≠ []) (hlen : needle.length ≤ s.length) :
    Scan.Skips (rarestIndex needle) (lastAnchor s needle + 1) (anchorFound s needle)
      (anchorStep s needle) (fun j => rarestIndex needle ≤ j ∧
        needle <+: (s.map lowerByte).drop (j - rarestIndex needle)) := by
  have ha := rarestIndex_lt hn
  -- no anchor byte at `j`, so no needle around it
  have hmiss : ∀ {j : Nat}, rarestIndex needle ≤ j →
      (s.getD j 0 ≠ needle.getD (rarestIndex needle) 0 ∧
        s.getD j 0 ≠ upperByte (needle.getD (rarestIndex needle) 0)) →
      ¬ (rarestIndex needle ≤ j ∧
        needle <+: (s.map lowerByte).drop (j - rarestIndex needle)) := by
    rintro j hj ⟨hlo, hup⟩ ⟨_, h⟩
    rcases getD_of_prefix_anchor hn h hj with he | he
    · exact hlo he
    · exact hup he
  refine ⟨?_, ?_, ?_⟩
  · intro i hi hin hf
    unfold anchorFound at hf
    split at hf
    · cases hf
    · rename_i next hnext
      obtain ⟨hk, _⟩ := nextAnchor_some hnext
      simp only [length_take, lastAnchor] at hk hin
      refine ⟨i + next, by omega, by simp only [lastAnchor]; omega, by omega, ?_⟩
      exact (equalFoldASCIIBytes_slice (by omega)).mp hf
  · intro i _ _ _
    unfold anchorStep
    split <;> exact Nat.succ_pos _
  · intro i hi hin hf j hij hjstep hjn
    unfold anchorFound at hf
    unfold anchorStep at hjstep
    split at hf
    · rename_i hnext
      have hlt : j - i < ((s.drop i).take (lastAnchor s needle + 1 - i)).length := by
        simp only [length_take, length_drop, lastAnchor] at hjn ⊢
        omega
      refine hmiss (by omega) (nextAnchor_none hnext ?_)
      rw [← getD_slice hij hjn, getD_eq_getElem?_getD, List.getElem?_eq_getElem hlt,
        Option.getD_some]
      exact getElem_mem hlt
    · rename_i next hnext
      obtain ⟨hk, hbefore⟩ := nextAnchor_some hnext
      simp only [hnext] at hjstep
      rcases (show j < i + next ∨ j = i + next by omega) with hlt | heq
      · have hb := hbefore (j - i) (by omega)
        rw [getD_slice hij hjn] at hb
        exact hmiss (by omega) hb
      · rintro ⟨_, h⟩
        simp only [length_take, lastAnchor] at hk
        rw [heq] at h
        have hfound := (equalFoldASCIIBytes_slice (by omega)).mpr h
        exact absurd (hfound.symm.trans hf) (by decide)

/-- **The anchored search is exact.** -/
theorem containsFoldASCIIOnly_iff (s needle : Bytes) :
    containsFoldASCIIOnly s needle = true ↔ needle <:+: s.map lowerByte := by
  unfold containsFoldASCIIOnly
  by_cases hn : needle = []
  · subst hn
    simp
  have hpos := List.length_pos_iff.mpr hn
  rw [if_neg (by omega)]
  by_cases hlen : s.length < needle.length
  · rw [if_pos hlen]
    refine ⟨fun h => (nomatch h), fun h => ?_⟩
    have := h.length_le
    rw [length_map] at this
    omega
  rw [if_neg hlen, (anchor_skips hn (Nat.not_lt.mp hlen)).scan_iff _ _ (le_refl _) (by omega),
    Scan.infix_iff_prefix_drop]
  constructor
  · rintro ⟨j, _, _, _, h⟩
    exact ⟨_, h⟩
  · rintro ⟨k, h⟩
    have hk := Scan.prefix_drop_length h hn
    rw [length_map] at hk
    refine ⟨k + rarestIndex needle, by omega, ?_, by omega, by rwa [Nat.add_sub_cancel]⟩
    simp only [lastAnchor]
    omega

end

theorem containsFoldASCII_iff {s needle : Bytes} (h : isASCII needle = true) :
    containsFoldASCII s needle = true ↔ needle <:+: s.map lowerByte := by
  unfold containsFoldASCII
  split
  · rename_i hn
    have hnil : needle = [] := List.length_eq_zero_iff.mp hn
    subst hnil
    simp
  split
  · rename_i hlen
    refine ⟨fun h => (nomatch h), fun h => ?_⟩
    have := h.length_le
    rw [length_map] at this
    omega
  · exact containsFoldASCIIOnly_iff s needle

/-! ### The Horspool search -/

/-- `foldedLiteralMatcher`.  A shift is a `uint16`; the values stored are capped
at its maximum. -/
structure FoldedLiteralMatcher where
  needle : Bytes
  shift : UInt8 → Nat
  anchorLower : UInt8
  anchorUpper : UInt8
  indexed : Bool

def maxShift16 : Nat := 0xFFFF

namespace FoldedLiteralMatcher

def setShift (needle : Bytes) (table : UInt8 → Nat) (index : Nat) : UInt8 → Nat :=
  let shift := min (needle.length - 1 - index) maxShift16
  let lower := lowerByte (needle.getD index 0)
  let table := Scan.lowerAt table (lower, shift)
  if 0x61 ≤ lower.toNat ∧ lower.toNat ≤ 0x7A then
    Function.update table (upperByte lower) (table lower)
  else table

def build (needle : Bytes) : FoldedLiteralMatcher :=
  { needle
    shift := (List.range (needle.length - 1)).foldl (setShift needle)
      (fun _ => min needle.length maxShift16)
    anchorLower := needle.getD (rarestIndex needle) 0
    anchorUpper := upperByte (needle.getD (rarestIndex needle) 0)
    indexed := true }

def new (needle : Bytes) : FoldedLiteralMatcher :=
  if needle.length < 2 ∨ isASCII needle = false then
    { needle, shift := fun _ => 0, anchorLower := 0, anchorUpper := 0, indexed := false }
  else build needle

def found (matcher : FoldedLiteralMatcher) (value : Bytes) (last : Nat) : Bool :=
  let start := last + 1 - matcher.needle.length
  equalFoldASCIIBytes ((value.drop start).take matcher.needle.length) matcher.needle

def «match» (matcher : FoldedLiteralMatcher) (value : Bytes) : Bool :=
  if matcher.indexed = false then containsFoldASCII value matcher.needle
  else if (indexByte value matcher.anchorLower).isNone ∧
      (matcher.anchorUpper = matcher.anchorLower ∨
        (indexByte value matcher.anchorUpper).isNone) then false
  else
    Scan.scan value.length (matcher.found value)
      (fun last => matcher.shift (lowerByte (value.getD last 0)))
      value.length (matcher.needle.length - 1)

/-! ### The shift table -/

/-- What `k` rounds establish: a shift is never `0` and never past the needle,
and it does not move the byte beyond one of the first `k` places it has in the
needle. -/
structure ShiftTable (needle : Bytes) (k : Nat) (table : UInt8 → Nat) : Prop where
  pos : ∀ c, 0 < table c
  le_length : ∀ c, table c ≤ needle.length
  le_place : ∀ i < k, table (lowerByte (needle.getD i 0)) ≤ needle.length - 1 - i

variable {needle : Bytes} {k : Nat} {table : UInt8 → Nat}

theorem ShiftTable.lower (h : ShiftTable needle k table) (hk : k < needle.length - 1) :
    ShiftTable needle (k + 1) (Scan.lowerAt table
      (lowerByte (needle.getD k 0), min (needle.length - 1 - k) maxShift16)) := by
  refine ⟨Scan.lowerAt_pos h.pos (by simp only [maxShift16]; omega),
    fun c => (Scan.lowerAt_le table _ c).trans (h.le_length c), fun i hi => ?_⟩
  rcases Nat.lt_succ_iff_lt_or_eq.mp hi with hlt | rfl
  · exact (Scan.lowerAt_le table _ _).trans (h.le_place i hlt)
  · exact (Scan.lowerAt_self_le table _).trans (min_le_left _ _)

/-- Overwriting the entry of an upper-case letter is not seen: a byte is folded
before it is looked up. -/
theorem ShiftTable.update_upper (h : ShiftTable needle k table) {lower : UInt8}
    (hl : 0x61 ≤ lower.toNat ∧ lower.toNat ≤ 0x7A) :
    ShiftTable needle k (Function.update table (upperByte lower) (table lower)) := by
  refine ⟨fun x => ?_, fun x => ?_, fun i hi => ?_⟩
  · rw [Function.update_apply]
    split
    · exact h.pos lower
    · exact h.pos x
  · rw [Function.update_apply]
    split
    · exact h.le_length lower
    · exact h.le_length x
  · have hne : lowerByte (needle.getD i 0) ≠ upperByte lower := by
      intro heq
      have hup := toNat_upperByte lower
      rw [if_pos hl, ← heq] at hup
      have := lowerByte_not_upper (needle.getD i 0)
      omega
    rw [Function.update_of_ne hne]
    exact h.le_place i hi

theorem ShiftTable.setShift (h : ShiftTable needle k table) (hk : k < needle.length - 1) :
    ShiftTable needle (k + 1) (setShift needle table k) := by
  have hlow := h.lower hk
  unfold FoldedLiteralMatcher.setShift
  dsimp only
  split
  · rename_i hl
    exact hlow.update_upper hl
  · exact hlow

theorem shiftTable_fold (needle : Bytes) (hn : needle ≠ []) : ∀ k ≤ needle.length - 1,
    ShiftTable needle k ((List.range k).foldl (FoldedLiteralMatcher.setShift needle)
      (fun _ => min needle.length maxShift16)) := by
  intro k
  have hpos := List.length_pos_iff.mpr hn
  induction k with
  | zero =>
    intro _
    refine ⟨fun _ => ?_, fun _ => min_le_left _ _, fun i hi => absurd hi (Nat.not_lt_zero i)⟩
    simp only [range_zero, foldl_nil, maxShift16]
    omega
  | succ k ih =>
    intro hk
    rw [range_succ, foldl_append, foldl_cons]
    exact (ih (by omega)).setShift (by omega)

/-! ### Exactness -/

theorem skips (hn : needle ≠ []) (ht : ShiftTable needle (needle.length - 1) table)
    (value : Bytes) :
    Scan.Skips (needle.length - 1) value.length
      (fun last => equalFoldASCIIBytes
        ((value.drop (last + 1 - needle.length)).take needle.length) needle)
      (fun last => table (lowerByte (value.getD last 0)))
      (fun last => needle <+: (value.map lowerByte).drop (last + 1 - needle.length)) := by
  have hpos := List.length_pos_iff.mpr hn
  refine ⟨?_, fun _ _ _ _ => ht.pos _, ?_⟩
  · intro i hi hin hf
    exact ⟨i, le_refl i, hin, (equalFoldASCIIBytes_slice (by omega)).mp hf⟩
  · intro i hi hin hf j hij hstep hjn hocc
    rcases Nat.eq_or_lt_of_le hij with rfl | hlt
    · exact absurd ((equalFoldASCIIBytes_slice (by omega)).mpr hocc) (by simp [hf])
    · -- the byte at `i` is the needle's byte `j - i` places before its end
      have hle := ht.le_length (lowerByte (value.getD i 0))
      have hplace : needle.length - 1 - (j - i) < needle.length - 1 := by omega
      have hbyte := lowerByte_getD_occurrence hocc
        (show needle.length - 1 - (j - i) < needle.length by omega)
      rw [show j + 1 - needle.length + (needle.length - 1 - (j - i)) = i by omega] at hbyte
      have hfix : lowerByte (needle.getD (needle.length - 1 - (j - i)) 0)
          = lowerByte (value.getD i 0) := by
        rw [← hbyte, lowerByte_lowerByte]
      have hshift := ht.le_place _ hplace
      rw [hfix] at hshift
      omega

theorem anchor_mem {value : Bytes} (hn : needle ≠ []) (h : needle <:+: value.map lowerByte) :
    needle.getD (rarestIndex needle) 0 ∈ value ∨
      upperByte (needle.getD (rarestIndex needle) 0) ∈ value := by
  obtain ⟨k, hk⟩ := Scan.infix_iff_prefix_drop.mp h
  have ha := rarestIndex_lt hn
  have hlen := Scan.prefix_drop_length hk hn
  rw [length_map] at hlen
  have hidx : k + rarestIndex needle < value.length := by omega
  have hmem : value.getD (k + rarestIndex needle) 0 ∈ value := by
    rw [getD_eq_getElem?_getD, List.getElem?_eq_getElem hidx]
    exact getElem_mem hidx
  rcases lowerByte_eq_cases (lowerByte_getD_occurrence hk ha) with he | he
  · exact Or.inl (he ▸ hmem)
  · exact Or.inr (he ▸ hmem)

theorem build_match_iff (hn : needle ≠ []) (value : Bytes) :
    (build needle).match value = true ↔ needle <:+: value.map lowerByte := by
  unfold FoldedLiteralMatcher.match
  rw [if_neg (by simp [build])]
  split
  · rename_i hpre
    refine ⟨fun h => (nomatch h), fun h => ?_⟩
    exfalso
    obtain ⟨hlo, hup⟩ := hpre
    rw [Option.isNone_iff_eq_none, ← Option.not_isSome_iff_eq_none, indexByte_isSome] at hlo hup
    rcases anchor_mem hn h with hm | hm
    · exact hlo hm
    · rcases hup with heq | hup
      · exact hlo (heq ▸ hm)
      · exact hup hm
  · have hsk := skips hn (shiftTable_fold needle hn _ (le_refl _)) value
    have hpos := List.length_pos_iff.mpr hn
    refine (hsk.scan_iff _ _ (le_refl _) (Nat.le_add_left _ _)).trans ?_
    rw [Scan.infix_iff_prefix_drop]
    constructor
    · rintro ⟨j, _, _, h⟩
      exact ⟨_, h⟩
    · rintro ⟨k, h⟩
      have hk := Scan.prefix_drop_length h hn
      rw [length_map] at hk
      refine ⟨k + needle.length - 1, by omega, by omega, ?_⟩
      rwa [show k + needle.length - 1 + 1 - needle.length = k by omega]

/-- **The folded search for one literal is exact.** -/
theorem match_iff (hascii : isASCII needle = true) (value : Bytes) :
    (new needle).match value = true ↔ needle <:+: value.map lowerByte := by
  by_cases hsmall : needle.length < 2
  · rw [new, if_pos (Or.inl hsmall), FoldedLiteralMatcher.match]
    exact containsFoldASCII_iff hascii
  · have hn : needle ≠ [] := by
      intro h
      simp [h] at hsmall
    rw [new, if_neg (by simp [hsmall, hascii])]
    exact build_match_iff hn value

end FoldedLiteralMatcher

/-- **Both searches are exact**: they answer whether some contiguous part of the value becomes the
needle when its ASCII letters are put in lower case. -/
theorem folded_search_exact {needle : Bytes} (hascii : ∀ b ∈ needle, b.toNat < 0x80)
    (value : Bytes) :
    ((FoldedLiteralMatcher.new needle).match value = true ↔
        ∃ part, part <:+: value ∧ part.map lowerByte = needle) ∧
      (containsFoldASCIIOnly value needle = true ↔
        ∃ part, part <:+: value ∧ part.map lowerByte = needle) := by
  have hpart : needle <:+: value.map lowerByte ↔
      ∃ part, part <:+: value ∧ part.map lowerByte = needle := by
    rw [infix_map_iff]
    constructor
    · rintro ⟨part, hinfix, heq⟩
      exact ⟨part, hinfix, heq.symm⟩
    · rintro ⟨part, hinfix, heq⟩
      exact ⟨part, hinfix, heq.symm⟩
  constructor
  · rw [FoldedLiteralMatcher.match_iff ((isASCII_iff needle).mpr hascii), hpart]
  · rw [containsFoldASCIIOnly_iff, hpart]

/-- The literal `or` is found in `xOR1`. -/
theorem folded_search_or :
    (FoldedLiteralMatcher.new [0x6F, 0x72]).match [0x78, 0x4F, 0x52, 0x31] = true ∧
      containsFoldASCIIOnly [0x78, 0x4F, 0x52, 0x31] [0x6F, 0x72] = true := by
  have h := @folded_search_exact [0x6F, 0x72] (by decide +kernel) [0x78, 0x4F, 0x52, 0x31]
  have hpart : ∃ part : Bytes, part <:+: [0x78, 0x4F, 0x52, 0x31] ∧
      part.map lowerByte = [0x6F, 0x72] := ⟨[0x4F, 0x52], ⟨[0x78], [0x31], rfl⟩, by decide⟩
  exact ⟨h.1.mpr hpart, h.2.mpr hpart⟩

end Coraza.Operators
