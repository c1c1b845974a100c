import Coraza.Lib.Lists

/-!
# Searching with skips

A substring search that is faster than naive looks at one alignment after the
other and jumps over those a table has excluded.  `scan` is such a loop: at the
alignment `i` it either answers, or goes on at `i + step i`.  What makes the
answer right is the same for every table: a jump is never empty, and no
occurrence lies inside it.  `Skips` states the conditions, and `Skips.scan_iff` is
the correctness of every search of this shape.

Such tables are filled by keeping the least value seen for a key; `lowerAt` is one
such update.

The alignments of a search in a list are positions at which the needle is a
prefix of what is left; `infix_iff_prefix_drop` and the lemmas after it read a
contiguous occurrence that way.
-/

namespace Scan

open List

/-- `for i < n { if found i { return true }; i += step i }; return false`, for at
most `fuel` rounds. -/
def scan (n : Nat) (found : Nat → Bool) (step : Nat → Nat) : Nat → Nat → Bool
  | 0, _ => false
  | fuel + 1, i =>
    if i < n then if found i then true else scan n found step fuel (i + step i) else false

/-- From the alignment `lo` on, `found` answers only when an occurrence is ahead,
and otherwise none lies before the next alignment. -/
structure Skips (lo n : Nat) (found : Nat → Bool) (step : Nat → Nat) (occ : Nat → Prop) :
    Prop where
  ahead : ∀ i, lo ≤ i → i < n → found i = true → ∃ j, i ≤ j ∧ j < n ∧ occ j
  step_pos : ∀ i, lo ≤ i → i < n → found i = false → 0 < step i
  skip : ∀ i, lo ≤ i → i < n → found i = false →
    ∀ j, i ≤ j → j < i + step i → j < n → ¬ occ j

/-- **A search with sound skips finds an occurrence if there is one.** -/
theorem Skips.scan_iff {lo n : Nat} {found : Nat → Bool} {step : Nat → Nat} {occ : Nat → Prop}
    (h : Skips lo n found step occ) (fuel i : Nat) : lo ≤ i → n ≤ i + fuel →
      (scan n found step fuel i = true ↔ ∃ j, i ≤ j ∧ j < n ∧ occ j) := by
  induction fuel generalizing i with
  | zero =>
    intro _ hn
    constructor
    · intro hf
      cases hf
    · rintro ⟨j, hij, hj, _⟩
      omega
  | succ fuel ih =>
    intro hlo hn
    rw [scan]
    by_cases hi : i < n
    · rw [if_pos hi]
      cases hf : found i with
      | true => exact ⟨fun _ => h.ahead i hlo hi hf, fun _ => rfl⟩
      | false =>
        have hp := h.step_pos i hlo hi hf
        rw [if_neg Bool.false_ne_true, ih _ (by omega) (by omega)]
        constructor
        · rintro ⟨j, hj, hjn, hocc⟩
          exact ⟨j, by omega, hjn, hocc⟩
        · rintro ⟨j, hj, hjn, hocc⟩
          refine ⟨j, ?_, hjn, hocc⟩
          by_contra hlt
          exact h.skip i hlo hi hf j hj (by omega) hjn hocc
    · rw [if_neg hi]
      constructor
      · intro hf
        cases hf
      · rintro ⟨j, hj, hjn, _⟩
        omega

/-! ### Tables of least values -/

section

variable {K : Type*} [DecidableEq K]

/-- `if v < table[k] { table[k] = v }`. -/
def lowerAt (table : K → Nat) (entry : K × Nat) : K → Nat :=
  if entry.2 < table entry.1 then Function.update table entry.1 entry.2 else table

theorem lowerAt_le (table : K → Nat) (entry : K × Nat) (k : K) :
    lowerAt table entry k ≤ table k := by
  unfold lowerAt
  split
  · rename_i hlt
    rw [Function.update_apply]
    split
    · rename_i hk
      rw [hk]
      exact le_of_lt hlt
    · exact le_refl _
  · exact le_refl _

theorem lowerAt_self_le (table : K → Nat) (entry : K × Nat) :
    lowerAt table entry entry.1 ≤ entry.2 := by
  unfold lowerAt
  split
  · rw [Function.update_self]
  · rename_i hnlt
    exact Nat.not_lt.mp hnlt

theorem lowerAt_pos {table : K → Nat} {entry : K × Nat} (ht : ∀ k, 0 < table k)
    (he : 0 < entry.2) (k : K) : 0 < lowerAt table entry k := by
  unfold lowerAt
  split
  · rw [Function.update_apply]
    split
    · exact he
    · exact ht k
  · exact ht k

/-- A table filled entry by entry is below its start and below every entry. -/
theorem foldl_lowerAt_le (entries : List (K × Nat)) (table : K → Nat) :
    (∀ k, entries.foldl lowerAt table k ≤ table k) ∧
      ∀ e ∈ entries, entries.foldl lowerAt table e.1 ≤ e.2 :=
  Lists.foldl_le id (S := fun (e : K × Nat) (table : K → Nat) => table e.1 ≤ e.2)
    (fun h h' => (h _).trans h')
    (fun table e => ⟨lowerAt_le table e, lowerAt_self_le table e⟩) entries table

end

/-! ### Occurrences as alignments -/

section

variable {α : Type*} {l v : List α}

theorem infix_iff_prefix_drop : l <:+: v ↔ ∃ k, l <+: v.drop k := by
  constructor
  · rintro ⟨s, t, rfl⟩
    refine ⟨s.length, t, ?_⟩
    rw [append_assoc, drop_left]
  · rintro ⟨k, h⟩
    exact h.isInfix.trans (drop_suffix k v).isInfix

theorem prefix_drop_length {k : Nat} (h : l <+: v.drop k) (hl : l ≠ []) :
    k + l.length ≤ v.length := by
  have hlen := h.length_le
  have hpos := length_pos_iff.mpr hl
  rw [length_drop] at hlen
  omega

theorem prefix_drop_getElem? {k i : Nat} (h : l <+: v.drop k) (hi : i < l.length) :
    v[k + i]? = l[i]? := by
  obtain ⟨t, ht⟩ := h
  rw [← getElem?_drop, ← ht, getElem?_append_left hi]

theorem prefix_drop_getD {k i : Nat} (d : α) (h : l <+: v.drop k) (hi : i < l.length) :
    v.getD (k + i) d = l.getD i d := by
  rw [getD_eq_getElem?_getD, getD_eq_getElem?_getD, prefix_drop_getElem? h hi]

theorem prefix_iff_take {k : Nat} : l <+: v.drop k ↔ (v.drop k).take l.length = l := by
  rw [prefix_iff_eq_take, eq_comm]

end

end Scan
