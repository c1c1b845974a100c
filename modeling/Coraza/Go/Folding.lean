import Coraza.Go.Strings

/-!
# Folding orbits and `strings.EqualFold`

Under `(?i)` two runes are the same if one is reached from the other by `simpleFold`.  That this is
an equivalence is a fact about the tables: `simpleFold` goes round in cycles of at most four runes
(`simpleFold_period`), which it climbs before it returns to the smallest rune.  Most runes form
pairs of an upper and a lower case, and `simpleFold_pair` proves it from the ranges: what one range
adds, another range takes away.  The runes outside such pairs are few (`loneRunes`) and are checked
one by one.

`equalFold` compares the runes of two texts.  It looks for the greater rune on the way up from the
smaller one, and finds it exactly if the two are in one orbit (`equalFoldRune_iff`).
-/

namespace Go

open List Function

/-! ### Pairs of runes -/

/-- The runes whose folding step is written down, and the partner of one of them. -/
def loneRunes : List Nat := 0x1E9E :: caseOrbit.map Prod.fst

def isLone (r : Nat) : Bool := Nat.beq 0x1E9E r || caseOrbit.any (fun p => Nat.beq p.1 r)

def allLone (f : Nat → Bool) : Bool := f 0x1E9E && caseOrbit.all (fun p => f p.1)

def deltaOf (lower : Bool) (c : Nat × Nat × Int × Int) : Int := if lower then c.2.2.2 else c.2.2.1

/-- Every rune from `a` on and below `b` is a lone rune before the shift. -/
def shiftsLone (delta : Int) (a b : Nat) : Bool :=
  (range' a (b - a)).all (fun y => isLone ((y : Int) - delta).toNat)

/-- The lone runes from `a` to `b` are lone runes before the shift. -/
def lonesBack (delta : Int) (a b : Nat) : Bool :=
  allLone (fun p => Nat.blt p a || Nat.blt b p || isLone ((p : Int) - delta).toNat)

/-- The runes from `a` to `b`, which a range has shifted, are shifted back by the ranges of the
list, unless they were lone runes. -/
def shiftsBack (lower : Bool) (delta : Int) : Nat → Nat → List (Nat × Nat × Int × Int) → Bool
  | a, b, [] => shiftsLone delta a (b + 1)
  | a, b, c :: rest =>
    bif Nat.blt c.2.1 a then shiftsBack lower delta a b rest
    else bif Nat.blt b c.1 then shiftsLone delta a (b + 1)
    else shiftsLone delta a c.1 &&
      ((Nat.ble 0x80 c.1 && deltaOf (!lower) c == -delta
          && lonesBack delta (max a c.1) (min b c.2.1))
        || shiftsLone delta (max a c.1) (min b c.2.1 + 1))
      && shiftsBack lower delta (c.2.1 + 1) b rest

/-- What a range does to its runes is undone by the table, for a range with a fixed shift. -/
def shiftUndone (lower : Bool) (c : Nat × Nat × Int × Int) : Bool :=
  Nat.blt c.2.1 0x80 || deltaOf lower c == 0 || deltaOf lower c == upperLower
    || (decide (0 ≤ (c.1 : Int) + deltaOf lower c) && deltaOf lower c != -upperLower
      && shiftsBack lower (deltaOf lower c) ((c.1 : Int) + deltaOf lower c).toNat
        ((c.2.1 : Int) + deltaOf lower c).toNat caseRanges)

/-- A range that alternates has both cases of its runes, and lone runes come in pairs. -/
def alternates (c : Nat × Nat × Int × Int) : Bool :=
  (deltaOf true c != upperLower && deltaOf false c != upperLower)
    || (deltaOf true c == upperLower && deltaOf false c == upperLower && (c.2.1 - c.1) % 2 == 1
      && Nat.ble 0x80 c.1
      && allLone (fun p => Nat.blt p c.1 || Nat.blt c.2.1 p ||
        (isLone (c.1 + (p - c.1) / 2 * 2) && isLone (c.1 + ((p - c.1) / 2 * 2 + 1)))))

theorem caseRanges_shiftUndone :
    caseRanges.all (fun c => shiftUndone true c && shiftUndone false c) = true := by
  decide +kernel

theorem caseRanges_alternates : caseRanges.all alternates = true := by decide +kernel

variable {r m : Nat} {delta : Int}

theorem isLone_iff : isLone r = true ↔ r ∈ loneRunes := by
  rw [isLone, Bool.or_eq_true, any_eq_true, loneRunes, mem_cons, mem_map]
  constructor
  · rintro (heq | ⟨p, hp, heq⟩)
    · exact .inl (Nat.eq_of_beq_eq_true heq).symm
    · exact .inr ⟨p, hp, Nat.eq_of_beq_eq_true heq⟩
  · rintro (rfl | ⟨p, hp, rfl⟩)
    · exact .inl rfl
    · exact .inr ⟨p, hp, Nat.beq_refl p.1⟩

theorem allLone_spec {f : Nat → Bool} (h : allLone f = true) (hr : isLone r = true) :
    f r = true := by
  rw [allLone, Bool.and_eq_true] at h
  rcases mem_cons.mp (isLone_iff.mp hr) with rfl | hmem
  · exact h.1
  · obtain ⟨p, hp, rfl⟩ := mem_map.mp hmem
    exact all_eq_true.mp h.2 p hp

theorem shiftsLone_spec {a b y : Nat} (h : shiftsLone delta a b = true) (ha : a ≤ y) (hb : y < b) :
    isLone ((y : Int) - delta).toNat = true :=
  all_eq_true.mp h y (mem_range'_1.mpr ⟨ha, by omega⟩)

theorem lonesBack_spec {a b y : Nat} (h : lonesBack delta a b = true) (ha : a ≤ y) (hb : y ≤ b)
    (hy : isLone y = true) : isLone ((y : Int) - delta).toNat = true := by
  have hall := allLone_spec h hy
  rw [Bool.or_eq_true, Bool.or_eq_true, Nat.blt_eq, Nat.blt_eq] at hall
  rcases hall with (hlt | hlt) | hlone
  · omega
  · omega
  · exact hlone

theorem shiftsBack_spec {lower : Bool} : ∀ {l : List (Nat × Nat × Int × Int)}
    {a b y : Nat}, shiftsBack lower delta a b l = true → a ≤ y → y ≤ b →
    isLone ((y : Int) - delta).toNat = true ∨
      isLone y = false ∧ ∃ c ∈ l, 0x80 ≤ c.1 ∧ c.1 ≤ y ∧ y ≤ c.2.1 ∧
        deltaOf (!lower) c = -delta := by
  intro l
  induction l with
  | nil =>
    intro a b y h ha hb
    exact .inl (shiftsLone_spec h ha (Nat.lt_succ_of_le hb))
  | cons c l ih =>
    intro a b y h ha hb
    have hrest : ∀ {a : Nat}, shiftsBack lower delta a b l = true → a ≤ y →
        isLone ((y : Int) - delta).toNat = true ∨ isLone y = false ∧ ∃ d ∈ c :: l,
          0x80 ≤ d.1 ∧ d.1 ≤ y ∧ y ≤ d.2.1 ∧ deltaOf (!lower) d = -delta := by
      intro a h ha
      rcases ih h ha hb with hlone | ⟨hnot, d, hd, hin⟩
      · exact .inl hlone
      · exact .inr ⟨hnot, d, mem_cons_of_mem c hd, hin⟩
    rw [shiftsBack, Bool.cond_eq_ite, Bool.cond_eq_ite] at h
    split at h
    · exact hrest h ha
    · split at h
      · exact .inl (shiftsLone_spec h ha (Nat.lt_succ_of_le hb))
      · rw [Bool.and_eq_true, Bool.and_eq_true, Bool.or_eq_true] at h
        obtain ⟨⟨hbefore, hwithin⟩, hafter⟩ := h
        by_cases hylow : y < c.1
        · exact .inl (shiftsLone_spec hbefore ha hylow)
        by_cases hyhigh : c.2.1 < y
        · exact hrest hafter hyhigh
        rcases hwithin with hwithin | hwithin
        · rw [Bool.and_eq_true, Bool.and_eq_true, Nat.ble_eq, beq_iff_eq] at hwithin
          obtain ⟨⟨hascii, hdelta⟩, hback⟩ := hwithin
          cases hy : isLone y with
          | true => exact .inl (lonesBack_spec hback (by omega) (by omega) hy)
          | false =>
            exact .inr ⟨rfl, c, mem_cons_self, hascii, by omega, by omega, hdelta⟩
        · exact .inl (shiftsLone_spec hwithin (by omega) (by omega))

theorem find_range {c : Nat × Nat × Int × Int} (hc : c ∈ caseRanges) (hlo : c.1 ≤ r)
    (hhi : r ≤ c.2.1) :
    caseRanges.find? (fun c => decide (c.1 ≤ r) && decide (r ≤ c.2.1)) = some c := by
  cases hf : caseRanges.find? (fun c => decide (c.1 ≤ r) && decide (r ≤ c.2.1)) with
  | none =>
    have hnot := find?_eq_none.mp hf c hc
    simp only [Bool.and_eq_true, decide_eq_true_eq, not_and] at hnot
    exact absurd hhi (hnot hlo)
  | some d =>
    have hin := find?_some hf
    simp only [Bool.and_eq_true, decide_eq_true_eq] at hin
    rw [range_unique caseRanges_sorted _ (mem_of_find?_eq_some hf) _ hc hin.1 hin.2 hlo hhi]

theorem convertCase_eq {c : Nat × Nat × Int × Int} (hc : c ∈ caseRanges) (hlo : c.1 ≤ r)
    (hhi : r ≤ c.2.1) (lower : Bool) :
    convertCase lower r = if deltaOf lower c = upperLower then
        c.1 + ((r - c.1) / 2 * 2 + if lower then 1 else 0)
      else ((r : Int) + deltaOf lower c).toNat := by
  unfold convertCase
  rw [find_range hc hlo hhi]
  rfl

section

variable {lower : Bool} {r : Nat} {c : Nat × Nat × Int × Int}

theorem convertCase_alternating (hc : c ∈ caseRanges) (hlo : c.1 ≤ r) (hhi : r ≤ c.2.1)
    (hlone : isLone r = false) (hne : convertCase lower r ≠ r)
    (hdelta : deltaOf lower c = upperLower) :
    0x80 ≤ convertCase lower r ∧ isLone (convertCase lower r) = false ∧
      convertCase (!lower) (convertCase lower r) = r := by
  have hconv := convertCase_eq hc hlo hhi lower
  rw [if_pos hdelta] at hconv
  have hcheck := all_eq_true.mp caseRanges_alternates c hc
  rw [alternates, Bool.or_eq_true] at hcheck
  rcases hcheck with hcheck | hcheck
  · rw [Bool.and_eq_true, bne_iff_ne, bne_iff_ne] at hcheck
    cases lower with
    | true => exact absurd hdelta hcheck.1
    | false => exact absurd hdelta hcheck.2
  rw [Bool.and_eq_true, Bool.and_eq_true, Bool.and_eq_true, Bool.and_eq_true, beq_iff_eq,
    beq_iff_eq, beq_iff_eq, Nat.ble_eq] at hcheck
  obtain ⟨⟨⟨⟨hlower, hupper⟩, hodd⟩, hascii⟩, hlones⟩ := hcheck
  have hother : deltaOf (!lower) c = upperLower := by cases lower <;> assumption
  have hpair : c.1 ≤ convertCase lower r ∧ convertCase lower r ≤ c.2.1 := by
    cases lower <;> simp only [if_true, if_false, Bool.false_eq_true] at hconv <;> omega
  refine ⟨hascii.trans hpair.1, ?_, ?_⟩
  · by_contra hpartner
    rw [Bool.not_eq_false] at hpartner
    have hboth := allLone_spec hlones hpartner
    rw [Bool.or_eq_true, Bool.or_eq_true, Nat.blt_eq, Nat.blt_eq, Bool.and_eq_true] at hboth
    have hsame : r = c.1 + (convertCase lower r - c.1) / 2 * 2 ∨
        r = c.1 + ((convertCase lower r - c.1) / 2 * 2 + 1) := by
      cases lower <;> simp only [if_true, if_false, Bool.false_eq_true] at hconv <;> omega
    rcases hboth with (hlt | hlt) | ⟨heven, hnext⟩
    · omega
    · omega
    · rcases hsame with hsame | hsame
      · rw [← hsame, hlone] at heven
        cases heven
      · rw [← hsame, hlone] at hnext
        cases hnext
  · rw [convertCase_eq hc hpair.1 hpair.2, if_pos hother]
    cases lower <;>
      simp only [if_true, if_false, Bool.false_eq_true, Bool.not_true, Bool.not_false]
        at hconv ⊢ <;> omega

/-- In a range with a fixed shift, the partner of a rune is in a range with the opposite shift. -/
theorem convertCase_shifted (hc : c ∈ caseRanges) (hlo : c.1 ≤ r) (hhi : r ≤ c.2.1) (hr : 0x80 ≤ r)
    (hlone : isLone r = false) (hne : convertCase lower r ≠ r)
    (hdelta : deltaOf lower c ≠ upperLower) :
    0x80 ≤ convertCase lower r ∧ isLone (convertCase lower r) = false ∧
      convertCase (!lower) (convertCase lower r) = r := by
  have hconv := convertCase_eq hc hlo hhi lower
  rw [if_neg hdelta] at hconv
  have hundone : shiftUndone lower c = true := by
    have hcheck := all_eq_true.mp caseRanges_shiftUndone c hc
    rw [Bool.and_eq_true] at hcheck
    cases lower with
    | true => exact hcheck.1
    | false => exact hcheck.2
  rw [shiftUndone, Bool.or_eq_true, Bool.or_eq_true, Bool.or_eq_true, Nat.blt_eq, beq_iff_eq,
    beq_iff_eq] at hundone
  rcases hundone with ((hascii | hzero) | halternates) | hback
  · omega
  · rw [hzero] at hconv
    omega
  · exact absurd halternates hdelta
  · rw [Bool.and_eq_true, Bool.and_eq_true, decide_eq_true_eq, bne_iff_ne] at hback
    obtain ⟨⟨hpos, hfixed⟩, hback⟩ := hback
    have hshift : ((convertCase lower r : Int) - deltaOf lower c).toNat = r := by omega
    rcases shiftsBack_spec (y := convertCase lower r) hback (by omega) (by omega) with
      hwas | ⟨hnot, d, hd, hascii, hdlo, hdhi, hopposite⟩
    · rw [hshift, hlone] at hwas
      cases hwas
    · refine ⟨hascii.trans hdlo, hnot, ?_⟩
      rw [convertCase_eq hd hdlo hdhi, hopposite, if_neg (by omega), ← Int.sub_eq_add_neg, hshift]

/-- **One case conversion undoes the other**, for a rune that is not a lone one. -/
theorem convertCase_back (hr : 0x80 ≤ r) (hlone : isLone r = false)
    (hne : convertCase lower r ≠ r) :
    0x80 ≤ convertCase lower r ∧ isLone (convertCase lower r) = false ∧
      convertCase (!lower) (convertCase lower r) = r := by
  cases hf : caseRanges.find? (fun c => decide (c.1 ≤ r) && decide (r ≤ c.2.1)) with
  | none =>
    unfold convertCase at hne
    rw [hf] at hne
    exact absurd rfl hne
  | some c =>
    have hc := mem_of_find?_eq_some hf
    have hin := find?_some hf
    simp only [Bool.and_eq_true, decide_eq_true_eq] at hin
    by_cases hdelta : deltaOf lower c = upperLower
    · exact convertCase_alternating hc hin.1 hin.2 hlone hne hdelta
    · exact convertCase_shifted hc hin.1 hin.2 hr hlone hne hdelta

end

/-- **Most runes are folded in pairs.** -/
theorem simpleFold_pair (hr : 0x80 ≤ r) (hlone : isLone r = false) :
    simpleFold (simpleFold r) = r := by
  have hstep : ∀ {x : Nat}, 0x80 ≤ x → isLone x = false →
      simpleFold x = if toLower x ≠ x then toLower x else toUpper x := by
    intro x hx hnot
    have hnone : caseOrbit.find? (fun p => p.1 == x) = none := by
      rw [find?_eq_none]
      intro p hp heq
      have hmem : x ∈ loneRunes :=
        mem_cons_of_mem _ (mem_map.mpr ⟨p, hp, beq_iff_eq.mp heq⟩)
      rw [isLone_iff.mpr hmem] at hnot
      cases hnot
    unfold simpleFold
    rw [if_neg (Nat.not_lt.mpr hx), hnone]
  have hlower : ∀ {x : Nat}, 0x80 ≤ x → toLower x = convertCase true x :=
    fun hx => if_neg (Nat.not_lt.mpr hx)
  have hupper : ∀ {x : Nat}, 0x80 ≤ x → toUpper x = convertCase false x :=
    fun hx => if_neg (Nat.not_lt.mpr hx)
  rw [hstep hr hlone]
  by_cases hl : toLower r = r
  · rw [if_neg (not_not.mpr hl)]
    by_cases hu : toUpper r = r
    · rw [hu, hstep hr hlone, if_neg (not_not.mpr hl), hu]
    · rw [hupper hr] at hu ⊢
      obtain ⟨hascii, hnot, hback⟩ := convertCase_back hr hlone hu
      have hlow : toLower (convertCase false r) = r := (hlower hascii).trans hback
      rw [hstep hascii hnot, hlow, if_pos (Ne.symm hu)]
  · rw [if_pos hl]
    have hfix := toLower_toLower r
    rw [hlower hr] at hl hfix ⊢
    obtain ⟨hascii, hnot, hback⟩ := convertCase_back hr hlone hl
    rw [hstep hascii hnot, if_neg (not_not.mpr hfix), hupper hascii]
    exact hback

/-! ### Orbits -/

def checkedRunes : List Nat := range 0x80 ++ loneRunes

theorem mem_checkedRunes : r ∈ checkedRunes ↔ r < 0x80 ∨ isLone r = true := by
  rw [checkedRunes, mem_append, mem_range, isLone_iff]

def returns (r : Nat) : Bool :=
  simpleFold r == r || simpleFold (simpleFold r) == r
    || simpleFold (simpleFold (simpleFold r)) == r
    || simpleFold (simpleFold (simpleFold (simpleFold r))) == r

theorem checkedRunes_returns : checkedRunes.all returns = true := by decide +kernel

/-- **Folding goes round.** -/
theorem simpleFold_period (r : Nat) : ∃ k, 1 ≤ k ∧ k ≤ 4 ∧ simpleFold^[k] r = r := by
  by_cases hr : r ∈ checkedRunes
  · have hreturns := all_eq_true.mp checkedRunes_returns r hr
    rw [returns, Bool.or_eq_true, Bool.or_eq_true, Bool.or_eq_true, beq_iff_eq, beq_iff_eq,
      beq_iff_eq, beq_iff_eq] at hreturns
    rcases hreturns with ((h | h) | h) | h
    · exact ⟨1, by decide, by decide, h⟩
    · exact ⟨2, by decide, by decide, h⟩
    · exact ⟨3, by decide, by decide, h⟩
    · exact ⟨4, by decide, by decide, h⟩
  · rw [mem_checkedRunes, not_or, Nat.not_lt, Bool.not_eq_true] at hr
    exact ⟨2, by decide, by decide, simpleFold_pair hr.1 hr.2⟩

theorem simpleFold_round {k : Nat} (h : simpleFold^[k] r = r) (q : Nat) :
    simpleFold^[k * q] r = r := by
  rw [iterate_mul]
  exact iterate_fixed h q

def SameFold (r m : Nat) : Prop := ∃ n, simpleFold^[n] r = m

theorem SameFold.few (h : SameFold r m) : ∃ n < 4, simpleFold^[n] r = m := by
  obtain ⟨n, rfl⟩ := h
  obtain ⟨k, hk, hk4, hperiod⟩ := simpleFold_period r
  refine ⟨n % k, (Nat.mod_lt n hk).trans_le hk4, ?_⟩
  conv_rhs => rw [← Nat.mod_add_div n k, iterate_add_apply, simpleFold_round hperiod]

theorem SameFold.symm (h : SameFold r m) : SameFold m r := by
  obtain ⟨n, rfl⟩ := h
  obtain ⟨k, hk, -, hperiod⟩ := simpleFold_period r
  refine ⟨k * n - n, ?_⟩
  rw [← iterate_add_apply, Nat.sub_add_cancel (Nat.le_mul_of_pos_left n hk),
    simpleFold_round hperiod]

theorem SameFold.eq_of_fixed (hfixed : simpleFold m = m) (h : SameFold r m) : r = m := by
  obtain ⟨n, hn⟩ := h.symm
  rw [← hn, iterate_fixed hfixed]

/-! ### `strings.EqualFold` -/

/-- The loop that goes from `sr` up to `tr`, at `r`, for at most the given number of rounds. -/
def foldLoop (sr tr : Nat) : Nat → Nat → Bool
  | 0, r => r == tr
  | n + 1, r => if r ≠ sr ∧ r < tr then foldLoop sr tr n (simpleFold r) else r == tr

def equalFoldRune (sr tr : Nat) : Bool :=
  if tr = sr then true
  else
    let (sr, tr) := if tr < sr then (tr, sr) else (sr, tr)
    if tr < runeSelf then 0x41 ≤ sr && sr ≤ 0x5A && tr == sr + 0x20
    else foldLoop sr tr 4 (simpleFold sr)

def equalFoldRunes : List Nat → List Nat → Bool
  | [], [] => true
  | sr :: s, tr :: t => equalFoldRune sr tr && equalFoldRunes s t
  | _, _ => false

/-- `strings.EqualFold`.  The loop over bytes with which it begins does the same for ASCII. -/
def equalFold (s t : Bytes) : Bool := equalFoldRunes (decodeRunes s) (decodeRunes t)

def climbs (r : Nat) : Bool :=
  (range 4).all (fun n => let m := simpleFold^[n] r
    Nat.ble m r || (if m < runeSelf then 0x41 ≤ r && r ≤ 0x5A && m == r + 0x20
      else foldLoop r m 4 (simpleFold r)))

theorem checkedRunes_climbs : checkedRunes.all climbs = true := by decide +kernel

theorem foldLoop_sound {sr tr : Nat} {n r : Nat} : foldLoop sr tr n r = true → SameFold sr r →
    SameFold sr tr := by
  induction n generalizing r with
  | zero =>
    intro h hr
    exact beq_iff_eq.mp h ▸ hr
  | succ n ih =>
    intro h hr
    unfold foldLoop at h
    split at h
    · obtain ⟨k, rfl⟩ := hr
      exact ih h ⟨k + 1, iterate_succ_apply' ..⟩
    · exact beq_iff_eq.mp h ▸ hr

theorem fold_upward {sr tr : Nat} (hlt : sr < tr) :
    (if tr < runeSelf then 0x41 ≤ sr && sr ≤ 0x5A && tr == sr + 0x20
      else foldLoop sr tr 4 (simpleFold sr)) = true ↔ SameFold sr tr := by
  constructor
  · intro h
    split at h
    · rename_i hascii
      simp only [Bool.and_eq_true, decide_eq_true_eq, beq_iff_eq] at h
      obtain ⟨⟨hlo, hhi⟩, rfl⟩ := h
      refine ⟨1, ?_⟩
      show simpleFold sr = sr + 0x20
      unfold simpleFold asciiFold
      rw [if_pos (by omega), if_neg (by omega), if_neg (by omega), if_pos ⟨hlo, hhi⟩]
    · exact foldLoop_sound h ⟨1, rfl⟩
  · intro h
    obtain ⟨n, hn, rfl⟩ := h.few
    by_cases hr : sr ∈ checkedRunes
    · have hclimb := all_eq_true.mp (all_eq_true.mp checkedRunes_climbs sr hr) n
        (mem_range.mpr hn)
      rw [Bool.or_eq_true, Nat.ble_eq] at hclimb
      exact hclimb.resolve_left (Nat.not_le.mpr hlt)
    · rw [mem_checkedRunes, not_or, Nat.not_lt, Bool.not_eq_true] at hr
      have hpair := simpleFold_pair hr.1 hr.2
      have hstep : simpleFold^[n] sr = simpleFold sr := by
        match n, hn with
        | 0, _ => exact absurd hlt (Nat.lt_irrefl sr)
        | 1, _ => rfl
        | 2, _ => exact absurd (hlt.trans_eq hpair) (Nat.lt_irrefl sr)
        | 3, _ => exact congrArg simpleFold hpair
      rw [hstep] at hlt ⊢
      have hhigh : ¬simpleFold sr < runeSelf := Nat.not_lt.mpr (hr.1.trans (Nat.le_of_lt hlt))
      rw [if_neg hhigh]
      unfold foldLoop
      rw [if_neg (fun h => Nat.lt_irrefl _ h.2), beq_self_eq_true]

/-- **Two runes are equal for `EqualFold` exactly if they are in one orbit.** -/
theorem equalFoldRune_iff (sr tr : Nat) : equalFoldRune sr tr = true ↔ SameFold sr tr := by
  unfold equalFoldRune
  split
  · rename_i heq
    exact iff_of_true rfl ⟨0, heq.symm⟩
  · rename_i hne
    split
    rename_i a b hswap
    split at hswap
    · rename_i hlt
      cases hswap
      rw [fold_upward hlt]
      exact ⟨SameFold.symm, SameFold.symm⟩
    · rename_i hnot
      cases hswap
      exact fold_upward (by omega)

theorem equalFoldRunes_iff (s t : List Nat) :
    equalFoldRunes s t = true ↔ List.Forall₂ SameFold s t := by
  induction s generalizing t with
  | nil =>
    cases t with
    | nil => exact iff_of_true rfl .nil
    | cons tr t => exact iff_of_false Bool.false_ne_true (fun h => nomatch h)
  | cons sr s ih =>
    cases t with
    | nil => exact iff_of_false Bool.false_ne_true (fun h => nomatch h)
    | cons tr t =>
      rw [equalFoldRunes, Bool.and_eq_true, equalFoldRune_iff, ih, forall₂_cons]

end Go
