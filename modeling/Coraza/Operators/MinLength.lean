import Coraza.Go.Folding
import Coraza.Go.Syntax
import Coraza.Lib.Lists

/-!
# The least length of a match

`minLen` computes from the tree of an expression how many bytes a match has at least, and `@rx`
rejects a shorter value without a search.  `minLen_le_match` says that the number is right: no
match is shorter, where a byte outside any UTF-8 sequence is a match of U+FFFD with one byte.

A literal counts the bytes of its runes.  Under `(?i)` it may match other runes of the folding
orbits; they are not shorter, since the parser writes the smallest rune of an orbit into the tree
(`SmallestFolded`) and the length of an encoding grows with the rune (`runeLen_le_width`).
-/

namespace Coraza.Operators

open Go Go.Syntax List

/-- `utf8.RuneLen`: `-1` for what is no code point. -/
def runeLen (r : Nat) : Int :=
  if r < 0x80 then 1
  else if r < 0x800 then 2
  else if 0xD800 ≤ r ∧ r ≤ 0xDFFF then -1
  else if r ≤ 0xFFFF then 3
  else if r ≤ maxRune then 4
  else -1

def literalLen (r : Nat) : Int := if r = runeError then 1 else runeLen r

def leastLen : List Int → Int
  | [] => 0
  | m :: vs => vs.foldl (fun m v => if v < m then v else m) m

mutual

def minLen : Regexp → Int
  | .literal _ r rs => ((r :: rs).map literalLen).sum
  | .anyCharNotNL _ | .anyChar _ | .charClass _ _ => 1
  | .capture _ sub => minLen sub
  | .concat _ subs => (minLenEach subs).sum
  | .alternate _ subs => leastLen (minLenEach subs)
  | .quest _ _ | .star _ _ => 0
  | .plus _ sub => minLen sub
  | .repeatN _ min _ sub => if min = 0 then 0 else min * minLen sub
  | .noMatch _ | .emptyMatch _ | .empty _ _ => 0

def minLenEach : List Regexp → List Int
  | [] => []
  | sub :: subs => minLen sub :: minLenEach subs

end

theorem minLenEach_eq (subs : List Regexp) : minLenEach subs = subs.map minLen := by
  induction subs with
  | nil => rfl
  | cons sub subs ih => rw [minLenEach, ih, map_cons]

/-! ### Literals -/

def SmallestFold (r : Nat) : Prop := ∀ m, SameFold r m → r ≤ m

/-- The literals of a tree that are matched without regard to case have the smallest rune of every
orbit. -/
def SmallestFolded (re : Regexp) : Prop :=
  ∀ r rs, Relation.ReflTransGen (fun re sub => sub ∈ re.subs) re (.literal true r rs) →
    ∀ x ∈ r :: rs, SmallestFold x

theorem SmallestFolded.sub {re sub : Regexp} (h : SmallestFolded re) (hsub : sub ∈ re.subs) :
    SmallestFolded sub :=
  fun r rs hpart => h r rs (.head hsub hpart)

theorem runeLen_le_width {r m : Nat} (h : r ≤ m) (hm : validRune m = true) :
    runeLen r ≤ (encodeRune m).length := by
  unfold encodeRune encodeValid runeLen maxRune
  rw [if_pos hm]
  split_ifs <;> simp only [length_cons] <;> omega

/-- A rune that stands for `r` in a match is at least as long. -/
theorem literalLen_le {s : Bytes} {f : Bool} {r m i j : Nat} (hsmall : f = true → SmallestFold r)
    (hat : RuneAt s i m j) (hfold : FoldsTo f r m) : i + literalLen r ≤ j := by
  have hlt := hat.lt.1
  unfold literalLen
  split
  · omega
  · rename_i hr
    have hsame : SameFold r m := hfold.iterate
    have hm : m ≠ runeError := by
      rintro rfl
      exact hr (hsame.eq_of_fixed (by decide))
    have hle : r ≤ m := by
      rcases hfold with rfl | ⟨hf, -⟩
      · exact Nat.le_refl m
      · exact hsmall hf m hsame
    obtain ⟨hi, rfl, rfl⟩ := hat
    rw [drop_eq_getElem_cons hi] at hm hle ⊢
    obtain ⟨hclean, hwidth⟩ := decodeRune_clean (fun heq => hm (congrArg Prod.fst heq))
    have hvalid := runeLen_le_width hle (hclean ▸ validRune_cleanRune _)
    omega

theorem literalLens_le {s : Bytes} {f : Bool} : ∀ {rs : List Nat} {i j : Nat},
    (f = true → ∀ r ∈ rs, SmallestFold r) → MatchesRunes s f rs i j →
    i + (rs.map literalLen).sum ≤ j := by
  intro rs
  induction rs with
  | nil =>
    rintro i j - rfl
    rw [map_nil, sum_nil]
    omega
  | cons r rs ih =>
    rintro i j hsmall ⟨m, k, hat, hfold, hrest⟩
    have hhead := literalLen_le (fun hf => hsmall hf r mem_cons_self) hat hfold
    have htail := ih (fun hf x hx => hsmall hf x (mem_cons_of_mem r hx)) hrest
    rw [map_cons, sum_cons]
    omega

/-! ### Trees -/

theorem leastLen_le {v : Int} : ∀ {vs : List Int}, v ∈ vs → leastLen vs ≤ v := by
  have hfold : ∀ (vs : List Int) (m : Int), vs.foldl (fun m v => if v < m then v else m) m ≤ m ∧
        ∀ v ∈ vs, vs.foldl (fun m v => if v < m then v else m) m ≤ v := by
    refine Lists.foldl_le id (S := fun v (m : Int) => m ≤ v) (fun h h' => h.trans h') ?_
    intro m v
    dsimp only [id]
    split <;> omega
  intro vs hv
  cases vs with
  | nil => cases hv
  | cons m vs =>
    rcases List.mem_cons.mp hv with rfl | hv
    · exact (hfold vs v).1
    · exact (hfold vs m).2 v hv

section

variable {s : Bytes} {i j : Nat} {f : Bool}

theorem minLen_concat {subs : List Regexp} {i j : Nat} :
    (∀ sub ∈ subs, ∀ i j, Matches s sub i j → i + minLen sub ≤ j) →
    Matches s (.concat f subs) i j → i + ((subs.map minLen).sum : Int) ≤ j := by
  induction subs generalizing i j with
  | nil =>
    intro _ h
    cases h with
    | concatNil =>
      rw [map_nil, sum_nil]
      omega
  | cons sub subs ih =>
    intro hsubs h
    cases h with
    | concatCons hhead htail =>
      have hfirst := hsubs sub mem_cons_self _ _ hhead
      have hrest := ih (fun r hr => hsubs r (mem_cons_of_mem sub hr)) htail
      rw [map_cons, sum_cons]
      omega

theorem minLen_repeat {sub : Regexp} {n : Int} (hsub : ∀ i j, Matches s sub i j → i + n ≤ j) :
    ∀ {re : Regexp} {i j : Nat}, Matches s re i j → ∀ {min : Nat} {max : Option Nat},
      re = .repeatN f min max sub → i + (if min = 0 then 0 else (min : Int) * n) ≤ j := by
  intro re i j h
  induction h with
  | repeatNil =>
    intro min max heq
    cases heq
    omega
  | @repeatCons _ least _ _ _ _ _ _ hhead htail _ ih =>
    intro min max heq
    cases heq
    have hfirst := hsub _ _ hhead
    have hrest := ih rfl
    have hback := hhead.le
    obtain _ | k := least
    · rw [if_pos rfl]
      omega
    · rw [if_neg (Nat.succ_ne_zero k)]
      have hmul : ((k + 1 : Nat) : Int) * n = k * n + n := by
        rw [Int.natCast_succ, Int.add_mul, Int.one_mul]
      rw [hmul]
      rw [Nat.add_sub_cancel] at hrest
      split at hrest
      · rename_i hk
        rw [hk, Int.natCast_zero]
        omega
      · omega
  | emptyMatch | literal | charClass | anyCharNotNL | anyChar | empty | capture | starNil | starCons
  | plus | questNil | questOne | concatNil | concatCons | alternate =>
    intro min max heq
    cases heq

end

/-- **No match is shorter than `minLen`.** -/
theorem minLen_le_match {s : Bytes} {re : Regexp} (hsmall : SmallestFolded re) {i j : Nat}
    (h : Matches s re i j) : minLen re ≤ (j : Int) - i := by
  have hall : ∀ re : Regexp, SmallestFolded re → ∀ i j, Matches s re i j →
      (i : Int) + minLen re ≤ j := by
    intro re
    induction re using Regexp.induction_subs with
    | h re ih =>
      intro hsmall i j h
      have hle := h.le
      have hsubs : ∀ sub ∈ re.subs, ∀ i j, Matches s sub i j → (i : Int) + minLen sub ≤ j :=
        fun sub hsub => ih sub hsub (hsmall.sub hsub)
      cases h with
      | emptyMatch | empty | starNil | questNil => rw [minLen]; omega
      | starCons _ _ | questOne _ => rw [minLen]; omega
      | literal h =>
        refine literalLens_le (fun hf => ?_) h
        subst hf
        exact hsmall _ _ .refl
      | charClass hat | anyCharNotNL hat | anyChar hat =>
        have hlt := hat.lt.1
        rw [minLen]
        omega
      | capture h =>
        exact hsubs _ mem_cons_self _ _ h
      | plus hhead htail =>
        have hfirst := hsubs _ mem_cons_self _ _ hhead
        have hrest := htail.le
        rw [minLen]
        omega
      | repeatNil =>
        rw [minLen]
        omega
      | repeatCons hmax hhead htail =>
        exact minLen_repeat (hsubs _ mem_cons_self) (.repeatCons hmax hhead htail) rfl
      | concatNil =>
        rw [minLen, minLenEach, sum_nil]
        omega
      | concatCons hhead htail =>
        rw [minLen, minLenEach_eq]
        exact minLen_concat hsubs (.concatCons hhead htail)
      | alternate hmem h =>
        have hbranch := hsubs _ hmem _ _ h
        have hleast := leastLen_le (mem_map_of_mem (f := minLen) hmem)
        rw [minLen, minLenEach_eq]
        omega
  have h := hall re hsmall i j h
  omega

/-- The Kelvin sign is a match of `(?i)k` with three bytes. -/
theorem minLen_le_kelvin : minLen (.literal true 0x4B []) ≤ ((3 : Nat) : Int) - (0 : Nat) := by
  have hsmall : SmallestFolded (.literal true 0x4B []) := by
    intro r rs hpart x hx m hm
    have hsame : (Regexp.literal true 0x4B []) = .literal true r rs := by
      rcases Relation.ReflTransGen.cases_head hpart with heq | ⟨sub, hsub, -⟩
      · exact heq
      · cases hsub
    cases hsame
    rw [List.mem_singleton.mp hx] at hm ⊢
    obtain ⟨n, hn, rfl⟩ := hm.few
    have horbit : ∀ n < 4, 0x4B ≤ simpleFold^[n] 0x4B := by decide +kernel
    exact horbit n hn
  have hmatch : Matches [0xE2, 0x84, 0xAA] (.literal true 0x4B []) 0 3 :=
    .literal ⟨0x212A, 3, ⟨by decide, by decide, by decide⟩, .inr ⟨rfl, 2, by decide +kernel⟩, rfl⟩
  exact minLen_le_match hsmall hmatch

end Coraza.Operators
