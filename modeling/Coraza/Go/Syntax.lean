import Coraza.Go.Strings

/-!
# Regular expressions, as package `regexp/syntax` parses them

`Regexp` is the tree that `Parse` followed by `Simplify` returns, with the node
kinds of `syntax.Op`; of a node's flags only `FoldCase` is kept, since the others
have already been spent on choosing the node.  `Matches s re i j` says that `re`
can match the bytes of `s` from `i` up to `j`.  The engine reads runes, so a step
of a match goes from one position to the next with `decodeRune`, a byte outside
any sequence is one rune `runeError`, and a search starts at a position the
engine can reach rune by rune from the start of the text.

A proof about every tree goes by `Regexp.induction_subs`: it gives the statement
for the sub-expressions, and the cases of `Matches` say which of them had to
match.
-/

namespace Go.Syntax

open List

/-- The empty-width operators. -/
inductive EmptyOp where
  | beginLine | endLine | beginText | endText | wordBoundary | noWordBoundary
  deriving DecidableEq, Repr

/-- `syntax.Regexp`.  The first argument of every node is its `FoldCase` flag.  A
literal has at least one rune; a class is a list of ranges; `max` is `none` for a
repetition without upper bound. -/
inductive Regexp where
  | noMatch (fold : Bool)
  | emptyMatch (fold : Bool)
  | literal (fold : Bool) (r : Nat) (rs : List Nat)
  | charClass (fold : Bool) (ranges : List (Nat × Nat))
  | anyCharNotNL (fold : Bool)
  | anyChar (fold : Bool)
  | empty (fold : Bool) (op : EmptyOp)
  | capture (fold : Bool) (sub : Regexp)
  | star (fold : Bool) (sub : Regexp)
  | plus (fold : Bool) (sub : Regexp)
  | quest (fold : Bool) (sub : Regexp)
  | repeatN (fold : Bool) (min : Nat) (max : Option Nat) (sub : Regexp)
  | concat (fold : Bool) (subs : List Regexp)
  | alternate (fold : Bool) (subs : List Regexp)

namespace Regexp

def subs : Regexp → List Regexp
  | .capture _ sub | .star _ sub | .plus _ sub | .quest _ sub | .repeatN _ _ _ sub => [sub]
  | .concat _ subs | .alternate _ subs => subs
  | _ => []

mutual

theorem induction_subs {P : Regexp → Prop} (h : ∀ re, (∀ r ∈ re.subs, P r) → P re)
    (re : Regexp) : P re := by
  apply h
  cases re with
  | noMatch | emptyMatch | literal | charClass | anyCharNotNL | anyChar | empty =>
    intro r hr
    cases hr
  | capture f sub | star f sub | plus f sub | quest f sub | repeatN f min max sub =>
    intro r hr
    rw [subs, mem_singleton] at hr
    rw [hr]
    exact induction_subs h sub
  | concat f rs | alternate f rs => exact induction_list h rs
termination_by structural re

theorem induction_list {P : Regexp → Prop} (h : ∀ re, (∀ r ∈ re.subs, P r) → P re)
    (rs : List Regexp) : ∀ r ∈ rs, P r := by
  cases rs with
  | nil =>
    intro r hr
    cases hr
  | cons r rs =>
    intro r' hr
    rcases List.mem_cons.mp hr with hr | hr
    · rw [hr]
      exact induction_subs h r
    · exact induction_list h rs r' hr
termination_by structural rs

end

end Regexp

/-! ### Matching -/

/-- The engine, at position `i` of `s`, reads the rune `m` and moves to `j`. -/
def RuneAt (s : Bytes) (i m j : Nat) : Prop :=
  i < s.length ∧ (decodeRune (s.drop i)).1 = m ∧ j = i + (decodeRune (s.drop i)).2

/-- The rune `m` of the text is accepted where the literal has `r`: the same
rune, or under `FoldCase` one of its folding orbit. -/
def FoldsTo (fold : Bool) (r m : Nat) : Prop :=
  m = r ∨ (fold = true ∧ ∃ n, simpleFold^[n] r = m)

def MatchesRunes (s : Bytes) (fold : Bool) : List Nat → Nat → Nat → Prop
  | [], i, j => i = j
  | r :: rs, i, j => ∃ m k, RuneAt s i m k ∧ FoldsTo fold r m ∧ MatchesRunes s fold rs k j

/-- `syntax.IsWordChar` on a byte; a byte outside ASCII belongs to no word. -/
def isWordByte (b : UInt8) : Bool :=
  (0x41 ≤ b.toNat && b.toNat ≤ 0x5A) || (0x61 ≤ b.toNat && b.toNat ≤ 0x7A)
    || (0x30 ≤ b.toNat && b.toNat ≤ 0x39) || b.toNat == 0x5F

def byteBefore (s : Bytes) (i : Nat) : Option UInt8 := if i = 0 then none else s[i - 1]?

/-- `syntax.EmptyOpContext`, read off the two bytes at a position: line feeds and
word characters are ASCII, so bytes say as much as runes. -/
def EmptyOp.holds (op : EmptyOp) (s : Bytes) (i : Nat) : Bool :=
  let word (b : Option UInt8) : Bool := (b.map isWordByte).getD false
  match op with
  | .beginLine => i == 0 || byteBefore s i == some 0x0A
  | .endLine => i == s.length || s[i]? == some 0x0A
  | .beginText => i == 0
  | .endText => i == s.length
  | .wordBoundary => word (byteBefore s i) != word s[i]?
  | .noWordBoundary => word (byteBefore s i) == word s[i]?

/-- `re` can match the bytes of `s` from `i` up to `j`. -/
inductive Matches (s : Bytes) : Regexp → Nat → Nat → Prop where
  | emptyMatch {f i} : Matches s (.emptyMatch f) i i
  | literal {f r rs i j} : MatchesRunes s f (r :: rs) i j → Matches s (.literal f r rs) i j
  | charClass {f ranges i m j} : RuneAt s i m j → (∃ p ∈ ranges, p.1 ≤ m ∧ m ≤ p.2) →
      Matches s (.charClass f ranges) i j
  | anyCharNotNL {f i m j} : RuneAt s i m j → m ≠ 0x0A → Matches s (.anyCharNotNL f) i j
  | anyChar {f i m j} : RuneAt s i m j → Matches s (.anyChar f) i j
  | empty {f op i} : EmptyOp.holds op s i = true → Matches s (.empty f op) i i
  | capture {f sub i j} : Matches s sub i j → Matches s (.capture f sub) i j
  | starNil {f sub i} : Matches s (.star f sub) i i
  | starCons {f sub i j k} : Matches s sub i j → Matches s (.star f sub) j k →
      Matches s (.star f sub) i k
  | plus {f sub i j k} : Matches s sub i j → Matches s (.star f sub) j k →
      Matches s (.plus f sub) i k
  | questNil {f sub i} : Matches s (.quest f sub) i i
  | questOne {f sub i j} : Matches s sub i j → Matches s (.quest f sub) i j
  | repeatNil {f max sub i} : Matches s (.repeatN f 0 max sub) i i
  | repeatCons {f min max sub i j k} : max ≠ some 0 → Matches s sub i j →
      Matches s (.repeatN f (min - 1) (max.map (· - 1)) sub) j k →
      Matches s (.repeatN f min max sub) i k
  | concatNil {f i} : Matches s (.concat f []) i i
  | concatCons {f r rs i j k} : Matches s r i j → Matches s (.concat f rs) j k →
      Matches s (.concat f (r :: rs)) i k
  | alternate {f r rs i j} : r ∈ rs → Matches s r i j → Matches s (.alternate f rs) i j

/-- A position the engine reaches from the start of the text. -/
def Boundary (s : Bytes) (i : Nat) : Prop :=
  Relation.ReflTransGen (fun i j => ∃ m, RuneAt s i m j) 0 i

/-- `regexp.MatchString`: the expression matches somewhere in the text. -/
def MatchString (re : Regexp) (s : Bytes) : Prop :=
  ∃ i j, Boundary s i ∧ Matches s re i j

/-! ### What had to match -/

section

variable {s : Bytes} {f : Bool} {i j : Nat}

theorem matches_literal_iff {r : Nat} {rs : List Nat} :
    Matches s (.literal f r rs) i j ↔ MatchesRunes s f (r :: rs) i j := by
  constructor
  · intro h
    cases h with
    | literal h => exact h
  · exact .literal

theorem matches_concat_nil_iff : Matches s (.concat f []) i j ↔ i = j := by
  constructor
  · intro h
    cases h with
    | concatNil => rfl
  · rintro rfl
    exact .concatNil

theorem matches_concat_cons_iff {r : Regexp} {rs : List Regexp} :
    Matches s (.concat f (r :: rs)) i j ↔
      ∃ k, Matches s r i k ∧ Matches s (.concat f rs) k j := by
  constructor
  · intro h
    cases h with
    | concatCons hhead htail => exact ⟨_, hhead, htail⟩
  · rintro ⟨k, hhead, htail⟩
    exact .concatCons hhead htail

end

/-! ### Positions -/

variable {s : Bytes} {i m j : Nat}

theorem RuneAt.lt (h : RuneAt s i m j) : i < j ∧ j ≤ s.length := by
  obtain ⟨hi, -, rfl⟩ := h
  rw [drop_eq_getElem_cons hi]
  have hpos := decodeRune_width_pos (cons_ne_nil s[i] (s.drop (i + 1)))
  have hle := decodeRune_width_le s[i] (s.drop (i + 1))
  rw [← drop_eq_getElem_cons hi, length_drop] at hle
  rw [← drop_eq_getElem_cons hi] at hpos ⊢
  omega

theorem MatchesRunes.le {f : Bool} : ∀ {rs : List Nat} {i j : Nat},
    MatchesRunes s f rs i j → i ≤ j := by
  intro rs
  induction rs with
  | nil =>
    rintro i j rfl
    exact Nat.le_refl i
  | cons r rs ih =>
    rintro i j ⟨m, k, hat, -, hrest⟩
    exact (Nat.le_of_lt hat.lt.1).trans (ih hrest)

theorem Matches.le {re : Regexp} (h : Matches s re i j) : i ≤ j := by
  induction h with
  | emptyMatch | empty | starNil | questNil | repeatNil | concatNil => exact Nat.le_refl _
  | literal h => exact MatchesRunes.le h
  | charClass hat | anyCharNotNL hat | anyChar hat => exact Nat.le_of_lt hat.lt.1
  | capture _ ih | questOne _ ih | alternate _ _ ih => exact ih
  | starCons _ _ ih ih' | plus _ _ ih ih' | repeatCons _ _ _ ih ih' | concatCons _ _ ih ih' =>
    exact ih.trans ih'

/-! ### A literal against the rest of the text -/

theorem decodeRunes_drop (hi : i < s.length) : decodeRunes (s.drop i) = (decodeRune (s.drop i)).1 ::
      decodeRunes (s.drop (i + (decodeRune (s.drop i)).2)) := by
  rw [drop_eq_getElem_cons hi, decodeRunes_cons, ← drop_eq_getElem_cons hi, drop_drop]

/-- A literal matches up to the end if it accepts the runes that are left, one by one. -/
theorem matchesRunes_end_iff {s : Bytes} {f : Bool} {rs : List Nat} {i : Nat} : i ≤ s.length →
    (MatchesRunes s f rs i s.length ↔
      List.Forall₂ (FoldsTo f) rs (decodeRunes (s.drop i))) := by
  induction rs generalizing i with
  | nil =>
    intro hi
    rw [forall₂_nil_left_iff]
    constructor
    · rintro rfl
      rw [drop_length, decodeRunes_nil]
    · intro hnil
      by_contra hne
      rw [decodeRunes_drop (Nat.lt_of_le_of_ne hi hne)] at hnil
      cases hnil
  | cons r rs ih =>
    intro hi
    constructor
    · rintro ⟨m, k, hat, hfold, hrest⟩
      have hk := hat.lt.2
      obtain ⟨hlt, rfl, rfl⟩ := hat
      rw [decodeRunes_drop hlt]
      exact .cons hfold ((ih hk).mp hrest)
    · intro hall
      have hlt : i < s.length := by
        refine Nat.lt_of_le_of_ne hi (fun heq => ?_)
        rw [heq, drop_length] at hall
        cases hall
      rw [decodeRunes_drop hlt, forall₂_cons] at hall
      have hat : RuneAt s i (decodeRune (s.drop i)).1 (i + (decodeRune (s.drop i)).2) :=
        ⟨hlt, rfl, rfl⟩
      exact ⟨_, _, hat, hall.1, (ih hat.lt.2).mpr hall.2⟩

/-! ### Runes read and bytes present -/

theorem FoldsTo.iterate {f : Bool} {r : Nat} (h : FoldsTo f r m) : ∃ n, simpleFold^[n] r = m := by
  rcases h with rfl | ⟨_, h⟩
  · exact ⟨0, rfl⟩
  · exact h

theorem RuneAt.drop_eq (h : RuneAt s i m j) (hm : m ≠ runeError) :
    s.drop i = encodeRune m ++ s.drop j := by
  obtain ⟨_, rfl, rfl⟩ := h
  have hd := decodeRune_eq hm
  rwa [drop_drop] at hd

theorem MatchesRunes.drop_eq {rs : List Nat} {i j : Nat} :
    runeError ∉ rs → MatchesRunes s false rs i j → s.drop i = encodeRunes rs ++ s.drop j := by
  induction rs generalizing i j with
  | nil =>
    intro _ h
    subst h
    rfl
  | cons r rs ih =>
    intro hne h
    obtain ⟨m, k, hat, hfold, hrest⟩ := h
    have hmr : m = r := by
      rcases hfold with hfold | ⟨hf, _⟩
      · exact hfold
      · cases hf
    subst hmr
    rw [mem_cons, not_or] at hne
    rw [hat.drop_eq (Ne.symm hne.1), ih hne.2 hrest, encodeRunes_cons, append_assoc]

end Go.Syntax
