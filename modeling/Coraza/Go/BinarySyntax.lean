import Coraza.Go.Syntax

/-!
# Regular expressions over bytes, as package `binaryregexp` matches them

The package parses into the same trees as `regexp/syntax` and matches them against single bytes
instead of runes: at every step the engine reads one byte, whose value is the rune it compares with.
A rune of a literal above 255 is read nowhere, and a search may start at any byte.
-/

namespace Go.BinarySyntax

open Go.Syntax

/-- The engine, at position `i` of `s`, reads the byte `m` and moves to `j`. -/
def ByteAt (s : Bytes) (i m j : Nat) : Prop :=
  ∃ b : UInt8, s[i]? = some b ∧ m = b.toNat ∧ j = i + 1

def MatchesRunes (s : Bytes) (fold : Bool) : List Nat → Nat → Nat → Prop
  | [], i, j => i = j
  | r :: rs, i, j => ∃ m k, ByteAt s i m k ∧ FoldsTo fold r m ∧ MatchesRunes s fold rs k j

/-- `re` can match the bytes of `s` from `i` up to `j`. -/
inductive Matches (s : Bytes) : Regexp → Nat → Nat → Prop where
  | emptyMatch {f i} : Matches s (.emptyMatch f) i i
  | literal {f r rs i j} : MatchesRunes s f (r :: rs) i j → Matches s (.literal f r rs) i j
  | charClass {f ranges i m j} : ByteAt s i m j → (∃ p ∈ ranges, p.1 ≤ m ∧ m ≤ p.2) →
      Matches s (.charClass f ranges) i j
  | anyCharNotNL {f i m j} : ByteAt s i m j → m ≠ 0x0A → Matches s (.anyCharNotNL f) i j
  | anyChar {f i m j} : ByteAt s i m j → Matches s (.anyChar f) i j
  | empty {f op i} : EmptyOp.holds op s i = true → Matches s (.empty f op) i i
  | capture {f sub i j} : Matches s sub i j → Matches s (.capture f sub) i j
  | starNil {f sub i} : Matches s (.star f sub) i i
  | starCons {f sub i j k} : Matches s sub i j → Matches s (.star f sub) j k →
      Matches s (.star f sub) i k
  | plus {f sub i j k} : Matches s sub i j → Matches s (.star f sub) j k →
      Matches s (.plus f sub) i k
  | questNil {f sub i} : Matches s (.quest f sub) i i
  | questOne {f sub i j} : Matches s sub i j → Matches s (.quest f sub) i j
  | repeatNil {f max sub i} : Matches s (.repeatN f 0 max sub) i i
  | repeatCons {f min max sub i j k} : max ≠ some 0 → Matches s sub i j →
      Matches s (.repeatN f (min - 1) (max.map (· - 1)) sub) j k →
      Matches s (.repeatN f min max sub) i k
  | concatNil {f i} : Matches s (.concat f []) i i
  | concatCons {f r rs i j k} : Matches s r i j → Matches s (.concat f rs) j k →
      Matches s (.concat f (r :: rs)) i k
  | alternate {f r rs i j} : r ∈ rs → Matches s r i j → Matches s (.alternate f rs) i j

/-- `binaryregexp.MatchString`: the expression matches somewhere in the bytes. -/
def MatchString (re : Regexp) (s : Bytes) : Prop :=
  ∃ i j, i ≤ s.length ∧ Matches s re i j

/-! ### Positions -/

variable {s : Bytes}

theorem ByteAt.lt {i m j : Nat} (h : ByteAt s i m j) : j = i + 1 ∧ j ≤ s.length := by
  obtain ⟨b, hb, -, rfl⟩ := h
  obtain ⟨hi, -⟩ := List.getElem?_eq_some_iff.mp hb
  exact ⟨rfl, hi⟩

theorem ByteAt.mem {i m j : Nat} (h : ByteAt s i m j) : ∃ b ∈ s, b.toNat = m := by
  obtain ⟨b, hb, rfl, -⟩ := h
  exact ⟨b, List.mem_of_getElem? hb, rfl⟩

theorem MatchesRunes.length {f : Bool} : ∀ {rs : List Nat} {i j : Nat},
    MatchesRunes s f rs i j → j = i + rs.length ∧ (i ≤ s.length → j ≤ s.length) := by
  intro rs
  induction rs with
  | nil =>
    rintro i j rfl
    exact ⟨rfl, id⟩
  | cons r rs ih =>
    rintro i j ⟨m, k, hat, -, hrest⟩
    obtain ⟨hk, hin⟩ := hat.lt
    obtain ⟨hj, hle⟩ := ih hrest
    rw [List.length_cons]
    exact ⟨by omega, fun _ => hle hin⟩

theorem MatchesRunes.mem {f : Bool} : ∀ {rs : List Nat} {i j : Nat},
    MatchesRunes s f rs i j → ∀ r ∈ rs, ∃ b ∈ s, FoldsTo f r b.toNat := by
  intro rs
  induction rs with
  | nil =>
    intro i j _ r hr
    cases hr
  | cons r rs ih =>
    rintro i j ⟨m, k, hat, hfold, hrest⟩ r' hr
    rcases List.mem_cons.mp hr with rfl | hr
    · obtain ⟨b, hb, rfl⟩ := hat.mem
      exact ⟨b, hb, hfold⟩
    · exact ih hrest r' hr

theorem Matches.le {re : Regexp} {i j : Nat} (h : Matches s re i j) :
    i ≤ j ∧ (i ≤ s.length → j ≤ s.length) := by
  induction h with
  | emptyMatch | empty | starNil | questNil | repeatNil | concatNil => exact ⟨Nat.le_refl _, id⟩
  | literal h =>
    obtain ⟨hj, hle⟩ := MatchesRunes.length h
    exact ⟨by omega, hle⟩
  | charClass hat | anyCharNotNL hat | anyChar hat =>
    obtain ⟨hj, hle⟩ := hat.lt
    exact ⟨by omega, fun _ => hle⟩
  | capture _ ih | questOne _ ih | alternate _ _ ih => exact ih
  | starCons _ _ ih ih' | plus _ _ ih ih' | repeatCons _ _ _ ih ih' | concatCons _ _ ih ih' =>
    exact ⟨ih.1.trans ih'.1, fun hi => ih'.2 (ih.2 hi)⟩

end Go.BinarySyntax
