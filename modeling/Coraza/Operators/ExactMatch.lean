import Coraza.Go.Folding
import Coraza.Go.Syntax

/-!
# The comparison that replaces an anchored literal

For a pattern like `^Upload$` the operator `@rx` compares the value with the literal and does not
run the expression.  The literal is read off the tree of the pattern as the rule has it
(`extractExactMatch`), while the expression that runs otherwise is parsed behind `(?sm)` or `(?s)`.
The two trees differ in their anchors and dots only (`Wrapped`), and on a value without a line feed
the anchors mean the same.

`exactMatch_agrees_iff` says for which patterns the comparison and the expression give the same
answer on all values: those whose literal has no rune outside the code points, or has a line feed.
A surrogate, which a pattern can name as `\x{0D800}`, is turned into U+FFFD by the conversion to a
string, so the comparison accepts U+FFFD where the expression matches nothing.
-/

namespace Coraza.Operators

open Go Go.Syntax List

def stripCaptures : Regexp → Regexp
  | .capture _ sub => stripCaptures sub
  | re => re

def exactRunes (re : Regexp) : List Nat :=
  match stripCaptures re with
  | .concat _ [.empty _ .beginText, .literal _ r rs, .empty _ .endText] => r :: rs
  | _ => []

/-- `extractExactMatch`: the literal and whether it is compared without regard to case. -/
def extractExactMatch (re : Regexp) : Bytes × Bool :=
  match stripCaptures re with
  | .concat _ [.empty _ .beginText, .literal fold r rs, .empty _ .endText] =>
    if runeError ∈ r :: rs then ([], false) else (encodeRunes (r :: rs), fold)
  | _ => ([], false)

/-- The part of `rx.Evaluate` that compares with the literal; `none` where it goes on to the
expression. -/
def exactAnswer (exactMatch : Bytes) (exactMatchCI capturing : Bool) (value : Bytes) :
    Option Bool :=
  if exactMatch ≠ [] ∧ capturing = false ∧ 0x0A ∉ value then
    some (if exactMatchCI then equalFold value exactMatch else decide (value = exactMatch))
  else none

/-- What a flag group `(?s)` or `(?sm)` in front of a pattern does to its tree: a dot may become one
that matches line feeds, and the anchors of the text may become those of the lines. -/
inductive Wrapped : Regexp → Regexp → Prop where
  | same {re} : re.subs = [] → Wrapped re re
  | dot {f} : Wrapped (.anyCharNotNL f) (.anyChar f)
  | beginLine {f} : Wrapped (.empty f .beginText) (.empty f .beginLine)
  | endLine {f} : Wrapped (.empty f .endText) (.empty f .endLine)
  | capture {f sub sub'} : Wrapped sub sub' → Wrapped (.capture f sub) (.capture f sub')
  | star {f sub sub'} : Wrapped sub sub' → Wrapped (.star f sub) (.star f sub')
  | plus {f sub sub'} : Wrapped sub sub' → Wrapped (.plus f sub) (.plus f sub')
  | quest {f sub sub'} : Wrapped sub sub' → Wrapped (.quest f sub) (.quest f sub')
  | repeatN {f min max sub sub'} : Wrapped sub sub' →
      Wrapped (.repeatN f min max sub) (.repeatN f min max sub')
  | concat {f subs subs'} : List.Forall₂ Wrapped subs subs' →
      Wrapped (.concat f subs) (.concat f subs')
  | alternate {f subs subs'} : List.Forall₂ Wrapped subs subs' →
      Wrapped (.alternate f subs) (.alternate f subs')

/-! ### The shape of the tree -/

/-- The tree is a literal between the anchors of the text, perhaps captured. -/
inductive Anchored (fold : Bool) (runes : List Nat) : Regexp → Prop where
  | concat {f g h r rs} : runes = r :: rs →
      Anchored fold runes (.concat f [.empty g .beginText, .literal fold r rs, .empty h .endText])
  | capture {f sub} : Anchored fold runes sub → Anchored fold runes (.capture f sub)

theorem anchored_of_strip {fold : Bool} {runes : List Nat} (re : Regexp)
    (h : Anchored fold runes (stripCaptures re)) : Anchored fold runes re := by
  fun_induction stripCaptures re with
  | case1 f sub ih => exact .capture (ih h)
  | case2 re _ => exact h

theorem extractExactMatch_spec {re : Regexp} (h : (extractExactMatch re).1 ≠ []) :
    runeError ∉ exactRunes re ∧ (extractExactMatch re).1 = encodeRunes (exactRunes re) ∧
      Anchored (extractExactMatch re).2 (exactRunes re) re := by
  have hstrip := fun fold runes => @anchored_of_strip fold runes re
  unfold extractExactMatch at h ⊢
  unfold exactRunes
  generalize stripCaptures re = tree at *
  split at h
  · split at h
    · exact absurd rfl h
    · rename_i hno
      rw [if_neg hno]
      exact ⟨hno, rfl, hstrip _ _ (.concat rfl)⟩
  · exact absurd rfl h

/-! ### The expression behind the flags -/

variable {value : Bytes} {runes : List Nat} {fold : Bool} {f : Bool}

theorem empty_matches_iff {op : EmptyOp} {i j n : Nat}
    (hop : op.holds value i = true ↔ i = n) : Matches value (.empty f op) i j ↔ i = n ∧ j = n := by
  constructor
  · intro hm
    cases hm with
    | empty hm =>
      rw [hop] at hm
      exact ⟨hm, hm⟩
  · rintro ⟨hi, rfl⟩
    have hm := hop.mpr hi
    subst hi
    exact .empty hm

variable {re re' : Regexp}

section

variable {value : Bytes} (hline : 0x0A ∉ value)

include hline

theorem begin_matches_iff {re : Regexp} (h : Wrapped (.empty f .beginText) re)
    {i j : Nat} : Matches value re i j ↔ i = 0 ∧ j = 0 := by
  cases h with
  | same _ => exact empty_matches_iff (by simp [EmptyOp.holds])
  | beginLine =>
    apply empty_matches_iff
    unfold EmptyOp.holds byteBefore
    rw [Bool.or_eq_true, beq_iff_eq, beq_iff_eq, or_iff_left_iff_imp]
    intro hbefore
    split at hbefore
    · assumption
    · exact absurd (mem_of_getElem? hbefore) hline

theorem end_matches_iff {re : Regexp} (h : Wrapped (.empty f .endText) re) {i j : Nat} :
    Matches value re i j ↔ i = value.length ∧ j = value.length := by
  cases h with
  | same _ => exact empty_matches_iff (by simp [EmptyOp.holds])
  | endLine =>
    apply empty_matches_iff
    unfold EmptyOp.holds
    rw [Bool.or_eq_true, beq_iff_eq, beq_iff_eq, or_iff_left_iff_imp]
    exact fun hafter => absurd (mem_of_getElem? hafter) hline

/-- Between the anchors the literal has to match the whole value. -/
theorem anchored_matches_iff {fold : Bool} {runes : List Nat}
    (hre : Anchored fold runes re) (hwrap : Wrapped re re') {i j : Nat} :
    Matches value re' i j ↔
      i = 0 ∧ j = value.length ∧ MatchesRunes value fold runes 0 value.length := by
  induction hre generalizing re' with
  | concat hrunes =>
    cases hwrap with
    | same hsubs => cases hsubs
    | concat hsubs =>
      obtain _ | ⟨hbegin, hsubs⟩ := hsubs
      obtain _ | ⟨hmiddle, hsubs⟩ := hsubs
      obtain _ | ⟨hend, hsubs⟩ := hsubs
      cases hsubs
      cases hmiddle
      subst hrunes
      simp only [matches_concat_cons_iff, matches_concat_nil_iff, matches_literal_iff,
        begin_matches_iff hline hbegin, end_matches_iff hline hend]
      constructor
      · rintro ⟨_, ⟨rfl, rfl⟩, _, hliteral, _, ⟨rfl, rfl⟩, rfl⟩
        exact ⟨rfl, rfl, hliteral⟩
      · rintro ⟨rfl, rfl, hliteral⟩
        exact ⟨0, ⟨rfl, rfl⟩, _, hliteral, _, ⟨rfl, rfl⟩, rfl⟩
  | capture _ ih =>
    cases hwrap with
    | same hsubs => cases hsubs
    | capture hsub =>
      rw [← ih hsub]
      constructor
      · intro hm
        cases hm with
        | capture hm => exact hm
      · exact .capture

theorem anchored_matchString_iff {fold : Bool} {runes : List Nat}
    (hre : Anchored fold runes re) (hwrap : Wrapped re re') :
    MatchString re' value ↔ List.Forall₂ (FoldsTo fold) runes (decodeRunes value) := by
  have hall := @matchesRunes_end_iff value fold runes 0 (Nat.zero_le _)
  rw [drop_zero] at hall
  rw [← hall]
  constructor
  · rintro ⟨i, j, -, hm⟩
    exact ((anchored_matches_iff hline hre hwrap).mp hm).2.2
  · intro hm
    exact ⟨0, value.length, .refl, (anchored_matches_iff hline hre hwrap).mpr ⟨rfl, rfl, hm⟩⟩

end

/-! ### The comparison -/

theorem foldsTo_true_iff {r m : Nat} : FoldsTo true r m ↔ SameFold r m := by
  constructor
  · exact FoldsTo.iterate
  · exact fun h => .inr ⟨rfl, h⟩

theorem foldsTo_false_iff {r m : Nat} : FoldsTo false r m ↔ r = m := by
  constructor
  · rintro (h | ⟨h, -⟩)
    · exact h.symm
    · cases h
  · exact fun h => .inl h.symm

/-- The comparison with the literal, rune by rune; a rune outside the code points was replaced. -/
theorem equalFold_literal_iff : equalFold value (encodeRunes runes) = true ↔
      List.Forall₂ (FoldsTo true) (runes.map cleanRune) (decodeRunes value) := by
  rw [equalFold, equalFoldRunes_iff, decodeRunes_encodeRunes]
  constructor
  · intro h
    exact List.Forall₂.flip (h.imp (fun m r hsame => foldsTo_true_iff.mpr hsame.symm))
  · intro h
    exact List.Forall₂.flip (h.imp (fun r m hfold => (foldsTo_true_iff.mp hfold).symm))

theorem map_cleanRune (h : ∀ r ∈ runes, validRune r = true) : runes.map cleanRune = runes := by
  refine (map_congr_left (fun r hr => ?_)).trans (map_id runes)
  rw [cleanRune, if_pos (h r hr)]
  rfl

theorem eq_literal_iff (herror : runeError ∉ runes) (h : ∀ r ∈ runes, validRune r = true) :
    value = encodeRunes runes ↔ List.Forall₂ (FoldsTo false) runes (decodeRunes value) := by
  constructor
  · rintro rfl
    rw [decodeRunes_encodeRunes, map_cleanRune h, forall₂_same]
    exact fun r _ => .inl rfl
  · intro hall
    have hm := (matchesRunes_end_iff (i := 0) (Nat.zero_le value.length)).mpr
      (by rw [drop_zero]; exact hall)
    have heq := hm.drop_eq herror
    rw [drop_length, append_nil] at heq
    exact heq

theorem newline_mem (h : 0x0A ∈ runes)
    (hall : List.Forall₂ (FoldsTo f) runes (decodeRunes value)) : 0x0A ∈ value := by
  have hread : ∃ m ∈ decodeRunes value, FoldsTo f 0x0A m := by
    generalize decodeRunes value = ms at hall
    induction hall with
    | nil => cases h
    | cons hfold _ ih =>
      rcases List.mem_cons.mp h with rfl | h
      · exact ⟨_, mem_cons_self, hfold⟩
      · obtain ⟨m, hm, hfold⟩ := ih h
        exact ⟨m, mem_cons_of_mem _ hm, hfold⟩
  obtain ⟨m, hm, hfold⟩ := hread
  have hsame : SameFold 0x0A m := hfold.iterate
  have heq : m = 0x0A := hsame.symm.eq_of_fixed (by decide)
  subst heq
  exact (mem_decodeRunes_ascii (c := 0x0A) (by decide) value).mp hm

theorem newline_of_encode (h : 0x0A ∈ encodeRunes runes) : 0x0A ∈ runes := by
  rw [← mem_decodeRunes_ascii (by decide), decodeRunes_encodeRunes] at h
  obtain ⟨r, hr, hclean⟩ := List.mem_map.mp h
  rw [cleanRune] at hclean
  split at hclean
  · rw [hclean] at hr
    exact hr
  · cases hclean

/-! ### Agreement -/

/-- The comparison with a literal of code points answers as the expression does. -/
theorem exact_iff (herror : runeError ∉ runes) (h : ∀ r ∈ runes, validRune r = true) :
    (if fold then equalFold value (encodeRunes runes) else decide (value = encodeRunes runes))
      = true
      ↔ List.Forall₂ (FoldsTo fold) runes (decodeRunes value) := by
  cases fold with
  | true => rw [if_pos rfl, equalFold_literal_iff, map_cleanRune h]
  | false => rw [if_neg Bool.false_ne_true, decide_eq_true_iff, eq_literal_iff herror h]

/-- The comparison implies that the value has the runes of the literal as they were converted. -/
theorem reads_of_exact
    (h : (if fold then equalFold value (encodeRunes runes) else decide (value = encodeRunes runes))
      = true) : List.Forall₂ (FoldsTo fold) (runes.map cleanRune) (decodeRunes value) := by
  cases fold with
  | true => exact equalFold_literal_iff.mp h
  | false =>
    rw [if_neg Bool.false_ne_true, decide_eq_true_iff] at h
    rw [h, decodeRunes_encodeRunes, forall₂_same]
    exact fun r _ => .inl rfl

theorem exact_self (literal : Bytes) :
    (if fold then equalFold literal literal else decide (literal = literal)) = true := by
  cases fold with
  | true =>
    rw [if_pos rfl, equalFold, equalFoldRunes_iff, forall₂_same]
    exact fun r _ => ⟨0, rfl⟩
  | false => rw [if_neg Bool.false_ne_true, decide_eq_true rfl]

/-- **For which patterns the comparison is right.**  On the values without a line feed it gives the
answer of the expression exactly if all runes of the literal are code points, or one is a line
feed. -/
theorem exactMatch_agrees_iff (hlit : (extractExactMatch re).1 ≠ []) (hwrap : Wrapped re re') :
    (∀ value : Bytes, 0x0A ∉ value → ∃ answer,
        exactAnswer (extractExactMatch re).1 (extractExactMatch re).2 false value = some answer ∧
          (answer = true ↔ MatchString re' value)) ↔
      (∀ r ∈ exactRunes re, validRune r = true) ∨ 0x0A ∈ exactRunes re := by
  obtain ⟨herror, hliteral, hre⟩ := extractExactMatch_spec hlit
  have hanswer : ∀ value : Bytes, 0x0A ∉ value →
      exactAnswer (extractExactMatch re).1 (extractExactMatch re).2 false value = some
        (if (extractExactMatch re).2 then equalFold value (encodeRunes (exactRunes re))
          else decide (value = encodeRunes (exactRunes re))) := by
    intro value hline
    rw [exactAnswer, if_pos ⟨hlit, rfl, hline⟩, hliteral]
  constructor
  · intro hall
    by_contra hno
    obtain ⟨hinvalid, hnewline⟩ := not_or.mp hno
    simp only [not_forall] at hinvalid
    obtain ⟨r, hr, hbad⟩ := hinvalid
    -- the literal itself is a value that the expression does not match
    have hline : 0x0A ∉ encodeRunes (exactRunes re) := fun h => hnewline (newline_of_encode h)
    obtain ⟨answer, heq, hiff⟩ := hall _ hline
    rw [hanswer _ hline, exact_self] at heq
    cases heq
    have hmatch := (anchored_matchString_iff hline hre hwrap).mp (hiff.mp rfl)
    rw [decodeRunes_encodeRunes, forall₂_map_right_iff, forall₂_same] at hmatch
    have hsame : SameFold r (cleanRune r) := (hmatch r hr).iterate
    rw [cleanRune, if_neg hbad] at hsame
    rw [hsame.eq_of_fixed (by decide +kernel)] at hbad
    exact hbad (by decide)
  · intro hcond value hline
    refine ⟨_, hanswer value hline, ?_⟩
    rw [anchored_matchString_iff hline hre hwrap]
    rcases hcond with hvalid | hnewline
    · exact exact_iff herror hvalid
    · refine iff_of_false (fun h => hline ?_) (fun h => hline (newline_mem hnewline h))
      refine newline_mem ?_ (reads_of_exact h)
      exact List.mem_map.mpr ⟨0x0A, hnewline, by decide⟩

def oneRune (r : Nat) : Regexp :=
  .concat false [.empty false .beginText, .literal false r [], .empty false .endText]

def oneRuneLines (r : Nat) : Regexp :=
  .concat false [.empty false .beginLine, .literal false r [], .empty false .endLine]

theorem oneRune_wrapped (r : Nat) : Wrapped (oneRune r) (oneRuneLines r) :=
  .concat (.cons .beginLine (.cons (.same rfl) (.cons .endLine .nil)))

/-- The pattern `^a$`. -/
theorem exactMatch_agrees_a : extractExactMatch (oneRune 0x61) = ([0x61], false) ∧
      ∀ value : Bytes, 0x0A ∉ value → ∃ answer,
        exactAnswer (extractExactMatch (oneRune 0x61)).1 (extractExactMatch (oneRune 0x61)).2 false
          value = some answer ∧ (answer = true ↔ MatchString (oneRuneLines 0x61) value) :=
  ⟨by decide, (exactMatch_agrees_iff (by decide) (oneRune_wrapped 0x61)).mpr (.inl (by decide))⟩

/-- **The comparison accepts what the expression does not match.**  The pattern is `^\x{0D800}$`,
the value is U+FFFD. -/
theorem exactMatch_surrogate : Wrapped (oneRune 0xD800) (oneRuneLines 0xD800) ∧
      exactAnswer (extractExactMatch (oneRune 0xD800)).1
        (extractExactMatch (oneRune 0xD800)).2 false
        [0xEF, 0xBF, 0xBD] = some true ∧
      ¬ MatchString (oneRuneLines 0xD800) [0xEF, 0xBF, 0xBD] := by
  refine ⟨oneRune_wrapped 0xD800, by decide, ?_⟩
  rw [anchored_matchString_iff (by decide) (.concat rfl) (oneRune_wrapped 0xD800)]
  have hruns : decodeRunes [0xEF, 0xBF, 0xBD] = [0xFFFD] := by decide
  rw [hruns, forall₂_cons, foldsTo_false_iff]
  exact fun h => absurd h.1 (by decide)

end Coraza.Operators
