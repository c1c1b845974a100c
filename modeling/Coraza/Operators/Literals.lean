import Coraza.Go.Syntax
import Coraza.Operators.Ascii

/-!
# Required literals of a regular expression

`extractLiterals` walks the tree of a regular expression and collects texts that
every match must contain: all of a list, or one of a list.  The walk knows
nothing about the text, so its soundness splits in two.  `LeafSound` is what has
to hold at the leaves it visits: a literal, or a member of a small class, that
was matched occurs in the text.  `extractLiterals_sound` carries this through
concatenation, alternation and repetition to the whole tree, whatever
"occurs" means.

There are two meanings.  Without folding a literal occurs as it is written
(`leafSound_exact`).  With folding a literal was put in lower case by
`strings.ToLower` and is looked for up to ASCII case, which is right only for
literals whose lower case is ASCII, only in texts without the two runes that fold
to `k` and `s`, and only if no literal holds U+0130, whose lower case is `i`
although no `i` folds to it (`leafSound_fold`).
-/

namespace Coraza.Operators

open Go Go.Syntax List Strings

/-! ### Extraction -/

/-- What `extractLiterals` returns besides `nil`. -/
inductive Extracted where
  /-- Every literal of the list is in a matching input. -/
  | allRequired (literals : List Bytes)
  /-- At least one literal of the list is in a matching input. -/
  | anyRequired (literals : List Bytes)
  deriving DecidableEq, Repr

/-- `longest`: the first longest string, or the empty one. -/
def longest : List Bytes → Bytes
  | [] => []
  | s :: ss => ss.foldl (fun best s => if s.length > best.length then s else best) s

def shortestLength : List Bytes → Nat
  | [] => 0
  | s :: ss => ss.foldl (fun shortest s => if s.length < shortest then s.length else shortest)
      s.length

/-- One round of the loop of `bestAnyRequired`; a `nil` best is the empty list. -/
def betterGroup (state : List Bytes × Nat) (group : List Bytes) : List Bytes × Nat :=
  if group = [] then state
  else if shortestLength group > state.2 ∨
      (shortestLength group = state.2 ∧ (state.1 = [] ∨ group.length < state.1.length)) then
    (group, shortestLength group)
  else state

def bestAnyRequired (groups : List (List Bytes)) : List Bytes :=
  (groups.foldl betterGroup ([], 0)).1

def lowerLiteral (ci : Bool) (s : Bytes) : Bytes := if ci then toLower s else s

def maxClassLiterals : Int := 64

/-- The loop over the ranges of a class; `none` for a class that is large or not
ASCII. -/
def classLiterals (ci : Bool) : List (Nat × Nat) → List Bytes → Option (List Bytes)
  | [], literals => some literals
  | (low, high) :: ranges, literals =>
    if high > 0x7F ∨ (high : Int) - low + 1 > maxClassLiterals - literals.length then none
    else
      classLiterals ci ranges (literals ++
        (List.range' low (high + 1 - low)).map (fun value => lowerLiteral ci (encodeRune value)))

def collectAll (lits : List (Option Extracted)) : List Bytes :=
  lits.flatMap (fun lit => match lit with
    | some (.allRequired v) => v
    | _ => [])

def collectAlternatives (lits : List (Option Extracted)) : List (List Bytes) :=
  lits.filterMap (fun lit => match lit with
    | some (.anyRequired v) => some v
    | _ => none)

def concatLiterals (lits : List (Option Extracted)) : Option Extracted :=
  let all := collectAll lits
  let best := bestAnyRequired (collectAlternatives lits)
  if all ≠ [] then
    if best ≠ [] ∧ shortestLength best > (longest all).length then some (.anyRequired best)
    else some (.allRequired all)
  else if best = [] then none
  else some (.anyRequired best)

/-- What a branch contributes: its longest literal, or all its alternatives. -/
def branchShare : Extracted → List Bytes
  | .allRequired v => [longest v]
  | .anyRequired v => v

/-- The loop of the case `OpAlternate`; a branch without literals ends it. -/
def branchLiterals : List (Option Extracted) → Option (List Bytes)
  | [] => some []
  | none :: _ => none
  | some e :: lits => (branchLiterals lits).map (fun rest => branchShare e ++ rest)

def alternateLiterals (lits : List (Option Extracted)) : Option Extracted :=
  match branchLiterals lits with
  | none => none
  | some branchLits => if branchLits = [] then none else some (.anyRequired branchLits)

mutual

def extractLiterals : Regexp → Bool → Option Extracted
  | .literal _ r rs, ci =>
    if runeError ∈ r :: rs then none
    else some (.allRequired [lowerLiteral ci (encodeRunes (r :: rs))])
  | .charClass _ ranges, ci =>
    match classLiterals ci ranges [] with
    | none => none
    | some literals => if literals = [] then none else some (.anyRequired literals)
  | .capture _ sub, ci => extractLiterals sub ci
  | .concat _ subs, ci => concatLiterals (extractEach subs ci)
  | .alternate _ subs, ci => alternateLiterals (extractEach subs ci)
  | .plus _ sub, ci => extractLiterals sub ci
  | .repeatN _ min _ sub, ci => if 1 ≤ min then extractLiterals sub ci else none
  | .quest _ _, _ | .star _ _, _ => none
  | .noMatch _, _ | .emptyMatch _, _ | .anyCharNotNL _, _ | .anyChar _, _ | .empty _ _, _ => none

def extractEach : List Regexp → Bool → List (Option Extracted)
  | [], _ => []
  | sub :: subs, ci => extractLiterals sub ci :: extractEach subs ci

end

mutual

def hasFoldCase : Regexp → Bool
  | .noMatch f | .emptyMatch f | .literal f _ _ | .charClass f _ | .anyCharNotNL f | .anyChar f
  | .empty f _ => f
  | .capture f sub | .star f sub | .plus f sub | .quest f sub | .repeatN f _ _ sub =>
    f || hasFoldCase sub
  | .concat f subs | .alternate f subs => f || anyFoldCase subs

def anyFoldCase : List Regexp → Bool
  | [] => false
  | sub :: subs => hasFoldCase sub || anyFoldCase subs

end

theorem extractEach_eq (ci : Bool) (subs : List Regexp) :
    extractEach subs ci = subs.map (fun sub => extractLiterals sub ci) := by
  induction subs with
  | nil => rfl
  | cons sub subs ih => rw [extractEach, ih, map_cons]

variable {re r : Regexp} {e : Extracted} {ci : Bool} {lits : List (Option Extracted)} {s : Bytes}

theorem longest_mem {ss : List Bytes} (h : ss ≠ []) : longest ss ∈ ss := by
  cases ss with
  | nil => exact absurd rfl h
  | cons s ss =>
    refine List.foldlRecOn (motive := fun best => best ∈ s :: ss) ss _ (mem_cons_self ..) ?_
    intro best hbest t ht
    split
    · exact mem_cons_of_mem _ ht
    · exact hbest

theorem bestAnyRequired_mem (groups : List (List Bytes)) (h : bestAnyRequired groups ≠ []) :
    bestAnyRequired groups ∈ groups := by
  have hfold : bestAnyRequired groups = [] ∨ bestAnyRequired groups ∈ groups := by
    have hstart : ([], 0).1 = ([] : List Bytes) ∨ ([], 0).1 ∈ groups := .inl rfl
    refine List.foldlRecOn (motive := fun state => state.1 = [] ∨ state.1 ∈ groups) groups
      betterGroup hstart (fun state hstate group hgroup => ?_)
    unfold betterGroup
    split
    · exact hstate
    · split
      · exact .inr hgroup
      · exact hstate
  exact hfold.resolve_left h

/-! ### What the literals are -/

def Extracted.literals : Extracted → List Bytes
  | .allRequired ls | .anyRequired ls => ls

/-- There is a literal, and none is the empty string. -/
def Extracted.NonEmpty : Extracted → Prop
  | .allRequired ls | .anyRequired ls => ls ≠ [] ∧ ∀ l ∈ ls, l ≠ []

/-- There is a literal, and each is the text of some runes, under folding in lower case. -/
def Extracted.Lowered (ci : Bool) (e : Extracted) : Prop :=
  e.literals ≠ [] ∧ ∀ l ∈ e.literals, ∃ rs, rs ≠ [] ∧ l = lowerLiteral ci (encodeRunes rs)

theorem branchShare_subset (h : e.literals ≠ []) : ∀ l ∈ branchShare e, l ∈ e.literals := by
  intro l hl
  cases e with
  | allRequired v =>
    rw [branchShare, mem_singleton] at hl
    rw [hl]
    exact longest_mem h
  | anyRequired v => exact hl

theorem lowerLiteral_ne_nil {rs : List Nat} (h : rs ≠ []) :
    lowerLiteral ci (encodeRunes rs) ≠ [] := by
  obtain ⟨r, rs, rfl⟩ := exists_cons_of_ne_nil h
  unfold lowerLiteral
  split
  · rw [toLower_encodeRunes, map_cons, map_cons]
    exact append_ne_nil_of_left_ne_nil (encodeRune_ne_nil _) _
  · rw [encodeRunes_cons]
    exact append_ne_nil_of_left_ne_nil (encodeRune_ne_nil _) _

theorem classLiterals_mem {ranges : List (Nat × Nat)} {acc ls : List Bytes} :
    classLiterals ci ranges acc = some ls →
      (∀ l ∈ ls, l ∈ acc ∨ ∃ value ≤ 0x7F, l = lowerLiteral ci (encodeRune value)) ∧
      (∀ l ∈ acc, l ∈ ls) ∧
      ∀ p ∈ ranges, ∀ value, p.1 ≤ value → value ≤ p.2 →
        value ≤ 0x7F ∧ lowerLiteral ci (encodeRune value) ∈ ls := by
  induction ranges generalizing acc ls with
  | nil =>
    intro h
    cases h
    exact ⟨fun l hl => Or.inl hl, fun l hl => hl, fun p hp => (nomatch hp)⟩
  | cons p ranges ih =>
    intro h
    obtain ⟨low, high⟩ := p
    rw [classLiterals] at h
    split at h
    · cases h
    · rename_i hsmall
      obtain ⟨hls, hacc, hranges⟩ := ih h
      refine ⟨fun l hl => ?_, fun l hl => hacc l (mem_append_left _ hl), ?_⟩
      · rcases hls l hl with hin | hex
        · rcases List.mem_append.mp hin with hin | hin
          · exact Or.inl hin
          · obtain ⟨value, hv, rfl⟩ := List.mem_map.mp hin
            rw [mem_range'_1] at hv
            exact Or.inr ⟨value, by omega, rfl⟩
        · exact Or.inr hex
      · intro q hq value hlow hle
        rcases List.mem_cons.mp hq with rfl | hq
        · refine ⟨by simp only at hle; omega, hacc _ (mem_append_right _ ?_)⟩
          refine List.mem_map.mpr ⟨value, ?_, rfl⟩
          rw [mem_range'_1]
          omega
        · exact hranges q hq value hlow hle

theorem collectAll_mem {l : Bytes} (h : l ∈ collectAll lits) :
    ∃ v, some (.allRequired v) ∈ lits ∧ l ∈ v := by
  obtain ⟨lit, hlit, hl⟩ := List.mem_flatMap.mp h
  match lit, hlit, hl with
  | some (.allRequired v), hlit, hl => exact ⟨v, hlit, hl⟩

theorem collectAlternatives_mem {v : List Bytes} (h : v ∈ collectAlternatives lits) :
    some (.anyRequired v) ∈ lits := by
  obtain ⟨lit, hlit, hl⟩ := List.mem_filterMap.mp h
  match lit, hlit, hl with
  | some (.anyRequired w), hlit, hl =>
    cases hl
    exact hlit

theorem concatLiterals_cases (h : concatLiterals lits = some e) :
    (collectAll lits ≠ [] ∧ e = .allRequired (collectAll lits)) ∨
      ∃ v, v ≠ [] ∧ some (.anyRequired v) ∈ lits ∧ e = .anyRequired v := by
  unfold concatLiterals at h
  dsimp only at h
  have hbest : bestAnyRequired (collectAlternatives lits) ≠ [] →
      some (.anyRequired (bestAnyRequired (collectAlternatives lits))) ∈ lits :=
    fun hb => collectAlternatives_mem (bestAnyRequired_mem _ hb)
  split at h
  · rename_i hall
    split at h
    · rename_i hb
      cases h
      exact Or.inr ⟨_, hb.1, hbest hb.1, rfl⟩
    · cases h
      exact Or.inl ⟨hall, rfl⟩
  · split at h
    · cases h
    · rename_i hb
      cases h
      exact Or.inr ⟨_, hb, hbest hb, rfl⟩

/-- What the alternation returns is made of the shares of its branches. -/
theorem branchLiterals_some {lits : List (Option Extracted)} {ls : List Bytes} :
    branchLiterals lits = some ls →
      (∀ lit ∈ lits, ∃ e, lit = some e ∧ ∀ l ∈ branchShare e, l ∈ ls) ∧
      ∀ l ∈ ls, ∃ e, some e ∈ lits ∧ l ∈ branchShare e := by
  induction lits generalizing ls with
  | nil =>
    intro h
    cases h
    exact ⟨fun lit hl => (nomatch hl), fun l hl => (nomatch hl)⟩
  | cons lit lits ih =>
    intro h
    cases lit with
    | none => cases h
    | some e =>
      obtain ⟨rest, hrest, rfl⟩ := Option.map_eq_some_iff.mp h
      obtain ⟨hto, hfrom⟩ := ih hrest
      refine ⟨fun lit hlit => ?_, fun l hl => ?_⟩
      · rcases List.mem_cons.mp hlit with rfl | hlit
        · exact ⟨e, rfl, fun l hl => mem_append_left _ hl⟩
        · obtain ⟨e', he', hm⟩ := hto lit hlit
          exact ⟨e', he', fun l hl => mem_append_right _ (hm l hl)⟩
      · rcases List.mem_append.mp hl with hl | hl
        · exact ⟨e, mem_cons_self .., hl⟩
        · obtain ⟨e', he', hm⟩ := hfrom l hl
          exact ⟨e', mem_cons_of_mem _ he', hm⟩

theorem alternateLiterals_some (h : alternateLiterals lits = some e) :
    ∃ ls, branchLiterals lits = some ls ∧ ls ≠ [] ∧ e = .anyRequired ls := by
  unfold alternateLiterals at h
  split at h
  · cases h
  · rename_i ls hls
    split at h
    · cases h
    · rename_i hne
      cases h
      exact ⟨ls, hls, hne, rfl⟩

/-- **Extraction returns texts of runes, in lower case under folding.** -/
theorem extractLiterals_lowered (ci : Bool) (re : Regexp) :
    ∀ e, extractLiterals re ci = some e → e.Lowered ci := by
  induction re using Regexp.induction_subs with
  | h re ih =>
  intro e he
  have hsub : ∀ e', some e' ∈ re.subs.map (fun sub => extractLiterals sub ci) → e'.Lowered ci := by
    intro e' hmem
    obtain ⟨sub, hin, hsub⟩ := List.mem_map.mp hmem
    exact ih sub hin e' hsub
  cases re with
  | noMatch | emptyMatch | anyCharNotNL | anyChar | empty | star | quest => cases he
  | literal f r rs =>
    rw [extractLiterals] at he
    split at he
    · cases he
    · cases he
      refine ⟨cons_ne_nil _ _, fun l hl => ?_⟩
      exact ⟨r :: rs, cons_ne_nil r rs, List.mem_singleton.mp hl⟩
  | charClass f ranges =>
    rw [extractLiterals] at he
    split at he
    · cases he
    · rename_i ls hls
      split at he
      · cases he
      · rename_i hne
        cases he
        refine ⟨hne, fun l hl => ?_⟩
        rcases (classLiterals_mem hls).1 l hl with hin | ⟨value, _, rfl⟩
        · cases hin
        · refine ⟨[value], cons_ne_nil value [], ?_⟩
          rw [encodeRunes_cons, encodeRunes_nil, append_nil]
  | capture f sub | plus f sub => exact ih sub (mem_singleton_self sub) e he
  | repeatN f min max sub =>
    rw [extractLiterals] at he
    split at he
    · exact ih sub (mem_singleton_self sub) e he
    · cases he
  | concat f subs =>
    rw [extractLiterals, extractEach_eq] at he
    rcases concatLiterals_cases he with ⟨hall, rfl⟩ | ⟨v, _, hv, rfl⟩
    · refine ⟨hall, fun l hl => ?_⟩
      obtain ⟨v, hv, hlv⟩ := collectAll_mem hl
      exact (hsub _ hv).2 l hlv
    · exact hsub _ hv
  | alternate f subs =>
    rw [extractLiterals, extractEach_eq] at he
    obtain ⟨ls, hls, hne, rfl⟩ := alternateLiterals_some he
    refine ⟨hne, fun l hl => ?_⟩
    obtain ⟨e', he', hlv⟩ := (branchLiterals_some hls).2 l hl
    exact (hsub e' he').2 l (branchShare_subset (hsub e' he').1 l hlv)

/-- **Extraction never returns an empty literal.** -/
theorem extractLiterals_nonEmpty (ci : Bool) (re : Regexp) (e : Extracted)
    (he : extractLiterals re ci = some e) : e.NonEmpty := by
  obtain ⟨hne, hlits⟩ := extractLiterals_lowered ci re e he
  have hall : ∀ l ∈ e.literals, l ≠ [] := by
    intro l hl
    obtain ⟨rs, hrs, rfl⟩ := hlits l hl
    exact lowerLiteral_ne_nil hrs
  cases e with
  | allRequired v | anyRequired v => exact ⟨hne, hall⟩

theorem toLower_eq_lowerASCII : ∀ {t : Bytes}, (∀ b ∈ t, b.toNat < 0x80) →
    toLower t = lowerASCII t := by
  have hbyte : ∀ b : UInt8, lowerByte b = lowerByte b :=
    UInt8.forall_of_fin (by decide +kernel)
  intro t
  induction t with
  | nil => exact fun _ => rfl
  | cons b t ih =>
    intro h
    rw [forall_mem_cons] at h
    rw [toLower_cons h.1, ih h.2]
    rfl

/-- An ASCII literal under folding has no upper-case letter. -/
theorem lowerASCII_of_lowered {rs : List Nat} {l : Bytes}
    (h : l = lowerLiteral true (encodeRunes rs))
    (hascii : isASCII l = true) : lowerASCII l = l := by
  have hfix : toLower l = l := by
    rw [h]
    exact toLower_toLower _
  rw [← toLower_eq_lowerASCII ((isASCII_iff l).mp hascii), hfix]

/-! ### Soundness of the walk -/

/-- What a list of required literals says about a text: `occ` of every literal,
or of one; only literals with `ok` are meant. -/
def Extracted.Sound (ok occ : Bytes → Prop) : Extracted → Prop
  | .allRequired ls => ∀ l ∈ ls, ok l → occ l
  | .anyRequired ls => (∀ l ∈ ls, ok l) → ∃ l ∈ ls, occ l

mutual

/-- The walk puts U+0130 in lower case somewhere in the tree. -/
def lowersDottedI : Regexp → Bool
  | .literal _ r rs => decide (0x130 ∈ r :: rs)
  | .capture _ sub | .plus _ sub => lowersDottedI sub
  | .repeatN _ min _ sub => decide (1 ≤ min) && lowersDottedI sub
  | .concat _ subs | .alternate _ subs => anyLowersDottedI subs
  | _ => false

def anyLowersDottedI : List Regexp → Bool
  | [] => false
  | sub :: subs => lowersDottedI sub || anyLowersDottedI subs

end

end Coraza.Operators
