import Coraza.Go.BinarySyntax
import Coraza.Operators.RequiredByte

/-!
# The filter of the binary regular expressions

A pattern that has to match bytes outside UTF-8 runs on the byte engine, behind a filter of its own.
From the tree of the pattern `extractBinaryRequiredConstraint` computes a list of clauses, each a
few bytes: a text that the pattern matches has all the bytes of some clause.  A concatenation
multiplies the clauses of its parts, an alternation joins those of its branches, and there are
bounds on both, on the number of clauses and on the bytes of one clause.  `binaryMinimumMatchBytes`
computes how many bytes a match has at least.

Whatever the bounds cut away, they only weaken the constraint (`combine_holds`, `select_subset`,
`deduplicate_holds`), so the filter rejects no text that the pattern matches:
`binaryPrefilter_accepts`.
-/

namespace Coraza.Operators

open Go Go.Syntax List

/-! ### Inclusion of bitmaps -/

/-- The loop `if present[index]&required != required { possible = false }`. -/
def Bitmap.includes (present bits : Bitmap) : Bool :=
  (List.finRange 4).all (fun index => present index &&& bits index == bits index)

theorem Bitmap.includes_iff (a b : Bitmap) :
    a.includes b = true ↔ ∀ c, b.test c = true → a.test c = true := by
  unfold includes
  simp only [all_eq_true, mem_finRange, true_imp_iff, beq_iff_eq]
  constructor
  · intro h c hb
    have hbit := congrArg (fun w => w.getLsbD (c.toNat % 64)) (h (word c))
    rw [BitVec.getLsbD_and] at hbit
    unfold test at hb ⊢
    rw [hb, Bool.and_true] at hbit
    exact hbit
  · intro h i
    apply BitVec.eq_of_getLsbD_eq
    intro k hk
    rw [BitVec.getLsbD_and, Bool.and_eq_right_iff_imp]
    -- bit `k` of word `i` is the bit of a byte
    obtain ⟨c, hword, hmod⟩ := exists_byte i hk
    have hc := h c
    unfold test at hc
    rw [hword, hmod] at hc
    exact hc

/-! ### Clauses -/

def maxBinaryRequiredClauses : Nat := 64

def maxBinaryRequiredBytesPerClause : Nat := 8

structure BinaryRequiredClause where
  bits : Bitmap
  bytes : Bytes
  agree : ∀ c, bits.test c = true ↔ c ∈ bytes

def newBinaryRequiredClause (values : Bytes) : BinaryRequiredClause :=
  ⟨Bitmap.presence values, values, Bitmap.test_presence values⟩

def betterRequired (selected : Bytes) (best : Option UInt8) (value : UInt8) : Option UInt8 :=
  if value ∈ selected then best
  else match best with
    | none => some value
    | some current =>
      if byteRarity value > byteRarity current ∨
          (byteRarity value = byteRarity current ∧ value.toNat < current.toNat) then some value
      else some current

def selectRounds (values : Bytes) : Nat → Bytes → Bytes
  | 0, selected => selected
  | rounds + 1, selected =>
    match values.foldl (betterRequired selected) none with
    | none => selected
    | some value => selectRounds values rounds (selected ++ [value])

/-- `selectBinaryRequiredBytes`: every round selects one byte. -/
def selectBinaryRequiredBytes (values : Bytes) : Bytes :=
  selectRounds values maxBinaryRequiredBytesPerClause []

def deduplicateLoop : List BinaryRequiredClause → List Bitmap → List BinaryRequiredClause
  | [], _ => []
  | clause :: clauses, seen =>
    if clause.bits ∈ seen then deduplicateLoop clauses seen
    else clause :: deduplicateLoop clauses (clause.bits :: seen)

def deduplicateBinaryRequiredClauses (clauses : List BinaryRequiredClause) :
    List BinaryRequiredClause :=
  deduplicateLoop clauses []

/-- `combineBinaryRequiredConstraints`: both have to hold.  When there would be too many clauses,
one of the two is dropped. -/
def combineBinaryRequiredConstraints (left right : List BinaryRequiredClause) :
    List BinaryRequiredClause :=
  if left.length * right.length > maxBinaryRequiredClauses then
    if right.length < left.length then right else left
  else
    deduplicateBinaryRequiredClauses (left.flatMap (fun leftClause => right.map (fun rightClause =>
      newBinaryRequiredClause
        (selectBinaryRequiredBytes (leftClause.bytes ++ rightClause.bytes)))))

/-- The bytes of a literal that any match has; under folding the letters and the bytes outside ASCII
may be read as others. -/
def literalBytes (fold : Bool) : List Nat → Bytes → Option Bytes
  | [], values => some values
  | r :: rs, values =>
    if r > 255 then none
    else if fold ∧ ((0x41 ≤ r ∧ r ≤ 0x5A) ∨ (0x61 ≤ r ∧ r ≤ 0x7A) ∨ 0x80 ≤ r) then
      literalBytes fold rs values
    else if UInt8.ofNat r ∈ values then literalBytes fold rs values
    else literalBytes fold rs (values ++ [UInt8.ofNat r])

def binaryLiteralConstraint (fold : Bool) (runes : List Nat) : Option (List BinaryRequiredClause) :=
  match literalBytes fold runes [] with
  | none | some [] => none
  | some values => some [newBinaryRequiredClause (selectBinaryRequiredBytes values)]

mutual

/-- `extractBinaryRequiredConstraint`; `none` where the result is not useful. -/
def extractBinaryRequiredConstraint : Regexp → Option (List BinaryRequiredClause)
  | .literal fold r rs => binaryLiteralConstraint fold (r :: rs)
  | .capture _ sub | .plus _ sub => extractBinaryRequiredConstraint sub
  | .repeatN _ min _ sub => if min = 0 then none else extractBinaryRequiredConstraint sub
  | .concat _ subs =>
    match concatConstraint subs [] with
    | [] => none
    | combined => some combined
  | .alternate _ subs => alternateConstraint subs []
  | .noMatch _ | .emptyMatch _ | .charClass _ _ | .anyCharNotNL _ | .anyChar _ | .empty _ _
  | .star _ _ | .quest _ _ => none

def concatConstraint : List Regexp → List BinaryRequiredClause → List BinaryRequiredClause
  | [], combined => combined
  | sub :: subs, combined =>
    match extractBinaryRequiredConstraint sub with
    | none => concatConstraint subs combined
    | some child =>
      concatConstraint subs (if combined.isEmpty then child
        else combineBinaryRequiredConstraints combined child)

def alternateConstraint :
    List Regexp → List BinaryRequiredClause → Option (List BinaryRequiredClause)
  | [], alternatives =>
    if alternatives.isEmpty then none else some (deduplicateBinaryRequiredClauses alternatives)
  | sub :: subs, alternatives =>
    match sub with
    | .noMatch _ => alternateConstraint subs alternatives
    | sub =>
      match extractBinaryRequiredConstraint sub with
      | none => none
      | some child =>
        if alternatives.length + child.length > maxBinaryRequiredClauses then none
        else alternateConstraint subs (alternatives ++ child)

end

/-! ### The least number of bytes -/

/-- `int(^uint(0)>>1)`. -/
def maxInt : Nat := 2 ^ 63 - 1

mutual

def binaryMinimumMatchBytes : Regexp → Nat
  | .literal _ r rs => (r :: rs).length
  | .anyCharNotNL _ | .anyChar _ | .charClass _ _ => 1
  | .capture _ sub | .plus _ sub => binaryMinimumMatchBytes sub
  | .concat _ subs => concatMinimum subs 0
  | .alternate _ [] => 0
  | .alternate _ (sub :: subs) => alternateMinimum subs (binaryMinimumMatchBytes sub)
  | .repeatN _ min _ sub =>
    if min = 0 then 0
    else
      let minimum := binaryMinimumMatchBytes sub
      if minimum ≠ 0 ∧ min > maxInt / minimum then 0 else min * minimum
  | .noMatch _ | .emptyMatch _ | .empty _ _ | .star _ _ | .quest _ _ => 0

def concatMinimum : List Regexp → Nat → Nat
  | [], total => total
  | sub :: subs, total =>
    if binaryMinimumMatchBytes sub > maxInt - total then 0
    else concatMinimum subs (total + binaryMinimumMatchBytes sub)

def alternateMinimum : List Regexp → Nat → Nat
  | [], minimum => minimum
  | sub :: subs, minimum =>
    alternateMinimum subs (if binaryMinimumMatchBytes sub < minimum then binaryMinimumMatchBytes sub
      else minimum)

end

/-! ### The filter -/

structure BinaryRequiredPrefilter where
  minimumBytes : Nat
  clauses : List BinaryRequiredClause

/-- `compileBinaryRequiredPrefilter`; the argument is `none` if the pattern does not parse. -/
def compileBinaryRequiredPrefilter (parsed : Option Regexp) : Option BinaryRequiredPrefilter :=
  match parsed with
  | none => none
  | some re =>
    match extractBinaryRequiredConstraint re with
    | none | some [] => none
    | some constraint =>
      some { minimumBytes := binaryMinimumMatchBytes re, clauses := constraint }

namespace BinaryRequiredPrefilter

def possibleDirect (filter : BinaryRequiredPrefilter) (value : Bytes) : Bool :=
  filter.clauses.any (fun clause => clause.bytes.all (fun b =>
    (Strings.indexByte value b).isSome))

def possibleFromPresence (filter : BinaryRequiredPrefilter) (present : Bitmap) : Bool :=
  filter.clauses.any (fun clause => present.includes clause.bits)

/-- `binaryRequiredPrefilter.possible`: the answer and the transaction after it. -/
def possible {σ : Type} (filter : BinaryRequiredPrefilter) (cache : Option (BytePresenceCache σ))
    (tx : σ) (value : Bytes) : Bool × σ :=
  if value.length < filter.minimumBytes then (false, tx)
  else
    match cache with
    | none => (filter.possibleDirect value, tx)
    | some cache =>
      if value.length < cachedBytePresenceMinInputBytes then (filter.possibleDirect value, tx)
      else
        match cache.loadBytePresence tx value with
        | some present => (filter.possibleFromPresence present, tx)
        | none =>
          if filter.possibleDirect value then (true, tx)
          else (false, cache.storeBytePresence tx value (Bitmap.presence value))

end BinaryRequiredPrefilter

/-! ### What the bounds keep -/

def BinaryRequiredClause.Holds (clause : BinaryRequiredClause) (value : Bytes) : Prop :=
  ∀ b ∈ clause.bytes, b ∈ value

def Required (clauses : List BinaryRequiredClause) (value : Bytes) : Prop :=
  ∃ clause ∈ clauses, clause.Holds value

variable {value : Bytes}

theorem BinaryRequiredClause.Holds.congr {c d : BinaryRequiredClause} (hbits : c.bits = d.bits)
    (h : c.Holds value) : d.Holds value := by
  intro b hb
  rw [← d.agree, ← hbits, c.agree] at hb
  exact h b hb

variable {values : Bytes} {f : Bool}

theorem betterRequired_mem {selected : Bytes} {best : Option UInt8} {b : UInt8}
    (hbest : ∀ v ∈ best, v ∈ values) (hb : b ∈ values) :
    ∀ v ∈ betterRequired selected best b, v ∈ values := by
  intro v hv
  unfold betterRequired at hv
  split at hv
  · exact hbest v hv
  split at hv
  · cases hv
    exact hb
  split at hv
  · cases hv
    exact hb
  · exact hbest v hv

theorem best_mem {selected : Bytes} (l : Bytes) (best : Option UInt8) (hl : ∀ b ∈ l, b ∈ values)
    (hbest : ∀ v ∈ best, v ∈ values) :
    ∀ v ∈ l.foldl (betterRequired selected) best, v ∈ values :=
  List.foldlRecOn (motive := fun best => ∀ v ∈ best, v ∈ values) l _ hbest
    (fun _ hbest b hb => betterRequired_mem hbest (hl b hb))

theorem selectRounds_subset (rounds : Nat) (selected : Bytes) :
    (∀ b ∈ selected, b ∈ values) → ∀ b ∈ selectRounds values rounds selected, b ∈ values := by
  induction rounds generalizing selected with
  | zero => exact fun h => h
  | succ rounds ih =>
    intro h
    rw [selectRounds]
    split
    · exact h
    · rename_i v hv
      apply ih
      intro b hb
      rcases List.mem_append.mp hb with hb | hb
      · exact h b hb
      · rw [List.mem_singleton.mp hb]
        exact best_mem values none (fun _ hb => hb) (fun v hv => nomatch hv) v hv

theorem select_subset : ∀ b ∈ selectBinaryRequiredBytes values, b ∈ values :=
  selectRounds_subset _ [] (fun _ hb => nomatch hb)

theorem newClause_holds (h : ∀ b ∈ values, b ∈ value) :
    (newBinaryRequiredClause (selectBinaryRequiredBytes values)).Holds value :=
  fun b hb => h b (select_subset b hb)

theorem deduplicateLoop_holds : ∀ (clauses : List BinaryRequiredClause) (seen : List Bitmap),
    Required clauses value →
    Required (deduplicateLoop clauses seen) value ∨
      ∃ c : BinaryRequiredClause, c.bits ∈ seen ∧ c.Holds value := by
  intro clauses
  induction clauses with
  | nil =>
    rintro seen ⟨c, hc, -⟩
    cases hc
  | cons d clauses ih =>
    rintro seen ⟨c, hc, hholds⟩
    rw [deduplicateLoop]
    split
    · rename_i hseen
      rcases List.mem_cons.mp hc with rfl | hc
      · exact .inr ⟨c, hseen, hholds⟩
      · exact ih seen ⟨c, hc, hholds⟩
    · rcases List.mem_cons.mp hc with rfl | hc
      · exact .inl ⟨c, mem_cons_self, hholds⟩
      rcases ih (d.bits :: seen) ⟨c, hc, hholds⟩ with ⟨e, he, heholds⟩ | ⟨e, he, heholds⟩
      · exact .inl ⟨e, mem_cons_of_mem d he, heholds⟩
      rcases List.mem_cons.mp he with he | he
      · exact .inl ⟨d, mem_cons_self, heholds.congr he⟩
      · exact .inr ⟨e, he, heholds⟩

variable {clauses : List BinaryRequiredClause}

theorem deduplicate_holds (h : Required clauses value) :
    Required (deduplicateBinaryRequiredClauses clauses) value := by
  rcases deduplicateLoop_holds clauses [] h with h | ⟨c, hc, -⟩
  · exact h
  · cases hc

theorem combine_holds {left right : List BinaryRequiredClause} (hleft : Required left value)
    (hright : Required right value) :
    Required (combineBinaryRequiredConstraints left right) value := by
  unfold combineBinaryRequiredConstraints
  split
  · split
    · exact hright
    · exact hleft
  · obtain ⟨c, hc, hcholds⟩ := hleft
    obtain ⟨d, hd, hdholds⟩ := hright
    refine deduplicate_holds ⟨_, List.mem_flatMap.mpr ⟨c, hc, List.mem_map.mpr ⟨d, hd, rfl⟩⟩, ?_⟩
    apply newClause_holds
    intro b hb
    rcases List.mem_append.mp hb with hb | hb
    · exact hcholds b hb
    · exact hdholds b hb

/-! ### Literals -/

/-- Under folding, an ASCII rune that is no letter is read only as itself. -/
theorem eq_of_foldsTo {r : Nat} {b : UInt8}
    (hr : ¬(f = true ∧ ((0x41 ≤ r ∧ r ≤ 0x5A) ∨ (0x61 ≤ r ∧ r ≤ 0x7A) ∨ 0x80 ≤ r)))
    (h : FoldsTo f r b.toNat) : UInt8.ofNat r = b := by
  rcases h with h | ⟨hf, n, hn⟩
  · rw [← h, UInt8.ofNat_toNat]
  · have hlow : r < 0x80 := by
      by_contra hno
      exact hr ⟨hf, .inr (.inr (Nat.le_of_not_lt hno))⟩
    have hself : toLower r = r := by
      rw [toLower, if_pos hlow, if_neg (fun h => hr ⟨hf, .inl h⟩)]
    have hclass := asciiClass_iterate (Or.inl ⟨hlow, hself⟩ : AsciiClass r r) n
    rw [hn] at hclass
    have hb := b.toNat_lt
    have hsame : b.toNat = r := by
      rcases hclass with ⟨hblow, hbr⟩ | ⟨hbig, -⟩ | ⟨hbig, -⟩
      · rw [toLower, if_pos hblow] at hbr
        split at hbr
        · exact absurd ⟨hf, .inr (.inl (by omega))⟩ hr
        · exact hbr
      · omega
      · omega
    rw [← hsame, UInt8.ofNat_toNat]

theorem literalBytes_mem {rs : List Nat} {values out : Bytes} :
    literalBytes f rs values = some out → (∀ r ∈ rs, ∃ b ∈ value, FoldsTo f r b.toNat) →
    (∀ b ∈ values, b ∈ value) → ∀ b ∈ out, b ∈ value := by
  induction rs generalizing values out with
  | nil =>
    intro hout _ hvalues
    cases hout
    exact hvalues
  | cons r rs ih =>
    intro hout hread hvalues
    rw [forall_mem_cons] at hread
    rw [literalBytes] at hout
    split at hout
    · cases hout
    split at hout
    · exact ih hout hread.2 hvalues
    rename_i hfixed
    split at hout
    · exact ih hout hread.2 hvalues
    · refine ih hout hread.2 (fun b hb => ?_)
      rcases List.mem_append.mp hb with hb | hb
      · exact hvalues b hb
      · obtain ⟨c, hc, hfold⟩ := hread.1
        rw [List.mem_singleton.mp hb, eq_of_foldsTo hfixed hfold]
        exact hc

theorem binaryLiteralConstraint_holds {rs : List Nat}
    (h : binaryLiteralConstraint f rs = some clauses)
    (hread : ∀ r ∈ rs, ∃ b ∈ value, FoldsTo f r b.toNat) : Required clauses value := by
  unfold binaryLiteralConstraint at h
  split at h
  · cases h
  · cases h
  · rename_i values hvalues
    cases h
    have hmem := literalBytes_mem hvalues hread (fun b hb => nomatch hb)
    exact ⟨_, mem_singleton_self _, newClause_holds hmem⟩

/-! ### The constraint of a tree -/

/-- What the proof knows of a sub-expression: if it matches somewhere, its constraint holds. -/
def ConstraintSound (value : Bytes) (re : Regexp) : Prop :=
  ∀ clauses, extractBinaryRequiredConstraint re = some clauses →
    ∀ i j, BinarySyntax.Matches value re i j → Required clauses value

theorem concatConstraint_holds : ∀ {subs : List Regexp}
    {combined : List BinaryRequiredClause} {i j : Nat}, (∀ sub ∈ subs, ConstraintSound value sub) →
    (combined = [] ∨ Required combined value) → BinarySyntax.Matches value (.concat f subs) i j →
    concatConstraint subs combined = [] ∨ Required (concatConstraint subs combined) value := by
  intro subs
  induction subs with
  | nil => exact fun _ hcombined _ => hcombined
  | cons sub subs ih =>
    intro combined i j hsubs hcombined h
    rw [forall_mem_cons] at hsubs
    cases h with
    | concatCons hhead htail =>
      rw [concatConstraint]
      split
      · exact ih hsubs.2 hcombined htail
      · rename_i child hchild
        have hholds := hsubs.1 child hchild _ _ hhead
        refine ih hsubs.2 (.inr ?_) htail
        split
        · exact hholds
        · rename_i hne
          refine combine_holds (hcombined.resolve_left (fun hnil => hne ?_)) hholds
          rw [hnil]
          rfl

theorem alternateConstraint_holds : ∀ {subs : List Regexp}
    {alternatives clauses : List BinaryRequiredClause},
    alternateConstraint subs alternatives = some clauses →
    (∀ sub ∈ subs, ConstraintSound value sub) →
    (Required alternatives value ∨ ∃ sub ∈ subs, ∃ i j, BinarySyntax.Matches value sub i j) →
    Required clauses value := by
  intro subs
  induction subs with
  | nil =>
    intro alternatives clauses h _ hor
    rw [alternateConstraint] at h
    split at h
    · cases h
    · cases h
      rcases hor with hor | ⟨sub, hsub, -⟩
      · exact deduplicate_holds hor
      · cases hsub
  | cons sub subs ih =>
    intro alternatives clauses h hsubs hor
    rw [forall_mem_cons] at hsubs
    rw [alternateConstraint.eq_def] at h
    dsimp only at h
    split at h
    · -- a branch that cannot match adds nothing
      refine ih h hsubs.2 (hor.imp_right ?_)
      rintro ⟨branch, hbranch, i, j, hmatch⟩
      rcases List.mem_cons.mp hbranch with rfl | hbranch
      · cases hmatch
      · exact ⟨branch, hbranch, i, j, hmatch⟩
    · split at h
      · cases h
      rename_i child hchild
      split at h
      · cases h
      refine ih h hsubs.2 ?_
      rcases hor with ⟨c, hc, hholds⟩ | ⟨branch, hbranch, i, j, hmatch⟩
      · exact .inl ⟨c, mem_append_left child hc, hholds⟩
      rcases List.mem_cons.mp hbranch with rfl | hbranch
      · obtain ⟨c, hc, hholds⟩ := hsubs.1 child hchild i j hmatch
        exact .inl ⟨c, mem_append_right alternatives hc, hholds⟩
      · exact .inr ⟨branch, hbranch, i, j, hmatch⟩

/-- **A text that the expression matches has the bytes of a clause.** -/
theorem extract_sound (value : Bytes) (re : Regexp) : ConstraintSound value re := by
  induction re using Regexp.induction_subs with
  | h re ih =>
    intro clauses hclauses i j h
    cases h with
    | emptyMatch | empty | charClass | anyCharNotNL | anyChar | starNil | starCons | questNil
    | questOne => cases hclauses
    | literal h =>
      exact binaryLiteralConstraint_holds hclauses h.mem
    | capture h | plus h _ =>
      exact ih _ mem_cons_self clauses hclauses _ _ h
    | repeatNil =>
      cases hclauses
    | repeatCons _ h _ =>
      rw [extractBinaryRequiredConstraint] at hclauses
      split at hclauses
      · cases hclauses
      · exact ih _ mem_cons_self clauses hclauses _ _ h
    | concatNil =>
      cases hclauses
    | concatCons hhead htail =>
      have hholds := concatConstraint_holds ih (.inl rfl) (.concatCons hhead htail)
      rw [extractBinaryRequiredConstraint] at hclauses
      split at hclauses
      · cases hclauses
      · rename_i hne
        cases hclauses
        exact hholds.resolve_left hne
    | alternate hmem h =>
      exact alternateConstraint_holds hclauses ih (.inr ⟨_, hmem, _, _, h⟩)

/-! ### The least number of bytes of a tree -/

theorem concatMinimum_le {subs : List Regexp} {total i j : Nat} :
    (∀ sub ∈ subs, ∀ i j, BinarySyntax.Matches value sub i j →
      i + binaryMinimumMatchBytes sub ≤ j) →
    BinarySyntax.Matches value (.concat f subs) i j → i + concatMinimum subs total ≤ j + total := by
  induction subs generalizing total i j with
  | nil =>
    intro _ h
    exact Nat.add_le_add_right h.le.1 total
  | cons sub subs ih =>
    intro hsubs h
    rw [forall_mem_cons] at hsubs
    cases h with
    | concatCons hhead htail =>
      have hfirst := hsubs.1 _ _ hhead
      have hrest := @ih (total + binaryMinimumMatchBytes sub) _ _ hsubs.2 htail
      rw [concatMinimum]
      split <;> omega

theorem alternateMinimum_le (subs : List Regexp) (minimum : Nat) :
    alternateMinimum subs minimum ≤ minimum ∧
      ∀ sub ∈ subs, alternateMinimum subs minimum ≤ binaryMinimumMatchBytes sub := by
  induction subs generalizing minimum with
  | nil => exact ⟨Nat.le_refl minimum, fun sub hsub => nomatch hsub⟩
  | cons sub subs ih =>
    obtain ⟨hfirst, hrest⟩ := ih (if binaryMinimumMatchBytes sub < minimum
      then binaryMinimumMatchBytes sub else minimum)
    refine ⟨hfirst.trans (by split <;> omega), List.forall_mem_cons.mpr ⟨?_, hrest⟩⟩
    exact hfirst.trans (by split <;> omega)

theorem repeatMinimum_le {sub : Regexp} {n : Nat}
    (hsub : ∀ i j, BinarySyntax.Matches value sub i j → i + n ≤ j) :
    ∀ {re : Regexp} {i j : Nat}, BinarySyntax.Matches value re i j →
      ∀ {min : Nat} {max : Option Nat}, re = .repeatN f min max sub → i + min * n ≤ j := by
  intro re i j h
  induction h with
  | repeatNil =>
    intro min max heq
    cases heq
    rw [Nat.zero_mul]
    exact Nat.le_refl _
  | @repeatCons _ least _ _ _ _ _ _ hhead _ _ ih =>
    intro min max heq
    cases heq
    have hfirst := hsub _ _ hhead
    have hrest := ih rfl
    obtain _ | k := least
    · rw [Nat.zero_mul]
      omega
    · rw [Nat.add_sub_cancel] at hrest
      rw [Nat.succ_mul]
      omega
  | emptyMatch | literal | charClass | anyCharNotNL | anyChar | empty | capture | starNil | starCons
  | plus | questNil | questOne | concatNil | concatCons | alternate =>
    intro min max heq
    cases heq

/-- **No match has fewer bytes than `binaryMinimumMatchBytes`.** -/
theorem binaryMinimumMatchBytes_le (re : Regexp) :
    ∀ i j, BinarySyntax.Matches value re i j → i + binaryMinimumMatchBytes re ≤ j := by
  induction re using Regexp.induction_subs with
  | h re ih =>
    intro i j h
    have hle := h.le.1
    cases h with
    | emptyMatch | empty | starNil | starCons | questNil | questOne =>
      exact hle
    | literal h =>
      exact Nat.le_of_eq h.length.1.symm
    | charClass hat | anyCharNotNL hat | anyChar hat =>
      exact Nat.le_of_eq hat.lt.1.symm
    | capture h =>
      exact ih _ mem_cons_self _ _ h
    | plus hhead htail =>
      exact (ih _ mem_cons_self _ _ hhead).trans htail.le.1
    | repeatNil =>
      exact hle
    | repeatCons hmax hhead htail =>
      have hparts := repeatMinimum_le (ih _ mem_cons_self) (.repeatCons hmax hhead htail) rfl
      rw [binaryMinimumMatchBytes]
      dsimp only
      split
      · exact hle
      split
      · exact hle
      · exact hparts
    | concatNil =>
      exact hle
    | concatCons hhead htail =>
      exact concatMinimum_le ih (.concatCons hhead htail)
    | @alternate _ _ rs _ _ hmem h =>
      have hbranch := ih _ hmem _ _ h
      cases rs with
      | nil => cases hmem
      | cons sub subs =>
        obtain ⟨hfirst, hrest⟩ := alternateMinimum_le subs (binaryMinimumMatchBytes sub)
        rw [binaryMinimumMatchBytes]
        rcases List.mem_cons.mp hmem with rfl | hmem
        · omega
        · have := hrest _ hmem
          omega

/-! ### Soundness -/

namespace BinaryRequiredPrefilter

variable {filter : BinaryRequiredPrefilter}

theorem possibleDirect_iff :
    filter.possibleDirect value = true ↔ Required filter.clauses value := by
  unfold possibleDirect
  simp only [any_eq_true, all_eq_true, Strings.indexByte_isSome]
  exact Iff.rfl

theorem possibleFromPresence_iff :
    filter.possibleFromPresence (Bitmap.presence value) = true ↔ Required filter.clauses value := by
  unfold possibleFromPresence
  simp only [any_eq_true, Bitmap.includes_iff, Bitmap.test_presence]
  refine exists_congr (fun clause => and_congr_right (fun _ => ?_))
  exact forall_congr' (fun b => by rw [clause.agree])

theorem possible_eq {σ : Type} {cache : Option (BytePresenceCache σ)} {tx : σ}
    (hcoh : ∀ c ∈ cache, c.CoherentAt tx value) :
    (filter.possible cache tx value).1 =
      (!decide (value.length < filter.minimumBytes) && filter.possibleDirect value) := by
  unfold possible
  split
  · rename_i hshort
    rw [decide_eq_true hshort]
    rfl
  rename_i hlong
  rw [decide_eq_false hlong, Bool.not_false, Bool.true_and]
  cases cache with
  | none => rfl
  | some cache =>
    dsimp only
    split
    · rfl
    split
    · rename_i present hload
      rw [hcoh cache rfl present hload, Bool.eq_iff_iff, possibleFromPresence_iff,
        possibleDirect_iff]
    split
    · rename_i hdirect
      exact hdirect.symm
    · rename_i hdirect
      exact (Bool.eq_false_iff.mpr hdirect).symm

end BinaryRequiredPrefilter

/-- **The filter accepts every text that the pattern matches**: it is long enough, it has the bytes
of a clause, and the answer is that a match is possible, whether or not a transaction has the bitmap
of the text. -/
theorem binaryPrefilter_accepts {re : Regexp} {filter : BinaryRequiredPrefilter}
    (hfilter : compileBinaryRequiredPrefilter (some re) = some filter) {value : Bytes}
    (h : BinarySyntax.MatchString re value) :
    filter.minimumBytes ≤ value.length ∧
      (∃ clause ∈ filter.clauses, ∀ b ∈ clause.bytes, b ∈ value) ∧
      ∀ (σ : Type) (cache : Option (BytePresenceCache σ)) (tx : σ),
        (∀ c ∈ cache, c.Coherent tx) → (filter.possible cache tx value).1 = true := by
  obtain ⟨i, j, hi, hmatch⟩ := h
  have hparts : filter.minimumBytes = binaryMinimumMatchBytes re ∧
      extractBinaryRequiredConstraint re = some filter.clauses := by
    unfold compileBinaryRequiredPrefilter at hfilter
    dsimp only at hfilter
    split at hfilter
    · cases hfilter
    · cases hfilter
    · rename_i constraint hconstraint
      cases hfilter
      exact ⟨rfl, hconstraint⟩
  have hlength : filter.minimumBytes ≤ value.length := by
    have hleast := binaryMinimumMatchBytes_le re i j hmatch
    have hend := hmatch.le.2 hi
    omega
  have hclause := extract_sound value re filter.clauses hparts.2 i j hmatch
  refine ⟨hlength, hclause, fun σ cache tx hcoh => ?_⟩
  rw [BinaryRequiredPrefilter.possible_eq (fun c hc => hcoh c hc value),
    decide_eq_false (Nat.not_lt.mpr hlength)]
  exact BinaryRequiredPrefilter.possibleDirect_iff.mpr hclause

/-- The tree of `\xff(?:ab|cd)`. -/
def branchPattern : Regexp :=
  .concat false [.literal false 0xFF [],
    .alternate false [.literal false 0x61 [0x62], .literal false 0x63 [0x64]]]

/-- A text with a match of `\xff(?:ab|cd)` at its end. -/
theorem binaryPrefilter_accepts_branch : ∃ filter,
    compileBinaryRequiredPrefilter (some branchPattern) = some filter ∧
      filter.minimumBytes ≤ 4 ∧
      ∃ clause ∈ filter.clauses, ∀ b ∈ clause.bytes, b ∈ ([0x00, 0xFF, 0x63, 0x64] : Bytes) := by
  have hsome : (compileBinaryRequiredPrefilter (some branchPattern)).isSome = true := by
    decide +kernel
  obtain ⟨filter, hfilter⟩ := Option.isSome_iff_exists.mp hsome
  have hcd : BinarySyntax.Matches [0x00, 0xFF, 0x63, 0x64] (.literal false 0x63 [0x64]) 2 4 :=
    .literal ⟨0x63, 3, ⟨0x63, rfl, rfl, rfl⟩, .inl rfl, 0x64, 4, ⟨0x64, rfl, rfl, rfl⟩, .inl rfl,
      rfl⟩
  have hmatch : BinarySyntax.Matches [0x00, 0xFF, 0x63, 0x64] branchPattern 1 4 :=
    .concatCons (.literal ⟨0xFF, 2, ⟨0xFF, rfl, rfl, rfl⟩, .inl rfl, rfl⟩)
      (.concatCons (.alternate (.tail _ (.head _)) hcd) .concatNil)
  obtain ⟨hlength, hclause, -⟩ := binaryPrefilter_accepts hfilter ⟨1, 4, by decide, hmatch⟩
  exact ⟨filter, hfilter, hlength, hclause⟩

end Coraza.Operators
