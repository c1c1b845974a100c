import Coraza.Go.Strings
import Coraza.Lib.Rewriting

/-!
# White space, NUL bytes and command lines

The transformations `compressWhitespace`, `removeWhitespace`, `trim`, `trimLeft`, `trimRight`,
`removeNulls`, `replaceNulls` and `cmdLine`.

All flags but one are right.  That of `removeWhitespace` tells whether white space was removed
(`removeWhitespace_changed`), but the transformation also replaces bytes outside any UTF-8 sequence
by the encoding of U+FFFD: without white space, the text is unchanged exactly if it is valid UTF-8
(`removeWhitespace_eq_iff`).
-/

namespace Coraza.Transformations

open Go Rewriting List

/-! ### `compressWhitespace` -/

def rawNBSP : UInt8 := 0xA0

def isLatinSpace (r : Nat) : Bool :=
  r == 0x09 || r == 0x0A || r == 0x0B || r == 0x0C || r == 0x0D || r == 0x20 || r == 0x85
    || r == 0xA0

def latinSpaceAt (b : UInt8) (t : Bytes) : Bool :=
  isLatinSpace (decodeRune (b :: t)).1 || b == rawNBSP

/-- How many bytes follow the first one in a rune. -/
def runeFurther (b : UInt8) (t : Bytes) : Nat := (decodeRune (b :: t)).2 - 1

/-- A round of `doCompressWhitespace`; the state is `inWhiteSpace`. -/
def compressStep (inWhiteSpace : Bool) (b : UInt8) (t : Bytes) : Piece UInt8 Bool :=
  if latinSpaceAt b t then
    if inWhiteSpace then ⟨[], runeFurther b t, true, true⟩
    else ⟨[0x20], runeFurther b t, (decodeRune (b :: t)).1 ≠ 0x20, true⟩
  else ⟨b :: t.take (runeFurther b t), runeFurther b t, false, false⟩

def compressWhitespace (value : Bytes) : Bytes × Bool :=
  fromPiece latinSpaceAt runeFurther (run compressStep (fun _ => []) false) value

/-! ### `removeWhitespace` -/

def asciiSpace (c : UInt8) : Bool :=
  c == 0x20 || c == 0x09 || c == 0x0A || c == 0x0D || c == 0x0B || c == 0x0C

/-- Where `removeWhitespace` begins to write. -/
def removableAt (b : UInt8) (t : Bytes) : Bool :=
  if runeSelf ≤ b.toNat then
    decodeRune (b :: t) = (runeError, 1) ∨
      1 < (decodeRune (b :: t)).2 ∧ isSpace (decodeRune (b :: t)).1 = true
  else asciiSpace b

/-- A round of `mapWithoutWhitespace`, with the flag of `whitespaceMappedSize`. -/
def removeWhitespaceStep (_ : Unit) (b : UInt8) (t : Bytes) : Piece UInt8 Unit :=
  if b.toNat < runeSelf then if asciiSpace b then replace [] 0 else copy b
  else if decodeRune (b :: t) = (runeError, 1) then ⟨[0xEF, 0xBF, 0xBD], 0, false, ()⟩
  else if isSpace (decodeRune (b :: t)).1 then replace [] (runeFurther b t)
  else ⟨b :: t.take (runeFurther b t), runeFurther b t, false, ()⟩

/-- `mapWithoutWhitespace`, from the place on where it begins. -/
def mapWithoutWhitespace (data : Bytes) : Bytes × Bool :=
  run removeWhitespaceStep (fun _ => []) () data

def removeWhitespace (data : Bytes) : Bytes × Bool :=
  fromPiece removableAt runeFurther mapWithoutWhitespace data

/-! ### Trimming and NUL bytes -/

def trimSpaces : Bytes := [0x20, 0x09, 0x0A, 0x0D, 0x0C, 0x0B]

/-- What the transformations that cut something off have in common. -/
def cutOff (f : Bytes → Bytes) (data : Bytes) : Bytes × Bool :=
  (f data, data.length ≠ (f data).length)

def trim : Bytes → Bytes × Bool := cutOff (fun data => Strings.trim data trimSpaces)

def trimLeft : Bytes → Bytes × Bool := cutOff (fun data => Strings.trimLeft data trimSpaces)

def trimRight : Bytes → Bytes × Bool := cutOff (fun data => Strings.trimRight data trimSpaces)

def removeNulls : Bytes → Bytes × Bool := cutOff (fun data => Strings.replaceAll data 0 [])

/-- What the transformations that compare the texts have in common. -/
def compared (f : Bytes → Bytes) (data : Bytes) : Bytes × Bool := (f data, data ≠ f data)

def replaceNulls : Bytes → Bytes × Bool := compared (fun data => Strings.replaceAll data 0 [0x20])

/-! ### `cmdLine` -/

def needsTransform (c : UInt8) : Bool :=
  (0x41 ≤ c && c ≤ 0x5A) || c == 0x22 || c == 0x27 || c == 0x5C || c == 0x5E || c == 0x20
    || c == 0x2C || c == 0x3B || c == 0x09 || c == 0x0D || c == 0x0A || c == 0x2F || c == 0x28

structure CMDLine where
  ret : Bytes
  changed : Bool
  space : Bool

def cmdLineStep (s : CMDLine) (a : UInt8) : CMDLine :=
  if a = 0x22 ∨ a = 0x27 ∨ a = 0x5C ∨ a = 0x5E then { s with changed := true }
  else if a = 0x20 ∨ a = 0x2C ∨ a = 0x3B ∨ a = 0x09 ∨ a = 0x0D ∨ a = 0x0A then
    if s.space = false then ⟨s.ret ++ [0x20], s.changed || a ≠ 0x20, true⟩
    else { s with changed := true }
  else if a = 0x2F ∨ a = 0x28 then
    if s.space then ⟨s.ret.dropLast ++ [a], true, false⟩ else ⟨s.ret ++ [a], s.changed, false⟩
  else if 0x41 ≤ a ∧ a ≤ 0x5A then ⟨s.ret ++ [a + 0x20], true, false⟩
  else ⟨s.ret ++ [a], s.changed, false⟩

/-- `doCMDLine`, from the place on where it begins. -/
def doCMDLine (input : Bytes) : Bytes × Bool :=
  let s := input.foldl cmdLineStep ⟨[], false, false⟩
  (s.ret, s.changed)

def cmdLine (data : Bytes) : Bytes × Bool := fromFirst needsTransform doCMDLine data

/-! ### The flags -/

theorem compared_changed_iff (f : Bytes → Bytes) (data : Bytes) :
    (compared f data).2 = true ↔ (compared f data).1 ≠ data := by
  unfold compared
  rw [decide_eq_true_eq]
  exact ne_comm

theorem cutOff_changed_iff {f : Bytes → Bytes} (hf : ∀ data, (f data).Sublist data)
    (data : Bytes) : (cutOff f data).2 = true ↔ (cutOff f data).1 ≠ data := by
  unfold cutOff
  rw [decide_eq_true_eq]
  constructor
  · exact fun hlength heq => hlength (congrArg List.length heq).symm
  · exact fun hne hlength => hne ((hf data).eq_of_length hlength.symm)

variable (data : Bytes)

theorem trimLeft_changed_iff : (trimLeft data).2 = true ↔ (trimLeft data).1 ≠ data :=
  cutOff_changed_iff (fun data => (Strings.trimLeft_suffix data trimSpaces).sublist) data

theorem trimRight_changed_iff : (trimRight data).2 = true ↔ (trimRight data).1 ≠ data :=
  cutOff_changed_iff (fun data => (Strings.trimRight_prefix data trimSpaces).sublist) data

theorem trim_changed_iff : (trim data).2 = true ↔ (trim data).1 ≠ data :=
  cutOff_changed_iff (fun data => (Strings.trimLeft_suffix _ trimSpaces).sublist.trans
    (Strings.trimRight_prefix data trimSpaces).sublist) data

theorem removeNulls_changed_iff : (removeNulls data).2 = true ↔ (removeNulls data).1 ≠ data := by
  refine cutOff_changed_iff (fun data => ?_) data
  unfold Strings.replaceAll
  induction data with
  | nil => exact .slnil
  | cons b data ih =>
    rw [flatMap_cons]
    split
    · exact ih.cons b
    · exact ih.cons_cons b

/-- The invariant of `doCMDLine`: the flag is right for what was read so far, and the last byte of
what was written is a space that may be taken back. -/
def CMDLine.Inv (read : Bytes) (s : CMDLine) : Prop :=
  Tracks read s.ret s.changed ∧ (s.space = true → s.ret ≠ [])

theorem CMDLine.Inv.step {read : Bytes} {s : CMDLine} (h : s.Inv read) (a : UInt8) :
    (cmdLineStep s a).Inv (read ++ [a]) := by
  obtain ⟨htracks, hspace⟩ := h
  have hdropped : Tracks (read ++ [a]) s.ret true := by
    refine .of_lt ?_
    rw [length_append]
    exact Nat.lt_succ_of_le htracks.length_le
  have hcopied : Tracks (read ++ [a]) (s.ret ++ [a]) s.changed := by
    have happend := htracks.append (Tracks.refl [a])
    rwa [Bool.or_false] at happend
  unfold cmdLineStep
  split_ifs with hquote hdelimiter hfirst hslash hbefore hupper
  · exact ⟨hdropped, hspace⟩
  · refine ⟨?_, fun _ => append_ne_nil_of_right_ne_nil _ (cons_ne_nil _ _)⟩
    by_cases ha : a = 0x20
    · subst ha
      have happend := htracks.append (Tracks.refl [0x20])
      exact happend
    · have hne : Tracks [a] [0x20] true :=
        .of_ne (Nat.le_refl 1) (fun heq => ha (List.cons.inj heq).1.symm)
      have happend := htracks.append hne
      rw [show (s.changed || decide (a ≠ 0x20)) = (s.changed || true) by rw [decide_eq_true ha]]
      exact happend
  · exact ⟨hdropped, hspace⟩
  · refine ⟨.of_lt ?_, nofun⟩
    have hpos : 0 < s.ret.length := List.length_pos_iff.mpr (hspace hbefore)
    have hle := htracks.length_le
    rw [length_append, length_append, length_dropLast]
    omega
  · exact ⟨hcopied, nofun⟩
  · refine ⟨?_, nofun⟩
    have hne : Tracks [a] [a + 0x20] true := by
      refine .of_ne (Nat.le_refl 1) (fun heq => ?_)
      have hself := congrArg UInt8.toNat (List.cons.inj heq).1
      rw [UInt8.toNat_add, show (0x20 : UInt8).toNat = 32 from rfl] at hself
      omega
    have happend := htracks.append hne
    rwa [Bool.or_true] at happend
  · exact ⟨hcopied, nofun⟩

theorem CMDLine.Inv.foldl (input read : Bytes) (s : CMDLine) : s.Inv read →
    (input.foldl cmdLineStep s).Inv (read ++ input) := by
  induction input generalizing read s with
  | nil =>
    intro h
    rwa [append_nil]
  | cons a input ih =>
    intro h
    have hrest := ih (read ++ [a]) (cmdLineStep s a) (h.step a)
    rwa [append_assoc] at hrest

theorem cmdLine_tracks : Tracks data (cmdLine data).1 (cmdLine data).2 := by
  refine fromFirst_tracks needsTransform (fun text => ?_) data
  have hstart : CMDLine.Inv [] ⟨[], false, false⟩ := ⟨.refl [], nofun⟩
  exact (CMDLine.Inv.foldl text [] _ hstart).1

/-! ### Runes as pieces -/

theorem drop_runeFurther (b : UInt8) (t : Bytes) :
    t.drop (runeFurther b t) = (b :: t).drop (decodeRune (b :: t)).2 := by
  have hpos := decodeRune_width_pos (cons_ne_nil b t)
  unfold runeFurther
  obtain ⟨w, hw⟩ := Nat.exists_eq_succ_of_ne_zero (Nat.ne_of_gt hpos)
  rw [hw, drop_succ_cons, Nat.succ_sub_one]

variable {b : UInt8}

theorem take_runeFurther {t : Bytes} (h : decodeRune (b :: t) ≠ (runeError, 1)) :
    b :: t.take (runeFurther b t) = encodeRune (decodeRune (b :: t)).1 := by
  have hlength := (decodeRune_clean h).2
  have hpos := decodeRune_width_pos (cons_ne_nil b t)
  have htake : b :: t.take (runeFurther b t) = (b :: t).take (decodeRune (b :: t)).2 := by
    unfold runeFurther
    obtain ⟨w, hw⟩ := Nat.exists_eq_succ_of_ne_zero (Nat.ne_of_gt hpos)
    rw [hw, take_succ_cons, Nat.succ_sub_one]
  have hprefix : encodeRune (decodeRune (b :: t)).1 <+: b :: t := ⟨_, (decodeRune_valid h).symm⟩
  rw [htake, ← hlength]
  exact (List.prefix_iff_eq_take.mp hprefix).symm

theorem runeFurther_ascii (hb : b.toNat < runeSelf) (t : Bytes) : runeFurther b t = 0 := by
  unfold runeFurther
  rw [decodeRune_one hb, Nat.sub_self]

theorem decodeRune_single {t : Bytes} (hb : runeSelf ≤ b.toNat)
    (h : (decodeRune (b :: t)).2 = 1) : decodeRune (b :: t) = (runeError, 1) := by
  by_contra hne
  have hencoded := take_runeFurther hne
  unfold runeFurther at hencoded
  rw [h, take_zero] at hencoded
  -- alone, the byte is read as an error
  have halone : decodeRune [b] = (runeError, 1) := by
    unfold decodeRune
    dsimp only
    rw [if_neg (show ¬b.toNat < 0x80 from Nat.not_lt.mpr hb)]
    split_ifs <;> rfl
  have hback := decodeRune_encodeRune (decodeRune (b :: t)).1 []
  rw [← hencoded, append_nil, halone, (decodeRune_clean hne).1] at hback
  exact hne (Prod.ext (congrArg Prod.fst hback).symm h)

/-! ### The flags of the two that read runes -/

theorem eq_space_of_decodeRune {t : Bytes} (h : (decodeRune (b :: t)).1 = 0x20) : b = 0x20 := by
  by_cases hb : b.toNat < 0x80
  · rw [decodeRune_one hb] at h
    exact UInt8.toNat_inj.mp h
  · have hhigh := (decodeRune_high (Nat.not_lt.mp hb) t).1
    omega

theorem compressStep_right (inWhiteSpace : Bool) (b : UInt8) (t : Bytes) :
    (compressStep inWhiteSpace b t).Right b t := by
  unfold compressStep Piece.Right
  split_ifs with hspace hin
  · exact .of_lt (Nat.succ_pos _)
  · by_cases hr : (decodeRune (b :: t)).1 = 0x20
    · obtain rfl := eq_space_of_decodeRune hr
      rw [decide_eq_false (not_not_intro hr)]
      exact .refl [0x20]
    · rw [decide_eq_true hr]
      refine .of_ne ?_ (fun heq => ?_)
      · exact Nat.succ_le_succ (Nat.zero_le _)
      · obtain ⟨rfl, -⟩ := List.cons.inj heq
        exact hr (congrArg Prod.fst (decodeRune_one (by decide) t))
  · exact .refl _

theorem compressWhitespace_tracks (value : Bytes) :
    Tracks value (compressWhitespace value).1 (compressWhitespace value).2 := by
  unfold compressWhitespace
  rw [fromPiece_run rfl]
  · exact run_tracks compressStep_right false value
  · intro b t hb
    unfold compressStep
    rw [hb, if_neg Bool.false_ne_true]

theorem isSpace_toNat (hb : b.toNat < runeSelf) : isSpace b.toNat = asciiSpace b := by
  have htable : ∀ n < 0x80, isSpace n = asciiSpace (UInt8.ofNat n) := by decide
  have hbyte := htable b.toNat hb
  rwa [← UInt8.eq_ofNat rfl] at hbyte

/-- The bytes before the place where the writing begins are written as they are. -/
theorem removeWhitespace_run : removeWhitespace data = mapWithoutWhitespace data := by
  refine fromPiece_run rfl (fun b t hb => ?_) data
  unfold removableAt at hb
  unfold removeWhitespaceStep
  by_cases hascii : b.toNat < runeSelf
  · rw [if_neg (Nat.not_le.mpr hascii)] at hb
    rw [if_pos hascii, hb, runeFurther_ascii hascii]
    rfl
  · have hhigh := Nat.not_lt.mp hascii
    rw [if_pos hhigh, decide_eq_false_iff_not, not_or] at hb
    have hsize : 1 < (decodeRune (b :: t)).2 := by
      have hpos := decodeRune_width_pos (cons_ne_nil b t)
      have hne := mt (decodeRune_single hhigh) hb.1
      omega
    rw [if_neg hascii, if_neg hb.1, if_neg (fun hspace => hb.2 ⟨hsize, hspace⟩)]

/-- A round reads a rune and encodes it again if it is no white space. -/
theorem removeWhitespaceStep_eq (b : UInt8) (t : Bytes) : removeWhitespaceStep () b t
    = ⟨if isSpace (decodeRune (b :: t)).1 then [] else encodeRune (decodeRune (b :: t)).1,
      runeFurther b t, isSpace (decodeRune (b :: t)).1, ()⟩ := by
  unfold removeWhitespaceStep
  by_cases hascii : b.toNat < runeSelf
  · rw [if_pos hascii, runeFurther_ascii hascii, decodeRune_one hascii, isSpace_toNat hascii,
      encodeRune_one hascii]
    cases asciiSpace b <;> rfl
  · rw [if_neg hascii]
    by_cases herror : decodeRune (b :: t) = (runeError, 1)
    · rw [if_pos herror]
      unfold runeFurther
      rw [herror]
      rfl
    · rw [if_neg herror, take_runeFurther herror]
      cases isSpace (decodeRune (b :: t)).1 <;> rfl

/-- **What `removeWhitespace` writes are the runes without white space, encoded again**, and its
flag tells whether there was any. -/
theorem removeWhitespace_eq :
    removeWhitespace data = (encodeRunes ((decodeRunes data).filter (fun r => !isSpace r)),
      (decodeRunes data).any isSpace) := by
  rw [removeWhitespace_run]
  refine Prod.ext_iff.mpr (run_induction (P := fun _ text written changed =>
    written = encodeRunes ((decodeRunes text).filter (fun r => !isSpace r)) ∧
      changed = (decodeRunes text).any isSpace) (fun _ => ⟨rfl, rfl⟩) ?_ data ())
  rintro _ b t rest c ⟨hrest, hc⟩
  rw [removeWhitespaceStep_eq] at hrest hc ⊢
  rw [drop_runeFurther] at hrest hc
  rw [hrest, hc, decodeRunes_cons, any_cons]
  cases hspace : isSpace (decodeRune (b :: t)).1 with
  | true =>
    rw [filter_cons_of_neg (by rw [hspace]; decide)]
    exact ⟨rfl, rfl⟩
  | false =>
    rw [filter_cons_of_pos (by rw [hspace]; decide)]
    exact ⟨rfl, rfl⟩

theorem removeWhitespace_changed :
    (removeWhitespace data).2 = true ↔ ∃ r ∈ decodeRunes data, isSpace r = true := by
  rw [removeWhitespace_eq, any_eq_true]

/-- **Without white space, a text is unchanged exactly if it is valid UTF-8.** -/
theorem removeWhitespace_eq_iff {data : Bytes} (h : (removeWhitespace data).2 = false) :
    (removeWhitespace data).1 = data ↔ validString data = true := by
  rw [removeWhitespace_eq] at h ⊢
  have hall : (decodeRunes data).filter (fun r => !isSpace r) = decodeRunes data := by
    refine List.filter_eq_self.mpr (fun r hr => ?_)
    rw [Bool.eq_false_iff.mpr (List.any_eq_false.mp h r hr), Bool.not_false]
  rw [hall, validString, decide_eq_true_eq]

/-- A text that loses white space is changed: what is written has none. -/
theorem removeWhitespace_ne {data : Bytes} (h : (removeWhitespace data).2 = true) :
    (removeWhitespace data).1 ≠ data := by
  obtain ⟨r, hr, hspace⟩ := (removeWhitespace_changed data).mp h
  intro heq
  rw [removeWhitespace_eq] at heq
  have hclean : ((decodeRunes data).filter (fun r => !isSpace r)).map cleanRune
      = decodeRunes data := by
    rw [← decodeRunes_encodeRunes]
    exact congrArg decodeRunes heq
  have hfilter : ((decodeRunes data).filter (fun r => !isSpace r)).length
      = (decodeRunes data).length := by
    rw [← congrArg List.length hclean, length_map]
  have hkept := List.length_filter_eq_length_iff.mp hfilter r hr
  rw [hspace] at hkept
  exact absurd hkept (by decide)

end Coraza.Transformations
