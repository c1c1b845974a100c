import Coraza.Transformations.Case

/-!
# Normal forms of command lines, white space and case

`cmdLine` and `compressWhitespace` reach a normal form and leave it alone: `CmdNormal` and
`Compressed` are these forms, and `cmdLine_compressWhitespace_normal` collects what is proved.
`compressWhitespace` reads runes, so what it has written must be read with the same boundaries
again; `decodeRune_again` is the reason that it is.

`lowerCase` and `removeWhitespace` compute what functions of the library are documented to
(`lowerCase_removeWhitespace_library`), and the size that is computed first is the right one.
-/

namespace Coraza.Transformations

open Go Rewriting

/-! ### `cmdLine` -/

/-- A byte that `cmdLine` can leave: none that it deletes or replaces. -/
def CmdByte (b : UInt8) : Prop :=
  b ∉ [0x5C, 0x22, 0x27, 0x5E, 0x2C, 0x3B, 0x09, 0x0D, 0x0A] ∧ ¬(0x41 ≤ b ∧ b ≤ 0x5A)

instance : DecidablePred CmdByte := fun _ => inferInstanceAs (Decidable (_ ∧ _))

def CmdPair (a b : UInt8) : Prop := a = 0x20 → b ∉ [0x20, 0x2F, 0x28]

instance : DecidableRel CmdPair := fun _ _ => inferInstanceAs (Decidable (_ → _))

structure CmdNormal (text : Bytes) : Prop where
  bytes : ∀ b ∈ text, CmdByte b
  pairs : text.IsChain CmdPair

theorem cmdNormal_append {r t : Bytes} (hr : CmdNormal r) (ht : CmdNormal t)
    (h : r.getLast? = some 0x20 → ∀ b ∈ t.head?, b ∉ [0x20, 0x2F, 0x28]) : CmdNormal (r ++ t) where
  bytes b hb := (List.mem_append.mp hb).elim (hr.bytes b) (ht.bytes b)
  pairs := by
    refine List.isChain_append.mpr ⟨hr.pairs, ht.pairs, fun x hx y hy hspace => ?_⟩
    subst hspace
    exact h hx y hy

theorem cmdNormal_single {b : UInt8} (hb : CmdByte b) : CmdNormal [b] :=
  ⟨by simpa using hb, .singleton b⟩

/-- What holds in `doCMDLine`: what was written is in normal form, and `space` tells whether it ends
with a space. -/
def CMDLine.Normal (s : CMDLine) : Prop :=
  CmdNormal s.ret ∧ (s.space = true ↔ s.ret.getLast? = some 0x20)

theorem CMDLine.Normal.write {r : Bytes} {a : UInt8} {changed space : Bool} (hr : CmdNormal r)
    (ha : CmdByte a) (hspace : space = decide (a = 0x20))
    (h : r.getLast? = some 0x20 → a ∉ [0x20, 0x2F, 0x28]) :
    CMDLine.Normal ⟨r ++ [a], changed, space⟩ :=
  ⟨cmdNormal_append hr (cmdNormal_single ha) (by simpa using h), by simp [hspace]⟩

theorem CMDLine.Normal.step {s : CMDLine} (h : s.Normal) (a : UInt8) :
    (cmdLineStep s a).Normal := by
  obtain ⟨hret, hspace⟩ := h
  have hlast : s.space = false → s.ret.getLast? = some 0x20 → a ∉ [0x20, 0x2F, 0x28] :=
    fun hno hyes => absurd (hspace.mpr hyes) (by simp [hno])
  unfold cmdLineStep
  split_ifs with hquote hdelimiter hfirst hslash hbefore hupper
  · exact ⟨hret, hspace⟩
  · refine .write hret (by decide) rfl (fun hyes => absurd (hspace.mpr hyes) (by simp [hfirst]))
  · exact ⟨hret, hspace⟩
  · -- the space is taken back, and there was none before it
    obtain ⟨r, hr⟩ : ∃ r, s.ret = r ++ [0x20] := List.getLast?_eq_some_iff.mp (hspace.mp hbefore)
    rw [hr] at hret ⊢
    rw [List.dropLast_concat]
    have hpairs := List.isChain_append.mp hret.pairs
    refine .write ⟨fun b hb => hret.bytes b (by simp [hb]), hpairs.1⟩ ?_ ?_ ?_
    · rcases hslash with rfl | rfl <;> decide
    · rcases hslash with rfl | rfl <;> rfl
    · intro hyes
      exact absurd (hpairs.2.2 0x20 hyes 0x20 rfl rfl) (by decide)
  · refine .write hret ?_ ?_ (hlast (by simpa using hbefore))
    · rcases hslash with rfl | rfl <;> decide
    · rcases hslash with rfl | rfl <;> rfl
  · have hall : ∀ a : UInt8, 0x41 ≤ a ∧ a ≤ 0x5A → CmdByte (a + 0x20) ∧ a + 0x20 ≠ 0x20 ∧
        a + 0x20 ∉ [0x20, 0x2F, 0x28] := UInt8.forall_of_fin (by decide +kernel)
    obtain ⟨hbyte, hne, hnot⟩ := hall a hupper
    exact .write hret hbyte (by simp [hne]) (fun _ => hnot)
  · simp only [not_or] at hquote hdelimiter hslash
    refine .write hret ⟨?_, hupper⟩ (by simp [hdelimiter]) (fun _ => ?_)
    · simp [hquote, hdelimiter]
    · simp [hdelimiter, hslash]

theorem doCMDLine_normal (input : Bytes) : CmdNormal (doCMDLine input).1 := by
  have hrun : (input.foldl cmdLineStep ⟨[], false, false⟩).Normal :=
    List.foldlRecOn input _ ⟨⟨by simp, .nil⟩, by simp⟩ (fun _ h a _ => h.step a)
  exact hrun.1

variable {text : Bytes}

theorem cmdNormal_of_not_needed (h : ∀ b ∈ text, needsTransform b = false) :
    CmdNormal text ∧ text.getLast? ≠ some 0x20 := by
  have hall : ∀ b : UInt8, needsTransform b = false → CmdByte b ∧ b ≠ 0x20 :=
    UInt8.forall_of_fin (by decide +kernel)
  refine ⟨⟨fun b hb => (hall b (h b hb)).1, ?_⟩, fun hlast => ?_⟩
  · induction text with
    | nil => exact .nil
    | cons a t ih =>
      refine List.isChain_cons.mpr ⟨fun y _ hspace => ?_, ih (fun b hb => h b (by simp [hb]))⟩
      exact absurd hspace (hall a (h a (by simp))).2
  · exact (hall 0x20 (h 0x20 (List.mem_of_getLast? hlast))).2 rfl

/-- **The output of `cmdLine` is in normal form.** -/
theorem cmdLine_normal (data : Bytes) : CmdNormal (cmdLine data).1 := by
  unfold cmdLine fromFirst
  cases hi : data.findIdx? needsTransform with
  | none =>
    have hnone := List.findIdx?_eq_none_iff.mp hi
    exact (cmdNormal_of_not_needed hnone).1
  | some i =>
    obtain ⟨hlt, -, hbefore⟩ := List.findIdx?_eq_some_iff_getElem.mp hi
    have htake : ∀ b ∈ data.take i, needsTransform b = false := by
      intro b hb
      obtain ⟨j, hj, rfl⟩ := List.mem_take_iff_getElem.mp hb
      simpa using hbefore j (by omega)
    obtain ⟨hnormal, hlast⟩ := cmdNormal_of_not_needed htake
    exact cmdNormal_append hnormal (doCMDLine_normal _) (fun hyes => absurd hyes hlast)

theorem doCMDLine_of_normal (h : CmdNormal text) : doCMDLine text = (text, false) := by
  have hstep : ∀ (s : CMDLine) (a : UInt8), CmdByte a → (s.space = true → a ∉ [0x20, 0x2F, 0x28]) →
      cmdLineStep s a = ⟨s.ret ++ [a], s.changed, decide (a = 0x20)⟩ := by
    rintro ⟨ret, changed, space⟩ a ⟨hbyte, hupper⟩ hspace
    simp only [List.mem_cons, List.not_mem_nil, or_false, not_or] at hbyte hspace
    unfold cmdLineStep
    by_cases ha : a = 0x20
    · subst ha
      cases space <;> simp_all
    · cases space <;> by_cases hslash : a = 0x2F ∨ a = 0x28 <;> simp_all
  have hrun : ∀ (text : Bytes) (s : CMDLine), CmdNormal text →
      (s.space = true → ∀ b ∈ text.head?, b ∉ [0x20, 0x2F, 0x28]) →
      (text.foldl cmdLineStep s).ret = s.ret ++ text ∧
        (text.foldl cmdLineStep s).changed = s.changed := by
    intro text
    induction text with
    | nil => simp
    | cons a t ih =>
      intro s hnormal hspace
      have hpairs := List.isChain_cons.mp hnormal.pairs
      have hrest := ih ⟨s.ret ++ [a], s.changed, decide (a = 0x20)⟩
        ⟨fun b hb => hnormal.bytes b (by simp [hb]), hpairs.2⟩
        (fun ha y hy => hpairs.1 y hy (by simpa using ha))
      rw [List.foldl_cons, hstep s a (hnormal.bytes a (by simp)) (fun hs => hspace hs a rfl)]
      simpa using hrest
  obtain ⟨hret, hchanged⟩ := hrun text ⟨[], false, false⟩ h nofun
  exact Prod.ext hret hchanged

theorem cmdLine_of_normal (h : CmdNormal text) : cmdLine text = (text, false) := by
  unfold cmdLine fromFirst
  cases text.findIdx? needsTransform with
  | none => rfl
  | some i =>
    have hdrop : CmdNormal (text.drop i) :=
      ⟨fun b hb => h.bytes b (List.mem_of_mem_drop hb), h.pairs.drop i⟩
    dsimp only
    rw [doCMDLine_of_normal hdrop, List.take_append_drop]

/-! ### `compressWhitespace` -/

def NoSpaceAt : Bytes → Prop
  | [] => True
  | b :: t => latinSpaceAt b t = false

/-- **The normal form of white space**: read rune by rune, where a byte `0xA0` that is no part of a
rune counts, there is no white space but single plain spaces. -/
inductive Compressed : Bytes → Prop
  | nil : Compressed []
  | rune {b : UInt8} {t : Bytes} : latinSpaceAt b t = false →
      Compressed (t.drop (runeFurther b t)) → Compressed (b :: t)
  | space {t : Bytes} : NoSpaceAt t → Compressed t → Compressed (0x20 :: t)

/-- What is written is what was read, up to a space or the end. -/
def Follows (text out : Bytes) : Prop :=
  ∃ u r r', text = u ++ r ∧ out = u ++ r' ∧ ∀ b ∈ r'.head?, b = 0x20

/-- **A rune is read again.**  What follows it may have changed from a space on. -/
theorem decodeRune_again {b : UInt8} {t rest : Bytes}
    (hrest : Follows (t.drop (runeFurther b t)) rest) :
    decodeRune (b :: (t.take (runeFurther b t) ++ rest)) = decodeRune (b :: t) := by
  by_cases herror : decodeRune (b :: t) = (runeError, 1)
  · have hfurther : runeFurther b t = 0 := by simp [runeFurther, herror]
    rw [hfurther] at hrest ⊢
    rw [List.take_zero, List.nil_append, herror]
    obtain ⟨u, r, r', ht, hout, hspace⟩ := hrest
    rw [List.drop_zero] at ht
    -- a rune of what was written has no space, so it is one of what was read
    by_contra hne
    have hb : 0x80 ≤ b.toNat := by
      by_contra hlow
      rw [decodeRune_one (by omega)] at herror
      have hval : b.toNat = runeError := congrArg Prod.fst herror
      rw [runeError] at hval
      omega
    obtain ⟨x, hx⟩ : ∃ x, encodeRune (decodeRune (b :: rest)).1 ++ x = b :: (u ++ r) := by
      have hpre : encodeRune (decodeRune (b :: rest)).1 <+: (b :: u) ++ r' := by
        rw [List.cons_append, ← hout]
        exact ⟨_, (decodeRune_valid hne).symm⟩
      have hhigh := encodeRune_high (decodeRune_high hb rest).1
      have hu : encodeRune (decodeRune (b :: rest)).1 <+: b :: u := by
        cases r' with
        | nil => simpa using hpre
        | cons c r' =>
          have hc := hspace c rfl
          subst hc
          have hspaced : (b :: u) ++ [0x20] <+: (b :: u) ++ 0x20 :: r' := ⟨r', by simp⟩
          rcases List.prefix_or_prefix_of_prefix hpre hspaced with hle | hge
          · rcases List.prefix_concat_iff.mp hle with heq | hle
            · exact absurd (hhigh 0x20 (by rw [heq]; simp)) (by decide)
            · exact hle
          · exact absurd (hhigh 0x20 (hge.subset (by simp))) (by decide)
      obtain ⟨x, hx⟩ := hu
      exact ⟨x ++ r, by rw [← List.append_assoc, hx, List.cons_append]⟩
    have hback := decodeRune_encodeRune (decodeRune (b :: rest)).1 x
    obtain ⟨hclean, hlength⟩ := decodeRune_clean hne
    rw [hx, ← ht, herror, hclean, hlength] at hback
    exact hne hback.symm
  · have hencoded := take_runeFurther herror
    obtain ⟨hclean, hlength⟩ := decodeRune_clean herror
    rw [← List.cons_append, hencoded, decodeRune_encodeRune, hclean, hlength]

theorem runeFurther_le (b : UInt8) (t : Bytes) : runeFurther b t ≤ t.length := by
  by_cases herror : decodeRune (b :: t) = (runeError, 1)
  · rw [runeFurther, herror]
    exact Nat.zero_le _
  · have hlength := congrArg List.length (decodeRune_valid herror)
    rw [List.length_append, (decodeRune_clean herror).2, List.length_cons] at hlength
    rw [runeFurther]
    omega

/-- What the loop writes for a rune that is no white space, before what is in normal form. -/
theorem compressed_rune {b : UInt8} {t rest : Bytes} (h : latinSpaceAt b t = false)
    (hrest : Follows (t.drop (runeFurther b t)) rest) (hnormal : Compressed rest) :
    Compressed (b :: (t.take (runeFurther b t) ++ rest)) ∧
      NoSpaceAt (b :: (t.take (runeFurther b t) ++ rest)) := by
  have hagain := decodeRune_again hrest
  have hspace : latinSpaceAt b (t.take (runeFurther b t) ++ rest) = false := by
    rwa [latinSpaceAt, hagain]
  refine ⟨.rune hspace ?_, hspace⟩
  have hfurther : runeFurther b (t.take (runeFurther b t) ++ rest) = runeFurther b t := by
    rw [runeFurther, hagain, runeFurther]
  have hdrop : (t.take (runeFurther b t) ++ rest).drop (runeFurther b t) = rest :=
    List.drop_left' (List.length_take_of_le (runeFurther_le b t))
  rw [hfurther, hdrop]
  exact hnormal

theorem run_compressStep_normal (value : Bytes) (inWhiteSpace : Bool) :
    Compressed (run compressStep (fun _ => []) inWhiteSpace value).1 ∧
      if inWhiteSpace then NoSpaceAt (run compressStep (fun _ => []) inWhiteSpace value).1
      else Follows value (run compressStep (fun _ => []) inWhiteSpace value).1 := by
  refine run_induction (P := fun inWhiteSpace text out _ => Compressed out ∧
    if inWhiteSpace then NoSpaceAt out else Follows text out) ?_ ?_ value inWhiteSpace
  · intro inWhiteSpace
    refine ⟨.nil, ?_⟩
    cases inWhiteSpace
    · exact ⟨[], [], [], rfl, rfl, nofun⟩
    · trivial
  · intro inWhiteSpace b t rest c h
    cases hb : latinSpaceAt b t with
    | true =>
      cases inWhiteSpace with
      | true => simpa [compressStep, hb] using h
      | false =>
        simp only [compressStep, hb, Bool.false_eq_true] at h ⊢
        exact ⟨.space h.2 h.1, [], b :: t, 0x20 :: rest, rfl, rfl, by simp⟩
    | false =>
      simp only [compressStep, hb, Bool.false_eq_true, if_false] at h ⊢
      obtain ⟨hcompressed, hnone⟩ := compressed_rune hb h.2 h.1
      refine ⟨hcompressed, ?_⟩
      cases inWhiteSpace with
      | true => exact hnone
      | false =>
        obtain ⟨u, r, r', ht, hout, hspace⟩ := h.2
        refine ⟨b :: (t.take (runeFurther b t) ++ u), r, r', ?_, ?_, hspace⟩
        · rw [List.cons_append, List.append_assoc, ← ht, List.take_append_drop]
        · rw [hout, List.cons_append, List.cons_append, List.append_assoc]

theorem compressWhitespace_run (value : Bytes) :
    compressWhitespace value = run compressStep (fun _ => []) false value := by
  refine fromPiece_run rfl (fun b t hb => ?_) value
  simp [compressStep, hb]

theorem compressWhitespace_of_compressed (h : Compressed text) :
    compressWhitespace text = (text, false) := by
  rw [compressWhitespace_run]
  induction h with
  | nil => rfl
  | @rune b t hb _ ih =>
    rw [run_cons]
    simp [compressStep, hb, ih]
  | @space t hnone _ ih =>
    have hspace : latinSpaceAt 0x20 t = true := by
      rw [latinSpaceAt, decodeRune_one (by decide)]
      rfl
    have hrune : (decodeRune (0x20 :: t)).1 = 0x20 :=
      congrArg Prod.fst (decodeRune_one (by decide) t)
    -- after the space the loop goes on as it would without it
    have hstate :
        run compressStep (fun _ => []) true t = run compressStep (fun _ => []) false t := by
      cases t with
      | nil => rfl
      | cons c t =>
        have hc : latinSpaceAt c t = false := hnone
        rw [run_cons, run_cons]
        simp [compressStep, hc]
    have hfurther : runeFurther 0x20 t = 0 := runeFurther_ascii (by decide) t
    rw [run_cons]
    simp [compressStep, hspace, hrune, hfurther, hstate, ih]

/-- **`cmdLine` and `compressWhitespace` reach their normal forms**, leave them alone, and report a
change exactly if there is one. -/
theorem cmdLine_compressWhitespace_normal (data : Bytes) :
    ((∀ b ∈ (cmdLine data).1, b ∉ [0x5C, 0x22, 0x27, 0x5E, 0x2C, 0x3B, 0x09, 0x0D, 0x0A] ∧
          ¬(0x41 ≤ b ∧ b ≤ 0x5A)) ∧
        (∀ c ∈ [0x20, 0x2F, 0x28], ¬[0x20, c] <:+: (cmdLine data).1) ∧
        cmdLine (cmdLine data).1 = ((cmdLine data).1, false) ∧
        ((cmdLine data).2 = true ↔ (cmdLine data).1 ≠ data)) ∧
      (Compressed (compressWhitespace data).1 ∧
        compressWhitespace (compressWhitespace data).1 = ((compressWhitespace data).1, false) ∧
        ((compressWhitespace data).2 = true ↔ (compressWhitespace data).1 ≠ data)) := by
  have hnormal := cmdLine_normal data
  have hcompressed : Compressed (compressWhitespace data).1 := by
    rw [compressWhitespace_run]
    exact (run_compressStep_normal data false).1
  refine ⟨⟨hnormal.bytes, ?_, cmdLine_of_normal hnormal, (cmdLine_tracks data).changed_iff⟩,
    hcompressed, compressWhitespace_of_compressed hcompressed,
    (compressWhitespace_tracks data).changed_iff⟩
  intro c hc hspaced
  have hpair := List.IsChain.infix hnormal.pairs hspaced
  exact List.isChain_pair.mp hpair rfl hc

/-! ### `lowerCase` and `removeWhitespace` -/

/-- `strings.Map`; a rune that is mapped to nothing is dropped. -/
def mapRunes (mapping : Nat → Option Nat) (s : Bytes) : Bytes :=
  encodeRunes ((decodeRunes s).filterMap mapping)

/-- The loop of `whitespaceMappedSize`, with at most `n` rounds. -/
def mappedSize : Nat → Bytes → Nat
  | 0, _ => 0
  | _ + 1, [] => 0
  | n + 1, b :: t =>
    if b.toNat < runeSelf then if asciiSpace b then mappedSize n t else mappedSize n t + 1
    else if decodeRune (b :: t) = (runeError, 1) then mappedSize n t + 3
    else if isSpace (decodeRune (b :: t)).1 then mappedSize n (t.drop (runeFurther b t))
    else mappedSize n (t.drop (runeFurther b t)) + (runeFurther b t + 1)

/-- The size of `whitespaceMappedSize`. -/
def whitespaceMappedSize (data : Bytes) (start : Nat) : Nat :=
  start + mappedSize data.length (data.drop start)

def removeWhitespaceStart (data : Bytes) : Option Nat :=
  firstPiece removableAt runeFurther data.length data

theorem mappedSize_eq (n : Nat) (text : Bytes) : text.length ≤ n →
    mappedSize n text = (mapWithoutWhitespace text).1.length := by
  induction n generalizing text with
  | zero =>
    intro hn
    rw [List.length_eq_zero_iff.mp (Nat.le_zero.mp hn)]
    rfl
  | succ n ih =>
    intro hn
    cases text with
    | nil => rfl
    | cons b t =>
      have hlength : t.length ≤ n := Nat.le_of_succ_le_succ hn
      have hdrop : (t.drop (runeFurther b t)).length ≤ n := by
        rw [List.length_drop]
        omega
      have hrest := ih t hlength
      have hrest' := ih _ hdrop
      unfold mapWithoutWhitespace at hrest hrest' ⊢
      rw [run_cons, mappedSize]
      by_cases hascii : b.toNat < runeSelf
      · cases hspace : asciiSpace b <;>
          simp [removeWhitespaceStep, hascii, hspace, replace, copy, hrest]
      · by_cases herror : decodeRune (b :: t) = (runeError, 1)
        · simp [removeWhitespaceStep, hascii, herror, hrest]
        · cases hspace : isSpace (decodeRune (b :: t)).1
          · have hle := runeFurther_le b t
            simp [removeWhitespaceStep, hascii, herror, hspace]
            omega
          · simp [removeWhitespaceStep, hascii, herror, hspace, replace, hrest']

/-- **`lowerCase` and `removeWhitespace` are what the library defines**: `strings.ToLower`, with a
flag that is right, and `strings.Map` without white space; and the size that is computed before is
the size of the result. -/
theorem lowerCase_removeWhitespace_library (s : Bytes) :
    (lowerCase s).1 = Strings.toLower s ∧ ((lowerCase s).2 = true ↔ Strings.toLower s ≠ s) ∧
      (removeWhitespace s).1 = mapRunes (fun r => if isSpace r then none else some r) s ∧
      ∀ start, removeWhitespaceStart s = some start →
        whitespaceMappedSize s start = (removeWhitespace s).1.length := by
  refine ⟨?_, ?_, ?_, fun start hstart => ?_⟩
  · rw [lowerCase_eq]
    rfl
  · rw [lowerCase_eq]
    exact compared_changed_iff Strings.toLower s
  · have hfilter : ∀ rs : List Nat, rs.filterMap (fun r => if isSpace r then none else some r)
        = rs.filter (fun r => !isSpace r) := by
      intro rs
      induction rs with
      | nil => rfl
      | cons r rs ih => cases h : isSpace r <;> simp [h, ih]
    rw [removeWhitespace_eq, mapRunes, hfilter]
  · have hstart' : firstPiece removableAt runeFurther s.length s = some start := hstart
    unfold whitespaceMappedSize removeWhitespace fromPiece
    rw [hstart', mappedSize_eq _ _ (by simp)]
    have hlt := firstPiece_lt s.length s start hstart'
    simp [Nat.min_eq_left (Nat.le_of_lt hlt)]

/-- In `a b` the writing begins at the space, and two bytes are counted. -/
theorem lowerCase_removeWhitespace_library_ab : removeWhitespaceStart [0x61, 0x20, 0x62] = some 1 ∧
      whitespaceMappedSize [0x61, 0x20, 0x62] 1 = (removeWhitespace [0x61, 0x20, 0x62]).1.length :=
  ⟨by decide +kernel,
    (lowerCase_removeWhitespace_library [0x61, 0x20, 0x62]).2.2.2 1 (by decide +kernel)⟩

end Coraza.Transformations
