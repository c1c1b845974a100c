import Coraza.Transformations.Encodings

/-!
# Decoding Base64

`doBase64decode` tries the decoder of the standard library on texts that look like Base64 and has a
loop of its own for the others.  What the loop computes is said in `base64Loop_eq`: it collects
the values of the characters that `usedChars` names, and writes the bytes of their groups
(`Base64.groupBytes`).  For `base64Decode` these are the characters before the first one outside
the alphabet, line breaks left out; for `base64DecodeExt` the characters of both alphabets before
the padding.

`base64decode_transparent` says that the library only makes `base64Decode` faster, and
`base64decodeext_skips` that nothing inserted before the padding disturbs `base64DecodeExt`.
-/

namespace Coraza.Transformations

open Go Base64 List

/-! ### The characters of the loop -/

/-- The characters that the loop uses, in the standard alphabet. -/
def usedChars (ext : Bool) (src : Bytes) : Bytes :=
  if ext then ((src.takeWhile (fun c => c ≠ 0x3D)).map fromURLSafe).filter isChar
  else (src.filter (fun c => c != 0x0D && c != 0x0A)).takeWhile isChar

def readChar (ext : Bool) (c : UInt8) : UInt8 := if ext then fromURLSafe c else c

/-- What the loop does with a character of the alphabet: none of its tests holds. -/
theorem readChar_used (ext : Bool) : ∀ c : UInt8, isChar (readChar ext c) = true →
    ¬(ext = true ∧ (isSpace c.toNat = true ∨ c = 0x2E)) ∧ ¬(c = 0x0D ∨ c = 0x0A) ∧
      ¬(c = 0x3D ∨ c = 0x20) ∧ base64Value ext c ≠ 127 ∧
      base64Value ext c &&& 0x3F = charValue (readChar ext c) := by
  cases ext <;> exact UInt8.forall_of_fin (by decide +kernel)

/-- Other characters are skipped, but for the padding, by the lenient decoder. -/
theorem readChar_skipped : ∀ c : UInt8, isChar (fromURLSafe c) = false → c ≠ 0x3D →
    (isSpace c.toNat = true ∨ c = 0x2E) ∨
      ¬(c = 0x3D ∨ c = 0x20) ∧ base64Value true c = 127 :=
  UInt8.forall_of_fin (by decide +kernel)

theorem readChar_stop : ∀ c : UInt8, isChar c = false → ¬(c = 0x0D ∨ c = 0x0A) →
    (c = 0x3D ∨ c = 0x20) ∨ base64Value false c = 127 :=
  UInt8.forall_of_fin (by decide +kernel)

/-! ### One round -/

section

variable {ext : Bool} {n x : Nat} {c : UInt8} {rest : Bytes}

theorem base64Loop_used (h : isChar (readChar ext c) = true) : base64Loop ext n x (c :: rest)
      = if n + 1 = 4 then
          threeBytes (x <<< 6 ||| charValue (readChar ext c)) ++ base64Loop ext 0 0 rest
        else base64Loop ext (n + 1) (x <<< 6 ||| charValue (readChar ext c)) rest := by
  obtain ⟨hspace, hline, hstop, hvalid, hvalue⟩ := readChar_used ext c h
  rw [base64Loop, if_neg hspace, if_neg hline, if_neg hstop, if_neg hvalid, hvalue]

theorem base64Loop_line (h : c = 0x0D ∨ c = 0x0A) :
    base64Loop ext n x (c :: rest) = base64Loop ext n x rest := by
  rw [base64Loop, if_pos h, ite_self]

theorem base64Loop_skipped (h : isChar (fromURLSafe c) = false) (hpadding : c ≠ 0x3D) :
    base64Loop true n x (c :: rest) = base64Loop true n x rest := by
  rw [base64Loop]
  rcases readChar_skipped c h hpadding with hspace | ⟨hstop, hinvalid⟩
  · rw [if_pos ⟨rfl, hspace⟩]
  · rw [if_neg hstop, if_pos hinvalid, if_pos rfl, ite_self, ite_self]

theorem base64Loop_stop (h : isChar c = false) (hline : ¬(c = 0x0D ∨ c = 0x0A)) :
    base64Loop false n x (c :: rest) = base64Rest n x := by
  rw [base64Loop, if_neg (fun h => Bool.false_ne_true h.1), if_neg hline]
  rcases readChar_stop c h hline with hstop | hinvalid
  · rw [if_pos hstop]
  · rw [if_pos hinvalid, if_neg Bool.false_ne_true, ite_self]

theorem usedChars_used (h : isChar (readChar ext c) = true) :
    usedChars ext (c :: rest) = readChar ext c :: usedChars ext rest := by
  obtain ⟨-, hline, hstop, -⟩ := readChar_used ext c h
  obtain ⟨hcr, hlf⟩ := not_or.mp hline
  cases ext with
  | false =>
    show ((c :: rest).filter _).takeWhile isChar = _
    rw [filter_cons_of_pos (by simp [hcr, hlf])]
    exact takeWhile_cons_of_pos h
  | true =>
    show (((c :: rest).takeWhile _).map fromURLSafe).filter isChar = _
    rw [takeWhile_cons_of_pos (by simpa using (not_or.mp hstop).1)]
    exact filter_cons_of_pos h

theorem usedChars_line (h : c = 0x0D ∨ c = 0x0A) :
    usedChars ext (c :: rest) = usedChars ext rest := by
  cases ext with
  | false =>
    show ((c :: rest).filter _).takeWhile isChar = _
    rw [filter_cons_of_neg (by rcases h with rfl | rfl <;> decide)]
    rfl
  | true =>
    show (((c :: rest).takeWhile _).map fromURLSafe).filter isChar = _
    rw [takeWhile_cons_of_pos (by rcases h with rfl | rfl <;> decide), map_cons,
      filter_cons_of_neg (by rcases h with rfl | rfl <;> decide)]
    rfl

theorem usedChars_skipped (h : isChar (fromURLSafe c) = false) (hpadding : c ≠ 0x3D) :
    usedChars true (c :: rest) = usedChars true rest := by
  show (((c :: rest).takeWhile _).map fromURLSafe).filter isChar = _
  rw [takeWhile_cons_of_pos (by simpa using hpadding), map_cons,
    filter_cons_of_neg (by rw [h]; exact Bool.false_ne_true)]
  rfl

theorem usedChars_padding : usedChars true (0x3D :: rest) = [] := rfl

theorem usedChars_stop (h : isChar c = false) (hline : ¬(c = 0x0D ∨ c = 0x0A)) :
    usedChars false (c :: rest) = [] := by
  obtain ⟨hcr, hlf⟩ := not_or.mp hline
  show ((c :: rest).filter _).takeWhile isChar = _
  rw [filter_cons_of_pos (by simp [hcr, hlf]),
    takeWhile_cons_of_neg (by rw [h]; exact Bool.false_ne_true)]

end

/-! ### The whole loop -/

theorem base64Rest_eq {p : List Nat} (h : p.length < 4) :
    base64Rest p.length (joinSextets p) = groupBytes p := by
  match p with
  | [] => rfl
  | [_] => rfl
  | [_, _] => rfl
  | [_, _, _] => rfl
  | _ :: _ :: _ :: _ :: _ => exact absurd h (by simp)

/-- **What the loop computes**, after the values `p` of a group. -/
theorem base64Loop_eq (ext : Bool) (src : Bytes) (p : List Nat) : p.length < 4 →
    base64Loop ext p.length (joinSextets p) src
      = groupBytes (p ++ (usedChars ext src).map charValue) := by
  induction src generalizing p with
  | nil =>
    intro hp
    have hnone : usedChars ext [] = [] := by cases ext <;> rfl
    rw [hnone, map_nil, append_nil]
    exact base64Rest_eq hp
  | cons c rest ih =>
    intro hp
    by_cases hused : isChar (readChar ext c) = true
    · rw [base64Loop_used hused, usedChars_used hused, map_cons]
      generalize charValue (readChar ext c) = v
      have hjoin : joinSextets p <<< 6 ||| v = joinSextets (p ++ [v]) := by
        unfold joinSextets
        rw [foldl_concat]
      rw [hjoin]
      split
      · rename_i hfull
        match p, hfull with
        | [a, b, d], _ =>
          have hstart := ih [] (Nat.succ_pos 3)
          show threeBytes (joinSextets [a, b, d, v]) ++ base64Loop ext ([] : List Nat).length
            (joinSextets []) rest = _
          rw [hstart]
          rfl
      · rename_i hopen
        have hnext := ih (p ++ [v]) (by rw [length_append, length_singleton]; omega)
        rw [length_append, append_assoc] at hnext
        exact hnext
    rw [Bool.not_eq_true] at hused
    by_cases hline : c = 0x0D ∨ c = 0x0A
    · rw [base64Loop_line hline, usedChars_line hline, ih p hp]
    cases ext with
    | false =>
      have hstop : isChar c = false := hused
      rw [base64Loop_stop hstop hline, usedChars_stop hstop hline, map_nil, append_nil]
      exact base64Rest_eq hp
    | true =>
      by_cases hpadding : c = 0x3D
      · subst hpadding
        rw [usedChars_padding, map_nil, append_nil]
        exact base64Rest_eq hp
      · rw [base64Loop_skipped hused hpadding, usedChars_skipped hused hpadding, ih p hp]

theorem base64Loop_start (ext : Bool) (src : Bytes) :
    base64Loop ext 0 0 src = groupBytes ((usedChars ext src).map charValue) :=
  base64Loop_eq ext src [] (Nat.succ_pos 3)

theorem doBase64decode_eq_loop (src : Bytes) (ext : Bool) :
    doBase64decode src ext = base64Loop ext 0 0 src := by
  unfold doBase64decode
  split
  · rename_i hempty
    subst hempty
    rfl
  · dsimp only
    split
    · rename_i dst hdecoded
      split at hdecoded
      · rename_i hfast
        obtain ⟨rfl, -⟩ := hfast
        rw [decodeQuanta_eq hdecoded, base64Loop_start]
        rfl
      · cases hdecoded
    · rfl

theorem groupBytes_encoded {chars data : Bytes} (h : chars = rawEncodeToString data) :
    groupBytes (chars.map charValue) = data := by
  rw [h, (rawEncodeToString_values data).2, groupBytes_sextets]

/-- In an encoding with or without padding, the characters before the padding are used. -/
theorem usedChars_encoding (data pad : Bytes) (hpad : ∀ c ∈ pad.head?, c = 0x3D) :
    usedChars false (rawEncodeToString data ++ pad) = rawEncodeToString data := by
  have hchars := (rawEncodeToString_values data).1
  generalize rawEncodeToString data = chars at hchars
  induction chars with
  | nil =>
    cases pad with
    | nil => rfl
    | cons c rest =>
      cases hpad c rfl
      exact usedChars_stop (by decide) (by decide)
  | cons c chars ih =>
    rw [cons_append, @usedChars_used false c _ (hchars c mem_cons_self),
      ih (fun d hd => hchars d (mem_cons_of_mem c hd))]
    rfl

theorem padding_head (data : Bytes) : ∀ c ∈ (padding data).head?, c = 0x3D := by
  intro c hc
  unfold padding at hc
  split at hc
  · exact (Option.some.inj hc).symm
  · exact (Option.some.inj hc).symm
  · cases hc

/-- **The fast path of `base64Decode` is invisible.**  The result is that of the loop alone, which
decodes the characters before the first one outside the alphabet, line breaks left out; and an
encoding, padded or not, is decoded to its data. -/
theorem base64decode_transparent (data : Bytes) :
    base64decode data = (base64Loop false 0 0 data, true) ∧
      base64Loop false 0 0 data = groupBytes
        (((data.filter (fun c => c != 0x0D && c != 0x0A)).takeWhile isChar).map charValue) ∧
      (base64decode (encodeToString data)).1 = data ∧
      (base64decode (rawEncodeToString data)).1 = data := by
  have hencoded : ∀ pad : Bytes, (∀ c ∈ pad.head?, c = 0x3D) →
      (base64decode (rawEncodeToString data ++ pad)).1 = data := by
    intro pad hpad
    show doBase64decode _ false = data
    rw [doBase64decode_eq_loop, base64Loop_start]
    exact groupBytes_encoded (usedChars_encoding data pad hpad)
  refine ⟨?_, base64Loop_start false data, ?_, ?_⟩
  · unfold base64decode
    rw [doBase64decode_eq_loop]
  · rw [encodeToString_eq]
    exact hencoded _ (padding_head data)
  · have h := hencoded [] (fun c hc => nomatch hc)
    rwa [append_nil] at h

/-- **Junk does not derail `base64DecodeExt`.**  If the characters of `body` that belong to one of
the two alphabets are an encoding of `data`, then `body`, with padding or without, is decoded to
`data`, whatever other bytes stand among them. -/
theorem base64decodeext_skips {data body pad : Bytes} (hbody : 0x3D ∉ body)
    (hchars : (body.map fromURLSafe).filter isChar = rawEncodeToString data)
    (hpad : pad = [] ∨ pad = [0x3D] ∨ pad = [0x3D, 0x3D]) :
    (base64decodeext (body ++ pad)).1 = data := by
  have htake : (body ++ pad).takeWhile (fun c => c ≠ 0x3D) = body := by
    have hkept : ∀ c ∈ body, decide (c ≠ 0x3D) = true :=
      fun c hc => decide_eq_true (fun heq => hbody (heq ▸ hc))
    rw [takeWhile_append_of_pos hkept]
    rcases hpad with rfl | rfl | rfl
    · exact append_nil body
    · exact append_nil body
    · exact append_nil body
  have hused : usedChars true (body ++ pad) = rawEncodeToString data := by
    show (((body ++ pad).takeWhile _).map fromURLSafe).filter isChar = _
    rw [htake, hchars]
  show doBase64decode _ true = data
  rw [doBase64decode_eq_loop, base64Loop_start]
  exact groupBytes_encoded hused

/-- The byte `0xFB` is `-w` in the URL-safe alphabet; a blank, a dot and a high byte among the
characters do not matter. -/
theorem base64decodeext_skips_dots :
    (base64decodeext ([0x20, 0x2D, 0x2E, 0xFF, 0x77, 0x0A] ++ [0x3D, 0x3D])).1 = [0xFB] :=
  base64decodeext_skips (by decide) (by decide +kernel) (.inr (.inr rfl))

end Coraza.Transformations
