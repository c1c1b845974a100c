import Coraza.Go.Unicode

/-!
# Package `strings` on byte lists

The functions of package `strings` that a byte-level filter is built from.
`decodeRunes` is what `for _, r := range s` sees; `toLower` is `strings.ToLower`,
which maps the runes of a text and so replaces a byte outside any sequence by the
encoding of `runeError`; `contains`, `containsAny` and `indexByte` are the
searches.  A search for a text is a search for a contiguous run of bytes, so
`contains` is decided infix.

`containsAny` compares runes.  `containsAny_ascii` says that for a set of ASCII
characters this is the same as comparing bytes, whether or not the text is
UTF-8; `indexAny_ascii` says it for the position that `indexAny` returns.
-/

namespace Go

open List

/-! ### The runes of a text -/

def decodeRunesAux : Nat → Bytes → List Nat
  | 0, _ => []
  | _ + 1, [] => []
  | n + 1, b :: t =>
    (decodeRune (b :: t)).1 :: decodeRunesAux n ((b :: t).drop (decodeRune (b :: t)).2)

/-- `[]rune(s)`, the runes that `range s` visits. -/
def decodeRunes (s : Bytes) : List Nat := decodeRunesAux s.length s

theorem decodeRunesAux_fuel (n m : Nat) (s : Bytes) : s.length ≤ n → s.length ≤ m →
    decodeRunesAux n s = decodeRunesAux m s := by
  induction n generalizing m s with
  | zero =>
    intro hn _
    have hs : s = [] := List.length_eq_zero_iff.mp (Nat.le_zero.mp hn)
    subst hs
    cases m <;> rfl
  | succ n ih =>
    intro hn hm
    cases s with
    | nil => cases m <;> rfl
    | cons b t =>
      cases m with
      | zero => exact absurd hm (Nat.not_succ_le_zero _)
      | succ m =>
        have hw : 0 < (decodeRune (b :: t)).2 := decodeRune_width_pos (cons_ne_nil b t)
        simp only [decodeRunesAux]
        rw [ih m]
        · rw [length_drop]; omega
        · rw [length_drop]; omega

@[simp] theorem decodeRunes_nil : decodeRunes [] = [] := rfl

theorem decodeRunes_cons (b : UInt8) (t : Bytes) : decodeRunes (b :: t)
      = (decodeRune (b :: t)).1 :: decodeRunes ((b :: t).drop (decodeRune (b :: t)).2) := by
  have hw : 0 < (decodeRune (b :: t)).2 := decodeRune_width_pos (cons_ne_nil b t)
  unfold decodeRunes
  rw [length_cons, decodeRunesAux]
  refine congrArg _ (decodeRunesAux_fuel _ _ _ ?_ (le_refl _))
  rw [length_drop, length_cons]
  omega

theorem decodeRunes_encodeRune_append (r : Nat) (t : Bytes) :
    decodeRunes (encodeRune r ++ t) = cleanRune r :: decodeRunes t := by
  have hd := decodeRune_encodeRune r t
  obtain ⟨b, u, hb⟩ := exists_cons_of_ne_nil (encodeRune_ne_nil r)
  rw [hb] at hd ⊢
  rw [cons_append] at hd ⊢
  rw [decodeRunes_cons, hd, ← cons_append, drop_left]

/-- **The runes of `string(rs)`.** -/
theorem decodeRunes_encodeRunes (rs : List Nat) :
    decodeRunes (encodeRunes rs) = rs.map cleanRune := by
  induction rs with
  | nil => rfl
  | cons r rs ih => rw [encodeRunes_cons, decodeRunes_encodeRune_append, ih, map_cons]

/-- **The induction rule** for what is read rune by rune. -/
theorem runes_induction {P : Bytes → Prop} (hnil : P [])
    (hcons : ∀ b t, P ((b :: t).drop (decodeRune (b :: t)).2) → P (b :: t)) : ∀ s, P s := by
  intro s
  induction hn : s.length using Nat.strong_induction_on generalizing s with
  | _ n ih =>
    subst hn
    cases s with
    | nil => exact hnil
    | cons b t =>
      have hw : 0 < (decodeRune (b :: t)).2 := decodeRune_width_pos (cons_ne_nil b t)
      refine hcons b t (ih _ ?_ _ rfl)
      rw [length_drop, length_cons]
      omega

/-- `utf8.ValidString`: the text is the encoding of the runes that are read from it. -/
def validString (s : Bytes) : Bool := encodeRunes (decodeRunes s) = s

variable {c : UInt8}

/-- **An ASCII byte of a text is a rune of the text.** -/
theorem mem_decodeRunes_ascii (hc : c.toNat < 0x80) (s : Bytes) :
    c.toNat ∈ decodeRunes s ↔ c ∈ s := by
  revert s
  refine runes_induction (by simp) (fun b t ih => ?_)
  rw [decodeRunes_cons, mem_cons, ih]
  by_cases hb : b.toNat < 0x80
  · rw [decodeRune_one hb, drop_one, tail_cons, mem_cons, UInt8.toNat_inj]
  · obtain ⟨hr, htake⟩ := decodeRune_high (Nat.not_lt.mp hb) t
    have hsplit : c ∈ b :: t ↔ c ∈ (b :: t).take (decodeRune (b :: t)).2 ∨
        c ∈ (b :: t).drop (decodeRune (b :: t)).2 := by
      rw [← mem_append, take_append_drop]
    rw [hsplit]
    constructor
    · rintro (h | h)
      · omega
      · exact Or.inr h
    · rintro (h | h)
      · exact absurd (htake c h) (by omega)
      · exact Or.inr h

theorem decodeRune_width_le (b : UInt8) (t : Bytes) :
    (decodeRune (b :: t)).2 ≤ (b :: t).length := by
  by_cases h : decodeRune (b :: t) = (runeError, 1)
  · rw [h]
    exact Nat.le_add_left 1 t.length
  · rw [← (decodeRune_clean h).2]
    exact (List.IsPrefix.length_le ⟨_, (decodeRune_valid h).symm⟩)

theorem decodeRunes_of_ascii {s : Bytes} : (∀ b ∈ s, b.toNat < 0x80) →
    decodeRunes s = s.map UInt8.toNat := by
  induction s with
  | nil => exact fun _ => rfl
  | cons b t ih =>
    intro h
    rw [decodeRunes_cons, decodeRune_one (h b mem_cons_self), map_cons, drop_one,
      tail_cons, ih (fun c hc => h c (mem_cons_of_mem b hc))]

namespace Strings

/-! ### Lower case -/

def toLower (s : Bytes) : Bytes := encodeRunes ((decodeRunes s).map Go.toLower)

def toUpper (s : Bytes) : Bytes := encodeRunes ((decodeRunes s).map Go.toUpper)

theorem toLower_encodeRunes (rs : List Nat) :
    toLower (encodeRunes rs) = encodeRunes ((rs.map cleanRune).map Go.toLower) := by
  rw [toLower, decodeRunes_encodeRunes]

theorem encodeRune_toLower_cleanRune {r : Nat} (h : Go.toLower r = r) :
    encodeRune (Go.toLower (cleanRune r)) = encodeRune r := by
  unfold cleanRune
  split
  · rw [h]
  · rename_i hv
    have herror : Go.toLower runeError = runeError := by decide
    have hvalid : validRune runeError = true := by decide
    rw [herror, encodeRune, encodeRune, if_pos hvalid, if_neg hv]

/-- **`strings.ToLower` changes nothing the second time.** -/
theorem toLower_toLower (s : Bytes) : toLower (toLower s) = toLower s := by
  unfold toLower
  rw [decodeRunes_encodeRunes]
  induction decodeRunes s with
  | nil => rfl
  | cons r rs ih =>
    rw [map_cons, map_cons, map_cons, encodeRunes_cons, encodeRunes_cons, ih,
      encodeRune_toLower_cleanRune (Go.toLower_toLower r)]

def lowerByte (b : UInt8) : UInt8 := if 0x41 ≤ b ∧ b ≤ 0x5A then b + 0x20 else b

theorem encodeRune_lowerByte {b : UInt8} (hb : b.toNat < 0x80) :
    encodeRune (Go.toLower b.toNat) = [lowerByte b] := by
  have htable : ∀ n < 0x80, encodeRune (Go.toLower n) = [lowerByte (UInt8.ofNat n)] := by
    decide
  have hbyte := htable b.toNat hb
  rwa [← UInt8.eq_ofNat rfl] at hbyte

theorem toLower_cons {b : UInt8} (hb : b.toNat < 0x80) (t : Bytes) :
    toLower (b :: t) = lowerByte b :: toLower t := by
  rw [toLower, decodeRunes_cons, decodeRune_one hb, map_cons, encodeRunes_cons,
    encodeRune_lowerByte hb]
  rfl

variable {s : Bytes}

@[simp] theorem toLower_eq_nil : toLower s = [] ↔ s = [] := by
  constructor
  · intro h
    cases s with
    | nil => rfl
    | cons b t =>
      rw [toLower, decodeRunes_cons, map_cons, encodeRunes_cons] at h
      exact absurd (List.append_eq_nil_iff.mp h).1 (encodeRune_ne_nil _)
  · rintro rfl
    rfl

/-! ### Searches -/

def contains (s sub : Bytes) : Bool := decide (sub <:+: s)

@[simp] theorem contains_iff {s sub : Bytes} : contains s sub = true ↔ sub <:+: s := by
  simp [contains]

/-- `strings.IndexByte`, with `none` for `-1`. -/
def indexByte (s : Bytes) (c : UInt8) : Option Nat := s.findIdx? (fun b => b == c)

@[simp] theorem indexByte_isSome : (indexByte s c).isSome = true ↔ c ∈ s := by
  simp [indexByte]

theorem indexByte_eq_some {i : Nat} (h : indexByte s c = some i) :
    s = s.take i ++ c :: s.drop (i + 1) ∧ c ∉ s.take i := by
  obtain ⟨hi, hc, hbefore⟩ := List.findIdx?_eq_some_iff_getElem.mp h
  have hc : s[i] = c := beq_iff_eq.mp hc
  constructor
  · rw [← hc, cons_getElem_drop_succ, take_append_drop]
  · intro hmem
    obtain ⟨j, hj, hcj⟩ := List.mem_take_iff_getElem.mp hmem
    exact hbefore j (by omega) (beq_iff_eq.mpr hcj)

theorem indexByte_append (h : c ∉ s) (t : Bytes) : indexByte (s ++ c :: t) c = some s.length := by
  unfold indexByte
  rw [List.findIdx?_append, List.findIdx?_eq_none_iff.mpr, List.findIdx?_cons, beq_self_eq_true,
    if_pos rfl]
  · simp
  · intro b hb
    exact beq_false_of_ne (fun heq => h (heq ▸ hb))

/-- `strings.ContainsAny`: some rune of `chars` is a rune of `s`. -/
def containsAny (s chars : Bytes) : Bool :=
  (decodeRunes s).any (fun r => decide (r ∈ decodeRunes chars))

/-- The loop of `indexAny`, at a position of a text with at most `n` bytes left. -/
def indexAnyAux (chars : List Nat) : Nat → Nat → Bytes → Option Nat
  | 0, _, _ => none
  | _ + 1, _, [] => none
  | n + 1, i, b :: t =>
    let (r, w) := decodeRune (b :: t)
    if r ∈ chars then some i else indexAnyAux chars n (i + w) ((b :: t).drop w)

/-- `strings.IndexAny`: where the first rune of `s` stands that is one of `chars`. -/
def indexAny (s chars : Bytes) : Option Nat :=
  indexAnyAux (decodeRunes chars) s.length 0 s

theorem containsAny_ascii {chars : Bytes} (hc : ∀ c ∈ chars, c.toNat < 0x80) (s : Bytes) :
    containsAny s chars = true ↔ ∃ c ∈ s, c ∈ chars := by
  have hrune : ∀ r ∈ decodeRunes chars, ∃ c ∈ chars, c.toNat = r := by
    intro r hr
    rw [decodeRunes_of_ascii hc] at hr
    exact List.mem_map.mp hr
  simp only [containsAny, any_eq_true, decide_eq_true_eq]
  constructor
  · rintro ⟨r, hs, hr⟩
    obtain ⟨c, hmem, rfl⟩ := hrune r hr
    exact ⟨c, (mem_decodeRunes_ascii (hc c hmem) s).mp hs, hmem⟩
  · rintro ⟨c, hs, hmem⟩
    exact ⟨c.toNat, (mem_decodeRunes_ascii (hc c hmem) s).mpr hs,
      (mem_decodeRunes_ascii (hc c hmem) chars).mpr hmem⟩

theorem indexAny_ascii {chars : Bytes} (hc : ∀ c ∈ chars, c.toNat < 0x80) (s : Bytes) :
    indexAny s chars = s.findIdx? (fun b => b ∈ chars) := by
  have haux : ∀ (n i : Nat) (s : Bytes), s.length ≤ n →
      indexAnyAux (decodeRunes chars) n i s = (s.findIdx? (fun b => b ∈ chars)).map (· + i) := by
    intro n
    induction n with
    | zero =>
      intro i s hs
      rw [List.length_eq_zero_iff.mp (Nat.le_zero.mp hs)]
      rfl
    | succ n ih =>
      intro i s hs
      cases s with
      | nil => rfl
      | cons b t =>
        have hwidth := decodeRune_width_pos (cons_ne_nil b t)
        have hdrop : ((b :: t).drop (decodeRune (b :: t)).2).length ≤ n := by
          rw [length_drop]
          omega
        rw [indexAnyAux]
        dsimp only
        rw [ih _ _ hdrop]
        by_cases hb : b.toNat < 0x80
        · rw [decodeRune_one hb, List.findIdx?_cons]
          rw [drop_one, tail_cons]
          by_cases hmem : b ∈ chars
          · rw [if_pos ((mem_decodeRunes_ascii hb chars).mpr hmem), if_pos (decide_eq_true hmem)]
            simp
          · rw [if_neg (fun h => hmem ((mem_decodeRunes_ascii hb chars).mp h)),
              if_neg (by simp [hmem]), Option.map_map]
            exact Option.map_congr (fun k _ => by dsimp only [Function.comp]; omega)
        · -- none of the bytes of the rune is ASCII
          obtain ⟨hhigh, htake⟩ := decodeRune_high (Nat.not_lt.mp hb) t
          have hnot : (decodeRune (b :: t)).1 ∉ decodeRunes chars := by
            intro h
            rw [decodeRunes_of_ascii hc] at h
            obtain ⟨c, hcmem, hceq⟩ := List.mem_map.mp h
            exact absurd (hc c hcmem) (by omega)
          have hnone : ((b :: t).take (decodeRune (b :: t)).2).findIdx? (fun b => b ∈ chars)
              = none := by
            rw [List.findIdx?_eq_none_iff]
            intro c hcmem
            exact decide_eq_false (fun h => absurd (hc c h) (Nat.not_lt.mpr (htake c hcmem)))
          have hsplit : (b :: t).findIdx? (fun b => b ∈ chars)
              = (((b :: t).drop (decodeRune (b :: t)).2).findIdx? (fun b => b ∈ chars)).map
                (· + (decodeRune (b :: t)).2) := by
            conv_lhs => rw [← take_append_drop (decodeRune (b :: t)).2 (b :: t)]
            rw [List.findIdx?_append, hnone, Option.none_or, length_take,
              Nat.min_eq_left (decodeRune_width_le b t)]
          rw [if_neg hnot, hsplit, Option.map_map]
          exact Option.map_congr (fun k _ => by dsimp only [Function.comp]; omega)
  unfold indexAny
  rw [haux _ _ _ (Nat.le_refl _)]
  exact Option.map_id' ..

/-- `strings.LastIndexByte`, with `none` for `-1`. -/
def lastIndexByte (s : Bytes) (c : UInt8) : Option Nat :=
  (indexByte s.reverse c).map (fun i => s.length - 1 - i)

theorem lastIndexByte_append (s : Bytes) {t : Bytes} (h : c ∉ t) :
    lastIndexByte (s ++ c :: t) c = some s.length := by
  have hindex : indexByte (s ++ c :: t).reverse c = some t.length := by
    rw [reverse_append, reverse_cons, append_assoc, singleton_append,
      indexByte_append (mt List.mem_reverse.mp h), length_reverse]
  unfold lastIndexByte
  rw [hindex, Option.map_some, length_append, length_cons]
  congr 1
  omega

theorem lastIndexByte_lt {i : Nat} (h : lastIndexByte s c = some i) : i < s.length := by
  obtain ⟨j, hj, rfl⟩ := Option.map_eq_some_iff.mp h
  have hlt := (List.findIdx?_eq_some_iff_getElem.mp hj).1
  rw [length_reverse] at hlt
  omega

/-- `strings.LastIndexAny` for ASCII characters, with `none` for `-1`. -/
def lastIndexAny (s chars : Bytes) : Option Nat :=
  (s.reverse.findIdx? (fun b => b ∈ chars)).map (fun i => s.length - 1 - i)

/-! ### Cutting and replacing -/

/-- `strings.TrimLeft`, for a cutset of ASCII characters. -/
def trimLeft (s cutset : Bytes) : Bytes := s.dropWhile (fun b => b ∈ cutset)

/-- `strings.TrimRight`, for a cutset of ASCII characters. -/
def trimRight (s cutset : Bytes) : Bytes := s.rdropWhile (fun b => b ∈ cutset)

/-- `strings.Trim`, for a cutset of ASCII characters. -/
def trim (s cutset : Bytes) : Bytes := trimLeft (trimRight s cutset) cutset

/-- `strings.ReplaceAll` for a single byte. -/
def replaceAll (s : Bytes) (old : UInt8) (new : Bytes) : Bytes :=
  s.flatMap (fun b => if b = old then new else [b])

/-- `strings.Cut` at a byte: the text before the first one, the text after it, and whether there
is one. -/
def cut (s : Bytes) (sep : UInt8) : Bytes × Bytes × Bool :=
  match indexByte s sep with
  | some i => (s.take i, s.drop (i + 1), true)
  | none => (s, [], false)

def runeStart (b : UInt8) : Bool := b &&& 0xC0 ≠ 0x80

/-- `utf8.DecodeLastRuneInString`: the rune at the end of a text and its width. -/
def decodeLastRune (s : Bytes) : Nat × Nat :=
  match s.reverse with
  | [] => (runeError, 0)
  | b :: before =>
    if b.toNat < 0x80 then (b.toNat, 1)
    else
      match (before.take 3).findIdx? runeStart with
      | none => (runeError, 1)
      | some i =>
        let (r, size) := decodeRune (s.drop (s.length - (i + 2)))
        if size = i + 2 then (r, size) else (runeError, 1)

def trimSpaceLeft : Nat → Bytes → Bytes
  | 0, s => s
  | n + 1, s =>
    if s = [] then []
    else if isSpace (decodeRune s).1 then trimSpaceLeft n (s.drop (decodeRune s).2)
    else s

def trimSpaceRight : Nat → Bytes → Bytes
  | 0, s => s
  | n + 1, s =>
    if s = [] then []
    else if isSpace (decodeLastRune s).1 then
      trimSpaceRight n (s.take (s.length - (decodeLastRune s).2))
    else s

def trimSpace (s : Bytes) : Bytes := trimSpaceRight s.length (trimSpaceLeft s.length s)

theorem trimLeft_suffix (s cutset : Bytes) : trimLeft s cutset <:+ s := dropWhile_suffix _

theorem trimRight_prefix (s cutset : Bytes) : trimRight s cutset <+: s :=
  rdropWhile_prefix _ s

end Strings

end Go
