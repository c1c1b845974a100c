import Coraza.Go.Io
import Coraza.Go.Maps
import Coraza.Go.Strings

/-!
# Query strings

`parseQuery` splits an urlencoded text into named values.  `decoded` says which pairs the text
holds, in the order of the text, and `doParseQuery_eq` that the map collects exactly these,
under the names as they are spelt.

`Spells` is the converse of decoding: a byte may be written as itself, as a plus sign if it is a
blank, or as an escape.  Whatever spelling a form chooses for its pairs, and however many empty
segments stand between them, the map has for each name the values of that name in their order
(`parseQuery_spelt`).
-/

namespace Coraza.Url

open Go List Strings

def hexDigitToByte (digit : UInt8) : Option UInt8 :=
  if 0x30 ≤ digit ∧ digit ≤ 0x39 then some (digit - 0x30)
  else if 0x61 ≤ digit ∧ digit ≤ 0x66 then some (digit - 0x61 + 10)
  else if 0x41 ≤ digit ∧ digit ≤ 0x46 then some (digit - 0x41 + 10)
  else none

def unescapeLoop : Bytes → Bytes
  | [] => []
  | ci :: rest =>
    if ci = 0x2B then 0x20 :: unescapeLoop rest
    else if ci = 0x25 then
      match rest with
      | h :: l :: after =>
        match hexDigitToByte h, hexDigitToByte l with
        | some hi, some lo => (hi <<< 4 ||| lo) :: unescapeLoop after
        | _, _ => ci :: unescapeLoop (h :: l :: after)
      | rest => ci :: unescapeLoop rest
    else ci :: unescapeLoop rest

/-- `queryUnescape`.  The text before the first `%` or `+` is copied. -/
def queryUnescape (input : Bytes) : Bytes :=
  match indexAny input (bytesOf "%+") with
  | none => input
  | some start => input.take start ++ unescapeLoop (input.drop start)

def cut (s : Bytes) (c : UInt8) : Bytes × Bytes :=
  match indexByte s c with
  | some i => (s.take i, s.drop (i + 1))
  | none => (s, [])

def namedValue (urlUnescape : Bool) (piece : Bytes) : Bytes × Bytes :=
  let (key, value) := cut piece 0x3D
  if urlUnescape then (queryUnescape key, queryUnescape value) else (key, value)

/-- The loop of `doParseQuery`, with a bound on the rounds. -/
def queryLoop (separator : UInt8) (urlUnescape : Bool) : Nat → Bytes →
    AList (fun _ : Bytes => List Bytes) → AList (fun _ : Bytes => List Bytes)
  | 0, _, m => m
  | n + 1, query, m =>
    if query = [] then m
    else
      let (key, query) := cut query separator
      if key = [] then queryLoop separator urlUnescape n query m
      else queryLoop separator urlUnescape n query (Maps.appendAt m (namedValue urlUnescape key))

/-- `doParseQuery`.  Every round takes at least one byte. -/
def doParseQuery (query : Bytes) (separator : UInt8) (urlUnescape : Bool) :
    AList (fun _ : Bytes => List Bytes) :=
  queryLoop separator urlUnescape query.length query ∅

def parseQuery (query : Bytes) (separator : UInt8) : AList (fun _ : Bytes => List Bytes) :=
  doParseQuery query separator true

/-! ### The pairs of a query -/

/-- The named values of a query: those of its pieces that are not empty. -/
def decoded (query : Bytes) (separator : UInt8) (urlUnescape : Bool) : List (Bytes × Bytes) :=
  ((query.splitOn separator).filter (fun piece => piece ≠ [])).map (namedValue urlUnescape)

theorem cut_length {s : Bytes} (hs : s ≠ []) (c : UInt8) : (cut s c).2.length < s.length := by
  have hpos : 0 < s.length := List.length_pos_iff.mpr hs
  unfold cut
  split
  · rw [length_drop]
    omega
  · exact hpos

theorem splitOn_cut (s : Bytes) (c : UInt8) :
    s.splitOn c = (cut s c).1 :: (cut s c).2.splitOn c ∨ s.splitOn c = [(cut s c).1] ∧
      (cut s c).2 = [] := by
  unfold cut
  cases hi : indexByte s c with
  | none =>
    have hc : c ∉ s := by
      rw [← indexByte_isSome, hi]
      exact Bool.false_ne_true
    exact .inr ⟨splitOn_eq_singleton hc, rfl⟩
  | some i =>
    obtain ⟨hsplit, hnot⟩ := indexByte_eq_some hi
    left
    calc s.splitOn c = (s.take i ++ c :: s.drop (i + 1)).splitOn c := by rw [← hsplit]
      _ = (s.take i).splitOn c ++ (s.drop (i + 1)).splitOn c :=
        splitOnP_append_cons (p := (· == c)) _ _ (beq_self_eq_true c)
      _ = s.take i :: (s.drop (i + 1)).splitOn c := by
        rw [splitOn_eq_singleton hnot, singleton_append]

theorem decoded_nil (separator : UInt8) (urlUnescape : Bool) :
    decoded [] separator urlUnescape = [] := rfl

/-- The pairs of a query are that of its first piece, if this is not empty, and those of the
rest. -/
theorem decoded_cut (s : Bytes) (c : UInt8) (urlUnescape : Bool) : decoded s c urlUnescape
      = (if (cut s c).1 = [] then [] else [namedValue urlUnescape (cut s c).1])
        ++ decoded (cut s c).2 c urlUnescape := by
  have hfirst : ∀ piece : Bytes, ([piece].filter (fun piece => piece ≠ [])).map
      (namedValue urlUnescape) = if piece = [] then [] else [namedValue urlUnescape piece] := by
    intro piece
    by_cases h : piece = []
    · simp [h]
    · simp [h]
  rcases splitOn_cut s c with h | ⟨h, hrest⟩
  · unfold decoded
    rw [h, ← singleton_append, filter_append, map_append, hfirst]
  · rw [hrest, decoded_nil, append_nil]
    unfold decoded
    rw [h, hfirst]

theorem queryLoop_eq (separator : UInt8) (urlUnescape : Bool) : ∀ (n : Nat) (query : Bytes)
    (m : AList (fun _ : Bytes => List Bytes)), query.length ≤ n →
    queryLoop separator urlUnescape n query m
      = (decoded query separator urlUnescape).foldl Maps.appendAt m := by
  intro n
  induction n with
  | zero =>
    intro query m hn
    rw [List.length_eq_zero_iff.mp (Nat.le_zero.mp hn)]
    rfl
  | succ n ih =>
    intro query m hn
    unfold queryLoop
    by_cases hq : query = []
    · rw [hq]
      rfl
    · have hlen := cut_length hq separator
      rw [if_neg hq, decoded_cut]
      dsimp only
      by_cases hkey : (cut query separator).1 = []
      · rw [if_pos hkey, if_pos hkey, ih _ _ (by omega)]
        rfl
      · rw [if_neg hkey, if_neg hkey, ih _ _ (by omega)]
        rfl

/-- **The map collects the pairs of the query.** -/
theorem doParseQuery_eq (query : Bytes) (separator : UInt8) (urlUnescape : Bool) :
    doParseQuery query separator urlUnescape
      = Maps.group (decoded query separator urlUnescape) :=
  queryLoop_eq separator urlUnescape _ query ∅ (le_refl _)

/-! ### Pairs that were written in some spelling -/

theorem unescapeLoop_cons {b : UInt8} (hplus : b ≠ 0x2B) (hpercent : b ≠ 0x25) (t : Bytes) :
    unescapeLoop (b :: t) = b :: unescapeLoop t := by
  rw [unescapeLoop.eq_def]
  dsimp only
  rw [if_neg hplus, if_neg hpercent]

theorem unescapeLoop_escape {h l hi lo : UInt8} (hh : hexDigitToByte h = some hi)
    (hl : hexDigitToByte l = some lo) (t : Bytes) :
    unescapeLoop (0x25 :: h :: l :: t) = (hi <<< 4 ||| lo) :: unescapeLoop t := by
  rw [unescapeLoop, if_neg (by decide), if_pos rfl, hh, hl]

theorem queryUnescape_eq : ∀ input : Bytes, queryUnescape input = unescapeLoop input := by
  have hascii : ∀ c ∈ bytesOf "%+", c.toNat < 0x80 := by decide +kernel
  have hmem : ∀ b : UInt8, b ∈ bytesOf "%+" ↔ b = 0x25 ∨ b = 0x2B := by
    intro b
    rw [show bytesOf "%+" = [0x25, 0x2B] by decide +kernel, mem_pair]
  intro input
  unfold queryUnescape
  rw [indexAny_ascii hascii]
  induction input with
  | nil => rfl
  | cons b t ih =>
    rw [List.findIdx?_cons]
    by_cases hb : b ∈ bytesOf "%+"
    · rw [if_pos (decide_eq_true hb)]
      rfl
    · rw [if_neg (by simpa using hb)]
      obtain ⟨hpercent, hplus⟩ := not_or.mp (mt (hmem b).mpr hb)
      rw [unescapeLoop_cons hplus hpercent, ← ih]
      cases t.findIdx? (fun b => b ∈ bytesOf "%+") with
      | none => rfl
      | some i => rfl

/-- A spelling of a text that leaves the reserved bytes out. -/
inductive Spells (reserved : List UInt8) : Bytes → Bytes → Prop where
  | nil : Spells reserved [] []
  | plain {b spelt text} : b ≠ 0x25 → b ≠ 0x2B → b ∉ reserved → Spells reserved spelt text →
      Spells reserved (b :: spelt) (b :: text)
  | blank {spelt text} : Spells reserved spelt text →
      Spells reserved (0x2B :: spelt) (0x20 :: text)
  | escape {h l hi lo spelt text} : hexDigitToByte h = some hi → hexDigitToByte l = some lo →
      Spells reserved spelt text →
      Spells reserved (0x25 :: h :: l :: spelt) ((hi <<< 4 ||| lo) :: text)

/-- A segment of a query: nothing, or a name and a value, where the value and its sign may be left
out if it is empty. -/
inductive Segment : Bytes → Option (Bytes × Bytes) → Prop where
  | empty : Segment [] none
  | pair {speltName name speltValue value} : Spells [0x26, 0x3D] speltName name →
      Spells [0x26] speltValue value →
      Segment (speltName ++ 0x3D :: speltValue) (some (name, value))
  | bare {speltName name} : speltName ≠ [] → Spells [0x26, 0x3D] speltName name →
      Segment speltName (some (name, []))

/-- **Unescaping undoes every spelling.** -/
theorem Spells.unescape {reserved : List UInt8} {spelt text : Bytes}
    (h : Spells reserved spelt text) : queryUnescape spelt = text := by
  rw [queryUnescape_eq]
  induction h with
  | nil => rfl
  | plain hpercent hplus _ _ ih => rw [unescapeLoop_cons hplus hpercent, ih]
  | blank _ ih =>
    rw [unescapeLoop.eq_def]
    dsimp only
    rw [if_pos rfl, ih]
  | escape hh hl _ ih => rw [unescapeLoop_escape hh hl, ih]

theorem hexDigitToByte_range : ∀ d : UInt8, (hexDigitToByte d).isSome = true →
    d ≠ 0x26 ∧ d ≠ 0x3D :=
  UInt8.forall_of_fin (by decide +kernel)

/-- Only the reserved bytes matter below, which are neither signs of the spelling nor digits. -/
theorem Spells.not_mem {reserved : List UInt8} {spelt text : Bytes}
    (h : Spells reserved spelt text) {c : UInt8} (hc : c ∈ reserved) (hsign : c = 0x26 ∨ c = 0x3D) :
    c ∉ spelt := by
  have hdigit : ∀ {d v : UInt8}, hexDigitToByte d = some v → c ≠ d := by
    intro d v hd
    obtain ⟨hamp, heq⟩ := hexDigitToByte_range d (by rw [hd]; rfl)
    rcases hsign with rfl | rfl
    · exact hamp.symm
    · exact heq.symm
  have hne : c ≠ 0x25 ∧ c ≠ 0x2B := by
    rcases hsign with rfl | rfl <;> decide
  induction h with
  | nil => exact not_mem_nil
  | plain _ _ hb _ ih =>
    exact not_mem_cons_of_ne_of_not_mem (fun heq => hb (heq ▸ hc)) ih
  | blank _ ih => exact not_mem_cons_of_ne_of_not_mem hne.2 ih
  | escape hh hl _ ih =>
    exact not_mem_cons_of_ne_of_not_mem hne.1 (not_mem_cons_of_ne_of_not_mem (hdigit hh)
        (not_mem_cons_of_ne_of_not_mem (hdigit hl) ih))

theorem cut_append {key : Bytes} {c : UInt8} (h : c ∉ key) (rest : Bytes) :
    cut (key ++ c :: rest) c = (key, rest) := by
  unfold cut
  rw [indexByte_append h]
  simp

theorem cut_self {key : Bytes} {c : UInt8} (h : c ∉ key) : cut key c = (key, []) := by
  unfold cut
  cases hi : indexByte key c with
  | none => rfl
  | some i => exact absurd (indexByte_isSome.mp (by rw [hi]; rfl)) h

theorem Segment.read {raw : Bytes} {pair : Option (Bytes × Bytes)} (h : Segment raw pair) :
    0x26 ∉ raw ∧
      (([raw].filter (fun piece => piece ≠ [])).map (namedValue true)) = pair.toList := by
  cases h with
  | empty => exact ⟨not_mem_nil, rfl⟩
  | pair hname hvalue =>
    have hkey := hname.not_mem (c := 0x3D) (by decide) (.inr rfl)
    refine ⟨?_, ?_⟩
    · rw [mem_append, mem_cons, not_or, not_or]
      exact ⟨hname.not_mem (by decide) (.inl rfl), by decide, hvalue.not_mem (by decide) (.inl rfl)⟩
    · rw [filter_cons_of_pos (by simp), filter_nil, map_singleton, namedValue,
        cut_append hkey]
      dsimp only
      rw [hname.unescape, hvalue.unescape]
      rfl
  | bare hne hname =>
    have hkey := hname.not_mem (c := 0x3D) (by decide) (.inr rfl)
    refine ⟨hname.not_mem (by decide) (.inl rfl), ?_⟩
    rw [filter_cons_of_pos (by simpa using hne), filter_nil, map_singleton,
      namedValue, cut_self hkey]
    dsimp only
    rw [hname.unescape]
    rfl

theorem decoded_segments {raw : List Bytes} {pairs : List (Option (Bytes × Bytes))}
    (h : List.Forall₂ Segment raw pairs) :
    decoded ([0x26].intercalate raw) 0x26 true = pairs.reduceOption := by
  have hread : (raw.filter (fun piece => piece ≠ [])).map (namedValue true)
      = pairs.reduceOption := by
    induction h with
    | nil => rfl
    | @cons raw pair raws pairs hsegment _ ih =>
      rw [← singleton_append, filter_append, map_append, hsegment.read.2, ih]
      cases pair <;> rfl
  by_cases hraw : raw = []
  · subst hraw
    cases h
    rfl
  · have hamp : ∀ l ∈ raw, (0x26 : UInt8) ∉ l := by
      intro l hl
      obtain ⟨k, hk, rfl⟩ := List.mem_iff_getElem.mp hl
      exact (h.get hk (h.length_eq ▸ hk)).read.1
    unfold decoded
    rw [splitOn_intercalate _ hamp hraw, hread]

/-- **Query parsing is complete and keeps the order.**  However the pairs are spelt and however
many empty segments stand among them, a name is in the map exactly if it is the name of a pair,
and it has the values of these pairs in their order. -/
theorem parseQuery_spelt {raw : List Bytes} {pairs : List (Option (Bytes × Bytes))}
    (h : List.Forall₂ Segment raw pairs) (name : Bytes) :
    (parseQuery ([0x26].intercalate raw) 0x26).lookup name
      = if name ∈ pairs.reduceOption.map Prod.fst then
          some (Maps.valuesOf pairs.reduceOption name)
        else none := by
  have hnone : Maps.valuesOf pairs.reduceOption name = [] ↔
      name ∉ pairs.reduceOption.map Prod.fst := by
    unfold Maps.valuesOf
    rw [map_eq_nil_iff, filter_eq_nil_iff, mem_map]
    constructor
    · rintro hfilter ⟨e, he, heq⟩
      exact hfilter e he (by simpa using heq)
    · intro hname e he heq
      exact hname ⟨e, he, by simpa using heq⟩
  unfold parseQuery
  rw [doParseQuery_eq, decoded_segments h, Maps.lookup_group]
  by_cases hname : name ∈ pairs.reduceOption.map Prod.fst
  · rw [if_neg (fun heq => hnone.mp heq hname), if_pos hname]
  · rw [if_pos (hnone.mpr hname), if_neg hname]

/-- `a=%31&&a=+` has the values `1` and a blank for `a`. -/
theorem parseQuery_spelt_twice :
    (parseQuery (bytesOf "a=%31&&a=+") 0x26).lookup (bytesOf "a") = some [[0x31], [0x20]] := by
  have ha : Spells [0x26, 0x3D] [0x61] [0x61] :=
    .plain (by decide) (by decide) (by decide) .nil
  have hsegments : List.Forall₂ Segment [[0x61, 0x3D, 0x25, 0x33, 0x31], [], [0x61, 0x3D, 0x2B]]
      [some ([0x61], [0x31]), none, some ([0x61], [0x20])] :=
    .cons (.pair ha (@Spells.escape _ _ _ 3 1 _ _ (by decide) (by decide) .nil))
      (.cons .empty (.cons (.pair ha (.blank .nil)) .nil))
  have h := parseQuery_spelt hsegments [0x61]
  rw [show bytesOf "a" = [0x61] by decide +kernel, show bytesOf "a=%31&&a=+" = [0x26].intercalate
      [[0x61, 0x3D, 0x25, 0x33, 0x31], [], [0x61, 0x3D, 0x2B]] by decide +kernel, h]
  decide

end Coraza.Url
