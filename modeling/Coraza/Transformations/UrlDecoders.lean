import Coraza.Transformations.Percent
import Coraza.Url

/-!
# The percent decoders compared

Three loops decode percent escapes: `doURLDecode` for `t:urlDecode`, `inplaceUniDecode` for
`t:urlDecodeUni`, and `queryUnescape` for the arguments of a request.  `url_decoders_agree` says
that the first and the last are one function, that the second is the same function on a text
without `%u`, and that decoding undoes `t:urlEncode`.

The decoders of the transformations read a digit in two ways; `hexNibble_eq` brings them together.
-/

namespace Coraza.Transformations

open Go Rewriting

/-! ### Digits -/

theorem hexNibble_eq : ∀ d : UInt8, hexNibble d = if validHex d then some (xsingle2c d) else none :=
  UInt8.forall_of_fin (by decide +kernel)

theorem nibbles_eq {hi lo : UInt8} (hhi : hi.toNat < 16) (hlo : lo.toNat < 16) :
    hi <<< 4 ||| lo = hi * 16 + lo := by
  have hall : ∀ m n : Fin 16, UInt8.ofNat m <<< 4 ||| UInt8.ofNat n
      = UInt8.ofNat m * 16 + UInt8.ofNat n := by decide
  have h := hall ⟨hi.toNat, hhi⟩ ⟨lo.toNat, hlo⟩
  rwa [UInt8.ofNat_toNat, UInt8.ofNat_toNat] at h

theorem nibbles_cases (c1 c2 : UInt8) :
    ((validHex c1 && validHex c2) = true ∧ ∃ hi lo, hexNibble c1 = some hi ∧
        hexNibble c2 = some lo ∧ hi <<< 4 ||| lo = x2c c1 c2) ∨
      ((validHex c1 && validHex c2) = false ∧ (hexNibble c1 = none ∨ hexNibble c2 = none)) := by
  rw [hexNibble_eq, hexNibble_eq]
  cases h1 : validHex c1 with
  | false => exact .inr ⟨rfl, .inl rfl⟩
  | true =>
    cases h2 : validHex c2 with
    | false => exact .inr ⟨rfl, .inr rfl⟩
    | true =>
      exact .inl ⟨rfl, _, _, rfl, rfl, nibbles_eq (xsingle2c_lt c1 h1) (xsingle2c_lt c2 h2)⟩

/-! ### The steps -/

theorem urlDecodeStep_plus (t : Bytes) : urlDecodeStep () 0x2B t = replace [0x20] 0 := rfl

theorem urlDecodeStep_copy {b : UInt8} (hpercent : b ≠ 0x25) (hplus : b ≠ 0x2B) (t : Bytes) :
    urlDecodeStep () b t = copy b := by
  unfold urlDecodeStep
  rw [if_neg hpercent, if_neg hplus]

theorem urlDecodeStep_percent (c1 c2 : UInt8) (t : Bytes) : urlDecodeStep () 0x25 (c1 :: c2 :: t)
      = if validHex c1 && validHex c2 then replace [x2c c1 c2] 2 else copy 0x25 := rfl

/-- A text without `%u` and `%U`. -/
def NoUnicode (s : Bytes) : Prop := ¬[0x25, 0x75] <:+: s ∧ ¬[0x25, 0x55] <:+: s

theorem NoUnicode.suffix {s t : Bytes} (h : t <:+ s) (hs : NoUnicode s) : NoUnicode t :=
  ⟨fun hin => hs.1 (hin.trans h.isInfix), fun hin => hs.2 (hin.trans h.isInfix)⟩

theorem NoUnicode.second {u : UInt8} {t : Bytes} (h : NoUnicode (0x25 :: u :: t)) :
    ¬(u = 0x75 ∨ u = 0x55) := by
  have hpair : [0x25, u] <:+: 0x25 :: u :: t := ⟨[], t, rfl⟩
  rintro (rfl | rfl)
  · exact h.1 hpair
  · exact h.2 hpair

/-- Without `%u` the two transformations take the same steps. -/
theorem uniDecodeStep_eq {b : UInt8} {t : Bytes} (h : NoUnicode (b :: t)) :
    uniDecodeStep () b t = urlDecodeStep () b t := by
  by_cases hplus : b = 0x2B
  · subst hplus
    rfl
  by_cases hpercent : b = 0x25
  · subst hpercent
    match t with
    | [] => rfl
    | [u] =>
      unfold uniDecodeStep
      rw [if_neg (by decide), if_pos rfl]
      dsimp only
      rw [if_neg h.second]
      rfl
    | u :: c2 :: t =>
      unfold uniDecodeStep
      rw [if_neg (by decide), if_pos rfl, urlDecodeStep_percent]
      dsimp only
      rw [if_neg h.second]
      rcases nibbles_cases u c2 with ⟨hvalid, hi, lo, hu, hc, heq⟩ | ⟨hvalid, hnone⟩
      · rw [hu, hc, if_pos hvalid]
        dsimp only
        rw [heq]
      · rw [if_neg (by rw [hvalid]; exact Bool.false_ne_true)]
        rcases hnone with hnone | hnone
        · rw [hnone]
        · rw [hnone]
          cases hexNibble u <;> rfl
  · rw [urlDecodeStep_copy hpercent hplus]
    unfold uniDecodeStep
    rw [if_neg hplus, if_neg hpercent]

theorem unescapeLoop_eq_run : ∀ t : Bytes,
    Url.unescapeLoop t = (run urlDecodeStep (fun _ => []) () t).1 := by
  intro t
  fun_induction Url.unescapeLoop t with
  | case1 => rfl
  | case2 rest ih => rw [run_cons, urlDecodeStep_plus, ih]; rfl
  | case3 h l after hi lo hl hh _ ih =>
    rcases nibbles_cases h l with ⟨hvalid, hi', lo', hh', hl', heq⟩ | ⟨_, hnone⟩
    · rw [run_cons, urlDecodeStep_percent, if_pos hvalid, ih]
      cases hh.symm.trans hh'
      cases hl.symm.trans hl'
      rw [heq]
      rfl
    · rcases hnone with hnone | hnone
      · cases hh.symm.trans hnone
      · cases hl.symm.trans hnone
  | case4 h l after hnot _ ih =>
    rcases nibbles_cases h l with ⟨_, hi', lo', hh', hl', _⟩ | ⟨hvalid, _⟩
    · exact (hnot hi' lo' hh' hl').elim
    · rw [run_cons, urlDecodeStep_percent, hvalid, ih]
      rfl
  | case5 rest hshort _ ih =>
    rw [run_cons, ih]
    match rest with
    | [] => rfl
    | [u] => rfl
    | h :: l :: after => exact (hshort h l after rfl).elim
  | case6 ci rest hplus hpercent ih => rw [run_cons, urlDecodeStep_copy hpercent hplus, ih]; rfl

/-! ### Encoding -/

def urlCode (cc : UInt8) : Bytes :=
  if cc = 0x20 then [0x2B] else if urlKept cc then [cc] else 0x25 :: c2x cc

theorem urlEncode_eq_flatMap (data : Bytes) : (urlEncode data).1 = data.flatMap urlCode := by
  induction data with
  | nil => rfl
  | cons cc data ih =>
    have hpiece : (urlEncodeStep () cc data).written = urlCode cc ∧
        (urlEncodeStep () cc data).further = 0 := by
      unfold urlEncodeStep urlCode
      split_ifs <;> exact ⟨rfl, rfl⟩
    unfold urlEncode at ih ⊢
    rw [run_cons, hpiece.1, hpiece.2, List.drop_zero, ih, List.flatMap_cons]

theorem urlKept_plain : ∀ cc : UInt8, urlKept cc = true → cc ≠ 0x25 ∧ cc ≠ 0x2B :=
  UInt8.forall_of_fin (by decide +kernel)

theorem c2x_digits : ∀ cc : UInt8, ∃ c1 c2, c2x cc = [c1, c2] ∧
    (validHex c1 && validHex c2) = true ∧ x2c c1 c2 = cc := by
  have hdigits : ∀ cc : UInt8, ((c2x cc).all validHex) = true ∧
      x2c ((c2x cc).getD 0 0) ((c2x cc).getD 1 0) = cc := UInt8.forall_of_fin (by decide +kernel)
  intro cc
  obtain ⟨hvalid, hback⟩ := hdigits cc
  exact ⟨_, _, rfl, by simpa [c2x] using hvalid, hback⟩

theorem urlCode_read (cc : UInt8) (rest : Bytes) :
    (run urlDecodeStep (fun _ => []) () (urlCode cc ++ rest)).1
      = [cc] ++ (run urlDecodeStep (fun _ => []) () rest).1 := by
  unfold urlCode
  split_ifs with hblank hkept
  · subst hblank
    rw [List.singleton_append, run_cons, urlDecodeStep_plus]
    rfl
  · obtain ⟨hpercent, hplus⟩ := urlKept_plain cc hkept
    rw [List.singleton_append, run_cons, urlDecodeStep_copy hpercent hplus]
    rfl
  · obtain ⟨c1, c2, hcode, hvalid, hback⟩ := c2x_digits cc
    rw [hcode, List.cons_append, List.cons_append, List.cons_append, run_cons,
      urlDecodeStep_percent, if_pos hvalid, hback]
    rfl

/-! ### The three decoders -/

/-- **The percent decoders agree and undo the encoder.**  `t:urlDecode` is the unescaping of query
strings, `t:urlDecodeUni` is the same on a text without `%u` and `%U`, and `t:urlDecode` after
`t:urlEncode` gives the text back. -/
theorem url_decoders_agree (s : Bytes) : (urlDecode s).1 = Url.queryUnescape s ∧
      (¬[0x25, 0x75] <:+: s → ¬[0x25, 0x55] <:+: s → (urlDecodeUni s).1 = (urlDecode s).1) ∧
      (urlDecode (urlEncode s).1).1 = s := by
  refine ⟨?_, fun hlower hupper => ?_, ?_⟩
  · rw [urlDecode_eq_run, Url.queryUnescape_eq, unescapeLoop_eq_run]
  · have hsame : run uniDecodeStep (fun _ => []) () s = run urlDecodeStep (fun _ => []) () s :=
      run_congr (fun _ _ => NoUnicode.suffix) (fun _ _ _ => uniDecodeStep_eq) s ()
        ⟨hlower, hupper⟩
    rw [urlDecodeUni_eq_run, urlDecode_eq_run, hsame]
  · have hcodes : (run urlDecodeStep (fun _ => []) () (s.flatMap urlCode)).1
        = s.flatMap (fun cc => [cc]) ++ [] := run_flatMap s (fun cc _ => urlCode_read cc)
    rw [urlDecode_eq_run, urlEncode_eq_flatMap, hcodes, List.append_nil, List.flatMap_singleton']

/-- The text `%41+%` has no `%u`, and is decoded to `A %`. -/
theorem url_decoders_agree_mixed : (urlDecodeUni [0x25, 0x34, 0x31, 0x2B, 0x25]).1
      = (urlDecode [0x25, 0x34, 0x31, 0x2B, 0x25]).1 :=
  (url_decoders_agree [0x25, 0x34, 0x31, 0x2B, 0x25]).2.1 (by decide) (by decide)

end Coraza.Transformations
