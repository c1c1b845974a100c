import Coraza.Transformations.Case
import Coraza.Transformations.Comments
import Coraza.Transformations.Encodings
import Coraza.Transformations.Escapes
import Coraza.Transformations.Paths
import Coraza.Waf.Transformations

/-!
# The registered transformations and their flags

`Builtin` has the names under which transformations are registered, and `Builtin.function` the
functions behind them.  Each returns a text, a flag that says whether the text was changed, and
possibly an error.  The flag can be wrong in two ways.

`Builtin.Keeps` has the texts that a transformation leaves alone if it reports no change; only
`removeWhitespace` and `htmlEntityDecode` have others.  `Builtin.Alters` has the texts that a
transformation alters if it reports a change; those that report every text, and `urlDecode`, have
others.  `Builtin.flagSpec` says that these are exactly the texts with a right flag.
-/

namespace Coraza.Transformations

open Go Rewriting Waf

/-- What the transformations take from other packages: the digests, and `html.UnescapeString`. -/
structure Library extends Digests where
  unescapeString : Bytes → Bytes

def noneT (data : Bytes) : Bytes × Bool := (data, false)

def htmlEntityDecode (lib : Library) (data : Bytes) : Bytes × Bool :=
  if (Strings.indexByte data 0x26).isNone then (data, false)
  else (lib.unescapeString data, data.length ≠ (lib.unescapeString data).length)

inductive Builtin where
  | base64Decode
  | base64DecodeExt
  | base64Encode
  | cmdLine
  | compressWhitespace
  | cssDecode
  | escapeSeqDecode
  | hexDecode
  | hexEncode
  | htmlEntityDecode
  | jsDecode
  | length
  | lowercase
  | md5
  | none
  | normalisePath
  | normalisePathWin
  | normalizePath
  | normalizePathWin
  | removeComments
  | removeCommentsChar
  | removeNulls
  | removeWhitespace
  | replaceComments
  | replaceNulls
  | sha1
  | uppercase
  | urlDecode
  | urlDecodeUni
  | urlEncode
  | utf8toUnicode
  | trim
  | trimLeft
  | trimRight
  deriving DecidableEq

def total (f : Bytes → Bytes × Bool) : Transformation TransformationError :=
  fun data => ((f data).1, (f data).2, Option.none)

namespace Builtin

def function (lib : Library) : Builtin → Transformation TransformationError
  | .base64Decode => total base64decode
  | .base64DecodeExt => total base64decodeext
  | .base64Encode => total base64encode
  | .cmdLine => total Transformations.cmdLine
  | .compressWhitespace => total Transformations.compressWhitespace
  | .cssDecode => total Transformations.cssDecode
  | .escapeSeqDecode => total Transformations.escapeSeqDecode
  | .hexDecode => Transformations.hexDecode
  | .hexEncode => total Transformations.hexEncode
  | .htmlEntityDecode => total (Transformations.htmlEntityDecode lib)
  | .jsDecode => total Transformations.jsDecode
  | .length => total Transformations.length
  | .lowercase => total lowerCase
  | .md5 => md5T lib.toDigests
  | .none => total noneT
  | .normalisePath => total Transformations.normalisePath
  | .normalisePathWin => total Transformations.normalisePathWin
  | .normalizePath => total Transformations.normalisePath
  | .normalizePathWin => total Transformations.normalisePathWin
  | .removeComments => total Transformations.removeComments
  | .removeCommentsChar => total Transformations.removeCommentsChar
  | .removeNulls => total Transformations.removeNulls
  | .removeWhitespace => total Transformations.removeWhitespace
  | .replaceComments => total Transformations.replaceComments
  | .replaceNulls => total Transformations.replaceNulls
  | .sha1 => sha1T lib.toDigests
  | .uppercase => total upperCase
  | .urlDecode => total Transformations.urlDecode
  | .urlDecodeUni => total Transformations.urlDecodeUni
  | .urlEncode => total Transformations.urlEncode
  | .utf8toUnicode => total utf8ToUnicode
  | .trim => total Transformations.trim
  | .trimLeft => total Transformations.trimLeft
  | .trimRight => total Transformations.trimRight

/-- The texts that a transformation leaves alone if it reports no change. -/
def Keeps (lib : Library) : Builtin → Bytes → Prop
  | .removeWhitespace, data => validString data = true ∨ ∃ r ∈ decodeRunes data, isSpace r = true
  | .htmlEntityDecode, data => 0x26 ∉ data ∨ lib.unescapeString data = data ∨
      (lib.unescapeString data).length ≠ data.length
  | _, _ => True

/-- The texts that a transformation alters if it reports a change. -/
def Alters (lib : Library) : Builtin → Bytes → Prop
  | .base64Decode, data => data ≠ []
  | .base64DecodeExt, data => data ≠ []
  | .base64Encode, data => data ≠ []
  | .hexDecode, data => data ≠ []
  | .hexEncode, data => data ≠ []
  | .length, data => data ≠ bytesOf "1"
  | .md5, data => lib.fips140Enabled = true ∨ data = [] ∨ lib.md5Sum data ≠ data
  | .sha1, data => lib.fips140Enabled = true ∨ data = [] ∨ lib.sha1Sum data ≠ data
  | .urlDecode, data => (∀ b ∈ data, b ≠ 0x25 ∧ b ≠ 0x2B) ∨ hasUrlEscape data = true
  | _, _ => True

end Builtin

/-! ### The flag of a transformation -/

/-- A text that a transformation reports as unchanged is unchanged. -/
def KeptUnreported (f : Transformation TransformationError) (data : Bytes) : Prop :=
  (f data).2.2 = none → (f data).2.1 = false → (f data).1 = data

/-- A text that a transformation reports as changed is changed. -/
def AlteredReported (f : Transformation TransformationError) (data : Bytes) : Prop :=
  (f data).2.2 = none → (f data).2.1 = true → (f data).1 ≠ data

/-- Where the two are true: on the texts in `keeps`, and on those in `alters`. -/
structure FlagSpec (f : Transformation TransformationError) (keeps alters : Bytes → Prop) :
    Prop where
  keeps_iff : ∀ data, KeptUnreported f data ↔ keeps data
  alters_iff : ∀ data, AlteredReported f data ↔ alters data

namespace FlagSpec

theorem right {f : Bytes → Bytes × Bool} (h : ∀ data, (f data).2 = true ↔ (f data).1 ≠ data) :
    FlagSpec (total f) (fun _ => True) (fun _ => True) := by
  refine ⟨fun data => iff_true_intro (fun _ hflag => ?_),
    fun data => iff_true_intro (fun _ hflag => (h data).mp hflag)⟩
  by_contra hne
  exact Bool.false_ne_true (hflag.symm.trans ((h data).mpr hne))

/-- A flag that is right since nothing becomes longer. -/
theorem tracks {f : Bytes → Bytes × Bool} (h : ∀ data, Tracks data (f data).1 (f data).2) :
    FlagSpec (total f) (fun _ => True) (fun _ => True) :=
  right (fun data => (h data).changed_iff)

theorem always {f : Bytes → Bytes} {fixed : Bytes → Prop} (h : ∀ data, f data = data ↔ fixed data) :
    FlagSpec (total (fun data => (f data, true))) (fun _ => True) (fun data => ¬fixed data) := by
  refine ⟨fun data => iff_true_intro (fun _ hflag => nomatch hflag), fun data => ?_⟩
  exact ⟨fun haltered => mt (h data).mpr (haltered rfl rfl), fun hne _ _ => mt (h data).mp hne⟩

end FlagSpec

/-! ### The flags of the registered transformations -/

theorem flagSpec_hexDecode : FlagSpec hexDecode (fun _ => True) (fun data => data ≠ []) := by
  refine ⟨fun data => iff_true_intro ?_, fun data => ?_⟩
  · unfold KeptUnreported hexDecode
    split
    · exact fun _ hflag => nomatch hflag
    · exact fun herr => nomatch herr
  · unfold AlteredReported hexDecode
    split
    · rename_i dst hdst
      have hfixed := not_congr (hexDecode_eq_iff hdst)
      exact ⟨fun haltered => hfixed.mp (haltered rfl rfl), fun hne _ _ => hfixed.mpr hne⟩
    · rename_i err herr
      -- the empty text is decoded
      refine ⟨fun _ => ?_, fun _ herr => nomatch herr⟩
      rintro rfl
      cases herr

theorem flagSpec_digest {message : String} {empty : Bytes} (hempty : empty ≠ []) (fips : Bool)
    (sum : Bytes → Bytes) : FlagSpec (digest fips message empty sum) (fun _ => True)
      (fun data => fips = true ∨ data = [] ∨ sum data ≠ data) := by
  refine ⟨fun data => iff_true_intro ?_, fun data => ?_⟩
  · unfold KeptUnreported digest
    split_ifs
    · exact fun herr => nomatch herr
    · exact fun _ hflag => nomatch hflag
    · exact fun _ hflag => nomatch hflag
  · unfold AlteredReported digest
    split_ifs with hfips hdata
    · exact iff_of_true (fun herr => nomatch herr) (.inl hfips)
    · subst hdata
      exact iff_of_true (fun _ _ => hempty) (.inr (.inl rfl))
    · constructor
      · exact fun haltered => .inr (.inr (haltered rfl rfl))
      · rintro (h | h | h)
        · exact absurd h hfips
        · exact absurd h hdata
        · exact fun _ _ => h

theorem flagSpec_htmlEntityDecode (lib : Library) : FlagSpec (total (htmlEntityDecode lib))
    (fun data => 0x26 ∉ data ∨ lib.unescapeString data = data ∨
      (lib.unescapeString data).length ≠ data.length) (fun _ => True) := by
  have hnone : ∀ data : Bytes, (Strings.indexByte data 0x26).isNone = true ↔ 0x26 ∉ data := by
    intro data
    unfold Strings.indexByte
    rw [Option.isNone_iff_eq_none, List.findIdx?_eq_none_iff]
    simp only [beq_eq_false_iff_ne]
    exact ⟨fun h hmem => h 0x26 hmem rfl, fun h b hb heq => h (heq ▸ hb)⟩
  refine ⟨fun data => ?_, fun data => iff_true_intro ?_⟩
  · unfold KeptUnreported total htmlEntityDecode
    split_ifs with hentity
    · exact iff_of_true (fun _ _ => rfl) (.inl ((hnone data).mp hentity))
    · constructor
      · intro hkept
        by_cases hlength : (lib.unescapeString data).length = data.length
        · exact .inr (.inl (hkept rfl (decide_eq_false (not_not_intro hlength.symm))))
        · exact .inr (.inr hlength)
      · rintro (h | h | h) _ hflag
        · exact absurd ((hnone data).mpr h) hentity
        · exact h
        · exact absurd (not_not.mp (of_decide_eq_false hflag)).symm h
  · unfold AlteredReported total htmlEntityDecode
    split_ifs
    · exact fun _ hflag => nomatch hflag
    · exact fun _ hflag heq => of_decide_eq_true hflag (congrArg List.length heq).symm

theorem flagSpec_removeWhitespace : FlagSpec (total removeWhitespace)
    (fun data => validString data = true ∨ ∃ r ∈ decodeRunes data, isSpace r = true)
    (fun _ => True) := by
  refine ⟨fun data => ?_, fun data => iff_true_intro (fun _ hflag => removeWhitespace_ne hflag)⟩
  rw [← removeWhitespace_changed]
  constructor
  · intro hkept
    by_cases hflag : (removeWhitespace data).2 = true
    · exact .inr hflag
    · have hunset := Bool.eq_false_iff.mpr hflag
      exact .inl ((removeWhitespace_eq_iff hunset).mp (hkept rfl hunset))
  · rintro (hvalid | hflag) _ hunset
    · exact (removeWhitespace_eq_iff hunset).mpr hvalid
    · exact absurd (hunset.symm.trans hflag) Bool.false_ne_true

theorem flagSpec_urlDecode : FlagSpec (total urlDecode) (fun _ => True)
    (fun data => (∀ b ∈ data, b ≠ 0x25 ∧ b ≠ 0x2B) ∨ hasUrlEscape data = true) := by
  have hunset : ∀ data : Bytes, (urlDecode data).2 = false ↔ ∀ b ∈ data, b ≠ 0x25 ∧ b ≠ 0x2B := by
    intro data
    rw [urlDecode_changed, List.any_eq_false]
    simp only [Bool.or_eq_true, beq_iff_eq, not_or]
  refine ⟨fun data => iff_true_intro (fun _ hflag => ?_), fun data => ?_⟩
  · exact (fromFirst_always _ _ data).2 hflag
  · constructor
    · intro haltered
      cases hflag : (urlDecode data).2 with
      | false => exact .inl ((hunset data).mp hflag)
      | true => exact .inr ((urlDecode_ne_iff data).mp (haltered rfl hflag))
    · rintro (h | h) _ hflag
      · exact absurd (((hunset data).mpr h).symm.trans hflag) Bool.false_ne_true
      · exact (urlDecode_ne_iff data).mpr h

/-- **The flags of all registered transformations.** -/
theorem Builtin.flagSpec (lib : Library) (t : Builtin) :
    FlagSpec (t.function lib) (t.Keeps lib) (t.Alters lib) := by
  cases t with
  | base64Decode => exact .always (fun data => doBase64decode_eq_iff data false)
  | base64DecodeExt => exact .always (fun data => doBase64decode_eq_iff data true)
  | base64Encode => exact .always base64encode_eq_iff
  | cmdLine => exact .tracks cmdLine_tracks
  | compressWhitespace => exact .tracks compressWhitespace_tracks
  | cssDecode => exact .right cssDecode_changed_iff
  | escapeSeqDecode => exact .tracks escapeSeqDecode_tracks
  | hexDecode => exact flagSpec_hexDecode
  | hexEncode => exact .always hexEncode_eq_iff
  | htmlEntityDecode => exact flagSpec_htmlEntityDecode lib
  | jsDecode => exact .tracks jsDecode_tracks
  | length => exact .always length_eq_iff
  | lowercase => exact .right (fun data => lowerCase_eq data ▸ compared_changed_iff _ data)
  | md5 => exact flagSpec_digest (by decide) _ _
  | none => exact .right (fun _ => ⟨nofun, fun hne => absurd rfl hne⟩)
  | normalisePath => exact .right normalisePath_changed_iff
  | normalisePathWin => exact .right normalisePathWin_changed_iff
  | normalizePath => exact .right normalisePath_changed_iff
  | normalizePathWin => exact .right normalisePathWin_changed_iff
  | removeComments => exact .tracks removeComments_tracks
  | removeCommentsChar => exact .tracks removeCommentsChar_tracks
  | removeNulls => exact .right removeNulls_changed_iff
  | removeWhitespace => exact flagSpec_removeWhitespace
  | replaceComments => exact .tracks replaceComments_tracks
  | replaceNulls => exact .right (compared_changed_iff _)
  | sha1 => exact flagSpec_digest (by decide) _ _
  | uppercase => exact .right (compared_changed_iff _)
  | urlDecode => exact flagSpec_urlDecode
  | urlDecodeUni => exact .tracks urlDecodeUni_tracks
  | urlEncode => exact .right (fun data => (urlEncode_tracks data).changed_iff.trans ne_comm)
  | utf8toUnicode => exact .right utf8ToUnicode_changed_iff
  | trim => exact .right trim_changed_iff
  | trimLeft => exact .right trimLeft_changed_iff
  | trimRight => exact .right trimRight_changed_iff

end Coraza.Transformations
