import Coraza.Waf.Exclusions
import Coraza.Waf.RuleEvaluation

/-!
# Keys that are expressions

The key of a target may be an expression `/rx/`: in a selection `VAR:/rx/`, in an exclusion
`!VAR:/rx/` and in `ctl:ruleRemoveTargetById=…;VAR:/rx/`.  The collections of the default build do
not tell upper from lower case, so that `rx` should be matched without regard to case, as
`(?i)rx` is.  Instead, the keys of the entries are lowered, and for most variables the text of the
expression is lowered too.

`regexKey_iff` says for which expressions each of the three applies to the entries that `(?i)rx`
matches.
-/

namespace Coraza.Waf

open Go Collections List

/-- The places where an expression may stand for a key. -/
inductive KeyUse where
  | selection | exclusion | ctl

/-- A key `/rx/` with a valid expression. -/
structure KeyRegex (compile : Compile) where
  text : Bytes
  rx : Bytes
  hasRegex_text : hasRegex text = some rx
  /-- `MatchString` of `(?i)rx`. -/
  insensitive : Bytes → Bool
  compile_insensitive : compile (bytesOf "(?i)" ++ rx) = some insensitive

variable {compile : Compile}

/-- What `RemoveRuleTargetByID` makes a rule loop remember. -/
def ctlTarget (v : RuleVariable) (key : Bytes × Option (Bytes → Bool)) : RuleVariableParams :=
  ⟨false, v, key.2, key.1, []⟩

/-- The entries to which a key applies, of those that the target `VAR` gives: an entry is
selected, or it is no longer there. -/
def AppliesTo (key : KeyRegex compile) (vars : Variables) (v : RuleVariable)
    (applies : Iteration → Match → Prop) : Prop :=
  ∀ (it : Iteration), ∀ m ∈ lookup it vars [newRuleVariableParams v [] none false],
    applies it m ↔ key.insensitive m.key = true

/-- A key is accepted and applies to the entries whose key `(?i)rx` matches.  The documentation of
`ctl` excludes the empty expression. -/
def KeyMeans (vars : Variables) (v : RuleVariable) (key : KeyRegex compile) : KeyUse → Prop
  | .selection => ∃ targets, parseTargets compile [⟨false, false, v, key.text⟩] = some targets ∧
      AppliesTo key vars v (fun it m => m ∈ lookup it vars targets)
  | .exclusion => ∃ targets,
      parseTargets compile [⟨false, false, v, []⟩, ⟨true, false, v, key.text⟩] = some targets ∧
      AppliesTo key vars v (fun it m => m ∉ lookup it vars targets)
  | .ctl => key.rx = [] ∨ ∃ k, parseCtlKey compile key.text = some k ∧
      AppliesTo key vars v (fun it m =>
        m ∉ lookup it vars [Rule.exceptTarget [ctlTarget v k]
          (newRuleVariableParams v [] none false)])

def KeyUse.pattern (v : RuleVariable) (rx : Bytes) : KeyUse → Bytes
  | .ctl => rx
  | _ => keyPattern v rx

/-- The one lowered key to which an exclusion applies without asking the expression. -/
def KeyUse.exempt (text : Bytes) : KeyUse → Option Bytes
  | .selection => none
  | .exclusion => some (Strings.toLower text)
  | .ctl => some []

/-- The expressions that mean what was written: `(?i)rx` does not tell a key from its lower case,
and what was compiled agrees with it on lowered keys. -/
structure SoundKey (v : RuleVariable) (key : KeyRegex compile) (use : KeyUse) : Prop where
  stable : ∀ k, key.insensitive (Strings.toLower k) = key.insensitive k
  agrees : ∃ re, compile (use.pattern v key.rx) = some re ∧ ∀ k, Strings.toLower k = k →
    if use.exempt key.text = some k then key.insensitive k = true else re k = key.insensitive k

/-! ### Tests on the key of an entry -/

/-- The test that a use of an expression makes. -/
def KeyUse.test (use : KeyUse) (text : Bytes) (re : Bytes → Bool) (key : Bytes) : Bool :=
  re (Strings.toLower key) || use.exempt text = some (Strings.toLower key)

variable {v : RuleVariable} {kv : KeyValue} (it : Iteration)

theorem tag_mem_lookup (vars : LoweredVariables) (hv : canBeSelected v = true)
    {rv : RuleVariableParams} (hrv : rv.ruleVariable = v) (hcount : rv.count = false)
    (hkv : kv ∈ entriesOf vars.toVariables v) :
    tag v.shown kv ∈ lookup it vars.toVariables [rv] ↔
      isRuleVariableException kv.key false rv.exceptions = false ∧
        rv.selector.picks (showsNames v) kv = true := by
  rw [lookup, flatMap_singleton, (getFieldMatches_perm it vars hv hrv hcount).mem_iff,
    mem_map_of_injective (tag_injective _), mem_filter]
  simp [hkv]

theorem mem_lookup_all (vars : LoweredVariables) (hv : canBeSelected v = true) {m : Match} :
    m ∈ lookup it vars.toVariables [newRuleVariableParams v [] none false] ↔
      ∃ kv ∈ entriesOf vars.toVariables v, tag v.shown kv = m := by
  rw [lookup, flatMap_singleton, (getFieldMatches_perm it vars hv rfl rfl).mem_iff, mem_map]
  have hall : (newRuleVariableParams v [] none false).selector = .all := selector_all v []
  have hnone : (newRuleVariableParams v [] none false).exceptions = [] := rfl
  simp only [hall, hnone, Selector.picks, isRuleVariableException, Bool.not_false, Bool.and_true,
    filter_true]

variable (vars : LoweredVariables)

theorem appliesTo_iff {key : KeyRegex compile}
    (hv : canBeSelected v = true) {applies : Iteration → Match → Prop} {test : Bytes → Bool}
    (h : ∀ it, ∀ kv ∈ entriesOf vars.toVariables v,
      applies it (tag v.shown kv) ↔ test kv.key = true) :
    AppliesTo key vars.toVariables v applies ↔
      ∀ kv ∈ entriesOf vars.toVariables v, test kv.key = key.insensitive kv.key := by
  constructor
  · intro happlies kv hkv
    have hm := happlies .stored (tag v.shown kv)
      ((mem_lookup_all .stored vars hv).mpr ⟨kv, hkv, rfl⟩)
    rw [h .stored kv hkv] at hm
    exact Bool.eq_iff_iff.mpr hm
  · intro htest it m hm
    obtain ⟨kv, hkv, rfl⟩ := (mem_lookup_all it vars hv).mp hm
    rw [h it kv hkv, htest kv hkv]
    rfl

theorem compileKey_regex (v : RuleVariable) (key : KeyRegex compile) :
    compileKey compile v key.text = (compile (keyPattern v key.rx)).map some := by
  simp only [compileKey, key.hasRegex_text]

theorem mem_lookup_selection (vars : LoweredVariables)
    (hv : canBeSelected v = true) (s : Bytes) (re : Bytes → Bool)
    (hkv : kv ∈ entriesOf vars.toVariables v) :
    tag v.shown kv ∈ lookup it vars.toVariables [newRuleVariableParams v s (some re) false] ↔
      KeyUse.selection.test s re kv.key = true := by
  have hselector : (newRuleVariableParams v s (some re) false).selector = .regex re := rfl
  rw [tag_mem_lookup it vars hv rfl rfl hkv, hselector]
  simp [Selector.picks, newRuleVariableParams, isRuleVariableException, KeyUse.test, KeyUse.exempt]

theorem notMem_lookup_exception (vars : LoweredVariables)
    (hv : canBeSelected v = true) (s : Bytes) (re : Bytes → Bool)
    (hkv : kv ∈ entriesOf vars.toVariables v) :
    tag v.shown kv ∉ lookup it vars.toVariables
        [{ newRuleVariableParams v [] none false with exceptions := [⟨s, some re⟩] }] ↔
      KeyUse.exclusion.test s re kv.key = true := by
  have htest : KeyUse.exclusion.test s re kv.key
      = isRuleVariableException kv.key false [⟨s, some re⟩] := by
    rw [exception_regex]
    simp only [KeyUse.test, KeyUse.exempt, Option.some.injEq, eq_comm]
  rw [tag_mem_lookup it vars hv rfl rfl hkv, selector_all, htest]
  simp [Selector.picks]

theorem appliesTo_exception (hv : canBeSelected v = true)
    (key : KeyRegex compile) (s : Bytes) (re : Bytes → Bool) :
    AppliesTo key vars.toVariables v (fun it m => m ∉ lookup it vars.toVariables
        [{ newRuleVariableParams v [] none false with exceptions := [⟨s, some re⟩] }]) ↔
      ∀ kv ∈ entriesOf vars.toVariables v,
        KeyUse.exclusion.test s re kv.key = key.insensitive kv.key :=
  appliesTo_iff vars hv (fun it _ hkv => notMem_lookup_exception it vars hv s re hkv)

/-- **What a key applies to, as a test on the keys of the entries.** -/
theorem keyMeans_iff (hv : canBeSelected v = true) (key : KeyRegex compile) (use : KeyUse) :
    KeyMeans vars.toVariables v key use ↔ (use = .ctl ∧ key.rx = []) ∨
      ∃ re, compile (use.pattern v key.rx) = some re ∧
        ∀ kv ∈ entriesOf vars.toVariables v,
          use.test key.text re kv.key = key.insensitive kv.key := by
  cases use with
  | selection =>
    have hselection : ∀ re, AppliesTo key vars.toVariables v (fun it m =>
        m ∈ lookup it vars.toVariables [newRuleVariableParams v key.text (some re) false]) ↔
          ∀ kv ∈ entriesOf vars.toVariables v,
            KeyUse.selection.test key.text re kv.key = key.insensitive kv.key :=
      fun re => appliesTo_iff vars hv
        (fun it kv hkv => mem_lookup_selection it vars hv key.text re hkv)
    simp only [KeyMeans, parseTargets_selection, compileKey_regex, KeyUse.pattern, reduceCtorEq,
      false_and, false_or]
    cases compile (keyPattern v key.rx) with
    | none => simp
    | some re => simpa using hselection re
  | exclusion =>
    simp only [KeyMeans, parseTargets_exclusion, compileKey_regex, KeyUse.pattern, reduceCtorEq,
      false_and, false_or]
    cases compile (keyPattern v key.rx) with
    | none => simp
    | some re => simpa using appliesTo_exception vars hv key key.text re
  | ctl =>
    have htarget : ∀ re, Rule.exceptTarget [ctlTarget v ([], some re)]
        (newRuleVariableParams v [] none false)
          = { newRuleVariableParams v [] none false with exceptions := [⟨[], some re⟩] } := by
      intro re
      simp [Rule.exceptTarget, ctlTarget, newRuleVariableParams]
    have htest : ∀ re k, KeyUse.ctl.test key.text re k = KeyUse.exclusion.test [] re k :=
      fun _ _ => rfl
    simp only [KeyMeans, parseCtlKey, key.hasRegex_text, KeyUse.pattern, htest]
    by_cases hrx : key.rx = []
    · simp [hrx]
    · simp only [hrx]
      cases compile key.rx with
      | none => simp
      | some re => simpa [htarget] using appliesTo_exception vars hv key [] re

/-! ### All keys -/

def sourceOf : RuleVariable → RuleVariable
  | .args | .argsNames | .argsGetNames => .argsGet
  | .argsPostNames => .argsPost
  | .responseHeadersNames => .responseHeaders
  | .requestHeadersNames => .requestHeaders
  | .matchedVarsNames => .matchedVars
  | .requestCookiesNames => .requestCookies
  | .xml => .requestXML
  | v => v

theorem sourceOf_mem (vars : Variables) (hv : canBeSelected v = true) (hjson : v ≠ .json) :
    (if showsNames v then Keyed.names (vars.map (sourceOf v))
      else Keyed.map (vars.map (sourceOf v))) ∈ keyedParts vars v := by
  cases v <;>
    first
    | exact absurd hv Bool.false_ne_true
    | exact absurd rfl hjson
    | exact mem_cons_self ..

theorem exists_entry (hv : canBeSelected v = true) (hjson : v ≠ .json) (k : Bytes) :
    ∃ vars : LoweredVariables, ∃ kv ∈ entriesOf vars.toVariables v, kv.key = k := by
  let vars := LoweredVariables.new.modifyMap (sourceOf v) (fun m => m.add k [])
    (fun _ hm => hm.add _ _)
  have hmap : vars.map (sourceOf v) = Map.new.add k [] :=
    Variables.modifyMap_map_self Variables.new (sourceOf v) (fun m => m.add k [])
  have hpair : (⟨k, []⟩ : KeyValue) ∈ (Map.new.add k []).pairs := by
    refine Map.mem_pairs.mpr ⟨Strings.toLower k, ?_⟩
    rw [Map.add, Map.values_insert]
    have hfold : Map.new.fold k = Strings.toLower k := Map.Lowered.new.fold_eq k
    rw [hfold, if_pos rfl]
    exact mem_append_right _ (mem_singleton.mpr rfl)
  have hpart := sourceOf_mem vars.toVariables hv hjson
  rw [hmap] at hpart
  refine ⟨vars, _, mem_flatMap.mpr ⟨_, hpart, mem_map.mpr ⟨⟨k, []⟩, ?_, rfl⟩⟩, ?_⟩
  · cases showsNames v <;> exact hpair
  · rw [shown_key]

/-- An expression means what was written if the tests on lowered keys do. -/
theorem test_eq_iff (key : KeyRegex compile) (use : KeyUse) (re : Bytes → Bool) :
    (∀ k, use.test key.text re k = key.insensitive k) ↔
      (∀ k, key.insensitive (Strings.toLower k) = key.insensitive k) ∧
        ∀ k, Strings.toLower k = k → if use.exempt key.text = some k
          then key.insensitive k = true else re k = key.insensitive k := by
  have htest : ∀ k, Strings.toLower k = k → use.test key.text re k
      = (re k || decide (use.exempt key.text = some k)) := by
    intro k hk
    rw [KeyUse.test, hk]
  constructor
  · intro h
    constructor
    · intro k
      rw [← h, ← h, KeyUse.test, KeyUse.test, Strings.toLower_toLower]
    · intro k hk
      rw [← h k, htest k hk]
      split
      · rename_i hexempt
        rw [decide_eq_true hexempt, Bool.or_true]
      · rename_i hexempt
        rw [decide_eq_false hexempt, Bool.or_false]
  · rintro ⟨hstable, hagrees⟩ k
    have hlower := hagrees (Strings.toLower k) (Strings.toLower_toLower k)
    rw [KeyUse.test, ← hstable k]
    split at hlower
    · rename_i hexempt
      rw [decide_eq_true hexempt, Bool.or_true, hlower]
    · rename_i hexempt
      rw [decide_eq_false hexempt, Bool.or_false, hlower]

/-- **When the key `/rx/` applies to the entries that `(?i)rx` matches**, in a selection, in an
exclusion or in `ctl`, whatever the variables hold. -/
theorem regexKey_iff (compile : Compile)
    (v : {v : RuleVariable // canBeSelected v = true ∧ v ≠ .json})
    (key : KeyRegex compile) (use : KeyUse) :
    (∀ vars : LoweredVariables, KeyMeans vars.toVariables v key use) ↔
      (use = .ctl ∧ key.rx = []) ∨ SoundKey v key use := by
  obtain ⟨v, hv, hjson⟩ := v
  simp only [keyMeans_iff _ hv]
  by_cases hempty : use = .ctl ∧ key.rx = []
  · exact iff_of_true (fun _ => .inl hempty) (.inl hempty)
  · simp only [hempty, false_or]
    constructor
    · intro h
      obtain ⟨re, hre, -⟩ := h LoweredVariables.new
      have htest : ∀ k, use.test key.text re k = key.insensitive k := by
        intro k
        obtain ⟨vars, kv, hkv, rfl⟩ := exists_entry hv hjson k
        obtain ⟨re', hre', h'⟩ := h vars
        cases hre.symm.trans hre'
        exact h' kv hkv
      obtain ⟨hstable, hagrees⟩ := (test_eq_iff key use re).mp htest
      exact ⟨hstable, re, hre, hagrees⟩
    · rintro ⟨hstable, re, hre, hagrees⟩ vars
      exact ⟨re, hre, fun kv _ => (test_eq_iff key use re).mpr ⟨hstable, hagrees⟩ kv.key⟩

/-- `regexp.Compile` for some expressions: `Foo`, `foo`, `\d` and `\D`. -/
def someExpressions : Compile := fun rx =>
  let digit (r : Nat) : Bool := 0x30 ≤ r ∧ r ≤ 0x39
  if rx = bytesOf "Foo" then some (fun key => Strings.contains key (bytesOf "Foo"))
  else if rx = bytesOf "foo" then some (fun key => Strings.contains key (bytesOf "foo"))
  else if rx = bytesOf "(?i)Foo" then
    some (fun key => Strings.contains (Strings.toLower key) (bytesOf "foo"))
  else if rx = bytesOf "\\d" then some (fun key => (decodeRunes key).any digit)
  else if rx = bytesOf "\\D" ∨ rx = bytesOf "(?i)\\D" then
    some (fun key => (decodeRunes key).any (fun r => !digit r))
  else none

def fooKey : KeyRegex someExpressions where
  text := bytesOf "/Foo/"
  rx := bytesOf "Foo"
  hasRegex_text := by decide +kernel
  insensitive := fun key => Strings.contains (Strings.toLower key) (bytesOf "foo")
  compile_insensitive := by
    unfold someExpressions
    rw [if_neg (by decide +kernel), if_neg (by decide +kernel), if_pos (by decide +kernel)]

def nonDigitKey : KeyRegex someExpressions where
  text := bytesOf "/\\D/"
  rx := bytesOf "\\D"
  hasRegex_text := by decide +kernel
  insensitive := fun key => (decodeRunes key).any (fun r => !decide (0x30 ≤ r ∧ r ≤ 0x39))
  compile_insensitive := by
    unfold someExpressions
    rw [if_neg (by decide +kernel), if_neg (by decide +kernel), if_neg (by decide +kernel),
      if_neg (by decide +kernel), if_pos (by decide +kernel)]

def oneHeader (key value : Bytes) : LoweredVariables :=
  LoweredVariables.new.modifyMap .requestHeaders (fun m => m.add key value) (fun _ hm => hm.add _ _)

/-- **`/Foo/` never applies to an argument, and `/\D/` is taken for `/\d/` for headers.** -/
theorem regexKey_misread :
    ¬KeyMeans (oneArgument (bytesOf "Foo") (bytesOf "1")).toVariables .args fooKey .selection ∧
    ¬KeyMeans (oneArgument (bytesOf "Foo") (bytesOf "1")).toVariables .args fooKey .exclusion ∧
    ¬KeyMeans (oneArgument (bytesOf "Foo") (bytesOf "1")).toVariables .args fooKey .ctl ∧
    ¬KeyMeans (oneHeader (bytesOf "Host") (bytesOf "a")).toVariables .requestHeaders nonDigitKey
      .selection := by
  have hfoo : someExpressions (bytesOf "Foo")
      = some (fun key => Strings.contains key (bytesOf "Foo")) := if_pos rfl
  have hmiss : ∀ use, use ≠ KeyUse.ctl ∨ fooKey.rx ≠ [] →
      use.pattern .args fooKey.rx = bytesOf "Foo" →
      (use.test fooKey.text (fun key => Strings.contains key (bytesOf "Foo")) (bytesOf "Foo")
        = false) →
      ¬KeyMeans (oneArgument (bytesOf "Foo") (bytesOf "1")).toVariables .args fooKey use := by
    intro use huse hpattern htest h
    rcases (keyMeans_iff _ rfl fooKey use).mp h with ⟨hctl, hempty⟩ | ⟨re, hre, hagrees⟩
    · rcases huse with huse | huse
      · exact huse hctl
      · exact huse hempty
    · rw [hpattern, hfoo] at hre
      cases hre
      have hentry := hagrees ⟨bytesOf "Foo", bytesOf "1"⟩ (by decide +kernel)
      rw [htest] at hentry
      revert hentry
      decide +kernel
  refine ⟨hmiss .selection (.inl (by simp)) rfl (by decide +kernel),
    hmiss .exclusion (.inl (by simp)) rfl (by decide +kernel),
    hmiss .ctl (.inr (by decide +kernel)) rfl (by decide +kernel), fun h => ?_⟩
  rcases (keyMeans_iff _ rfl nonDigitKey .selection).mp h with ⟨hctl, -⟩ | ⟨re, hre, hagrees⟩
  · cases hctl
  · have hpattern : KeyUse.selection.pattern .requestHeaders nonDigitKey.rx = bytesOf "\\d" := by
      decide +kernel
    have hdigit : someExpressions (bytesOf "\\d")
        = some (fun key => (decodeRunes key).any (fun r => decide (0x30 ≤ r ∧ r ≤ 0x39))) := by
      unfold someExpressions
      rw [if_neg (by decide +kernel), if_neg (by decide +kernel), if_neg (by decide +kernel),
        if_pos rfl]
    rw [hpattern, hdigit] at hre
    cases hre
    have hentry := hagrees ⟨bytesOf "Host", bytesOf "a"⟩ (by decide +kernel)
    revert hentry
    decide +kernel

end Coraza.Waf
