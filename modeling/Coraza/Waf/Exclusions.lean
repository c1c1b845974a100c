import Coraza.Waf.FieldLookup
import Coraza.Waf.Targets

/-!
# Exclusions and selections

The target `!VAR:s` should take away from `VAR` what the target `VAR:s` would select.  The two are
written apart: a selection asks the collection for a key, and an exclusion compares the keys of
the entries that the collection gave.

In the default build both are tests on the key of an entry, `Selector.picks` for a selection and
`isRuleVariableException` for an exclusion.  `exclusion_exact_iff` says when they are the same for
the entries of a variable.
-/

namespace Coraza.Waf

open Go Collections List Strings Selector

/-! ### Keys compared without their case -/

theorem lowercaseLoop_iff (left right : Bytes) (l r : Bytes) :
    (Strings.toLower left = Strings.toLower right ↔ Strings.toLower l = Strings.toLower r) →
    left.length + r.length = right.length + l.length →
    (lowercaseLoop left right l r = true ↔ Strings.toLower left = Strings.toLower right) := by
  induction l generalizing r with
  | nil =>
    intro hsame hlength
    rw [hsame]
    cases r with
    | nil =>
      have : left.length = right.length := by simpa using hlength
      simp [lowercaseLoop, this]
    | cons b r =>
      have : left.length ≠ right.length := by
        simp only [length_cons, length_nil] at hlength
        omega
      simp only [lowercaseLoop, this, decide_false, Bool.false_eq_true, false_iff]
      intro h
      exact cons_ne_nil b r (toLower_eq_nil.mp h.symm)
  | cons a l ih =>
    intro hsame hlength
    cases r with
    | nil =>
      have : left.length ≠ right.length := by
        simp only [length_cons, length_nil] at hlength
        omega
      rw [hsame]
      simp only [lowercaseLoop, this, decide_false, Bool.false_eq_true, false_iff]
      intro h
      exact cons_ne_nil a l (toLower_eq_nil.mp h)
    | cons b r =>
      unfold lowercaseLoop
      split
      · exact decide_eq_true_iff
      · rename_i hascii
        have ha : a.toNat < 0x80 := by
          have : ¬a ≥ 0x80 := fun h => hascii (.inl h)
          simpa [UInt8.le_iff_toNat_le] using this
        have hb : b.toNat < 0x80 := by
          have : ¬b ≥ 0x80 := fun h => hascii (.inr h)
          simpa [UInt8.le_iff_toNat_le] using this
        have hcons : Strings.toLower (a :: l) = Strings.toLower (b :: r) ↔
            lowerByte a = lowerByte b ∧ Strings.toLower l = Strings.toLower r := by
          rw [toLower_cons ha, toLower_cons hb, List.cons.injEq]
        show (if lowerByte a ≠ lowerByte b then false
          else lowercaseLoop left right l r) = true ↔ _
        by_cases heq : lowerByte a = lowerByte b
        · rw [if_neg (not_not.mpr heq)]
          refine ih r ?_ ?_
          · rw [hsame, hcons]
            exact ⟨fun h => h.2, fun h => ⟨heq, h⟩⟩
          · simp only [length_cons] at hlength
            omega
        · rw [if_pos heq, hsame, hcons]
          exact ⟨fun h => absurd h Bool.false_ne_true, fun h => absurd h.1 heq⟩

theorem lowercaseStringsEqual_iff (left right : Bytes) :
    lowercaseStringsEqual left right = true ↔ Strings.toLower left = Strings.toLower right :=
  lowercaseLoop_iff left right left right Iff.rfl (Nat.add_comm ..)

theorem lowercaseStringsEqual_eq (left right : Bytes) : lowercaseStringsEqual left right
    = decide (Strings.toLower left = Strings.toLower right) := by
  rw [Bool.eq_iff_iff, lowercaseStringsEqual_iff, decide_eq_true_iff]

/-- It makes no difference whether the key has been lowered. -/
theorem isRuleVariableException_ready (key : Bytes) (exceptions : List RuleVariableException) :
    isRuleVariableException key true exceptions
      = isRuleVariableException key false exceptions := by
  induction exceptions with
  | nil => rfl
  | cons e es ih =>
    unfold isRuleVariableException
    cases e.keyRx with
    | some rx => rfl
    | none =>
      simp only [if_true, Bool.false_eq_true, if_false, lowercaseStringsEqual_eq,
        decide_eq_true_eq, ih]

/-- **Keys of exceptions are compared in lower case**, with the fast path and without it, and
whether the key has been lowered for an expression or not. -/
theorem exceptions_compare_lowered (left right key : Bytes)
    (exceptions : List RuleVariableException) :
    lowercaseStringsEqual left right = decide (Strings.toLower left = Strings.toLower right) ∧
      isRuleVariableException key true exceptions
        = isRuleVariableException key false exceptions := by
  constructor
  · exact lowercaseStringsEqual_eq left right
  · exact isRuleVariableException_ready key exceptions

theorem exception_regex (key s : Bytes) (re : Bytes → Bool) :
    isRuleVariableException key false [⟨s, some re⟩]
      = (re (Strings.toLower key) || decide (Strings.toLower key = Strings.toLower s)) := by
  simp only [isRuleVariableException, Option.isNone_some, Bool.false_eq_true, and_false, if_false]
  by_cases hre : re (Strings.toLower key) = true
  · rw [if_pos hre, hre, Bool.true_or]
  · rw [if_neg hre, eq_false_of_ne_true hre, Bool.false_or]
    by_cases hs : Strings.toLower s = Strings.toLower key
    · rw [if_pos hs, decide_eq_true hs.symm]
    · rw [if_neg hs, decide_eq_false (Ne.symm hs)]

variable {s : Bytes} {vars : Variables} {v : RuleVariable} {c : Keyed} {α : Type}

theorem exception_plain (key : Bytes) (hs : s ≠ []) : isRuleVariableException key false [⟨s, none⟩]
      = decide (Strings.toLower key = Strings.toLower s) := by
  simp only [isRuleVariableException, hs, false_and, if_false, Bool.false_eq_true]
  by_cases h : lowercaseStringsEqual s key = true
  · rw [if_pos h, decide_eq_true ((lowercaseStringsEqual_iff s key).mp h).symm]
  · rw [if_neg h, decide_eq_false (fun heq => h ((lowercaseStringsEqual_iff s key).mpr heq.symm))]

/-! ### The entries of a variable -/

/-- The views whose entries a variable shows. -/
def keyedParts (vars : Variables) (v : RuleVariable) : List Keyed :=
  match vars.collection v with
  | some (.keyed c) => [c]
  | some (.concat parts) => parts
  | _ => []

def entriesOf (vars : Variables) (v : RuleVariable) : List KeyValue :=
  (keyedParts vars v).flatMap (fun c => c.underlying.pairs.map c.shown)

/-- The variables that show names. -/
def showsNames : RuleVariable → Bool
  | .responseHeadersNames | .requestHeadersNames | .matchedVarsNames | .requestCookiesNames
  | .argsNames | .argsGetNames | .argsPostNames => true
  | _ => false

def isNames : Keyed → Bool
  | .map _ => false
  | .names _ => true

theorem mem_keyedParts (h : c ∈ keyedParts vars v) :
    ∃ w, c = if showsNames v then Keyed.names (vars.map w) else Keyed.map (vars.map w) := by
  cases v <;>
    first
    | exact absurd h not_mem_nil
    | exact ⟨_, List.mem_singleton.mp h⟩
    | (rcases List.mem_cons.mp h with h | h
       · exact ⟨_, h⟩
       · rcases List.mem_cons.mp h with h | h
         · exact ⟨_, h⟩
         · exact ⟨_, List.mem_singleton.mp h⟩)

theorem isNames_of_mem (h : c ∈ keyedParts vars v) : isNames c = showsNames v := by
  obtain ⟨w, rfl⟩ := mem_keyedParts h
  cases showsNames v <;> rfl

theorem lowered_of_mem {vars : LoweredVariables} (h : c ∈ keyedParts vars.toVariables v) :
    c.underlying.Lowered := by
  obtain ⟨w, rfl⟩ := mem_keyedParts h
  cases showsNames v <;> exact vars.lowered w

/-- The test on the key of an entry that a selector makes, for names or for values. -/
def Selector.picks (names : Bool) (s : Selector) (kv : KeyValue) : Bool :=
  match s with
  | .all => true
  | .regex re => re (Strings.toLower kv.key)
  | .string k =>
    if names then Strings.toLower kv.key = k
    else k = [] ∨ Strings.toLower kv.key = Strings.toLower k

theorem shown_key (c : Keyed) (kv : KeyValue) : (c.shown kv).key = kv.key := by
  cases c <;> rfl

theorem filter_flatMap_eq {β : Type} {f : α → List β} {p : β → Bool} {q : α → Bool} :
    ∀ l : List α, (∀ a ∈ l, ∀ b ∈ f a, p b = q a) →
      (l.flatMap f).filter p = (l.filter q).flatMap f := by
  intro l
  induction l with
  | nil => exact fun _ => rfl
  | cons a l ih =>
    intro h
    have hrest := ih (fun a' ha' => h a' (mem_cons_of_mem _ ha'))
    have ha := h a (mem_cons_self ..)
    rw [flatMap_cons, filter_append, hrest]
    cases hq : q a with
    | true =>
      have hall : (f a).filter p = f a :=
        List.filter_eq_self.mpr (fun b hb => (ha b hb).trans hq)
      rw [hall, filter_cons_of_pos hq, flatMap_cons]
    | false =>
      have hnone : (f a).filter p = [] :=
        List.filter_eq_nil_iff.mpr (fun b hb => by rw [ha b hb, hq]; exact Bool.false_ne_true)
      rw [hnone, filter_cons_of_neg (by rw [hq]; exact Bool.false_ne_true), nil_append]

theorem appendMatches_stored (c : Keyed) :
    c.appendMatches .stored = c.underlying.pairs.map c.shown := by
  simp only [Keyed.appendMatches, Map.range, Iteration.stored, Map.pairs, id_eq, flatMap_map,
    map_flatMap]

theorem appendMatchesRegex_stored (hc : c.underlying.Lowered) (re : Bytes → Bool) :
    c.appendMatchesRegex .stored re
      = (c.underlying.pairs.map c.shown).filter (fun kv => re (Strings.toLower kv.key)) := by
  have hkey : ∀ e ∈ c.underlying.range .stored, ∀ kv ∈ e.2.map c.shown,
      re (Strings.toLower kv.key) = re e.1 := by
    intro e he kv hkv
    obtain ⟨kv', hkv', rfl⟩ := List.mem_map.mp hkv
    have hvalues : kv' ∈ c.underlying.values e.1 := by
      rw [Map.values, Iteration.mem_entries .stored |>.mp he]
      exact hkv'
    rw [shown_key, (hc.mem_values.mp hvalues).2]
  rw [← appendMatches_stored]
  exact (filter_flatMap_eq _ hkey).symm

/-- **What a selector gives is what passes its test.** -/
theorem entries_perm_filter (hc : c.underlying.Lowered) (it : Iteration) (s : Selector) :
    (s.entries it c).Perm
      ((c.underlying.pairs.map c.shown).filter (s.picks (isNames c))) := by
  refine (s.entries_perm it .stored c).trans ?_
  cases s with
  | all =>
    refine List.Perm.of_eq ?_
    rw [entries, appendMatches_stored]
    exact (List.filter_eq_self.mpr (fun _ _ => rfl)).symm
  | regex re => exact List.Perm.of_eq (appendMatchesRegex_stored hc re)
  | string k =>
    rw [filter_map]
    cases c with
    | names m => exact (hc.values_perm k).map _
    | map m =>
      by_cases hk : k = []
      · subst hk
        refine List.Perm.of_eq ?_
        simp only [entries, Keyed.appendMatchesString]
        rw [appendMatches_stored]
        refine congrArg (List.map _) (List.filter_eq_self.mpr (fun kv _ => ?_)).symm
        simp [picks, isNames]
      · have hm : m.Lowered := hc
        have hentries : (string k).entries .stored (.map m)
            = (m.values (Strings.toLower k)).map (Keyed.map m).shown := by
          simp only [entries, Keyed.appendMatchesString, if_neg hk, hm.fold_eq]
          exact (map_id _).symm
        have htest : (string k).picks (isNames (.map m))
            = fun kv => decide (Strings.toLower kv.key = Strings.toLower k) := by
          funext kv
          simp [picks, isNames, hk]
        rw [hentries, htest]
        exact (hm.values_perm (Strings.toLower k)).map _

theorem select_perm (vars : LoweredVariables) (v : RuleVariable) (s : Selector) (it : Iteration) :
    ((keyedParts vars.toVariables v).flatMap (s.entries it)).Perm
      ((entriesOf vars.toVariables v).filter (s.picks (showsNames v))) := by
  unfold entriesOf
  rw [filter_flatMap]
  refine List.Perm.flatMap_left _ (fun c hc => ?_)
  rw [← isNames_of_mem hc]
  exact entries_perm_filter (lowered_of_mem hc) it s

theorem collection_selectable (vars : Variables) (hv : canBeSelected v = true) :
    vars.collection v = none ∨ (∃ c, vars.collection v = some (.keyed c)) ∨
      ∃ parts, vars.collection v = some (.concat parts) := by
  cases v <;>
    first
    | exact absurd hv Bool.false_ne_true
    | exact .inl rfl
    | exact .inr (.inl ⟨_, rfl⟩)
    | exact .inr (.inr ⟨_, rfl⟩)

/-- What the rule loop gets for a target with exceptions, of a variable that can be selected. -/
theorem getFieldMatches_selectable (it : Iteration) (vars : Variables)
    (hv : canBeSelected v = true) {rv : RuleVariableParams} (hrv : rv.ruleVariable = v)
    (hcount : rv.count = false) :
    getFieldMatches it vars rv
      = (((keyedParts vars v).flatMap (rv.selector.entries it)).filter
          (fun kv => !isRuleVariableException kv.key false rv.exceptions)).map (tag v.shown) := by
  have hfilter : ∀ l : List KeyValue, (if rv.exceptions.length ≠ 0
      then l.filter (fun kv => !isRuleVariableException kv.key false rv.exceptions) else l)
        = l.filter (fun kv => !isRuleVariableException kv.key false rv.exceptions) := by
    intro l
    split
    · rfl
    · rename_i hnone
      rw [eq_nil_of_length_eq_zero (not_not.mp hnone)]
      exact (List.filter_eq_self.mpr (fun _ _ => rfl)).symm
  unfold getFieldMatches keyedParts
  rw [hrv]
  rcases collection_selectable vars hv with hcol | ⟨c, hcol⟩ | ⟨parts, hcol⟩
  · rw [hcol]
    rfl
  · rw [hcol]
    dsimp only
    rw [selectMatches_keyed, hfilter, hcount, flatMap_singleton]
    rfl
  · rw [hcol]
    dsimp only
    rw [selectMatches_concat, hfilter, hcount]
    rfl

/-- **A target gives the entries that pass its selector and none of its exceptions.** -/
theorem getFieldMatches_perm (it : Iteration) (vars : LoweredVariables)
    (hv : canBeSelected v = true) {rv : RuleVariableParams} (hrv : rv.ruleVariable = v)
    (hcount : rv.count = false) :
    (getFieldMatches it vars.toVariables rv).Perm
      (((entriesOf vars.toVariables v).filter (fun kv =>
        !isRuleVariableException kv.key false rv.exceptions &&
          rv.selector.picks (showsNames v) kv)).map (tag v.shown)) := by
  rw [getFieldMatches_selectable it vars.toVariables hv hrv hcount, ← filter_filter]
  exact ((select_perm vars v rv.selector it).filter _).map _

/-! ### Exact exclusions -/

theorem count_filter_eq [DecidableEq α] (p : α → Bool) (l : List α) (x : α) :
    (l.filter p).count x = if p x = true then l.count x else 0 := by
  split
  · rename_i h
    exact count_filter h
  · rename_i h
    exact List.count_eq_zero.mpr (fun hx => h (List.mem_filter.mp hx).2)

/-- What passes one test and what fails another are together everything, if the tests agree. -/
theorem filter_append_perm_iff [DecidableEq α] {p q : α → Bool} {l : List α} :
    (l.filter p ++ l.filter (fun x => !q x)).Perm l ↔ ∀ x ∈ l, p x = q x := by
  rw [perm_iff_count]
  constructor
  · intro h x hx
    have hcount := h x
    have hpos : 0 < l.count x := List.count_pos_iff.mpr hx
    rw [count_append, count_filter_eq, count_filter_eq] at hcount
    cases hp : p x <;> cases hq : q x <;> simp [hp, hq] at hcount ⊢ <;> omega
  · intro h x
    rw [count_append, count_filter_eq, count_filter_eq]
    by_cases hx : x ∈ l
    · rw [h x hx]
      cases q x <;> simp
    · rw [List.count_eq_zero.mpr hx]
      simp

theorem tag_injective (v : RuleVariable) : Function.Injective (tag v) := by
  intro kv kv' h
  obtain ⟨key, value⟩ := kv
  simp only [tag, Match.mk.injEq, true_and] at h
  rw [h.1, h.2]

def lookup (it : Iteration) (vars : Variables) (targets : List RuleVariableParams) : List Match :=
  targets.flatMap (getFieldMatches it vars)

/-- What `VAR:s` selects and what `VAR|!VAR:s` leaves are together what `VAR` gives. -/
def ExclusionExact (compile : Compile) (vars : Variables) (v : RuleVariable) (s : Bytes) : Prop :=
  ∀ selected excluded all : List RuleVariableParams,
    parseTargets compile [⟨false, false, v, s⟩] = some selected →
    parseTargets compile [⟨false, false, v, []⟩, ⟨true, false, v, s⟩] = some excluded →
    parseTargets compile [⟨false, false, v, []⟩] = some all →
    ∀ it it' it'' : Iteration,
      (lookup it vars selected ++ lookup it' vars excluded).Perm (lookup it'' vars all)

/-- An expression selects the entries that are called like the text of the key.  A plain key is
lowered, if a view of arguments' names is to have entries for it. -/
def SafeKey (compile : Compile) (vars : Variables) (v : RuleVariable) (s : Bytes) : Prop :=
  (∀ rx re, hasRegex s = some rx → compile (keyPattern v rx) = some re →
    ∀ kv ∈ entriesOf vars v, Strings.toLower kv.key = Strings.toLower s →
      re (Strings.toLower kv.key) = true) ∧
  (hasRegex s = none → showsNames v = true → caseSensitiveVariable v = true →
    s = [] ∨ Strings.toLower s = s ∨
      ∀ kv ∈ entriesOf vars v, Strings.toLower kv.key ≠ Strings.toLower s)

variable (compile : Compile)

theorem parseTargets_selection (v : RuleVariable) (s : Bytes) :
    parseTargets compile [⟨false, false, v, s⟩]
      = (compileKey compile v s).map (fun re => [newRuleVariableParams v s re false]) := by
  cases h : compileKey compile v s <;>
    simp [parseTargets, targetEdits, Target.edit, addVariable, h, applyEdits, TargetEdit.apply]

theorem compileKey_nil (v : RuleVariable) : compileKey compile v [] = some none := rfl

theorem parseTargets_exclusion (v : RuleVariable) (s : Bytes) :
    parseTargets compile [⟨false, false, v, []⟩, ⟨true, false, v, s⟩]
      = (compileKey compile v s).map (fun re =>
          [{ newRuleVariableParams v [] none false with exceptions := [⟨s, re⟩] }]) := by
  cases h : compileKey compile v s <;>
    simp [parseTargets, targetEdits, Target.edit, addVariable, addVariableNegation, compileKey_nil,
      h, applyEdits, TargetEdit.apply, RuleVariableParams.except, newRuleVariableParams]

theorem selector_all (v : RuleVariable) (exceptions : List RuleVariableException) :
    ({ newRuleVariableParams v [] none false with exceptions := exceptions } :
      RuleVariableParams).selector = .all := by
  unfold RuleVariableParams.selector newRuleVariableParams
  dsimp only
  refine if_neg (not_not.mpr ?_)
  split <;> rfl

theorem selector_string (v : RuleVariable) {k : Bytes} (hk : k ≠ []) :
    (newRuleVariableParams v k none false).selector
      = .string (if caseSensitiveVariable v then k else Strings.toLower k) := by
  unfold RuleVariableParams.selector newRuleVariableParams
  refine if_pos ?_
  split
  · exact hk
  · rwa [Ne, toLower_eq_nil]

/-- An exclusion is exact if the tests of the exception and of the selector agree. -/
theorem exclusionExact_iff_tests (vars : LoweredVariables)
    (hv : canBeSelected v = true) (s : Bytes) :
    ExclusionExact compile vars.toVariables v s ↔
      ∀ re, compileKey compile v s = some re → ∀ kv ∈ entriesOf vars.toVariables v,
        (newRuleVariableParams v s re false).selector.picks (showsNames v) kv
          = isRuleVariableException kv.key false [⟨s, re⟩] := by
  unfold ExclusionExact
  simp only [parseTargets_selection, parseTargets_exclusion, compileKey_nil]
  cases hre : compileKey compile v s with
  | none => simp
  | some re =>
    have hselected : ∀ it, (lookup it vars.toVariables [newRuleVariableParams v s re false]).Perm
        (((entriesOf vars.toVariables v).filter
          ((newRuleVariableParams v s re false).selector.picks (showsNames v))).map
            (tag v.shown)) := by
      intro it
      rw [lookup, flatMap_singleton]
      exact getFieldMatches_perm it vars hv rfl rfl
    have hexcluded : ∀ it, (lookup it vars.toVariables
        [{ newRuleVariableParams v [] none false with exceptions := [⟨s, re⟩] }]).Perm
          (((entriesOf vars.toVariables v).filter
            (fun kv => !isRuleVariableException kv.key false [⟨s, re⟩])).map (tag v.shown)) := by
      intro it
      rw [lookup, flatMap_singleton]
      refine (getFieldMatches_perm it vars hv rfl rfl).trans (List.Perm.of_eq ?_)
      rw [selector_all]
      simp only [picks, Bool.and_true]
    have hall : ∀ it, (lookup it vars.toVariables [newRuleVariableParams v [] none false]).Perm
        ((entriesOf vars.toVariables v).map (tag v.shown)) := by
      intro it
      rw [lookup, flatMap_singleton]
      refine (getFieldMatches_perm it vars hv rfl rfl).trans (List.Perm.of_eq ?_)
      rw [show (newRuleVariableParams v [] none false).selector = .all from selector_all v []]
      exact congrArg _ (List.filter_eq_self.mpr (fun _ _ => rfl))
    constructor
    · intro h re' hre' kv hkv
      cases hre'
      have hperm := ((hselected .stored).append (hexcluded .stored)).symm.trans
        ((h _ _ _ rfl rfl rfl .stored .stored .stored).trans (hall .stored))
      rw [← map_append, map_perm_map_iff (tag_injective _)] at hperm
      exact filter_append_perm_iff.mp hperm kv hkv
    · rintro h _ _ _ ⟨⟩ ⟨⟩ ⟨⟩ it it' it''
      refine ((hselected it).append (hexcluded it')).trans (List.Perm.trans ?_ (hall it'').symm)
      rw [← map_append, map_perm_map_iff (tag_injective _)]
      exact filter_append_perm_iff.mpr (h re rfl)

theorem tests_agree_regex {compile : Compile} {rx : Bytes} (hrx : hasRegex s = some rx) :
    (∀ re, compileKey compile v s = some re → ∀ kv ∈ entriesOf vars v,
        (newRuleVariableParams v s re false).selector.picks (showsNames v) kv
          = isRuleVariableException kv.key false [⟨s, re⟩]) ↔
      SafeKey compile vars v s := by
  have hkey : ∀ re, compileKey compile v s = some re ↔
      ∃ re', compile (keyPattern v rx) = some re' ∧ re = some re' := by
    intro re
    simp only [compileKey, hrx, Option.map_eq_some_iff]
    exact ⟨fun ⟨re', h, heq⟩ => ⟨re', h, heq.symm⟩, fun ⟨re', h, heq⟩ => ⟨re', h, heq.symm⟩⟩
  have htest : ∀ (re : Bytes → Bool) (key : Bytes),
      re (Strings.toLower key) = isRuleVariableException key false [⟨s, some re⟩] ↔
        (Strings.toLower key = Strings.toLower s → re (Strings.toLower key) = true) := by
    intro re key
    rw [exception_regex]
    cases re (Strings.toLower key) <;> simp
  constructor
  · intro h
    refine ⟨?_, fun hnone => absurd (hrx.symm.trans hnone) (by simp)⟩
    intro rx' re hrx' hre kv hkv
    cases hrx.symm.trans hrx'
    exact (htest re kv.key).mp (h (some re) ((hkey _).mpr ⟨re, hre, rfl⟩) kv hkv)
  · intro h re hre kv hkv
    obtain ⟨re', hre', rfl⟩ := (hkey re).mp hre
    exact (htest re' kv.key).mpr (h.1 rx re' hrx hre' kv hkv)

theorem tests_agree_plain {compile : Compile} (hrx : hasRegex s = none) :
    (∀ re, compileKey compile v s = some re → ∀ kv ∈ entriesOf vars v,
        (newRuleVariableParams v s re false).selector.picks (showsNames v) kv
          = isRuleVariableException kv.key false [⟨s, re⟩]) ↔
      SafeKey compile vars v s := by
  have hkey : compileKey compile v s = some none := by simp only [compileKey, hrx]
  simp only [hkey, Option.some.injEq, forall_eq', SafeKey, hrx, reduceCtorEq, false_implies,
    implies_true, true_and, true_implies]
  by_cases hs : s = []
  · subst hs
    refine iff_of_true (fun kv _ => ?_) (fun _ _ => .inl rfl)
    rw [show (newRuleVariableParams v [] none false).selector = .all from selector_all v []]
    rfl
  · simp only [selector_string v hs, exception_plain _ hs, hs, false_or]
    by_cases hnames : showsNames v = true
    · by_cases hcase : caseSensitiveVariable v = true
      · simp only [picks, hnames, hcase, if_true, true_implies, decide_eq_decide]
        constructor
        · intro h
          by_contra hcon
          push Not at hcon
          obtain ⟨hlower, kv, hkv, hkey⟩ := hcon
          exact hlower (hkey.symm.trans ((h kv hkv).mpr hkey))
        · rintro (h | h) kv hkv
          · rw [h]
          · refine ⟨fun hkey => ?_, fun hkey => absurd hkey (h kv hkv)⟩
            rw [← hkey, Strings.toLower_toLower]
      · refine iff_of_true (fun kv _ => ?_) (fun _ h => absurd h hcase)
        simp only [picks, hnames, if_true, if_neg hcase]
    · refine iff_of_true (fun kv _ => ?_) (fun h => absurd h hnames)
      have hkey : (if caseSensitiveVariable v = true then s else Strings.toLower s) ≠ [] := by
        split
        · exact hs
        · rwa [Ne, toLower_eq_nil]
      have hlower : Strings.toLower (if caseSensitiveVariable v = true then s
          else Strings.toLower s) = Strings.toLower s := by
        split
        · rfl
        · exact Strings.toLower_toLower s
      simp only [picks, hnames, Bool.false_eq_true, if_false, hkey, false_or, hlower]

/-- **When an exclusion takes away what the selection selects.** -/
theorem exclusion_exact_iff (vars : LoweredVariables)
    (v : {v : RuleVariable // canBeSelected v = true}) (s : Bytes) :
    ExclusionExact compile vars.toVariables v s ↔ SafeKey compile vars.toVariables v s := by
  rw [exclusionExact_iff_tests compile vars v.2]
  cases hrx : hasRegex s with
  | none => exact tests_agree_plain hrx
  | some rx => exact tests_agree_regex hrx

/-- `regexp.Compile` for the one expression `^b`. -/
def startsWithB : Compile := fun rx =>
  if rx = bytesOf "^b" then some (fun key => decide (key.head? = some 0x62)) else none

def oneArgument (key value : Bytes) : LoweredVariables :=
  LoweredVariables.new.modifyMap .argsGet (fun m => m.add key value) (fun _ hm => hm.add _ _)

/-- **`ARGS|!ARGS:/^b/` drops the argument called `/^b/`**, which does not start with a `b` and
which `ARGS:/^b/` does not select. -/
theorem exclusion_drops_too_much : hasRegex (bytesOf "/^b/") = some (bytesOf "^b") ∧
    ((parseTargets startsWithB [⟨false, false, .args, bytesOf "/^b/"⟩]).map (fun targets =>
      (lookup .stored (oneArgument (bytesOf "/^b/") (bytesOf "evil")).toVariables targets).map
        Match.key)) = some [] ∧
    ((parseTargets startsWithB
      [⟨false, false, .args, []⟩, ⟨true, false, .args, bytesOf "/^b/"⟩]).map (fun targets =>
        (lookup .stored (oneArgument (bytesOf "/^b/") (bytesOf "evil")).toVariables targets).map
          Match.key)) = some [] ∧
    ¬ExclusionExact startsWithB (oneArgument (bytesOf "/^b/") (bytesOf "evil")).toVariables .args
      (bytesOf "/^b/") := by
  have hrx : hasRegex (bytesOf "/^b/") = some (bytesOf "^b") := by decide +kernel
  refine ⟨hrx, by decide +kernel, by decide +kernel, fun h => ?_⟩
  have hcompile : compileKey startsWithB .args (bytesOf "/^b/")
      = some (some (fun key : Bytes => decide (key.head? = some 0x62))) := by
    simp only [compileKey, hrx, keyPattern, caseSensitiveVariable, if_true, startsWithB,
      Option.map_some]
  have htests := (exclusionExact_iff_tests startsWithB _ rfl _).mp h _ hcompile
    ⟨bytesOf "/^b/", bytesOf "evil"⟩ (by decide +kernel)
  revert htests
  decide +kernel

end Coraza.Waf
