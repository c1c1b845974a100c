import Coraza.Waf.Exclusions

/-!
# The names of a collection

`ARGS_NAMES` and its like are views of a collection that show the names of its entries.  When a
view is asked for a key it should give the names of the entries that the collection itself gives
for the key.  A collection lowers the key first, and its view does not.

`namesAgree_iff` says for which keys a view and its collection agree, for both interfaces of the
collections and for the targets of a rule.
-/

namespace Coraza.Waf

open Go Collections List Selector

/-- `NamedCollection`, in the default build. -/
structure NamedCollection where
  map : Map
  lowered : map.Lowered

/-- The view and the collection agree on a key. -/
structure NamesAgree (m : Map) (k : Bytes) : Prop where
  find : ∀ (v w : RuleVariable) (its its' : Nat → Iteration),
    (((View.mk v (.names m)).findString its k).map Match.value).Perm
      (((View.mk w (.map m)).findString its' k).map Match.key)
  append : ∀ (v w : RuleVariable) (grow : Nat → List Match) (its its' : Nat → Iteration)
    (buffer buffer' : Slice Match),
    (((View.mk v (.names m)).appendMatchesString grow its buffer.reset k).view.map
        Match.value).Perm
      (((View.mk w (.map m)).appendMatchesString grow its' buffer'.reset k).view.map Match.key)

/-- The keys on which a view and its collection agree: those that are lowered already, and those
that no entry has. -/
def KnownToNames (m : Map) (k : Bytes) : Prop :=
  if k = [] then ∀ kv ∈ m.pairs, kv.key = []
  else Strings.toLower k = k ∨ m.values (Strings.toLower k) = []

theorem entries_names (it : Iteration) (m : Map) (k : Bytes) :
    ((string k).entries it (.names m)).map KeyValue.value
      = (m.values k).map KeyValue.key := by
  simp only [entries, Keyed.appendMatchesString, map_map]
  rfl

theorem appendMatches_perm (it : Iteration) (m : Map) :
    ((Keyed.map m).appendMatches it).Perm m.pairs := by
  have hall : ((Keyed.map m).appendMatches .stored) = m.pairs := by
    simp only [Keyed.appendMatches, Map.range, Iteration.stored, id_eq, flatMap_map]
    refine flatMap_congr (fun e _ => ?_)
    exact map_id _
  rw [← hall]
  exact entries_perm it .stored (.map m) .all

theorem entries_agree_iff {m : Map} (hm : m.Lowered) (k : Bytes) (it it' : Iteration) :
    (((string k).entries it (.names m)).map KeyValue.value).Perm
        (((string k).entries it' (.map m)).map KeyValue.key) ↔ KnownToNames m k := by
  rw [entries_names]
  unfold KnownToNames
  by_cases hk : k = []
  · subst hk
    constructor
    · intro h kv hkv
      have hkey : kv.key ∈ (m.values []).map KeyValue.key := by
        rw [h.mem_iff]
        exact mem_map_of_mem ((appendMatches_perm it' m).mem_iff.mpr hkv)
      obtain ⟨kv', hkv', heq⟩ := List.mem_map.mp hkey
      rw [← heq]
      exact Strings.toLower_eq_nil.mp (hm.mem_values.mp hkv').2
    · intro h
      have hall : m.pairs.filter (fun kv => Strings.toLower kv.key = []) = m.pairs := by
        refine List.filter_eq_self.mpr (fun kv hkv => ?_)
        simpa using h kv hkv
      have hperm := hm.values_perm []
      rw [hall] at hperm
      exact (hperm.trans (appendMatches_perm it' m).symm).map _
  · have hentries : (string k).entries it' (.map m) = m.values (Strings.toLower k) := by
      simp only [entries, Keyed.appendMatchesString, if_neg hk, hm.fold_eq]
    rw [if_neg hk, hentries]
    by_cases hlower : Strings.toLower k = k
    · rw [hlower]
      exact ⟨fun _ => .inl rfl, fun _ => List.Perm.refl _⟩
    · have hnone : m.values k = [] := by
        by_contra hne
        exact hlower (hm.toLower_eq hne)
      rw [hnone]
      constructor
      · intro h
        exact .inr (List.map_eq_nil_iff.mp (List.nil_perm.mp h))
      · rintro (h | h)
        · exact absurd h hlower
        · rw [h]

theorem namesAgree_map_iff (c : NamedCollection) (k : Bytes) :
    NamesAgree c.map k ↔ KnownToNames c.map k := by
  constructor
  · intro h
    have hfind := h.find .argsNames .args (fun _ => .stored) (fun _ => .stored)
    obtain ⟨it, hit⟩ := View.find_eq (fun _ => .stored) ⟨.argsNames, .names c.map⟩ (.string k)
    obtain ⟨it', hit'⟩ := View.find_eq (fun _ => .stored) ⟨.args, .map c.map⟩ (.string k)
    simp only [View.find] at hit hit'
    rw [hit, hit', map_map, map_map] at hfind
    exact (entries_agree_iff c.lowered k it it').mp hfind
  · intro h
    constructor
    · intro v w its its'
      obtain ⟨it, hit⟩ := View.find_eq its ⟨v, .names c.map⟩ (.string k)
      obtain ⟨it', hit'⟩ := View.find_eq its' ⟨w, .map c.map⟩ (.string k)
      simp only [View.find] at hit hit'
      rw [hit, hit', map_map, map_map]
      exact (entries_agree_iff c.lowered k it it').mpr h
    · intro v w grow its its' buffer buffer'
      have hnames := View.view_append grow its ⟨v, .names c.map⟩ buffer.reset (.string k)
      have hmap := View.view_append grow its' ⟨w, .map c.map⟩ buffer'.reset (.string k)
      rw [Slice.view_reset, nil_append] at hnames hmap
      simp only [View.append] at hnames hmap
      rw [hnames, hmap, map_map, map_map]
      exact (entries_agree_iff c.lowered k (its 0) (its' 0)).mpr h

/-! ### Targets -/

/-- The variables that are views of names. -/
inductive NamesVariable where
  | args | argsGet | argsPost | requestHeaders | responseHeaders | requestCookies | matchedVars

namespace NamesVariable

def names : NamesVariable → RuleVariable
  | args => .argsNames
  | argsGet => .argsGetNames
  | argsPost => .argsPostNames
  | requestHeaders => .requestHeadersNames
  | responseHeaders => .responseHeadersNames
  | requestCookies => .requestCookiesNames
  | matchedVars => .matchedVarsNames

def base : NamesVariable → RuleVariable
  | args => .args
  | argsGet => .argsGet
  | argsPost => .argsPost
  | requestHeaders => .requestHeaders
  | responseHeaders => .responseHeaders
  | requestCookies => .requestCookies
  | matchedVars => .matchedVars

def maps (vars : Variables) : NamesVariable → List Map
  | args => [vars.map .argsGet, vars.map .argsPost, vars.map .argsPath]
  | n => [vars.map n.base]

end NamesVariable

variable (its : Nat → Iteration)

theorem getField_perm_select (it : Iteration) {vars : Variables}
    {v : RuleVariable} {col : Collection} (hcol : vars.collection v = some col) (k : Bytes)
    (re : Option (Bytes → Bool)) :
    (getField its vars (newRuleVariableParams v k re false)).Perm
      ((selectMatches it col (newRuleVariableParams v k re false)).map (tag v.shown)) := by
  have hfield := getFieldPerm_getFieldMatches its it vars (newRuleVariableParams v k re false)
  have heq : getFieldMatches it vars (newRuleVariableParams v k re false)
      = (selectMatches it col (newRuleVariableParams v k re false)).map (tag v.shown) := by
    simp only [getFieldMatches, newRuleVariableParams, hcol]
    rfl
  rwa [heq] at hfield

theorem getField_parts (it : Iteration) {vars : Variables} {v : RuleVariable} {parts : List Keyed}
    (hcol : vars.collection v = some (.concat parts) ∨
      ∃ c, parts = [c] ∧ vars.collection v = some (.keyed c)) (k : Bytes) :
    (getField its vars (newRuleVariableParams v k none false)).Perm
      ((parts.flatMap ((newRuleVariableParams v k none false).selector.entries it)).map
        (tag v.shown)) := by
  rcases hcol with hcol | ⟨c, rfl, hcol⟩
  · have hselect := getField_perm_select its it hcol k none
    rwa [selectMatches_concat] at hselect
  · have hselect := getField_perm_select its it hcol k none
    rw [flatMap_singleton]
    rwa [selectMatches_keyed] at hselect

theorem getField_names (it : Iteration) (vars : Variables) (n : NamesVariable) (k : Bytes) :
    ((getField its vars (newRuleVariableParams n.names k none false)).map Match.value).Perm
      ((n.maps vars).flatMap (fun m =>
        ((newRuleVariableParams n.names k none false).selector.entries it (.names m)).map
          KeyValue.value)) := by
  have hcol : vars.collection n.names = some (.concat ((n.maps vars).map .names)) ∨
      ∃ c, (n.maps vars).map Keyed.names = [c] ∧
        vars.collection n.names = some (.keyed c) := by
    cases n with
    | args => exact .inl rfl
    | _ => exact .inr ⟨_, rfl, rfl⟩
  have hfield := (getField_parts its it hcol k).map Match.value
  rw [map_map, flatMap_map] at hfield
  rw [← map_flatMap]
  exact hfield

theorem getField_base (it : Iteration) (vars : Variables) (n : NamesVariable) (k : Bytes) :
    ((getField its vars (newRuleVariableParams n.base k none false)).map Match.key).Perm
      ((n.maps vars).flatMap (fun m =>
        ((newRuleVariableParams n.base k none false).selector.entries it (.map m)).map
          KeyValue.key)) := by
  have hcol : vars.collection n.base = some (.concat ((n.maps vars).map .map)) ∨
      ∃ c, (n.maps vars).map Keyed.map = [c] ∧ vars.collection n.base = some (.keyed c) := by
    cases n with
    | args => exact .inl rfl
    | _ => exact .inr ⟨_, rfl, rfl⟩
  have hfield := (getField_parts its it hcol k).map Match.key
  rw [map_map, flatMap_map] at hfield
  rw [← map_flatMap]
  exact hfield

def TargetsAgree (vars : Variables) (n : NamesVariable) (k : Bytes) : Prop :=
  ∀ its its' : Nat → Iteration,
    ((getField its vars (newRuleVariableParams n.names k none false)).map Match.value).Perm
      ((getField its' vars (newRuleVariableParams n.base k none false)).map Match.key)

/-- The keys on which the targets agree: the key of a target is lowered, unless the variable is
one of the arguments. -/
def KnownToTargets (vars : Variables) (n : NamesVariable) (k : Bytes) : Prop :=
  caseSensitiveVariable n.names = true →
    k = [] ∨ Strings.toLower k = k ∨ ∀ m ∈ n.maps vars, m.values (Strings.toLower k) = []

theorem caseSensitiveVariable_names (n : NamesVariable) :
    caseSensitiveVariable n.base = caseSensitiveVariable n.names := by
  cases n <;> rfl

theorem targetsAgree_iff_perm (vars : Variables) (n : NamesVariable) (k : Bytes) :
    TargetsAgree vars n k ↔
      ((n.maps vars).flatMap (fun m =>
        ((newRuleVariableParams n.names k none false).selector.entries .stored (.names m)).map
          KeyValue.value)).Perm
      ((n.maps vars).flatMap (fun m =>
        ((newRuleVariableParams n.base k none false).selector.entries .stored (.map m)).map
          KeyValue.key)) := by
  constructor
  · intro h
    exact ((getField_names (fun _ => .stored) .stored vars n k).symm.trans (h _ _)).trans
      (getField_base (fun _ => .stored) .stored vars n k)
  · intro h its its'
    exact ((getField_names its .stored vars n k).trans h).trans
      (getField_base its' .stored vars n k).symm

theorem lowered_of_mem_maps (vars : LoweredVariables) {n : NamesVariable} {m : Map}
    (h : m ∈ n.maps vars.toVariables) : m.Lowered := by
  cases n with
  | args =>
    simp only [NamesVariable.maps, mem_cons, not_mem_nil, or_false] at h
    rcases h with rfl | rfl | rfl <;> exact vars.lowered _
  | _ =>
    rw [List.mem_singleton.mp h]
    exact vars.lowered _

theorem targetsAgree_iff (vars : LoweredVariables) (n : NamesVariable) (k : Bytes) :
    TargetsAgree vars.toVariables n k ↔ KnownToTargets vars.toVariables n k := by
  rw [targetsAgree_iff_perm]
  unfold KnownToTargets
  by_cases hk : k = []
  · subst hk
    refine iff_of_true ?_ (fun _ => .inl rfl)
    have hselector : ∀ v, (newRuleVariableParams v [] none false).selector = .all :=
      fun v => selector_all v []
    rw [hselector, hselector]
    refine List.Perm.of_eq (flatMap_congr (fun m _ => ?_))
    simp only [entries, Keyed.appendMatches, map_flatMap, map_map]
    rfl
  · rw [selector_string _ hk, selector_string _ hk, caseSensitiveVariable_names]
    have hnames : ∀ (key : Bytes) (m : Map),
        ((string key).entries .stored (.names m)).map KeyValue.value
          = (m.values key).map KeyValue.key := fun key m => entries_names .stored m key
    have hbase : ∀ key : Bytes, key ≠ [] → ∀ m ∈ n.maps vars.toVariables,
        ((string key).entries .stored (.map m)).map KeyValue.key
          = (m.values (Strings.toLower key)).map KeyValue.key := by
      intro key hkey m hm
      simp only [entries, Keyed.appendMatchesString, if_neg hkey,
        (lowered_of_mem_maps vars hm).fold_eq]
    simp only [hnames]
    by_cases hcase : caseSensitiveVariable n.names = true
    · rw [if_pos hcase, flatMap_congr (hbase k hk)]
      by_cases hlower : Strings.toLower k = k
      · rw [hlower]
        exact iff_of_true (List.Perm.refl _) (fun _ => .inr (.inl rfl))
      · have hnone : (n.maps vars.toVariables).flatMap
            (fun m => (m.values k).map KeyValue.key) = [] := by
          refine List.flatMap_eq_nil_iff.mpr (fun m hm => List.map_eq_nil_iff.mpr ?_)
          by_contra hne
          exact hlower ((lowered_of_mem_maps vars hm).toLower_eq hne)
        rw [hnone, nil_perm, flatMap_eq_nil_iff]
        simp only [map_eq_nil_iff]
        constructor
        · intro h _
          exact .inr (.inr h)
        · intro h
          rcases h hcase with h | h | h
          · exact absurd h hk
          · exact absurd h hlower
          · exact h
    · have hne : Strings.toLower k ≠ [] := by rwa [Ne, Strings.toLower_eq_nil]
      rw [if_neg hcase, flatMap_congr (hbase _ hne), Strings.toLower_toLower]
      exact iff_of_true (List.Perm.refl _) (fun h => absurd h hcase)

/-- **When names views agree with their collections.**  A view and its collection agree on a key
that is lowered or that no entry has; for the empty key the collection gives everything, and the
view the entries without a name.  Targets agree on the empty key, and on all keys of variables
that are not arguments. -/
theorem namesAgree_iff (k : Bytes) :
    (∀ c : NamedCollection, NamesAgree c.map k ↔ KnownToNames c.map k) ∧
      ∀ (vars : LoweredVariables) (n : NamesVariable),
        TargetsAgree vars.toVariables n k ↔ KnownToTargets vars.toVariables n k :=
  ⟨fun c => namesAgree_map_iff c k, fun vars n => targetsAgree_iff vars n k⟩

/-- **`ARGS:Foo` selects the argument, and `ARGS_NAMES:Foo` nothing.** -/
theorem names_miss_foo :
    (getField (fun _ => .stored) (oneArgument (bytesOf "Foo") (bytesOf "1")).toVariables
        (newRuleVariableParams .args (bytesOf "Foo") none false)).map Match.key
      = [bytesOf "Foo"] ∧
    (getField (fun _ => .stored) (oneArgument (bytesOf "Foo") (bytesOf "1")).toVariables
        (newRuleVariableParams .argsNames (bytesOf "Foo") none false)).map Match.value = [] ∧
    ¬TargetsAgree (oneArgument (bytesOf "Foo") (bytesOf "1")).toVariables .args (bytesOf "Foo") ∧
    ¬NamesAgree ((oneArgument (bytesOf "Foo") (bytesOf "1")).map .argsGet) (bytesOf "Foo") := by
  have hargs : (getField (fun _ => .stored) (oneArgument (bytesOf "Foo") (bytesOf "1")).toVariables
      (newRuleVariableParams .args (bytesOf "Foo") none false)).map Match.key
        = [bytesOf "Foo"] := by decide +kernel
  have hnames : (getField (fun _ => .stored) (oneArgument (bytesOf "Foo") (bytesOf "1")).toVariables
      (newRuleVariableParams .argsNames (bytesOf "Foo") none false)).map Match.value = [] := by
    decide +kernel
  refine ⟨hargs, hnames, fun h => ?_, fun h => ?_⟩
  · have hperm := h (fun _ => .stored) (fun _ => .stored)
    simp only [NamesVariable.names, NamesVariable.base, hargs, hnames] at hperm
    exact absurd (List.nil_perm.mp hperm) (cons_ne_nil _ _)
  · have hperm := h.find .argsGetNames .argsGet (fun _ => .stored) (fun _ => .stored)
    have hlength := hperm.length_eq
    revert hlength
    decide +kernel

end Coraza.Waf
