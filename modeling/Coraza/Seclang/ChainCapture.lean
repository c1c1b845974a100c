import Coraza.Seclang.RuleTrace

/-!
# Chains with a member that fails

With `SecIgnoreRuleCompilationErrors` a `SecRule` that fails is skipped.  If it should have been a
member of a chain, then the chain must not wait any longer: the next rule is not a part of it.
`ParseRule` takes the chain out of the group if the member has a disruptive action, but all other
errors come before it looks for an open chain.

`chains_intact_iff` says that the chains are what was written, after each directive of a
configuration, if and only if no rule fails to compile while a chain is open.
-/

namespace Coraza.Seclang

open Go Waf Lists List

/-! ### Chains as they were written -/

def isRuleAt (ds : List Directive) (i : Nat) : Bool := ds[i]?.any (fun d => d.ruleText.isSome)

/-- The rule at `i` is written in the chain that starts at `start`: all directives before it, from
`start` on, are rules with `chain`. -/
def WrittenMember (ds : List Directive) (start i : Nat) : Prop :=
  start < i ∧ (∀ k, start ≤ k → k < i → carries ds k = true) ∧ isRuleAt ds i = true

/-- No chain has a member that was written outside it, and none is kept of which a member failed. -/
structure Intact (ds : List Directive) (t : Traced) : Prop where
  member : ∀ l ∈ t.origins, ∀ i ∈ l.tail, WrittenMember ds (l.headD 0) i
  complete : ∀ l ∈ t.origins, ∀ i, WrittenMember ds (l.headD 0) i → i ∉ t.failed

/-- What carries the induction: the chains have all their members, and an open chain ends with the
directive that was read last. -/
structure AsWritten (ds : List Directive) (t : Traced) : Prop where
  member : ∀ l ∈ t.origins, ∀ i ∈ l.tail, WrittenMember ds (l.headD 0) i
  complete : ∀ l ∈ t.origins, ∀ i, WrittenMember ds (l.headD 0) i → i ∈ l
  opened : (getLastRuleExpectingChain t.state.rules).isSome = true →
    ∃ m, t.origins.flatten.getLast? = some m ∧ m + 1 = ds.length

variable {disabled : List String} {ds : List Directive} {t : Traced} {i start : Nat} {d : Directive}

theorem AsWritten.intact (ha : Aligned disabled ds t) (h : AsWritten ds t) : Intact ds t where
  member := h.member
  complete := fun l hl i hi => ha.kept i (List.mem_flatten.mpr ⟨l, hl, h.complete l hl i hi⟩)

def ChainAsWritten (ds : List Directive) (l : List Nat) : Prop :=
  (∀ i ∈ l.tail, WrittenMember ds (l.headD 0) i) ∧ ∀ i, WrittenMember ds (l.headD 0) i → i ∈ l

theorem isRuleAt_of_carries (h : carries ds i = true) : isRuleAt ds i = true := by
  unfold carries at h
  unfold isRuleAt
  cases hd : ds[i]? with
  | none =>
    rw [hd] at h
    cases h
  | some d =>
    rw [hd] at h
    have hwrites : d.writesChain = true := h
    show d.ruleText.isSome = true
    unfold Directive.writesChain at hwrites
    cases htext : d.ruleText with
    | none =>
      rw [htext] at hwrites
      cases hwrites
    | some text => rfl

theorem writtenMember_append (d : Directive) (hi : i < ds.length) :
    WrittenMember (ds ++ [d]) start i ↔ WrittenMember ds start i := by
  have hrule : isRuleAt (ds ++ [d]) i = isRuleAt ds i := by
    unfold isRuleAt
    rw [List.getElem?_append_left hi]
  unfold WrittenMember
  rw [hrule]
  refine and_congr_right (fun _ => and_congr_left (fun _ => ?_))
  refine forall₃_congr (fun k _ hk => ?_)
  rw [carries_append ds d (by omega)]

theorem writtenMember_length : WrittenMember (ds ++ [d]) start ds.length ↔ start < ds.length ∧
      (∀ k, start ≤ k → k < ds.length → carries ds k = true) ∧ d.ruleText.isSome = true := by
  have hrule : isRuleAt (ds ++ [d]) ds.length = d.ruleText.isSome := by
    unfold isRuleAt
    rw [List.getElem?_concat_length]
    rfl
  unfold WrittenMember
  rw [hrule]
  refine and_congr_right (fun _ => and_congr_left (fun _ => ?_))
  refine forall₃_congr (fun k _ hk => ?_)
  rw [carries_append ds d hk]

theorem WrittenMember.lt_length (h : WrittenMember ds start i) : i < ds.length := by
  by_contra hge
  have hrule := h.2.2
  unfold isRuleAt at hrule
  rw [List.getElem?_eq_none (Nat.le_of_not_lt hge)] at hrule
  cases hrule

variable {l : List Nat}

theorem Matches.lastRule {c : RuleChain} (h : Matches ds c l) :
    ∃ l' m, l = l' ++ [m] ∧ (c.members.getLast?.getD c.starter).hasChain = carries ds m := by
  have hlast : (c.starter :: c.members).getLast? = some (c.members.getLast?.getD c.starter) := by
    rw [List.getLast?_cons]
  unfold Matches at h
  rw [← dropLast_append_getLast? _ hlast] at h
  obtain ⟨l', m, hl, -, hm⟩ := exists_of_forall₂_concat h
  exact ⟨l', m, hl, hm⟩

theorem getLast?_of_sorted {m : Nat} (hsorted : l.Pairwise (· < ·)) (hm : m ∈ l)
    (hle : ∀ i ∈ l, i ≤ m) : ∃ l', l = l' ++ [m] := by
  rcases eq_nil_or_concat l with rfl | ⟨l', k, rfl⟩
  · cases hm
  · rw [concat_eq_append] at *
    have hk := hle k (mem_append_right _ (mem_singleton_self k))
    rcases List.mem_append.mp hm with hmem | hmem
    · have hlt := (List.pairwise_append.mp hsorted).2.2 m hmem k (mem_singleton_self k)
      omega
    · rw [List.mem_singleton.mp hmem]
      exact ⟨l', rfl⟩

section

variable (ha : Aligned disabled ds t)
include ha

theorem Aligned.exists_cons (hl : l ∈ t.origins) : ∃ i l', l = i :: l' := by
  obtain ⟨c, -, hc⟩ := exists_of_mem_right ha.matched hl
  cases hc with
  | cons _ _ => exact ⟨_, _, rfl⟩

variable (h : AsWritten ds t)
include h

/-- If the next rule is written in a chain of the group, then the chain is the one that is open. -/
theorem recent_of_carries (hl : l ∈ t.origins)
    (hcarries : ∀ k, l.headD 0 ≤ k → k < ds.length → carries ds k = true) :
    ds.length - 1 ∈ l ∧ (getLastRuleExpectingChain t.state.rules).isSome = true := by
  have hhead : l.headD 0 ∈ l := by
    obtain ⟨j, l, rfl⟩ := ha.exists_cons hl
    exact mem_cons_self ..
  have hlt := ha.bound _ (mem_append_left _ (List.mem_flatten.mpr ⟨l, hl, hhead⟩))
  have hlast : carries ds (ds.length - 1) = true := hcarries _ (by omega) (by omega)
  have hmem : ds.length - 1 ∈ l := by
    by_cases heq : l.headD 0 = ds.length - 1
    · rw [← heq]
      exact hhead
    · refine h.complete l hl _ ⟨by omega, fun k hk hk' => hcarries k hk (by omega), ?_⟩
      exact isRuleAt_of_carries hlast
  refine ⟨hmem, ?_⟩
  -- The last position of all is that of the last rule of the group.
  obtain ⟨first, hfirst⟩ := getLast?_of_sorted ha.sorted (List.mem_flatten.mpr ⟨l, hl, hmem⟩)
    (fun i hi => Nat.le_sub_one_of_lt (ha.bound i (mem_append_left _ hi)))
  obtain ⟨os, l₁, hos⟩ : ∃ os l₁, t.origins = os ++ [l₁] := by
    rcases eq_nil_or_concat t.origins with hnil | ⟨os, l₁, hos⟩
    · rw [hnil] at hl
      cases hl
    · exact ⟨os, l₁, by rw [hos, concat_eq_append]⟩
  have hmatched := ha.matched.flip
  rw [hos] at hmatched
  obtain ⟨rg, c, hrg, -, hc⟩ := exists_of_forall₂_concat hmatched
  obtain ⟨l', m, rfl, hm⟩ := Matches.lastRule hc
  have hm' : m = ds.length - 1 := by
    rw [hos, flatten_append, flatten_singleton, ← append_assoc] at hfirst
    exact (List.cons.inj (append_inj' hfirst rfl).2).1
  unfold getLastRuleExpectingChain
  rw [hrg, List.getLast?_concat]
  dsimp only
  rw [hm, hm', if_pos hlast]
  rfl

/-- The next rule is written in the chain that is open. -/
theorem carries_of_expecting {parent : RuleChain}
    (hparent : getLastRuleExpectingChain t.state.rules = some parent) :
    ∃ os l, t.origins = os ++ [l ++ [ds.length - 1]] ∧ l ++ [ds.length - 1] ∈ t.origins ∧
      (l ++ [ds.length - 1]).headD 0 < ds.length ∧
      ∀ k, (l ++ [ds.length - 1]).headD 0 ≤ k → k < ds.length → carries ds k = true := by
  obtain ⟨rg, os, l₁, hrg, hos, -, hmatches⟩ := ha.expecting hparent
  obtain ⟨l, m, rfl, hm⟩ := Matches.lastRule hmatches
  obtain ⟨m', hlast, hlen⟩ := h.opened (by rw [hparent]; rfl)
  have hmm : m = m' := by
    rw [hos, flatten_append, flatten_singleton, ← append_assoc, List.getLast?_concat] at hlast
    exact Option.some.inj hlast
  have hmlen : m = ds.length - 1 := by omega
  have hopen : carries ds m = true := by
    rw [← hm]
    exact (of_getLastRuleExpectingChain hparent).2
  have hmem : l ++ [m] ∈ t.origins := hos ▸ mem_append_right _ (mem_singleton_self _)
  rw [← hmlen]
  refine ⟨os, l, hos, hmem, ?_, fun k hk hk' => ?_⟩
  · refine ha.bound _ (mem_append_left _ (List.mem_flatten.mpr ⟨_, hmem, ?_⟩))
    cases l <;> exact mem_cons_self ..
  by_cases hkm : k = m
  · rw [hkm]
    exact hopen
  · cases l with
    | nil =>
      have hk : m ≤ k := hk
      omega
    | cons j l =>
      have hwritten := h.member ((j :: l) ++ [m]) hmem m (by simp)
      exact hwritten.2.1 k hk (by omega)

omit ha in
theorem AsWritten.member_append (d : Directive) (hl : l ∈ t.origins) :
    ∀ i ∈ l.tail, WrittenMember (ds ++ [d]) (l.headD 0) i := by
  intro i hi
  have hwritten := h.member l hl i hi
  exact (writtenMember_append d hwritten.lt_length).mpr hwritten

/-- A chain has the members that come before; the new directive is the only other one. -/
theorem AsWritten.complete_append (hl : l ∈ t.origins)
    (hi : WrittenMember (ds ++ [d]) (l.headD 0) i) :
    i ∈ l ∨ i = ds.length ∧ d.ruleText.isSome = true ∧ ds.length - 1 ∈ l ∧
      (getLastRuleExpectingChain t.state.rules).isSome = true := by
  have hlt := hi.lt_length
  rw [length_append, length_singleton] at hlt
  by_cases heq : i = ds.length
  · rw [heq, writtenMember_length] at hi
    exact .inr ⟨heq, hi.2.2, recent_of_carries ha h hl hi.2.1⟩
  · exact .inl (h.complete l hl i ((writtenMember_append d (by omega)).mp hi))

/-- A chain that the new directive does not continue stays as it was written. -/
theorem AsWritten.chain_append (hl : l ∈ t.origins)
    (hends : d.ruleText.isSome = true → ds.length - 1 ∈ l →
      (getLastRuleExpectingChain t.state.rules).isSome ≠ true) :
    ChainAsWritten (ds ++ [d]) l := by
  refine ⟨h.member_append d hl, fun i hi => ?_⟩
  rcases h.complete_append ha hl hi with hi | ⟨-, hrule, hrecent, hopen⟩
  · exact hi
  · exact absurd hopen (hends hrule hrecent)

theorem AsWritten.earlier_append (d : Directive) {os : List (List Nat)} {l₁ : List Nat}
    (hos : t.origins = os ++ [l₁ ++ [ds.length - 1]]) (hl : l ∈ os) :
    ChainAsWritten (ds ++ [d]) l := by
  refine h.chain_append ha (hos ▸ mem_append_left _ hl) (fun _ hmem _ => ?_)
  have hsorted := ha.sorted
  rw [hos, flatten_append, flatten_singleton, pairwise_append] at hsorted
  exact Nat.lt_irrefl _ (hsorted.2.2 _ (List.mem_flatten.mpr ⟨l, hl, hmem⟩) _
    (mem_append_right _ (mem_singleton_self _)))

theorem AsWritten.linked_append (hl : l ∈ t.origins)
    (hwritten : WrittenMember (ds ++ [d]) (l.headD 0) ds.length) :
    ChainAsWritten (ds ++ [d]) (l ++ [ds.length]) := by
  obtain ⟨j, l, rfl⟩ := ha.exists_cons hl
  refine ⟨fun i hi => ?_, fun i hi => ?_⟩
  · rcases List.mem_append.mp hi with hi | hi
    · exact h.member_append d hl i hi
    · rw [List.mem_singleton.mp hi]
      exact hwritten
  · rcases h.complete_append ha hl hi with hi | ⟨hi, -⟩
    · exact mem_append_left _ hi
    · exact mem_append_right _ (List.mem_singleton.mpr hi)

end

/-- A `SecRule` that does not compile comes where no chain is open. -/
def FailsAlone (s : ParserState) : Directive → Prop
  | .secRule targets operator actions =>
    compileRule s.config (.withOperator targets operator actions) = none →
      getLastRuleExpectingChain s.rules = none
  | _ => True

theorem step_compiled {t' : Traced} (hd : FailsAlone t.state d) (hstep : t.step d = some t')
    {text : RuleText} (htext : d.ruleText = some text)
    (hnone : compileRule t.state.config text = none) :
    getLastRuleExpectingChain t.state.rules = none := by
  cases d with
  | secRule targets operator actions =>
    cases htext
    exact hd hnone
  | secAction actions =>
    cases htext
    obtain ⟨state, hstate, -⟩ := Option.map_eq_some_iff.mp hstep
    simp only [ParserState.directive, parseRule, hnone] at hstate
    cases hstate
  | secMarker label => cases htext
  | secDefaultAction actions => cases htext
  | secIgnoreRuleCompilationErrors value => cases htext

theorem asWritten_step {t' : Traced} (ha : Aligned disabled ds t) (h : AsWritten ds t)
    (hplain : d.isPlain = true) (hd : FailsAlone t.state d) (hstep : t.step d = some t') :
    AsWritten (ds ++ [d]) t' := by
  obtain ⟨-, -, hchange⟩ := step_change ha.config hplain hstep
  have hlength : (ds ++ [d]).length = ds.length + 1 := by
    rw [length_append, length_singleton]
  have hwritten : (∀ l ∈ t'.origins, ChainAsWritten (ds ++ [d]) l) →
      ((getLastRuleExpectingChain t'.state.rules).isSome = true →
        ∃ m, t'.origins.flatten.getLast? = some m ∧ m + 1 = (ds ++ [d]).length) →
      AsWritten (ds ++ [d]) t' :=
    fun hchains hopened => ⟨fun l hl => (hchains l hl).1, fun l hl => (hchains l hl).2, hopened⟩
  cases hchange with
  | failed hsome hwhy hrules horigins hfailed =>
    obtain ⟨text, htext⟩ := Option.isSome_iff_exists.mp hsome
    have hnone : getLastRuleExpectingChain t.state.rules = none :=
      (hwhy text htext).elim (step_compiled hd hstep htext) id
    refine hwritten (fun l hl => ?_) ?_
    · rw [horigins] at hl
      refine h.chain_append ha hl (fun _ _ => ?_)
      rw [hnone]
      exact nofun
    · rw [hrules, hnone]
      exact nofun
  | @discarded parent _ hparent hrules horigins _ =>
    obtain ⟨os, l₁, hos, -⟩ := carries_of_expecting ha h hparent
    have hrg := (of_getLastRuleExpectingChain hparent).1
    rw [hos, dropLast_concat] at horigins
    refine hwritten (fun l hl => ?_) ?_
    · rw [horigins] at hl
      exact h.earlier_append ha d hos hl
    · have hdrop : t'.state.rules = t.state.rules.dropLast := by
        rw [hrules]
        conv_lhs => rw [← hrg]
        exact RuleGroup.discardPendingChain_concat _ (ha.starter_hasChain hparent)
      rw [hdrop, ha.settled _ parent [] hrg.symm (ha.starter_hasChain hparent)]
      exact nofun
  | @linked parent rule hsome hparent _ _ horigins _ =>
    obtain ⟨os, l₁, hos, hlast, hlt, hcarries⟩ := carries_of_expecting ha h hparent
    rw [ha.read, hos, dropLast_concat, List.getLast?_concat, Option.getD_some] at horigins
    refine hwritten (fun l hl => ?_) (fun _ => ⟨ds.length, ?_, hlength.symm⟩)
    · rw [horigins] at hl
      rcases List.mem_append.mp hl with hl | hl
      · exact h.earlier_append ha d hos hl
      · rw [List.mem_singleton.mp hl]
        exact h.linked_append ha hlast (writtenMember_length.mpr ⟨hlt, hcarries, hsome⟩)
    · rw [horigins, flatten_append, flatten_singleton, ← append_assoc,
        List.getLast?_concat]
  | @added rule hnone _ _ horigins _ =>
    rw [ha.read] at horigins
    refine hwritten (fun l hl => ?_) (fun _ => ⟨ds.length, ?_, hlength.symm⟩)
    · rw [horigins] at hl
      rcases List.mem_append.mp hl with hl | hl
      · refine h.chain_append ha hl (fun hrule _ hopen => ?_)
        rcases hnone with hnone | hnone
        · rw [hnone] at hrule
          cases hrule
        · rw [hnone] at hopen
          cases hopen
      · rw [List.mem_singleton.mp hl]
        refine ⟨fun i hi => (nomatch hi), fun i hi => ?_⟩
        have hlt := hi.lt_length
        have hstart : ds.length < i := hi.1
        omega
    · rw [horigins, flatten_append, flatten_singleton, List.getLast?_concat]

/-! ### Configurations -/

theorem aligned_nil (disabled : List String) :
    Aligned disabled [] ⟨.relaxed disabled, [], [], 0⟩ where
  read := rfl
  config := rfl
  matched := .nil
  sorted := List.Pairwise.nil
  bound := fun _ hi => absurd hi not_mem_nil
  kept := fun _ hi => absurd hi not_mem_nil
  starter := fun _ hc => absurd hc not_mem_nil
  settled := fun _ _ _ hsplit => absurd hsplit.symm (append_ne_nil_of_right_ne_nil _ (by simp))

theorem asWritten_nil (disabled : List String) : AsWritten [] ⟨.relaxed disabled, [], [], 0⟩ where
  member := fun _ hl => absurd hl not_mem_nil
  complete := fun _ hl => absurd hl not_mem_nil
  opened := fun h => nomatch h

def AlwaysIntact (disabled : List String) (ds : List Directive) : Prop :=
  ∀ pre, pre <+: ds → ∀ t, trace disabled pre = some t → Intact pre t

def AlwaysAlone (disabled : List String) (ds : List Directive) : Prop :=
  ∀ pre d, pre ++ [d] <+: ds → ∀ t, trace disabled pre = some t → FailsAlone t.state d

theorem alwaysAlone_concat : AlwaysAlone disabled (ds ++ [d]) ↔
      AlwaysAlone disabled ds ∧ ∀ t, trace disabled ds = some t → FailsAlone t.state d := by
  constructor
  · intro h
    refine ⟨fun pre d' hpre => h pre d' (hpre.trans (prefix_append _ _)), ?_⟩
    exact h ds d (prefix_refl _)
  · rintro ⟨h, hd⟩ pre d' hpre
    rcases List.prefix_concat_iff.mp hpre with heq | hpre
    · obtain ⟨rfl, hd'⟩ := append_inj' heq rfl
      cases hd'
      exact hd
    · exact h pre d' hpre

theorem asWritten_of_alone : ∀ {ds : List Directive} {t : Traced},
    (∀ d ∈ ds, d.isPlain = true) → AlwaysAlone disabled ds → trace disabled ds = some t →
      Aligned disabled ds t ∧ AsWritten ds t := by
  intro ds
  induction ds using List.reverseRecOn with
  | nil =>
    intro t _ _ ht
    cases ht
    exact ⟨aligned_nil disabled, asWritten_nil disabled⟩
  | append_singleton ds d ih =>
    intro t hplain halone ht
    rw [trace_concat] at ht
    obtain ⟨t₀, ht₀, hstep⟩ := Option.bind_eq_some_iff.mp ht
    obtain ⟨halone₀, hd⟩ := alwaysAlone_concat.mp halone
    have hd' := hplain d (mem_append_right _ (mem_singleton_self d))
    obtain ⟨ha, h⟩ := ih (fun d hd => hplain d (mem_append_left _ hd)) halone₀ ht₀
    exact ⟨aligned_step ha hd' hstep, asWritten_step ha h hd' (hd t₀ ht₀) hstep⟩

/-- A rule that fails while a chain is open leaves the chain without it. -/
theorem failsAlone_of_intact (ha : Aligned disabled ds t) (h : AsWritten ds t)
    (hintact : ∀ t', t.step d = some t' → Intact (ds ++ [d]) t') : FailsAlone t.state d := by
  cases d with
  | secRule targets operator actions =>
    intro hnone
    cases hparent : getLastRuleExpectingChain t.state.rules with
    | none => rfl
    | some parent =>
      have hdirective : t.state.directive (.secRule targets operator actions) = some t.state := by
        simp only [ParserState.directive, parseRule, hnone]
        exact if_pos (.inr (by rw [ha.config]))
      have hstep : t.step (.secRule targets operator actions)
          = some ⟨t.state, t.origins, t.failed ++ [t.read], t.read + 1⟩ := by
        simp only [Traced.step, hdirective, outcome, hnone, Option.map_some, Traced.afterRule]
      obtain ⟨os, l, hos, hlast, hlt, hcarries⟩ := carries_of_expecting ha h hparent
      refine absurd ?_ ((hintact _ hstep).complete _ hlast ds.length
        (writtenMember_length.mpr ⟨hlt, hcarries, rfl⟩))
      rw [ha.read]
      exact mem_append_right _ (mem_singleton_self _)
  | secAction actions => trivial
  | secMarker label => trivial
  | secDefaultAction actions => trivial
  | secIgnoreRuleCompilationErrors value => trivial

/-- **Failed members.**  In a sequence of `SecRule`, `SecAction` and `SecMarker` under
`SecIgnoreRuleCompilationErrors On`, after each directive the chains of the group have only members
that were written in them, and no chain is left of which a member failed, if and only if no
`SecRule` fails to compile where a chain is open.  A member with a disruptive action compiles: it is
refused afterwards, together with its chain. -/
theorem chains_intact_iff {disabled : List String} {ds : List Directive}
    (hplain : ∀ d ∈ ds, d.isPlain = true) :
    AlwaysIntact disabled ds ↔ AlwaysAlone disabled ds := by
  constructor
  · intro hintact
    induction ds using List.reverseRecOn with
    | nil =>
      intro pre d hpre
      exact absurd (List.prefix_nil.mp hpre) (append_ne_nil_of_right_ne_nil _ (by simp))
    | append_singleton ds d ih =>
      have hplain₀ : ∀ d ∈ ds, d.isPlain = true :=
        fun d hd => hplain d (mem_append_left _ hd)
      have halone := ih hplain₀ (fun pre hpre => hintact pre (hpre.trans (prefix_append _ _)))
      refine alwaysAlone_concat.mpr ⟨halone, fun t ht => ?_⟩
      obtain ⟨ha, h⟩ := asWritten_of_alone hplain₀ halone ht
      refine failsAlone_of_intact ha h (fun t' hstep => ?_)
      refine hintact (ds ++ [d]) (prefix_refl _) t' ?_
      rw [trace_concat, ht]
      exact hstep
  · intro halone pre hpre t ht
    obtain ⟨ha, h⟩ := asWritten_of_alone (fun d hd => hplain d (hpre.subset hd))
      (fun pre' d hpre' => halone pre' d (hpre'.trans hpre)) ht
    exact h.intact ha

/-- A chain with one member, and a rule after it. -/
theorem chains_intact_iff_member : AlwaysIntact []
    [.secAction (some [.id 1, .phase 1, .chain]), .secAction (some [.nolog]),
      .secAction (some [.id 2, .phase 1, .nolog])] := by
  refine (chains_intact_iff (by decide)).mpr (fun pre d hpre t _ => ?_)
  have hd := hpre.subset (mem_append_right pre (mem_singleton_self d))
  simp only [mem_cons, not_mem_nil, or_false] at hd
  rcases hd with rfl | rfl | rfl <;> trivial

def argsDirective (known : Bool) (actions : List Action) : Directive :=
  .secRule (some [newRuleVariableParams .args [] none false])
    (if known then some ⟨⟨fun _ vars _ _ _ => (true, vars), fun _ _ _ _ _ => rfl⟩, false⟩ else none)
    (some actions)

def brokenMember : List Directive :=
  [argsDirective true [.id 1, .phase 1, .deny, .chain], argsDirective false [.nolog],
    argsDirective true [.id 2, .phase 1, .nolog]]

/-- **A rule is captured.**  The rule after the member that failed becomes the member of the
chain, and the chain is kept. -/
theorem chain_captures :
    (trace [] brokenMember).map (fun t => (t.origins, t.failed)) = some ([[0, 2]], [1]) ∧
      ¬WrittenMember brokenMember 0 2 ∧ WrittenMember brokenMember 0 1 ∧
      ¬AlwaysIntact [] brokenMember := by
  have htrace : (trace [] brokenMember).map (fun t => (t.origins, t.failed))
      = some ([[0, 2]], [1]) := by decide +kernel
  have hmember : WrittenMember brokenMember 0 1 := by
    refine ⟨Nat.zero_lt_one, fun k _ hk => ?_, rfl⟩
    rw [Nat.lt_one_iff.mp hk]
    decide +kernel
  refine ⟨htrace, ?_, hmember, ?_⟩
  · intro h
    exact absurd (h.2.1 1 (by decide) (by decide)) (by decide +kernel)
  · intro h
    obtain ⟨t, ht, hpositions⟩ := Option.map_eq_some_iff.mp htrace
    obtain ⟨horigins, hfailed⟩ := Prod.mk.inj hpositions
    have hcomplete := (h brokenMember (prefix_refl _) t ht).complete [0, 2]
      (by rw [horigins]; exact mem_singleton_self _) 1 hmember
    rw [hfailed] at hcomplete
    exact hcomplete (mem_singleton_self 1)

end Coraza.Seclang
