import Coraza.Waf.RuleGroup

/-!
# Removing rules from a group

`SecRuleRemoveById`, `SecRuleRemoveByTag` and `SecRuleRemoveByMsg` take rules out of a group while
the configuration is read.  `Removal.apply` is what the methods of the group do; a message is an
interface value, and a method of the message of a rule that has none is a panic, which is `none`.
`Removal.exactly` is what a removal should leave: everything but the rules that match, and every
marker, in the old order.

`removals_exact_iff` says when the two agree along a sequence of removals.
-/

namespace Coraza.Waf

open Go List

namespace RuleGroup

def deleteByID (rg : RuleGroup) (id : Int) : RuleGroup :=
  rg.eraseP (fun r => r.starter.id = id)

def deleteByRange (rg : RuleGroup) (start stop : Int) : RuleGroup :=
  rg.filter (fun r => r.starter.id < start ∨ r.starter.id > stop)

def deleteByMsg (msg : Bytes) : RuleGroup → Option RuleGroup
  | [] => some []
  | r :: rest =>
    match r.starter.msg with
    | none => none
    | some m => (deleteByMsg msg rest).map
      (fun kept => if m.original ≠ msg then r :: kept else kept)

def deleteByTag (rg : RuleGroup) (tag : Bytes) : RuleGroup :=
  rg.filter (fun r => tag ∉ r.starter.tags)

end RuleGroup

def RuleChain.isMarker (c : RuleChain) : Bool := c.starter.secMark ≠ []

inductive Removal where
  | byID (id : Int)
  | byRange (start stop : Int)
  | byTag (tag : Bytes)
  | byMsg (msg : Bytes)

namespace Removal

def apply (rg : RuleGroup) : Removal → Option RuleGroup
  | byID id => some (rg.deleteByID id)
  | byRange start stop => some (rg.deleteByRange start stop)
  | byTag tag => some (rg.deleteByTag tag)
  | byMsg msg => rg.deleteByMsg msg

def names (c : RuleChain) : Removal → Bool
  | byID id => c.starter.id = id
  | byRange start stop => start ≤ c.starter.id ∧ c.starter.id ≤ stop
  | byTag tag => tag ∈ c.starter.tags
  | byMsg msg => c.starter.msg.map Macro.original = some msg

/-- What should be left: the rules that the removal does not name, and every marker. -/
def exactly (rg : RuleGroup) (op : Removal) : RuleGroup :=
  rg.filter (fun c => !op.names c || c.isMarker)

/-- When the removal leaves that. -/
def Safe (rg : RuleGroup) : Removal → Prop
  | byID id =>
    ∀ first others, rg.filter (fun c => c.starter.id = id) = first :: others →
      first.isMarker = false ∧ ∀ c ∈ others, c.isMarker = true
  | byRange start stop => ∀ c ∈ rg, c.isMarker = true → ¬(byRange start stop).names c = true
  | byTag tag => ∀ c ∈ rg, c.isMarker = true → ¬(byTag tag).names c = true
  | byMsg msg => (∀ c ∈ rg, c.starter.msg.isSome = true) ∧
      ∀ c ∈ rg, c.isMarker = true → ¬(byMsg msg).names c = true

theorem filter_eq_exactly_iff (rg : RuleGroup) (op : Removal) :
    rg.filter (fun c => !op.names c) = op.exactly rg ↔
      ∀ c ∈ rg, c.isMarker = true → ¬op.names c = true := by
  constructor
  · intro heq c hc hmarker hnamed
    have hkept : c ∈ op.exactly rg :=
      List.mem_filter.mpr ⟨hc, by rw [hmarker, Bool.or_true]⟩
    rw [← heq] at hkept
    have hnot := (List.mem_filter.mp hkept).2
    rw [hnamed] at hnot
    cases hnot
  · intro h
    refine filter_congr (fun c hc => ?_)
    cases hmarker : c.isMarker with
    | false => rw [Bool.or_false]
    | true => rw [Bool.eq_false_iff.mpr (h c hc hmarker), Bool.or_true, Bool.not_false]

theorem deleteByMsg_eq_none {rg : RuleGroup} (msg : Bytes) :
    (∃ c ∈ rg, c.starter.msg = none) → rg.deleteByMsg msg = none := by
  induction rg with
  | nil => rintro ⟨c, hc, _⟩; cases hc
  | cons r rest ih =>
    rintro ⟨c, hc, hmsg⟩
    unfold RuleGroup.deleteByMsg
    rcases List.mem_cons.mp hc with rfl | hc
    · rw [hmsg]
    · rw [ih ⟨c, hc, hmsg⟩]
      cases r.starter.msg <;> rfl

theorem deleteByMsg_eq_filter {rg : RuleGroup} (msg : Bytes) :
    (∀ c ∈ rg, c.starter.msg.isSome = true) →
    rg.deleteByMsg msg = some (rg.filter (fun c => !(byMsg msg).names c)) := by
  induction rg with
  | nil => exact fun _ => rfl
  | cons r rest ih =>
    intro h
    obtain ⟨m, hm⟩ := Option.isSome_iff_exists.mp (h r (mem_cons_self ..))
    unfold RuleGroup.deleteByMsg
    have hnames : (byMsg msg).names r = decide (m.original = msg) := by
      simp [names, hm]
    rw [hm, ih (fun c hc => h c (mem_cons_of_mem _ hc)), filter_cons, hnames]
    by_cases heq : m.original = msg <;> simp [heq]

/-- Taking out the first element with a property and keeping some of those with it. -/
theorem eraseP_eq_filter_iff {α : Type} {p q : α → Bool} : ∀ l : List α,
    l.eraseP p = l.filter (fun a => !p a || q a) ↔
      ∀ first others, l.filter p = first :: others →
        q first = false ∧ ∀ a ∈ others, q a = true := by
  have hkeep : ∀ l : List α, l = l.filter (fun a => !p a || q a) ↔
    ∀ a ∈ l.filter p, q a = true := by
    intro l
    rw [eq_comm, filter_eq_self]
    simp only [mem_filter, and_imp]
    refine forall₂_congr (fun a _ => ?_)
    cases p a <;> cases q a <;> decide
  have hmore : ∀ (a : α), q a = true → ∀ l : List α, l ≠ a :: l.filter (fun a => !p a || q a) := by
    intro a hq l
    induction l with
    | nil => exact nofun
    | cons b l ih =>
      intro heq
      obtain ⟨rfl, htail⟩ := List.cons.inj heq
      rw [filter_cons_of_pos (by rw [hq, Bool.or_true])] at htail
      exact ih htail
  intro l
  induction l with
  | nil => simp
  | cons a l ih =>
    cases hp : p a with
    | false =>
      rw [eraseP_cons_of_neg (by rw [hp]; exact Bool.false_ne_true),
        filter_cons_of_pos (by rw [hp]; rfl), cons_inj_right,
        filter_cons_of_neg (by rw [hp]; exact Bool.false_ne_true)]
      exact ih
    | true =>
      rw [eraseP_cons_of_pos hp, filter_cons_of_pos hp]
      cases hq : q a with
      | false =>
        rw [filter_cons_of_neg (by rw [hp, hq]; exact Bool.false_ne_true), hkeep]
        constructor
        · rintro h first others heq
          obtain ⟨rfl, rfl⟩ := List.cons.inj heq
          exact ⟨hq, h⟩
        · exact fun h => (h a _ rfl).2
      | true =>
        -- the first one should stay, and nothing can take its place
        rw [filter_cons_of_pos (by rw [hq, Bool.or_true])]
        exact ⟨fun heq => absurd heq (hmore a hq l),
          fun h => absurd (hq.symm.trans (h a _ rfl).1) nofun⟩

/-- **When one removal is exact.** -/
theorem apply_eq_exactly_iff (rg : RuleGroup) (op : Removal) :
    op.apply rg = some (op.exactly rg) ↔ op.Safe rg := by
  cases op with
  | byID id =>
    have heq := eraseP_eq_filter_iff (p := fun c : RuleChain => decide (c.starter.id = id))
      (q := RuleChain.isMarker) rg
    rw [← Option.some_inj] at heq
    exact heq
  | byRange start stop =>
    have hdelete : rg.deleteByRange start stop
        = rg.filter (fun c => !(byRange start stop).names c) := by
      refine filter_congr (fun c _ => ?_)
      rw [names, ← decide_not, decide_eq_decide]
      omega
    rw [apply, hdelete, Option.some_inj]
    exact filter_eq_exactly_iff rg (byRange start stop)
  | byTag tag =>
    have hdelete : rg.deleteByTag tag = rg.filter (fun c => !(byTag tag).names c) :=
      filter_congr (fun c _ => decide_not)
    rw [apply, hdelete, Option.some_inj]
    exact filter_eq_exactly_iff rg (byTag tag)
  | byMsg msg =>
    by_cases hmsg : ∀ c ∈ rg, c.starter.msg.isSome = true
    · rw [apply, deleteByMsg_eq_filter msg hmsg, Option.some_inj, filter_eq_exactly_iff]
      exact ⟨fun h => ⟨hmsg, h⟩, fun h => h.2⟩
    · have hnone : rg.deleteByMsg msg = none := by
        refine deleteByMsg_eq_none msg ?_
        push Not at hmsg
        obtain ⟨c, hc, hc'⟩ := hmsg
        exact ⟨c, hc, Option.not_isSome_iff_eq_none.mp hc'⟩
      rw [apply, hnone]
      exact ⟨nofun, fun h => absurd h.1 hmsg⟩

def AllExact : RuleGroup → List Removal → Prop
  | _, [] => True
  | rg, op :: ops => op.apply rg = some (op.exactly rg) ∧ AllExact (op.exactly rg) ops

def AllSafe : RuleGroup → List Removal → Prop
  | _, [] => True
  | rg, op :: ops => op.Safe rg ∧ AllSafe (op.exactly rg) ops

end Removal

open Removal in
/-- **Static removals.**  A sequence of removals completes, takes out exactly the rules that it
names, keeps the markers and keeps the order, if and only if, each time: a rule is removed by an id
that it shares with markers after it at most; no marker has a tag, a message or an id of a range
that is removed; and every rule has a message when one is removed by its message. -/
theorem removals_exact_iff (rg : RuleGroup) (ops : List Removal) :
    AllExact rg ops ↔ AllSafe rg ops := by
  induction ops generalizing rg with
  | nil => exact Iff.rfl
  | cons op ops ih => exact and_congr (apply_eq_exactly_iff rg op) (ih _)

/-- A rule without a message, and a removal by message. -/
theorem removal_panics :
    (Removal.byMsg (bytesOf "attack")).apply [⟨{ Rule.new with id := 1 }, []⟩] = none ∧
      ¬Removal.AllExact [⟨{ Rule.new with id := 1 }, []⟩] [.byMsg (bytesOf "attack")] :=
  ⟨rfl, fun h => nomatch h.1⟩

end Coraza.Waf
