import Mathlib

/-!
# Threads with a shared state

Every thread has a local state, and all of them share one more.  An atomic step of a thread
changes its local state and the shared one; a run is any interleaving of steps.

`Outline.steps` is the rule by which such a program is verified.  There is an invariant of the
shared state and an assertion for each thread, and each step says to the other threads what it does
to the shared state.  It is enough to look at one thread at a time: a step keeps the invariant and
its own assertion, and what it says does not disturb the assertions of others.
-/

namespace Threads

variable {T L G : Type} [DecidableEq T]

/-- The atomic steps of each thread. -/
abbrev System (T L G : Type) : Type := T → L → G → L → G → Prop

structure Config (T L G : Type) where
  threads : T → L
  shared : G

inductive Step (S : System T L G) (s : Config T L G) : Config T L G → Prop where
  | mk (t : T) {l : L} {g : G} (h : S t (s.threads t) s.shared l g) :
      Step S s ⟨Function.update s.threads t l, g⟩

abbrev Steps (S : System T L G) : Config T L G → Config T L G → Prop :=
  Relation.ReflTransGen (Step S)

/-- A proof outline: an invariant, the assertions of the threads, and what steps do to others. -/
structure Outline (S : System T L G) (I : G → Prop) (A : T → L → G → Prop)
    (R : T → G → G → Prop) : Prop where
  shared : ∀ {t l g l' g'}, I g → A t l g → S t l g l' g' → I g'
  own : ∀ {t l g l' g'}, I g → A t l g → S t l g l' g' → A t l' g'
  others : ∀ {t l g l' g'}, I g → A t l g → S t l g l' g' → R t g g'
  stable : ∀ {t t' l g g'}, t' ≠ t → R t g g' → A t' l g → A t' l g'

variable {S : System T L G} {I : G → Prop} {A : T → L → G → Prop} {R : T → G → G → Prop}

variable {s s' : Config T L G}

theorem Outline.step (h : Outline S I A R) (hstep : Step S s s')
    (hI : I s.shared) (hA : ∀ t, A t (s.threads t) s.shared) :
    I s'.shared ∧ ∀ t, A t (s'.threads t) s'.shared := by
  cases hstep with
  | mk t hS =>
    refine ⟨h.shared hI (hA t) hS, fun t' => ?_⟩
    by_cases ht : t' = t
    · subst ht
      dsimp only
      rw [Function.update_self]
      exact h.own hI (hA t') hS
    · dsimp only
      rw [Function.update_of_ne ht]
      exact h.stable ht (h.others hI (hA t) hS) (hA t')

/-- **The rule for all interleavings.** -/
theorem Outline.steps (h : Outline S I A R) (hsteps : Steps S s s')
    (hI : I s.shared) (hA : ∀ t, A t (s.threads t) s.shared) :
    I s'.shared ∧ ∀ t, A t (s'.threads t) s'.shared := by
  induction hsteps with
  | refl => exact ⟨hI, hA⟩
  | tail _ hlast ih => exact h.step hlast ih.1 ih.2

/-- What every step does to the shared state, a run does. -/
theorem Outline.steps_relation (h : Outline S I A R) {M : G → G → Prop} (hrefl : ∀ g, M g g)
    (htrans : ∀ {g g' g''}, M g g' → M g' g'' → M g g'')
    (hM : ∀ {t l g l' g'}, I g → A t l g → S t l g l' g' → M g g')
    (hsteps : Steps S s s') (hI : I s.shared) (hA : ∀ t, A t (s.threads t) s.shared) :
    M s.shared s'.shared := by
  induction hsteps with
  | refl => exact hrefl _
  | tail hfirst hlast ih =>
    obtain ⟨hI', hA'⟩ := h.steps hfirst hI hA
    cases hlast with
    | mk t hS => exact htrans ih (hM hI' (hA' t) hS)

end Threads
