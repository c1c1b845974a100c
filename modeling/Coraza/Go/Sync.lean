import Mathlib

/-!
# Maps and calls for many goroutines

`Map` is `sync.Map`, whose operations are atomic.  `Range` is the exception: it visits one key
after another while others change the map.  What it promises is that no key is visited twice, and
that for every key it has looked at the map at some moment during the call (`Visits`, `Ends`).
To state that, a map keeps the contents it had before.

`Group` is `singleflight.Group`: of all calls for a key that overlap, one runs its function, and
the others wait for its result.
-/

namespace Go.Sync

open List Function

theorem update_eq_some {α β : Type} [DecidableEq α] {f : α → Option β} {a b : α} {v : Option β}
    {y : β} : update f a v b = some y ↔ b = a ∧ v = some y ∨ b ≠ a ∧ f b = some y := by
  rw [update_apply]
  split <;> simp [*]

/-- `sync.Map`: its contents, and those it had before. -/
structure Map (K V : Type) where
  now : K → Option V
  past : List (K → Option V)

namespace Map

variable {K V : Type}

def empty : Map K V := ⟨fun _ => none, []⟩

def load (m : Map K V) (key : K) : Option V := m.now key

def since (m : Map K V) (start : Nat) : List (K → Option V) := m.past.drop start ++ [m.now]

/-- A call of `Range` that began at `start` may pass this key and value to its function. -/
def Visits (m : Map K V) (start : Nat) (visited : List K) (key : K) (value : V) : Prop :=
  key ∉ visited ∧ ∃ c ∈ m.since start, c key = some value

def Ends (m : Map K V) (start : Nat) (visited : List K) : Prop :=
  ∀ key, key ∉ visited → ∃ c ∈ m.since start, c key = none

def Ever (m : Map K V) (key : K) (value : V) : Prop := ∃ c ∈ m.since 0, c key = some value

variable {m : Map K V} {key : K} {value : V} {start : Nat} {visited : List K}

theorem ever_of_now (h : m.now key = some value) : m.Ever key value :=
  ⟨m.now, mem_append_right _ (mem_singleton_self _), h⟩

theorem Visits.ever (h : m.Visits start visited key value) : m.Ever key value := by
  obtain ⟨-, c, hc, hvalue⟩ := h
  refine ⟨c, ?_, hvalue⟩
  rcases List.mem_append.mp hc with hc | hc
  · exact mem_append_left _ (mem_of_mem_drop hc)
  · exact mem_append_right _ hc

/-- **A key that has the same value all the time is visited.** -/
theorem Ends.mem_visited (h : m.Ends start visited)
    (hconstant : ∀ c ∈ m.since start, c key = some value) : key ∈ visited := by
  by_contra hnot
  obtain ⟨c, hc, hnone⟩ := h key hnot
  cases (hconstant c hc).symm.trans hnone

theorem since_length (m : Map K V) : m.since m.past.length = [m.now] := by
  unfold since
  rw [drop_length, nil_append]

/-! ### Changes -/

variable [DecidableEq K]

def set (m : Map K V) (key : K) (value : Option V) : Map K V :=
  ⟨update m.now key value, m.past ++ [m.now]⟩

def loadOrStore (m : Map K V) (key : K) (value : V) : (V × Bool) × Map K V :=
  match m.now key with
  | some actual => ((actual, true), m)
  | none => ((value, false), m.set key (some value))

def compareAndDelete [DecidableEq V] (m : Map K V) (key : K) (old : V) : Bool × Map K V :=
  if m.now key = some old then (true, m.set key none) else (false, m)

theorem set_past_length (m : Map K V) (key : K) (value : Option V) :
    (m.set key value).past.length = m.past.length + 1 :=
  length_append

theorem since_set (hstart : start ≤ m.past.length) (key : K) (value : Option V) :
    (m.set key value).since start = m.since start ++ [(m.set key value).now] := by
  unfold since set
  rw [drop_append_of_le_length hstart]

theorem now_of_set {key' : K} {value' : V} (h : (m.set key' (some value')).now key = some value)
    (hne : value ≠ value') : m.now key = some value := by
  rcases update_eq_some.mp h with ⟨-, ⟨⟩⟩ | ⟨-, hold⟩
  · exact absurd rfl hne
  · exact hold

theorem ever_set_iff {key' : K} {value' : Option V} : (m.set key' value').Ever key value ↔
      m.Ever key value ∨ key = key' ∧ value' = some value := by
  unfold Ever
  rw [since_set (Nat.zero_le _)]
  constructor
  · rintro ⟨c, hc, hvalue⟩
    rcases List.mem_append.mp hc with hc | hc
    · exact .inl ⟨c, hc, hvalue⟩
    · rw [List.mem_singleton.mp hc] at hvalue
      rcases update_eq_some.mp hvalue with hnew | ⟨-, hold⟩
      · exact .inr hnew
      · exact .inl (ever_of_now hold)
  · rintro (⟨c, hc, hvalue⟩ | ⟨rfl, rfl⟩)
    · exact ⟨c, mem_append_left _ hc, hvalue⟩
    · exact ⟨_, mem_append_right _ (mem_singleton_self _), update_self ..⟩

theorem compareAndDelete_now_eq_some [DecidableEq V] {old : V} {key' : K} :
    (m.compareAndDelete key' old).2.now key = some value ↔
      m.now key = some value ∧ (key = key' → value ≠ old) := by
  unfold compareAndDelete
  split
  · rename_i hold
    by_cases hkey : key = key'
    · subst hkey
      show update m.now key none key = _ ↔ _
      rw [update_self, hold]
      refine ⟨nofun, fun h => absurd (Option.some.inj h.1).symm (h.2 rfl)⟩
    · show update m.now key' none key = _ ↔ _
      rw [update_of_ne hkey]
      exact ⟨fun h => ⟨h, fun heq => absurd heq hkey⟩, And.left⟩
  · rename_i hold
    refine ⟨fun h => ⟨h, ?_⟩, And.left⟩
    rintro rfl rfl
    exact hold h

theorem ever_compareAndDelete [DecidableEq V] {old : V} {key' : K} :
    (m.compareAndDelete key' old).2.Ever key value ↔ m.Ever key value := by
  unfold compareAndDelete
  split
  · exact ever_set_iff.trans (or_iff_left nofun)
  · exact Iff.rfl

theorem past_compareAndDelete [DecidableEq V] (old : V) (key' : K) :
    m.past.length ≤ (m.compareAndDelete key' old).2.past.length := by
  unfold compareAndDelete
  split
  · exact Nat.le_of_lt (Nat.lt_of_lt_of_eq (Nat.lt_succ_self _) (set_past_length ..).symm)
  · exact Nat.le_refl _

theorem since_set_constant (hstart : start ≤ m.past.length) {key' : K} {value' : Option V}
    (hnow : (m.set key' value').now key = some value)
    (h : ∀ c ∈ m.since start, c key = some value) :
    ∀ c ∈ (m.set key' value').since start, c key = some value := by
  rw [since_set hstart]
  intro c hc
  rcases List.mem_append.mp hc with hc | hc
  · exact h c hc
  · rw [List.mem_singleton.mp hc]
    exact hnow

theorem since_compareAndDelete_constant [DecidableEq V] (hstart : start ≤ m.past.length) {old : V}
    {key' : K} (hnow : (m.compareAndDelete key' old).2.now key = some value)
    (h : ∀ c ∈ m.since start, c key = some value) :
    ∀ c ∈ (m.compareAndDelete key' old).2.since start, c key = some value := by
  revert hnow
  unfold compareAndDelete
  split
  · exact fun hnow => since_set_constant hstart hnow h
  · exact fun _ => h

end Map

/-- `singleflight.Group`: the call in flight for each key, and the key and the result of every
call. -/
structure Group (K R : Type) where
  inFlight : K → Option Nat
  calls : Nat → Option (K × Option R)

namespace Group

variable {K R : Type} [DecidableEq K]

def empty : Group K R := ⟨fun _ => none, fun _ => none⟩

def start (group : Group K R) (key : K) (call : Nat) : Group K R :=
  ⟨update group.inFlight key (some call),
    update group.calls call (some (key, none))⟩

def finish (group : Group K R) (key : K) (call : Nat) (result : R) : Group K R :=
  ⟨update group.inFlight key none,
    update group.calls call (some (key, some result))⟩

variable {group : Group K R} {call call' : Nat} {key key' : K} {r : Option R}

theorem start_calls (hfresh : group.calls call = none) (h : group.calls call' = some (key', r)) :
    ∃ r', (group.start key call).calls call' = some (key', r') := by
  refine ⟨r, (update_of_ne ?_ ..).trans h⟩
  rintro rfl
  cases hfresh.symm.trans h

theorem finish_calls {r₀ : Option R} (hcall : group.calls call = some (key, r₀)) (result : R)
    (h : group.calls call' = some (key', r)) :
    ∃ r', (group.finish key call result).calls call' = some (key', r') := by
  by_cases hne : call' = call
  · subst hne
    cases hcall.symm.trans h
    exact ⟨some result, update_self ..⟩
  · exact ⟨r, (update_of_ne hne ..).trans h⟩

end Group

end Go.Sync
