import Mathlib

/-!
# Rewriting a text from left to right

Many filters read a text piece by piece, write something for each piece and keep a flag that says
whether anything was changed.  `run` is such a loop: `step` gets the next element and what follows
it and says what to write, how many further elements it has read, whether this is a change, and
the state for what is left; `finish` is what is written at the end.

`run_induction` is the rule for a statement about what was read, what was written and the flag,
`run_congr` the rule for two loops with the same steps, `run_flatMap` the rule for decoding a text
that was encoded piece by piece, and `run_each` the rule for a part whose elements are all treated
alike.
`Tracks` is the statement that the flag is right, for a filter that never writes more than it has
read: what was written is different exactly if the flag is set.  It holds of a loop if it holds of
each piece (`run_tracks`).  A filter that may write more than it has read sets its flag rightly if
the elements have weights for which a change makes a text lighter (`run_lighter`).  For a loop
without state whose unchanged pieces are single elements, `run_changed_iff` says where the flag
comes from.

Such filters often look first for a place from which on there is something to do.  `fromFirst` and
`fromPiece` begin there, the second for a search that reads the text piece by piece.
-/

namespace Rewriting

open List

variable {α σ : Type}

/-- What is done with the next element of a text and with the `further` ones after it. -/
structure Piece (α σ : Type) where
  written : List α
  further : Nat
  changed : Bool
  state : σ

def loop (step : σ → α → List α → Piece α σ) (finish : σ → List α) :
    Nat → σ → List α → List α × Bool
  | 0, state, _ => (finish state, false)
  | _ + 1, state, [] => (finish state, false)
  | n + 1, state, b :: t =>
    let piece := step state b t
    let rest := loop step finish n piece.state (t.drop piece.further)
    (piece.written ++ rest.1, piece.changed || rest.2)

def run (step : σ → α → List α → Piece α σ) (finish : σ → List α) (state : σ) (text : List α) :
    List α × Bool :=
  loop step finish text.length state text

section

variable {step : σ → α → List α → Piece α σ} {finish : σ → List α}

theorem loop_eq_run : ∀ (n : Nat) (state : σ) (text : List α), text.length ≤ n →
    loop step finish n state text = run step finish state text := by
  have hfuel : ∀ (n m : Nat) (state : σ) (text : List α), text.length ≤ n → text.length ≤ m →
      loop step finish n state text = loop step finish m state text := by
    intro n
    induction n with
    | zero =>
      intro m state text hn _
      rw [List.length_eq_zero_iff.mp (Nat.le_zero.mp hn)]
      cases m <;> rfl
    | succ n ih =>
      intro m state text hn hm
      match text, m with
      | [], 0 => rfl
      | [], _ + 1 => rfl
      | b :: t, m + 1 =>
        have hdrop : (t.drop (step state b t).further).length ≤ t.length := by
          rw [length_drop]
          omega
        unfold loop
        dsimp only
        rw [ih m _ _ (hdrop.trans (Nat.le_of_succ_le_succ hn))
          (hdrop.trans (Nat.le_of_succ_le_succ hm))]
  exact fun n state text hn => hfuel n text.length state text hn (Nat.le_refl _)

@[simp] theorem run_nil (state : σ) : run step finish state [] = (finish state, false) := rfl

theorem run_cons (state : σ) (b : α) (t : List α) : run step finish state (b :: t)
      = ((step state b t).written
          ++ (run step finish (step state b t).state (t.drop (step state b t).further)).1,
        (step state b t).changed
          || (run step finish (step state b t).state (t.drop (step state b t).further)).2) := by
  have hdrop : (t.drop (step state b t).further).length ≤ t.length := by
    rw [length_drop]
    omega
  rw [← loop_eq_run t.length _ _ hdrop]
  rfl

/-- **The induction rule.**  What holds at the end, and of a piece with what follows if it holds
of what follows, holds of a text. -/
theorem run_induction {P : σ → List α → List α → Bool → Prop}
    (hfinish : ∀ state, P state [] (finish state) false)
    (hstep : ∀ state b t rest c, P (step state b t).state (t.drop (step state b t).further) rest c →
      P state (b :: t) ((step state b t).written ++ rest) ((step state b t).changed || c)) :
    ∀ (text : List α) (state : σ),
      P state text (run step finish state text).1 (run step finish state text).2 := by
  intro text
  induction hn : text.length using Nat.strong_induction_on generalizing text with
  | _ n ih =>
    intro state
    subst hn
    cases text with
    | nil => exact hfinish state
    | cons b t =>
      rw [run_cons]
      refine hstep state b t _ _ (ih _ ?_ _ rfl _)
      rw [length_drop, length_cons]
      omega

/-- Two loops that take the same steps on a text and on what follows each of its pieces. -/
theorem run_congr {step' : σ → α → List α → Piece α σ} {ok : List α → Prop}
    (hsuffix : ∀ t u, t <:+ u → ok u → ok t)
    (hstep : ∀ state b t, ok (b :: t) → step state b t = step' state b t) :
    ∀ (text : List α) (state : σ), ok text →
      run step finish state text = run step' finish state text := by
  intro text
  induction hn : text.length using Nat.strong_induction_on generalizing text with
  | _ n ih =>
    intro state htext
    subst hn
    cases text with
    | nil => rfl
    | cons b t =>
      rw [run_cons, run_cons, ← hstep state b t htext, ih _ ?_ _ rfl]
      · exact hsuffix _ _ ((drop_suffix _ t).trans (suffix_cons b t)) htext
      · rw [length_drop, length_cons]
        omega

/-- **The rule for a text that was written piece by piece**: if each code is read as its value,
whatever follows it, the codes are read as the values. -/
theorem run_flatMap {β : Type} {state : σ} {code value : β → List α} (xs : List β)
    (h : ∀ x ∈ xs, ∀ rest, (run step finish state (code x ++ rest)).1
      = value x ++ (run step finish state rest).1) :
    (run step finish state (xs.flatMap code)).1 = xs.flatMap value ++ finish state := by
  induction xs with
  | nil => rfl
  | cons x xs ih =>
    rw [flatMap_cons, flatMap_cons, h x mem_cons_self,
      ih (fun y hy => h y (mem_cons_of_mem x hy)), append_assoc]

/-- **The rule for a part that is read element by element**, in one state. -/
theorem run_each {state : σ} {w : α → List α} {rest : List α} (pre : List α) :
    (∀ u b v, pre = u ++ b :: v → (step state b (v ++ rest)).written = w b ∧
      (step state b (v ++ rest)).further = 0 ∧ (step state b (v ++ rest)).state = state) →
    (run step finish state (pre ++ rest)).1
      = pre.flatMap w ++ (run step finish state rest).1 := by
  induction pre with
  | nil => intro _; rfl
  | cons b pre ih =>
    intro h
    obtain ⟨hwritten, hfurther, hstate⟩ := h [] b pre rfl
    have hpre := ih (fun u c v hsplit => h (b :: u) c v (by rw [hsplit, cons_append]))
    rw [cons_append, run_cons, hwritten, hfurther, hstate, drop_zero, hpre,
      flatMap_cons, append_assoc]

end

/-! ### Flags -/

/-- What was written for a text is not longer, and the flag tells whether it is different. -/
structure Tracks (read written : List α) (changed : Bool) : Prop where
  length_le : written.length ≤ read.length
  changed_iff : changed = true ↔ written ≠ read

namespace Tracks

variable {read read' written written' : List α} {changed changed' : Bool}

theorem refl (read : List α) : Tracks read read false :=
  ⟨Nat.le_refl _, ⟨nofun, fun h => absurd rfl h⟩⟩

theorem of_ne (hlength : written.length ≤ read.length) (hne : written ≠ read) :
    Tracks read written true :=
  ⟨hlength, ⟨fun _ => hne, fun _ => rfl⟩⟩

theorem of_lt (h : written.length < read.length) : Tracks read written true :=
  of_ne (Nat.le_of_lt h) (fun heq => absurd (congrArg List.length heq) (Nat.ne_of_lt h))

/-- **Two pieces**: if nothing is longer than before, two differences do not cancel. -/
theorem append (h : Tracks read written changed) (h' : Tracks read' written' changed') :
    Tracks (read ++ read') (written ++ written') (changed || changed') := by
  have hle := h.length_le
  have hle' := h'.length_le
  refine ⟨?_, ?_⟩
  · rw [length_append, length_append]
    exact Nat.add_le_add hle hle'
  · have heq : written ++ written' = read ++ read' ↔ written = read ∧ written' = read' := by
      constructor
      · intro heq
        have hlength := congrArg List.length heq
        rw [length_append, length_append] at hlength
        exact append_inj heq (by omega)
      · rintro ⟨rfl, rfl⟩
        rfl
    rw [Bool.or_eq_true, h.changed_iff, h'.changed_iff, ne_eq, ne_eq, ne_eq, heq, not_and_or]

end Tracks

def Piece.Right (piece : Piece α σ) (b : α) (t : List α) : Prop :=
  Tracks (b :: t.take piece.further) piece.written piece.changed

/-- **A loop keeps its flag right if it does so for every piece.** -/
theorem run_tracks {step : σ → α → List α → Piece α σ}
    (hstep : ∀ state b t, (step state b t).Right b t) (state : σ) (text : List α) :
    Tracks text (run step (fun _ => []) state text).1 (run step (fun _ => []) state text).2 := by
  refine run_induction (P := fun _ => Tracks) (fun _ => .refl []) ?_ text state
  intro state b t rest c h
  have happend := (hstep state b t).append h
  rwa [cons_append, take_append_drop] at happend

/-- What was written is lighter if the flag is set, and else not heavier. -/
structure Lightens (weight : α → Int) (read written : List α) (changed : Bool) : Prop where
  le : (written.map weight).sum ≤ (read.map weight).sum
  lt : changed = true → (written.map weight).sum < (read.map weight).sum

/-- **A loop makes a text lighter if it does so with every piece that it changes.** -/
theorem run_lighter {weight : α → Int} {step : σ → α → List α → Piece α σ}
    (hstep : ∀ state b t, Lightens weight (b :: t.take (step state b t).further)
      (step state b t).written (step state b t).changed) (state : σ) (text : List α) :
    Lightens weight text (run step (fun _ => []) state text).1
      (run step (fun _ => []) state text).2 := by
  refine run_induction (P := fun _ => Lightens weight) (fun _ => ⟨Int.le_refl _, nofun⟩) ?_ text
    state
  intro state b t rest c h
  have hpiece := hstep state b t
  have hread : ((b :: t).map weight).sum = ((b :: t.take (step state b t).further).map weight).sum
        + ((t.drop (step state b t).further).map weight).sum := by
    rw [← sum_append, ← map_append, cons_append, take_append_drop]
  have hle := hpiece.le
  have hle' := h.le
  refine ⟨?_, fun hchanged => ?_⟩
  · rw [map_append, sum_append]
    omega
  · rw [map_append, sum_append]
    rcases Bool.or_eq_true _ _ ▸ hchanged with hpiecec | hrest
    · have := hpiece.lt hpiecec
      omega
    · have := h.lt hrest
      omega

theorem Lightens.ne {weight : α → Int} {read written : List α} {changed : Bool}
    (h : Lightens weight read written changed) (hchanged : changed = true) : written ≠ read := by
  rintro rfl
  exact Int.lt_irrefl _ (h.lt hchanged)

/-! ### Loops without state -/

def copy (b : α) : Piece α Unit := ⟨[b], 0, false, ()⟩

def replace (written : List α) (further : Nat) : Piece α Unit := ⟨written, further, true, ()⟩

theorem right_copy (b : α) (t : List α) : (copy b).Right b t :=
  .refl [b]

theorem right_replace {written t : List α} {further : Nat} (hwritten : written.length ≤ further)
    (hfurther : further ≤ t.length) (b : α) : (replace written further).Right b t := by
  refine .of_lt ?_
  rw [length_cons, length_take]
  exact Nat.lt_succ_of_le (by dsimp only [replace]; omega)

theorem right_replace_single {b c : α} (h : c ≠ b) (t : List α) : (replace [c] 0).Right b t := by
  refine .of_ne (Nat.le_refl 1) ?_
  rintro heq
  exact h (List.cons.inj heq).1

/-- If only single elements are left alone, the flag is set exactly if the step makes a change
somewhere in the text. -/
theorem run_changed_iff {step : Unit → α → List α → Piece α Unit} {finish : Unit → List α}
    (hcopy : ∀ b t, (step () b t).changed = false → (step () b t).further = 0) (text : List α) :
    (run step finish () text).2 = true ↔ ∃ b t, b :: t <:+ text ∧ (step () b t).changed = true := by
  refine run_induction (P := fun _ text _ c => c = true ↔
    ∃ b t, b :: t <:+ text ∧ (step () b t).changed = true) ?_ ?_ text ()
  · intro _
    refine ⟨nofun, ?_⟩
    rintro ⟨b, t, hsuffix, _⟩
    cases List.suffix_nil.mp hsuffix
  · intro _ b t rest c ih
    rw [Bool.or_eq_true, ih]
    constructor
    · rintro (h | ⟨b', t', hsuffix, h⟩)
      · exact ⟨b, t, suffix_rfl, h⟩
      · exact ⟨b', t', (hsuffix.trans (drop_suffix _ t)).trans (suffix_cons b t), h⟩
    · rintro ⟨b', t', hsuffix, h⟩
      cases hb : (step () b t).changed with
      | true => exact .inl rfl
      | false =>
        right
        rw [hcopy b t hb]
        rcases List.suffix_cons_iff.mp hsuffix with heq | hsuffix
        · cases heq
          exact absurd h (by rw [hb]; exact Bool.false_ne_true)
        · exact ⟨b', t', hsuffix, h⟩

/-! ### Beginning at the first place of interest -/

/-- What comes before the first element with a property is copied; if there is none, nothing
changes. -/
def fromFirst (p : α → Bool) (f : List α → List α × Bool) (text : List α) : List α × Bool :=
  match text.findIdx? p with
  | none => (text, false)
  | some i => (text.take i ++ (f (text.drop i)).1, (f (text.drop i)).2)

/-- A filter that sets its flag as soon as it finds a place of interest. -/
theorem fromFirst_always (p : α → Bool) (f : List α → List α) (text : List α) :
    (fromFirst p (fun rest => (f rest, true)) text).2 = text.any p ∧
      ((fromFirst p (fun rest => (f rest, true)) text).2 = false →
        (fromFirst p (fun rest => (f rest, true)) text).1 = text) := by
  unfold fromFirst
  rw [← List.findIdx?_isSome]
  cases text.findIdx? p with
  | none => exact ⟨rfl, fun _ => rfl⟩
  | some i => exact ⟨rfl, nofun⟩

/-- Its flag is right if there is always something to change from that place on. -/
theorem fromFirst_changed_iff {p : α → Bool} {f : List α → List α}
    (h : ∀ b t, p b = true → f (b :: t) ≠ b :: t) (text : List α) :
    (fromFirst p (fun rest => (f rest, true)) text).2 = true ↔
      (fromFirst p (fun rest => (f rest, true)) text).1 ≠ text := by
  unfold fromFirst
  cases hi : text.findIdx? p with
  | none => exact ⟨nofun, fun hne => absurd rfl hne⟩
  | some i =>
    obtain ⟨hlt, hp, -⟩ := List.findIdx?_eq_some_iff_getElem.mp hi
    refine iff_of_true rfl (fun heq => ?_)
    dsimp only at heq
    rw [drop_eq_getElem_cons hlt] at heq
    have hsame : text.take i ++ f (text[i] :: text.drop (i + 1))
        = text.take i ++ text[i] :: text.drop (i + 1) := by
      rw [heq, getElem_cons_drop, take_append_drop]
    exact h text[i] (text.drop (i + 1)) hp (append_cancel_left hsame)

/-- A loop that copies everything before that place may as well begin there. -/
theorem fromFirst_run {p : α → Bool} {step : Unit → α → List α → Piece α Unit}
    (hcopy : ∀ b t, p b = false → step () b t = copy b) (text : List α) :
    fromFirst p (run step (fun _ => []) ()) text = run step (fun _ => []) () text := by
  induction text with
  | nil => rfl
  | cons b t ih =>
    unfold fromFirst at ih ⊢
    rw [List.findIdx?_cons]
    cases hb : p b with
    | true => rfl
    | false =>
      rw [run_cons, hcopy b t hb]
      dsimp only [copy]
      rw [drop_zero, ← ih]
      cases t.findIdx? p <;> rfl

variable {f : List α → List α × Bool}

theorem fromFirst_tracks (p : α → Bool)
    (h : ∀ text, Tracks text (f text).1 (f text).2) (text : List α) :
    Tracks text (fromFirst p f text).1 (fromFirst p f text).2 := by
  unfold fromFirst
  cases text.findIdx? p with
  | none => exact .refl text
  | some i =>
    have happend := (Tracks.refl (text.take i)).append (h (text.drop i))
    rwa [take_append_drop, Bool.false_or] at happend

/-- The search for a place, for at most the given number of rounds.  It reads an element with
`further` ones after it at a time. -/
def firstPiece (found : α → List α → Bool) (further : α → List α → Nat) : Nat → List α → Option Nat
  | 0, _ => none
  | _ + 1, [] => none
  | n + 1, b :: t =>
    if found b t then some 0
    else (firstPiece found further n (t.drop (further b t))).map (· + (further b t + 1))

/-- What comes before the first piece with a property is copied; if there is none, nothing
changes. -/
def fromPiece (found : α → List α → Bool) (further : α → List α → Nat)
    (f : List α → List α × Bool) (text : List α) : List α × Bool :=
  match firstPiece found further text.length text with
  | none => (text, false)
  | some i => (text.take i ++ (f (text.drop i)).1, (f (text.drop i)).2)

section

variable {found : α → List α → Bool} {further : α → List α → Nat}

theorem firstPiece_lt : ∀ (n : Nat) (text : List α) (i : Nat),
    firstPiece found further n text = some i → i < text.length := by
  intro n
  induction n with
  | zero => intro text i h; cases h
  | succ n ih =>
    intro text i h
    cases text with
    | nil => cases h
    | cons b t =>
      rw [firstPiece] at h
      split at h
      · cases h
        simp
      · obtain ⟨j, hj, rfl⟩ := Option.map_eq_some_iff.mp h
        have hlt := ih _ j hj
        rw [length_drop] at hlt
        rw [length_cons]
        omega

/-- **The rule for a search**: what holds of a text without such a place, and of one that begins
with it, and is passed on to a longer text, holds of every text. -/
theorem fromPiece_induction {P : List α → List α × Bool → Prop}
    (hnil : P [] ([], false)) (hfound : ∀ b t, found b t = true → P (b :: t) (f (b :: t)))
    (hnext : ∀ b t out, found b t = false → P (t.drop (further b t)) out →
      P (b :: t) (b :: t.take (further b t) ++ out.1, out.2)) :
    ∀ text : List α, P text (fromPiece found further f text) := by
  have haux : ∀ (n : Nat) (text : List α), text.length ≤ n →
      P text (match firstPiece found further n text with
        | none => (text, false)
        | some i => (text.take i ++ (f (text.drop i)).1, (f (text.drop i)).2)) := by
    intro n
    induction n with
    | zero =>
      intro text hn
      rw [List.length_eq_zero_iff.mp (Nat.le_zero.mp hn)]
      exact hnil
    | succ n ih =>
      intro text hn
      cases text with
      | nil => exact hnil
      | cons b t =>
        unfold firstPiece
        cases hb : found b t with
        | true => exact hfound b t hb
        | false =>
          have hdrop : (t.drop (further b t)).length ≤ n := by
            rw [length_drop]
            have := Nat.le_of_succ_le_succ hn
            omega
          have hrest := hnext b t _ hb (ih (t.drop (further b t)) hdrop)
          rw [if_neg Bool.false_ne_true]
          cases hi : firstPiece found further n (t.drop (further b t)) with
          | none =>
            rw [hi] at hrest
            rwa [cons_append, take_append_drop] at hrest
          | some i =>
            rw [hi] at hrest
            dsimp only [Option.map_some] at hrest ⊢
            rwa [← Nat.add_assoc, take_succ_cons, drop_succ_cons, Nat.add_comm i,
              take_add, ← drop_drop, cons_append, append_assoc]
  exact fun text => haux text.length text (Nat.le_refl _)

/-- A loop that copies every piece before that place may as well begin there. -/
theorem fromPiece_run {step : σ → α → List α → Piece α σ} {finish : σ → List α} {state : σ}
    (hfinish : finish state = [])
    (hcopy : ∀ b t, found b t = false →
      step state b t = ⟨b :: t.take (further b t), further b t, false, state⟩) (text : List α) :
    fromPiece found further (run step finish state) text = run step finish state text := by
  refine fromPiece_induction (P := fun text out => out = run step finish state text) ?_ ?_ ?_ text
  · rw [run_nil, hfinish]
  · exact fun b t _ => rfl
  · rintro b t out hb rfl
    rw [run_cons, hcopy b t hb, Bool.false_or]

end

end Rewriting
