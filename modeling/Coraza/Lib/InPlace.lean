import Coraza.Lib.Rewriting

/-!
# Rewriting a text in a buffer of its own size

A filter whose pieces never write more than they read can put its result into a buffer of the size
of the text.  It keeps two cursors: `read` goes through the text and `write` through the buffer.
`Cursors.round` is a round of such a loop.

**The write cursor never passes the read cursor**, so every element lands in the buffer
(`Cursors.Sound`, kept by a round in `Cursors.Sound.round` and so at all times,
`Cursors.sound_rounds`), and when the text is read the buffer holds up to the write cursor what
`run` writes (`Cursors.rounds_all`).
-/

namespace Rewriting

open List

variable {α σ : Type}

def overwrite (buffer : List α) (pos : Nat) (xs : List α) : List α :=
  buffer.take pos ++ xs ++ buffer.drop (pos + xs.length)

variable {pos : Nat}

theorem length_overwrite {buffer xs : List α} (h : pos + xs.length ≤ buffer.length) :
    (overwrite buffer pos xs).length = buffer.length := by
  simp only [overwrite, length_append, length_take, length_drop]
  omega

theorem take_overwrite {buffer xs : List α} (h : pos ≤ buffer.length) :
    (overwrite buffer pos xs).take (pos + xs.length) = buffer.take pos ++ xs := by
  have hlength : (buffer.take pos ++ xs).length = pos + xs.length := by
    simp [Nat.min_eq_left h]
  rw [overwrite, ← hlength, take_left]

/-- A piece finds room in what it reads, and reads no more than there is. -/
structure Piece.Fits (piece : Piece α σ) (t : List α) : Prop where
  written_le : piece.written.length ≤ piece.further + 1
  further_le : piece.further ≤ t.length

/-- The buffer of a loop with its two cursors, its flag and its state. -/
structure Cursors (α σ : Type) where
  buffer : List α
  write : Nat
  read : Nat
  changed : Bool
  state : σ

namespace Cursors

def start (input : List α) (pos : Nat) (state : σ) : Cursors α σ :=
  ⟨input, pos, pos, false, state⟩

def round (step : σ → α → List α → Piece α σ) (input : List α) (c : Cursors α σ) : Cursors α σ :=
  match input.drop c.read with
  | [] => c
  | b :: t =>
    let piece := step c.state b t
    ⟨overwrite c.buffer c.write piece.written, c.write + piece.written.length,
      c.read + (piece.further + 1), c.changed || piece.changed, piece.state⟩

/-- The cursors are in order, and what was written together with what is still to come is `out`. -/
structure Sound (step : σ → α → List α → Piece α σ) (input : List α) (out : List α × Bool)
    (c : Cursors α σ) : Prop where
  write_le : c.write ≤ c.read
  read_le : c.read ≤ input.length
  length_eq : c.buffer.length = input.length
  written : c.buffer.take c.write ++ (run step (fun _ => []) c.state (input.drop c.read)).1 = out.1
  flag : (c.changed || (run step (fun _ => []) c.state (input.drop c.read)).2) = out.2

section

variable {step : σ → α → List α → Piece α σ} {input : List α} {out : List α × Bool}

theorem sound_start (hpos : pos ≤ input.length) (state : σ) :
    Sound step input (input.take pos ++ (run step (fun _ => []) state (input.drop pos)).1,
      (run step (fun _ => []) state (input.drop pos)).2) (start input pos state) :=
  ⟨Nat.le_refl pos, hpos, rfl, rfl, Bool.false_or _⟩

/-- **A round keeps the cursors in order.** -/
theorem Sound.round (hstep : ∀ state b t, (step state b t).Fits t) {c : Cursors α σ}
    (h : Sound step input out c) : Sound step input out (c.round step input) := by
  unfold Cursors.round
  split
  · exact h
  · rename_i b t hdrop
    have hfits := hstep c.state b t
    have hwritten := hfits.written_le
    have hfurther := hfits.further_le
    have hle := h.write_le
    have hread : c.read + (t.length + 1) = input.length := by
      have hlength := congrArg length hdrop
      simp only [length_drop, length_cons] at hlength
      omega
    have hrest : input.drop (c.read + ((step c.state b t).further + 1))
        = t.drop (step c.state b t).further := by
      rw [← drop_drop, hdrop, drop_succ_cons]
    have hout := h.written
    have hflag := h.flag
    rw [hdrop, run_cons] at hout hflag
    constructor
    · dsimp only
      omega
    · dsimp only
      omega
    · dsimp only
      rw [length_overwrite, h.length_eq]
      rw [h.length_eq]
      omega
    · dsimp only
      rw [take_overwrite (by rw [h.length_eq]; omega), hrest, append_assoc]
      exact hout
    · dsimp only
      rw [hrest, Bool.or_assoc]
      exact hflag

theorem sound_rounds (hstep : ∀ state b t, (step state b t).Fits t)
    (hpos : pos ≤ input.length) (state : σ) (n : Nat) :
    Sound step input (input.take pos ++ (run step (fun _ => []) state (input.drop pos)).1,
      (run step (fun _ => []) state (input.drop pos)).2)
      ((round step input)^[n] (start input pos state)) := by
  induction n with
  | zero => exact sound_start hpos state
  | succ n ih =>
    rw [Function.iterate_succ_apply']
    exact ih.round hstep

theorem le_read_rounds {state : σ} (n : Nat) :
    min (pos + n) input.length ≤ ((round step input)^[n] (start input pos state)).read := by
  induction n with
  | zero => exact Nat.min_le_left _ _
  | succ n ih =>
    rw [Function.iterate_succ_apply']
    generalize (round step input)^[n] (start input pos state) = c at ih
    unfold Cursors.round
    split
    · rename_i hdrop
      have hend := drop_eq_nil_iff.mp hdrop
      omega
    · dsimp only
      omega

/-- **When the text is read, the buffer holds the result** up to the write cursor. -/
theorem rounds_all (hstep : ∀ state b t, (step state b t).Fits t)
    (hpos : pos ≤ input.length) (state : σ) :
    let c := (round step input)^[input.length] (start input pos state)
    c.read = input.length ∧
      (c.buffer.take c.write, c.changed)
        = (input.take pos ++ (run step (fun _ => []) state (input.drop pos)).1,
          (run step (fun _ => []) state (input.drop pos)).2) := by
  intro c
  have hsound : Sound step input _ c := sound_rounds hstep hpos state input.length
  have hend : c.read = input.length := by
    have hle : min (pos + input.length) input.length ≤ c.read := le_read_rounds input.length
    have hread := hsound.read_le
    omega
  have hout := hsound.written
  have hflag := hsound.flag
  rw [hend, drop_length, run_nil] at hout hflag
  rw [append_nil] at hout
  rw [Bool.or_false] at hflag
  exact ⟨hend, Prod.ext hout hflag⟩

end

end Cursors

end Rewriting
