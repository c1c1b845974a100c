import Coraza.Go.Io

/-!
# One reader after another

`multiRead` is the reader that `io.MultiReader` makes of two, and `drain` is a program that
reads until it gets an error, with buffers of any sizes.  A reader in the sense of `Reads` is
drained completely (`Reads.drain_eq`), and two of them, one after the other, are a reader again
(`Reads.multi`).
-/

namespace Go.Io

variable {ρ ρ₁ ρ₂ : Type}

/-! ### Reading to the end -/

def drain (read : ReadFn ρ) : List Nat → ρ → Bytes × Option Error
  | [], _ => ([], none)
  | size :: sizes, src =>
    match read src size with
    | ((b, some err), _) => (b, some err)
    | ((b, none), src) => (b ++ (drain read sizes src).1, (drain read sizes src).2)

/-- **A reader is drained completely**, by enough reads of any sizes. -/
theorem Reads.drain_eq {read : ReadFn ρ} {content : ρ → Bytes} {weight : ρ → Nat}
    {ends : ρ → Error → Prop} (h : ∀ size, 0 < size → Reads read size content weight ends)
    (sizes : List Nat) : (∀ size ∈ sizes, 0 < size) → ∀ src, weight src < sizes.length →
      (drain read sizes src).1 = content src ∧ ∃ err, (drain read sizes src).2 = some err := by
  induction sizes with
  | nil => exact fun _ src hlt => absurd hlt (Nat.not_lt_zero _)
  | cons size sizes ih =>
    intro hsizes src hlt
    have hsize := h size (hsizes size (List.mem_cons_self ..))
    have hbytes := hsize.bytes src
    have hprogress := hsize.progress src
    have herror := hsize.error src
    unfold drain
    generalize read src size = out at hbytes hprogress herror ⊢
    obtain ⟨⟨b, _ | err⟩, src'⟩ := out
    · have hweight : weight src' < weight src := hprogress rfl
      have hrest := ih (fun s hs => hsizes s (List.mem_cons_of_mem _ hs)) src'
        (lt_of_lt_of_le hweight (Nat.lt_succ_iff.mp hlt))
      refine ⟨?_, hrest.2⟩
      dsimp only
      rw [hrest.1]
      exact hbytes
    · have hnil : content src' = [] := (herror err rfl).2
      rw [hnil, List.append_nil] at hbytes
      exact ⟨hbytes, err, rfl⟩

/-! ### Two readers -/

inductive MultiReader (ρ₁ ρ₂ : Type) where
  | both (first : ρ₁) (second : ρ₂)
  | second (second : ρ₂)
  | nothing

/-- `multiReader.Read`, with one reader left. -/
def multiReadSecond (read₂ : ReadFn ρ₂) (r₂ : ρ₂) (size : Nat) :
    (Bytes × Option Error) × MultiReader ρ₁ ρ₂ :=
  let ((b, err), r₂) := read₂ r₂ size
  if err = some .eof then ((b, some .eof), .nothing) else ((b, err), .second r₂)

/-- `multiReader.Read`, for two readers. -/
def multiRead (read₁ : ReadFn ρ₁) (read₂ : ReadFn ρ₂) : ReadFn (MultiReader ρ₁ ρ₂) :=
  fun r size =>
    match r with
    | .both r₁ r₂ =>
      let ((b, err), r₁) := read₁ r₁ size
      if err = some .eof then
        if b = [] then multiReadSecond read₂ r₂ size else ((b, none), .second r₂)
      else ((b, err), .both r₁ r₂)
    | .second r₂ => multiReadSecond read₂ r₂ size
    | .nothing => (([], some .eof), .nothing)

section

variable (content₁ : ρ₁ → Bytes) (weight₁ : ρ₁ → Nat) (content₂ : ρ₂ → Bytes)
  (weight₂ : ρ₂ → Nat) (ends₂ : ρ₂ → Error → Prop)

def MultiReader.content : MultiReader ρ₁ ρ₂ → Bytes
  | .both r₁ r₂ => content₁ r₁ ++ content₂ r₂
  | .second r₂ => content₂ r₂
  | .nothing => []

def MultiReader.weight : MultiReader ρ₁ ρ₂ → Nat
  | .both r₁ r₂ => weight₁ r₁ + weight₂ r₂ + 2
  | .second r₂ => weight₂ r₂ + 1
  | .nothing => 0

def MultiReader.ends : MultiReader ρ₁ ρ₂ → Error → Prop
  | .both _ r₂, err => err = .eof ∨ ends₂ r₂ err
  | .second r₂, err => err = .eof ∨ ends₂ r₂ err
  | .nothing, err => err = .eof

variable {content₁ weight₁ content₂ weight₂ ends₂}

/-- One answer of a reader, as `Reads` asks for it. -/
structure Answer (content : ρ → Bytes) (weight : ρ → Nat) (ends : ρ → Error → Prop) (src : ρ)
    (out : (Bytes × Option Error) × ρ) : Prop where
  bytes : out.1.1 ++ content out.2 = content src
  progress : out.1.2 = none → weight out.2 < weight src
  error : ∀ err, out.1.2 = some err → ends src err ∧ content out.2 = []
  later : ∀ err, ends out.2 err → ends src err

variable {read₂ : ReadFn ρ₂}

theorem multiReadSecond_answer {size : Nat}
    (h : Reads read₂ size content₂ weight₂ ends₂) (r₂ : ρ₂) :
    Answer (MultiReader.content content₁ content₂) (MultiReader.weight weight₁ weight₂)
      (MultiReader.ends ends₂) (.second r₂) (multiReadSecond read₂ r₂ size) := by
  have hbytes := h.bytes r₂
  have hprogress := h.progress r₂
  have herror := h.error r₂
  have hlater := h.later r₂
  unfold multiReadSecond
  dsimp only
  generalize read₂ r₂ size = out at hbytes hprogress herror hlater ⊢
  obtain ⟨⟨b, er⟩, r₂'⟩ := out
  by_cases heof : er = some .eof
  · rw [if_pos heof]
    rw [(herror _ heof).2, List.append_nil] at hbytes
    refine ⟨(List.append_nil b).trans hbytes, nofun, ?_, fun err herr => .inl herr⟩
    intro err herr
    cases herr
    exact ⟨.inl rfl, rfl⟩
  · rw [if_neg heof]
    refine ⟨hbytes, fun hnone => Nat.succ_lt_succ (hprogress hnone), ?_, ?_⟩
    · exact fun err herr => ⟨.inr (herror err herr).1, (herror err herr).2⟩
    · exact fun err herr => herr.imp id (hlater err)

theorem multiRead_answer {read₁ : ReadFn ρ₁} {size : Nat}
    (h₁ : Reads read₁ size content₁ weight₁ (fun _ err => err = .eof))
    (h₂ : Reads read₂ size content₂ weight₂ ends₂) (r : MultiReader ρ₁ ρ₂) :
    Answer (MultiReader.content content₁ content₂) (MultiReader.weight weight₁ weight₂)
      (MultiReader.ends ends₂) r (multiRead read₁ read₂ r size) := by
  cases r with
  | nothing => exact ⟨rfl, nofun, fun err h => ⟨(Option.some.inj h).symm, rfl⟩, fun err h => h⟩
  | second r₂ => exact multiReadSecond_answer h₂ r₂
  | both r₁ r₂ =>
    have hbytes := h₁.bytes r₁
    have hprogress := h₁.progress r₁
    have herror := h₁.error r₁
    unfold multiRead
    dsimp only
    generalize read₁ r₁ size = out at hbytes hprogress herror ⊢
    obtain ⟨⟨b, er⟩, r₁'⟩ := out
    dsimp only at hbytes hprogress herror ⊢
    by_cases heof : er = some .eof
    · rw [if_pos heof]
      rw [(herror _ heof).2, List.append_nil] at hbytes
      by_cases hb : b = []
      · -- the first reader is at its end
        rw [if_pos hb]
        have hsecond : Answer (MultiReader.content content₁ content₂)
          (MultiReader.weight weight₁ weight₂) (MultiReader.ends ends₂) (.second r₂) _ :=
          multiReadSecond_answer h₂ r₂
        refine ⟨?_, fun hnone => ?_, hsecond.error, hsecond.later⟩
        · rw [hsecond.bytes]
          show content₂ r₂ = content₁ r₁ ++ content₂ r₂
          rw [← hbytes, hb, List.nil_append]
        · refine lt_trans (hsecond.progress hnone) ?_
          show weight₂ r₂ + 1 < weight₁ r₁ + weight₂ r₂ + 2
          omega
      · rw [if_neg hb]
        refine ⟨congrArg (· ++ content₂ r₂) hbytes, fun _ => ?_, nofun, fun err h => h⟩
        show weight₂ r₂ + 1 < weight₁ r₁ + weight₂ r₂ + 2
        omega
    · rw [if_neg heof]
      refine ⟨?_, fun hnone => ?_, ?_, fun err h => h⟩
      · show b ++ (content₁ r₁' ++ content₂ r₂) = content₁ r₁ ++ content₂ r₂
        rw [← List.append_assoc, hbytes]
      · have := hprogress hnone
        show weight₁ r₁' + weight₂ r₂ + 2 < weight₁ r₁ + weight₂ r₂ + 2
        omega
      · exact fun err herr => absurd (herr.trans (congrArg some (herror err herr).1)) heof

/-- **Two readers, one after the other, are a reader**, if the only end of the first is the
plain one. -/
theorem Reads.multi {read₁ : ReadFn ρ₁} {size : Nat}
    (h₁ : Reads read₁ size content₁ weight₁ (fun _ err => err = .eof))
    (h₂ : Reads read₂ size content₂ weight₂ ends₂) :
    Reads (multiRead read₁ read₂) size (MultiReader.content content₁ content₂)
      (MultiReader.weight weight₁ weight₂) (MultiReader.ends ends₂) where
  bytes := fun r => (multiRead_answer h₁ h₂ r).bytes
  progress := fun r => (multiRead_answer h₁ h₂ r).progress
  error := fun r => (multiRead_answer h₁ h₂ r).error
  later := fun r => (multiRead_answer h₁ h₂ r).later

end

end Go.Io
