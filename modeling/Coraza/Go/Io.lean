import Coraza.Go.Utf8

/-!
# Readers and copying, as package `io` does it

A reader is a state with a function that is asked for at most `n` bytes and
returns some of them, an error, or both; a writer takes bytes and says how many
it took.  `copyBuffer` is the loop below `io.Copy` and `io.CopyN`.  It has to be
told how often it may go round, because a reader may answer with nothing for
ever.

`Stream` is the reader that the surroundings hand to a program: its bytes arrive
in chunks of any sizes, and end with an error that may come with the last chunk or
after it.
-/

namespace Go

open List

/-- An error value: one of those of package `io`, `errors.New` or `fmt.Errorf`. -/
inductive Error where
  | eof
  | shortWrite
  | new (text : String)
  | errorf (format : String) (args : List Bytes)
  deriving DecidableEq, Repr

def bytesOf (s : String) : Bytes := s.toUTF8.toList

/-- A format with its verbs `%v` and `%s` replaced by the texts of the arguments. -/
def formatText : Bytes → List Bytes → Bytes
  | 0x25 :: 0x76 :: rest, arg :: args => arg ++ formatText rest args
  | 0x25 :: 0x73 :: rest, arg :: args => arg ++ formatText rest args
  | b :: rest, args => b :: formatText rest args
  | [], _ => []

def Error.text : Error → Bytes
  | .eof => bytesOf "EOF"
  | .shortWrite => bytesOf "short write"
  | .new text => bytesOf text
  | .errorf format args => formatText (bytesOf format) args

def maxInt64 : Int := 2 ^ 63 - 1

def wrap64 (x : Int) : Int := x.bmod (2 ^ 64)

theorem wrap64_of_range {x : Int} (h0 : -2 ^ 63 ≤ x) (h1 : x < 2 ^ 63) : wrap64 x = x := by
  unfold wrap64
  rw [Int.bmod_eq_of_le] <;> omega

theorem wrap64_below {x : Int} (h0 : -2 ^ 63 - 2 ^ 64 ≤ x) (h1 : x < -2 ^ 63) :
    wrap64 x = x + 2 ^ 64 := by
  have hshift : wrap64 (x + 2 ^ 64) = wrap64 x := Int.add_bmod_right ..
  rw [← hshift, wrap64_of_range] <;> omega

theorem wrap64_bounds (x : Int) : -2 ^ 63 ≤ wrap64 x ∧ wrap64 x < 2 ^ 63 := by
  have hle := Int.le_bmod (x := x) (m := 2 ^ 64) (by decide)
  have hlt := Int.bmod_lt (x := x) (m := 2 ^ 64) (by decide)
  unfold wrap64
  omega

namespace Io

abbrev ReadFn (ρ : Type) := ρ → Nat → (Bytes × Option Error) × ρ

abbrev WriteFn (σ : Type) := σ → Bytes → (Nat × Option Error) × σ

section

variable {ρ σ : Type} (read : ReadFn ρ) (write : WriteFn σ)

/-- The loop of `io.copyBuffer`; the first number is how often it may still go
round. -/
def copyBuffer (size : Nat) : Nat → ρ → σ → Nat → (Nat × Option Error) × ρ × σ
  | 0, src, dst, written => ((written, none), src, dst)
  | fuel + 1, src, dst, written =>
    let ((b, er), src) := read src size
    let ((nw, ew), dst) := if b = [] then ((0, none), dst) else write dst b
    let written := written + nw
    match ew with
    | some err => ((written, some err), src, dst)
    | none =>
      if nw ≠ b.length then ((written, some .shortWrite), src, dst)
      else
        match er with
        | none => copyBuffer size fuel src dst written
        | some .eof => ((written, none), src, dst)
        | some err => ((written, some err), src, dst)

/-- The writer has taken all of `b`; it is not asked for nothing. -/
inductive Took (dst : σ) (b : Bytes) : σ → Prop where
  | nothing (hb : b = []) : Took dst b dst
  | all (hb : b ≠ []) (hres : (write dst b).1 = (b.length, none)) : Took dst b (write dst b).2

/-- The outcomes of a round that has read `b` with the error `er`. -/
inductive Round (size fuel : Nat) (b : Bytes) (er : Option Error) (src : ρ) (dst : σ) (n : Nat) :
    (Nat × Option Error) × ρ × σ → Prop where
  | refused (hb : b ≠ []) (hres : (write dst b).1 ≠ (b.length, none)) :
      Round size fuel b er src dst n ((n + (write dst b).1.1,
        some ((write dst b).1.2.getD .shortWrite)), src, (write dst b).2)
  | again {dst' : σ} (htook : Took write dst b dst') (her : er = none) :
      Round size fuel b er src dst n (copyBuffer read write size fuel src dst' (n + b.length))
  | ended {dst' : σ} (htook : Took write dst b dst') {err : Error} (her : er = some err) :
      Round size fuel b er src dst n ((n + b.length, if err = .eof then none else some err), src,
        dst')

theorem copyBuffer_round (size fuel : Nat) (src : ρ) (dst : σ) (n : Nat) :
    Round read write size fuel (read src size).1.1 (read src size).1.2 (read src size).2 dst n
      (copyBuffer read write size (fuel + 1) src dst n) := by
  unfold copyBuffer
  generalize read src size = out
  obtain ⟨⟨b, er⟩, src'⟩ := out
  dsimp only
  have hnext : ∀ dst', Took write dst b dst' → Round read write size fuel b er src' dst n
      (match er with
        | none => copyBuffer read write size fuel src' dst' (n + b.length)
        | some .eof => ((n + b.length, none), src', dst')
        | some err => ((n + b.length, some err), src', dst')) := by
    intro dst' htook
    cases er with
    | none => exact .again htook rfl
    | some err => cases err <;> exact .ended htook rfl
  by_cases hb : b = []
  · subst hb
    exact hnext dst (.nothing rfl)
  rw [if_neg hb]
  by_cases hres : (write dst b).1 = (b.length, none)
  · have htook := Took.all hb hres
    generalize write dst b = out at hres htook ⊢
    obtain ⟨⟨nw, ew⟩, dst'⟩ := out
    obtain ⟨rfl, rfl⟩ := Prod.mk.inj hres
    rw [if_neg (not_not.mpr rfl)]
    exact hnext dst' htook
  · have hrefused : Round read write size fuel b er src' dst n _ := .refused hb hres
    generalize write dst b = out at hres hrefused ⊢
    obtain ⟨⟨nw, _ | err⟩, dst'⟩ := out
    · dsimp only
      rw [if_pos (fun heq : nw = b.length => hres (heq ▸ rfl))]
      exact hrefused
    · exact hrefused

/-- **The rule of the copy loop.**  `P` is what is known when a round begins, and `E` is what is
known of an error: a write that took too little, one of a read, or one of a write. -/
theorem copyBuffer_rule {size : Nat} {P : ρ → σ → Nat → Prop} {E : Error → Prop}
    (hshort : E .shortWrite)
    (hread : ∀ src dst n, P src dst n → ∀ err, (read src size).1.2 = some err → E err)
    (hnothing : ∀ src dst n, P src dst n → (read src size).1.1 = [] → P (read src size).2 dst n)
    (hwrite : ∀ src dst n, P src dst n → (read src size).1.1 ≠ [] →
      P (read src size).2 (write dst (read src size).1.1).2
          (n + (write dst (read src size).1.1).1.1) ∧
        ∀ err, (write dst (read src size).1.1).1.2 = some err → E err)
    (fuel : Nat) (src : ρ) (dst : σ) (n : Nat) : P src dst n →
      P (copyBuffer read write size fuel src dst n).2.1
          (copyBuffer read write size fuel src dst n).2.2
          (copyBuffer read write size fuel src dst n).1.1 ∧
        ∀ err, (copyBuffer read write size fuel src dst n).1.2 = some err → E err := by
  induction fuel generalizing src dst n with
  | zero => exact fun h => ⟨h, nofun⟩
  | succ fuel ih =>
    intro h
    have hround := copyBuffer_round read write size fuel src dst n
    have htaken : ∀ {dst'}, Took write dst (read src size).1.1 dst' →
        P (read src size).2 dst' (n + (read src size).1.1.length) := by
      rintro _ (hb | ⟨hb, hres⟩)
      · rw [hb]
        exact hnothing src dst n h hb
      · have hP := (hwrite src dst n h hb).1
        rwa [hres] at hP
    generalize copyBuffer read write size (fuel + 1) src dst n = out at hround ⊢
    cases hround with
    | refused hb hres =>
      obtain ⟨hP, hE⟩ := hwrite src dst n h hb
      refine ⟨hP, ?_⟩
      rintro err ⟨⟩
      cases hew : (write dst (read src size).1.1).1.2 with
      | none => exact hshort
      | some err => exact hE err hew
    | again htook her => exact ih _ _ _ (htaken htook)
    | ended htook her =>
      refine ⟨htaken htook, fun err herr => ?_⟩
      split at herr
      · cases herr
      · exact hread src dst n h err (her.trans herr)

/-- **The invariant rule of the copy loop.**  What a read of nothing keeps, and a read together
with the write of what was read, holds at the end. -/
theorem copyBuffer_invariant {size : Nat} {P : ρ → σ → Nat → Prop}
    (hread : ∀ src dst n, P src dst n → (read src size).1.1 = [] → P (read src size).2 dst n)
    (hwrite : ∀ src dst n, P src dst n → (read src size).1.1 ≠ [] →
      P (read src size).2 (write dst (read src size).1.1).2
        (n + (write dst (read src size).1.1).1.1))
    (fuel : Nat) (src : ρ) (dst : σ) (n : Nat) (h : P src dst n) :
    P (copyBuffer read write size fuel src dst n).2.1
      (copyBuffer read write size fuel src dst n).2.2
      (copyBuffer read write size fuel src dst n).1.1 :=
  (copyBuffer_rule read write (E := fun _ => True) trivial (fun _ _ _ _ _ _ => trivial) hread
    (fun src dst n h hb => ⟨hwrite src dst n h hb, fun _ _ => trivial⟩) fuel src dst n h).1

/-- A reader that is asked for `size` bytes at a time: it returns `content` in order and goes
on for at most `weight` reads, and its end is an error of `ends`. -/
structure Reads (size : Nat) (content : ρ → Bytes) (weight : ρ → Nat) (ends : ρ → Error → Prop) :
    Prop where
  bytes : ∀ src, (read src size).1.1 ++ content (read src size).2 = content src
  progress : ∀ src, (read src size).1.2 = none → weight (read src size).2 < weight src
  error : ∀ src err, (read src size).1.2 = some err →
    ends src err ∧ content (read src size).2 = []
  later : ∀ src err, ends (read src size).2 err → ends src err

/-- What a copy that is not stopped has done: everything was read and taken, and the error of
the reader is the result, unless it is the plain end.  Whatever lies behind `content` is still
there. -/
structure Copied (size : Nat) (content : ρ → Bytes) (ends : ρ → Error → Prop)
    (P : Bytes → σ → Prop) (acc : Bytes) (n : Nat) (src : ρ)
    (out : (Nat × Option Error) × ρ × σ) : Prop where
  taken : P (acc ++ content src) out.2.2
  rest : ∀ content' : ρ → Bytes,
    (∀ src, (read src size).1.1 ++ content' (read src size).2 = content' src) →
    content src ++ content' out.2.1 = content' src
  written : out.1.1 = n + (content src).length
  error : ∀ err, out.1.2 = some err → ends src err ∧ err ≠ .eof

variable {read write}

/-- What a copy that the writer has stopped has done: the bytes `taken` were copied, the
writer did not take the following bytes `b`, and the result says so. -/
inductive Stopped (read : ReadFn ρ) (write : WriteFn σ) (size : Nat) (content : ρ → Bytes)
    (P : Bytes → σ → Prop)
    (acc : Bytes) (n : Nat) (src : ρ) (out : (Nat × Option Error) × ρ × σ) : Prop where
  | intro (taken b : Bytes) (dst : σ) (hP : P (acc ++ taken) dst) (hb : b ≠ [])
      (hpre : taken ++ b <+: content src) (hrefused : (write dst b).1 ≠ (b.length, none))
      (hstate : out.2.2 = (write dst b).2)
      (hres : out.1 = (n + taken.length + (write dst b).1.1,
        some ((write dst b).1.2.getD .shortWrite)))
      (hrest : ∀ content' : ρ → Bytes,
        (∀ src, (read src size).1.1 ++ content' (read src size).2 = content' src) →
        taken ++ b ++ content' out.2.1 = content' src)

variable {src : ρ}

section

variable {size : Nat} {content : ρ → Bytes} {weight : ρ → Nat} {ends : ρ → Error → Prop}
  (h : Reads read size content weight ends) {P : Bytes → σ → Prop}

include h

variable {out : (Nat × Option Error) × ρ × σ}

theorem Copied.round {acc : Bytes} {n : Nat}
    (hrest : Copied read size content ends P (acc ++ (read src size).1.1)
      (n + (read src size).1.1.length) (read src size).2 out) :
    Copied read size content ends P acc n src out where
  taken := by
    rw [← h.bytes, ← append_assoc]
    exact hrest.taken
  rest := by
    intro content' hlaw
    rw [← h.bytes, append_assoc, hrest.rest content' hlaw, hlaw]
  written := by rw [hrest.written, ← h.bytes src, length_append, Nat.add_assoc]
  error := fun err herr => ⟨h.later src err (hrest.error err herr).1, (hrest.error err herr).2⟩

theorem Stopped.round {acc : Bytes} {n : Nat}
    (hrest : Stopped read write size content P (acc ++ (read src size).1.1)
      (n + (read src size).1.1.length) (read src size).2 out) :
    Stopped read write size content P acc n src out := by
  obtain ⟨taken, b, dst, hP, hb, hpre, hrefused, hstate, hres, hrest⟩ := hrest
  refine ⟨(read src size).1.1 ++ taken, b, dst, ?_, hb, ?_, hrefused, hstate, ?_, ?_⟩
  · rwa [append_assoc] at hP
  · rw [← h.bytes, append_assoc]
    exact (prefix_append_right_inj _).mpr hpre
  · rw [hres, length_append, Nat.add_assoc n]
  · intro content' hlaw
    rw [append_assoc, append_assoc, ← append_assoc taken, hrest content' hlaw, hlaw]

/-- **The outcomes of a copy.**  `P` is what is known of the writer when it has taken some
bytes. -/
theorem Reads.copy_cases
    (hwrite : ∀ acc dst b, b ≠ [] → P acc dst → (write dst b).1 = (b.length, none) →
      P (acc ++ b) (write dst b).2) :
    ∀ (fuel : Nat) (src : ρ) (dst : σ) (n : Nat) (acc : Bytes), weight src < fuel → P acc dst →
      Copied read size content ends P acc n src (copyBuffer read write size fuel src dst n) ∨
        Stopped read write size content P acc n src
          (copyBuffer read write size fuel src dst n) := by
  intro fuel
  induction fuel with
  | zero => exact fun src dst n acc hfuel _ => absurd hfuel (Nat.not_lt_zero _)
  | succ fuel ih =>
    intro src dst n acc hfuel hP
    have hround := copyBuffer_round read write size fuel src dst n
    have htaken : ∀ {dst'}, Took write dst (read src size).1.1 dst' →
        P (acc ++ (read src size).1.1) dst' := by
      rintro _ (hb | ⟨hb, hres⟩)
      · rwa [hb, append_nil]
      · exact hwrite acc dst _ hb hP hres
    generalize copyBuffer read write size (fuel + 1) src dst n = out at hround ⊢
    cases hround with
    | refused hb hres =>
      refine .inr ⟨[], _, dst, by rwa [append_nil], hb, ?_, hres, rfl, rfl, fun _ hlaw => hlaw src⟩
      exact h.bytes src ▸ prefix_append _ _
    | again htook her =>
      have hfuel' := lt_of_lt_of_le (h.progress src her) (Nat.lt_succ_iff.mp hfuel)
      exact (ih _ _ _ _ hfuel' (htaken htook)).imp (Copied.round h) (Stopped.round h)
    | ended htook her =>
      obtain ⟨hends, hnil⟩ := h.error src _ her
      have hb := h.bytes src
      rw [hnil, append_nil] at hb
      refine .inl ⟨hb ▸ htaken htook, fun _ hlaw => hb ▸ hlaw src, by rw [hb], fun err herr => ?_⟩
      split at herr
      · cases herr
      · cases herr
        exact ⟨hends, ‹_›⟩

/-- **The copy of a reader to a writer that takes everything**, up to states `Q` in which it
may refuse. -/
theorem Reads.copy_all {Q : σ → Prop} (hstuck : ∀ dst b, Q dst → Q (write dst b).2)
    (hwrite : ∀ acc dst b, b ≠ [] → P acc dst → Q (write dst b).2 ∨
      (write dst b).1 = (b.length, none) ∧ P (acc ++ b) (write dst b).2)
    {fuel : Nat} (hfuel : weight src < fuel) {dst : σ} (n : Nat) {acc : Bytes} (hP : P acc dst) :
    Q (copyBuffer read write size fuel src dst n).2.2 ∨
      Copied read size content ends P acc n src (copyBuffer read write size fuel src dst n) := by
  have hwrite' : ∀ acc dst b, b ≠ [] → Q dst ∨ P acc dst → (write dst b).1 = (b.length, none) →
      Q (write dst b).2 ∨ P (acc ++ b) (write dst b).2 := by
    rintro acc dst b hb (hQ | hP') -
    · exact .inl (hstuck dst b hQ)
    · exact (hwrite acc dst b hb hP').imp id And.right
  rcases h.copy_cases hwrite' fuel src dst n acc hfuel (.inr hP) with
    hcopied | ⟨taken, b, dst', hP', hb, -, hrefused, hstate, -, -⟩
  · exact hcopied.taken.imp id
      (fun htaken => ⟨htaken, hcopied.rest, hcopied.written, hcopied.error⟩)
  · left
    rw [hstate]
    rcases hP' with hQ | hP'
    · exact hstuck dst' b hQ
    · exact (hwrite _ dst' b hb hP').resolve_right (fun hres => hrefused hres.1)

end

variable (read write)

/-- `io.LimitedReader.Read`; the state has the number of bytes left. -/
def limitedRead : ReadFn (ρ × Int) := fun (src, left) size =>
  if left ≤ 0 then (([], some .eof), (src, left))
  else
    let ((b, err), src) := read src (min size left.toNat)
    ((b, err), (src, left - b.length))

def copySize : Nat := 32 * 1024

def limitedSize (n : Int) : Nat := if n < copySize then max 1 n.toNat else copySize

def copyN (fuel : Nat) (src : ρ) (dst : σ) (n : Int) : (Nat × Option Error) × ρ × σ :=
  let ((written, err), (src, _), dst) :=
    copyBuffer (limitedRead read) write (limitedSize n) fuel (src, n) dst 0
  if written = n then ((written, none), src, dst)
  else if written < n ∧ err = none then ((written, some .eof), src, dst)
  else ((written, err), src, dst)

/-- **The rule of `CopyN`**, from that of the loop. -/
theorem copyN_rule {n : Int} {P : ρ × Int → σ → Prop} {E : Error → Prop} (heof : E .eof)
    (hshort : E .shortWrite)
    (hread : ∀ src dst, P src dst → P (limitedRead read src (limitedSize n)).2 dst ∧
      ∀ err, (limitedRead read src (limitedSize n)).1.2 = some err → E err)
    (hwrite : ∀ src dst, P src dst →
      P (limitedRead read src (limitedSize n)).2
          (write dst (limitedRead read src (limitedSize n)).1.1).2 ∧
        ∀ err, (write dst (limitedRead read src (limitedSize n)).1.1).1.2 = some err → E err)
    (fuel : Nat) {dst : σ} (h : P (src, n) dst) :
    (∃ left, P ((copyN read write fuel src dst n).2.1, left)
        (copyN read write fuel src dst n).2.2) ∧
      ∀ err, (copyN read write fuel src dst n).1.2 = some err → E err := by
  obtain ⟨hend, herror⟩ := copyBuffer_rule (limitedRead read) write
    (P := fun src dst _ => P src dst) hshort (fun src dst _ h => (hread src dst h).2)
    (fun src dst _ h _ => (hread src dst h).1) (fun src dst _ h _ => hwrite src dst h)
    fuel (src, n) dst 0 h
  unfold copyN
  generalize copyBuffer (limitedRead read) write (limitedSize n) fuel (src, n) dst 0 = out
    at hend herror ⊢
  obtain ⟨⟨written, err⟩, ⟨src', left⟩, dst'⟩ := out
  dsimp only at hend herror ⊢
  split
  · exact ⟨⟨left, hend⟩, nofun⟩
  split
  · refine ⟨⟨left, hend⟩, ?_⟩
    rintro err ⟨⟩
    exact heof
  · exact ⟨⟨left, hend⟩, herror⟩

variable {read write}

theorem Reads.limited {content : ρ → Bytes} {weight : ρ → Nat} {ends : ρ → Error → Prop}
    (h : ∀ size, 0 < size → Reads read size content weight ends)
    (hlen : ∀ src size, (read src size).1.1.length ≤ size) {size : Nat} (hsize : 0 < size) :
    Reads (limitedRead read) size (fun p => (content p.1).take p.2.toNat) (fun p => weight p.1)
      (fun p err => err = .eof ∨ ends p.1 err) where
  bytes := by
    rintro ⟨src, left⟩
    unfold limitedRead
    dsimp only
    split
    · rfl
    · have hb := (h (min size left.toNat) (by omega)).bytes src
      have hl := hlen src (min size left.toNat)
      generalize read src (min size left.toNat) = out at hb hl ⊢
      obtain ⟨⟨b, err⟩, src'⟩ := out
      dsimp only at hb hl ⊢
      have hleft : (left - b.length).toNat = left.toNat - b.length := by omega
      have hall : b.take left.toNat = b := take_of_length_le (by omega)
      rw [hleft, ← hb, take_append, hall]
  progress := by
    rintro ⟨src, left⟩ herr
    unfold limitedRead at herr ⊢
    dsimp only at herr ⊢
    split at herr
    · cases herr
    · rename_i hleft
      rw [if_neg hleft]
      exact (h (min size left.toNat) (by omega)).progress src herr
  error := by
    rintro ⟨src, left⟩ err herr
    unfold limitedRead at herr ⊢
    dsimp only at herr ⊢
    split at herr
    · rename_i hleft
      rw [if_pos hleft]
      refine ⟨.inl (Option.some.inj herr).symm, ?_⟩
      rw [Int.toNat_of_nonpos hleft, take_zero]
    · rename_i hleft
      rw [if_neg hleft]
      obtain ⟨hends, hnil⟩ := (h (min size left.toNat) (by omega)).error src err herr
      refine ⟨.inr hends, ?_⟩
      rw [hnil, take_nil]
  later := by
    rintro ⟨src, left⟩ err herr
    unfold limitedRead at herr
    dsimp only at herr
    split at herr
    · exact herr
    · exact herr.imp id ((h (min size left.toNat) (by omega)).later src err)

/-- What `CopyN` has done when it was not stopped: it has copied `n` bytes, or all there were. -/
structure CopiedN (content : ρ → Bytes) (ends : ρ → Error → Prop) (P : Bytes → σ → Prop)
    (n : Int) (src : ρ) (out : (Nat × Option Error) × ρ × σ) : Prop where
  taken : P ((content src).take n.toNat) out.2.2
  rest : (content src).take n.toNat ++ content out.2.1 = content src
  written : out.1.1 = ((content src).take n.toNat).length
  full : n ≤ (content src).length → out.1.2 = none
  error : (content src).length < n → ∃ err, out.1.2 = some err ∧ (err = .eof ∨ ends src err)

/-- What it has done when the writer has stopped it.  If the count is right all the same,
the error is dropped. -/
inductive StoppedN (write : WriteFn σ) (content : ρ → Bytes) (P : Bytes → σ → Prop) (n : Int)
    (src : ρ) (out : (Nat × Option Error) × ρ × σ) : Prop where
  | intro (taken b : Bytes) (dst : σ) (hP : P taken dst) (hb : b ≠ [])
      (hpre : taken ++ b <+: (content src).take n.toNat)
      (hrefused : (write dst b).1 ≠ (b.length, none)) (hstate : out.2.2 = (write dst b).2)
      (hres : out.1 = (taken.length + (write dst b).1.1,
        if ((taken.length + (write dst b).1.1 : Nat) : Int) = n then none
        else some ((write dst b).1.2.getD .shortWrite)))
      (hrest : taken ++ b ++ content out.2.1 = content src)

theorem copyN_nonpos {n : Int} (hn : n ≤ 0) (fuel : Nat) (src : ρ) (dst : σ) :
    copyN read write (fuel + 1) src dst n = ((0, none), src, dst) := by
  have hcopy : copyBuffer (limitedRead read) write (limitedSize n) (fuel + 1) (src, n) dst 0
      = ((0, none), (src, n), dst) := by
    unfold copyBuffer limitedRead
    dsimp only
    rw [if_pos hn]
    rfl
  unfold copyN
  rw [hcopy]
  dsimp only
  split
  · rfl
  · rw [if_neg (by omega)]

/-- **The outcomes of `CopyN`.** -/
theorem Reads.copyN_cases {content : ρ → Bytes} {weight : ρ → Nat} {ends : ρ → Error → Prop}
    (h : ∀ size, 0 < size → Reads read size content weight ends)
    (hlen : ∀ src size, (read src size).1.1.length ≤ size) {P : Bytes → σ → Prop}
    (hwrite : ∀ acc dst b, b ≠ [] → P acc dst → (write dst b).1 = (b.length, none) →
      P (acc ++ b) (write dst b).2)
    {fuel : Nat} (hfuel : weight src < fuel) {dst : σ} (hP : P [] dst) {n : Int}
    (hn0 : 0 ≤ n) : CopiedN content ends P n src (copyN read write fuel src dst n) ∨
      StoppedN write content P n src (copyN read write fuel src dst n) := by
  have hpos : 0 < limitedSize n := by
    unfold limitedSize
    split
    · omega
    · decide
  have hreads : Reads (limitedRead read) (limitedSize n) _ _ _ := Reads.limited h hlen hpos
  have hlaw : ∀ p, (limitedRead read p (limitedSize n)).1.1 ++
      content (limitedRead read p (limitedSize n)).2.1 = content p.1 := by
    rintro ⟨src, left⟩
    unfold limitedRead
    dsimp only
    split
    · rfl
    · exact (h (min (limitedSize n) left.toNat) (by omega)).bytes src
  unfold copyN
  rcases hreads.copy_cases hwrite fuel (src, n) dst 0 [] hfuel hP with hcopied | hstopped
  · left
    have hrest := hcopied.rest (fun p => content p.1) hlaw
    have hwritten := hcopied.written
    have htaken := hcopied.taken
    have herror := hcopied.error
    generalize copyBuffer (limitedRead read) write (limitedSize n) fuel (src, n) dst 0 = out
      at hrest hwritten htaken herror ⊢
    obtain ⟨⟨written, err⟩, ⟨src', left⟩, dst'⟩ := out
    dsimp only at hrest hwritten htaken herror ⊢
    rw [Nat.zero_add] at hwritten
    have hlength : written = min n.toNat (content src).length := by
      rw [hwritten, length_take]
    split
    · rename_i hn
      exact ⟨htaken, hrest, hwritten, fun _ => rfl, fun hlt => by omega⟩
    · rename_i hn
      split
      · exact ⟨htaken, hrest, hwritten, fun hle => by omega, fun _ => ⟨.eof, rfl, .inl rfl⟩⟩
      · rename_i hlt
        refine ⟨htaken, hrest, hwritten, fun hle => by omega, fun hshort => ?_⟩
        cases err with
        | none => exact absurd ⟨by omega, rfl⟩ hlt
        | some err => exact ⟨err, rfl, (herror err rfl).1⟩
  · right
    obtain ⟨taken, b, dst₁, hP₁, hb, hpre, hrefused, hstate, hres, hrest⟩ := hstopped
    have hrest := hrest (fun p => content p.1) hlaw
    generalize copyBuffer (limitedRead read) write (limitedSize n) fuel (src, n) dst 0 = out
      at hstate hres hrest ⊢
    obtain ⟨⟨written, err⟩, ⟨src', left⟩, dst'⟩ := out
    dsimp only at hstate hres hrest ⊢
    rw [Nat.zero_add] at hres
    obtain ⟨rfl, rfl⟩ := Prod.mk.inj hres
    refine ⟨taken, b, dst₁, hP₁, hb, hpre, hrefused, ?_, ?_, ?_⟩
    · split_ifs <;> exact hstate
    · split_ifs with hn herr
      · rfl
      · cases herr.2
      · rfl
    · split_ifs <;> exact hrest

variable (read write)

def copy (fuel : Nat) (src : ρ) (dst : σ) : (Nat × Option Error) × ρ × σ :=
  copyBuffer read write copySize fuel src dst 0

end

/-- A stream from outside: chunks, the error at the end, whether that error is
returned together with the last chunk, and what a `Len` method reports if the
stream has one. -/
structure Stream where
  chunks : List Bytes
  last : Error
  withLast : Bool
  len : Option Int

namespace Stream

def read : ReadFn Stream := fun s size =>
  match s.chunks with
  | [] => (([], some s.last), s)
  | c :: cs =>
    if c.length ≤ size then
      ((c, if cs = [] ∧ s.withLast then some s.last else none), { s with chunks := cs })
    else ((c.take size, none), { s with chunks := c.drop size :: cs })

def content (s : Stream) : Bytes := s.chunks.flatten

def weight (s : Stream) : Nat := (s.chunks.map (fun c => c.length + 1)).sum

theorem read_content (s : Stream) (size : Nat) :
    (read s size).1.1 ++ (read s size).2.content = s.content := by
  obtain ⟨_ | ⟨c, cs⟩, last, withLast, len⟩ := s
  · rfl
  · unfold read content
    dsimp only
    by_cases hc : c.length ≤ size
    · rw [if_pos hc]
      exact List.flatten_cons.symm
    · rw [if_neg hc]
      rw [flatten_cons, ← append_assoc, take_append_drop, flatten_cons]

theorem read_length (s : Stream) (size : Nat) : (read s size).1.1.length ≤ size := by
  obtain ⟨_ | ⟨c, cs⟩, last, withLast, len⟩ := s
  · exact Nat.zero_le _
  · unfold read
    dsimp only
    by_cases hc : c.length ≤ size
    · rw [if_pos hc]
      exact hc
    · rw [if_neg hc]
      exact length_take_le ..

theorem read_weight {s : Stream} {size : Nat} (hsize : 0 < size) (h : (read s size).1.2 = none) :
    (read s size).2.weight < s.weight := by
  obtain ⟨_ | ⟨c, cs⟩, last, withLast, len⟩ := s
  · cases h
  · unfold read weight
    dsimp only
    by_cases hc : c.length ≤ size
    · rw [if_pos hc]
      simp
    · rw [if_neg hc]
      rw [map_cons, map_cons, sum_cons, sum_cons, length_drop]
      omega

theorem read_error {s : Stream} {size : Nat} {err : Error} (h : (read s size).1.2 = some err) :
    err = s.last ∧ (read s size).2.content = [] := by
  obtain ⟨_ | ⟨c, cs⟩, last, withLast, len⟩ := s
  · exact ⟨(Option.some.inj h).symm, rfl⟩
  · unfold read at h ⊢
    dsimp only at h ⊢
    split_ifs at h ⊢ with hc hlast
    exact ⟨(Option.some.inj h).symm, by unfold content; rw [hlast.1]; rfl⟩

theorem read_last (s : Stream) (size : Nat) : (read s size).2.last = s.last := by
  unfold read
  split
  · rfl
  · split_ifs <;> rfl

theorem reads {size : Nat} (hsize : 0 < size) :
    Reads read size content weight (fun s err => err = s.last) where
  bytes := fun s => read_content s size
  progress := fun _ => read_weight hsize
  error := fun _ _ => read_error
  later := fun s _ h => h.trans (read_last s size)

end Stream

end Io

end Go
