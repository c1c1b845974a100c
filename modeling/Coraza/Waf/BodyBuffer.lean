import Coraza.Go.Io

/-!
# Body buffers

A `BodyBuffer` collects a body in memory until the memory limit is reached; it
then moves what it has to a temporary file and appends there.  It may have any
number of readers, each with its own position.  The file system may refuse each
of the three things that `Write` asks of it; `FileAnswers` says what it does in
one call.

Readers return what was written (`readers_faithful`).  `WriteTo` does not
(`writeTo_delivers_iff`), and a write that is cut short loses bytes that are
counted (`write_consistent_iff`).
-/

namespace Coraza.Waf

open Go List Io

/-- `types.BodyBufferOptions`, without the directory for the temporary file. -/
structure BodyBufferOptions where
  memoryLimit : Int
  limit : Int
  deriving DecidableEq

/-- What the file system does in one call of `Write`: it may fail to create the
file, and the two writes may stop after some bytes. -/
structure FileAnswers where
  create : Option Error
  dump : Option (Nat × Error)
  write : Option (Nat × Error)

def FileAnswers.good : FileAnswers := ⟨none, none, none⟩

/-- A file system that does not answer with `io.EOF` to a write. -/
structure FileAnswers.Proper (answers : FileAnswers) : Prop where
  create : answers.create ≠ some .eof
  dump : ∀ p, answers.dump = some p → p.2 ≠ .eof
  write : ∀ p, answers.write = some p → p.2 ≠ .eof

theorem FileAnswers.good_proper : FileAnswers.good.Proper := ⟨nofun, nofun, nofun⟩

/-- `BodyBuffer`.  `writer` is the contents of the temporary file; `calls` counts
the calls of `Write` that needed the file. -/
structure BodyBuffer where
  options : BodyBufferOptions
  buffer : Bytes
  writer : Option Bytes
  length : Int
  calls : Nat
  deriving DecidableEq

namespace BodyBuffer

def new (options : BodyBufferOptions) : BodyBuffer := ⟨options, [], none, 0, 0⟩

def writeFile (answers : FileAnswers) (br : BodyBuffer) (file data : Bytes) (targetLen : Int) :
    (Nat × Option Error) × BodyBuffer :=
  match answers.write with
  | some (n, err) =>
    ((min n data.length, some err),
      { br with length := targetLen, writer := some (file ++ data.take n) })
  | none =>
    ((data.length, none), { br with length := targetLen, writer := some (file ++ data) })

def write (fs : Nat → FileAnswers) : Io.WriteFn BodyBuffer := fun br data =>
  if data = [] then ((0, none), br)
  else if br.length > br.options.limit - data.length then
    ((0, some (.new "limit reached while writing")), br)
  else
    let targetLen := br.length + data.length
    if targetLen > br.options.memoryLimit then
      let answers := fs br.calls
      let br := { br with calls := br.calls + 1 }
      match br.writer with
      | some file => writeFile answers br file data targetLen
      | none =>
        match answers.create with
        | some err => ((0, some err), br)
        | none =>
          match answers.dump with
          | some (n, err) => ((0, some err), { br with writer := some (br.buffer.take n) })
          | none => writeFile answers { br with buffer := [] } br.buffer data targetLen
    else
      ((data.length, none), { br with length := targetLen, buffer := br.buffer ++ data })

/-- `BodyBuffer.Reset`, with the error of closing and removing the temporary file.  The questions
to the file system are counted anew. -/
def reset (err : Option Bytes) (br : BodyBuffer) : Option Bytes × BodyBuffer :=
  (if br.writer.isSome then err else none,
    { br with buffer := [], length := 0, writer := none, calls := 0 })

/-- `bodyBufferReader.Read`: the state of a reader is its position. -/
def read (br : BodyBuffer) : Io.ReadFn Nat := fun pos size =>
  match br.writer with
  | none =>
    let n := if pos + size > br.buffer.length then br.buffer.length - pos else size
    if n = 0 then (([], some .eof), pos) else (((br.buffer.drop pos).take n, none), pos + n)
  | some file =>
    let b := (file.drop pos).take size
    ((b, if b.length < size then some .eof else none), pos + b.length)

def content (br : BodyBuffer) : Bytes := br.writer.getD br.buffer

/-! ### Reading -/

variable {br : BodyBuffer} {size : Nat} {data : Bytes} {fs : Nat → FileAnswers}

theorem read_memory (h : br.writer = none) (pos size : Nat) :
    br.read pos size = if min size (br.content.length - pos) = 0 then (([], some .eof), pos)
      else (((br.content.drop pos).take size, none), pos + min size (br.content.length - pos)) := by
  obtain ⟨options, buffer, writer, length, calls⟩ := br
  cases h
  have hn : (if pos + size > buffer.length then buffer.length - pos else size)
      = min size (buffer.length - pos) := by
    split_ifs <;> omega
  have htake : (buffer.drop pos).take (min size (buffer.length - pos))
      = (buffer.drop pos).take size := by
    rw [← length_drop, ← take_take, take_length]
  unfold read content
  dsimp only [Option.getD_none]
  rw [hn, htake]

theorem read_file {file : Bytes} (h : br.writer = some file) (pos size : Nat) :
    br.read pos size = (((br.content.drop pos).take size,
      if ((br.content.drop pos).take size).length < size then some .eof else none),
      pos + ((br.content.drop pos).take size).length) := by
  obtain ⟨options, buffer, writer, length, calls⟩ := br
  cases h
  rfl

theorem read_bytes (br : BodyBuffer) (pos size : Nat) :
    (br.read pos size).1.1 = (br.content.drop pos).take size := by
  cases h : br.writer with
  | some file => rw [read_file h]
  | none =>
    rw [read_memory h]
    split_ifs with h0
    · refine (eq_nil_of_length_eq_zero ?_).symm
      rw [length_take, length_drop]
      exact h0
    · rfl

theorem read_pos (br : BodyBuffer) (pos size : Nat) :
    (br.read pos size).2 = pos + (br.read pos size).1.1.length := by
  cases h : br.writer with
  | some file => rw [read_file h]
  | none =>
    rw [read_memory h]
    split_ifs
    · rfl
    · dsimp only
      rw [length_take, length_drop]

theorem read_err (br : BodyBuffer) (pos size : Nat) :
    (br.read pos size).1.2 = none ∨ (br.read pos size).1.2 = some .eof := by
  cases h : br.writer with
  | some file =>
    rw [read_file h]
    split_ifs
    · exact .inr rfl
    · exact .inl rfl
  | none =>
    rw [read_memory h]
    split_ifs
    · exact .inr rfl
    · exact .inl rfl

theorem read_nil (br : BodyBuffer) {pos : Nat} (hsize : 0 < size)
    (h : (br.read pos size).1.1 = []) : (br.read pos size).1.2 = some .eof := by
  cases hw : br.writer with
  | some file =>
    rw [read_file hw] at h ⊢
    dsimp only at h ⊢
    rw [h, length_nil, if_pos hsize]
  | none =>
    have hlen := congrArg List.length ((read_bytes br pos size).symm.trans h)
    rw [length_take, length_drop, length_nil] at hlen
    rw [read_memory hw, if_pos hlen]

theorem read_eof (br : BodyBuffer) {pos : Nat} (hpos : pos ≤ br.content.length) (hsize : 0 < size)
    (h : (br.read pos size).1.2 = some .eof) :
    pos + (br.read pos size).1.1.length = br.content.length := by
  rw [read_bytes, length_take, length_drop]
  cases hw : br.writer with
  | some file =>
    rw [read_file hw] at h
    split_ifs at h with hlt
    rw [length_take, length_drop] at hlt
    omega
  | none =>
    rw [read_memory hw] at h
    split_ifs at h with h0
    omega

theorem reads (br : BodyBuffer) (hsize : 0 < size) :
    Io.Reads (read br) size (fun pos => br.content.drop pos)
      (fun pos => br.content.length + 1 - pos) (fun _ err => err = .eof) where
  bytes := by
    intro pos
    rw [read_pos, read_bytes, ← drop_drop, length_take, take_eq_take_min]
    exact take_append_drop ..
  progress := by
    intro pos h
    have hne : (br.read pos size).1.1 ≠ [] := by
      intro hnil
      rw [read_nil br hsize hnil] at h
      cases h
    have hlen := List.length_pos_iff.mpr hne
    rw [read_pos]
    rw [read_bytes, length_take, length_drop] at hlen ⊢
    omega
  error := by
    intro pos err h
    have heof : err = .eof := by
      rcases read_err br pos size with hnone | heof
      · rw [hnone] at h
        cases h
      · exact Option.some.inj (h.symm.trans heof)
    refine ⟨heof, ?_⟩
    subst heof
    rw [read_pos, drop_eq_nil_iff]
    by_cases hpos : pos ≤ br.content.length
    · exact (read_eof br hpos hsize h).ge
    · omega
  later := fun _ _ h => h

/-! ### Writing -/

/-- What `Write` keeps: the length is that of the contents, and there is a file only when the
memory does not suffice. -/
structure WellFormed (br : BodyBuffer) : Prop where
  length : br.length = br.content.length
  spilled : br.writer ≠ none → br.options.memoryLimit < br.length

theorem wellFormed_new (options : BodyBufferOptions) : WellFormed (new options) :=
  ⟨rfl, fun h => absurd rfl h⟩

structure Appended (br : BodyBuffer) (data : Bytes) (br' : BodyBuffer) : Prop where
  content : br'.content = br.content ++ data
  options : br'.options = br.options
  wellFormed : WellFormed br'

theorem Appended.length {br' : BodyBuffer} (h : Appended br data br') (hbr : WellFormed br) :
    br'.length = br.length + data.length := by
  rw [h.wellFormed.length, h.content, length_append, hbr.length]
  exact Int.natCast_add ..

theorem Appended.trans {br' br'' : BodyBuffer} {data' : Bytes} (h : Appended br data br')
    (h' : Appended br' data' br'') : Appended br (data ++ data') br'' where
  content := by rw [h'.content, h.content, append_assoc]
  options := h'.options.trans h.options
  wellFormed := h'.wellFormed

/-- Everything that a call of `Write` can do. -/
inductive WriteOutcome (fs : Nat → FileAnswers) (br : BodyBuffer) (data : Bytes) :
    (Nat × Option Error) × BodyBuffer → Prop where
  | nothing (hdata : data = []) : WriteOutcome fs br data ((0, none), br)
  | limit (hdata : data ≠ []) (h : br.options.limit < br.length + data.length) :
      WriteOutcome fs br data ((0, some (.new "limit reached while writing")), br)
  | memory (h : br.length + data.length ≤ br.options.memoryLimit) :
      WriteOutcome fs br data ((data.length, none),
        { br with length := br.length + data.length, buffer := br.buffer ++ data })
  /-- The file could not be created, or not be filled with what was in memory. -/
  | spill (hdata : data ≠ []) (h : br.options.memoryLimit < br.length + data.length) {n : Nat}
      {err : Error} (herr : (fs n).create = some err ∨ ∃ k, (fs n).dump = some (k, err))
      (br' : BodyBuffer) : WriteOutcome fs br data ((0, some err), br')
  | file (h : br.options.memoryLimit < br.length + data.length) {n : Nat} {br₀ : BodyBuffer}
      (hoptions : br₀.options = br.options) :
      WriteOutcome fs br data (writeFile (fs n) br₀ br.content data (br.length + data.length))

theorem write_outcome (fs : Nat → FileAnswers) (br : BodyBuffer) (data : Bytes) :
    WriteOutcome fs br data (write fs br data) := by
  unfold write
  split
  · exact .nothing ‹_›
  rename_i hdata
  split
  · exact .limit hdata (by omega)
  dsimp only
  split
  · rename_i hmemory
    obtain ⟨options, buffer, writer, length, calls⟩ := br
    cases writer with
    | some file => exact .file hmemory rfl
    | none =>
      cases hcreate : (fs calls).create with
      | some err => exact .spill hdata hmemory (.inl hcreate) _
      | none =>
        cases hdump : (fs calls).dump with
        | some p => exact .spill hdata hmemory (.inr ⟨p.1, hdump⟩) _
        | none => exact .file hmemory rfl
  · exact .memory (by omega)

/-- **Bytes that were counted were appended**, even if there was an error. -/
theorem write_appended (h : WellFormed br) (hcount : (write fs br data).1.1 = data.length) :
    Appended br data (write fs br data).2 := by
  have houtcome := write_outcome fs br data
  generalize write fs br data = out at hcount houtcome ⊢
  cases houtcome with
  | nothing hdata => exact ⟨hdata ▸ (append_nil _).symm, rfl, h⟩
  | limit hdata => exact absurd hcount.symm (mt eq_nil_of_length_eq_zero hdata)
  | spill hdata => exact absurd hcount.symm (mt eq_nil_of_length_eq_zero hdata)
  | memory hmemory =>
    obtain ⟨options, buffer, writer, length, calls⟩ := br
    have hlength := h.length
    cases writer with
    | some file =>
      have hspilled := h.spilled (by simp)
      omega
    | none =>
      refine ⟨rfl, rfl, ?_, fun hne => absurd rfl hne⟩
      dsimp only [content, Option.getD_none] at hlength ⊢
      rw [hlength, length_append]
      exact (Int.natCast_add ..).symm
  | @file hmemory n br₀ hoptions =>
    unfold writeFile at hcount ⊢
    have hlength := h.length
    cases hanswer : (fs n).write with
    | none =>
      refine ⟨rfl, hoptions, ?_, fun _ => hoptions.symm ▸ hmemory⟩
      show br.length + data.length = ((br.content ++ data).length : Int)
      rw [hlength, length_append]
      exact (Int.natCast_add ..).symm
    | some p =>
      rw [hanswer] at hcount
      have hall : data.take p.1 = data := take_of_length_le (by dsimp only at hcount; omega)
      refine ⟨congrArg (br.content ++ ·) hall, hoptions, ?_, fun _ => hoptions.symm ▸ hmemory⟩
      show br.length + data.length = ((br.content ++ data.take p.1).length : Int)
      rw [hall, hlength, length_append]
      exact (Int.natCast_add ..).symm

theorem writeFile_options (answers : FileAnswers) (br : BodyBuffer) (file data : Bytes)
    (targetLen : Int) : (writeFile answers br file data targetLen).2.options = br.options := by
  unfold writeFile
  split <;> rfl

theorem write_options (fs : Nat → FileAnswers) (br : BodyBuffer) (data : Bytes) :
    (write fs br data).2.options = br.options := by
  unfold write
  split
  · rfl
  split
  · rfl
  dsimp only
  split
  · split
    · exact writeFile_options ..
    · split
      · rfl
      · split
        · rfl
        · exact writeFile_options ..
  · rfl

theorem copyN_invariant {P : BodyBuffer → Prop}
    (hwrite : ∀ br data, P br → P (write fs br data).2) (hP : P br) (r : Io.Stream) (fuel : Nat)
    (n : Int) : P (copyN Io.Stream.read (write fs) fuel r br n).2.2 :=
  (copyN_rule _ _ (P := fun _ br' => P br') (E := fun _ => True) trivial trivial
    (fun _ _ h => ⟨h, fun _ _ => trivial⟩) (fun _ br' h => ⟨hwrite br' _ h, fun _ _ => trivial⟩)
    fuel hP).1.elim (fun _ h => h)

theorem copyN_options (fs : Nat → FileAnswers) (br : BodyBuffer) (r : Io.Stream) (fuel : Nat)
    (n : Int) : (copyN Io.Stream.read (write fs) fuel r br n).2.2.options = br.options :=
  copyN_invariant (P := fun br' => br'.options = br.options)
    (fun br' data h => (write_options fs br' data).trans h) rfl r fuel n

/-- A write adds its bytes to the length if they are within the limit, or leaves it. -/
theorem write_grows (fs : Nat → FileAnswers) (br : BodyBuffer) (data : Bytes) :
    (write fs br data).2.length = br.length ∨
      (write fs br data).2.length = br.length + data.length ∧
        br.length + data.length ≤ br.options.limit := by
  have hfile : ∀ answers (br₀ : BodyBuffer) file,
      (writeFile answers br₀ file data (br.length + data.length)).2.length
        = br.length + data.length := by
    intro answers br₀ file
    unfold writeFile
    split <;> rfl
  unfold write
  split
  · exact .inl rfl
  split
  · exact .inl rfl
  have hle : br.length + data.length ≤ br.options.limit := by omega
  dsimp only
  split
  · split
    · exact .inr ⟨hfile .., hle⟩
    · split
      · exact .inl rfl
      · split
        · exact .inl rfl
        · exact .inr ⟨hfile .., hle⟩
  · exact .inr ⟨rfl, hle⟩

/-- A copy makes a buffer no longer than by the bytes of the reader, and by those asked for. -/
theorem copyN_length (fs : Nat → FileAnswers) (br : BodyBuffer) (r : Io.Stream) (fuel : Nat)
    (n : Int) : (copyN Io.Stream.read (write fs) fuel r br n).2.2.length
      ≤ br.length + (min n.toNat r.content.length : Nat) := by
  have hread : ∀ (src : Io.Stream × Int) (size : Nat),
      ((limitedRead Io.Stream.read src size).1.1.length
        + (limitedRead Io.Stream.read src size).2.1.content.length = src.1.content.length) ∧
      (limitedRead Io.Stream.read src size).1.1.length
        + (limitedRead Io.Stream.read src size).2.2.toNat ≤ src.2.toNat := by
    rintro ⟨src, left⟩ size
    have hcontent := congrArg List.length (Io.Stream.read_content src (min size left.toNat))
    have hlength := Io.Stream.read_length src (min size left.toNat)
    unfold limitedRead
    dsimp only
    split
    · exact ⟨Nat.zero_add _, Nat.le_of_eq (Nat.zero_add _)⟩
    · generalize Io.Stream.read src (min size left.toNat) = out at hcontent hlength ⊢
      obtain ⟨⟨b, err⟩, src'⟩ := out
      rw [length_append] at hcontent
      dsimp only at hcontent hlength ⊢
      exact ⟨hcontent, by omega⟩
  have hstart : br.length + r.content.length ≤ br.length + r.content.length ∧
      br.length + n.toNat ≤ br.length + n.toNat := ⟨Int.le_refl _, Int.le_refl _⟩
  obtain ⟨⟨left, hend⟩, -⟩ := copyN_rule Io.Stream.read (write fs) (n := n)
    (P := fun (src : Io.Stream × Int) (dst : BodyBuffer) =>
      dst.length + src.1.content.length ≤ br.length + r.content.length ∧
        dst.length + src.2.toNat ≤ br.length + n.toNat)
    (E := fun _ => True) trivial trivial
    (fun src dst h => ⟨by have hsrc := hread src (limitedSize n); omega, fun _ _ => trivial⟩)
    (fun src dst h => by
      have hsrc := hread src (limitedSize n)
      have hdst := write_grows fs dst (limitedRead Io.Stream.read src (limitedSize n)).1.1
      exact ⟨by omega, fun _ _ => trivial⟩)
    fuel hstart
  omega

theorem write_count (fs : Nat → FileAnswers) (br : BodyBuffer) (data : Bytes) :
    (write fs br data).1.1 ≤ data.length ∧
      ((write fs br data).1.2 = none → (write fs br data).1.1 = data.length) := by
  have houtcome := write_outcome fs br data
  generalize write fs br data = out at houtcome ⊢
  cases houtcome with
  | nothing hdata => exact ⟨Nat.zero_le _, fun _ => by rw [hdata]; rfl⟩
  | limit => exact ⟨Nat.zero_le _, nofun⟩
  | spill => exact ⟨Nat.zero_le _, nofun⟩
  | memory => exact ⟨Nat.le_refl _, fun _ => rfl⟩
  | @file hmemory n br₀ hoptions =>
    unfold writeFile
    cases (fs n).write with
    | none => exact ⟨Nat.le_refl _, fun _ => rfl⟩
    | some p => exact ⟨Nat.min_le_right .., nofun⟩

theorem write_ne_eof (hfs : ∀ n, (fs n).Proper) (br : BodyBuffer) (data : Bytes) :
    (write fs br data).1.2 ≠ some .eof := by
  have houtcome := write_outcome fs br data
  generalize write fs br data = out at houtcome ⊢
  cases houtcome with
  | @spill _ _ n err herr =>
    intro heq
    cases heq
    rcases herr with hcreate | ⟨k, hdump⟩
    · exact (hfs n).create hcreate
    · exact (hfs n).dump _ hdump rfl
  | @file hmemory n br₀ hoptions =>
    unfold writeFile
    cases hanswer : (fs n).write with
    | none => exact nofun
    | some p => exact fun heq => (hfs n).write p hanswer (Option.some.inj heq)
  | _ => exact nofun

/-- **Bytes within the limit are taken**, if they fit in memory or the file system works. -/
theorem write_taken (hlimit : br.length + data.length ≤ br.options.limit)
    (hfs : br.length + data.length ≤ br.options.memoryLimit ∨ ∀ n, fs n = .good) :
    (write fs br data).1 = (data.length, none) := by
  have houtcome := write_outcome fs br data
  generalize write fs br data = out at houtcome ⊢
  cases houtcome with
  | nothing hdata => rw [hdata]; rfl
  | limit hdata h => omega
  | memory => rfl
  | @spill hdata hmemory n err herr =>
    rw [hfs.resolve_left (Int.not_le.mpr hmemory)] at herr
    rcases herr with herr | ⟨k, herr⟩ <;> cases herr
  | file hmemory => rw [hfs.resolve_left (Int.not_le.mpr hmemory)]; rfl

/-- **A copy into a buffer that reports no error** has moved some bytes to the end of the
buffer. -/
theorem copyN_appended (hfs : ∀ n, (fs n).Proper) (h : WellFormed br) (r : Io.Stream) (n : Int)
    (herr : (copyN Io.Stream.read (write fs) (r.weight + 1) r br n).1.2 = none ∨
      (copyN Io.Stream.read (write fs) (r.weight + 1) r br n).1.2 = some .eof) :
    ∃ data, Appended br data (copyN Io.Stream.read (write fs) (r.weight + 1) r br n).2.2 ∧
      data ++ (copyN Io.Stream.read (write fs) (r.weight + 1) r br n).2.1.content
        = r.content := by
  have hnil : Appended br [] br := ⟨(append_nil _).symm, rfl, h⟩
  by_cases hn : n ≤ 0
  · rw [copyN_nonpos hn]
    exact ⟨[], hnil, rfl⟩
  have hwrite : ∀ acc br' b, b ≠ [] → Appended br acc br' →
      (write fs br' b).1 = (b.length, none) → Appended br (acc ++ b) (write fs br' b).2 :=
    fun acc br' b _ happ hres =>
      happ.trans (write_appended happ.wellFormed (congrArg Prod.fst hres))
  rcases Io.Reads.copyN_cases (fun _ => Io.Stream.reads) Io.Stream.read_length hwrite
    (Nat.lt_succ_self r.weight) hnil (by omega : 0 ≤ n) with
    hcopied | ⟨taken, b, br', happ, hb, hpre, hrefused, hstate, hres, hrest⟩
  · exact ⟨_, hcopied.taken, hcopied.rest⟩
  · refine ⟨taken ++ b, ?_, hrest⟩
    rw [hstate]
    refine happ.trans (write_appended happ.wellFormed ?_)
    rw [hres] at herr
    split at herr
    · -- the count is that of all bytes, so nothing was lost
      have hle := hpre.length_le
      rw [length_append, length_take] at hle
      have := (write_count fs br' b).1
      omega
    · exfalso
      cases hew : (write fs br' b).1.2 with
      | none => exact hrefused (Prod.ext ((write_count fs br' b).2 hew) hew)
      | some err =>
        rw [hew] at herr
        rcases herr with herr | herr
        · cases herr
        · exact write_ne_eof hfs br' b (hew.trans herr)

/-! ### Readers -/

/-- What may have happened to a buffer: the bytes that were written, and for each reader its
position and the bytes that it has returned. -/
inductive Traffic (fs : Nat → FileAnswers) (options : BodyBufferOptions) :
    Bytes → BodyBuffer → List (Nat × Bytes) → Prop where
  | new : Traffic fs options [] (new options) []
  | write {data chunk : Bytes} {br : BodyBuffer} {readers : List (Nat × Bytes)}
      (h : Traffic fs options data br readers)
      (hok : (write fs br chunk).1 = (chunk.length, none)) :
      Traffic fs options (data ++ chunk) (write fs br chunk).2 readers
  | reader {data : Bytes} {br : BodyBuffer} {readers : List (Nat × Bytes)}
      (h : Traffic fs options data br readers) : Traffic fs options data br ((0, []) :: readers)
  | read {data got : Bytes} {br : BodyBuffer} {before after : List (Nat × Bytes)} {pos size : Nat}
      (h : Traffic fs options data br (before ++ (pos, got) :: after)) (hsize : 0 < size) :
      Traffic fs options data br (before ++
        ((br.read pos size).2, got ++ (br.read pos size).1.1) :: after)

variable {options : BodyBufferOptions} {readers : List (Nat × Bytes)}

theorem Traffic.appended (h : Traffic fs options data br readers) :
    Appended (BodyBuffer.new options) data br := by
  induction h with
  | new => exact ⟨rfl, rfl, wellFormed_new options⟩
  | write h hok ih => exact ih.trans (write_appended ih.wellFormed (congrArg Prod.fst hok))
  | reader h ih => exact ih
  | read h hsize ih => exact ih

theorem read_first (br : BodyBuffer) {got : Bytes} (h : got <+: br.content) (size : Nat) :
    got ++ (br.read got.length size).1.1 <+: br.content := by
  obtain ⟨rest, hrest⟩ := h
  rw [read_bytes, ← hrest, drop_left]
  exact (prefix_append_right_inj got).mpr ( take_prefix ..)

theorem Traffic.returned (h : Traffic fs options data br readers) :
    ∀ r ∈ readers, r.1 = r.2.length ∧ r.2 <+: data := by
  induction h with
  | new => exact nofun
  | @write data chunk br readers h hok ih =>
    exact fun r hr => ⟨(ih r hr).1, (ih r hr).2.trans (prefix_append data chunk)⟩
  | reader h ih => exact forall_mem_cons.mpr ⟨⟨rfl, nil_prefix⟩, ih⟩
  | @read data got br before after pos size h hsize ih =>
    rw [forall_mem_append, forall_mem_cons] at ih ⊢
    obtain ⟨hbefore, ⟨hpos, hgot⟩, hafter⟩ := ih
    obtain rfl : pos = got.length := hpos
    have hcontent : br.content = data := h.appended.content
    refine ⟨hbefore, ⟨?_, hcontent ▸ read_first br (hcontent ▸ hgot) size⟩, hafter⟩
    exact (read_pos ..).trans length_append.symm

/-- **Readers are faithful**, whether the bytes are in memory, in the file or on their way to it:
each has returned a first part of what was written, and comes to the end only with all of it. -/
theorem readers_faithful {fs : Nat → FileAnswers} {options : BodyBufferOptions} {data : Bytes}
    {br : BodyBuffer} {readers : List (Nat × Bytes)} (h : Traffic fs options data br readers) :
    br.length = data.length ∧ ∀ r ∈ readers, r.2 <+: data ∧ ∀ size, 0 < size →
      (br.read r.1 size).1.2 = some .eof → r.2 ++ (br.read r.1 size).1.1 = data := by
  obtain ⟨hcontent, -, hwell⟩ := h.appended
  obtain rfl : br.content = data := hcontent
  refine ⟨hwell.length, fun r hr => ?_⟩
  obtain ⟨hpos, hgot⟩ := h.returned r hr
  refine ⟨hgot, fun size hsize heof => ?_⟩
  rw [hpos] at heof ⊢
  refine (read_first br hgot size).eq_of_length ?_
  rw [length_append]
  exact read_eof br hgot.length_le hsize heof

/-- Five bytes, of which four fit in memory; the reader had two of them before. -/
theorem readers_faithful_spilled : ∃ br : BodyBuffer, br.writer.isSome = true ∧
    br.length = ([1, 2, 3, 4, 5] : Bytes).length ∧
    ∀ r ∈ [(2, [1, 2])], r.2 <+: [1, 2, 3, 4, 5] ∧ ∀ size, 0 < size →
      (br.read r.1 size).1.2 = some .eof → r.2 ++ (br.read r.1 size).1.1 = [1, 2, 3, 4, 5] := by
  have h : Traffic (fun _ => .good) ⟨4, 10⟩ [1, 2, 3] _ [] := .write .new rfl
  have h' := @Traffic.read _ _ _ _ _ [] [] _ 2 h.reader (by decide)
  exact ⟨_, rfl, readers_faithful (.write h' rfl : Traffic _ _ ([1, 2, 3] ++ [4, 5]) _ _)⟩

/-! ### `WriteTo` -/

/-- `BodyBuffer.WriteTo`.  `bytes.Buffer.WriteTo` takes what it writes out of the buffer; the file
is read where its last write ended. -/
def writeTo {σ : Type} (write : Io.WriteFn σ) (br : BodyBuffer) (dst : σ) :
    (Nat × Option Error) × BodyBuffer × σ :=
  match br.writer with
  | none =>
    if br.buffer = [] then ((0, none), br, dst)
    else
      let ((m, err), dst) := write dst br.buffer
      let err := if err = none ∧ m ≠ br.buffer.length then some .shortWrite else err
      ((m, err), { br with buffer := br.buffer.drop m }, dst)
  | some file =>
    let b := (file.drop file.length).take br.length.toNat
    if 0 < br.length ∧ b = [] then ((0, some .eof), br, dst)
    else
      let (r, dst) := write dst b
      (r, br, dst)

def collect : Io.WriteFn Bytes := fun dst b => ((b.length, none), dst ++ b)

/-- The bytes are written and counted, and can be read as before. -/
def Delivers (br : BodyBuffer) : Prop :=
  ∀ dst, ∃ br', br.writeTo collect dst = ((br.content.length, none), br', dst ++ br.content) ∧
    br'.content = br.content ∧ br'.length = br.length

/-- **`WriteTo` delivers the body exactly if there is none.** -/
theorem writeTo_delivers_iff {fs : Nat → FileAnswers} {options : BodyBufferOptions} {data : Bytes}
    {br : BodyBuffer} {readers : List (Nat × Bytes)} (h : Traffic fs options data br readers) :
    br.content = data ∧ (br.Delivers ↔ data = []) := by
  obtain ⟨hcontent, -, hlength, -⟩ := h.appended
  obtain rfl : br.content = data := hcontent
  refine ⟨rfl, ?_⟩
  clear h
  obtain ⟨options, buffer, writer, length, calls⟩ := br
  constructor
  · intro hdelivers
    obtain ⟨br', heq, hcontent, -⟩ := hdelivers []
    unfold writeTo at heq
    cases writer with
    | none =>
      dsimp only at heq
      split at heq
      · assumption
      · obtain rfl := (Prod.mk.inj (Prod.mk.inj heq).2).1
        exact hcontent.symm.trans drop_length
    | some file =>
      by_contra hne
      have hpos : 0 < length := by
        rw [show length = _ from hlength]
        exact Int.natCast_pos.mpr (List.length_pos_iff.mpr hne)
      dsimp only at heq
      rw [drop_length, take_nil, if_pos ⟨hpos, rfl⟩] at heq
      exact nomatch congrArg (fun out => out.1.2) heq
  · intro hnil dst
    cases writer with
    | none =>
      obtain rfl : buffer = [] := hnil
      exact ⟨_, congrArg (fun dst => (_, _, dst)) (append_nil dst).symm, rfl, rfl⟩
    | some file =>
      obtain rfl : file = [] := hnil
      obtain rfl : length = 0 := hlength
      exact ⟨_, rfl, rfl, rfl⟩

theorem writeTo_delivers_new : (new ⟨4, 10⟩).Delivers :=
  (writeTo_delivers_iff (.new : Traffic (fun _ => .good) _ _ _ _)).2.mpr rfl

/-- **What is in memory is taken out, and in a file nothing is left to read.** -/
theorem writeTo_loses : ∃ br br' : BodyBuffer, Traffic (fun _ => .good) ⟨4, 10⟩ [1, 2, 3] br [] ∧
    br.writeTo collect [] = ((3, none), { br with buffer := [] }, [1, 2, 3]) ∧
    Traffic (fun _ => .good) ⟨0, 10⟩ [1, 2, 3] br' [] ∧
    br'.writeTo collect [] = ((0, some .eof), br', []) :=
  ⟨_, _, .write .new rfl, rfl, .write .new rfl, rfl⟩

/-! ### Writes that fail -/

/-- A write to the file stops before the end of its bytes. -/
def CutShort (answers : FileAnswers) (br : BodyBuffer) (data : Bytes) : Prop :=
  match br.writer with
  | some _ => ∃ p, answers.write = some p ∧ p.1 < data.length
  | none => answers.create = none ∧
      ((∃ p, answers.dump = some p ∧ p.1 < br.buffer.length) ∨
        answers.dump = none ∧ ∃ p, answers.write = some p ∧ p.1 < data.length)

/-- The size is that of the bytes, which are those from before and the first of the new ones. -/
def ConsistentAfter (br : BodyBuffer) (data : Bytes) (br' : BodyBuffer) : Prop :=
  br'.length = br'.content.length ∧ br.content <+: br'.content ∧ br'.content <+: br.content ++ data

theorem writeFile_consistent (h : WellFormed br) (answers : FileAnswers) (br₀ : BodyBuffer) :
    ConsistentAfter br data
        (writeFile answers br₀ br.content data (br.length + data.length)).2 ↔
      ¬∃ p, answers.write = some p ∧ p.1 < data.length := by
  have hlength := h.length
  unfold writeFile ConsistentAfter
  cases answers.write with
  | none =>
    refine iff_of_true ⟨?_, prefix_append .., prefix_rfl⟩ nofun
    show br.length + data.length = ((br.content ++ data).length : Int)
    rw [length_append]
    omega
  | some p =>
    show br.length + data.length = ((br.content ++ data.take p.1).length : Int) ∧
      br.content <+: br.content ++ data.take p.1 ∧ br.content ++ data.take p.1 <+: _ ↔ _
    rw [length_append, length_take]
    constructor
    · rintro ⟨hsize, -⟩ ⟨_, ⟨⟩, hlt⟩
      omega
    · intro hall
      have hle : data.length ≤ p.1 := Nat.le_of_not_lt (fun hlt => hall ⟨p, rfl, hlt⟩)
      exact ⟨by omega, prefix_append .., (prefix_append_right_inj _).mpr ( take_prefix ..)⟩

/-- **When a call that needs the file leaves the buffer consistent**, whatever fails. -/
theorem write_consistent_iff {br : BodyBuffer} (h : WellFormed br) (fs : Nat → FileAnswers)
    {data : Bytes} (hdata : data ≠ []) (hlimit : br.length + data.length ≤ br.options.limit)
    (hmemory : br.options.memoryLimit < br.length + data.length) :
    ConsistentAfter br data (write fs br data).2 ↔ ¬CutShort (fs br.calls) br data := by
  unfold write
  rw [if_neg hdata, if_neg (by omega)]
  dsimp only
  rw [if_pos hmemory]
  obtain ⟨options, buffer, writer, length, calls⟩ := br
  have hlength := h.length
  unfold CutShort
  cases writer with
  | some file => exact writeFile_consistent h ..
  | none =>
    dsimp only
    cases (fs calls).create with
    | some err => exact iff_of_true ⟨hlength, prefix_rfl, prefix_append ..⟩ nofun
    | none =>
      cases (fs calls).dump with
      | none => exact (writeFile_consistent h ..).trans (not_congr (by simp))
      | some p =>
        show length = ((buffer.take p.1).length : Int) ∧ buffer <+: buffer.take p.1 ∧
          buffer.take p.1 <+: buffer ++ data ↔ _
        have hsize : length = (buffer.length : Int) := hlength
        constructor
        · rintro ⟨htake, -⟩ ⟨-, ⟨_, ⟨⟩, hlt⟩ | ⟨⟨⟩, -⟩⟩
          rw [length_take] at htake
          omega
        · intro hall
          have hle : buffer.length ≤ p.1 :=
            Nat.le_of_not_lt (fun hlt => hall ⟨rfl, .inl ⟨p, rfl, hlt⟩⟩)
          rw [take_of_length_le hle]
          exact ⟨hsize, prefix_rfl, prefix_append ..⟩

theorem write_consistent_uncreated : ConsistentAfter ⟨⟨1, 10⟩, [1], none, 1, 0⟩ [2]
      (write (fun _ => ⟨some .shortWrite, none, none⟩) ⟨⟨1, 10⟩, [1], none, 1, 0⟩ [2]).2 :=
  (write_consistent_iff ⟨rfl, fun h => absurd rfl h⟩ _ (by decide) (by decide)
    (by decide)).mpr nofun

/-- **Bytes that a failed write has lost are counted**, and a failed move loses older ones. -/
theorem write_counts_lost :
    write (fun _ => ⟨none, none, some (1, .shortWrite)⟩) (new ⟨1, 10⟩) [2, 3]
        = ((1, some .shortWrite), ⟨⟨1, 10⟩, [], some [2], 2, 1⟩) ∧
      write (fun _ => ⟨none, some (0, .shortWrite), none⟩) ⟨⟨1, 10⟩, [1], none, 1, 0⟩ [2]
        = ((0, some .shortWrite), ⟨⟨1, 10⟩, [1], some [], 1, 1⟩) := by
  decide

end BodyBuffer

end Coraza.Waf
