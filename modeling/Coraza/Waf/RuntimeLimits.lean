import Coraza.Waf.BodyErrors
import Coraza.Waf.BodyLimits

/-!
# Body limits that are set by rules

A rule may set the limit of a body with `ctl:requestBodyLimit` and `ctl:responseBodyLimit`.  Any
64-bit integer is taken, while the limit of the buffer stays that of the WAF.  The functions that
take bytes subtract what is in the buffer from the limit of the transaction, and use the result
to slice and to copy.

`SafeLimit` compares the new limit with the buffer as it is.  If it holds, no later call panics or
runs into the limit of the buffer (`Delivery.run_safe` for a call, `results_safe` for a sequence),
and `runtimeLimit_safe_iff` says that it is necessary.
-/

namespace Coraza.Waf

open Go Collections List Direction BodySide BodyBuffer Io RuleGroup

/-- The error of `BodyBuffer.Write` that should never happen. -/
def limitReached : Error := .new "limit reached while writing"

/-- A call has returned, with another error or none. -/
def SafeResult : Option BodyResult → Prop
  | none => False
  | some (_, _, err) => err ≠ some limitReached

instance : DecidablePred SafeResult
  | none => inferInstanceAs (Decidable False)
  | some (_, _, err) => inferInstanceAs (Decidable (err ≠ some limitReached))

/-- The errors of the file system are its own. -/
structure FileAnswers.Own (answers : FileAnswers) : Prop where
  create : answers.create ≠ some limitReached
  dump : ∀ p, answers.dump = some p → p.2 ≠ limitReached
  write : ∀ p, answers.write = some p → p.2 ≠ limitReached

theorem FileAnswers.good_own : FileAnswers.good.Own := ⟨nofun, nofun, nofun⟩

/-! ### The buffer -/

variable {br : BodyBuffer} {fs : Nat → FileAnswers} {r : Io.Stream}

namespace BodyBuffer

/-- Only bytes over the limit are refused for the limit. -/
theorem write_limitReached (hfs : ∀ n, (fs n).Own)
    {data : Bytes} (h : (write fs br data).1.2 = some limitReached) :
    br.options.limit < br.length + data.length := by
  have houtcome := write_outcome fs br data
  generalize write fs br data = out at h houtcome
  cases houtcome with
  | nothing => cases h
  | limit _ hlimit => exact hlimit
  | memory => cases h
  | @spill _ _ n err herr =>
    cases h
    rcases herr with herr | ⟨k, herr⟩
    · exact absurd herr (hfs n).create
    · exact absurd rfl ((hfs n).dump _ herr)
  | @file _ n br₀ =>
    unfold writeFile at h
    cases hanswer : (fs n).write with
    | none =>
      rw [hanswer] at h
      cases h
    | some p =>
      rw [hanswer] at h
      exact absurd (Option.some.inj h) ((hfs n).write p hanswer)

/-- What a limited read of a stream does to the number of bytes left. -/
theorem limitedRead_stream (src : Io.Stream × Int) (size : Nat) (hleft : 0 ≤ src.2) :
    (limitedRead Io.Stream.read src size).2.1.last = src.1.last ∧
      0 ≤ (limitedRead Io.Stream.read src size).2.2 ∧
      (limitedRead Io.Stream.read src size).2.2
        = src.2 - (limitedRead Io.Stream.read src size).1.1.length ∧
      ∀ err, (limitedRead Io.Stream.read src size).1.2 = some err →
        err = .eof ∨ err = src.1.last := by
  obtain ⟨src, left⟩ := src
  unfold limitedRead
  dsimp only at hleft ⊢
  split
  · refine ⟨rfl, hleft, by simp, ?_⟩
    rintro err ⟨⟩
    exact .inl rfl
  · have hlength := Io.Stream.read_length src (min size left.toNat)
    have hlast := Io.Stream.read_last src (min size left.toNat)
    have herror : ∀ err, (Io.Stream.read src (min size left.toNat)).1.2 = some err →
        err = src.last := fun err herr => (Io.Stream.read_error herr).1
    generalize Io.Stream.read src (min size left.toNat) = out at hlength hlast herror ⊢
    obtain ⟨⟨b, err⟩, src'⟩ := out
    dsimp only at hlength hlast herror ⊢
    exact ⟨hlast, by omega, rfl, fun err herr => .inr (herror err herr)⟩

/-- **A copy that stays within the limit** is not refused for it. -/
theorem copyN_within (hfs : ∀ n, (fs n).Own) {m : Int}
    (hm : m ≤ 0 ∨ br.length + m ≤ br.options.limit) (hlast : r.last ≠ limitReached) :
    (copyN Io.Stream.read (write fs) (r.weight + 1) r br m).1.2 ≠ some limitReached ∧
      br.length ≤ (copyN Io.Stream.read (write fs) (r.weight + 1) r br m).2.2.length ∧
      (copyN Io.Stream.read (write fs) (r.weight + 1) r br m).2.2.length
        ≤ br.length + max m 0 := by
  by_cases hpos : m ≤ 0
  · rw [copyN_nonpos hpos]
    exact ⟨nofun, Int.le_refl _, by dsimp only; omega⟩
  -- what is known when a round begins: the bytes left have room
  let P : Io.Stream × Int → BodyBuffer → Prop := fun src dst =>
    src.1.last = r.last ∧ dst.options = br.options ∧ br.length ≤ dst.length ∧ 0 ≤ src.2 ∧
      dst.length + src.2 ≤ br.length + m
  have hstart : P (r, m) br := ⟨rfl, rfl, Int.le_refl _, by dsimp only; omega, Int.le_refl _⟩
  have hread : ∀ src dst, P src dst → P (limitedRead Io.Stream.read src (limitedSize m)).2 dst ∧
      ∀ err, (limitedRead Io.Stream.read src (limitedSize m)).1.2 = some err →
        err ≠ limitReached := by
    rintro src dst ⟨hsrc, hoptions, hlength, hleft, hroom⟩
    obtain ⟨hlast', hleft', heq, herror⟩ := limitedRead_stream src (limitedSize m) hleft
    refine ⟨⟨hlast'.trans hsrc, hoptions, hlength, hleft', by omega⟩, ?_⟩
    intro err herr
    rcases herror err herr with rfl | rfl
    · exact nofun
    · rwa [hsrc]
  have hwrite : ∀ src dst, P src dst → P (limitedRead Io.Stream.read src (limitedSize m)).2
        (write fs dst (limitedRead Io.Stream.read src (limitedSize m)).1.1).2 ∧
      ∀ err, (write fs dst (limitedRead Io.Stream.read src (limitedSize m)).1.1).1.2
        = some err → err ≠ limitReached := by
    rintro src dst ⟨hsrc, hoptions, hlength, hleft, hroom⟩
    obtain ⟨hlast', hleft', heq, -⟩ := limitedRead_stream src (limitedSize m) hleft
    generalize (limitedRead Io.Stream.read src (limitedSize m)).1.1 = b at heq ⊢
    refine ⟨⟨hlast'.trans hsrc, (write_options ..).trans hoptions, ?_, hleft', ?_⟩, ?_⟩
    · rcases write_grows fs dst b with h | ⟨h, -⟩ <;> omega
    · rcases write_grows fs dst b with h | ⟨h, -⟩ <;> omega
    · rintro err herr rfl
      have hover := write_limitReached hfs herr
      rw [hoptions] at hover
      omega
  obtain ⟨⟨left, -, -, hlength, hleft, hroom⟩, herror⟩ :=
    copyN_rule Io.Stream.read (write fs) nofun nofun hread hwrite (r.weight + 1) hstart
  exact ⟨fun heq => herror _ heq rfl, hlength, by omega⟩

end BodyBuffer

/-! ### A call -/

namespace BodySide

/-- A side whose processing leaves the buffer and the limit alone, and whose errors are no errors
of a buffer. -/
structure Steady (side : BodySide) : Prop where
  lawful : side.Lawful
  limit_interruption : ∀ (tx : Transaction) interruption,
    side.limit { tx with interruption } = side.limit tx
  buffer_process : ∀ tx, side.buffer (side.process tx).2 = side.buffer tx
  limit_process : ∀ tx, side.limit (side.process tx).2 = side.limit tx
  error_process : ∀ tx, (side.process tx).1.2 ≠ some limitReached
  files : ∀ n, (side.files n).Own

structure Same (side : BodySide) (tx tx' : Transaction) : Prop where
  limit : side.limit tx' = side.limit tx
  buffer : side.buffer tx' = side.buffer tx

/-- The buffer has grown, if at all, up to the limit. -/
structure Grown (side : BodySide) (tx tx' : Transaction) : Prop where
  limit : side.limit tx' = side.limit tx
  options : (side.buffer tx').options = (side.buffer tx).options
  length : (side.buffer tx').length = (side.buffer tx).length ∨
    (side.buffer tx).length ≤ (side.buffer tx').length ∧
      (side.buffer tx').length ≤ side.limit tx

section

variable {side : BodySide}

theorem Same.grown {tx tx' : Transaction} (h : side.Same tx tx') : side.Grown tx tx' :=
  ⟨h.limit, congrArg _ h.buffer, .inl (congrArg _ h.buffer)⟩

theorem Grown.after {tx tx₁ tx' : Transaction} (h : side.Grown tx₁ tx') (hsame : side.Same tx tx₁) :
    side.Grown tx tx' := by
  obtain ⟨hlimit, hoptions, hlength⟩ := h
  rw [hsame.buffer] at hoptions hlength
  rw [hsame.limit] at hlimit hlength
  exact ⟨hlimit, hoptions, hlength⟩

theorem Grown.before {tx tx₁ tx' : Transaction} (h : side.Grown tx tx₁)
    (hsame : side.Same tx₁ tx') :
    side.Grown tx tx' := by
  obtain ⟨hlimit, hoptions, hlength⟩ := h
  rw [← hsame.buffer] at hoptions hlength
  exact ⟨hsame.limit.trans hlimit, hoptions, hlength⟩

variable (h : side.Steady)

include h

theorem Steady.setDataError (tx : Transaction) : side.Same tx (side.setDataError tx) :=
  ⟨h.lawful.limit_setDataError tx, h.lawful.buffer_setDataError tx⟩

theorem Steady.interruption (tx : Transaction) :
    side.Same tx (setAndReturnBodyLimitInterruption (side.setDataError tx) side.status).2 :=
  ⟨(h.limit_interruption _ _).trans (h.setDataError tx).limit,
    (h.lawful.buffer_interruption _ _).trans (h.setDataError tx).buffer⟩

theorem Steady.finish (run : Bool) (w : Nat) (tx : Transaction) :
    SafeResult (some (side.finish run w tx).1) ∧ side.Same tx (side.finish run w tx).2 := by
  unfold BodySide.finish
  split
  · exact ⟨h.error_process tx, h.limit_process tx, h.buffer_process tx⟩
  · exact ⟨nofun, rfl, rfl⟩

theorem Steady.store {b : Bytes} {w : Int} {tx : Transaction} (hw : 0 ≤ w) (hb : w ≤ b.length)
    (hroom : (side.buffer tx).length + w ≤ (side.buffer tx).options.limit)
    (hlimit : (side.buffer tx).length + w ≤ side.limit tx) (run : Bool) :
    SafeResult (side.store b w run tx).1 ∧ side.Grown tx (side.store b w run tx).2 := by
  have hslice : sliceTo b w = some (b.take w.toNat) := if_pos ⟨hw, hb⟩
  have hdata : ((b.take w.toNat).length : Int) = w := by
    rw [length_take]
    omega
  unfold BodySide.store
  rw [hslice]
  dsimp only
  generalize b.take w.toNat = data at hdata ⊢
  have herror : (write side.files (side.buffer tx) data).1.2 = some limitReached →
      (side.buffer tx).options.limit < (side.buffer tx).length + data.length :=
    write_limitReached h.files
  have hgrows := write_grows side.files (side.buffer tx) data
  have hoptions := write_options side.files (side.buffer tx) data
  generalize write side.files (side.buffer tx) data = out at herror hgrows hoptions ⊢
  obtain ⟨⟨n, err⟩, buffer⟩ := out
  dsimp only at herror hgrows hoptions ⊢
  have hgrown : side.Grown tx (side.setBuffer tx buffer) := by
    refine ⟨h.lawful.limit_set .., ?_, ?_⟩
    · rwa [h.lawful.buffer_set]
    · rw [h.lawful.buffer_set]
      omega
  cases err with
  | some err =>
    refine ⟨fun heq => ?_, hgrown⟩
    have := herror heq
    omega
  | none =>
    obtain ⟨hsafe, hsame⟩ := h.finish run n (side.setBuffer tx buffer)
    exact ⟨hsafe, hgrown.before hsame⟩

theorem Steady.afterCopy (run : Bool) (w : Nat) (tx : Transaction) :
    SafeResult (some (side.afterCopy run w tx).1) ∧ side.Same tx (side.afterCopy run w tx).2 := by
  unfold BodySide.afterCopy
  split
  · dsimp only
    split
    · exact ⟨nofun, h.interruption tx⟩
    · obtain ⟨hsafe, hsame⟩ := h.finish true w (side.setDataError tx)
      exact ⟨hsafe, hsame.limit.trans (h.setDataError tx).limit,
        hsame.buffer.trans (h.setDataError tx).buffer⟩
  · exact h.finish run w tx

/-- A copy of at most `m` bytes, which have room. -/
theorem Steady.copyFrom (hlast : r.last ≠ limitReached) {m : Int} {tx : Transaction} (hm : m ≤ 0 ∨
      (side.buffer tx).length + m ≤ (side.buffer tx).options.limit ∧
        (side.buffer tx).length + m ≤ side.limit tx) (run : Bool) :
    SafeResult (some (side.copyFrom r m run tx).1) ∧
      side.Grown tx (side.copyFrom r m run tx).2.2 := by
  obtain ⟨herror, hge, hle⟩ := copyN_within h.files (hm.imp id And.left) hlast
  have hoptions := copyN_options side.files (side.buffer tx) r (r.weight + 1) m
  unfold BodySide.copyFrom
  generalize copyN Io.Stream.read (write side.files) (r.weight + 1) r
    (side.buffer tx) m = out at herror hge hle hoptions ⊢
  obtain ⟨⟨w, err⟩, r', buffer⟩ := out
  dsimp only at herror hge hle hoptions ⊢
  have hgrown : side.Grown tx (side.setBuffer tx buffer) := by
    refine ⟨h.lawful.limit_set .., ?_, ?_⟩
    · rwa [h.lawful.buffer_set]
    · rw [h.lawful.buffer_set]
      omega
  split
  · exact ⟨herror, hgrown⟩
  · obtain ⟨hsafe, hsame⟩ := h.afterCopy run w (side.setBuffer tx buffer)
    exact ⟨hsafe, hgrown.before hsame⟩

end

end BodySide

/-- What is in a buffer is within its limit, which is one that a WAF may have. -/
structure BodyBuffer.Sound (br : BodyBuffer) : Prop where
  nonneg : 0 ≤ br.length
  within : br.length ≤ br.options.limit
  gibibyte : br.options.limit ≤ 2 ^ 30

/-- The limit of the transaction is within that of the buffer and, where bytes are cut off at it,
not below what is there.  Where they are rejected, the difference must not wrap around. -/
def SafeLimit (action : BodyLimitAction) (buffer : BodyBuffer) (limit : Int) : Prop :=
  limit ≤ buffer.options.limit ∧
    match action with
    | .processPartial => buffer.length ≤ limit
    | .reject => -2 ^ 63 ≤ limit - buffer.length

/-- A reader has its own error, and a `Len` that is a machine integer.  Where the overflow is not
checked for, there is none. -/
def Delivery.Acceptable (side : BodySide) (limit : Int) : Delivery → Prop
  | write _ => True
  | read r => r.last ≠ limitReached ∧ ∀ l, r.len = some l →
      -2 ^ 63 ≤ l ∧ l < 2 ^ 63 ∧ (side.checksOverflow = false → limit + l < 2 ^ 63)

section

variable {side : BodySide} (h : side.Steady) {tx : Transaction} (hsound : (side.buffer tx).Sound)
  (hsafe : SafeLimit side.limitAction (side.buffer tx) (side.limit tx))

include h hsound hsafe

theorem writeBody_safe (b : Bytes) :
    SafeResult (side.writeBody b tx).1 ∧ side.Grown tx (side.writeBody b tx).2 := by
  obtain ⟨hnonneg, hwithin, hgib⟩ := hsound
  obtain ⟨hlimit, haction⟩ := hsafe
  unfold writeBody
  cases hearly : side.early tx with
  | some res =>
    obtain ⟨it, n, err⟩ := res
    obtain ⟨-, rfl, -⟩ := early_eq hearly
    exact ⟨nofun, BodySide.Same.grown ⟨rfl, rfl⟩⟩
  | none =>
    dsimp only
    split
    · exact ⟨nofun, BodySide.Same.grown ⟨rfl, rfl⟩⟩
    split
    · rename_i hreached
      cases hact : side.limitAction with
      | reject => exact ⟨nofun, (h.interruption tx).grown⟩
      | processPartial =>
        rw [hact] at haction
        have hset := h.setDataError tx
        have hleft : wrap64 (side.limit tx - (side.buffer tx).length)
            = side.limit tx - (side.buffer tx).length := by
          refine wrap64_of_range ?_ ?_ <;> omega
        rw [hset.limit]
        refine (h.store (by omega) (by omega) ?_ ?_ true).imp id (fun hgrown => hgrown.after hset)
        · rw [hset.buffer]
          omega
        · rw [hset.buffer, hset.limit]
          omega
    · rename_i hbelow
      exact h.store (by omega) (Int.le_refl _) (by omega) (by omega) false

theorem readBodyFrom_safe (hr : Delivery.Acceptable side (side.buffer tx).options.limit (.read r)) :
    SafeResult (some (side.readBodyFrom r tx).1) ∧
      side.Grown tx (side.readBodyFrom r tx).2.2 := by
  obtain ⟨hnonneg, hwithin, hgib⟩ := hsound
  obtain ⟨hlimit, haction⟩ := hsafe
  obtain ⟨hlast, hlen⟩ := hr
  have hlow : -2 ^ 63 ≤ side.limit tx - (side.buffer tx).length := by
    split at haction <;> omega
  have hleft : wrap64 (side.limit tx - (side.buffer tx).length)
      = side.limit tx - (side.buffer tx).length := by
    refine wrap64_of_range hlow ?_
    omega
  unfold readBodyFrom
  cases hearly : side.early tx with
  | some res =>
    obtain ⟨it, n, err⟩ := res
    obtain ⟨-, rfl, -⟩ := early_eq hearly
    exact ⟨nofun, BodySide.Same.grown ⟨rfl, rfl⟩⟩
  | none =>
    cases hl : r.len with
    | none =>
      exact h.copyFrom hlast (by omega) false
    | some l =>
      obtain ⟨hl0, hl1, hsum⟩ := hlen l hl
      dsimp only
      split
      · exact ⟨nofun, BodySide.Same.grown ⟨rfl, rfl⟩⟩
      rename_i hoverflow
      -- the sum of the lengths is one of machine integers
      have hno : wrap64 ((side.buffer tx).length + l) = (side.buffer tx).length + l := by
        refine wrap64_of_range (by omega) ?_
        cases hcheck : side.checksOverflow with
        | false =>
          have := hsum hcheck
          omega
        | true =>
          have hbelow := not_and.mp hoverflow hcheck
          by_cases hpos : 0 ≤ l
          · unfold maxInt64 at hbelow
            rw [wrap64_of_range (by omega) (by omega)] at hbelow
            omega
          · omega
      split
      · rename_i hreached
        cases hact : side.limitAction with
        | reject => exact ⟨nofun, (h.interruption tx).grown⟩
        | processPartial =>
          have hset := h.setDataError tx
          refine (h.copyFrom hlast ?_ true).imp id (fun hgrown => hgrown.after hset)
          rw [hset.buffer, hset.limit]
          omega
      · exact h.copyFrom hlast (by omega) false

/-- **A call with a safe limit.** -/
theorem Delivery.run_safe {d : Delivery} (hd : d.Acceptable side (side.buffer tx).options.limit) :
    SafeResult (d.run side tx).1 ∧ side.Grown tx (d.run side tx).2 := by
  cases d with
  | write b => exact writeBody_safe h hsound hsafe b
  | read r => exact readBodyFrom_safe h hsound hsafe hd

omit h in
theorem BodySide.Grown.safe {tx' : Transaction} (hgrown : side.Grown tx tx') :
    (side.buffer tx').Sound ∧ SafeLimit side.limitAction (side.buffer tx') (side.limit tx') := by
  obtain ⟨hnonneg, hwithin, hgib⟩ := hsound
  obtain ⟨hlimit, haction⟩ := hsafe
  obtain ⟨hlimit', hoptions, hlength⟩ := hgrown
  refine ⟨⟨by omega, by rw [hoptions]; omega, by rw [hoptions]; exact hgib⟩, ?_, ?_⟩
  · rw [hlimit', hoptions]
    exact hlimit
  · rw [hlimit']
    split <;> rename_i hact <;> rw [hact] at haction <;> dsimp only at haction <;> omega

end

/-! ### A sequence of calls -/

section

variable {side : BodySide} (h : side.Steady)

include h

/-- **A sequence of calls with a safe limit.** -/
theorem results_safe : ∀ (ds : List Delivery) {tx : Transaction}, (side.buffer tx).Sound →
    SafeLimit side.limitAction (side.buffer tx) (side.limit tx) →
      (∀ d ∈ ds, d.Acceptable side (side.buffer tx).options.limit) →
    ∀ res ∈ results side ds tx, SafeResult res := by
  intro ds
  induction ds with
  | nil => exact fun _ _ _ res hres => absurd hres not_mem_nil
  | cons d ds ih =>
    intro tx hsound hsafe hds res hres
    obtain ⟨hrun, hgrown⟩ := Delivery.run_safe h hsound hsafe (hds d (mem_cons_self ..))
    rcases List.mem_cons.mp hres with rfl | hres
    · exact hrun
    · obtain ⟨hsound', hsafe'⟩ := hgrown.safe hsound hsafe
      refine ih hsound' hsafe' ?_ res hres
      rw [hgrown.options]
      exact fun d hd => hds d (mem_cons_of_mem _ hd)

omit h in
theorem results_idle : ∀ (ds : List Delivery) {tx : Transaction},
    tx.isRuleEngineOff = true ∨ side.access tx = false →
    ∀ res ∈ results side ds tx, SafeResult res := by
  intro ds
  induction ds with
  | nil => exact fun _ res hres => absurd hres not_mem_nil
  | cons d ds ih =>
    intro tx hidle res hres
    have hearly : side.early tx = some (none, 0, none) := by
      unfold early
      rcases hidle with hoff | haccess
      · rw [if_pos hoff]
      · rw [haccess, if_pos rfl, ite_self]
    have hrun : d.run side tx = (some (none, 0, none), tx) := Delivery.run_early hearly d
    unfold results at hres
    rw [hrun] at hres
    rcases List.mem_cons.mp hres with rfl | hres
    · exact fun h => absurd h.symm (Option.some_ne_none _)
    · exact ih hidle res hres

end

/-! ### Limits that are not safe -/

namespace BodyBuffer

theorem write_length_of_taken {data : Bytes}
    (hdata : data ≠ []) (h : (write fs br data).1.2 = none) :
    (write fs br data).2.length = br.length + data.length ∧
      br.length + data.length ≤ br.options.limit := by
  refine (write_grows fs br data).resolve_left (fun heq => ?_)
  have hpos := List.length_pos_iff.mpr hdata
  have houtcome := write_outcome fs br data
  generalize write fs br data = out at h heq houtcome
  cases houtcome with
  | nothing hnil => exact hdata hnil
  | limit => cases h
  | memory =>
    dsimp only at heq
    omega
  | spill => cases h
  | @file _ n br₀ =>
    have hlength : (writeFile (fs n) br₀ br.content data (br.length + data.length)).2.length
        = br.length + data.length := by
      unfold writeFile
      split <;> rfl
    omega

/-- Where the file system works, bytes are refused only for the limit. -/
theorem write_good {data : Bytes} (hdata : data ≠ [])
    (h : (write (fun _ => .good) br data).1 ≠ (data.length, none)) :
    (write (fun _ => .good) br data).1 = (0, some limitReached) := by
  have houtcome := write_outcome (fun _ => .good) br data
  generalize write (fun _ => .good) br data = out at h houtcome
  cases houtcome with
  | nothing hnil => exact absurd hnil hdata
  | limit => rfl
  | memory => exact absurd rfl h
  | spill _ _ herr => rcases herr with herr | ⟨k, herr⟩ <;> cases herr
  | file => exact absurd rfl h

/-- **A copy of more bytes than there is room for** is refused for the limit. -/
theorem copyN_over (hwithin : br.length ≤ br.options.limit)
    {m : Int} (hover : br.options.limit < br.length + r.content.length)
    (hm : r.content.length ≤ m) :
    (copyN Io.Stream.read (write (fun _ => .good)) (r.weight + 1) r br m).1.2
      = some limitReached := by
  let P : Bytes → BodyBuffer → Prop := fun taken br' =>
    br'.options = br.options ∧ br'.length = br.length + taken.length ∧
      br'.length ≤ br.options.limit
  have hwrite : ∀ acc br' b, b ≠ [] → P acc br' →
      (write (fun _ => .good) br' b).1 = (b.length, none) →
      P (acc ++ b) (write (fun _ => .good) br' b).2 := by
    rintro acc br' b hb ⟨hoptions, hlength, -⟩ hres
    obtain ⟨hlength', hle⟩ := write_length_of_taken hb (congrArg Prod.snd hres)
    refine ⟨(write_options ..).trans hoptions, ?_, ?_⟩
    · rw [hlength', length_append]
      omega
    · rw [hlength', ← hoptions]
      exact hle
  have hstart : P [] br := ⟨rfl, (Int.add_zero _).symm, hwithin⟩
  rcases Io.Reads.copyN_cases (fun _ => Io.Stream.reads) Io.Stream.read_length hwrite
    (Nat.lt_succ_self r.weight) hstart (by omega : 0 ≤ m) with
    hcopied | ⟨taken, b, br', -, hb, hpre, hrefused, -, hres, -⟩
  · have hall : r.content.take m.toNat = r.content := take_of_length_le (by omega)
    obtain ⟨-, hlength, hle⟩ := hcopied.taken
    rw [hall] at hlength
    omega
  · have hgood := write_good hb hrefused
    have hlen := hpre.length_le
    have hpos := List.length_pos_iff.mpr hb
    rw [length_append, length_take] at hlen
    rw [hres, hgood]
    rw [if_neg (by omega)]
    rfl

end BodyBuffer

/-- A reader without a `Len`, with one byte more than there is room for in a buffer. -/
def oneTooMany (br : BodyBuffer) : Io.Stream :=
  ⟨[List.replicate (br.options.limit + 1 - br.length).toNat 0], .eof, false, none⟩

/-- Such a reader meets the limit of the buffer if that many bytes are copied. -/
theorem readBodyFrom_over {side : BodySide} (hfiles : side.files = fun _ => .good)
    {tx : Transaction} (hearly : side.early tx = none)
    (hwithin : (side.buffer tx).length ≤ (side.buffer tx).options.limit)
    (hm : (side.buffer tx).options.limit + 1 - (side.buffer tx).length
      ≤ wrap64 (side.limit tx - (side.buffer tx).length)) :
    ¬SafeResult (some (side.readBodyFrom (oneTooMany (side.buffer tx)) tx).1) := by
  have hcontent : ((oneTooMany (side.buffer tx)).content.length : Int)
      = (side.buffer tx).options.limit + 1 - (side.buffer tx).length := by
    unfold oneTooMany Io.Stream.content
    simp only [flatten_cons, flatten_nil, append_nil, length_replicate]
    omega
  have hcopy := copyN_over hwithin (r := oneTooMany (side.buffer tx))
    (m := wrap64 (side.limit tx - (side.buffer tx).length)) (by omega) (by omega)
  have hlen : (oneTooMany (side.buffer tx)).len = none := rfl
  unfold readBodyFrom BodySide.copyFrom
  rw [hearly, hfiles]
  dsimp only
  rw [hcopy]
  exact fun hsafe => hsafe rfl

/-- An empty write is sliced at a limit that is below what is there. -/
theorem writeBody_panics {side : BodySide} {tx : Transaction} (hearly : side.early tx = none)
    (haction : side.limitAction = .processPartial) (hsteady : side.Steady)
    (hsound : (side.buffer tx).Sound) (hlimit : -2 ^ 63 ≤ side.limit tx)
    (hbelow : side.limit tx < (side.buffer tx).length) : (side.writeBody [] tx).1 = none := by
  obtain ⟨hnonneg, hwithin, hgib⟩ := hsound
  have hne : wrap64 (side.limit tx - (side.buffer tx).length) ≠ 0 := by
    by_cases hlow : -2 ^ 63 ≤ side.limit tx - (side.buffer tx).length
    · rw [wrap64_of_range hlow (by omega)]
      omega
    · rw [wrap64_below (by omega) (by omega)]
      omega
  have hslice : sliceTo [] (wrap64 (side.limit tx - (side.buffer tx).length)) = none := by
    refine if_neg ?_
    rintro ⟨h0, h1⟩
    exact hne (Int.le_antisymm h1 h0)
  unfold writeBody
  rw [hearly]
  dsimp only
  rw [if_neg (by unfold maxInt64; simp; omega), if_pos (by simp; omega), haction]
  rw [(hsteady.setDataError tx).limit]
  unfold BodySide.store
  rw [hslice]

/-! ### The buffers of a transaction are sound -/

/-- What `Validate` asks of the limits for bodies. -/
structure WAF.ValidLimits (waf : WAF) : Prop where
  request_pos : 0 < waf.requestBodyLimit
  request_le : waf.requestBodyLimit ≤ 2 ^ 30
  response_pos : 0 < waf.responseBodyLimit
  response_le : waf.responseBodyLimit ≤ 2 ^ 30

theorem BodyBuffer.Sound.write (h : br.Sound) (data : Bytes) : (write fs br data).2.Sound := by
  obtain ⟨hnonneg, hwithin, hgib⟩ := h
  have hgrows := write_grows fs br data
  have hoptions := write_options fs br data
  exact ⟨by omega, by rw [hoptions]; omega, by rw [hoptions]; exact hgib⟩

namespace BodySide

variable {side : BodySide} (hlaw : side.Lawful)
  (hprocess : ∀ tx, side.buffer (side.process tx).2 = side.buffer tx)

  {P : BodyBuffer → Prop} (hwrite : ∀ br data, P br → P (write side.files br data).2)
  {tx : Transaction}

include hlaw hprocess hwrite

theorem buffer_store (h : P (side.buffer tx)) (b : Bytes) (n : Int) (run : Bool) :
    P (side.buffer (side.store b n run tx).2) := by
  unfold BodySide.store
  split
  · exact h
  rename_i data _
  have hset := hlaw.buffer_set tx (write side.files (side.buffer tx) data).2
  dsimp only
  split
  · rw [hset]
    exact hwrite _ _ h
  · rw [buffer_finish hprocess, hset]
    exact hwrite _ _ h

theorem buffer_writeBody (h : P (side.buffer tx)) (b : Bytes) :
    P (side.buffer (side.writeBody b tx).2) := by
  have hmarked : P (side.buffer (side.setDataError tx)) := hlaw.buffer_setDataError tx ▸ h
  unfold writeBody
  split
  · exact h
  dsimp only
  split
  · exact h
  split
  · split
    · rw [buffer_limitInterruption hlaw]
      exact h
    · exact buffer_store hlaw hprocess hwrite hmarked ..
  · exact buffer_store hlaw hprocess hwrite h ..

theorem buffer_copyFrom (h : P (side.buffer tx)) (r : Io.Stream) (n : Int) (run : Bool) :
    P (side.buffer (side.copyFrom r n run tx).2.2) := by
  have hcopy := copyN_invariant hwrite h r (r.weight + 1) n
  unfold BodySide.copyFrom
  dsimp only
  split
  · rw [hlaw.buffer_set]
    exact hcopy
  · rw [buffer_afterCopy hlaw hprocess, hlaw.buffer_set]
    exact hcopy

theorem buffer_readBodyFrom (h : P (side.buffer tx)) (r : Io.Stream) :
    P (side.buffer (side.readBodyFrom r tx).2.2) := by
  have hmarked : P (side.buffer (side.setDataError tx)) := hlaw.buffer_setDataError tx ▸ h
  unfold readBodyFrom
  split
  · exact h
  dsimp only
  split
  · exact buffer_copyFrom hlaw hprocess hwrite h ..
  split
  · exact h
  split
  · split
    · rw [buffer_limitInterruption hlaw]
      exact h
    · exact buffer_copyFrom hlaw hprocess hwrite hmarked ..
  · exact buffer_copyFrom hlaw hprocess hwrite h ..

end BodySide

def Direction.buffer (tx : Transaction) : Direction → BodyBuffer
  | request => tx.requestBodyBuffer
  | response => tx.responseBodyBuffer

section

variable {waf : WAF} {ev : Evaluator} (hev : KeepsBodies ev)

def SoundBuffers (tx : Transaction) : Prop := ∀ d : Direction, (d.buffer tx).Sound

theorem SoundBuffers.congr {tx tx' : Transaction} (h : SoundBuffers tx)
    (heq : ∀ d : Direction, d.buffer tx' = d.buffer tx) : SoundBuffers tx' :=
  fun d => heq d ▸ h d

theorem Direction.lawful (d : Direction) (ev : Evaluator) : (d.side waf ev).Lawful := by
  cases d with
  | request => exact requestSide_lawful ..
  | response => exact responseSide_lawful ..

theorem Direction.side_buffer (waf : WAF) (d : Direction) (ev : Evaluator) (tx : Transaction) :
    (d.side waf ev).buffer tx = d.buffer tx := by
  cases d <;> rfl

include hev

theorem Direction.buffer_eval (d : Direction) (phase : Nat) (tx : Transaction) :
    d.buffer (ev.eval phase tx) = d.buffer tx := by
  cases d with
  | request => exact (hev.buffers phase tx).1
  | response => exact (hev.buffers phase tx).2

theorem Direction.buffer_process (d d' : Direction) (tx : Transaction) :
    d'.buffer ((d.side waf ev).process tx).2 = d'.buffer tx := by
  rcases d.process_eq waf ev tx with h | ⟨-, h⟩
  · rw [h]
  · rw [h, buffer_eval hev]
    unfold entered
    split
    · cases d <;> cases d' <;> rfl
    · rfl

theorem Direction.buffer_other {d d' : Direction} (hne : d' ≠ d) {reached : Prop}
    {tx tx' : Transaction} (h : (d.side waf ev).BodyStep reached tx tx') :
    d'.buffer tx' = d'.buffer tx := by
  have hset : ∀ tx buffer, d'.buffer ((d.side waf ev).setBuffer tx buffer) = d'.buffer tx := by
    intro tx buffer
    cases d <;> cases d' <;> first | rfl | exact absurd rfl hne
  have hmark : ∀ tx, d'.buffer ((d.side waf ev).setDataError tx) = d'.buffer tx := by
    intro tx
    cases d' <;> rfl
  have hinterrupt : ∀ tx status, d'.buffer (setAndReturnBodyLimitInterruption tx status).2
      = d'.buffer tx := by
    intro tx status
    cases d' <;> rfl
  cases h with
  | same => rfl
  | stored buffer => exact hset ..
  | marked => exact hmark tx
  | markedStored buffer => exact (hset ..).trans (hmark tx)
  | rejected => exact (hinterrupt ..).trans (hmark tx)
  | filled _ _ buffer => exact (hinterrupt ..).trans ((hset ..).trans (hmark tx))
  | processed _ buffer => exact (d.buffer_process hev d' _).trans ((hset ..).trans (hmark tx))

theorem SoundBuffers.deliver {tx : Transaction} (h : SoundBuffers tx) (d : Direction)
    (x : Delivery) : SoundBuffers (x.run (d.side waf ev) tx).2 := by
  intro d'
  by_cases hd : d' = d
  · subst hd
    have hside := h d'
    rw [← d'.side_buffer waf ev] at hside ⊢
    cases x with
    | write b =>
      exact buffer_writeBody (d'.lawful _) (d'.process_buffer hev)
        (fun _ data hbr => hbr.write data) hside b
    | read r =>
      exact buffer_readBodyFrom (d'.lawful _) (d'.process_buffer hev)
        (fun _ data hbr => hbr.write data) hside r
  · have heq : d'.buffer (x.run (d.side waf ev) tx).2 = d'.buffer tx := by
      cases x with
      | write b => exact buffer_other hev hd (writeBody_bodyStep (d.lawful _) b tx)
      | read r => exact buffer_other hev hd (readBodyFrom_bodyStep (d.lawful _) r tx)
    rw [heq]
    exact h d'

theorem SoundBuffers.phaseCall {tx : Transaction} (h : SoundBuffers tx) {phase : Nat}
    {guard : Prop} {out : Option Interruption × Transaction}
    (hcall : PhaseCall ev phase guard tx out) : SoundBuffers out.2 := by
  cases hcall with
  | stopped => exact h
  | evaluated vars asked =>
    exact h.congr (fun d => (d.buffer_eval hev _ _).trans (by cases d <;> rfl))

theorem SoundBuffers.call {tx : Transaction} (h : SoundBuffers tx) (call : Call) :
    SoundBuffers (call.run waf ev tx) := by
  cases call with
  | feed f => exact h.congr (fun d => by cases d <;> rfl)
  | processRequestHeaders => exact h.phaseCall hev (processRequestHeaders_call _ tx)
  | writeRequestBody b => exact h.deliver hev .request (.write b)
  | readRequestBodyFrom r => exact h.deliver hev .request (.read r)
  | processRequestBody => exact h.congr (fun d => request.buffer_process hev d tx)
  | processResponseHeaders code proto =>
    exact h.phaseCall hev (processResponseHeaders_call _ code proto tx)
  | writeResponseBody b => exact h.deliver hev .response (.write b)
  | readResponseBodyFrom r => exact h.deliver hev .response (.read r)
  | processResponseBody => exact h.congr (fun d => response.buffer_process hev d tx)
  | processLogging =>
    show SoundBuffers (processLogging _ tx)
    unfold processLogging
    split_ifs
    · exact h
    · exact h.congr (fun d => d.buffer_eval hev _ _)

/-- **The buffers are sound in every state** that calls lead to. -/
theorem soundBuffers_run (hvalid : waf.ValidLimits) (vars : Variables) (calls : List Call) :
    SoundBuffers (runCalls waf ev calls (waf.newTransaction vars)) := by
  refine List.foldlRecOn calls _ (fun d => ?_) (fun _ h call _ => h.call hev call)
  cases d with
  | request => exact ⟨Int.le_refl _, hvalid.request_pos.le, hvalid.request_le⟩
  | response => exact ⟨Int.le_refl _, hvalid.response_pos.le, hvalid.response_le⟩

end

/-- A body of three bytes. -/
theorem soundBuffers_run_small : SoundBuffers (runCalls (limitWAF .reject)
    (evaluator [] (fun _ => .stored)) [.writeRequestBody [1, 2, 3]]
    ((limitWAF .reject).newTransaction .new)) :=
  soundBuffers_run (keepsBodies_evaluator ..) ⟨by decide, by decide, by decide, by decide⟩ _ _

/-! ### The limit that a rule sets -/

namespace Direction

/-- `ctl:requestBodyLimit` or `ctl:responseBodyLimit`, with the number that was parsed. -/
def limitCtl (limit : Int) : Direction → Ctl
  | request => .requestBodyLimit (some limit)
  | response => .responseBodyLimit (some limit)

/-- The phase in which the limit can be set. -/
def Permits (tx : Transaction) : Direction → Prop
  | request => tx.lastPhase ≤ phaseRequestHeaders
  | response => tx.lastPhase ≤ phaseResponseHeaders

def access (tx : Transaction) : Direction → Bool
  | request => tx.requestBodyAccess
  | response => tx.responseBodyAccess

def limitAction (waf : WAF) : Direction → BodyLimitAction
  | request => waf.requestBodyLimitAction
  | response => waf.responseBodyLimitAction

end Direction

def WAF.withFiles (waf : WAF) (files : Nat → FileAnswers) : WAF :=
  { waf with requestFiles := files, responseFiles := files }

section

variable {waf : WAF} {rg : RuleGroup} {iteration : Nat → Iteration}

theorem Direction.process_limit (d : Direction) (tx : Transaction) :
    (d.side waf (rg.evaluator iteration)).limit
        ((d.side waf (rg.evaluator iteration)).process tx).2
      = (d.side waf (rg.evaluator iteration)).limit tx := by
  rcases d.process_eq waf (rg.evaluator iteration) tx with h | ⟨-, h⟩
  · rw [h]
  · rw [h]
    unfold entered
    cases d with
    | request =>
      exact (eval_requestSettings (by decide) _).2.trans (by split <;> rfl)
    | response =>
      exact (eval_responseSettings (by decide) _).2.trans (by split <;> rfl)

theorem Direction.process_error (d : Direction) (tx : Transaction) :
    ((d.side waf (rg.evaluator iteration)).process tx).1.2 ≠ some limitReached := by
  cases d with
  | request =>
    rw [show ((request.side waf (rg.evaluator iteration)).process tx).1.2 = none from
      processRequestBody_error ..]
    exact nofun
  | response =>
    show (processResponseBody waf (rg.evaluator iteration) tx).1.2 ≠ _
    unfold processResponseBody responseProcessorError
    dsimp only
    split_ifs <;> exact nofun

theorem Direction.steady (d : Direction) (hfiles : ∀ n, (waf.requestFiles n).Own ∧
    (waf.responseFiles n).Own) : (d.side waf (rg.evaluator iteration)).Steady where
  lawful := d.lawful _
  limit_interruption := by
    intro tx interruption
    cases d <;> rfl
  buffer_process := d.process_buffer (keepsBodies_evaluator rg iteration)
  limit_process := d.process_limit
  error_process := d.process_error
  files := by
    intro n
    cases d with
    | request => exact (hfiles n).1
    | response => exact (hfiles n).2

theorem Direction.limitCtl_evaluate (waf : WAF) (ev : Evaluator) (labels : List RuleLabel)
    (d : Direction) {tx : Transaction} (hphase : d.Permits tx) (limit : Int) :
    (d.side waf ev).limit ((d.limitCtl limit).evaluate labels tx) = limit ∧
      (d.side waf ev).buffer ((d.limitCtl limit).evaluate labels tx) = d.buffer tx ∧
      (d.side waf ev).access ((d.limitCtl limit).evaluate labels tx) = d.access tx ∧
      ((d.limitCtl limit).evaluate labels tx).isRuleEngineOff = tx.isRuleEngineOff := by
  cases d with
  | request =>
    have hset : (request.limitCtl limit).evaluate labels tx
        = { tx with requestBodyLimit := limit } := if_pos hphase
    rw [hset]
    exact ⟨rfl, rfl, rfl, rfl⟩
  | response =>
    have hset : (response.limitCtl limit).evaluate labels tx
        = { tx with responseBodyLimit := limit } := if_pos hphase
    rw [hset]
    exact ⟨rfl, rfl, rfl, rfl⟩

theorem exists_unsafe {side : BodySide} (hsteady : side.Steady)
    (hfiles : side.files = fun _ => .good)
    {tx : Transaction} (hsound : (side.buffer tx).Sound) (hlow : -2 ^ 63 ≤ side.limit tx)
    (hhigh : side.limit tx < 2 ^ 63) (hoff : tx.isRuleEngineOff = false)
    (haccess : side.access tx = true)
    (hfault : ¬SafeLimit side.limitAction (side.buffer tx) (side.limit tx)) :
    ∃ d : Delivery, d.Acceptable side (side.buffer tx).options.limit ∧
      ¬SafeResult (d.run side tx).1 := by
  obtain ⟨hnonneg, hwithin, hgib⟩ := id hsound
  have hne : side.limit tx ≠ (side.buffer tx).length := by
    intro heq
    refine hfault ⟨by omega, ?_⟩
    split <;> omega
  have hearly : side.early tx = none := by
    unfold early
    rw [hoff, haccess, if_neg Bool.false_ne_true, if_neg nofun, if_neg hne]
  have hread : Delivery.Acceptable side (side.buffer tx).options.limit
      (.read (oneTooMany (side.buffer tx))) := ⟨nofun, nofun⟩
  by_cases hle : side.limit tx ≤ (side.buffer tx).options.limit
  · cases haction : side.limitAction with
    | processPartial =>
      have hbelow : side.limit tx < (side.buffer tx).length := by
        by_contra hge
        refine hfault ⟨hle, ?_⟩
        rw [haction]
        exact Int.not_lt.mp hge
      refine ⟨.write [], trivial, ?_⟩
      show ¬SafeResult (side.writeBody [] tx).1
      rw [writeBody_panics hearly haction hsteady hsound hlow hbelow]
      exact id
    | reject =>
      -- the difference wraps around to a number of bytes that is not met
      have hwrap : side.limit tx - (side.buffer tx).length < -2 ^ 63 := by
        by_contra hge
        refine hfault ⟨hle, ?_⟩
        rw [haction]
        exact Int.not_lt.mp hge
      refine ⟨.read _, hread, readBodyFrom_over hfiles hearly hwithin ?_⟩
      rw [wrap64_below (by omega) hwrap]
      omega
  · refine ⟨.read _, hread, readBodyFrom_over hfiles hearly hwithin ?_⟩
    rw [wrap64_of_range (by omega) (by omega)]
    omega

/-- **When a limit that a rule sets is safe**: for every file system and every sequence of calls
that follows. -/
theorem runtimeLimit_safe_iff (waf : WAF) (rg : RuleGroup) (iteration : Nat → Iteration)
    (labels : List RuleLabel) (d : Direction) {tx : Transaction} (hphase : d.Permits tx)
    (hsound : (d.buffer tx).Sound) {limit : Int} (hlow : -2 ^ 63 ≤ limit) (hhigh : limit < 2 ^ 63) :
    (∀ files : Nat → FileAnswers, (∀ n, (files n).Own) → ∀ deliveries : List Delivery,
      (∀ x ∈ deliveries, x.Acceptable (d.side (waf.withFiles files) (rg.evaluator iteration))
        (d.buffer tx).options.limit) →
      ∀ res ∈ results (d.side (waf.withFiles files) (rg.evaluator iteration)) deliveries
        ((d.limitCtl limit).evaluate labels tx), SafeResult res) ↔
      tx.isRuleEngineOff = true ∨ d.access tx = false ∨
        SafeLimit (d.limitAction waf) (d.buffer tx) limit := by
  have hset := fun files => d.limitCtl_evaluate (waf.withFiles files) (rg.evaluator iteration)
    labels
    hphase limit
  have haction : ∀ files, (d.side (waf.withFiles files) (rg.evaluator iteration)).limitAction
      = d.limitAction waf := by
    intro files
    cases d <;> rfl
  constructor
  · intro h
    by_contra hnot
    simp only [not_or, Bool.not_eq_true, Bool.not_eq_false] at hnot
    obtain ⟨hoff, haccess, hfault⟩ := hnot
    obtain ⟨hl, hb, ha, he⟩ := hset (fun _ => .good)
    have hsteady : (d.side (waf.withFiles (fun _ => .good)) (rg.evaluator iteration)).Steady :=
      d.steady (fun _ => ⟨FileAnswers.good_own, FileAnswers.good_own⟩)
    obtain ⟨x, hx, hres⟩ := exists_unsafe hsteady (by cases d <;> rfl) (by rwa [hb])
      (by rwa [hl]) (by rwa [hl]) (he.trans hoff) (ha.trans haccess)
      (by rwa [haction, hb, hl])
    refine hres (h (fun _ => .good) (fun _ => FileAnswers.good_own) [x] ?_ _
      (List.mem_singleton.mpr rfl))
    rw [hb] at hx
    exact List.forall_mem_singleton.mpr hx
  · intro h files hfiles deliveries hdeliveries
    obtain ⟨hl, hb, ha, he⟩ := hset files
    rcases h with hoff | haccess | hsafe
    · exact results_idle deliveries (.inl (he.trans hoff))
    · exact results_idle deliveries (.inr (ha.trans haccess))
    · refine results_safe (d.steady (fun n => ⟨hfiles n, hfiles n⟩)) deliveries ?_ ?_ ?_
      · rwa [hb]
      · rwa [haction, hb, hl]
      · rwa [hb]

end

/-- A rule lowers the limit to 2 before the body arrives. -/
theorem runtimeLimit_safe_lowered :
    ((request.limitCtl 2).evaluate []
      ((limitWAF .processPartial).newTransaction .new)).requestBodyLimit = 2 ∧
    ∀ files : Nat → FileAnswers, (∀ n, (files n).Own) → ∀ deliveries : List Delivery,
      (∀ x ∈ deliveries, x.Acceptable (request.side
        ((limitWAF .processPartial).withFiles files) (evaluator [] (fun _ => .stored)))
        (request.buffer ((limitWAF .processPartial).newTransaction .new)).options.limit) →
      ∀ res ∈ results (request.side ((limitWAF .processPartial).withFiles files)
          (evaluator [] (fun _ => .stored))) deliveries
        ((request.limitCtl 2).evaluate []
          ((limitWAF .processPartial).newTransaction .new)),
        SafeResult res :=
  ⟨rfl, (runtimeLimit_safe_iff _ _ _ [] .request (Nat.zero_le _) ⟨by decide, by decide, by decide⟩
    (by decide) (by decide)).mpr (.inr (.inr ⟨by decide, show (0 : Int) ≤ 2 by decide⟩))⟩

/-- Three bytes are there, a rule sets the limit to 2, and the next write slices out of range. -/
theorem runtimeLimit_panics :
    (writeRequestBody (limitWAF .processPartial) (evaluator [] (fun _ => .stored)) []
      ((request.limitCtl 2).evaluate []
        (writeRequestBody (limitWAF .processPartial) (evaluator [] (fun _ => .stored))
          [1, 2, 3] ((limitWAF .processPartial).newTransaction .new)).2)).1 = none := by
  rfl

end Coraza.Waf
