import Coraza.Http.Interceptor
import Coraza.Seclang.RuleParser

/-!
# What a blocked response lets through

A call of `Write` before any call of `WriteHeader` writes the header first, and the rules for
the response headers may interrupt the transaction there.  `Write` does not look again: unless
the transaction takes the bytes and reports the interruption itself, they are passed on.

`HeaderSafe` is the condition under which this does not happen, and `blocked_response_iff`
says that a handler leaks bytes of a blocked response exactly if one of its calls does not
meet it.
-/

namespace Coraza.Http

open Go Collections Waf Seclang List RwInterceptor Io Io.Stream

namespace RwInterceptor

/-- No byte was passed on while the transaction was interrupted. -/
def NoLeak (i : RwInterceptor) : Prop := ∀ e ∈ i.w.writes, e.2 = true → e.1 = []

instance (i : RwInterceptor) : Decidable i.NoLeak :=
  inferInstanceAs (Decidable (∀ e ∈ i.w.writes, e.2 = true → e.1 = []))

/-! ### What the helpers change -/

@[simp] theorem flushWriteHeader_writes (i : RwInterceptor) :
    i.flushWriteHeader.w.writes = i.w.writes := by
  unfold flushWriteHeader
  split <;> rfl

@[simp] theorem flushWriteHeader_tx (i : RwInterceptor) : i.flushWriteHeader.tx = i.tx := by
  unfold flushWriteHeader
  split <;> rfl

@[simp] theorem flushWriteHeader_wroteHeader (i : RwInterceptor) :
    i.flushWriteHeader.wroteHeader = i.wroteHeader := by
  unfold flushWriteHeader
  split <;> rfl

@[simp] theorem flushWriteHeader_wroteBuffered (i : RwInterceptor) :
    i.flushWriteHeader.wroteBufferedBodyToDownstream = i.wroteBufferedBodyToDownstream := by
  unfold flushWriteHeader
  split <;> rfl

@[simp] theorem flushWriteHeader_isHijacked (i : RwInterceptor) :
    i.flushWriteHeader.isHijacked = i.isHijacked := by
  unfold flushWriteHeader
  split <;> rfl

variable (it : Interruption)

@[simp] theorem block_writes (i : RwInterceptor) :
    (i.block it).w.writes = i.w.writes := flushWriteHeader_writes _

@[simp] theorem block_tx (i : RwInterceptor) : (i.block it).tx = i.tx :=
  flushWriteHeader_tx _

@[simp] theorem block_wroteHeader (i : RwInterceptor) :
    (i.block it).wroteHeader = i.wroteHeader := flushWriteHeader_wroteHeader _

@[simp] theorem block_wroteBuffered (i : RwInterceptor) :
    (i.block it).wroteBufferedBodyToDownstream = i.wroteBufferedBodyToDownstream :=
  flushWriteHeader_wroteBuffered _

@[simp] theorem block_isHijacked (i : RwInterceptor) :
    (i.block it).isHijacked = i.isHijacked := flushWriteHeader_isHijacked _

theorem buffers_eq_true {waf : WAF} {i : RwInterceptor} : i.buffers waf = true ↔
    i.tx.responseBodyAccess = true ∧ isResponseBodyProcessable waf i.tx = true ∧
      i.wroteBufferedBodyToDownstream = false := by
  unfold buffers
  rw [Bool.and_eq_true, Bool.and_eq_true, Bool.not_eq_true', and_assoc]

section

variable (server : Server) (waf : WAF) (ev : Evaluator)

def headersTx (statusCode : Int) (i : RwInterceptor) : Transaction :=
  (processResponseHeaders ev statusCode i.proto
    (i.tx.modifyVariables (addResponseHeaders i.w.header))).2

variable {i : RwInterceptor} {b : Bytes}

theorem writeHeader_first (statusCode : Int) (h : i.wroteHeader = false) :
    (i.writeHeader waf ev statusCode).w.writes = i.w.writes ∧
      (i.writeHeader waf ev statusCode).tx = i.headersTx ev statusCode ∧
      (i.writeHeader waf ev statusCode).wroteHeader = true ∧
      (i.writeHeader waf ev statusCode).wroteBufferedBodyToDownstream
        = i.wroteBufferedBodyToDownstream ∧
      (i.writeHeader waf ev statusCode).isHijacked = i.isHijacked := by
  unfold writeHeader headersTx
  rw [if_neg (by rw [h]; exact Bool.false_ne_true)]
  dsimp only
  generalize processResponseHeaders ev statusCode i.proto
    (i.tx.modifyVariables (addResponseHeaders i.w.header)) = out
  obtain ⟨_ | it, tx⟩ := out
  · split_ifs <;> simp
  · simp

theorem writeHeader_writes (statusCode : Int) (i : RwInterceptor) :
    (i.writeHeader waf ev statusCode).w.writes = i.w.writes := by
  cases h : i.wroteHeader with
  | false => exact (writeHeader_first waf ev statusCode h).1
  | true =>
    unfold writeHeader
    rw [if_pos h]

theorem ensureHeader_writes (i : RwInterceptor) :
    (i.ensureHeader waf ev).w.writes = i.w.writes := by
  unfold ensureHeader
  split
  · rfl
  · exact writeHeader_writes waf ev 200 i

theorem ensureHeader_wroteHeader (i : RwInterceptor) :
    (i.ensureHeader waf ev).wroteHeader = true := by
  unfold ensureHeader
  split
  · assumption
  · rename_i h
    exact (writeHeader_first waf ev 200 (Bool.not_eq_true _ ▸ h)).2.2.1

/-! ### The condition -/

/-- `WriteResponseBody` takes nothing and reports nothing, even if there is an interruption. -/
def Ignores (tx : Transaction) : Prop :=
  tx.isRuleEngineOff = true ∨ waf.responseBodyLimitAction = .processPartial ∧
    tx.responseBodyLimit = tx.responseBodyBuffer.length

/-- Bytes that are written now are safe: the transaction is interrupted already, or the header
was written, or writing it does not interrupt, or the transaction takes the bytes. -/
def HeaderSafe (i : RwInterceptor) : Prop :=
  i.tx.isInterrupted = true ∨ i.wroteHeader = true ∨
    (i.headersTx ev 200).isInterrupted = false ∨
    ((i.headersTx ev 200).responseBodyAccess = true ∧
      isResponseBodyProcessable waf (i.headersTx ev 200) = true ∧
      i.wroteBufferedBodyToDownstream = false ∧ ¬ Ignores waf (i.headersTx ev 200))

/-- The early return without an interruption, for an interrupted transaction. -/
theorem early_ignores {tx : Transaction} (haccess : tx.responseBodyAccess = true)
    (hint : tx.isInterrupted = true) :
    (responseSide waf ev).early tx = some (none, 0, none) ↔ Ignores waf tx := by
  obtain ⟨i, hi⟩ := Option.isSome_iff_exists.mp hint
  have haccess' : (responseSide waf ev).access tx = true := haccess
  have hlimit : (responseSide waf ev).limit tx = tx.responseBodyLimit := rfl
  have hbuffer : (responseSide waf ev).buffer tx = tx.responseBodyBuffer := rfl
  have haction : (responseSide waf ev).limitAction = waf.responseBodyLimitAction := rfl
  unfold BodySide.early Ignores
  rw [haccess', hlimit, hbuffer, haction, hi]
  cases tx.isRuleEngineOff <;> cases waf.responseBodyLimitAction <;> simp

/-- What a write without an interruption and without an error means. -/
theorem writeBody_silent {side : BodySide} {n : Int} {tx tx' : Transaction}
    (h : side.writeBody b tx = (some (none, n, none), tx')) :
    tx'.interruption = none ∨ tx' = tx ∧ side.early tx = some (none, n, none) := by
  have hfinish : ∀ {run w tx₁ n}, side.finish run w tx₁ = ((none, n, none), tx') →
      tx'.interruption = none := by
    intro run w tx₁ n h
    unfold BodySide.finish at h
    split at h
    · obtain ⟨hr, rfl⟩ := Prod.mk.inj h
      exact (Prod.mk.inj hr).1
    · obtain ⟨hr, rfl⟩ := Prod.mk.inj h
      exact (Prod.mk.inj hr).1
  have hstore : ∀ {m run tx₁}, side.store b m run tx₁ = (some (none, n, none), tx') →
      tx'.interruption = none := by
    intro m run tx₁ h
    unfold BodySide.store at h
    split at h
    · cases h
    · dsimp only at h
      split at h
      · obtain ⟨hr, -⟩ := Prod.mk.inj h
        cases hr
      · obtain ⟨hr, htx⟩ := Prod.mk.inj h
        exact hfinish (Prod.ext (Option.some.inj hr) htx)
  unfold BodySide.writeBody at h
  split at h
  · rename_i r hearly
    obtain ⟨hr, rfl⟩ := Prod.mk.inj h
    exact .inr ⟨rfl, hearly.trans hr⟩
  · left
    dsimp only at h
    split at h
    · obtain ⟨hr, -⟩ := Prod.mk.inj h
      cases hr
    · split at h
      · split at h
        · obtain ⟨hr, -⟩ := Prod.mk.inj h
          cases hr
        · exact hstore h
      · exact hstore h

/-! ### Passing bytes on -/

theorem writeDown_state (i : RwInterceptor) (b : Bytes) : (writeDown server i b).2 = { i with
      w := { i.w with writes := i.w.writes ++ [(b, i.tx.isInterrupted)] } } := by
  unfold writeDown
  dsimp only
  split <;> rfl

/-- Copying to the delegate only adds to what it was asked to write, and the transaction is the
same all the time. -/
theorem copyDown_state {ρ : Type} (read : Io.ReadFn ρ) (size fuel : Nat) (src : ρ)
    (i : RwInterceptor) (written : Nat) : ∃ l : List (Bytes × Bool),
      (∀ e ∈ l, e.2 = i.tx.isInterrupted) ∧
      (copyBuffer read (writeDown server) size fuel src i written).2.2
        = { i with w := { i.w with writes := i.w.writes ++ l } } := by
  refine copyBuffer_invariant read (writeDown server) (P := fun _ i' _ =>
    ∃ l : List (Bytes × Bool), (∀ e ∈ l, e.2 = i.tx.isInterrupted) ∧
      i' = { i with w := { i.w with writes := i.w.writes ++ l } })
    (fun _ _ _ h _ => h) ?_ fuel src i written ⟨[], by simp, by simp⟩
  rintro src _ n ⟨l, hl, rfl⟩ -
  refine ⟨l ++ [((read src size).1.1, i.tx.isInterrupted)], ?_, ?_⟩
  · intro e he
    rcases List.mem_append.mp he with he | he
    · exact hl e he
    · rw [List.mem_singleton.mp he]
  · rw [writeDown_state, ← append_assoc]

theorem copyDown_first {ρ : Type} {read : Io.ReadFn ρ} {size : Nat} {src : ρ}
    (hread : (read src size).1.1 ≠ []) (fuel : Nat) (i : RwInterceptor) (written : Nat) :
    ((read src size).1.1, i.tx.isInterrupted) ∈
      (copyBuffer read (writeDown server) size (fuel + 1) src i written).2.2.w.writes := by
  have hround := copyBuffer_round read (writeDown server) size fuel src i written
  have hmem : ((read src size).1.1, i.tx.isInterrupted) ∈
      (writeDown server i (read src size).1.1).2.w.writes := by
    rw [writeDown_state]
    exact mem_append_right _ (List.mem_singleton.mpr rfl)
  generalize copyBuffer read (writeDown server) size (fuel + 1) src i written = out at hround ⊢
  cases hround with
  | refused => exact hmem
  | again htook her =>
    rcases htook with hb | -
    · exact absurd hb hread
    · obtain ⟨l, -, hrest⟩ := copyDown_state server read size fuel _ _ _
      rw [hrest]
      exact mem_append_left _ hmem
  | ended htook her =>
    rcases htook with hb | -
    · exact absurd hb hread
    · exact hmem

theorem copyBody_error {body : BodyBuffer} {fuel : Nat}
    (h : (copy (BodyBuffer.read body) (writeDown server) (fuel + 1) 0 i).1.2 ≠ none) :
    ∃ e ∈ (copy (BodyBuffer.read body) (writeDown server) (fuel + 1) 0 i).2.2.w.writes,
      e.2 = i.tx.isInterrupted ∧ e.1 ≠ [] := by
  have hsize : 0 < copySize := by decide
  by_cases hread : (body.read 0 copySize).1.1 = []
  · have heof := body.read_nil hsize hread
    refine absurd ?_ h
    unfold copy copyBuffer
    dsimp only at hread heof ⊢
    rw [hread, heof]
    rfl
  · exact ⟨_, copyDown_first server hread fuel i 0, rfl, hread⟩

/-- What releasing the buffer changes.  If it fails, some bytes were passed on. -/
theorem writeBuffered_state (i : RwInterceptor) : ∃ l : List (Bytes × Bool),
    (∀ e ∈ l, e.2 = i.tx.isInterrupted) ∧
    (i.writeBufferedResponseBodyToDownstream server).2.w.writes = i.w.writes ++ l ∧
    (i.writeBufferedResponseBodyToDownstream server).2.tx = i.tx ∧
    (i.writeBufferedResponseBodyToDownstream server).2.wroteHeader = i.wroteHeader ∧
    ((i.writeBufferedResponseBodyToDownstream server).1 ≠ none →
      ∃ e ∈ i.w.writes ++ l, e.2 = i.tx.isInterrupted ∧ e.1 ≠ []) := by
  unfold writeBufferedResponseBodyToDownstream
  split
  · exact ⟨[], by simp⟩
  · dsimp only
    generalize hbody : i.flushWriteHeader.tx.responseBodyBuffer = body
    have hstate := copyDown_state server (BodyBuffer.read body) copySize
      (body.content.length + 2) 0 i.flushWriteHeader 0
    have herror : (copy (BodyBuffer.read body) (writeDown server) (body.content.length + 2) 0
        i.flushWriteHeader).1.2 ≠ none → _ := copyBody_error server
    obtain ⟨l, hl, hstate⟩ := hstate
    unfold copy at herror ⊢
    rw [hstate] at herror ⊢
    rw [flushWriteHeader_tx] at hl herror
    refine ⟨l, hl, ?_⟩
    cases hres : (copyBuffer (BodyBuffer.read body) (writeDown server) copySize
        (body.content.length + 2) 0 i.flushWriteHeader 0).1.2 with
    | none => simp
    | some err =>
      obtain ⟨e, he, hflag, hne⟩ := herror (by rw [hres]; simp)
      refine ⟨by simp, by simp, by simp, fun _ => ⟨e, ?_, hflag, hne⟩⟩
      simpa using he

/-! ### Safe and unsafe writes -/

theorem noLeak_append {i' : RwInterceptor} {l : List (Bytes × Bool)} (h : i.NoLeak)
    (hl : ∀ e ∈ l, e.2 = true → e.1 = []) (heq : i'.w.writes = i.w.writes ++ l) : i'.NoLeak := by
  intro e he
  rw [heq] at he
  rcases List.mem_append.mp he with he | he
  · exact h e he
  · exact hl e he

theorem noLeak_of_eq {i' : RwInterceptor} (h : i.NoLeak) (heq : i'.w.writes = i.w.writes) :
    i'.NoLeak := by
  unfold NoLeak
  rwa [heq]

theorem headerSafe_iff (hint : i.tx.isInterrupted = false) :
    HeaderSafe waf ev i ↔ (i.ensureHeader waf ev).tx.isInterrupted = false ∨
      (i.ensureHeader waf ev).buffers waf = true ∧ ¬ Ignores waf (i.ensureHeader waf ev).tx := by
  unfold HeaderSafe ensureHeader buffers
  cases hheader : i.wroteHeader with
  | true => simp [hint]
  | false =>
    obtain ⟨-, htx, -, hbuffered, -⟩ := writeHeader_first waf ev 200 hheader
    simp only [Bool.false_eq_true, if_false, htx, hbuffered, hint, false_or, Bool.and_eq_true,
      Bool.not_eq_true', and_assoc]

theorem noLeak_writeBody (h : i.NoLeak)
    (hsafe : b = [] ∨ i.tx.isInterrupted = false ∨ i.buffers waf = true ∧ ¬ Ignores waf i.tx) :
    (i.writeBody server waf ev b).2.NoLeak := by
  unfold writeBody
  split
  · rename_i hbuffers
    have haccess := (buffers_eq_true.mp hbuffers).1
    have hsilent : ∀ n tx, writeResponseBody waf ev b i.tx = (some (none, n, none), tx) →
        n ≠ b.length → tx.isInterrupted = false := by
      intro n tx hwrite hn
      rcases writeBody_silent hwrite with hnone | ⟨rfl, hearly⟩
      · unfold Transaction.isInterrupted
        rw [hnone]
        rfl
      · cases hint : i.tx.isInterrupted with
        | false => rfl
        | true =>
          have hzero : n = 0 := (BodySide.early_eq hearly).1
          subst hzero
          have hignores := (early_ignores waf ev haccess hint).mp hearly
          rcases hsafe with rfl | hsafe | ⟨-, hsafe⟩
          · exact absurd rfl hn
          · rw [hsafe] at hint
            cases hint
          · exact absurd hignores hsafe
    generalize writeResponseBody waf ev b i.tx = out at hsilent ⊢
    obtain ⟨_ | ⟨_ | it, n, err⟩, tx⟩ := out
    · exact noLeak_of_eq h rfl
    · dsimp only
      split
      · exact noLeak_of_eq h rfl
      · rename_i hgo
        obtain ⟨herr, hn⟩ := not_or.mp hgo
        obtain rfl : err = none := not_not.mp herr
        have hint := hsilent n tx rfl hn
        obtain ⟨l, hl, hwrites, htx, -, -⟩ := writeBuffered_state server { i with tx }
        have hfalse : ∀ e ∈ l, e.2 = true → e.1 = [] := by
          intro e he htrue
          rw [hl e he, hint] at htrue
          cases htrue
        generalize writeBufferedResponseBodyToDownstream server _ = out at hwrites htx ⊢
        obtain ⟨_ | err, i'⟩ := out
        · have h' : i'.NoLeak := noLeak_append h hfalse hwrites
          rw [writeDown_state]
          refine noLeak_append h' ?_ rfl
          intro e he htrue
          rw [List.mem_singleton.mp he] at htrue
          rw [htx, hint] at htrue
          cases htrue
        · exact noLeak_append h hfalse hwrites
    · exact noLeak_of_eq h (block_writes _ _)
  · rename_i hbuffers
    rw [writeDown_state]
    refine noLeak_append h (l := [(b, i.tx.isInterrupted)]) ?_ (by simp)
    intro e he htrue
    rw [List.mem_singleton.mp he] at htrue ⊢
    rcases hsafe with hsafe | hsafe | ⟨hsafe, -⟩
    · exact hsafe
    · rw [hsafe] at htrue
      cases htrue
    · exact absurd hsafe hbuffers

/-- The bytes of a write that the transaction does not take are passed on. -/
theorem leak_writeBody (hb : b ≠ []) (hint : i.tx.isInterrupted = true)
    (hleaks : i.buffers waf = false ∨ Ignores waf i.tx) :
    ¬ (i.writeBody server waf ev b).2.NoLeak := by
  -- it is enough that the delegate was asked for some bytes while interrupted
  have hleak : ∀ i' : RwInterceptor, (∃ e ∈ i'.w.writes, e.2 = true ∧ e.1 ≠ []) → ¬ i'.NoLeak :=
    fun i' ⟨e, he, hflag, hne⟩ h => hne (h e he hflag)
  unfold writeBody
  split
  · rename_i hbuffers
    have haccess := (buffers_eq_true.mp hbuffers).1
    have hignores : Ignores waf i.tx := by
      rcases hleaks with h | h
      · rw [hbuffers] at h
        cases h
      · exact h
    have hwrite : writeResponseBody waf ev b i.tx = (some (none, 0, none), i.tx) := by
      unfold writeResponseBody BodySide.writeBody
      rw [(early_ignores waf ev haccess hint).mpr hignores]
    have hlen : ¬ ((none : Option Error) ≠ none ∨ (0 : Int) = b.length) := by
      rintro (h | h)
      · exact h rfl
      · exact hb (eq_nil_of_length_eq_zero (by omega))
    rw [hwrite]
    dsimp only
    rw [if_neg hlen]
    obtain ⟨l, -, hwrites, htx, -, herror⟩ := writeBuffered_state server i
    generalize writeBufferedResponseBodyToDownstream server i = out at hwrites htx herror ⊢
    obtain ⟨_ | err, i'⟩ := out
    · refine hleak _ ⟨(b, true), ?_, rfl, hb⟩
      rw [writeDown_state, htx, hint]
      exact mem_append_right _ (List.mem_singleton.mpr rfl)
    · obtain ⟨e, he, hflag, hne⟩ := herror (by simp)
      refine hleak _ ⟨e, ?_, hflag.trans hint, hne⟩
      rwa [hwrites]
  · refine hleak _ ⟨(b, true), ?_, rfl, hb⟩
    rw [writeDown_state, flushWriteHeader_tx, hint]
    exact mem_append_right _ (List.mem_singleton.mpr rfl)

theorem writeBody_state (b : Bytes) (i : RwInterceptor) :
    i.w.writes <+: (i.writeBody server waf ev b).2.w.writes ∧
      (i.writeBody server waf ev b).2.wroteHeader = i.wroteHeader ∧
      (i.writeBody server waf ev b).2.tx
        = if i.buffers waf then (writeResponseBody waf ev b i.tx).2 else i.tx := by
  unfold writeBody
  split
  · generalize writeResponseBody waf ev b i.tx = out
    obtain ⟨_ | ⟨_ | it, n, err⟩, tx⟩ := out
    · exact ⟨prefix_refl _, rfl, rfl⟩
    · dsimp only
      split
      · exact ⟨prefix_refl _, rfl, rfl⟩
      · obtain ⟨l, -, hwrites, htx, hheader, -⟩ := writeBuffered_state server { i with tx }
        generalize writeBufferedResponseBodyToDownstream server _ = out at hwrites htx hheader ⊢
        have hpre : i.w.writes <+: out.2.w.writes := ⟨l, hwrites.symm⟩
        obtain ⟨_ | err, i'⟩ := out
        · dsimp only
          rw [writeDown_state]
          exact ⟨hpre.trans (prefix_append ..), hheader, htx⟩
        · exact ⟨hpre, hheader, htx⟩
    · simp
  · dsimp only
    rw [writeDown_state]
    simp

theorem noLeak_write_iff (h : i.NoLeak) :
    (i.write server waf ev b).2.NoLeak ↔ b = [] ∨ HeaderSafe waf ev i := by
  unfold write
  cases hint : i.tx.isInterrupted with
  | true => exact ⟨fun _ => .inr (.inl hint), fun _ => h⟩
  | false =>
    have h' : (i.ensureHeader waf ev).NoLeak := noLeak_of_eq h (ensureHeader_writes waf ev i)
    rw [headerSafe_iff waf ev hint]
    refine ⟨fun hnoleak => ?_, noLeak_writeBody server waf ev h'⟩
    by_contra hleaks
    obtain ⟨hb, hleaks⟩ := not_or.mp hleaks
    obtain ⟨hint', hbuffers⟩ := not_or.mp hleaks
    refine leak_writeBody server waf ev hb (Bool.not_eq_false _ ▸ hint') ?_ hnoleak
    cases hbuf : (i.ensureHeader waf ev).buffers waf with
    | false => exact .inl rfl
    | true => exact .inr (not_not.mp (fun hign => hbuffers ⟨hbuf, hign⟩))

theorem write_writes (b : Bytes) (i : RwInterceptor) :
    i.w.writes <+: (i.write server waf ev b).2.w.writes := by
  unfold write
  split
  · exact prefix_refl _
  · rw [← ensureHeader_writes waf ev i]
    exact (writeBody_state server waf ev b _).1

/-- After a write the header was written or the transaction is interrupted. -/
theorem headerSafe_write (b : Bytes) (i : RwInterceptor) :
    HeaderSafe waf ev (i.write server waf ev b).2 := by
  unfold write
  split
  · rename_i h
    exact .inl h
  · right; left
    exact (writeBody_state server waf ev b _).2.1.trans (ensureHeader_wroteHeader waf ev i)

/-! ### Copying from a reader -/

theorem writeFn_state (i : RwInterceptor) (b : Bytes) :
    (writeFn server waf ev i b).2 = (i.write server waf ev b).2 := by
  unfold writeFn
  generalize i.write server waf ev b = out
  obtain ⟨_ | r, i'⟩ := out <;> rfl

theorem copy_prefix (fuel : Nat) (r : Io.Stream) (i : RwInterceptor) (n : Nat) :
    i.w.writes <+: (copyBuffer read (writeFn server waf ev) copySize fuel r i
      n).2.2.w.writes := by
  refine copyBuffer_invariant _ _ (P := fun _ i' _ => i.w.writes <+: i'.w.writes)
    (fun _ _ _ h _ => h) ?_ fuel r i n (prefix_refl _)
  intro src i' n h _
  rw [writeFn_state]
  exact h.trans (write_writes server waf ev _ i')

/-- A reader with some bytes leads to a write of some. -/
theorem copy_first : ∀ (fuel : Nat) (r : Io.Stream) (i : RwInterceptor) (n : Nat),
    r.content ≠ [] → r.weight < fuel → ∃ b, b ≠ [] ∧
      (i.write server waf ev b).2.w.writes <+:
        (copyBuffer read (writeFn server waf ev) copySize fuel r i
          n).2.2.w.writes := by
  have hsize : 0 < copySize := by decide
  intro fuel
  induction fuel with
  | zero => exact fun r i n _ hfuel => absurd hfuel (Nat.not_lt_zero _)
  | succ fuel ih =>
    intro r i n hcontent hfuel
    have hround := copyBuffer_round read (writeFn server waf ev) copySize fuel r i n
    have hread := r.read_content copySize
    have hfirst := writeFn_state server waf ev i (r.read copySize).1.1
    generalize copyBuffer read (writeFn server waf ev) copySize (fuel + 1) r i n = out at hround ⊢
    cases hround with
    | refused hb hres => exact ⟨_, hb, hfirst ▸ prefix_refl _⟩
    | again htook her =>
      rcases htook with hb | ⟨hb, -⟩
      · refine ih _ i _ ?_ (lt_of_lt_of_le (r.read_weight hsize her) (Nat.lt_succ_iff.mp hfuel))
        rwa [← hread, hb] at hcontent
      · exact ⟨_, hb, hfirst ▸ copy_prefix server waf ev fuel _ _ _⟩
    | ended htook her =>
      rcases htook with hb | ⟨hb, -⟩
      · refine absurd ?_ hcontent
        rw [← hread, hb, (r.read_error her).2]
        rfl
      · exact ⟨_, hb, hfirst ▸ prefix_refl _⟩

theorem readFrom_state (r : Io.Stream) (i : RwInterceptor) :
    (i.readFrom server waf ev r).2 = (copyBuffer read (writeFn server waf ev)
      copySize (r.weight + 1) r i 0).2.2 := rfl

theorem readFrom_nil {r : Io.Stream} (hnil : r.content = []) (i : RwInterceptor) :
    (i.readFrom server waf ev r).2 = i := by
  have hread : ∀ r' : Io.Stream, r'.content = [] →
      (r'.read copySize).1.1 = [] ∧ (r'.read copySize).2.content = [] := by
    intro r' hr'
    have hread := r'.read_content copySize
    rw [hr'] at hread
    exact List.append_eq_nil_iff.mp hread
  refine (copyBuffer_invariant read (writeFn server waf ev)
    (P := fun r' i' _ => r'.content = [] ∧ i' = i) ?_ ?_ (r.weight + 1) r i 0 ⟨hnil, rfl⟩).2
  · rintro r' i' n ⟨hr', rfl⟩ -
    exact ⟨(hread r' hr').2, rfl⟩
  · rintro r' i' n ⟨hr', rfl⟩ hb
    exact absurd (hread r' hr').1 hb

theorem noLeak_readFrom_iff {r : Io.Stream} (h : i.NoLeak) :
    (i.readFrom server waf ev r).2.NoLeak ↔ r.content = [] ∨ HeaderSafe waf ev i := by
  constructor
  · intro hnoleak
    by_contra hleaks
    obtain ⟨hcontent, hheader⟩ := not_or.mp hleaks
    obtain ⟨b, hb, hpre⟩ := copy_first server waf ev (r.weight + 1) r i 0 hcontent
      (Nat.lt_succ_self _)
    have hwrite : (i.write server waf ev b).2.NoLeak := fun e he =>
      hnoleak e (hpre.subset he)
    rcases (noLeak_write_iff server waf ev h).mp hwrite with hnil | hsafe
    · exact hb hnil
    · exact hheader hsafe
  · rintro (hnil | hsafe)
    · rw [readFrom_nil server waf ev hnil]
      exact h
    · rw [readFrom_state]
      refine (copyBuffer_invariant read (writeFn server waf ev)
        (P := fun _ i' _ => i'.NoLeak ∧ HeaderSafe waf ev i') (fun _ _ _ h _ => h) ?_
        (r.weight + 1) r i 0 ⟨h, hsafe⟩).1
      rintro r' i' n ⟨hnoleak, hheader⟩ -
      rw [writeFn_state]
      exact ⟨(noLeak_write_iff server waf ev hnoleak).mpr (.inr hheader),
        headerSafe_write server waf ev _ i'⟩

end

end RwInterceptor

/-! ### Handlers -/

section

variable (server : Server) (waf : WAF) (ev : Evaluator)

def HandlerCall.Safe (i : RwInterceptor) : HandlerCall → Prop
  | .write b => b = [] ∨ i.HeaderSafe waf ev
  | .readFrom r => r.content = [] ∨ i.HeaderSafe waf ev
  | _ => True

def SafeRun : List HandlerCall → RwInterceptor → Prop
  | [], _ => True
  | call :: calls, i => call.Safe waf ev i ∧ SafeRun calls (call.run server waf ev i)

theorem flush_writes (i : RwInterceptor) : (i.flush server waf ev).w.writes = i.w.writes := by
  unfold flush
  dsimp only
  split
  · exact i.ensureHeader_writes waf ev
  · exact i.ensureHeader_writes waf ev

theorem hijack_writes (refused : Bool) (i : RwInterceptor) :
    (i.hijack refused).w.writes = i.w.writes := by
  unfold hijack
  split <;> rfl

theorem noLeak_run_iff {i : RwInterceptor} (h : i.NoLeak) (call : HandlerCall) :
    (call.run server waf ev i).NoLeak ↔ call.Safe waf ev i := by
  have hsame : ∀ {i' : RwInterceptor}, i'.w.writes = i.w.writes → (i'.NoLeak ↔ True) :=
    fun heq => iff_true_intro (noLeak_of_eq h heq)
  cases call with
  | header h => exact hsame rfl
  | writeHeader statusCode => exact hsame (i.writeHeader_writes waf ev statusCode)
  | write b => exact noLeak_write_iff server waf ev h
  | readFrom r => exact noLeak_readFrom_iff server waf ev h
  | flush => exact hsame (flush_writes server waf ev i)
  | hijack refused => exact hsame (hijack_writes refused i)

theorem run_writes (i : RwInterceptor) (call : HandlerCall) :
    i.w.writes <+: (call.run server waf ev i).w.writes := by
  cases call with
  | header h => exact prefix_refl _
  | writeHeader statusCode =>
    show _ <+: (i.writeHeader waf ev statusCode).w.writes
    rw [i.writeHeader_writes waf ev statusCode]
  | write b => exact i.write_writes server waf ev b
  | readFrom r =>
    show _ <+: (i.readFrom server waf ev r).2.w.writes
    rw [readFrom_state]
    exact RwInterceptor.copy_prefix server waf ev _ r i 0
  | flush =>
    show _ <+: (i.flush server waf ev).w.writes
    rw [flush_writes]
  | hijack refused =>
    show _ <+: (i.hijack refused).w.writes
    rw [hijack_writes]

theorem runHandler_writes (calls : List HandlerCall) (i : RwInterceptor) :
    i.w.writes <+: (runHandler server waf ev calls i).w.writes := by
  induction calls generalizing i with
  | nil => exact prefix_refl _
  | cons call calls ih => exact (run_writes server waf ev i call).trans (ih _)

theorem noLeak_runHandler_iff : ∀ (calls : List HandlerCall) {i : RwInterceptor}, i.NoLeak →
    ((runHandler server waf ev calls i).NoLeak ↔ SafeRun server waf ev calls i) := by
  intro calls
  induction calls with
  | nil => exact fun h => iff_of_true h trivial
  | cons call calls ih =>
    intro i h
    have hcall := noLeak_run_iff server waf ev h call
    constructor
    · intro hrun
      have hfirst : (call.run server waf ev i).NoLeak := fun e he =>
        hrun e ((runHandler_writes server waf ev calls _).subset he)
      exact ⟨hcall.mp hfirst, (ih hfirst).mp hrun⟩
    · rintro ⟨hsafe, hrest⟩
      exact (ih (hcall.mpr hsafe)).mpr hrest

/-- The response processor passes on nothing of a blocked response. -/
theorem responseProcessor_writes (i : RwInterceptor) : ∃ l : List (Bytes × Bool),
    (i.responseProcessor server waf ev).2.w.writes = i.w.writes ++ l ∧ ∀ e ∈ l, e.2 = false := by
  have hnothing : ∀ {i' : RwInterceptor}, i'.w.writes = i.w.writes →
      ∃ l : List (Bytes × Bool), i'.w.writes = i.w.writes ++ l ∧ ∀ e ∈ l, e.2 = false :=
    fun heq => ⟨[], by rw [heq, append_nil], by simp⟩
  unfold responseProcessor
  split
  · exact hnothing rfl
  split
  · exact hnothing rfl
  rename_i hint
  split
  · have hit := processResponseBody_interruption waf ev
      (Transaction.isInterrupted_eq_false.mp (Bool.not_eq_true _ ▸ hint))
    generalize processResponseBody waf ev i.tx = out at hit ⊢
    obtain ⟨⟨_ | it, _ | err⟩, tx⟩ := out
    · obtain ⟨l, hl, hwrites, -⟩ := writeBuffered_state server { i with tx }
      refine ⟨l, hwrites, fun e he => ?_⟩
      rw [hl e he]
      exact Transaction.isInterrupted_eq_false.mpr hit.symm
    · exact hnothing (flushWriteHeader_writes _)
    · exact hnothing (block_writes _ _)
    · exact hnothing (flushWriteHeader_writes _)
  · exact hnothing (flushWriteHeader_writes _)

theorem noLeak_responseProcessor_iff (i : RwInterceptor) :
    (i.responseProcessor server waf ev).2.NoLeak ↔ i.NoLeak := by
  obtain ⟨l, hwrites, hl⟩ := responseProcessor_writes server waf ev i
  constructor
  · intro h e he
    exact h e (hwrites ▸ mem_append_left l he)
  · intro h
    refine noLeak_append h (fun e he htrue => ?_) hwrites
    rw [hl e he] at htrue
    cases htrue

/-- **A blocked response leaks no body, if and only if the calls of the handler are safe.** -/
theorem blocked_response_iff {w : ResponseWriter} (hw : w.writes = []) (proto : Bytes)
    (tx : Transaction) (calls : List HandlerCall) :
    (serve server waf ev calls (wrap w proto tx)).NoLeak ↔
      SafeRun server waf ev calls (wrap w proto tx) := by
  have hstart : (wrap w proto tx).NoLeak := by
    intro e he
    rw [show (wrap w proto tx).w.writes = [] from hw] at he
    cases he
  exact (noLeak_responseProcessor_iff server waf ev _).trans
    (noLeak_runHandler_iff server waf ev calls hstart)

end

def denyResponse : List Directive := [.secAction (some [.id 7, .phase 3, .deny])]

def denyResponseChain : RuleChain where
  starter := { Rule.new with
    id := 7, logID := Strconv.itoa 7, phase := 3, actions := [.deny] }
  members := []

def goodServer : Server := ⟨fun _ => none, true⟩

def freshWriter : ResponseWriter := ⟨[], [], [], 0⟩

def freshInterceptor : RwInterceptor :=
  wrap freshWriter (bytesOf "HTTP/1.1") ((WAF.new (fun _ => none)).newTransaction .new)

def serveDenied (calls : List HandlerCall) : RwInterceptor :=
  serve goodServer (WAF.new (fun _ => none))
    (RuleGroup.evaluator [denyResponseChain] (fun _ => .stored)) calls freshInterceptor

/-- A handler that sends its header first leaks nothing. -/
theorem blocked_response_after_header :
    (serveDenied [.writeHeader 200, .write (bytesOf "secret")]).tx.isInterrupted = true ∧
      (serveDenied [.writeHeader 200, .write (bytesOf "secret")]).NoLeak := by
  refine ⟨by decide +kernel, ?_⟩
  refine (blocked_response_iff _ _ _ (w := freshWriter) rfl _ _ _).mpr ⟨trivial, .inr ?_, trivial⟩
  exact .inl (by decide +kernel)

/-- **A handler that writes its body at once leaks it.** -/
theorem blocked_response_without_header :
    (parse [] denyResponse).map ParserState.rules = some [denyResponseChain] ∧
      (serveDenied [.write (bytesOf "secret")]).w.writes = [(bytesOf "secret", true)] ∧
      ¬ (serveDenied [.write (bytesOf "secret")]).NoLeak :=
  ⟨rfl, by decide +kernel, by decide +kernel⟩

end Coraza.Http
