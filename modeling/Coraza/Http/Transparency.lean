import Coraza.Http.BlockedResponse
import Coraza.Waf.ActionSteps
import Coraza.Waf.CallSteps

/-!
# Responses that are not blocked arrive unchanged

The interceptor keeps the response body back in the buffer of the transaction, or passes it on.
`Inv` says for both ways where the bytes of the handler are; every call of the handler keeps it
(`run_inv`) unless it interrupts the transaction, and the response processor turns it into
`response_transparent`: the delegate has got the bytes of all calls in order.

What the rules of phase 4 may not do is collected in `KeepsResponse`.  The settings of the
response body are final when the header is written, so the conditions on them are conditions on
the transaction at that moment (`SettledRun`).
-/

namespace Coraza.Http

open Go Collections Waf Seclang List RwInterceptor RuleGroup BodySide

/-! ### The transaction -/

/-- What the evaluation of rules leaves alone, such that the interceptor can rely on it. -/
structure KeepsResponse (ev : Evaluator) : Prop where
  interruption : ∀ phase tx, tx.isInterrupted = true → (ev.eval phase tx).isInterrupted = true
  buffer : ∀ phase tx, (ev.eval phase tx).responseBodyBuffer = tx.responseBodyBuffer
  access : ∀ tx, (ev.eval phaseResponseBody tx).responseBodyAccess = tx.responseBodyAccess
  limit : ∀ tx, (ev.eval phaseResponseBody tx).responseBodyLimit = tx.responseBodyLimit
  force : ∀ tx, (ev.eval phaseResponseBody tx).forceResponseBodyVariable
    = tx.forceResponseBodyVariable
  contentType : ∀ tx, (ev.eval phaseResponseBody tx).vars.single .responseContentType
    = tx.vars.single .responseContentType

theorem keepsResponse_evaluator {rg : RuleGroup}
    (hforce : ∀ r ∈ rg.phaseRules phaseResponseBody, ∀ value,
      .ctl (.forceResponseBodyVariable (some value)) ∉ r.actions)
    (iteration : Nat → Iteration) : KeepsResponse (rg.evaluator iteration) where
  interruption := fun _ _ => eval_interruption
  buffer := fun _ tx => (eval_buffers tx).2
  access := fun tx => (eval_responseSettings (by decide) tx).1
  limit := fun tx => (eval_responseSettings (by decide) tx).2
  force := eval_forceResponseBodyVariable hforce
  contentType := eval_single (by decide)

section

variable (waf : WAF)

/-- The transaction can take response bytes: its buffer is in order and large enough for the
limit, and the body processor exists. -/
structure Ready (tx : Transaction) : Prop where
  wellFormed : tx.responseBodyBuffer.WellFormed
  options : tx.responseBodyBuffer.options = ⟨waf.responseBodyLimit, waf.responseBodyLimit⟩
  within : tx.isRuleEngineOff = true ∨ tx.responseBodyBuffer.length ≤ tx.responseBodyLimit ∧
    tx.responseBodyLimit ≤ waf.responseBodyLimit
  processor : tx.lastPhase = phaseResponseHeaders → responseProcessorError waf tx.vars = none

structure SameSettings (tx tx' : Transaction) : Prop where
  access : tx'.responseBodyAccess = tx.responseBodyAccess
  limit : tx'.responseBodyLimit = tx.responseBodyLimit
  processable : isResponseBodyProcessable waf tx' = isResponseBodyProcessable waf tx

theorem SameSettings.trans {tx tx' tx'' : Transaction} (h : SameSettings waf tx tx')
    (h' : SameSettings waf tx' tx'') : SameSettings waf tx tx'' where
  access := h'.access.trans h.access
  limit := h'.limit.trans h.limit
  processable := h'.processable.trans h.processable

theorem isResponseBodyProcessable_congr {tx tx' : Transaction}
    (hforce : tx'.forceResponseBodyVariable = tx.forceResponseBodyVariable)
    (htype : tx'.vars.single .responseContentType = tx.vars.single .responseContentType) :
    isResponseBodyProcessable waf tx' = isResponseBodyProcessable waf tx := by
  unfold isResponseBodyProcessable
  rw [hforce, htype]

theorem responseProcessorError_congr {vars vars' : Variables}
    (h : vars'.single .resBodyProcessor = vars.single .resBodyProcessor) :
    responseProcessorError waf vars' = responseProcessorError waf vars := by
  unfold responseProcessorError
  rw [h]

theorem generateResponseBodyError_contentType (err : Bytes) (vars : Variables) :
    (generateResponseBodyError err vars).single .responseContentType
      = vars.single .responseContentType := by
  simp [generateResponseBodyError]

theorem parseResponseBody_contentType (n : Nat) (body : Bytes) (vars : Variables) :
    (parseResponseBody waf n body vars).single .responseContentType
      = vars.single .responseContentType := by
  unfold parseResponseBody
  dsimp only
  split
  · split
    · exact generateResponseBodyError_contentType ..
    · rename_i b _
      have htype := b.contentType n body ⟨[], [], 0⟩ vars
      unfold afterProcessor
      split
      · exact htype
      · exact (generateResponseBodyError_contentType ..).trans htype
  · simp

/-- What `WriteResponseBody` does, unless it interrupts: it takes a first part of the bytes. -/
structure Took (b : Bytes) (tx : Transaction) (n : Nat) (tx' : Transaction) : Prop where
  le : n ≤ b.length
  appended : tx.responseBodyBuffer.Appended (b.take n) tx'.responseBodyBuffer
  ready : Ready waf tx'
  settings : SameSettings waf tx tx'

variable {waf} {ev : Evaluator} (hev : KeepsResponse ev)

include hev

theorem sameSettings_eval (tx : Transaction) :
    SameSettings waf tx (ev.eval phaseResponseBody tx) where
  access := hev.access tx
  limit := hev.limit tx
  processable := isResponseBodyProcessable_congr waf (hev.force tx) (hev.contentType tx)

/-- What `ProcessResponseBody` does, when the body processor exists. -/
theorem processResponseBody_spec {tx : Transaction}
    (hproc : tx.lastPhase = phaseResponseHeaders → responseProcessorError waf tx.vars = none) :
    (processResponseBody waf ev tx).1.2 = none ∧
      SameSettings waf tx (processResponseBody waf ev tx).2 ∧
      (processResponseBody waf ev tx).2.responseBodyBuffer = tx.responseBodyBuffer ∧
      ((processResponseBody waf ev tx).2 = tx ∨
        (processResponseBody waf ev tx).2.lastPhase = phaseResponseBody) := by
  have hrefl : SameSettings waf tx tx := ⟨rfl, rfl, rfl⟩
  unfold processResponseBody
  split
  · exact ⟨rfl, hrefl, rfl, .inl rfl⟩
  split
  · exact ⟨rfl, hrefl, rfl, .inl rfl⟩
  split
  · exact ⟨rfl, hrefl, rfl, .inl rfl⟩
  rename_i hlast
  split
  · exact ⟨rfl, sameSettings_eval hev tx, hev.buffer _ tx, .inr (ev.lastPhase_eval ..)⟩
  · have hparse : SameSettings waf tx (tx.askVariables (fun n =>
        parseResponseBody waf n tx.responseBodyBuffer.content)) :=
      ⟨rfl, rfl, isResponseBodyProcessable_congr waf rfl (parseResponseBody_contentType ..)⟩
    exact ⟨hproc (not_not.mp hlast), hparse.trans waf (sameSettings_eval hev _),
      hev.buffer .., .inr (ev.lastPhase_eval ..)⟩

omit hev in
theorem interruption_cases (tx : Transaction) :
    tx.isInterrupted = true ∨ tx.interruption = none := by
  unfold Transaction.isInterrupted
  cases tx.interruption with
  | none => exact .inr rfl
  | some it => exact .inl rfl

/-- Bytes that were appended within the limit are taken, also when phase 4 runs on them. -/
theorem finish_took (run : Bool) {tx tx₁ : Transaction} {b : Bytes} {n : Nat} (h : Ready waf tx)
    (hn : n ≤ b.length) (hlength : tx.responseBodyBuffer.length + n ≤ tx.responseBodyLimit)
    (hlimit : tx.responseBodyLimit ≤ waf.responseBodyLimit)
    (happ : tx.responseBodyBuffer.Appended (b.take n) tx₁.responseBodyBuffer)
    (hset : SameSettings waf tx tx₁)
    (hproc : tx₁.lastPhase = phaseResponseHeaders → responseProcessorError waf tx₁.vars = none) :
    ((responseSide waf ev).finish run n tx₁).2.isInterrupted = true ∨
      ∃ m : Nat, some ((responseSide waf ev).finish run n tx₁).1 = some (none, (m : Int), none) ∧
        Took waf b tx m ((responseSide waf ev).finish run n tx₁).2 := by
  have hspec := processResponseBody_spec hev hproc
  rw [finish_eq (fun _ => hspec.1) n]
  obtain ⟨hsame, hbody, hlast⟩ : SameSettings waf tx₁ ((responseSide waf ev).finish run n tx₁).2 ∧
      ((responseSide waf ev).finish run n tx₁).2.responseBodyBuffer = tx₁.responseBodyBuffer ∧
      (((responseSide waf ev).finish run n tx₁).2 = tx₁ ∨
        ((responseSide waf ev).finish run n tx₁).2.lastPhase = phaseResponseBody) := by
    cases run with
    | false => exact ⟨⟨rfl, rfl, rfl⟩, rfl, .inl rfl⟩
    | true => exact hspec.2
  generalize ((responseSide waf ev).finish run n tx₁).2 = tx₂ at hsame hbody hlast ⊢
  have hset := hset.trans waf hsame
  rw [← hbody] at happ
  refine (interruption_cases tx₂).imp id (fun hnone => ⟨n, by rw [hnone], hn, happ, ?_, hset⟩)
  refine ⟨happ.wellFormed, happ.options.trans h.options, .inr ?_, fun hphase => ?_⟩
  · rw [hset.limit, happ.length h.wellFormed, length_take, min_eq_left hn]
    exact ⟨hlength, hlimit⟩
  · rcases hlast with rfl | hlast
    · exact hproc hphase
    · rw [hlast] at hphase
      exact absurd hphase (by decide)

/-- **`WriteResponseBody` takes a first part of the bytes**, unless it interrupts. -/
theorem writeResponseBody_took (hint64 : waf.responseBodyLimit ≤ maxInt64) {tx : Transaction}
    (h : Ready waf tx) (b : Bytes) :
    (writeResponseBody waf ev b tx).2.isInterrupted = true ∨
      ∃ n : Nat, (writeResponseBody waf ev b tx).1 = some (none, (n : Int), none) ∧
        Took waf b tx n (writeResponseBody waf ev b tx).2 := by
  have hlaw := responseSide_lawful waf ev
  unfold writeResponseBody
  cases hearly : (responseSide waf ev).early tx with
  | some r =>
    obtain ⟨it, n, err⟩ := r
    obtain ⟨rfl, rfl, hit⟩ := early_eq hearly
    unfold BodySide.writeBody
    rw [hearly]
    refine (interruption_cases tx).imp id (fun hnone => ?_)
    have hit : it = none := hit.elim id (fun h => h.trans hnone)
    subst hit
    refine ⟨0, rfl, Nat.zero_le _, ⟨?_, rfl, h.wellFormed⟩, h, ⟨rfl, rfl, rfl⟩⟩
    rw [take_zero, append_nil]
  | none =>
    obtain ⟨hoff, -, hfull⟩ := early_none hearly
    obtain ⟨hwithin, hlimit⟩ := h.within.resolve_left (Bool.eq_false_iff.mp hoff)
    have haccepts : (responseSide waf ev).Accepts tx := by
      refine ⟨h.wellFormed, hwithin, ?_, Int.le_trans hlimit hint64, .inl ?_⟩
      · show tx.responseBodyLimit ≤ tx.responseBodyBuffer.options.limit
        rw [h.options]
        exact hlimit
      · show tx.responseBodyLimit ≤ tx.responseBodyBuffer.options.memoryLimit
        rw [h.options]
        exact hlimit
    have hover : (responseSide waf ev).checksOverflow = true →
        tx.responseBodyBuffer.length < maxInt64 - b.length :=
      fun hc => absurd hc Bool.false_ne_true
    obtain ⟨out, hstores, heq⟩ := writeBody_stores hlaw haccepts hearly hover
    rw [heq]
    cases hstores with
    | below hlength happ =>
      refine finish_took hev false h le_rfl (Int.le_of_lt hlength) hlimit ?_ ⟨rfl, rfl, rfl⟩
        h.processor
      rw [take_length]
      exact happ
    | rejected => exact .inl rfl
    | @cut buffer n hlength hn haction happ =>
      have hn : (n : Int) = tx.responseBodyLimit - tx.responseBodyBuffer.length := hn
      -- phase 4 is evaluated in the transaction with the new buffer
      refine finish_took hev true h (by omega) (by omega) hlimit happ ⟨rfl, rfl,
        isResponseBodyProcessable_congr waf rfl (setDataError_single (by exact nofun) tx)⟩
        (fun hlast => ?_)
      rw [← h.processor hlast]
      exact responseProcessorError_congr waf (setDataError_single (by exact nofun) tx)

end

/-! ### The interceptor -/

namespace RwInterceptor

def sent (i : RwInterceptor) : Bytes := i.w.writes.flatMap Prod.fst

section

variable {server : Server} (hserver : ∀ n, server.answers n = none)

include hserver

theorem writeDown_good (i : RwInterceptor) (b : Bytes) :
    writeDown server i b = ((b.length, none), { i with
      w := { i.w with writes := i.w.writes ++ [(b, i.tx.isInterrupted)] } }) := by
  unfold writeDown
  rw [hserver]

theorem writeBuffered_good {i : RwInterceptor} (h : i.wroteBufferedBodyToDownstream = false) :
    ∃ l : List (Bytes × Bool), l.flatMap Prod.fst = i.tx.responseBodyBuffer.content ∧
      i.writeBufferedResponseBodyToDownstream server = (none, { i.flushWriteHeader with
        w := { i.flushWriteHeader.w with writes := i.flushWriteHeader.w.writes ++ l }
        wroteBufferedBodyToDownstream := true }) := by
  have hsize : 0 < Io.copySize := by decide
  unfold writeBufferedResponseBodyToDownstream
  rw [if_neg (by rw [h]; exact Bool.false_ne_true)]
  dsimp only
  generalize hbody : i.flushWriteHeader.tx.responseBodyBuffer = body
  rw [flushWriteHeader_tx] at hbody
  rw [hbody]
  generalize i.flushWriteHeader = i₀
  -- every round of the copy adds one write
  have hwrite : ∀ acc i' b, b ≠ [] → (∃ l : List (Bytes × Bool), l.flatMap Prod.fst = acc ∧
        i' = { i₀ with w := { i₀.w with writes := i₀.w.writes ++ l } }) →
      False ∨ (writeDown server i' b).1 = (b.length, none) ∧
        ∃ l : List (Bytes × Bool), l.flatMap Prod.fst = acc ++ b ∧
          (writeDown server i' b).2
            = { i₀ with w := { i₀.w with writes := i₀.w.writes ++ l } } := by
    rintro acc _ b hb ⟨l, rfl, rfl⟩
    rw [writeDown_good hserver]
    refine .inr ⟨rfl, l ++ [(b, i₀.tx.isInterrupted)], ?_, ?_⟩
    · rw [flatMap_append]
      simp
    · rw [append_assoc]
  have hfuel : body.content.length + 1 - 0 < body.content.length + 2 := by omega
  have hstart : ∃ l : List (Bytes × Bool), l.flatMap Prod.fst = [] ∧
      i₀ = { i₀ with w := { i₀.w with writes := i₀.w.writes ++ l } } :=
    ⟨[], rfl, by rw [append_nil]⟩
  have hcopied := ((body.reads hsize).copy_all (Q := fun _ => False) (fun _ _ hQ => hQ) hwrite
    hfuel 0 hstart).resolve_left id
  obtain ⟨l, hl, hstate⟩ := hcopied.taken
  have hnone : (Io.copyBuffer (BodyBuffer.read body) (writeDown server) Io.copySize
      (body.content.length + 2) 0 i₀ 0).1.2 = none :=
    Option.eq_none_iff_forall_ne_some.mpr
      (fun err herr => (hcopied.error err herr).2 (hcopied.error err herr).1)
  refine ⟨l, hl, ?_⟩
  unfold Io.copy
  rw [hstate, hnone]

end

/-- The settings of the response body when its header is written: the limit is positive and
not above that of the WAF, and the body processor exists. -/
structure Settled (waf : WAF) (tx : Transaction) : Prop where
  positive : 0 < tx.responseBodyLimit
  limit : tx.responseBodyLimit ≤ waf.responseBodyLimit
  processor : responseProcessorError waf tx.vars = none

/-- They are in order if the header is written now with the status code, and the rules for the
headers are evaluated then. -/
def Settles (waf : WAF) (ev : Evaluator) (i : RwInterceptor) (statusCode : Int) : Prop :=
  i.wroteHeader = false → (i.headersTx ev statusCode).lastPhase = phaseResponseHeaders →
    Settled waf (i.headersTx ev statusCode)

/-- **Where the bytes `out` of the handler are.** -/
inductive Inv (waf : WAF) (out : Bytes) (i : RwInterceptor) : Prop where
  /-- There was no header and no byte. -/
  | start (hheader : i.wroteHeader = false) (hhijack : i.isHijacked = false)
      (hreleased : i.wroteBufferedBodyToDownstream = false)
      (hphase : i.tx.lastPhase < phaseResponseHeaders)
      (hbuffer : i.tx.responseBodyBuffer = .new ⟨waf.responseBodyLimit, waf.responseBodyLimit⟩)
      (hsent : i.sent = []) (hout : out = [])
  /-- They are in the buffer. -/
  | buffering (hheader : i.wroteHeader = true) (hhijack : i.isHijacked = false)
      (hbuffers : i.buffers waf = true) (hready : Ready waf i.tx) (hsent : i.sent = [])
      (hout : i.tx.responseBodyBuffer.content = out)
  /-- They were sent, and so will be the following ones. -/
  | passing (hheader : i.wroteHeader = true) (hhijack : i.isHijacked = false)
      (hbuffers : i.buffers waf = false) (hout : i.sent = out)

section

variable {waf : WAF} {ev : Evaluator} (hev : KeepsResponse ev)

include hev

/-- The transaction when the header is written for the first time. -/
theorem headersTx_cases {i : RwInterceptor} (hphase : i.tx.lastPhase < phaseResponseHeaders)
    (statusCode : Int) :
    (i.headersTx ev statusCode).isInterrupted = true ∨
      (i.headersTx ev statusCode).responseBodyBuffer = i.tx.responseBodyBuffer ∧
      ((i.headersTx ev statusCode).isRuleEngineOff = true ∨
        (i.headersTx ev statusCode).lastPhase = phaseResponseHeaders) := by
  unfold headersTx processResponseHeaders
  split
  · rename_i hoff
    exact .inr ⟨rfl, .inl hoff⟩
  split
  · rename_i hlast
    exact absurd hphase (Nat.not_lt.mpr hlast)
  split
  · rename_i hint
    exact .inl hint
  · exact .inr ⟨hev.buffer .., .inr (ev.lastPhase_eval ..)⟩

/-- `WriteHeader` decides where the bytes will be. -/
theorem writeHeader_inv {out : Bytes} {i : RwInterceptor} (h : Inv waf out i) (statusCode : Int)
    (hsettled : i.Settles waf ev statusCode) :
    (i.writeHeader waf ev statusCode).tx.isInterrupted = true ∨
      Inv waf out (i.writeHeader waf ev statusCode) ∧
        (i.writeHeader waf ev statusCode).wroteHeader = true := by
  have hagain : i.wroteHeader = true → i.writeHeader waf ev statusCode = i := by
    intro hheader
    unfold writeHeader
    rw [if_pos hheader]
  cases h with
  | buffering hheader hhijack hbuffers hready hsent hout =>
    rw [hagain hheader]
    exact .inr ⟨.buffering hheader hhijack hbuffers hready hsent hout, hheader⟩
  | passing hheader hhijack hbuffers hout =>
    rw [hagain hheader]
    exact .inr ⟨.passing hheader hhijack hbuffers hout, hheader⟩
  | start hheader hhijack hreleased hphase hbuffer hsent hout =>
    obtain ⟨hwrites, htx, hdone, -, hhijack'⟩ := writeHeader_first waf ev statusCode hheader
    rw [hhijack] at hhijack'
    have hsent' : (i.writeHeader waf ev statusCode).sent = [] := by
      unfold sent
      rw [hwrites]
      exact hsent
    have hsettled := hsettled hheader
    have hcases := headersTx_cases hev hphase statusCode
    rw [← htx] at hsettled hcases
    generalize i.writeHeader waf ev statusCode = i' at hdone hhijack' hsent' hsettled hcases ⊢
    refine hcases.imp id (fun ⟨hbuffer', hoff⟩ => ⟨?_, hdone⟩)
    rw [hbuffer] at hbuffer'
    cases hbuffers : i'.buffers waf with
    | false => exact .passing hdone hhijack' hbuffers (hsent'.trans hout.symm)
    | true =>
      refine .buffering hdone hhijack' hbuffers ⟨?_, ?_, ?_, ?_⟩ hsent' ?_
      · rw [hbuffer']
        exact BodyBuffer.wellFormed_new _
      · rw [hbuffer']
        rfl
      · refine hoff.imp id (fun hlast => ⟨?_, (hsettled hlast).limit⟩)
        rw [hbuffer']
        exact Int.le_of_lt (hsettled hlast).positive
      · exact fun hlast => (hsettled hlast).processor
      · rw [hbuffer', hout]
        rfl

theorem ensureHeader_inv {out : Bytes} {i : RwInterceptor} (h : Inv waf out i)
    (hsettled : i.Settles waf ev 200) :
    (i.ensureHeader waf ev).tx.isInterrupted = true ∨
      Inv waf out (i.ensureHeader waf ev) ∧ (i.ensureHeader waf ev).wroteHeader = true := by
  unfold ensureHeader
  split
  · rename_i hheader
    exact .inr ⟨h, hheader⟩
  · exact writeHeader_inv hev h 200 hsettled

end

theorem writeBody_interrupted (server : Server) (waf : WAF) (ev : Evaluator) {i : RwInterceptor}
    (hint : i.tx.isInterrupted = true) (b : Bytes) :
    (i.writeBody server waf ev b).2.tx.isInterrupted = true := by
  rw [(writeBody_state server waf ev b i).2.2]
  split
  · have hcall : ((Call.writeResponseBody b).run waf ev i.tx).isInterrupted = true :=
      Call.run_isInterrupted rfl hint
    exact hcall
  · exact hint

section

variable {server : Server} (hserver : ∀ n, server.answers n = none) {waf : WAF}
  (hint64 : waf.responseBodyLimit ≤ maxInt64) {ev : Evaluator} (hev : KeepsResponse ev)

variable {out : Bytes} {i : RwInterceptor}

include hserver in
theorem writeBody_passing (hheader : i.wroteHeader = true) (hhijack : i.isHijacked = false)
    (hbuffers : i.buffers waf = false) (hout : i.sent = out) (b : Bytes) :
    (i.writeBody server waf ev b).1 = some (b.length, none) ∧
      Inv waf (out ++ b) (i.writeBody server waf ev b).2 := by
  have heq : i.writeBody server waf ev b = (some (b.length, none), { i.flushWriteHeader with
      w := { i.flushWriteHeader.w with
        writes := i.flushWriteHeader.w.writes
          ++ [(b, i.flushWriteHeader.tx.isInterrupted)] } }) := by
    unfold writeBody
    rw [if_neg (by rw [hbuffers]; exact Bool.false_ne_true), writeDown_good hserver]
  rw [heq]
  refine ⟨rfl, .passing (by simpa using hheader) (by simpa using hhijack) ?_ ?_⟩
  · unfold buffers at hbuffers ⊢
    simpa using hbuffers
  · unfold sent at hout ⊢
    simp [← hout]

include hserver hint64 hev

/-- **A write keeps the invariant**, unless it interrupts. -/
theorem writeBody_inv (h : Inv waf out i) (hheader : i.wroteHeader = true) (b : Bytes) :
    (i.writeBody server waf ev b).2.tx.isInterrupted = true ∨
      (i.writeBody server waf ev b).1 = some (b.length, none) ∧
        Inv waf (out ++ b) (i.writeBody server waf ev b).2 := by
  cases h with
  | start hno => rw [hheader] at hno; cases hno
  | passing _ hhijack hbuffers hout =>
    exact .inr (writeBody_passing hserver hheader hhijack hbuffers hout b)
  | buffering _ hhijack hbuffers hready hsent hout =>
    obtain ⟨haccess, hprocessable, hreleased⟩ := buffers_eq_true.mp hbuffers
    have htx := (writeBody_state server waf ev b i).2.2
    rw [if_pos hbuffers] at htx
    rw [htx]
    rcases writeResponseBody_took hev hint64 hready b with hint | ⟨n, hres, htook⟩
    · exact .inl hint
    right
    unfold writeBody
    rw [if_pos hbuffers]
    generalize writeResponseBody waf ev b i.tx = o at hres htook ⊢
    obtain ⟨res, tx⟩ := o
    obtain rfl : res = some (none, (n : Int), none) := hres
    have happ : tx.responseBodyBuffer.content = out ++ b.take n := by
      rw [htook.appended.content, hout]
    dsimp only at htook ⊢
    by_cases hn : (n : Int) = b.length
    · rw [if_pos (.inr hn)]
      have hn : n = b.length := Int.ofNat.inj hn
      subst hn
      refine ⟨rfl, .buffering hheader hhijack ?_ htook.ready hsent ?_⟩
      · exact buffers_eq_true.mpr ⟨htook.settings.access.trans haccess,
          htook.settings.processable.trans hprocessable, hreleased⟩
      · rw [happ, take_length]
    · rw [if_neg (by simpa using hn)]
      obtain ⟨l, hl, hrelease⟩ := writeBuffered_good hserver (i := { i with tx }) hreleased
      rw [hrelease]
      dsimp only
      rw [writeDown_good hserver, Int.toNat_natCast, length_drop, Nat.add_sub_of_le htook.le]
      refine ⟨rfl, .passing (by simpa using hheader) (by simpa using hhijack) ?_ ?_⟩
      · unfold buffers
        simp
      · have hl : l.flatMap Prod.fst = out ++ b.take n := hl.trans happ
        unfold sent at hsent ⊢
        simp [hsent, hl]

theorem write_inv (h : Inv waf out i) (hsettled : i.Settles waf ev 200) (b : Bytes) :
    (i.write server waf ev b).2.tx.isInterrupted = true ∨
      (i.write server waf ev b).1 = some (b.length, none) ∧
        Inv waf (out ++ b) (i.write server waf ev b).2 := by
  unfold write
  split
  · rename_i hint
    exact .inl hint
  · rcases ensureHeader_inv hev h hsettled with hint | ⟨hinv, hheader⟩
    · exact .inl (writeBody_interrupted server waf ev hint b)
    · exact writeBody_inv hserver hint64 hev hinv hheader b

theorem readFrom_inv (h : Inv waf out i) {r : Io.Stream}
    (hsettled : r.content ≠ [] → i.Settles waf ev 200) :
    (i.readFrom server waf ev r).2.tx.isInterrupted = true ∨
      Inv waf (out ++ r.content) (i.readFrom server waf ev r).2 := by
  by_cases hnil : r.content = []
  · rw [readFrom_nil server waf ev hnil, hnil, append_nil]
    exact .inr h
  have hsize : 0 < Io.copySize := by decide
  have hstuck : ∀ (i' : RwInterceptor) b, i'.tx.isInterrupted = true →
      (writeFn server waf ev i' b).2.tx.isInterrupted = true := by
    intro i' b hint
    rw [writeFn_state]
    unfold write
    rw [if_pos hint]
    exact hint
  -- after the first write there is a header
  have hwrite : ∀ acc (i' : RwInterceptor) b, b ≠ [] → (Inv waf (out ++ acc) i' ∧
        i'.Settles waf ev 200) →
      (writeFn server waf ev i' b).2.tx.isInterrupted = true ∨
        (writeFn server waf ev i' b).1 = (b.length, none) ∧
        Inv waf (out ++ (acc ++ b)) (writeFn server waf ev i' b).2 ∧
          (writeFn server waf ev i' b).2.Settles waf ev 200 := by
    rintro acc i' b hb ⟨hinv, hset⟩
    rw [writeFn_state]
    refine (write_inv hserver hint64 hev hinv hset b).imp id (fun ⟨hres, hinv'⟩ => ?_)
    rw [append_assoc] at hinv'
    refine ⟨?_, hinv', fun hno => ?_⟩
    · unfold writeFn
      generalize i'.write server waf ev b = o at hres ⊢
      obtain ⟨res, i''⟩ := o
      obtain rfl : res = some (b.length, none) := hres
      rfl
    · cases hinv' with
      | start _ _ _ _ _ _ hout => simp [hb] at hout
      | buffering hheader => rw [hheader] at hno; cases hno
      | passing hheader => rw [hheader] at hno; cases hno
  have hcopied := (Io.Stream.reads hsize).copy_all hstuck hwrite (Nat.lt_succ_self r.weight) 0
    ⟨by rwa [append_nil], hsettled hnil⟩
  exact hcopied.imp id (fun hcopied => hcopied.taken.1)

end

end RwInterceptor

/-! ### Handlers -/

def HandlerCall.bytes : HandlerCall → Bytes
  | .write b => b
  | .readFrom r => r.content
  | _ => []

def HandlerCall.headerCode : HandlerCall → Option Int
  | .writeHeader statusCode => some statusCode
  | .write _ => some 200
  | .readFrom r => if r.content = [] then none else some 200
  | .flush => some 200
  | _ => none

section

variable (server : Server) (waf : WAF) (ev : Evaluator)

/-- The settings of the response body are in order when the header is written, if the rules
for the headers are evaluated then. -/
def SettledRun : List HandlerCall → RwInterceptor → Prop
  | [], _ => True
  | call :: calls, i =>
    (i.wroteHeader = false → ∀ statusCode, call.headerCode = some statusCode →
      (i.headersTx ev statusCode).lastPhase = phaseResponseHeaders →
      RwInterceptor.Settled waf (i.headersTx ev statusCode)) ∧
    SettledRun calls (call.run server waf ev i)

variable {i : RwInterceptor}

theorem writeHeader_interrupted (statusCode : Int) (hint : i.tx.isInterrupted = true) :
    (i.writeHeader waf ev statusCode).tx.isInterrupted = true := by
  cases hheader : i.wroteHeader with
  | true =>
    unfold writeHeader
    rw [if_pos hheader]
    exact hint
  | false =>
    rw [(i.writeHeader_first waf ev statusCode hheader).2.1]
    have hcall : ((Call.processResponseHeaders statusCode i.proto).run waf ev
        (i.tx.modifyVariables (addResponseHeaders i.w.header))).isInterrupted = true :=
      Call.run_isInterrupted rfl hint
    exact hcall

theorem ensureHeader_interrupted (hint : i.tx.isInterrupted = true) :
    (i.ensureHeader waf ev).tx.isInterrupted = true := by
  unfold ensureHeader
  split
  · exact hint
  · exact writeHeader_interrupted waf ev 200 hint

theorem flush_tx (i : RwInterceptor) : (i.flush server waf ev).tx = (i.ensureHeader waf ev).tx := by
  unfold flush
  dsimp only
  split <;> rfl

theorem write_interrupted (hint : i.tx.isInterrupted = true) (b : Bytes) :
    i.write server waf ev b = (some (b.length, none), i) := by
  unfold write
  rw [if_pos hint]

theorem run_interrupted (hint : i.tx.isInterrupted = true) (call : HandlerCall) :
    (call.run server waf ev i).tx.isInterrupted = true := by
  cases call with
  | header h => exact hint
  | writeHeader statusCode => exact writeHeader_interrupted waf ev statusCode hint
  | write b =>
    show (i.write server waf ev b).2.tx.isInterrupted = true
    rw [write_interrupted server waf ev hint]
    exact hint
  | readFrom r =>
    show (i.readFrom server waf ev r).2.tx.isInterrupted = true
    rw [readFrom_state]
    refine Io.copyBuffer_invariant _ _ (P := fun _ i' _ => i'.tx.isInterrupted = true)
      (fun _ _ _ h _ => h) ?_ _ r i 0 hint
    intro src i' n hint' _
    rw [writeFn_state, write_interrupted server waf ev hint']
    exact hint'
  | flush =>
    show (i.flush server waf ev).tx.isInterrupted = true
    rw [flush_tx]
    exact ensureHeader_interrupted waf ev hint
  | hijack refused =>
    show (i.hijack refused).tx.isInterrupted = true
    unfold hijack
    split <;> exact hint

theorem runHandler_interrupted (calls : List HandlerCall) (hint : i.tx.isInterrupted = true) :
    (runHandler server waf ev calls i).tx.isInterrupted = true :=
  List.foldlRecOn (motive := fun i : RwInterceptor => i.tx.isInterrupted = true) calls _ hint
    (fun _ hint call _ => run_interrupted server waf ev hint call)

end

section

variable {server : Server} (hserver : ∀ n, server.answers n = none) {waf : WAF}
  (hint64 : waf.responseBodyLimit ≤ maxInt64) {ev : Evaluator} (hev : KeepsResponse ev)

variable {i : RwInterceptor} {out : Bytes}

theorem inv_of_sent {i' : RwInterceptor} (h : i.Inv waf out) (htx : i'.tx = i.tx)
    (hheader : i'.wroteHeader = i.wroteHeader) (hhijack : i'.isHijacked = i.isHijacked)
    (hreleased : i'.wroteBufferedBodyToDownstream = i.wroteBufferedBodyToDownstream)
    (hsent : i'.sent = i.sent) : i'.Inv waf out := by
  have hbuffers : i'.buffers waf = i.buffers waf := by
    unfold buffers
    rw [htx, hreleased]
  cases h with
  | start h₁ h₂ h₃ h₄ h₅ h₆ h₇ =>
    exact .start (hheader.trans h₁) (hhijack.trans h₂) (hreleased.trans h₃) (htx ▸ h₄)
      (htx ▸ h₅) (hsent.trans h₆) h₇
  | buffering h₁ h₂ h₃ h₄ h₅ h₆ =>
    exact .buffering (hheader.trans h₁) (hhijack.trans h₂) (hbuffers.trans h₃) (htx ▸ h₄)
      (hsent.trans h₅) (htx ▸ h₆)
  | passing h₁ h₂ h₃ h₄ =>
    exact .passing (hheader.trans h₁) (hhijack.trans h₂) (hbuffers.trans h₃) (hsent.trans h₄)

include hserver hint64 hev

/-- **A call of the handler keeps the invariant**, unless it interrupts. -/
theorem run_inv (h : i.Inv waf out) {call : HandlerCall} (hcall : call ≠ .hijack false)
    (hsettled : i.wroteHeader = false → ∀ statusCode, call.headerCode = some statusCode →
      (i.headersTx ev statusCode).lastPhase = phaseResponseHeaders →
      RwInterceptor.Settled waf (i.headersTx ev statusCode)) :
    (call.run server waf ev i).tx.isInterrupted = true ∨
      (call.run server waf ev i).Inv waf (out ++ call.bytes) := by
  have hnil : out ++ [] = out := append_nil out
  cases call with
  | header header => exact .inr (hnil.symm ▸ inv_of_sent h rfl rfl rfl rfl rfl)
  | writeHeader statusCode =>
    refine (writeHeader_inv hev h statusCode (fun hno => hsettled hno _ rfl)).imp id
      (fun hinv => ?_)
    exact hnil.symm ▸ hinv.1
  | write b =>
    exact (write_inv hserver hint64 hev h (fun hno => hsettled hno 200 rfl) b).imp id And.right
  | readFrom r =>
    refine readFrom_inv hserver hint64 hev h (fun hne hno => hsettled hno 200 ?_)
    exact if_neg hne
  | flush =>
    refine (ensureHeader_inv hev h (fun hno => hsettled hno 200 rfl)).imp
      (fun hint => (flush_tx server waf ev i).symm ▸ hint) (fun hinv => ?_)
    have hinv' : (i.ensureHeader waf ev).Inv waf (out ++ HandlerCall.flush.bytes) :=
      hnil.symm ▸ hinv.1
    show (i.flush server waf ev).Inv waf _
    unfold flush
    dsimp only
    split
    · exact inv_of_sent hinv' rfl rfl rfl rfl rfl
    · exact hinv'
  | hijack refused =>
    cases refused with
    | true => exact .inr (hnil.symm ▸ h)
    | false => exact absurd rfl hcall

theorem runHandler_inv : ∀ (calls : List HandlerCall) {out : Bytes} {i : RwInterceptor},
    i.Inv waf out → (∀ call ∈ calls, call ≠ .hijack false) → SettledRun server waf ev calls i →
    (runHandler server waf ev calls i).tx.isInterrupted = true ∨
      (runHandler server waf ev calls i).Inv waf (out ++ calls.flatMap HandlerCall.bytes) := by
  intro calls
  induction calls with
  | nil => exact fun {out i} h _ _ => .inr ((append_nil out).symm ▸ h)
  | cons call calls ih =>
    intro out i h hcalls hsettled
    rcases run_inv hserver hint64 hev h (hcalls call (mem_cons_self ..)) hsettled.1
      with hint | hinv
    · exact .inl (runHandler_interrupted server waf ev calls hint)
    · rw [flatMap_cons, ← append_assoc]
      exact ih hinv (fun c hc => hcalls c (mem_cons_of_mem _ hc)) hsettled.2

omit hint64 hev in
theorem writeBuffered_sent (hsent : i.sent = [])
    (hreleased : i.wroteBufferedBodyToDownstream = false) :
    (i.writeBufferedResponseBodyToDownstream server).2.sent = i.tx.responseBodyBuffer.content := by
  obtain ⟨l, hl, heq⟩ := writeBuffered_good hserver hreleased
  rw [heq, ← hl]
  unfold sent at hsent ⊢
  simp [hsent]

omit hint64 in
/-- The response processor sends what is still in the buffer. -/
theorem responseProcessor_sent (h : i.Inv waf out) :
    (i.responseProcessor server waf ev).2.tx.isInterrupted = true ∨
      (i.responseProcessor server waf ev).2.sent = out := by
  have hhijack : ¬ i.isHijacked = true := by
    cases h <;> simp_all
  unfold responseProcessor
  rw [if_neg hhijack]
  split
  · rename_i hint
    exact .inl hint
  rename_i hint
  split
  · rename_i hbuffers
    obtain ⟨-, -, hreleased⟩ := buffers_eq_true.mp hbuffers
    cases h with
    | passing _ _ hno => rw [hbuffers] at hno; cases hno
    | start hheader _ _ hphase hbuffer hsent hout =>
      have hidle : processResponseBody waf ev i.tx = ((none, none), i.tx) := by
        unfold processResponseBody
        rw [if_neg hint, if_pos (Nat.ne_of_lt hphase)]
        exact ite_self _
      rw [hidle]
      right
      rw [writeBuffered_sent hserver hsent hreleased, hbuffer, hout]
      rfl
    | buffering hheader _ _ hready hsent hout =>
      obtain ⟨herr, -, hbody, -⟩ := processResponseBody_spec hev hready.processor
      have hit := processResponseBody_interruption waf ev
        (Transaction.isInterrupted_eq_false.mp (Bool.not_eq_true _ ▸ hint))
      generalize processResponseBody waf ev i.tx = o at herr hbody hit ⊢
      obtain ⟨⟨it, err⟩, tx⟩ := o
      subst herr
      cases it with
      | some it =>
        left
        rw [block_tx]
        exact Option.isSome_of_eq_some hit.symm
      | none =>
        right
        rw [← hout, ← hbody]
        exact writeBuffered_sent hserver (i := { i with tx }) hsent hreleased
  · rename_i hbuffers
    right
    have hsent : ({ i with allowFlushing := true } : RwInterceptor).flushWriteHeader.sent
      = i.sent := by
      unfold sent
      rw [flushWriteHeader_writes]
    rw [hsent]
    cases h with
    | start _ _ _ _ _ hsent hout => exact hsent.trans hout.symm
    | buffering _ _ hyes => exact absurd hyes hbuffers
    | passing _ _ _ hout => exact hout

end

theorem settledRun_append {server : Server} {waf : WAF} {ev : Evaluator} :
    ∀ {pre post : List HandlerCall} {i : RwInterceptor},
      SettledRun server waf ev (pre ++ post) i →
      SettledRun server waf ev pre i ∧
        SettledRun server waf ev post (runHandler server waf ev pre i) := by
  intro pre
  induction pre with
  | nil => exact fun h => ⟨trivial, h⟩
  | cons call pre ih => exact fun h => ⟨⟨h.1, (ih h.2).1⟩, (ih h.2).2⟩

/-- An interruption during the handler is still there at the end. -/
theorem runHandler_of_serve {server : Server} {waf : WAF} {ev : Evaluator} {i : RwInterceptor}
    {calls pre post : List HandlerCall} (h : calls = pre ++ post)
    (hint : (serve server waf ev calls i).tx.isInterrupted = false) :
    ¬(runHandler server waf ev pre i).tx.isInterrupted = true := by
  subst h
  intro hpre
  have hend : (runHandler server waf ev (pre ++ post) i).tx.isInterrupted = true := by
    unfold runHandler at hpre ⊢
    rw [foldl_append]
    exact runHandler_interrupted server waf ev post hpre
  have hserve : serve server waf ev (pre ++ post) i
    = runHandler server waf ev (pre ++ post) i := by
    unfold serve responseProcessor
    rw [if_pos hend]
    exact congrArg Prod.snd (ite_self _)
  rw [hserve, hend] at hint
  cases hint

theorem inv_wrap {waf : WAF} {w : ResponseWriter} (hw : w.writes = []) (proto : Bytes)
    {tx : Transaction} (hphase : tx.lastPhase < phaseResponseHeaders)
    (hbuffer : tx.responseBodyBuffer = .new ⟨waf.responseBodyLimit, waf.responseBodyLimit⟩) :
    (wrap w proto tx).Inv waf [] := by
  refine .start rfl rfl rfl hphase hbuffer ?_ rfl
  unfold sent
  rw [show (wrap w proto tx).w.writes = [] from hw]
  rfl

/-- The bytes of the handler are sent. -/
theorem serve_sent {server : Server} (hserver : ∀ n, server.answers n = none) {waf : WAF}
    (hint64 : waf.responseBodyLimit ≤ maxInt64) {ev : Evaluator} (hev : KeepsResponse ev)
    {i : RwInterceptor} (h : i.Inv waf []) {calls : List HandlerCall}
    (hcalls : ∀ call ∈ calls, call ≠ .hijack false) (hsettled : SettledRun server waf ev calls i)
    (hint : (serve server waf ev calls i).tx.isInterrupted = false) :
    (serve server waf ev calls i).sent = calls.flatMap HandlerCall.bytes := by
  have hinv := (runHandler_inv hserver hint64 hev calls h hcalls hsettled).resolve_left
    (runHandler_of_serve (append_nil _).symm hint)
  refine (responseProcessor_sent hserver hev hinv).resolve_left ?_
  show ¬(serve server waf ev calls i).tx.isInterrupted = true
  rw [hint]
  exact Bool.false_ne_true

/-- **A response that is not blocked arrives unchanged**, and no call of `Write` notices the
interceptor. -/
theorem response_transparent {server : Server} (hserver : ∀ n, server.answers n = none)
    {waf : WAF} (hint64 : waf.responseBodyLimit ≤ maxInt64) {rg : RuleGroup}
    (hforce : ∀ r ∈ rg.phaseRules phaseResponseBody, ∀ value,
      .ctl (.forceResponseBodyVariable (some value)) ∉ r.actions)
    (iteration : Nat → Iteration) {w : ResponseWriter} (hw : w.writes = []) (proto : Bytes)
    {tx : Transaction} (hphase : tx.lastPhase < phaseResponseHeaders)
    (hbuffer : tx.responseBodyBuffer = .new ⟨waf.responseBodyLimit, waf.responseBodyLimit⟩)
    {calls : List HandlerCall} (hcalls : ∀ call ∈ calls, call ≠ .hijack false)
    (hsettled : SettledRun server waf (rg.evaluator iteration) calls (wrap w proto tx))
    (hint : (serve server waf (rg.evaluator iteration) calls (wrap w proto tx)).tx.isInterrupted
      = false) :
    (serve server waf (rg.evaluator iteration) calls (wrap w proto tx)).sent
        = calls.flatMap HandlerCall.bytes ∧
      ∀ pre b post, calls = pre ++ .write b :: post →
        ((runHandler server waf (rg.evaluator iteration) pre (wrap w proto tx)).write server waf
          (rg.evaluator iteration) b).1 = some (b.length, none) := by
  have hev : KeepsResponse (rg.evaluator iteration) := keepsResponse_evaluator hforce iteration
  generalize rg.evaluator iteration = ev at hsettled hint hev ⊢
  have hstart : (wrap w proto tx).Inv waf [] := inv_wrap hw proto hphase hbuffer
  generalize wrap w proto tx = i₀ at hsettled hint hstart ⊢
  refine ⟨serve_sent hserver hint64 hev hstart hcalls hsettled hint, ?_⟩
  rintro pre b post rfl
  obtain ⟨hpre, hpost⟩ := settledRun_append hsettled
  have hinv := (runHandler_inv hserver hint64 hev pre hstart
    (fun c hc => hcalls c (mem_append_left _ hc)) hpre).resolve_left (runHandler_of_serve rfl hint)
  refine ((write_inv hserver hint64 hev hinv
    (fun hno => hpost.1 hno 200 rfl) b).resolve_left ?_).1
  have hsplit : pre ++ .write b :: post = (pre ++ [.write b]) ++ post := by simp
  have hnext := runHandler_of_serve hsplit hint
  unfold runHandler at hnext ⊢
  rw [foldl_append] at hnext
  exact hnext

def pageWAF : WAF :=
  { WAF.new (fun _ => none) with
    responseBodyAccess := true
    responseBodyLimit := 4
    responseBodyMimeTypes := [bytesOf "text/html"] }

def pageCalls : List HandlerCall :=
  [.header [(bytesOf "Content-Type", [bytesOf "text/html"])], .write (bytesOf "abc"),
    .write (bytesOf "def")]

/-- The page arrives. -/
theorem response_transparent_page :
    (serve goodServer pageWAF (evaluator [] (fun _ => .stored)) pageCalls
      (wrap freshWriter (bytesOf "HTTP/1.1") (pageWAF.newTransaction .new))).sent
      = bytesOf "abcdef" := by
  have hsettled : SettledRun goodServer pageWAF (evaluator [] (fun _ => .stored))
      pageCalls (wrap freshWriter (bytesOf "HTTP/1.1") (pageWAF.newTransaction .new)) := by
    refine ⟨fun _ _ h => (nomatch h), fun _ code h _ => ?_, fun h => ?_, trivial⟩
    · cases h
      exact ⟨by decide +kernel, by decide +kernel, by decide +kernel⟩
    · exact absurd h (by decide +kernel)
  refine (response_transparent (fun _ => rfl) (by decide) (by simp [phaseRules,
    rules]) _ rfl _ (by decide) rfl (by simp [pageCalls]) hsettled
    (by decide +kernel)).1.trans ?_
  decide +kernel

end Coraza.Http
