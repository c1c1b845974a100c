import Coraza.Http.Request
import Coraza.Http.Transparency
import Coraza.Waf.Pool

/-!
# The middleware

`wrapHandler` puts a WAF in front of a handler.  It takes a transaction from the pool, hands the
request to it, runs the handler on a response writer that is wrapped, and ends with the logging
phase and `Close`, which gives the transaction back.

`handle_calls` says that whatever happens the transaction goes through calls of the programming
interface, with `ProcessLogging` as the last one.  So the transactions in the pool are those that
`Used` describes (`Pooled.used`), and every request begins with empty buffers.  A request that is
blocked does not reach the handler (`handle_blocked`), and the client of one that is not gets the
bytes that the handler sends without the middleware (`wrapHandler_transparent`).
-/

namespace Coraza.Http

open Go Collections Waf List RwInterceptor

/-! ### Without a WAF -/

/-- What a handler does that reads the body of the request first; `none` is a request without a
body. -/
abbrev Handler := Option Bytes → List HandlerCall

namespace ResponseWriter

def writeHeader (statusCode : Int) (w : ResponseWriter) : ResponseWriter :=
  { w with statuses := w.statuses ++ [statusCode] }

def write (server : Server) : Io.WriteFn ResponseWriter := fun w b =>
  let answer := server.answers w.writes.length
  let w := { w with writes := w.writes ++ [(b, false)] }
  match answer with
  | none => ((b.length, none), w)
  | some (n, err) => ((min n b.length, some err), w)

def body (w : ResponseWriter) : Bytes := w.writes.flatMap Prod.fst

end ResponseWriter

/-- A call on the response writer of the server. -/
def HandlerCall.direct (server : Server) (w : ResponseWriter) : HandlerCall → ResponseWriter
  | header h => { w with header := h }
  | writeHeader statusCode => w.writeHeader statusCode
  | write b => (w.write server b).2
  | readFrom r => (Io.copy Io.Stream.read (ResponseWriter.write server) (r.weight + 1) r w).2.2
  | flush => if server.isFlusher then { w with flushes := w.flushes + 1 } else w
  | hijack _ => w

def serveDirect (server : Server) (calls : List HandlerCall) (w : ResponseWriter) :
    ResponseWriter :=
  calls.foldl (HandlerCall.direct server) w

section

variable {server : Server} (hserver : ∀ n, server.answers n = none)

include hserver

theorem write_good (w : ResponseWriter) (b : Bytes) : w.write server b
    = ((b.length, none), { w with writes := w.writes ++ [(b, false)] }) := by
  unfold ResponseWriter.write
  rw [hserver]

theorem body_direct (w : ResponseWriter) (call : HandlerCall) :
    (call.direct server w).body = w.body ++ call.bytes := by
  have hnil : w.body = w.body ++ [] := (append_nil _).symm
  cases call with
  | header h => exact hnil
  | writeHeader statusCode => exact hnil
  | write b =>
    show (w.write server b).2.body = _
    rw [write_good hserver]
    simp [ResponseWriter.body, HandlerCall.bytes]
  | readFrom r =>
    -- the writer takes every chunk
    have hwrite : ∀ acc (w' : ResponseWriter) b, b ≠ [] → w'.body = w.body ++ acc →
        False ∨ (w'.write server b).1 = (b.length, none) ∧
          (w'.write server b).2.body = w.body ++ (acc ++ b) := by
      intro acc w' b _ hbody
      rw [write_good hserver, ← append_assoc, ← hbody]
      exact .inr ⟨rfl, by simp [ResponseWriter.body]⟩
    have hcopied := (Io.Stream.reads (show 0 < Io.copySize by decide)).copy_all
      (P := fun acc (w' : ResponseWriter) => w'.body = w.body ++ acc) (Q := fun _ => False)
      (fun _ _ h => h) hwrite (Nat.lt_succ_self r.weight) 0 hnil
    exact (hcopied.resolve_left id).taken
  | flush =>
    show (if server.isFlusher then { w with flushes := w.flushes + 1 } else w).body = _
    split <;> exact hnil
  | hijack refused => exact hnil

theorem body_serveDirect : ∀ (calls : List HandlerCall) (w : ResponseWriter),
    (serveDirect server calls w).body = w.body ++ calls.flatMap HandlerCall.bytes := by
  intro calls
  induction calls with
  | nil => exact fun w => (append_nil _).symm
  | cons call calls ih =>
    intro w
    show (serveDirect server calls (call.direct server w)).body = _
    rw [ih, body_direct hserver, flatMap_cons, append_assoc]

end

/-! ### With a WAF -/

/-- A request and its surroundings: the response writer, and what the clock, the order of maps and
the operating system have to say while it is served. -/
structure Exchange (κ : Type) where
  req : Request
  body : Option Io.Stream
  w : ResponseWriter
  server : Server
  parseRequestURI : Bytes → Except Bytes ParsedURL
  clock : Variables.Clock
  opts : Options κ
  timestamp : Int
  it : Iteration
  iteration : Nat → Iteration
  closing : CloseAnswers

section

variable {κ ε : Type} (waf : PoolWAF) (rg : RuleGroup) (h : Handler) (x : Exchange κ)

/-- The request, handed to a transaction. -/
def Exchange.processed (tx : Transaction) :
    (Option Interruption × Option Error) × Option RequestBody × Transaction :=
  processRequest waf.toWAF (rg.evaluator x.iteration)
    (requestVariables waf.toWAF x.parseRequestURI x.it x.req) x.body tx

/-- The function that `WrapHandler` returns, without its deferred part. -/
def handle (tx : Transaction) : ResponseWriter × Transaction :=
  if tx.isRuleEngineOff then
    (serveDirect x.server (h (x.body.map Io.Stream.content)) x.w, tx)
  else
    match x.processed waf rg tx with
    | ((_, some _), _, tx) => (x.w, tx)
    | ((some it, none), _, tx) =>
      (x.w.writeHeader (obtainStatusCodeFromInterruptionOrDefault it 200), tx)
    | ((none, none), body, tx) =>
      let i := serve x.server waf.toWAF (rg.evaluator x.iteration)
        (h (body.map (RequestBody.content tx.requestBodyBuffer))) (wrap x.w x.req.proto tx)
      (i.w, i.tx)

/-- The transaction that a request gets, for what the pool returns. -/
def Exchange.newTX (got : Option (PooledTransaction κ ε)) : PooledTransaction κ ε :=
  waf.newTransaction x.clock x.opts x.timestamp got

/-- The transaction when the deferred function closes it.  What rules keep in its caches is left
out. -/
def logged (got : Option (PooledTransaction κ ε)) : PooledTransaction κ ε :=
  let t := x.newTX waf got
  { t with tx := processLogging (rg.evaluator x.iteration) (handle waf rg h x t.tx).2 }

/-- `WrapHandler`: the response, and the transaction that the pool gets back.  An error of `Close`
only goes to the log. -/
def wrapHandler (waf : Option PoolWAF) (got : Option (PooledTransaction κ ε)) :
    ResponseWriter × Option (PooledTransaction κ ε) :=
  match waf with
  | none => (serveDirect x.server (h (x.body.map Io.Stream.content)) x.w, none)
  | some waf => ((handle waf rg h x (x.newTX waf got).tx).1,
      some ((logged waf rg h x got).close waf x.closing).2)

end

/-! ### What becomes of the transaction -/

def ofRequest : Call → Bool
  | .feed _ | .processRequestHeaders | .writeRequestBody _ | .readRequestBodyFrom _
  | .processRequestBody => true
  | _ => false

def ofResponse : Call → Bool
  | .feed _ | .processResponseHeaders .. | .writeResponseBody _ | .readResponseBodyFrom _
  | .processResponseBody => true
  | _ => false

/-- A transaction went through calls of some kind. -/
def Went (kind : Call → Bool) (waf : WAF) (ev : Evaluator) (tx tx' : Transaction) : Prop :=
  ∃ calls : List Call, (∀ call ∈ calls, kind call = true) ∧ tx' = runCalls waf ev calls tx

section

variable {kind : Call → Bool} {waf : WAF} {ev : Evaluator} {tx tx' tx'' : Transaction}

theorem Went.refl (tx : Transaction) : Went kind waf ev tx tx :=
  ⟨[], fun _ h => absurd h not_mem_nil, rfl⟩

theorem Went.trans (h : Went kind waf ev tx tx') (h' : Went kind waf ev tx' tx'') :
    Went kind waf ev tx tx'' := by
  obtain ⟨calls, hcalls, rfl⟩ := h
  obtain ⟨calls', hcalls', rfl⟩ := h'
  refine ⟨calls ++ calls', fun call hcall => ?_, (foldl_append ..).symm⟩
  exact (mem_append.mp hcall).elim (hcalls call) (hcalls' call)

theorem Went.call (call : Call) (h : kind call = true) (tx : Transaction) :
    Went kind waf ev tx (call.run waf ev tx) :=
  ⟨[call], forall_mem_singleton.mpr h, rfl⟩

variable (waf ev)

theorem went_processRequest (fill : Variables → Variables) (body : Option Io.Stream)
    (tx : Transaction) : Went ofRequest waf ev tx (processRequest waf ev fill body tx).2.2 := by
  have hheaders : Went ofRequest waf ev tx (processRequestHeaders ev (tx.modifyVariables fill)).2 :=
    (Went.call (.feed fill) rfl tx).trans (.call .processRequestHeaders rfl _)
  have hfinish : ∀ tx' body, Went ofRequest waf ev tx tx' →
      Went ofRequest waf ev tx (finishRequest waf ev body tx').2.2 :=
    fun tx' _ h => h.trans (.call .processRequestBody rfl tx')
  have hread : ∀ tx' r, Went ofRequest waf ev tx tx' →
      Went ofRequest waf ev tx (readRequestBodyFrom waf ev r tx').2.2 :=
    fun tx' r h => h.trans (.call (.readRequestBodyFrom r) rfl tx')
  unfold processRequest
  generalize processRequestHeaders ev (tx.modifyVariables fill) = out at hheaders ⊢
  obtain ⟨_ | it, tx₁⟩ := out
  · cases haccess : tx₁.requestBodyAccess with
    | false =>
      dsimp only
      rw [haccess]
      exact hfinish tx₁ _ hheaders
    | true =>
      cases body with
      | none =>
        dsimp only
        rw [haccess]
        exact hfinish tx₁ _ hheaders
      | some r =>
        have hr := hread tx₁ r hheaders
        dsimp only
        rw [haccess]
        dsimp only
        generalize readRequestBodyFrom waf ev r tx₁ = out at hr ⊢
        obtain ⟨⟨_ | it, n, _ | err⟩, r', tx₂⟩ := out
        · exact hfinish tx₂ _ hr
        · exact hr
        · exact hr
        · exact hr
  · exact hheaders

theorem went_writeHeader (statusCode : Int) (i : RwInterceptor) :
    Went ofResponse waf ev i.tx (i.writeHeader waf ev statusCode).tx := by
  cases h : i.wroteHeader with
  | true =>
    unfold writeHeader
    rw [if_pos h]
    exact .refl _
  | false =>
    rw [(writeHeader_first waf ev statusCode h).2.1]
    exact (Went.call (.feed (addResponseHeaders i.w.header)) rfl i.tx).trans
      (.call (.processResponseHeaders statusCode i.proto) rfl _)

theorem went_ensureHeader (i : RwInterceptor) :
    Went ofResponse waf ev i.tx (i.ensureHeader waf ev).tx := by
  unfold ensureHeader
  split
  · exact .refl _
  · exact went_writeHeader waf ev 200 i

variable (server : Server)

theorem went_write (b : Bytes) (i : RwInterceptor) :
    Went ofResponse waf ev i.tx (i.write server waf ev b).2.tx := by
  unfold RwInterceptor.write
  split
  · exact .refl _
  · refine (went_ensureHeader waf ev i).trans ?_
    rw [(writeBody_state server waf ev b _).2.2]
    split
    · exact .call (.writeResponseBody b) rfl _
    · exact .refl _

/-- A call of the handler. -/
theorem went_run (i : RwInterceptor) (call : HandlerCall) :
    Went ofResponse waf ev i.tx (call.run server waf ev i).tx := by
  cases call with
  | header h => exact .refl _
  | writeHeader statusCode => exact went_writeHeader waf ev statusCode i
  | write b => exact went_write waf ev server b i
  | readFrom r =>
    show Went ofResponse waf ev i.tx (i.readFrom server waf ev r).2.tx
    rw [readFrom_state]
    refine Io.copyBuffer_invariant _ _ (P := fun _ i' _ => Went ofResponse waf ev i.tx i'.tx)
      (fun _ _ _ h _ => h) ?_ _ r i 0 (.refl _)
    intro src i' n h _
    rw [writeFn_state]
    exact h.trans (went_write waf ev server _ i')
  | flush =>
    show Went ofResponse waf ev i.tx (i.flush server waf ev).tx
    rw [flush_tx]
    exact went_ensureHeader waf ev i
  | hijack refused =>
    show Went ofResponse waf ev i.tx (i.hijack refused).tx
    unfold hijack
    split <;> exact .refl _

theorem went_responseProcessor (i : RwInterceptor) :
    Went ofResponse waf ev i.tx (i.responseProcessor server waf ev).2.tx := by
  have hbody : Went ofResponse waf ev i.tx (processResponseBody waf ev i.tx).2 :=
    .call .processResponseBody rfl _
  unfold responseProcessor
  split
  · exact .refl _
  split
  · exact .refl _
  split
  · generalize processResponseBody waf ev i.tx = out at hbody ⊢
    obtain ⟨⟨_ | it, _ | err⟩, tx⟩ := out
    · obtain ⟨l, -, -, htx, -⟩ := writeBuffered_state server { i with tx }
      dsimp only
      rw [htx]
      exact hbody
    · dsimp only [overrideWriteHeader]
      rw [flushWriteHeader_tx]
      exact hbody
    · dsimp only
      rw [block_tx]
      exact hbody
    · dsimp only [overrideWriteHeader]
      rw [flushWriteHeader_tx]
      exact hbody
  · dsimp only
    rw [flushWriteHeader_tx]
    exact .refl _

theorem went_serve (calls : List HandlerCall) (i : RwInterceptor) :
    Went ofResponse waf ev i.tx (serve server waf ev calls i).tx := by
  have hrun : Went ofResponse waf ev i.tx (runHandler server waf ev calls i).tx :=
    List.foldlRecOn (motive := fun i' : RwInterceptor => Went ofResponse waf ev i.tx i'.tx) calls _
      (.refl _) (fun i' h call _ => h.trans (went_run waf ev server i' call))
  exact hrun.trans (went_responseProcessor waf ev server _)

end

section

variable {κ ε : Type} {waf : PoolWAF} {rg : RuleGroup} (h : Handler) (x : Exchange κ)

/-- **The middleware goes through the programming interface.**  Whatever the handler does, what is
done to the transaction until it is closed are calls for the request, then calls for the response,
and then `ProcessLogging`. -/
theorem handle_calls (got : Option (PooledTransaction κ ε)) : ∃ request response : List Call,
    (∀ call ∈ request, ofRequest call = true) ∧ (∀ call ∈ response, ofResponse call = true) ∧
      (logged waf rg h x got).tx = runCalls waf.toWAF (rg.evaluator x.iteration)
        (request ++ response ++ [.processLogging]) (x.newTX waf got).tx := by
  have hhandle : ∀ tx, ∃ tx', Went ofRequest waf.toWAF (rg.evaluator x.iteration) tx tx' ∧
      Went ofResponse waf.toWAF (rg.evaluator x.iteration) tx' (handle waf rg h x tx).2 := by
    intro tx
    have hreq := went_processRequest waf.toWAF (rg.evaluator x.iteration)
      (requestVariables waf.toWAF x.parseRequestURI x.it x.req) x.body tx
    change Went _ _ _ tx (x.processed waf rg tx).2.2 at hreq
    unfold handle
    split
    · exact ⟨tx, .refl _, .refl _⟩
    generalize x.processed waf rg tx = out at hreq ⊢
    obtain ⟨⟨_ | it, _ | err⟩, body, tx'⟩ := out
    · exact ⟨tx', hreq, went_serve waf.toWAF (rg.evaluator x.iteration) x.server _ _⟩
    · exact ⟨tx', hreq, .refl _⟩
    · exact ⟨tx', hreq, .refl _⟩
    · exact ⟨tx', hreq, .refl _⟩
  obtain ⟨_, ⟨request, hrequest, rfl⟩, ⟨response, hresponse, hrun⟩⟩ :=
    hhandle (x.newTX waf got).tx
  refine ⟨request, response, hrequest, hresponse, ?_⟩
  show processLogging _ (handle waf rg h x (x.newTX waf got).tx).2 = _
  rw [hrun]
  unfold runCalls
  rw [foldl_append, foldl_append]
  rfl

/-- **A request that is blocked, or that fails, does not reach the handler.** -/
theorem handle_blocked {tx : Transaction} (hon : tx.isRuleEngineOff = false)
    (hres : (x.processed waf rg tx).1 ≠ (none, none)) :
    (handle waf rg h x tx).1.writes = x.w.writes ∧
      ∀ h', handle waf rg h' x tx = handle waf rg h x tx := by
  have hif : ¬tx.isRuleEngineOff = true := by
    rw [hon]
    exact Bool.false_ne_true
  simp only [handle, if_neg hif]
  generalize x.processed waf rg tx = out at hres ⊢
  obtain ⟨⟨_ | it, _ | err⟩, body, tx'⟩ := out
  · exact absurd rfl hres
  · exact ⟨rfl, fun _ => rfl⟩
  · exact ⟨rfl, fun _ => rfl⟩
  · exact ⟨rfl, fun _ => rfl⟩

/-! ### The pool -/

/-- What the pool may hold: the transactions of requests that were served. -/
inductive Pooled (waf : PoolWAF) (rg : RuleGroup) : PooledTransaction κ ε → Prop where
  | served (h : Handler) (x : Exchange κ) {got : Option (PooledTransaction κ ε)}
      (hgot : ∀ t, got = some t → Pooled waf rg t) :
      Pooled waf rg ((logged waf rg h x got).close waf x.closing).2

/-- **The transactions in the pool were used and closed.** -/
theorem Pooled.used {t : PooledTransaction κ ε} (ht : Pooled waf rg t) :
    ∃ t₀ answers, Used waf rg t₀ ∧ t = (t₀.close waf answers).2 := by
  induction ht with
  | @served h x got hgot ih =>
    refine ⟨logged waf rg h x got, x.closing, ?_, rfl⟩
    obtain ⟨request, response, -, -, hcalls⟩ := @handle_calls κ ε waf rg h x got
    cases got with
    | none => exact .first x.clock x.opts x.timestamp x.iteration _ hcalls
    | some t =>
      obtain ⟨t₀, answers, ht₀, rfl⟩ := ih t rfl
      exact .again ht₀ answers x.clock x.opts x.timestamp x.iteration _ hcalls

/-- A request finds the two buffers as they are made. -/
theorem newTX_buffers {got : Option (PooledTransaction κ ε)}
    (hgot : ∀ t, got = some t → Pooled waf rg t) :
    (x.newTX waf got).tx.requestBodyBuffer
        = .new ⟨waf.requestBodyInMemoryLimit.getD waf.requestBodyLimit, waf.requestBodyLimit⟩ ∧
      (x.newTX waf got).tx.responseBodyBuffer
        = .new ⟨waf.responseBodyLimit, waf.responseBodyLimit⟩ := by
  cases got with
  | none => exact ⟨rfl, rfl⟩
  | some t =>
    obtain ⟨t₀, answers, ht₀, rfl⟩ := (hgot t rfl).used
    obtain ⟨hrequest, hresponse⟩ := ht₀.hasBuffers
    rw [← hrequest, ← hresponse]
    exact ⟨rfl, rfl⟩

end

/-! ### What the client gets -/

/-- The response has not begun. -/
structure Unanswered (br : BodyBuffer) (tx : Transaction) : Prop where
  phase : tx.lastPhase < phaseResponseHeaders
  buffer : tx.responseBodyBuffer = br

section

variable {waf : WAF} {ev : Evaluator} {br : BodyBuffer} {tx : Transaction}
  (hev : ∀ phase tx, (ev.eval phase tx).responseBodyBuffer = tx.responseBodyBuffer)

include hev

theorem Unanswered.phaseCall (h : Unanswered br tx) {phase : Nat}
    (hphase : phase < phaseResponseHeaders) {guard : Prop}
    {out : Option Interruption × Transaction} (hcall : PhaseCall ev phase guard tx out) :
    Unanswered br out.2 := by
  cases hcall with
  | stopped => exact h
  | evaluated vars asked =>
    refine ⟨?_, (hev ..).trans h.buffer⟩
    show (ev.eval phase _).lastPhase < _
    rwa [ev.lastPhase_eval]

theorem Unanswered.process (h : Unanswered br tx) :
    Unanswered br (processRequestBody waf ev tx).2 :=
  h.phaseCall hev (by decide) (processRequestBody_call waf ev tx)

theorem Unanswered.bodyStep (h : Unanswered br tx) {reached : Prop} {tx' : Transaction}
    (hstep : (requestSide waf ev).BodyStep reached tx tx') : Unanswered br tx' := by
  cases hstep with
  | processed _ buffer => exact Unanswered.process hev ⟨h.phase, h.buffer⟩
  | _ => exact ⟨h.phase, h.buffer⟩

/-- A call for the request. -/
theorem Unanswered.call (h : Unanswered br tx) {call : Call} (hcall : ofRequest call = true) :
    Unanswered br (call.run waf ev tx) := by
  cases call with
  | feed f => exact ⟨h.phase, h.buffer⟩
  | processRequestHeaders => exact h.phaseCall hev (by decide) (processRequestHeaders_call ev tx)
  | writeRequestBody b =>
    exact h.bodyStep hev (BodySide.writeBody_bodyStep (BodySide.requestSide_lawful waf ev) b tx)
  | readRequestBodyFrom r =>
    exact h.bodyStep hev (BodySide.readBodyFrom_bodyStep (BodySide.requestSide_lawful waf ev) r tx)
  | processRequestBody => exact h.process hev
  | _ => cases hcall

theorem Unanswered.went (h : Unanswered br tx) {tx' : Transaction}
    (hwent : Went ofRequest waf ev tx tx') : Unanswered br tx' := by
  obtain ⟨calls, hcalls, rfl⟩ := hwent
  exact List.foldlRecOn (motive := Unanswered br) calls _ h
    (fun tx htx call hcall => htx.call hev (hcalls call hcall))

end

theorem processRequest_noBody (waf : WAF) (ev : Evaluator) (fill : Variables → Variables)
    (tx : Transaction) : (processRequest waf ev fill none tx).2.1 = none := by
  unfold processRequest
  generalize processRequestHeaders ev (tx.modifyVariables fill) = out
  obtain ⟨_ | it, tx₁⟩ := out
  · dsimp only
    split
    · rename_i hbody
      cases hbody
    · rfl
  · rfl

section

variable {κ ε : Type} {waf : PoolWAF} {rg : RuleGroup} (h : Handler) (x : Exchange κ)

/-- The handler is given the original body. -/
theorem processed_body (hfiles : ∀ n, (waf.requestFiles n).Proper) {tx : Transaction}
    {options : BodyBufferOptions} (hrequest : tx.requestBodyBuffer = .new options)
    (hpassed : (x.processed waf rg tx).1 = (none, none)) :
    (x.processed waf rg tx).2.1.map
        (RequestBody.content (x.processed waf rg tx).2.2.requestBodyBuffer)
      = x.body.map Io.Stream.content := by
  unfold Exchange.processed at hpassed ⊢
  cases hx : x.body with
  | none =>
    rw [processRequest_noBody]
    rfl
  | some r =>
    rw [hx] at hpassed
    have hwf : tx.requestBodyBuffer.WellFormed := by
      rw [hrequest]
      exact BodyBuffer.wellFormed_new _
    have hempty : tx.requestBodyBuffer.content = [] := by
      rw [hrequest]
      rfl
    obtain ⟨body, hsome, hcontent⟩ := processRequest_content
      (fun _ tx => (RuleGroup.eval_buffers tx).1) hfiles _ r hwf hempty hpassed
    rw [hsome]
    exact congrArg some hcontent

/-- What the wrapped handler does. -/
def Exchange.served (waf : PoolWAF) (rg : RuleGroup) (tx : Transaction) : RwInterceptor :=
  serve x.server waf.toWAF (rg.evaluator x.iteration) (h (x.body.map Io.Stream.content))
    (wrap x.w x.req.proto (x.processed waf rg tx).2.2)

theorem handle_passed (hfiles : ∀ n, (waf.requestFiles n).Proper) {tx : Transaction}
    {options : BodyBufferOptions} (hrequest : tx.requestBodyBuffer = .new options)
    (hon : tx.isRuleEngineOff = false) (hpassed : (x.processed waf rg tx).1 = (none, none)) :
    handle waf rg h x tx = ((x.served h waf rg tx).w, (x.served h waf rg tx).tx) := by
  unfold Exchange.served
  rw [← processed_body x hfiles hrequest hpassed]
  unfold handle
  rw [hon, if_neg Bool.false_ne_true]
  generalize x.processed waf rg tx = out at hpassed ⊢
  obtain ⟨res, body, tx⟩ := out
  obtain rfl : res = (none, none) := hpassed
  rfl

/-- **A client does not notice the middleware.**  If a request is not blocked, and neither is its
response, the client gets the bytes that the handler sends without the middleware.  The
transaction may be a new one, or one that served other requests before. -/
theorem wrapHandler_transparent
    (hserver : ∀ n, x.server.answers n = none) (hw : x.w.writes = [])
    (hfiles : ∀ n, (waf.requestFiles n).Proper) (hint64 : waf.responseBodyLimit ≤ maxInt64)
    (hforce : ∀ r ∈ rg.phaseRules phaseResponseBody, ∀ value,
      .ctl (.forceResponseBodyVariable (some value)) ∉ r.actions)
    {got : Option (PooledTransaction κ ε)} (hgot : ∀ t, got = some t → Pooled waf rg t)
    (hon : (x.newTX waf got).tx.isRuleEngineOff = false)
    (hpassed : (x.processed waf rg (x.newTX waf got).tx).1 = (none, none))
    (hcalls : ∀ call ∈ h (x.body.map Io.Stream.content), call ≠ .hijack false)
    (hsettled : SettledRun x.server waf.toWAF (rg.evaluator x.iteration)
      (h (x.body.map Io.Stream.content))
      (wrap x.w x.req.proto (x.processed waf rg (x.newTX waf got).tx).2.2))
    (hint : (handle waf rg h x (x.newTX waf got).tx).2.isInterrupted = false) :
    (wrapHandler rg h x (some waf) got).1.body
      = (wrapHandler rg h x none (none : Option (PooledTransaction κ ε))).1.body := by
  have hev : KeepsResponse (rg.evaluator x.iteration) := keepsResponse_evaluator hforce x.iteration
  obtain ⟨hrequest, hresponse⟩ := newTX_buffers x hgot
  have hopen : Unanswered (.new ⟨waf.responseBodyLimit, waf.responseBodyLimit⟩)
      (x.processed waf rg (x.newTX waf got).tx).2.2 :=
    Unanswered.went (fun _ tx => (RuleGroup.eval_buffers tx).2)
      ⟨by cases got <;> exact Nat.zero_lt_succ _, hresponse⟩
      (went_processRequest waf.toWAF (rg.evaluator x.iteration) _ x.body _)
  have hhandle := handle_passed h x hfiles hrequest hon hpassed
  rw [hhandle] at hint
  have hsent : (x.served h waf rg (x.newTX waf got).tx).sent = _ :=
    serve_sent hserver hint64 hev (inv_wrap hw x.req.proto hopen.phase hopen.buffer) hcalls
      hsettled hint
  have hdirect := body_serveDirect hserver (h (x.body.map Io.Stream.content)) x.w
  have hnone : x.w.body = [] := by
    unfold ResponseWriter.body
    rw [hw]
    rfl
  rw [hnone, nil_append] at hdirect
  show (handle waf rg h x (x.newTX waf got).tx).1.body = _
  rw [hhandle]
  exact hsent.trans hdirect.symm

end

end Coraza.Http
