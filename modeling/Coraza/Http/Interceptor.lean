import Coraza.Url
import Coraza.Waf.Processing

/-!
# The response writer of the middleware

`RwInterceptor` stands between a handler and the response writer of the server, its delegate.
It keeps the response body back while the transaction wants to see it, and passes it on when
the transaction does not care or has seen enough.  `responseProcessor` is what the middleware
runs after the handler.

The delegate is known by what was asked of it; `writes` has one more entry for every call of
its `Write`, with the bytes and whether the transaction was interrupted at that moment.  No
function reads it.
-/

namespace Coraza.Http

open Go Collections Waf

/-- `http.Header`, in the order in which a loop ranges over it. -/
abbrev Header := List (Bytes × List Bytes)

structure ResponseWriter where
  header : Header
  statuses : List Int
  writes : List (Bytes × Bool)
  flushes : Nat

/-- How the delegate behaves: where a call of `Write` stops with an error, and whether it is
a `http.Flusher`. -/
structure Server where
  answers : Nat → Option (Nat × Error)
  isFlusher : Bool

structure RwInterceptor where
  w : ResponseWriter
  tx : Transaction
  statusCode : Int
  proto : Bytes
  isWriteHeaderFlush : Bool
  wroteHeader : Bool
  wroteBufferedBodyToDownstream : Bool
  isHijacked : Bool
  allowFlushing : Bool

def wrap (w : ResponseWriter) (proto : Bytes) (tx : Transaction) : RwInterceptor :=
  ⟨w, tx, 200, proto, false, false, false, false, false⟩

def obtainStatusCodeFromInterruptionOrDefault (it : Interruption) (defaultStatusCode : Int) : Int :=
  if it.action = .deny then if it.status = 0 then 403 else it.status else defaultStatusCode

def addResponseHeader (vars : Variables) (key value : Bytes) : Variables :=
  if key = [] then vars
  else
    let vars := vars.modifyMap .responseHeaders (fun m => m.add key value)
    if Strings.toLower key = bytesOf "content-type" then
      vars.setSingle .responseContentType (Url.cut value 0x3B).1
    else vars

def addResponseHeaders (header : Header) (vars : Variables) : Variables :=
  header.foldl (fun vars e => e.2.foldl (fun vars v => addResponseHeader vars e.1 v) vars) vars

namespace RwInterceptor

section

variable (server : Server) (waf : WAF) (ev : Evaluator)

def flushWriteHeader (i : RwInterceptor) : RwInterceptor :=
  if i.isWriteHeaderFlush then i
  else { i with w := { i.w with statuses := i.w.statuses ++ [i.statusCode] }
                isWriteHeaderFlush := true }

/-- What follows an interruption: the header is emptied and the status code sent. -/
def block (it : Interruption) (i : RwInterceptor) : RwInterceptor :=
  flushWriteHeader { i with
    w := { i.w with header := [(bytesOf "Content-Length", [bytesOf "0"])] }
    statusCode := obtainStatusCodeFromInterruptionOrDefault it i.statusCode }

/-- `overrideWriteHeader` and `flushWriteHeader`. -/
def overrideWriteHeader (statusCode : Int) (i : RwInterceptor) : RwInterceptor :=
  flushWriteHeader { i with statusCode }

/-- The transaction accepts body bytes that were not passed on yet. -/
def buffers (i : RwInterceptor) : Bool :=
  i.tx.responseBodyAccess && isResponseBodyProcessable waf i.tx &&
    !i.wroteBufferedBodyToDownstream

def writeHeader (statusCode : Int) (i : RwInterceptor) : RwInterceptor :=
  if i.wroteHeader then i
  else
    let tx := i.tx.modifyVariables (addResponseHeaders i.w.header)
    let (it, tx) := processResponseHeaders ev statusCode i.proto tx
    let i := { i with wroteHeader := true, statusCode, tx }
    match it with
    | some it => i.block it
    | none =>
      let i := if statusCode = 101 then i.flushWriteHeader else i
      if i.tx.responseBodyAccess = false ∨ isResponseBodyProcessable waf i.tx = false then
        { i with allowFlushing := true }
      else i

def writeDown : Io.WriteFn RwInterceptor := fun i b =>
  let answer := server.answers i.w.writes.length
  let i := { i with w := { i.w with writes := i.w.writes ++ [(b, i.tx.isInterrupted)] } }
  match answer with
  | none => ((b.length, none), i)
  | some (n, err) => ((min n b.length, some err), i)

/-- `writeBufferedResponseBodyToDownstream`.  A body buffer always has a reader. -/
def writeBufferedResponseBodyToDownstream (i : RwInterceptor) : Option Error × RwInterceptor :=
  if i.wroteBufferedBodyToDownstream then (none, i)
  else
    let i := i.flushWriteHeader
    let body := i.tx.responseBodyBuffer
    let ((_, err), _, i) :=
      Io.copy (BodyBuffer.read body) (writeDown server) (body.content.length + 2) 0 i
    match err with
    | some err => (some (.errorf "failed to copy the response body: %v" [err.text]), i)
    | none => (none, { i with wroteBufferedBodyToDownstream := true })

/-- `i.WriteHeader(http.StatusOK)` unless there was a call of `WriteHeader`. -/
def ensureHeader (i : RwInterceptor) : RwInterceptor :=
  if i.wroteHeader then i else writeHeader waf ev 200 i

/-- The rest of `rwInterceptor.Write`, when the header was written; `none` is a panic. -/
def writeBody (b : Bytes) (i : RwInterceptor) : Option (Nat × Option Error) × RwInterceptor :=
  if i.buffers waf then
    match writeResponseBody waf ev b i.tx with
    | (none, tx) => (none, { i with tx })
    | (some (some it, _, _), tx) => (some (b.length, none), { i with tx }.block it)
    | (some (none, n, err), tx) =>
      let i := { i with tx }
      if err ≠ none ∨ n = b.length then (some (n.toNat, err), i)
      else
        match i.writeBufferedResponseBodyToDownstream server with
        | (some err, i) => (some (n.toNat, some err), i)
        | (none, i) =>
          let ((n2, err), i) := writeDown server i (b.drop n.toNat)
          (some (n.toNat + n2, err), i)
  else
    let (r, i) := writeDown server i.flushWriteHeader b
    (some r, i)

def write (b : Bytes) (i : RwInterceptor) : Option (Nat × Option Error) × RwInterceptor :=
  if i.tx.isInterrupted then (some (b.length, none), i)
  else (i.ensureHeader waf ev).writeBody server waf ev b

def panicError : Error := .new "panic"

/-- `Write` as `io.Copy` sees it; a panic ends the copy. -/
def writeFn : Io.WriteFn RwInterceptor := fun i b =>
  match write server waf ev b i with
  | (some r, i) => (r, i)
  | (none, i) => ((0, some panicError), i)

def readFrom (r : Io.Stream) (i : RwInterceptor) : Option (Nat × Option Error) × RwInterceptor :=
  let (res, _, i) := Io.copy Io.Stream.read (writeFn server waf ev) (r.weight + 1) r i
  (if res.2 = some panicError then none else some res, i)

def flush (i : RwInterceptor) : RwInterceptor :=
  let i := i.ensureHeader waf ev
  if i.allowFlushing ∧ i.isWriteHeaderFlush ∧ server.isFlusher then
    { i with w := { i.w with flushes := i.w.flushes + 1 } }
  else i

/-- `hijackerTracker.Hijack`, which the delegate may refuse. -/
def hijack (refused : Bool) (i : RwInterceptor) : RwInterceptor :=
  if refused then i else { i with isHijacked := true }

/-- The response processor that `wrap` returns. -/
def responseProcessor (i : RwInterceptor) : Option Error × RwInterceptor :=
  if i.isHijacked then (none, i)
  else if i.tx.isInterrupted then (none, i)
  else if i.buffers waf then
    match processResponseBody waf ev i.tx with
    | ((_, some err), tx) => (some err, overrideWriteHeader 500 { i with tx })
    | ((some it, none), tx) => (none, { i with tx }.block it)
    | ((none, none), tx) => { i with tx }.writeBufferedResponseBodyToDownstream server
  else (none, { i with allowFlushing := true }.flushWriteHeader)

end

end RwInterceptor

inductive HandlerCall where
  | header (h : Header)
  | writeHeader (statusCode : Int)
  | write (b : Bytes)
  | readFrom (r : Io.Stream)
  | flush
  | hijack (refused : Bool)

section

variable (server : Server) (waf : WAF) (ev : Evaluator)

def HandlerCall.run (i : RwInterceptor) : HandlerCall → RwInterceptor
  | header h => { i with w := { i.w with header := h } }
  | writeHeader statusCode => i.writeHeader waf ev statusCode
  | write b => (i.write server waf ev b).2
  | readFrom r => (i.readFrom server waf ev r).2
  | flush => i.flush server waf ev
  | hijack refused => i.hijack refused

def runHandler (calls : List HandlerCall) (i : RwInterceptor) : RwInterceptor :=
  calls.foldl (HandlerCall.run server waf ev) i

def serve (calls : List HandlerCall) (i : RwInterceptor) : RwInterceptor :=
  ((runHandler server waf ev calls i).responseProcessor server waf ev).2

end

end Coraza.Http
