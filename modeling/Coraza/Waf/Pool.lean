import Coraza.Operators.RequiredByte
import Coraza.Waf.ActionSteps
import Coraza.Waf.CallSteps
import Coraza.Waf.TransformationCache
import Coraza.Seclang.RuleParser

/-!
# The pool of transactions

`Close` empties a transaction and puts it back into the pool of its WAF, and `newTransaction`
takes one from the pool or makes a new one.  A transaction from the pool should be like a new one.

`reset` walks over a table of the variables.  The four variables for errors in a response body
are not in the table, and `newTransaction` does not set them either.  `recycled_iff` says that
these are all that one request can leave to another.
-/

namespace Coraza.Waf

open Go Collections Seclang List Strconv

/-! ### The variables -/

/-- The fields of `TransactionVariables` that are a `*collections.Single`. -/
def RuleVariable.isSingle : RuleVariable → Bool
  | .duration | .filesCombinedSize | .fullRequestLength | .highestSeverity | .inboundDataError
  | .matchedVar | .matchedVarName | .multipartDataAfter | .multipartStrictError
  | .outboundDataError | .queryString | .remoteAddr | .remoteHost | .remotePort | .reqbodyError
  | .reqbodyErrorMsg | .reqbodyProcessor | .reqbodyProcessorError | .reqbodyProcessorErrorMsg
  | .requestBasename | .requestBody | .requestBodyLength | .requestFilename | .requestLine
  | .requestMethod | .requestProtocol | .requestURI | .requestURIRaw | .responseBody
  | .responseContentLength | .responseContentType | .responseProtocol | .responseStatus
  | .resBodyProcessor | .serverAddr | .serverName | .serverPort | .statusLine | .uniqueID
  | .urlencodedError | .resBodyError | .resBodyErrorMsg | .resBodyProcessorError
  | .resBodyProcessorErrorMsg | .time | .timeDay | .timeEpoch | .timeHour | .timeMin | .timeMon
  | .timeSec | .timeWday | .timeYear => true
  | _ => false

/-- The fields that are a `*collections.Map` or a `*collections.NamedCollection` of their own. -/
def RuleVariable.isKeyed : RuleVariable → Bool
  | .argsGet | .argsPath | .argsPost | .env | .files | .filesNames | .filesSizes
  | .filesTmpContent | .filesTmpNames | .geo | .matchedVars | .multipartFilename
  | .multipartName | .multipartPartHeaders | .requestCookies | .requestHeaders | .requestXML
  | .responseHeaders | .responseXML | .responseArgs | .rule | .tx => true
  | _ => false

namespace Variables

def all : List RuleVariable :=
  [.args, .argsCombinedSize, .argsGet, .argsGetNames, .argsNames, .argsPath, .argsPost,
    .argsPostNames, .duration, .env, .files, .filesCombinedSize, .filesNames, .filesSizes,
    .filesTmpContent, .filesTmpNames, .fullRequestLength, .geo, .highestSeverity,
    .inboundDataError, .matchedVar, .matchedVarName, .matchedVars, .matchedVarsNames,
    .multipartDataAfter, .multipartFilename, .multipartName, .multipartPartHeaders,
    .multipartStrictError, .outboundDataError, .queryString, .remoteAddr, .remoteHost,
    .remotePort, .reqbodyError, .reqbodyErrorMsg, .reqbodyProcessor, .reqbodyProcessorError,
    .reqbodyProcessorErrorMsg, .requestBasename, .requestBody, .requestBodyLength,
    .requestCookies, .requestCookiesNames, .requestFilename, .requestHeaders,
    .requestHeadersNames, .requestLine, .requestMethod, .requestProtocol, .requestURI,
    .requestURIRaw, .requestXML, .responseBody, .responseContentLength, .responseContentType,
    .responseHeaders, .responseHeadersNames, .responseProtocol, .responseStatus, .responseXML,
    .responseArgs, .resBodyProcessor, .rule, .serverAddr, .serverName, .serverPort, .statusLine,
    .tx, .uniqueID, .urlencodedError, .xml, .time, .timeDay, .timeEpoch, .timeHour, .timeMin,
    .timeMon, .timeSec, .timeWday, .timeYear]

/-- `Reset` of the collection of a variable, if the collection has this method. -/
def resetOne (vars : Variables) (v : RuleVariable) : Variables :=
  if v.isSingle then vars.setSingle v []
  else if v.isKeyed then vars.modifyMap v Map.reset
  -- `XML` is a pointer to `REQUEST_XML`
  else if v = .xml then vars.modifyMap .requestXML Map.reset
  else vars

def reset (vars : Variables) : Variables := all.foldl resetOne vars

/-- What a clock in the local time zone says about a number of nanoseconds. -/
structure Clock where
  timeOnly : Int → Bytes
  year : Int → Int
  month : Int → Int
  day : Int → Int
  weekday : Int → Int

def defaults (id : Bytes) : List (RuleVariable × Bytes) :=
  [(.filesCombinedSize, bytesOf "0"), (.urlencodedError, bytesOf "0"),
    (.fullRequestLength, bytesOf "0"), (.multipartDataAfter, bytesOf "0"),
    (.outboundDataError, bytesOf "0"), (.reqbodyError, bytesOf "0"),
    (.reqbodyProcessorError, bytesOf "0"), (.requestBodyLength, bytesOf "0"),
    (.duration, bytesOf "0"), (.highestSeverity, itoa 255), (.uniqueID, id)]

def timeVariables (clock : Clock) (timestamp : Int) : List (RuleVariable × Bytes) :=
  let timeOnly := clock.timeOnly timestamp
  [(.timeEpoch, itoa (timestamp / 10 ^ 9)), (.time, timeOnly),
    (.timeHour, timeOnly.take 2), (.timeMin, (timeOnly.drop 3).take 2),
    (.timeSec, (timeOnly.drop 6).take 2), (.timeDay, itoa (clock.day timestamp)),
    (.timeMon, itoa (clock.month timestamp)),
    (.timeYear, itoa (clock.year timestamp)),
    (.timeWday, itoa (clock.weekday timestamp))]

def setCaptures (m : Map) : Map :=
  (range 11).foldl (fun m i => m.set (itoa i) [[]]) m

def start (clock : Clock) (id : Bytes) (timestamp : Int) (vars : Variables) : Variables :=
  (defaults id ++ timeVariables clock timestamp).foldl (fun vars d => vars.setSingle d.1 d.2)
    (vars.modifyMap .tx setCaptures)

/-- The variables that say that the response body could not be processed. -/
def responseErrors : List RuleVariable :=
  [.resBodyError, .resBodyErrorMsg, .resBodyProcessorError, .resBodyProcessorErrorMsg]

/-- All collections have the same contents.  Whether a map tells cases apart was decided when it
was made. -/
structure SameContents (vars vars' : Variables) : Prop where
  single : ∀ v, v.isSingle = true → vars.single v = vars'.single v
  keyed : ∀ v, v.isKeyed = true → (vars.map v).data = (vars'.map v).data

/-! ### What a walk over variables resets -/

variable (vars : Variables)

theorem resetOne_single (v w : RuleVariable) :
    (vars.resetOne w).single v = if v = w ∧ v.isSingle = true then [] else vars.single v := by
  unfold resetOne
  by_cases hw : w.isSingle = true
  · rw [if_pos hw, setSingle_single]
    by_cases hv : v = w
    · rw [if_pos hv, if_pos ⟨hv, hv ▸ hw⟩]
    · rw [if_neg hv, if_neg (fun h => hv h.1)]
  · rw [if_neg (fun h : v = w ∧ v.isSingle = true => hw (h.1 ▸ h.2))]
    split_ifs <;> rfl

theorem foldl_resetOne_single (v : RuleVariable) (l : List RuleVariable) (vars : Variables) :
    (l.foldl resetOne vars).single v
      = if v ∈ l ∧ v.isSingle = true then [] else vars.single v := by
  induction l generalizing vars with
  | nil =>
    rw [if_neg (fun h => not_mem_nil h.1)]
    rfl
  | cons w l ih =>
    rw [foldl_cons, ih, resetOne_single]
    by_cases hl : v ∈ l ∧ v.isSingle = true
    · rw [if_pos hl, if_pos ⟨mem_cons_of_mem _ hl.1, hl.2⟩]
    · rw [if_neg hl]
      by_cases hw : v = w ∧ v.isSingle = true
      · rw [if_pos hw, if_pos ⟨hw.1 ▸ mem_cons_self, hw.2⟩]
      · rw [if_neg hw, if_neg]
        rintro ⟨hmem, hsingle⟩
        rcases mem_cons.mp hmem with hv | hv
        · exact hw ⟨hv, hsingle⟩
        · exact hl ⟨hv, hsingle⟩

variable {v : RuleVariable}

theorem resetOne_data {vars : Variables} (w : RuleVariable) (h : (vars.map v).data = ∅) :
    ((vars.resetOne w).map v).data = ∅ := by
  have hmodify : ∀ w, ((vars.modifyMap w Map.reset).map v).data = ∅ := by
    intro w
    by_cases hw : v = w
    · subst hw
      rw [modifyMap_map_self]
      rfl
    · rw [modifyMap_map_of_ne _ hw]
      exact h
  unfold resetOne
  split_ifs
  · exact h
  · exact hmodify _
  · exact hmodify _
  · exact h

theorem foldl_resetOne_data (hkeyed : v.isKeyed = true) :
    ∀ (l : List RuleVariable) (vars : Variables), v ∈ l ∨ (vars.map v).data = ∅ →
      ((l.foldl resetOne vars).map v).data = ∅ := by
  intro l
  induction l with
  | nil =>
    intro vars h
    exact h.resolve_left not_mem_nil
  | cons w l ih =>
    intro vars h
    refine ih _ ?_
    rcases h with hmem | hempty
    · rcases mem_cons.mp hmem with rfl | hmem
      · right
        have hsingle : v.isSingle = false := by
          cases v <;> first | rfl | cases hkeyed
        unfold resetOne
        rw [hsingle, if_neg Bool.false_ne_true, if_pos hkeyed, modifyMap_map_self]
        rfl
      · exact .inl hmem
    · exact .inr (resetOne_data w hempty)

theorem mem_all_of_isKeyed (h : v.isKeyed = true) : v ∈ all := by
  cases v <;> first | decide | cases h

/-- `all` has every single-valued variable but those for errors in a response body. -/
theorem mem_all_iff (h : v.isSingle = true) : v ∈ all ↔ v ∉ responseErrors := by
  cases v <;> first | decide | cases h

theorem reset_single (h : v.isSingle = true) :
    vars.reset.single v = if v ∈ responseErrors then vars.single v else [] := by
  unfold reset
  rw [foldl_resetOne_single]
  by_cases hv : v ∈ responseErrors
  · rw [if_pos hv, if_neg (fun hall => (mem_all_iff h).mp hall.1 hv)]
  · rw [if_neg hv, if_pos ⟨(mem_all_iff h).mpr hv, h⟩]

theorem reset_data (h : v.isKeyed = true) : (vars.reset.map v).data = ∅ :=
  foldl_resetOne_data h all vars (.inl (mem_all_of_isKeyed h))

/-! ### What a new transaction sets -/

section

variable (ds : List (RuleVariable × Bytes))

theorem foldl_setSingle_map : ∀ (vars : Variables),
    (ds.foldl (fun vars d => vars.setSingle d.1 d.2) vars).map = vars.map := by
  induction ds with
  | nil => exact fun _ => rfl
  | cons d ds ih => exact fun vars => ih _

theorem foldl_setSingle_congr {v : RuleVariable} : ∀ {vars vars' : Variables},
    vars.single v = vars'.single v →
    (ds.foldl (fun vars d => vars.setSingle d.1 d.2) vars).single v
      = (ds.foldl (fun vars d => vars.setSingle d.1 d.2) vars').single v := by
  induction ds with
  | nil => exact id
  | cons d ds ih =>
    intro vars vars' h
    refine ih ?_
    rw [setSingle_single, setSingle_single, h]

theorem foldl_setSingle_of_notMem {v : RuleVariable} : ∀ (vars : Variables), v ∉ ds.map Prod.fst →
    (ds.foldl (fun vars d => vars.setSingle d.1 d.2) vars).single v = vars.single v := by
  induction ds with
  | nil => exact fun _ _ => rfl
  | cons d ds ih =>
    intro vars h
    rw [map_cons, mem_cons, not_or] at h
    rw [foldl_cons, ih _ h.2, setSingle_single, if_neg h.1]

end

/-- A key that is its own lower case is filed under itself by every map. -/
theorem set_data {m m' : Map} (h : m.data = m'.data) {key : Bytes}
    (hkey : Strings.toLower key = key) (values : List Bytes) :
    (m.set key values).data = (m'.set key values).data := by
  have hfold : ∀ m : Map, m.fold key = key := by
    intro m
    unfold Map.fold
    rw [hkey, ite_self]
  unfold Map.set
  rw [hfold, hfold, h]

theorem setCaptures_data {m m' : Map} (h : m.data = m'.data) :
    (setCaptures m).data = (setCaptures m').data := by
  have hdigits : ∀ i ∈ range 11, Strings.toLower (itoa i) = itoa i := by
    decide +kernel
  unfold setCaptures
  generalize range 11 = l at hdigits ⊢
  induction l generalizing m m' with
  | nil => exact h
  | cons i l ih =>
    obtain ⟨hi, hl⟩ := forall_mem_cons.mp hdigits
    exact ih (set_data h hi _) hl

variable {clock : Clock} {id : Bytes} {timestamp : Int}

/-- The variables for errors in a response body are not set. -/
theorem start_single (hv : v ∈ responseErrors) (vars : Variables) :
    (vars.start clock id timestamp).single v = vars.single v := by
  refine foldl_setSingle_of_notMem _ _ ?_
  have hnot : ∀ v ∈ responseErrors, v ∉ [RuleVariable.filesCombinedSize, .urlencodedError,
    .fullRequestLength, .multipartDataAfter, .outboundDataError, .reqbodyError,
    .reqbodyProcessorError, .requestBodyLength, .duration, .highestSeverity, .uniqueID,
    .timeEpoch, .time, .timeHour, .timeMin, .timeSec, .timeDay, .timeMon, .timeYear,
    .timeWday] := by decide
  exact hnot v hv

/-- **The contents after a reset are those of a new transaction**, if those variables were
empty. -/
theorem start_reset_iff :
    SameContents (vars.reset.start clock id timestamp) (new.start clock id timestamp) ↔
      ∀ v ∈ responseErrors, vars.single v = [] := by
  have hsingle : ∀ v ∈ responseErrors, v.isSingle = true := by decide
  constructor
  · intro h v hv
    have heq := h.single v (hsingle v hv)
    rw [start_single hv, start_single hv, reset_single _ (hsingle v hv), if_pos hv] at heq
    exact heq
  · intro h
    refine ⟨fun v hv => ?_, fun v hv => ?_⟩
    · refine foldl_setSingle_congr _ ?_
      rw [modifyMap_single, modifyMap_single, reset_single _ hv]
      by_cases hmem : v ∈ responseErrors
      · rw [if_pos hmem, h v hmem]
        rfl
      · rw [if_neg hmem]
        rfl
    · unfold start
      rw [foldl_setSingle_map, foldl_setSingle_map]
      by_cases htx : v = .tx
      · subst htx
        rw [modifyMap_map_self, modifyMap_map_self]
        exact setCaptures_data (reset_data vars hv)
      · rw [modifyMap_map_of_ne _ htx, modifyMap_map_of_ne _ htx]
        exact reset_data vars hv

end Variables

/-! ### The transaction in the pool -/

inductive UploadKeepFilesStatus where
  | off | on | relevantOnly
  deriving DecidableEq

/-- What else of a WAF `newTransaction` and `Close` read. -/
structure PoolWAF extends WAF where
  auditLogParts : List UInt8
  auditLogFormat : Bytes
  uploadKeepFiles : UploadKeepFilesStatus

structure Options (κ : Type) where
  id : Bytes
  context : κ

structure MatchSlice where
  array : List Match
  length : Nat

def Match.zero : Match := ⟨.unknown, [], []⟩

structure BytePresenceCacheEntry where
  value : Str
  present : Operators.Bitmap

def BytePresenceCacheEntry.zero : BytePresenceCacheEntry := ⟨⟨0, []⟩, fun _ => 0⟩

/-- The whole of a `Transaction`: what rules and calls use, and what else is kept. -/
structure PooledTransaction (κ ε : Type) where
  id : Bytes
  context : κ
  tx : Transaction
  logdata : Bytes
  auditLogParts : List UInt8
  auditLogFormat : Bytes
  hashEngine : Bool
  hashEnforcement : Bool
  stopWatches : Nat → Option Int
  timestamp : Int
  transformationCache : AList (fun _ : TransformationKey RuleVariable => TransformationValue ε)
  transformationStepCache : TransformationStepCache ε
  fieldMatches : MatchSlice
  bytePresenceCache : Fin 4 → BytePresenceCacheEntry
  bytePresenceNext : Nat

section

variable {κ ε : Type}

/-- `WAF.newTransaction`, for what the pool returns: a transaction that was closed, or `none`, and
then a new one is made. -/
def PoolWAF.newTransaction (w : PoolWAF) (clock : Variables.Clock) (opts : Options κ)
    (timestamp : Int) (got : Option (PooledTransaction κ ε)) : PooledTransaction κ ε :=
  let made : PooledTransaction κ ε :=
    { id := opts.id
      context := opts.context
      tx := w.toWAF.newTransaction (Variables.new.start clock opts.id timestamp)
      logdata := []
      auditLogParts := w.auditLogParts
      auditLogFormat := w.auditLogFormat
      hashEngine := false
      hashEnforcement := false
      stopWatches := fun _ => none
      timestamp
      transformationCache := ∅
      transformationStepCache := ⟨∅, 0⟩
      fieldMatches := ⟨[], 0⟩
      bytePresenceCache := fun _ => .zero
      bytePresenceNext := 0 }
  match got with
  | none => made
  -- a transaction with buffers keeps them, its variables and its caches
  | some t =>
    { made with
      tx := { made.tx with
        vars := t.tx.vars.start clock opts.id timestamp
        requestBodyBuffer := t.tx.requestBodyBuffer
        responseBodyBuffer := t.tx.responseBodyBuffer }
      transformationCache := t.transformationCache
      transformationStepCache := t.transformationStepCache
      fieldMatches := t.fieldMatches
      bytePresenceCache := t.bytePresenceCache
      bytePresenceNext := t.bytePresenceNext }

def maxRetainedFieldMatches : Nat := 256

/-- What the operating system answers when a transaction is closed: the errors of removing the
files of an upload and those of the two buffers. -/
structure CloseAnswers where
  removeFile : Bytes → Option Bytes
  requestBuffer : Option Bytes
  responseBuffer : Option Bytes

def Transaction.hasLogRelevantMatchedRules (tx : Transaction) : Bool := tx.matchedRules.any (·.log)

/-- `resetTransformationCaches`.  A map that is cleared and one that is replaced are both empty. -/
def PooledTransaction.resetTransformationCaches (t : PooledTransaction κ ε) :
    PooledTransaction κ ε :=
  { t with transformationCache := ∅, transformationStepCache := ⟨∅, 0⟩ }

def PooledTransaction.close (w : PoolWAF) (answers : CloseAnswers) (t : PooledTransaction κ ε) :
    Option Error × PooledTransaction κ ε :=
  let keepFiles := w.uploadKeepFiles = .on ∨
    w.uploadKeepFiles = .relevantOnly ∧ t.tx.hasLogRelevantMatchedRules = true
  let removed :=
    if keepFiles then []
    else ((t.tx.vars.map .filesTmpNames).get []).filterMap answers.removeFile
  let errs := removed.map (fun err => Error.errorf "removing temporary file: %v" [err])
  let t := t.resetTransformationCaches
  let n := t.fieldMatches.array.length
  let (requestErr, requestBodyBuffer) := t.tx.requestBodyBuffer.reset answers.requestBuffer
  let (responseErr, responseBodyBuffer) := t.tx.responseBodyBuffer.reset answers.responseBuffer
  let errs := errs
    ++ requestErr.toList.map (fun err => Error.errorf "reseting request body buffer: %v" [err])
    ++ responseErr.toList.map (fun err => Error.errorf "reseting response body buffer: %v" [err])
  (if errs = [] then none
    else some (.errorf "transaction close failed: %v"
      [(errs.map Error.text).intersperse (bytesOf "\n") |>.flatten]),
    { t with
      tx := { t.tx with vars := t.tx.vars.reset, requestBodyBuffer, responseBodyBuffer }
      fieldMatches :=
        if n > maxRetainedFieldMatches then ⟨[], 0⟩ else ⟨replicate n .zero, 0⟩
      bytePresenceCache := fun _ => .zero
      bytePresenceNext := 0 })

/-- Two transactions that cannot be told apart: all fields are the same, the collections have the
same contents, and the buffers for matches have nothing in them, in use or not. -/
structure PooledTransaction.Same (t t' : PooledTransaction κ ε) : Prop where
  vars : t.tx.vars.SameContents t'.tx.vars
  empty : ∀ m, m ∈ t.fieldMatches.array ∨ m ∈ t'.fieldMatches.array → m = .zero
  length : t.fieldMatches.length = t'.fieldMatches.length
  rest : t' = { t with
    tx := { t.tx with vars := t'.tx.vars }, fieldMatches := t'.fieldMatches }

/-- The options of the two buffers are those that the WAF gives them. -/
structure HasBuffers (w : PoolWAF) (tx : Transaction) : Prop where
  request : tx.requestBodyBuffer.options
    = ⟨w.requestBodyInMemoryLimit.getD w.requestBodyLimit, w.requestBodyLimit⟩
  response : tx.responseBodyBuffer.options = ⟨w.responseBodyLimit, w.responseBodyLimit⟩

variable {w : PoolWAF}

theorem HasBuffers.congr {tx tx' : Transaction} (h : HasBuffers w tx)
    (hrequest : tx'.requestBodyBuffer.options = tx.requestBodyBuffer.options)
    (hresponse : tx'.responseBodyBuffer.options = tx.responseBodyBuffer.options) :
    HasBuffers w tx' :=
  ⟨hrequest.trans h.request, hresponse.trans h.response⟩

theorem HasBuffers.call {tx : Transaction} (h : HasBuffers w tx) (rg : RuleGroup)
    (iteration : Nat → Iteration) (call : Call) :
    HasBuffers w (call.run w.toWAF (rg.evaluator iteration) tx) := by
  have heval : ∀ (phase : Nat) (tx : Transaction), HasBuffers w tx →
      HasBuffers w ((rg.evaluator iteration).eval phase tx) := by
    intro phase tx h
    have hbuffers : ((rg.evaluator iteration).eval phase tx).requestBodyBuffer
          = tx.requestBodyBuffer ∧
        ((rg.evaluator iteration).eval phase tx).responseBodyBuffer = tx.responseBodyBuffer :=
      RuleGroup.eval_buffers tx
    exact h.congr (congrArg BodyBuffer.options hbuffers.1) (congrArg BodyBuffer.options hbuffers.2)
  refine Call.run_keeps (fun tx tx' hstep h => ?_) (heval _) call h
  cases hstep with
  | vars vars asked => exact h.congr rfl rfl
  | requestBody buffer hoptions => exact h.congr hoptions rfl
  | responseBody buffer hoptions => exact h.congr rfl hoptions
  | limit i hreject => exact h.congr rfl rfl
  | eval hphase hint => exact heval _ _ h

theorem HasBuffers.run (rg : RuleGroup) (iteration : Nat → Iteration)
    (calls : List Call) {tx : Transaction} (h : HasBuffers w tx) :
    HasBuffers w (runCalls w.toWAF (rg.evaluator iteration) calls tx) :=
  foldlRecOn calls _ h (fun _ h call _ => h.call rg iteration call)

/-- A transaction that was taken from the pool and used: after some calls, and with anything in
what the calls keep for themselves. -/
inductive Used (w : PoolWAF) (rg : RuleGroup) : PooledTransaction κ ε → Prop where
  /-- The pool was empty. -/
  | first (clock : Variables.Clock) (opts : Options κ) (timestamp : Int)
      (iteration : Nat → Iteration) (calls : List Call) {t : PooledTransaction κ ε}
      (h : t.tx = runCalls w.toWAF (rg.evaluator iteration) calls
        (w.newTransaction clock opts timestamp (none : Option (PooledTransaction κ ε))).tx) :
      Used w rg t
  /-- It had a transaction that was used before and closed. -/
  | again {t₀ : PooledTransaction κ ε} (h₀ : Used w rg t₀) (answers : CloseAnswers)
      (clock : Variables.Clock) (opts : Options κ) (timestamp : Int)
      (iteration : Nat → Iteration) (calls : List Call) {t : PooledTransaction κ ε}
      (h : t.tx = runCalls w.toWAF (rg.evaluator iteration) calls
        (w.newTransaction clock opts timestamp (some (t₀.close w answers).2)).tx) : Used w rg t

theorem Used.hasBuffers {rg : RuleGroup} {t : PooledTransaction κ ε}
    (h : Used w rg t) : HasBuffers w t.tx := by
  induction h with
  | first clock opts timestamp iteration calls h =>
    rw [h]
    exact HasBuffers.run rg iteration calls ⟨rfl, rfl⟩
  | again h₀ answers clock opts timestamp iteration calls h ih =>
    rw [h]
    exact HasBuffers.run rg iteration calls ⟨ih.request, ih.response⟩

theorem PooledTransaction.close_fieldMatches (w : PoolWAF) (answers : CloseAnswers)
    (t : PooledTransaction κ ε) :
    ∀ m ∈ (t.close w answers).2.fieldMatches.array, m = .zero := by
  intro m hm
  unfold PooledTransaction.close at hm
  dsimp only at hm
  split at hm
  · exact absurd hm not_mem_nil
  · exact eq_of_mem_replicate hm

theorem PooledTransaction.close_length (w : PoolWAF) (answers : CloseAnswers)
    (t : PooledTransaction κ ε) : (t.close w answers).2.fieldMatches.length = 0 := by
  unfold PooledTransaction.close
  dsimp only
  split <;> rfl

/-- **What one request can leave to another.**  A transaction that was used, closed and taken from
the pool again is like a new one if and only if the variables for errors in a response body were
empty when it was closed. -/
theorem recycled_iff {rg : RuleGroup} {t : PooledTransaction κ ε}
    (ht : Used w rg t) (answers : CloseAnswers) (clock : Variables.Clock) (opts : Options κ)
    (timestamp : Int) :
    (w.newTransaction clock opts timestamp (some (t.close w answers).2)).Same
        (w.newTransaction clock opts timestamp none) ↔
      ∀ v ∈ Variables.responseErrors, t.tx.vars.single v = [] := by
  have hbuffers := ht.hasBuffers
  constructor
  · intro h
    exact (Variables.start_reset_iff t.tx.vars).mp h.vars
  · intro h
    refine ⟨(Variables.start_reset_iff t.tx.vars).mpr h, ?_, ?_, ?_⟩
    · rintro m (hm | hm)
      · exact t.close_fieldMatches w answers m hm
      · exact absurd hm not_mem_nil
    · show (t.close w answers).2.fieldMatches.length = 0
      exact t.close_length w answers
    · -- a buffer that was reset is a new one with its options
      have hrequest : (t.close w answers).2.tx.requestBodyBuffer = .new _ :=
        congrArg BodyBuffer.new hbuffers.request
      have hresponse : (t.close w answers).2.tx.responseBodyBuffer = .new _ :=
        congrArg BodyBuffer.new hbuffers.response
      unfold PoolWAF.newTransaction
      dsimp only
      rw [hrequest, hresponse]
      rfl

end

def lostProcessor : List Directive :=
  [.secAction (some [.id 3, .phase 3, .pass, .ctl (.forceResponseBodyVariable (some true)),
    .ctl (.responseBodyProcessor (bytesOf "LOST"))])]

def lostProcessorChain : RuleChain where
  starter := { Rule.new with
    id := 3, logID := itoa 3, phase := 3
    actions := [.pass, .ctl (.forceResponseBodyVariable (some true)),
      .ctl (.responseBodyProcessor (bytesOf "LOST"))] }
  members := []

def responseWAF : PoolWAF :=
  { WAF.new (fun _ => none) with
    responseBodyAccess := true, auditLogParts := [], auditLogFormat := []
    uploadKeepFiles := .off }

def midnight : Variables.Clock :=
  ⟨fun _ => bytesOf "00:00:00", fun _ => 1970, fun _ => 1, fun _ => 1, fun _ => 4⟩

def noErrors : CloseAnswers := ⟨fun _ => none, none, none⟩

def usedTransaction (calls : List Call) : PooledTransaction Unit Unit :=
  let t := responseWAF.newTransaction midnight ⟨bytesOf "a", ()⟩ 0 none
  let ev := RuleGroup.evaluator [lostProcessorChain] (fun _ => .stored)
  { t with tx := runCalls responseWAF.toWAF ev calls t.tx }

theorem used_usedTransaction (calls : List Call) :
    Used responseWAF [lostProcessorChain] (usedTransaction calls) :=
  .first midnight ⟨bytesOf "a", ()⟩ 0 (fun _ => .stored) calls rfl

/-- A transaction for a request without a response. -/
theorem recycled_request : (responseWAF.newTransaction midnight ⟨bytesOf "b", ()⟩ 1
      (some ((usedTransaction [.processRequestHeaders]).close responseWAF noErrors).2)).Same
      (responseWAF.newTransaction midnight ⟨bytesOf "b", ()⟩ 1 none) :=
  (recycled_iff (used_usedTransaction _) noErrors midnight _ 1).mpr (by decide +kernel)

/-- **The next request sees that a response body could not be processed.** -/
theorem recycled_response :
    (parse [] lostProcessor).map ParserState.rules = some [lostProcessorChain] ∧
    (responseWAF.newTransaction midnight ⟨bytesOf "b", ()⟩ 1
      (some ((usedTransaction [.processRequestHeaders, .processRequestBody,
        .processResponseHeaders 200 (bytesOf "HTTP/1.1"), .processResponseBody]).close
          responseWAF noErrors).2)).tx.vars.single .resBodyError = bytesOf "1" ∧
    (responseWAF.newTransaction midnight ⟨bytesOf "b", ()⟩ 1
      (none : Option (PooledTransaction Unit Unit))).tx.vars.single .resBodyError = [] :=
  ⟨rfl, by decide +kernel, by decide +kernel⟩

end Coraza.Waf
