import Coraza.Go.MultiReader
import Coraza.Waf.ActionSteps
import Coraza.Waf.BodyWrites

/-!
# The request side of the middleware

`processRequest` hands a request to a transaction.  If the transaction looks at the body, bytes
are moved from the body to the buffer of the transaction, and the handler gets a body that is
read from the buffer first and from the rest of the original one then.

`request_passThrough` says that the handler reads the original bytes, whatever was buffered,
inspected or moved to a temporary file.
-/

namespace Coraza.Http

open Go Collections Waf

/-- The body that a handler gets: the one of the request, or a `MultiReader` of a reader of the
buffer and the rest of it. -/
inductive RequestBody where
  | original (r : Io.Stream)
  | buffered (r : Io.MultiReader Nat Io.Stream)

def RequestBody.read (br : BodyBuffer) : Io.ReadFn RequestBody := fun body size =>
  match body with
  | .original r =>
    let (res, r) := Io.Stream.read r size
    (res, .original r)
  | .buffered r =>
    let (res, r) := Io.multiRead (BodyBuffer.read br) Io.Stream.read r size
    (res, .buffered r)

section

variable (waf : WAF) (ev : Evaluator)

def finishRequest (body : Option RequestBody) (tx : Transaction) :
    (Option Interruption × Option Error) × Option RequestBody × Transaction :=
  let (res, tx) := processRequestBody waf ev tx
  (res, body, tx)

/-- `processRequest`.  `fill` is what the connection, the URI and the headers of the request put
into the variables; `body` is `none` for `nil` and `http.NoBody`. -/
def processRequest (fill : Variables → Variables) (body : Option Io.Stream) (tx : Transaction) :
    (Option Interruption × Option Error) × Option RequestBody × Transaction :=
  match processRequestHeaders ev (tx.modifyVariables fill) with
  | (some it, tx) => ((some it, none), body.map .original, tx)
  | (none, tx) =>
    match tx.requestBodyAccess, body with
    | true, some r =>
      match readRequestBodyFrom waf ev r tx with
      | ((_, _, some err), r, tx) =>
        ((none, some (.errorf "failed to append request body: %s" [err.text])),
          some (.original r), tx)
      | ((some it, _, none), r, tx) => ((some it, none), some (.original r), tx)
      | ((none, _, none), r, tx) => finishRequest waf ev (some (.buffered (.both 0 r))) tx
    | _, _ => finishRequest waf ev (body.map .original) tx

end

/-! ### What the handler reads -/

def RequestBody.content (br : BodyBuffer) : RequestBody → Bytes
  | .original r => r.content
  | .buffered r => r.content (fun pos => br.content.drop pos) Io.Stream.content

def RequestBody.weight (br : BodyBuffer) : RequestBody → Nat
  | .original r => r.weight
  | .buffered r => r.weight (fun pos => br.content.length + 1 - pos) Io.Stream.weight

theorem RequestBody.reads (br : BodyBuffer) {size : Nat} (hsize : 0 < size) :
    Io.Reads (RequestBody.read br) size (RequestBody.content br) (RequestBody.weight br)
      (fun _ _ => True) := by
  have hstream := Io.Stream.reads hsize
  have hmulti := (br.reads hsize).multi hstream
  constructor
  · rintro (r | r)
    · exact hstream.bytes r
    · exact hmulti.bytes r
  · rintro (r | r) h
    · exact hstream.progress r h
    · exact hmulti.progress r h
  · rintro (r | r) err h
    · exact ⟨trivial, (hstream.error r err h).2⟩
    · exact ⟨trivial, (hmulti.error r err h).2⟩
  · exact fun _ _ _ => trivial

section

variable {waf : WAF} {ev : Evaluator}
  (hev : ∀ phase tx, (ev.eval phase tx).requestBodyBuffer = tx.requestBodyBuffer)

include hev

theorem phaseCall_buffer {phase : Nat} {guard : Prop} {tx : Transaction}
    {out : Option Interruption × Transaction} (h : PhaseCall ev phase guard tx out) :
    out.2.requestBodyBuffer = tx.requestBodyBuffer := by
  cases h with
  | stopped => rfl
  | evaluated => exact hev ..

theorem processRequest_content (hfiles : ∀ n, (waf.requestFiles n).Proper)
    (fill : Variables → Variables) (r : Io.Stream) {tx : Transaction}
    (hwf : tx.requestBodyBuffer.WellFormed) (hempty : tx.requestBodyBuffer.content = [])
    (hres : (processRequest waf ev fill (some r) tx).1 = (none, none)) :
    ∃ body, (processRequest waf ev fill (some r) tx).2.1 = some body ∧
      body.content (processRequest waf ev fill (some r) tx).2.2.requestBodyBuffer
        = r.content := by
  have hbuffer : (processRequestHeaders ev (tx.modifyVariables fill)).2.requestBodyBuffer
      = (tx.modifyVariables fill).requestBodyBuffer :=
    phaseCall_buffer hev (processRequestHeaders_call ev _)
  unfold processRequest at hres ⊢
  generalize processRequestHeaders ev (tx.modifyVariables fill) = out at hbuffer hres ⊢
  obtain ⟨_ | it, tx₁⟩ := out
  · dsimp only [Transaction.modifyVariables] at hbuffer hres ⊢
    rw [← hbuffer] at hwf hempty
    cases haccess : tx₁.requestBodyAccess with
    | false => exact ⟨.original r, rfl, rfl⟩
    | true =>
      rw [haccess] at hres
      have hcontent := BodySide.readBodyFrom_content (BodySide.requestSide_lawful waf ev)
        (fun tx => phaseCall_buffer hev (processRequestBody_call waf ev tx)) hfiles hwf (r := r)
      dsimp only at hres ⊢
      unfold readRequestBodyFrom at hres ⊢
      generalize (requestSide waf ev).readBodyFrom r tx₁ = out at hcontent hres ⊢
      obtain ⟨⟨it, n, err⟩, r', tx₂⟩ := out
      cases err with
      | some err => exact absurd (congrArg Prod.snd hres) (nofun)
      | none =>
        cases it with
        | some it => exact absurd (congrArg Prod.fst hres) (nofun)
        | none =>
          refine ⟨_, rfl, ?_⟩
          show (processRequestBody waf ev tx₂).2.requestBodyBuffer.content.drop 0 ++ r'.content
            = r.content
          rw [phaseCall_buffer hev (processRequestBody_call waf ev _), List.drop_zero]
          have hsplit : tx₂.requestBodyBuffer.content ++ r'.content
              = tx₁.requestBodyBuffer.content ++ r.content := hcontent rfl
          rw [hsplit, hempty, List.nil_append]
  · exact absurd (congrArg Prod.fst hres) (nofun)

end

/-- **A request that is not blocked arrives unchanged.**  The handler that reads its body to
the end, with buffers of any sizes, gets the original bytes. -/
theorem request_passThrough {waf : WAF} (hfiles : ∀ n, (waf.requestFiles n).Proper)
    (rg : RuleGroup) (iteration : Nat → Iteration) (fill : Variables → Variables)
    (r : Io.Stream) {tx : Transaction} (hwf : tx.requestBodyBuffer.WellFormed)
    (hempty : tx.requestBodyBuffer.content = [])
    (hres : (processRequest waf (rg.evaluator iteration) fill (some r) tx).1 = (none, none)) :
    ∃ body, (processRequest waf (rg.evaluator iteration) fill (some r) tx).2.1 = some body ∧
      ∃ enough, ∀ sizes : List Nat, (∀ size ∈ sizes, 0 < size) → enough < sizes.length →
        (Io.drain (RequestBody.read
          (processRequest waf (rg.evaluator iteration) fill (some r) tx).2.2.requestBodyBuffer)
          sizes body).1 = r.content ∧
        (Io.drain (RequestBody.read
          (processRequest waf (rg.evaluator iteration) fill (some r) tx).2.2.requestBodyBuffer)
          sizes body).2 ≠ none := by
  have hev : ∀ phase tx, ((rg.evaluator iteration).eval phase tx).requestBodyBuffer
      = tx.requestBodyBuffer := fun _ tx => (RuleGroup.eval_buffers tx).1
  obtain ⟨body, hbody, hcontent⟩ := processRequest_content hev hfiles fill r hwf hempty hres
  generalize (processRequest waf (rg.evaluator iteration) fill (some r) tx).2.2.requestBodyBuffer
    = br at hcontent ⊢
  refine ⟨body, hbody, body.weight br, fun sizes hsizes hlength => ?_⟩
  obtain ⟨hbytes, err, herr⟩ := Io.Reads.drain_eq (fun _ => RequestBody.reads br) sizes hsizes body
    hlength
  exact ⟨hbytes.trans hcontent, by rw [herr]; exact nofun⟩

def spillWAF : WAF :=
  { WAF.new (fun _ => none) with
    requestBodyAccess := true
    requestBodyLimit := 4
    requestBodyInMemoryLimit := some 2
    requestBodyLimitAction := .processPartial }

def chunkedBody : Io.Stream := ⟨[bytesOf "a", bytesOf "bcd", bytesOf "ef"], .eof, false, none⟩

/-- The body goes through the buffer and a temporary file. -/
theorem request_passThrough_spilled : ∃ body,
    (processRequest spillWAF (RuleGroup.evaluator [] (fun _ => .stored)) id (some chunkedBody)
      (spillWAF.newTransaction .new)).2.1 = some body ∧
    ∃ enough, ∀ sizes : List Nat, (∀ size ∈ sizes, 0 < size) → enough < sizes.length →
      (Io.drain (RequestBody.read
        (processRequest spillWAF (RuleGroup.evaluator [] (fun _ => .stored)) id (some chunkedBody)
          (spillWAF.newTransaction .new)).2.2.requestBodyBuffer) sizes body).1
        = bytesOf "abcdef" := by
  have hres : (processRequest spillWAF (RuleGroup.evaluator [] (fun _ => .stored)) id
      (some chunkedBody) (spillWAF.newTransaction .new)).1 = (none, none) := by decide +kernel
  have hcontent : chunkedBody.content = bytesOf "abcdef" := by decide +kernel
  obtain ⟨body, hbody, enough, hdrain⟩ := request_passThrough (fun _ => FileAnswers.good_proper)
    _ _ _ _ (BodyBuffer.wellFormed_new _) rfl hres
  exact ⟨body, hbody, enough, fun sizes hsizes hlength =>
    (hdrain sizes hsizes hlength).1.trans hcontent⟩

end Coraza.Http
