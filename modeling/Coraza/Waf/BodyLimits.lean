import Coraza.Waf.ActionSteps
import Coraza.Waf.BodyWrites

/-!
# The limit of the request body

The bytes of a request body may be handed over in any number of calls of `WriteRequestBody` and
`ReadRequestBodyFrom`.  `bodyLimit_deliveries` says that this makes no difference: the buffer
collects the first bytes up to the limit, and the limit is noticed exactly if there are so many.

Both functions fail when a length does not fit a machine integer.  `FitsRun` excludes that, and
`bodyLimit_overflow` shows that it has to be excluded.
-/

namespace Coraza.Waf

open Go Collections List BodySide RuleGroup Transaction

inductive Delivery where
  | write (b : Bytes)
  | read (r : Io.Stream)

namespace Delivery

def bytes : Delivery → Bytes
  | write b => b
  | read r => r.content

/-- A stream ends well, and its `Len` reports what remains. -/
def Regular : Delivery → Prop
  | write _ => True
  | read r => r.last = .eof ∧ ∀ l, r.len = some l → l = r.content.length

/-- Where the length is known before, it fits a machine integer together with what is in the
buffer. -/
def Fits (buffered : Int) : Delivery → Prop
  | write b => buffered + b.length < maxInt64
  | read r => r.len ≠ none → buffered + r.content.length < maxInt64

/-- The call, of `WriteRequestBody` or `ReadRequestBodyFrom` for the side of the request; `none` is
a panic. -/
def run (side : BodySide) (tx : Transaction) : Delivery → Option BodyResult × Transaction
  | write b => side.writeBody b tx
  | read r =>
    let (res, _, tx) := side.readBodyFrom r tx
    (some res, tx)

end Delivery

def deliver (side : BodySide) (ds : List Delivery) (tx : Transaction) : Transaction :=
  ds.foldl (fun tx d => (d.run side tx).2) tx

def results (side : BodySide) : List Delivery → Transaction → List (Option BodyResult)
  | [], _ => []
  | d :: ds, tx => (d.run side tx).1 :: results side ds (d.run side tx).2

def FitsRun (limit : Int) : Nat → List Delivery → Prop
  | _, [] => True
  | n, d :: ds => d.Fits (min (n : Int) limit) ∧ FitsRun limit (n + d.bytes.length) ds

/-- The body processors leave `INBOUND_DATA_ERROR` alone. -/
def WAF.KeepsInbound (waf : WAF) : Prop :=
  ∀ name p, waf.processors name = some p → ∀ n body options vars,
    (p.processRequest n body options vars).1.single .inboundDataError
      = vars.single .inboundDataError

/-- **Both functions do what `Stores` says.** -/
theorem Delivery.run_stores {side : BodySide} (hlaw : side.Lawful) {tx : Transaction}
    (haccepts : side.Accepts tx) (hearly : side.early tx = none) {d : Delivery}
    (hregular : d.Regular) (hfits : d.Fits (side.buffer tx).length) :
    ∃ out, side.Stores d.bytes tx out ∧ d.run side tx = returned out := by
  cases d with
  | write b =>
    exact writeBody_stores hlaw haccepts hearly (fun _ => Int.lt_sub_right_of_add_lt hfits)
  | read r =>
    obtain ⟨out, r', hstores, hrun⟩ := readBodyFrom_stores hlaw haccepts hearly
      hregular.1 hregular.2 hfits
    refine ⟨out, hstores, ?_⟩
    unfold Delivery.run
    dsimp only
    rw [hrun]
    rfl

/-! ### Processing at the limit -/

theorem parseRequestBody_inbound {waf : WAF} (hwaf : waf.KeepsInbound) (force : Bool) (n : Nat)
    (body : Bytes) (vars : Variables) :
    (parseRequestBody waf force n body vars).single .inboundDataError
      = vars.single .inboundDataError := by
  have herror : ∀ (err : Bytes) (vars : Variables),
      (generateRequestBodyError err vars).single .inboundDataError
        = vars.single .inboundDataError := by
    intro err vars
    simp [generateRequestBodyError]
  have hforce : ∀ rbp : Bytes, (if force then vars.setSingle .reqbodyProcessor rbp
      else vars).single .inboundDataError = vars.single .inboundDataError := by
    intro rbp
    split
    · simp
    · rfl
  unfold parseRequestBody
  dsimp only
  generalize (if force = true ∧ vars.single .reqbodyProcessor = [] then bytesOf "URLENCODED"
    else vars.single .reqbodyProcessor) = rbp
  split
  · exact hforce rbp
  cases hp : waf.getBodyProcessor (Strings.toLower rbp) with
  | none => exact (herror ..).trans (hforce rbp)
  | some p =>
    dsimp only
    unfold afterProcessor
    split
    · exact (hwaf _ p hp ..).trans (hforce rbp)
    · exact (herror ..).trans ((hwaf _ p hp ..).trans (hforce rbp))

/-- What `ProcessRequestBody` leaves alone. -/
structure KeepsRequest (tx tx' : Transaction) : Prop where
  buffer : tx'.requestBodyBuffer = tx.requestBodyBuffer
  access : tx'.requestBodyAccess = tx.requestBodyAccess
  limit : tx'.requestBodyLimit = tx.requestBodyLimit
  inbound : tx'.vars.single .inboundDataError = tx.vars.single .inboundDataError

section

variable {waf : WAF} {rg : RuleGroup} {iteration : Nat → Iteration}

theorem keepsRequest_eval (tx : Transaction) :
    KeepsRequest tx ((rg.evaluator iteration).eval phaseRequestBody tx) where
  buffer := (eval_buffers tx).1
  access := (eval_requestSettings (by decide) tx).1
  limit := (eval_requestSettings (by decide) tx).2
  inbound := eval_single (by decide) tx

theorem processRequestBody_error (ev : Evaluator) (tx : Transaction) :
    (processRequestBody waf ev tx).1.2 = none := by
  unfold processRequestBody
  split_ifs <;> rfl

theorem processRequestBody_keeps (hwaf : waf.KeepsInbound) (tx : Transaction) :
    KeepsRequest tx (processRequestBody waf (rg.evaluator iteration) tx).2 := by
  unfold processRequestBody
  split_ifs
  · exact ⟨rfl, rfl, rfl, rfl⟩
  · exact ⟨rfl, rfl, rfl, rfl⟩
  · exact ⟨rfl, rfl, rfl, rfl⟩
  · exact keepsRequest_eval tx
  · dsimp only
    have heval : KeepsRequest _ ((rg.evaluator iteration).eval phaseRequestBody
        (tx.askVariables (fun n => parseRequestBody waf tx.forceRequestBodyVariable n
          tx.requestBodyBuffer.content))) := keepsRequest_eval _
    exact ⟨heval.buffer, heval.access, heval.limit,
      heval.inbound.trans (parseRequestBody_inbound hwaf ..)⟩

/-! ### Collecting below the limit -/

/-- The transaction that is handed a body: it looks at the body, and its buffer is empty and
has room up to the limit. -/
structure Expecting (waf : WAF) (tx : Transaction) : Prop where
  access : tx.requestBodyAccess = true
  engine : tx.isRuleEngineOff = false
  positive : 0 < tx.requestBodyLimit
  limit : tx.requestBodyLimit ≤ waf.requestBodyLimit
  int64 : waf.requestBodyLimit ≤ maxInt64
  options : tx.requestBodyBuffer.options.limit = waf.requestBodyLimit
  empty : tx.requestBodyBuffer.content = []
  wellFormed : tx.requestBodyBuffer.WellFormed
  files : tx.requestBodyLimit ≤ tx.requestBodyBuffer.options.memoryLimit ∨
    ∀ n, waf.requestFiles n = .good

theorem expecting_newTransaction {waf : WAF} (haccess : waf.requestBodyAccess = true)
    (hengine : waf.ruleEngine ≠ .off) (hpositive : 0 < waf.requestBodyLimit)
    (hint64 : waf.requestBodyLimit ≤ maxInt64) (hfiles : ∀ n, waf.requestFiles n = .good)
    (vars : Variables) : Expecting waf (waf.newTransaction vars) where
  access := haccess
  engine := decide_eq_false hengine
  positive := hpositive
  limit := Int.le_refl _
  int64 := hint64
  options := rfl
  empty := rfl
  wellFormed := BodyBuffer.wellFormed_new _
  files := .inr hfiles

/-- The bytes `s` were delivered and the limit was not reached: only the buffer has changed. -/
structure Collecting (tx₀ : Transaction) (s : Bytes) (tx : Transaction) : Prop where
  eq : tx = { tx₀ with requestBodyBuffer := tx.requestBodyBuffer }
  appended : tx₀.requestBodyBuffer.Appended s tx.requestBodyBuffer
  below : s.length < tx₀.requestBodyLimit

variable {tx₀ : Transaction} (h₀ : Expecting waf tx₀)

include h₀

variable {s : Bytes} {tx : Transaction} (h : Collecting tx₀ s tx)

include h

theorem Collecting.content : tx.requestBodyBuffer.content = s := by
  rw [h.appended.content, h₀.empty, nil_append]

theorem Collecting.length : tx.requestBodyBuffer.length = s.length := by
  rw [h.appended.wellFormed.length, h.content h₀]

omit h₀ in
theorem Collecting.limit : tx.requestBodyLimit = tx₀.requestBodyLimit :=
  (congrArg requestBodyLimit h.eq).trans rfl

theorem Collecting.early (ev : Evaluator) : (requestSide waf ev).early tx = none := by
  have hengine : tx.isRuleEngineOff = false :=
    (congrArg isRuleEngineOff h.eq).trans h₀.engine
  have haccess : (requestSide waf ev).access tx = true :=
    (congrArg requestBodyAccess h.eq).trans h₀.access
  have hlimit : (requestSide waf ev).limit tx ≠ ((requestSide waf ev).buffer tx).length := by
    show tx.requestBodyLimit ≠ tx.requestBodyBuffer.length
    rw [h.limit, h.length h₀]
    exact Int.ne_of_gt h.below
  unfold BodySide.early
  rw [hengine, haccess, if_neg hlimit]
  rfl

theorem Collecting.accepts (ev : Evaluator) : (requestSide waf ev).Accepts tx where
  wellFormed := h.appended.wellFormed
  within := by
    show tx.requestBodyBuffer.length ≤ tx.requestBodyLimit
    rw [h.limit, h.length h₀]
    exact Int.le_of_lt h.below
  limit := by
    show tx.requestBodyLimit ≤ tx.requestBodyBuffer.options.limit
    rw [h.limit, h.appended.options, h₀.options]
    exact h₀.limit
  int64 := by
    show tx.requestBodyLimit ≤ maxInt64
    rw [h.limit]
    exact Int.le_trans h₀.limit h₀.int64
  files := by
    show tx.requestBodyLimit ≤ tx.requestBodyBuffer.options.memoryLimit ∨ _
    rw [h.limit, h.appended.options]
    exact h₀.files

/-- While the limit is not reached, both functions do what `Stores` says. -/
theorem Collecting.stores (ev : Evaluator) {d : Delivery}
    (hregular : d.Regular) (hfits : d.Fits (min (s.length : Int) tx₀.requestBodyLimit)) :
    ∃ out, (requestSide waf ev).Stores d.bytes tx out ∧
      d.run (requestSide waf ev) tx = returned out := by
  rw [Int.min_eq_left (Int.le_of_lt h.below), ← h.length h₀] at hfits
  exact Delivery.run_stores (requestSide_lawful waf ev) (h.accepts h₀ ev) (h.early h₀ ev)
    hregular hfits

omit h₀ in
theorem Collecting.step {data : Bytes} {buffer : BodyBuffer}
    (happ : tx.requestBodyBuffer.Appended data buffer)
    (hlimit : (s.length : Int) + data.length < tx₀.requestBodyLimit) :
    Collecting tx₀ (s ++ data) { tx with requestBodyBuffer := buffer } where
  eq := by rw [h.eq]
  appended := h.appended.trans happ
  below := by
    rw [length_append]
    exact hlimit

omit h₀ h in
theorem collecting_nil (hpositive : 0 < tx₀.requestBodyLimit)
    (hwf : tx₀.requestBodyBuffer.WellFormed) : Collecting tx₀ [] tx₀ :=
  ⟨rfl, ⟨(append_nil _).symm, rfl, hwf⟩, hpositive⟩

end

/-! ### Deliveries -/

section

variable {side : BodySide}

theorem Delivery.run_early {tx : Transaction} {res : BodyResult} (h : side.early tx = some res)
    (d : Delivery) : d.run side tx = (some res, tx) := by
  cases d with
  | write b =>
    unfold Delivery.run writeBody
    rw [h]
  | read r =>
    unfold Delivery.run readBodyFrom
    rw [h]

/-- **The invariant rule of deliveries.** -/
theorem deliver_invariant {P : Bytes → Transaction → Prop} {Q : Option BodyResult → Prop}
    {limit : Int} (hstep : ∀ s tx (d : Delivery), d.Regular →
      d.Fits (min (s.length : Int) limit) → P s tx →
      P (s ++ d.bytes) (d.run side tx).2 ∧ Q (d.run side tx).1) :
    ∀ ds s tx, (∀ d ∈ ds, d.Regular) → FitsRun limit s.length ds → P s tx →
      P (s ++ ds.flatMap Delivery.bytes) (deliver side ds tx) ∧
        ∀ res ∈ results side ds tx, Q res := by
  intro ds
  induction ds with
  | nil =>
    intro s tx hregular hfits h
    rw [flatMap_nil, append_nil]
    exact ⟨h, fun res hres => absurd hres not_mem_nil⟩
  | cons d ds ih =>
    intro s tx hregular hfits h
    obtain ⟨hd, hds⟩ := List.forall_mem_cons.mp hregular
    obtain ⟨h', hres⟩ := hstep s tx d hd hfits.1 h
    have hrest : FitsRun limit (s ++ d.bytes).length ds := by
      rw [length_append]
      exact hfits.2
    obtain ⟨hrun, hresults⟩ := ih (s ++ d.bytes) _ hds hrest h'
    rw [flatMap_cons, ← append_assoc]
    exact ⟨hrun, List.forall_mem_cons.mpr ⟨hres, hresults⟩⟩

end

variable {ev : Evaluator}

section

variable {waf : WAF} {rg : RuleGroup} {iteration : Nat → Iteration} {tx₀ : Transaction}

/-- The limit was reached and the first bytes were taken. -/
structure Filled (waf : WAF) (ev : Evaluator) (tx₀ : Transaction) (s : Bytes)
    (tx : Transaction) : Prop where
  reached : tx₀.requestBodyLimit ≤ s.length
  content : tx.requestBodyBuffer.content = s.take tx₀.requestBodyLimit.toNat
  inbound : tx.vars.single .inboundDataError = bytesOf "1"
  early : (requestSide waf ev).early tx = some (none, 0, none)

theorem Filled.step {s : Bytes} {tx : Transaction} (h : Filled waf ev tx₀ s tx)
    (d : Delivery) : Filled waf ev tx₀ (s ++ d.bytes) (d.run (requestSide waf ev) tx).2 := by
  have hreached := h.reached
  rw [Delivery.run_early h.early]
  refine ⟨?_, ?_, h.inbound, h.early⟩
  · rw [length_append]
    omega
  · rw [take_append_of_le_length (by omega)]
    exact h.content

theorem Collecting.fill (h₀ : Expecting waf tx₀)
    (haction : waf.requestBodyLimitAction = .processPartial) {s data : Bytes}
    {tx tx' : Transaction} (h : Collecting tx₀ s tx) {buffer : BodyBuffer} {n : Nat}
    (hlimit : tx₀.requestBodyLimit ≤ s.length + data.length)
    (hn : n = tx₀.requestBodyLimit - s.length)
    (happ : tx.requestBodyBuffer.Appended (data.take n) buffer)
    (hkeeps : KeepsRequest { (requestSide waf ev).setDataError tx with
      requestBodyBuffer := buffer } tx') : Filled waf ev tx₀ (s ++ data) tx' := by
  have hbuffer : tx'.requestBodyBuffer = buffer := hkeeps.buffer
  have hlimit' : tx'.requestBodyLimit = tx₀.requestBodyLimit := hkeeps.limit.trans (h.limit)
  have hinbound : tx'.vars.single .inboundDataError = bytesOf "1" :=
    hkeeps.inbound.trans ((Variables.setSingle_single ..).trans (if_pos rfl))
  have hfull : tx'.requestBodyBuffer.length = tx₀.requestBodyLimit := by
    rw [hbuffer, happ.length h.appended.wellFormed, h.length h₀, length_take]
    omega
  refine ⟨?_, ?_, hinbound, ?_⟩
  · rw [length_append]
    omega
  · have htoNat : tx₀.requestBodyLimit.toNat = s.length + n := by omega
    rw [hbuffer, happ.content, h.content h₀, htoNat, take_length_add_append]
  · unfold BodySide.early
    split_ifs with hoff haccess' hlength
    · rfl
    · rfl
    · rw [show (requestSide waf ev).limitAction = .processPartial from haction]
    · exact absurd (hlimit'.trans hfull.symm) hlength

/-- A step with `ProcessPartial`. -/
theorem partial_step (hwaf : waf.KeepsInbound) (h₀ : Expecting waf tx₀)
    (haction : waf.requestBodyLimitAction = .processPartial) (s : Bytes) (tx : Transaction)
    (d : Delivery) (hregular : d.Regular)
    (hfits : d.Fits (min (s.length : Int) tx₀.requestBodyLimit))
    (h : Collecting tx₀ s tx ∨ Filled waf (rg.evaluator iteration) tx₀ s tx) :
    (Collecting tx₀ (s ++ d.bytes) (d.run (requestSide waf (rg.evaluator iteration)) tx).2 ∨
      Filled waf (rg.evaluator iteration) tx₀ (s ++ d.bytes)
        (d.run (requestSide waf (rg.evaluator iteration)) tx).2) ∧
      ∃ it n, (d.run (requestSide waf (rg.evaluator iteration)) tx).1 = some (it, n, none) := by
  rcases h with h | h
  · obtain ⟨out, hstores, hrun⟩ := h.stores h₀ (rg.evaluator iteration) hregular hfits
    rw [hrun]
    have hlength : ((requestSide waf (rg.evaluator iteration)).buffer tx).length = s.length :=
      h.length h₀
    have hlimit : (requestSide waf (rg.evaluator iteration)).limit tx = tx₀.requestBodyLimit :=
      h.limit
    cases hstores with
    | below hlt happ =>
      rw [hlength, hlimit] at hlt
      exact ⟨.inl (h.step happ hlt), _, _, rfl⟩
    | rejected hle hreject tx' => exact absurd (haction.symm.trans hreject) (by decide)
    | @cut buffer n hle hn hpart happ =>
      rw [hlength, hlimit] at hle hn
      exact ⟨.inr (h.fill h₀ haction hle hn happ (processRequestBody_keeps hwaf _)), _, _,
        congrArg some (finish_eq (fun _ => processRequestBody_error _ _) n)⟩
  · refine ⟨.inr (h.step d), none, 0, ?_⟩
    rw [Delivery.run_early h.early]

/-- A step with `Reject`: once the limit was reached there is an interruption. -/
theorem reject_step (h₀ : Expecting waf tx₀)
    (haction : waf.requestBodyLimitAction = .reject) (s : Bytes) (tx : Transaction)
    (d : Delivery) (hregular : d.Regular)
    (hfits : d.Fits (min (s.length : Int) tx₀.requestBodyLimit)) (h : Collecting tx₀ s tx ∨
      tx₀.requestBodyLimit ≤ s.length ∧ tx.interruption = some ⟨0, .deny, 413, []⟩) :
    Collecting tx₀ (s ++ d.bytes) (d.run (requestSide waf ev) tx).2 ∨
      tx₀.requestBodyLimit ≤ (s ++ d.bytes).length ∧
        (d.run (requestSide waf ev) tx).2.interruption = some ⟨0, .deny, 413, []⟩ := by
  rcases h with h | ⟨hreached, hint⟩
  · obtain ⟨out, hstores, hrun⟩ := h.stores h₀ ev hregular hfits
    rw [hrun]
    have hlength : ((requestSide waf ev).buffer tx).length = s.length := h.length h₀
    have hlimit : (requestSide waf ev).limit tx = tx₀.requestBodyLimit := h.limit
    cases hstores with
    | below hlt happ =>
      rw [hlength, hlimit] at hlt
      exact .inl (h.step happ hlt)
    | rejected hle hreject tx' =>
      refine .inr ⟨?_, rfl⟩
      rw [length_append]
      omega
    | cut hle hn hpart happ => exact absurd (haction.symm.trans hpart) (by decide)
  · refine .inr ⟨?_, ?_⟩
    · rw [length_append]
      omega
    · have hlaw := requestSide_lawful waf ev
      have hkeep : ∀ {reached : Prop} {tx' : Transaction},
          (requestSide waf ev).BodyStep reached tx tx' →
          tx'.interruption = some ⟨0, .deny, 413, []⟩ := by
        intro reached tx' hstep
        cases hstep with
        | rejected haction h => rfl
        | filled haction h buffer hoptions => rfl
        | processed hpart buffer hoptions =>
          exact absurd (haction.symm.trans hpart) (by decide)
        | _ => exact hint
      cases d with
      | write b => exact hkeep (writeBody_bodyStep hlaw b tx)
      | read r => exact hkeep (readBodyFrom_bodyStep hlaw r tx)

end

/-- **Body limits do not depend on chunking.**  With `ProcessPartial` the buffer ends up with the
first bytes up to the limit, no call fails or panics, and `INBOUND_DATA_ERROR` is set if and only
if the limit was reached.  With `Reject` the transaction is interrupted if and only if the limit
was reached, and until then the buffer holds what was delivered. -/
theorem bodyLimit_deliveries {waf : WAF} (hprocessors : waf.KeepsInbound) (rg : RuleGroup)
    (iteration : Nat → Iteration) {tx : Transaction} (htx : Expecting waf tx)
    (hint : tx.interruption = none) (hinbound : tx.vars.single .inboundDataError ≠ bytesOf "1")
    {ds : List Delivery} (hregular : ∀ d ∈ ds, d.Regular)
    (hfits : FitsRun tx.requestBodyLimit 0 ds) :
    let side := requestSide waf (rg.evaluator iteration)
    let body := ds.flatMap Delivery.bytes
    let tx' := deliver side ds tx
    (waf.requestBodyLimitAction = .processPartial →
      tx'.requestBodyBuffer.content = body.take tx.requestBodyLimit.toNat ∧
      (∀ res ∈ results side ds tx, ∃ it n, res = some (it, n, none)) ∧
      (tx'.vars.single .inboundDataError = bytesOf "1" ↔ tx.requestBodyLimit ≤ body.length)) ∧
    (waf.requestBodyLimitAction = .reject →
      ((∃ it, tx'.interruption = some it ∧ it.status = 413) ↔
        tx.requestBodyLimit ≤ body.length) ∧
      (tx'.isInterrupted = false → tx'.requestBodyBuffer.content = body)) := by
  intro side body tx'
  have hstart : Collecting tx [] tx := collecting_nil htx.positive htx.wellFormed
  constructor
  · intro haction
    obtain ⟨hend, hresults⟩ := deliver_invariant
      (P := fun s tx' => Collecting tx s tx' ∨ Filled waf (rg.evaluator iteration) tx s tx')
      (Q := fun res => ∃ it n, res = some (it, n, none))
      (partial_step hprocessors htx haction) ds [] tx hregular hfits (.inl hstart)
    rw [nil_append] at hend
    rcases hend with hend | hend
    · have hbelow : body.length < tx.requestBodyLimit := hend.below
      refine ⟨?_, hresults, ?_⟩
      · rw [hend.content htx, take_of_length_le]
        omega
      · constructor
        · intro hset
          exact absurd ((congrArg (·.vars.single .inboundDataError) hend.eq).symm.trans hset)
            hinbound
        · intro hle
          omega
    · exact ⟨hend.content, hresults, fun _ => hend.reached, fun _ => hend.inbound⟩
  · intro haction
    obtain ⟨hend, -⟩ := deliver_invariant (P := fun s tx' => Collecting tx s tx' ∨
        tx.requestBodyLimit ≤ s.length ∧ tx'.interruption = some ⟨0, .deny, 413, []⟩)
      (Q := fun _ => True)
      (fun s tx d hd hfits h => ⟨reject_step htx haction s tx d hd hfits h, trivial⟩)
      ds [] tx hregular hfits (.inl hstart)
    rcases hend with hend | ⟨hreached, hend⟩
    · have hnone : tx'.interruption = none :=
        (congrArg interruption hend.eq).trans hint
      have hbelow : body.length < tx.requestBodyLimit := hend.below
      refine ⟨⟨?_, fun hle => ?_⟩, fun _ => hend.content htx⟩
      · rintro ⟨it, hit, -⟩
        exact absurd (hnone.symm.trans hit) nofun
      · omega
    · refine ⟨⟨fun _ => hreached, fun _ => ⟨_, hend, rfl⟩⟩, fun hnot => ?_⟩
      exact absurd (isInterrupted_eq_false.mp hnot) (by rw [hend]; exact nofun)

def limitWAF (action : BodyLimitAction) : WAF :=
  { WAF.new (fun _ => none) with
    requestBodyAccess := true
    requestBodyLimit := 4
    requestBodyLimitAction := action }

theorem expecting_limitWAF (action : BodyLimitAction) :
    Expecting (limitWAF action) ((limitWAF action).newTransaction .new) := by
  have hpositive : (0 : Int) < 4 := by decide
  have hint64 : 4 ≤ maxInt64 := by decide
  have hengine : RuleEngineStatus.on ≠ .off := by decide
  exact expecting_newTransaction rfl hengine hpositive hint64 (fun _ => rfl) _

/-- Six bytes are delivered in a slice and by a reader without `Len`. -/
def mixedDeliveries : List Delivery :=
  [.write (bytesOf "ab"), .read ⟨[bytesOf "cd", bytesOf "ef"], .eof, false, none⟩]

theorem bodyLimit_deliveries_mixed :
    (deliver (requestSide (limitWAF .processPartial) (evaluator [] (fun _ => .stored)))
      mixedDeliveries ((limitWAF .processPartial).newTransaction .new)).requestBodyBuffer.content
        = bytesOf "abcd" ∧
    ∃ it, (deliver (requestSide (limitWAF .reject) (evaluator [] (fun _ => .stored)))
      mixedDeliveries ((limitWAF .reject).newTransaction .new)).interruption = some it ∧
        it.status = 413 := by
  have hregular : ∀ d ∈ mixedDeliveries, d.Regular := by
    intro d hd
    rcases List.mem_pair.mp hd with rfl | rfl
    · trivial
    · exact ⟨rfl, nofun⟩
  have hfits : FitsRun 4 0 mixedDeliveries := by
    have hwrite : min ((0 : Nat) : Int) 4 + (bytesOf "ab").length < maxInt64 := by decide +kernel
    exact ⟨hwrite, fun h => absurd rfl h, trivial⟩
  have hnone : ∀ action, (limitWAF action).KeepsInbound := fun _ _ _ => nofun
  have hinbound : Variables.new.single .inboundDataError ≠ bytesOf "1" := by decide +kernel
  have hpart := bodyLimit_deliveries (hnone .processPartial) [] (fun _ => .stored)
    (expecting_limitWAF _) rfl hinbound hregular hfits
  have hreject := bodyLimit_deliveries (hnone .reject) [] (fun _ => .stored)
    (expecting_limitWAF _) rfl hinbound hregular hfits
  have htake : (mixedDeliveries.flatMap Delivery.bytes).take 4 = bytesOf "abcd" := by
    decide +kernel
  have hlength : (4 : Int) ≤ (mixedDeliveries.flatMap Delivery.bytes).length := by decide +kernel
  exact ⟨(hpart.1 rfl).1.trans htake, (hreject.2 rfl).1.mpr hlength⟩

/-! ### The check for an overflow -/

theorem run_overflow {waf : WAF} {tx : Transaction}
    (hearly : (requestSide waf ev).early tx = none) {r : Io.Stream} {l : Int}
    (hlen : r.len = some l) (hover : wrap64 (maxInt64 - l) ≤ tx.requestBodyBuffer.length) :
    (Delivery.read r).run (requestSide waf ev) tx
      = (some (none, 0, some (.new "overflow reached while writing request body")), tx) := by
  unfold Delivery.run readBodyFrom
  rw [hearly]
  dsimp only
  rw [hlen]
  dsimp only
  rw [if_pos ⟨rfl, hover⟩]

def hugeBody : Io.Stream := ⟨[List.replicate (2 ^ 63 - 1) 0], .eof, false, some (2 ^ 63 - 1)⟩

theorem hugeBody_length : (hugeBody.content.length : Int) = 2 ^ 63 - 1 := by
  have hcontent : hugeBody.content = List.replicate (2 ^ 63 - 1) 0 := append_nil _
  rw [hcontent, length_replicate]
  rfl

/-- The reader ends well and its `Len` is right, and still the call returns an error. -/
theorem bodyLimit_overflow : Delivery.Regular (.read hugeBody) ∧
    results (requestSide (limitWAF .processPartial) (evaluator [] (fun _ => .stored)))
      [.read hugeBody] ((limitWAF .processPartial).newTransaction .new)
      = [some (none, 0, some (.new "overflow reached while writing request body"))] := by
  refine ⟨⟨rfl, fun l hl => ?_⟩, ?_⟩
  · rw [hugeBody_length]
    exact (Option.some.inj hl).symm
  · unfold results
    rw [run_overflow (l := 2 ^ 63 - 1) rfl rfl (by decide)]
    rfl

end Coraza.Waf
