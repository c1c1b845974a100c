import Coraza.Lib.Lists
import Coraza.Waf.BodyWrites

/-!
# The order of the phases

A transaction may be driven by any sequence of calls, and rules may change the
engine, the limits and the access flags while a phase is evaluated.  The guards of
the entry points only look at the last evaluated phase and at the interruption, and
that is enough: `PhaseStep` says what one call can do to the history of phases,
`ProtocolInv` is kept by each such step, and `runCalls_phaseProtocol` follows for
every sequence of calls and every evaluator.
-/

namespace Coraza.Waf

open Go List BodySide

/-- **What the history of a transaction has to satisfy.**  An entry is a phase and
whether the transaction was interrupted when its evaluation began. -/
structure PhaseProtocol (phases : List (Nat × Bool)) : Prop where
  increasing : ((phases.map Prod.fst).filter (fun p => 1 ≤ p ∧ p ≤ 4)).Pairwise (· < ·)
  requestBody : ∀ before after b, phases = before ++ (phaseRequestBody, b) :: after →
    (before.map Prod.fst).getLast? = some phaseRequestHeaders
  responseBody : ∀ before after b, phases = before ++ (phaseResponseBody, b) :: after →
    (before.map Prod.fst).getLast? = some phaseResponseHeaders
  notInterrupted : ∀ p b, (p, b) ∈ phases → 1 ≤ p → p ≤ 4 → b = false
  logging : ∀ before after b, phases = before ++ (phaseLogging, b) :: after →
    ∀ q ∈ after, ¬(1 ≤ q.1 ∧ q.1 ≤ 4)

/-! ### What a call does to the history -/

/-- A call leaves the history alone or evaluates one phase, under the guard of that
phase. -/
inductive PhaseStep (tx tx' : Transaction) : Prop where
  | stay (hp : tx'.phases = tx.phases) (hl : tx'.lastPhase = tx.lastPhase)
  | headers (p : Nat) (hp : p = phaseRequestHeaders ∨ p = phaseResponseHeaders)
      (hlt : tx.lastPhase < p) (hph : tx'.phases = tx.phases ++ [(p, false)])
      (hl : tx'.lastPhase = p)
  | body (p : Nat) (hp : p = phaseRequestBody ∨ p = phaseResponseBody)
      (hnext : tx.lastPhase + 1 = p) (hph : tx'.phases = tx.phases ++ [(p, false)])
      (hl : tx'.lastPhase = p)
  | logging (b : Bool) (hph : tx'.phases = tx.phases ++ [(phaseLogging, b)])
      (hl : tx'.lastPhase = phaseLogging)

/-- Two states that the guards cannot tell apart. -/
structure SamePhase (tx tx' : Transaction) : Prop where
  phases : tx'.phases = tx.phases
  lastPhase : tx'.lastPhase = tx.lastPhase

theorem SamePhase.refl (tx : Transaction) : SamePhase tx tx := ⟨rfl, rfl⟩

variable {tx tx' : Transaction}

theorem SamePhase.step (h : SamePhase tx tx') : PhaseStep tx tx' :=
  .stay h.phases h.lastPhase

/-- What comes before a step without touching the history does not matter. -/
theorem SamePhase.trans_step {tx tx₁ tx' : Transaction} (h : SamePhase tx tx₁)
    (hs : PhaseStep tx₁ tx') : PhaseStep tx tx' := by
  cases hs with
  | stay hp hl => exact .stay (hp.trans h.phases) (hl.trans h.lastPhase)
  | headers p hp hlt hph hl =>
    exact .headers p hp (h.lastPhase ▸ hlt) (h.phases ▸ hph) hl
  | body p hp hnext hph hl =>
    exact .body p hp (h.lastPhase ▸ hnext) (h.phases ▸ hph) hl
  | logging b hph hl => exact .logging b (h.phases ▸ hph) hl

variable {waf : WAF} {ev : Evaluator}

/-- The functions that evaluate a phase: the guard holds of the state they were called in. -/
theorem PhaseCall.phaseStep {p : Nat} {guard : Prop} {tx : Transaction}
    {out : Option Interruption × Transaction} (h : PhaseCall ev p guard tx out)
    (hguard : guard → (p = phaseRequestHeaders ∨ p = phaseResponseHeaders) ∧ tx.lastPhase < p ∨
      (p = phaseRequestBody ∨ p = phaseResponseBody) ∧ tx.lastPhase + 1 = p) :
    PhaseStep tx out.2 := by
  cases h with
  | stopped => exact (SamePhase.refl tx).step
  | evaluated vars asked hint h =>
    have hnot : Transaction.isInterrupted { tx with vars, asked } = false :=
      Transaction.isInterrupted_eq_false.mpr hint
    have hphases := ev.phases_eval p { tx with vars, asked }
    rw [hnot] at hphases
    rcases hguard h with ⟨hp, hlt⟩ | ⟨hp, hnext⟩
    · exact .headers p hp hlt hphases (ev.lastPhase_eval _ _)
    · exact .body p hp hnext hphases (ev.lastPhase_eval _ _)

theorem processRequestBody_phaseStep (tx : Transaction) :
    PhaseStep tx (processRequestBody waf ev tx).2 :=
  (processRequestBody_call waf ev tx).phaseStep (fun h => .inr ⟨.inl rfl, by rw [h]; rfl⟩)

theorem processResponseBody_phaseStep (tx : Transaction) :
    PhaseStep tx (processResponseBody waf ev tx).2 :=
  (processResponseBody_call waf ev tx).phaseStep (fun h => .inr ⟨.inr rfl, by rw [h]; rfl⟩)

theorem processLogging_phaseStep (tx : Transaction) : PhaseStep tx (processLogging ev tx) := by
  unfold processLogging
  split
  · exact (SamePhase.refl tx).step
  · exact .logging _ (ev.phases_eval _ _) (ev.lastPhase_eval _ _)

/-- Body bytes leave the history alone, unless the body is processed. -/
theorem BodySide.BodyStep.phaseStep {side : BodySide} {reached : Prop}
    (h : side.BodyStep reached tx tx') (hset : ∀ tx buffer, SamePhase tx (side.setBuffer tx buffer))
    (hprocess : ∀ tx, PhaseStep tx (side.process tx).2) : PhaseStep tx tx' := by
  have hmarked : SamePhase tx (side.setDataError tx) := ⟨rfl, rfl⟩
  cases h with
  | same => exact (SamePhase.refl tx).step
  | stored buffer => exact (hset tx buffer).step
  | marked => exact hmarked.step
  | markedStored buffer => exact hmarked.trans_step (hset _ buffer).step
  | rejected => exact .stay rfl rfl
  | filled _ _ buffer =>
    exact hmarked.trans_step (.stay (hset _ buffer).phases (hset _ buffer).lastPhase)
  | processed _ buffer => exact hmarked.trans_step ((hset _ buffer).trans_step (hprocess _))

/-- **One call.** -/
theorem Call.run_phaseStep (waf : WAF) (ev : Evaluator) (tx : Transaction) (call : Call) :
    PhaseStep tx (call.run waf ev tx) := by
  cases call with
  | feed f => exact .stay rfl rfl
  | processRequestHeaders =>
    exact (processRequestHeaders_call ev tx).phaseStep (fun h => .inl ⟨.inl rfl, h⟩)
  | writeRequestBody b =>
    exact (writeBody_bodyStep (requestSide_lawful waf ev) b tx).phaseStep
      (fun _ _ => ⟨rfl, rfl⟩) processRequestBody_phaseStep
  | readRequestBodyFrom r =>
    exact (readBodyFrom_bodyStep (requestSide_lawful waf ev) r tx).phaseStep
      (fun _ _ => ⟨rfl, rfl⟩) processRequestBody_phaseStep
  | processRequestBody => exact processRequestBody_phaseStep tx
  | processResponseHeaders code proto =>
    exact (processResponseHeaders_call ev code proto tx).phaseStep (fun h => .inl ⟨.inr rfl, h⟩)
  | writeResponseBody b =>
    exact (writeBody_bodyStep (responseSide_lawful waf ev) b tx).phaseStep
      (fun _ _ => ⟨rfl, rfl⟩) processResponseBody_phaseStep
  | readResponseBodyFrom r =>
    exact (readBodyFrom_bodyStep (responseSide_lawful waf ev) r tx).phaseStep
      (fun _ _ => ⟨rfl, rfl⟩) processResponseBody_phaseStep
  | processResponseBody => exact processResponseBody_phaseStep tx
  | processLogging => exact processLogging_phaseStep tx

/-! ### The invariant -/

/-- The last phase is that of the history, bounds those before it, and is the logging
phase once that has been evaluated. -/
structure ProtocolInv (phases : List (Nat × Bool)) (lastPhase : Nat) : Prop where
  protocol : PhaseProtocol phases
  last : lastPhase = ((phases.map Prod.fst).getLast?).getD 0
  bound : ∀ q ∈ phases, q.1 ≤ lastPhase
  small : lastPhase ≤ phaseLogging
  logged : ∀ q ∈ phases, q.1 = phaseLogging → lastPhase = phaseLogging

theorem protocolInv_nil : ProtocolInv [] 0 := by
  refine ⟨⟨List.Pairwise.nil, ?_, ?_, ?_, ?_⟩, rfl, ?_, Nat.zero_le _, ?_⟩
  · intro before after b h
    exact absurd h (by simp)
  · intro before after b h
    exact absurd h (by simp)
  · intro p b h
    exact absurd h not_mem_nil
  · intro before after b h
    exact absurd h (by simp)
  · intro q h
    exact absurd h not_mem_nil
  · intro q h
    exact absurd h not_mem_nil

/-- **A guarded evaluation keeps the protocol.**  The four guards are: not before a
phase in `1..4` that is later, a body phase right after its header phase, no
interruption, and nothing in `1..4` after the logging phase. -/
theorem PhaseProtocol.append {phases : List (Nat × Bool)} (h : PhaseProtocol phases)
    {p : Nat} {b : Bool} (hinc : 1 ≤ p → p ≤ 4 → ∀ q ∈ phases, q.1 < p)
    (hreq : p = phaseRequestBody → (phases.map Prod.fst).getLast? = some phaseRequestHeaders)
    (hres : p = phaseResponseBody → (phases.map Prod.fst).getLast? = some phaseResponseHeaders)
    (hint : 1 ≤ p → p ≤ 4 → b = false) : PhaseProtocol (phases ++ [(p, b)]) := by
  refine ⟨?_, ?_, ?_, ?_, ?_⟩
  · rw [map_append, filter_append, pairwise_append]
    refine ⟨h.increasing, ?_, fun x hx y hy => ?_⟩
    · exact (pairwise_singleton _ _).filter _
    · obtain ⟨hx, -⟩ := List.mem_filter.mp hx
      obtain ⟨q, hq, rfl⟩ := List.mem_map.mp hx
      obtain ⟨hy, hrange⟩ := List.mem_filter.mp hy
      simp only [map_cons, map_nil, mem_singleton] at hy
      subst hy
      have hrange := of_decide_eq_true hrange
      exact hinc hrange.1 hrange.2 q hq
  · intro before after b' heq
    rcases Lists.append_singleton_cases heq with ⟨rfl, hy, -⟩ | ⟨after', -, hl⟩
    · injection hy with hp
      exact hreq hp.symm
    · exact h.requestBody before after' b' hl
  · intro before after b' heq
    rcases Lists.append_singleton_cases heq with ⟨rfl, hy, -⟩ | ⟨after', -, hl⟩
    · injection hy with hp
      exact hres hp.symm
    · exact h.responseBody before after' b' hl
  · intro q b' hmem h1 h4
    rcases List.mem_append.mp hmem with hmem | hmem
    · exact h.notInterrupted q b' hmem h1 h4
    · rw [mem_singleton] at hmem
      injection hmem with hq hb
      subst hq hb
      exact hint h1 h4
  · intro before after b' heq q hq
    rcases Lists.append_singleton_cases heq with ⟨-, -, rfl⟩ | ⟨after', rfl, hl⟩
    · exact absurd hq not_mem_nil
    · rcases List.mem_append.mp hq with hq | hq
      · exact h.logging before after' b' hl q hq
      · rw [mem_singleton] at hq
        subst hq
        rintro ⟨h1, h4⟩
        have hlt := hinc h1 h4 (phaseLogging, b') (by rw [hl]; simp)
        exact absurd hlt (by unfold phaseLogging; omega)

theorem ProtocolInv.append {phases : List (Nat × Bool)} {lastPhase p : Nat} {b : Bool}
    (h : ProtocolInv phases lastPhase) (hp : p ≤ phaseLogging) (hlt : p ≤ 4 → lastPhase < p)
    (hreq : p = phaseRequestBody → lastPhase = phaseRequestHeaders)
    (hres : p = phaseResponseBody → lastPhase = phaseResponseHeaders)
    (hint : p ≤ 4 → b = false) : ProtocolInv (phases ++ [(p, b)]) p := by
  have hbefore : p ≤ 4 → ∀ q ∈ phases, q.1 < p := fun h4 q hq =>
    lt_of_le_of_lt (h.bound q hq) (hlt h4)
  have hget : ∀ q, 0 < q → lastPhase = q → (phases.map Prod.fst).getLast? = some q := by
    rintro q hq rfl
    have hlast := h.last
    cases hg : (phases.map Prod.fst).getLast? with
    | none =>
      rw [hg, Option.getD_none] at hlast
      omega
    | some q =>
      rw [hg, Option.getD_some] at hlast
      rw [hlast]
  refine ⟨h.protocol.append (fun _ => hbefore) (fun hc => hget _ (by decide) (hreq hc))
    (fun hc => hget _ (by decide) (hres hc)) (fun _ => hint), ?_, fun q hq => ?_, hp,
    fun q hq hlog => ?_⟩
  · rw [map_append, List.getLast?_append]
    rfl
  · rcases List.mem_append.mp hq with hq | hq
    · rcases Nat.lt_or_ge 4 p with h5 | h4
      · exact ((h.bound q hq).trans h.small).trans h5
      · exact le_of_lt (hbefore h4 q hq)
    · rw [List.mem_singleton.mp hq]
  · rcases List.mem_append.mp hq with hq | hq
    · rcases Nat.lt_or_ge 4 p with h5 | h4
      · exact le_antisymm hp h5
      · have hlt := hbefore h4 q hq
        omega
    · rw [List.mem_singleton.mp hq] at hlog
      exact hlog

/-- **What one call can do keeps the invariant.** -/
theorem ProtocolInv.step (h : ProtocolInv tx.phases tx.lastPhase)
    (hs : PhaseStep tx tx') : ProtocolInv tx'.phases tx'.lastPhase := by
  cases hs with
  | stay hp hl =>
    rw [hp, hl]
    exact h
  | headers p hp hlt hph hl =>
    rw [hph, hl]
    refine h.append ?_ (fun _ => hlt) (fun hc => ?_) (fun hc => ?_) (fun _ => rfl)
    · rcases hp with rfl | rfl <;> decide
    · rcases hp with rfl | rfl <;> exact absurd hc (by decide)
    · rcases hp with rfl | rfl <;> exact absurd hc (by decide)
  | body p hp hnext hph hl =>
    rw [hph, hl]
    refine h.append ?_ (fun _ => by omega) (fun hc => ?_) (fun hc => ?_) (fun _ => rfl)
    · rcases hp with rfl | rfl <;> decide
    · exact Nat.succ_injective (hnext.trans hc)
    · exact Nat.succ_injective (hnext.trans hc)
  | logging b hph hl =>
    rw [hph, hl]
    exact h.append le_rfl (fun hc => absurd hc (by decide)) (fun hc => absurd hc (by decide))
      (fun hc => absurd hc (by decide)) (fun hc => absurd hc (by decide))

theorem runCalls_protocolInv (waf : WAF) (ev : Evaluator) (calls : List Call) (tx : Transaction)
    (h : ProtocolInv tx.phases tx.lastPhase) :
    ProtocolInv (runCalls waf ev calls tx).phases (runCalls waf ev calls tx).lastPhase :=
  List.foldlRecOn (motive := fun tx => ProtocolInv tx.phases tx.lastPhase) calls _ h
    (fun tx h call _ => h.step (call.run_phaseStep waf ev tx))

/-- **The phase protocol.**  Whatever the rules do, and in whatever order the entry
points are called, the phases of a transaction are evaluated as the protocol says. -/
theorem runCalls_phaseProtocol (waf : WAF) (ev : Evaluator) (vars : Variables)
    (calls : List Call) : PhaseProtocol (runCalls waf ev calls (waf.newTransaction vars)).phases :=
  (runCalls_protocolInv waf ev calls _ protocolInv_nil).protocol

end Coraza.Waf
