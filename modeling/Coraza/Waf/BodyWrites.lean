import Coraza.Waf.Processing

/-!
# What the functions for body bytes do

`writeBody` and `readBodyFrom` store bytes up to the limit of a body.  When the buffer has room
for that many bytes (`Accepts`), storing does not fail, and both do the same: the bytes stay
below the limit, or they reach it and the limit action decides (`writeBody_stores`,
`readBodyFrom_stores`).
-/

namespace Coraza.Waf

open Go BodySide BodyBuffer

namespace BodySide

/-- The buffer, the limit and the variables of a side are different parts of a transaction. -/
structure Lawful (side : BodySide) : Prop where
  buffer_set : ∀ tx buffer, side.buffer (side.setBuffer tx buffer) = buffer
  limit_set : ∀ tx buffer, side.limit (side.setBuffer tx buffer) = side.limit tx
  buffer_vars : ∀ (tx : Transaction) f, side.buffer (tx.modifyVariables f) = side.buffer tx
  limit_vars : ∀ (tx : Transaction) f, side.limit (tx.modifyVariables f) = side.limit tx
  buffer_interruption : ∀ (tx : Transaction) interruption,
    side.buffer { tx with interruption } = side.buffer tx
  vars_set : ∀ (tx : Transaction) buffer f,
    (side.setBuffer tx buffer).modifyVariables f = side.setBuffer (tx.modifyVariables f) buffer

theorem requestSide_lawful (waf : WAF) (ev : Evaluator) : (requestSide waf ev).Lawful :=
  ⟨fun _ _ => rfl, fun _ _ => rfl, fun _ _ => rfl, fun _ _ => rfl, fun _ _ => rfl,
    fun _ _ _ => rfl⟩

theorem responseSide_lawful (waf : WAF) (ev : Evaluator) : (responseSide waf ev).Lawful :=
  ⟨fun _ _ => rfl, fun _ _ => rfl, fun _ _ => rfl, fun _ _ => rfl, fun _ _ => rfl,
    fun _ _ _ => rfl⟩

theorem Lawful.buffer_setDataError {side : BodySide} (h : side.Lawful) (tx : Transaction) :
    side.buffer (side.setDataError tx) = side.buffer tx := h.buffer_vars tx _

theorem Lawful.limit_setDataError {side : BodySide} (h : side.Lawful) (tx : Transaction) :
    side.limit (side.setDataError tx) = side.limit tx := h.limit_vars tx _

/-- The buffer has room for a body up to the limit. -/
structure Accepts (side : BodySide) (tx : Transaction) : Prop where
  wellFormed : (side.buffer tx).WellFormed
  within : (side.buffer tx).length ≤ side.limit tx
  limit : side.limit tx ≤ (side.buffer tx).options.limit
  int64 : side.limit tx ≤ maxInt64
  files : side.limit tx ≤ (side.buffer tx).options.memoryLimit ∨ ∀ n, side.files n = .good

def returned (out : BodyResult × Transaction) : Option BodyResult × Transaction :=
  (some out.1, out.2)

variable {r : Io.Stream}

section

variable {side : BodySide} (hlaw : side.Lawful) {tx : Transaction}

include hlaw

theorem Accepts.setDataError (h : side.Accepts tx) : side.Accepts (side.setDataError tx) := by
  have hbuffer := hlaw.buffer_setDataError tx
  have hlimit := hlaw.limit_setDataError tx
  constructor
  · rw [hbuffer]
    exact h.wellFormed
  · rw [hbuffer, hlimit]
    exact h.within
  · rw [hbuffer, hlimit]
    exact h.limit
  · rw [hlimit]
    exact h.int64
  · rw [hbuffer, hlimit]
    exact h.files

omit hlaw

theorem Accepts.length_nonneg (h : side.Accepts tx) : 0 ≤ (side.buffer tx).length := by
  rw [h.wellFormed.length]
  exact Int.natCast_nonneg _

theorem Accepts.wrap64_left (h : side.Accepts tx) : wrap64 (side.limit tx - (side.buffer tx).length)
      = side.limit tx - (side.buffer tx).length := by
  have hlength := h.length_nonneg
  have hwithin := h.within
  have hlimit := h.int64
  unfold maxInt64 at hlimit
  exact wrap64_of_range (by omega) (by omega)

/-- The end of the four functions reports what it has taken, unless there is an interruption. -/
theorem finish_eq {run : Bool} (hprocess : run = true → (side.process tx).1.2 = none) (w : Nat) :
    (side.finish run w tx).1 = ((side.finish run w tx).2.interruption, (w : Int), none) := by
  unfold finish
  cases run with
  | false => rfl
  | true =>
    have herr := hprocess rfl
    generalize side.process tx = out at herr ⊢
    obtain ⟨⟨it, err⟩, tx'⟩ := out
    subst herr
    rfl

theorem Accepts.write (h : side.Accepts tx) {data : Bytes}
    (hlimit : (side.buffer tx).length + data.length ≤ side.limit tx) :
    ((side.buffer tx).write side.files data).1 = (data.length, none) ∧
      (side.buffer tx).Appended data ((side.buffer tx).write side.files data).2 := by
  have htaken : ((side.buffer tx).write side.files data).1 = (data.length, none) :=
    write_taken (Int.le_trans hlimit h.limit) (h.files.imp (Int.le_trans hlimit) id)
  exact ⟨htaken, write_appended h.wellFormed (congrArg Prod.fst htaken)⟩

theorem Accepts.store (h : side.Accepts tx) {b : Bytes} {n : Int} (hn0 : 0 ≤ n)
    (hn : n ≤ b.length) (hlimit : (side.buffer tx).length + n ≤ side.limit tx) (run : Bool) :
    ∃ buffer, (side.buffer tx).Appended (b.take n.toNat) buffer ∧
      side.store b n run tx = returned (side.finish run n.toNat (side.setBuffer tx buffer)) := by
  have hlen : (b.take n.toNat).length = n.toNat := by
    rw [List.length_take]
    omega
  have hroom : (side.buffer tx).length + (b.take n.toNat).length ≤ side.limit tx := by
    omega
  obtain ⟨hres, happ⟩ := h.write hroom
  refine ⟨_, happ, ?_⟩
  unfold BodySide.store sliceTo
  rw [if_pos ⟨hn0, hn⟩]
  dsimp only
  generalize BodyBuffer.write side.files (side.buffer tx) (b.take n.toNat) = out at hres ⊢
  obtain ⟨⟨w, err⟩, buffer⟩ := out
  obtain ⟨rfl, rfl⟩ := Prod.mk.inj hres
  rw [hlen]
  rfl

/-- What the four functions do with the bytes `data` after their first checks. -/
inductive Stores (side : BodySide) (data : Bytes) (tx : Transaction) :
    BodyResult × Transaction → Prop where
  /-- The bytes stay below the limit. -/
  | below {buffer : BodyBuffer} (hlimit : (side.buffer tx).length + data.length < side.limit tx)
      (happ : (side.buffer tx).Appended data buffer) :
      Stores side data tx (side.finish false data.length (side.setBuffer tx buffer))
  /-- They reach it, and are rejected. -/
  | rejected (hlimit : side.limit tx ≤ (side.buffer tx).length + data.length)
      (haction : side.limitAction = .reject) (tx' : Transaction) :
      Stores side data tx (setAndReturnBodyLimitInterruption tx' side.status)
  /-- They reach it, and the first ones are taken. -/
  | cut {buffer : BodyBuffer} {n : Nat}
      (hlimit : side.limit tx ≤ (side.buffer tx).length + data.length)
      (hn : n = side.limit tx - (side.buffer tx).length)
      (haction : side.limitAction = .processPartial)
      (happ : (side.buffer tx).Appended (data.take n) buffer) :
      Stores side data tx (side.finish true n (side.setBuffer (side.setDataError tx) buffer))

include hlaw in
theorem writeBody_checked (hearly : side.early tx = none) {b : Bytes}
    (hoverflow : side.checksOverflow = true → (side.buffer tx).length < maxInt64 - b.length) :
    side.writeBody b tx = if (side.buffer tx).length + b.length ≥ side.limit tx then
        match side.limitAction with
        | .reject => returned (setAndReturnBodyLimitInterruption (side.setDataError tx) side.status)
        | .processPartial => side.store b
            (wrap64 (side.limit tx - (side.buffer tx).length)) true (side.setDataError tx)
      else side.store b b.length false tx := by
  unfold writeBody
  rw [hearly]
  dsimp only
  rw [if_neg (fun hc => absurd (hoverflow hc.1) (Int.not_lt.mpr hc.2))]
  unfold setDataError
  rw [hlaw.limit_vars]
  rfl

include hlaw in
/-- **`WriteRequestBody` and `WriteResponseBody`.** -/
theorem writeBody_stores (h : side.Accepts tx) (hearly : side.early tx = none) {b : Bytes}
    (hoverflow : side.checksOverflow = true → (side.buffer tx).length < maxInt64 - b.length) :
    ∃ out, Stores side b tx out ∧ side.writeBody b tx = returned out := by
  have hunfold := writeBody_checked hlaw hearly hoverflow
  by_cases hlimit : (side.buffer tx).length + b.length ≥ side.limit tx
  · rw [if_pos hlimit] at hunfold
    cases haction : side.limitAction with
    | reject =>
      rw [haction] at hunfold
      exact ⟨_, .rejected hlimit haction _, hunfold⟩
    | processPartial =>
      have hwithin := h.within
      have hset := h.setDataError hlaw
      have hbuffer := hlaw.buffer_setDataError tx
      have hlimit' := hlaw.limit_setDataError tx
      rw [haction, h.wrap64_left] at hunfold
      obtain ⟨buffer, happ, hstore⟩ := hset.store (b := b)
        (n := side.limit tx - (side.buffer tx).length) (by omega) (by omega)
        (by rw [hbuffer]; omega) true
      rw [hbuffer] at happ
      exact ⟨_, .cut hlimit (by omega) haction happ, hunfold.trans hstore⟩
  · rw [if_neg hlimit] at hunfold
    obtain ⟨buffer, happ, hstore⟩ := h.store (b := b) (n := b.length) (by omega) (Int.le_refl _)
      (by omega) false
    rw [Int.toNat_natCast] at happ hstore
    rw [List.take_length] at happ
    exact ⟨_, .below (by omega) happ, hunfold.trans hstore⟩

theorem Accepts.copyFrom (h : side.Accepts tx) (hlast : r.last = .eof) {n : Int}
    (hn0 : 0 ≤ n) (hlimit : (side.buffer tx).length + n ≤ side.limit tx) (run : Bool) :
    ∃ buffer r', (side.buffer tx).Appended (r.content.take n.toNat) buffer ∧
      side.copyFrom r n run tx =
        ((side.afterCopy run (r.content.take n.toNat).length (side.setBuffer tx buffer)).1, r',
          (side.afterCopy run (r.content.take n.toNat).length (side.setBuffer tx buffer)).2) := by
  have hwrite : ∀ acc br' b, b ≠ [] → (side.buffer tx).Appended acc br' →
      (br'.write side.files b).1 = (b.length, none) →
      (side.buffer tx).Appended (acc ++ b) (br'.write side.files b).2 :=
    fun acc br' b _ happ hres =>
      happ.trans (write_appended happ.wellFormed (congrArg Prod.fst hres))
  have hnil : (side.buffer tx).Appended [] (side.buffer tx) :=
    ⟨(List.append_nil _).symm, rfl, h.wellFormed⟩
  have hfuel : r.weight < r.weight + 1 := Nat.lt_succ_self _
  rcases Io.Reads.copyN_cases (fun _ => Io.Stream.reads) Io.Stream.read_length hwrite hfuel hnil
    hn0 with hcopied | ⟨taken, b, br', happ, hb, hpre, hrefused, -, -, -⟩
  · unfold BodySide.copyFrom
    dsimp only
    generalize Io.copyN Io.Stream.read (BodyBuffer.write side.files) (r.weight + 1) r
      (side.buffer tx) n = out at hcopied ⊢
    obtain ⟨⟨w, err⟩, r', buffer⟩ := out
    have hgood : ¬ (err ≠ none ∧ err ≠ some .eof) := by
      rintro ⟨hnone, heof⟩
      by_cases hfull : n ≤ r.content.length
      · exact hnone (hcopied.full hfull)
      · obtain ⟨e, he, hend⟩ := hcopied.error (by omega)
        rcases hend with rfl | hend
        · exact heof he
        · exact heof (he.trans (congrArg some (hend.trans hlast)))
    obtain rfl : w = (r.content.take n.toNat).length := hcopied.written
    refine ⟨buffer, r', hcopied.taken, ?_⟩
    rw [if_neg hgood]
  · -- the buffer has room for what is copied
    refine absurd ?_ hrefused
    have hle := hpre.length_le
    have hlength := happ.length h.wellFormed
    rw [List.length_append, List.length_take] at hle
    have hroom : br'.length + b.length ≤ side.limit tx := by
      omega
    refine write_taken ?_ ?_
    · rw [happ.options]
      exact Int.le_trans hroom h.limit
    · rw [happ.options]
      exact h.files.imp (Int.le_trans hroom) id

include hlaw in
theorem afterCopy_below {buffer : BodyBuffer} (h : buffer.length ≠ side.limit tx) (run : Bool)
    (w : Nat) : side.afterCopy run w (side.setBuffer tx buffer)
      = side.finish run w (side.setBuffer tx buffer) := by
  unfold afterCopy
  rw [hlaw.buffer_set, hlaw.limit_set, if_neg h]

include hlaw in
/-- After a copy that fills the buffer the limit action decides. -/
theorem afterCopy_full {buffer : BodyBuffer} (h : buffer.length = side.limit tx) (run : Bool)
    (w : Nat) : side.afterCopy run w (side.setBuffer tx buffer)
      = match side.limitAction with
        | .reject => setAndReturnBodyLimitInterruption
            (side.setBuffer (side.setDataError tx) buffer) side.status
        | .processPartial => side.finish true w (side.setBuffer (side.setDataError tx) buffer) := by
  have hset : side.setDataError (side.setBuffer tx buffer)
      = side.setBuffer (side.setDataError tx) buffer := hlaw.vars_set tx buffer _
  unfold afterCopy
  rw [hlaw.buffer_set, hlaw.limit_set, if_pos h]
  cases side.limitAction with
  | reject => exact congrArg (fun tx => setAndReturnBodyLimitInterruption tx side.status) hset
  | processPartial => exact congrArg (side.finish true w) hset

theorem setDataError_idem (tx : Transaction) :
    side.setDataError (side.setDataError tx) = side.setDataError tx := by
  unfold setDataError Transaction.modifyVariables Variables.setSingle
  simp only [Function.update_idem]

include hlaw in
/-- **`ReadRequestBodyFrom` and `ReadResponseBodyFrom`**, for a stream that ends well and whose
`Len`, if there is one, is right. -/
theorem readBodyFrom_stores (h : side.Accepts tx) (hearly : side.early tx = none)
    (hlast : r.last = .eof) (hlen : ∀ l, r.len = some l → l = r.content.length)
    (hoverflow : r.len ≠ none → (side.buffer tx).length + r.content.length < maxInt64) :
    ∃ out r', Stores side r.content tx out ∧ side.readBodyFrom r tx = (out.1, r', out.2) := by
  have hwithin := h.within
  have hpos := h.length_nonneg
  -- everything fits below the limit
  have hbelow : (side.buffer tx).length + r.content.length < side.limit tx → ∀ n : Int,
      r.content.length ≤ n → (side.buffer tx).length + n ≤ side.limit tx →
      ∃ out r', Stores side r.content tx out ∧ side.copyFrom r n false tx = (out.1, r', out.2) := by
    intro hlt n hn hroom
    obtain ⟨buffer, r', happ, heq⟩ := h.copyFrom hlast (by omega) hroom false
    rw [List.take_of_length_le (by omega)] at happ heq
    have hne : buffer.length ≠ side.limit tx := by
      rw [happ.length h.wellFormed]
      omega
    rw [afterCopy_below hlaw hne] at heq
    exact ⟨_, r', .below hlt happ, heq⟩
  -- the buffer is filled
  have hfull : side.limit tx ≤ (side.buffer tx).length + r.content.length →
      ∀ (tx₁ : Transaction) (run : Bool), side.Accepts tx₁ → side.buffer tx₁ = side.buffer tx →
      side.limit tx₁ = side.limit tx → side.setDataError tx₁ = side.setDataError tx →
      ∃ out r', Stores side r.content tx out ∧
        side.copyFrom r (side.limit tx - (side.buffer tx).length) run tx₁ = (out.1, r', out.2) := by
    intro hle tx₁ run haccepts hbuffer hlimit hset
    have hn : ((side.limit tx - (side.buffer tx).length).toNat : Int)
        = side.limit tx - (side.buffer tx).length := Int.toNat_of_nonneg (by omega)
    obtain ⟨buffer, r', happ, heq⟩ := haccepts.copyFrom hlast
      (n := side.limit tx - (side.buffer tx).length) (by omega) (by rw [hbuffer]; omega) run
    rw [hbuffer] at happ
    have hlength : (r.content.take (side.limit tx - (side.buffer tx).length).toNat).length
        = (side.limit tx - (side.buffer tx).length).toNat := by
      rw [List.length_take]
      omega
    have hfilled : buffer.length = side.limit tx₁ := by
      rw [happ.length h.wellFormed]
      omega
    rw [hlength, afterCopy_full hlaw hfilled, hset] at heq
    cases haction : side.limitAction with
    | reject =>
      rw [haction] at heq
      exact ⟨_, r', .rejected hle haction _, heq⟩
    | processPartial =>
      rw [haction] at heq
      exact ⟨_, r', .cut hle hn haction happ, heq⟩
  unfold readBodyFrom
  rw [hearly]
  dsimp only
  cases hl : r.len with
  | none =>
    rw [h.wrap64_left]
    by_cases hlt : (side.buffer tx).length + r.content.length < side.limit tx
    · exact hbelow hlt _ (by omega) (by omega)
    · exact hfull (by omega) tx false h rfl rfl rfl
  | some l =>
    obtain rfl := hlen l hl
    have hover := hoverflow (by rw [hl]; exact nofun)
    have hmax : maxInt64 = 2 ^ 63 - 1 := rfl
    have hwrap₁ : wrap64 (maxInt64 - (r.content.length : Int)) = maxInt64 - r.content.length :=
      wrap64_of_range (by omega) (by omega)
    have hwrap₂ : wrap64 ((side.buffer tx).length + (r.content.length : Int))
        = (side.buffer tx).length + r.content.length := wrap64_of_range (by omega) (by omega)
    dsimp only
    rw [if_neg (by omega)]
    by_cases hlt : (side.buffer tx).length + r.content.length < side.limit tx
    · rw [if_neg (by omega)]
      exact hbelow hlt _ (by omega) (by omega)
    · rw [if_pos (by omega)]
      have hlimit := hlaw.limit_setDataError tx
      cases haction : side.limitAction with
      | reject => exact ⟨_, r, .rejected (by omega) haction _, rfl⟩
      | processPartial =>
        rw [hlimit, h.wrap64_left]
        exact hfull (by omega) (side.setDataError tx) true (h.setDataError hlaw)
          (hlaw.buffer_setDataError tx) hlimit (setDataError_idem tx)

end

/-! ### Everything that a call can do -/

/-- The bytes of a call of `WriteRequestBody` or `WriteResponseBody` reach the limit. -/
def WriteReaches (side : BodySide) (b : Bytes) (tx : Transaction) : Prop :=
  side.early tx = none ∧
    ¬(side.checksOverflow ∧ (side.buffer tx).length ≥ maxInt64 - (b.length : Int)) ∧
    side.limit tx ≤ (side.buffer tx).length + b.length

/-- The bytes of a reader reach the limit: it says that it has so many, or so many are copied. -/
def ReadReaches (side : BodySide) (r : Io.Stream) (tx : Transaction) : Prop :=
  side.early tx = none ∧
    match r.len with
    | none => side.limit tx ≤ (side.buffer tx).length + r.content.length
    | some l => ¬(side.checksOverflow ∧ (side.buffer tx).length ≥ wrap64 (maxInt64 - l)) ∧
        (side.limit tx ≤ wrap64 ((side.buffer tx).length + l) ∨
          side.limit tx ≤ (side.buffer tx).length + (min l.toNat r.content.length : Nat))

/-- What the four functions can do to a transaction; `reached` is that the limit was reached. -/
inductive BodyStep (side : BodySide) (reached : Prop) (tx : Transaction) : Transaction → Prop where
  | same : BodyStep side reached tx tx
  | stored (buffer : BodyBuffer) (hoptions : buffer.options = (side.buffer tx).options) :
      BodyStep side reached tx (side.setBuffer tx buffer)
  /-- The limit was reached, and an error or a panic has ended the call. -/
  | marked : BodyStep side reached tx (side.setDataError tx)
  | markedStored (buffer : BodyBuffer) (hoptions : buffer.options = (side.buffer tx).options) :
      BodyStep side reached tx (side.setBuffer (side.setDataError tx) buffer)
  /-- A body that is rejected interrupts the transaction. -/
  | rejected (haction : side.limitAction = .reject) (h : reached) :
      BodyStep side reached tx
        (setAndReturnBodyLimitInterruption (side.setDataError tx) side.status).2
  | filled (haction : side.limitAction = .reject) (h : reached) (buffer : BodyBuffer)
      (hoptions : buffer.options = (side.buffer tx).options) :
      BodyStep side reached tx (setAndReturnBodyLimitInterruption
        (side.setBuffer (side.setDataError tx) buffer) side.status).2
  /-- One that is processed in part is processed. -/
  | processed (haction : side.limitAction = .processPartial) (buffer : BodyBuffer)
      (hoptions : buffer.options = (side.buffer tx).options) :
      BodyStep side reached tx (side.process (side.setBuffer (side.setDataError tx) buffer)).2

section

variable {side : BodySide} (hlaw : side.Lawful)

theorem BodyStep.mono {reached reached' : Prop} {tx tx' : Transaction}
    (h : BodyStep side reached tx tx') (himp : reached → reached') :
    BodyStep side reached' tx tx' := by
  cases h with
  | same => exact .same
  | stored buffer hoptions => exact .stored buffer hoptions
  | marked => exact .marked
  | markedStored buffer hoptions => exact .markedStored buffer hoptions
  | rejected haction h => exact .rejected haction (himp h)
  | filled haction h buffer hoptions => exact .filled haction (himp h) buffer hoptions
  | processed haction buffer hoptions => exact .processed haction buffer hoptions

include hlaw

theorem writeBody_bodyStep (b : Bytes) (tx : Transaction) :
    BodyStep side (side.WriteReaches b tx) tx (side.writeBody b tx).2 := by
  unfold writeBody
  split
  · exact .same
  rename_i hearly
  dsimp only
  split
  · exact .same
  rename_i hover
  split
  · rename_i hreached
    cases haction : side.limitAction with
    | reject => exact .rejected haction ⟨hearly, hover, hreached⟩
    | processPartial =>
      have hoptions : ∀ data, ((side.buffer (side.setDataError tx)).write side.files data).2.options
          = (side.buffer tx).options := by
        intro data
        rw [write_options]
        exact congrArg options (hlaw.buffer_setDataError tx)
      dsimp only
      unfold BodySide.store
      split
      · exact .marked
      · dsimp only
        split
        · exact .markedStored _ (hoptions _)
        · exact .processed haction _ (hoptions _)
  · unfold BodySide.store
    split
    · exact .same
    · dsimp only
      split
      · exact .stored _ (write_options ..)
      · exact .stored _ (write_options ..)

theorem copyFrom_bodyStep (r : Io.Stream) (n : Int) (tx : Transaction) :
    BodyStep side
      (side.limit tx ≤ (side.buffer tx).length + (min n.toNat r.content.length : Nat)) tx
      (side.copyFrom r n false tx).2.2 := by
  have hlength := copyN_length side.files (side.buffer tx) r (r.weight + 1) n
  have hoptions := copyN_options side.files (side.buffer tx) r (r.weight + 1) n
  unfold BodySide.copyFrom
  generalize Io.copyN Io.Stream.read (BodyBuffer.write side.files) (r.weight + 1) r
    (side.buffer tx) n = out at hlength hoptions ⊢
  obtain ⟨⟨w, err⟩, r', buffer⟩ := out
  dsimp only at hlength hoptions ⊢
  split
  · exact .stored buffer hoptions
  · by_cases hfull : buffer.length = side.limit tx
    · rw [afterCopy_full hlaw hfull]
      cases haction : side.limitAction with
      | reject => exact .filled haction (hfull ▸ hlength) buffer hoptions
      | processPartial => exact .processed haction buffer hoptions
    · rw [afterCopy_below hlaw hfull]
      exact .stored buffer hoptions

theorem copyFrom_marked_bodyStep {reached : Prop} (haction : side.limitAction = .processPartial)
    (r : Io.Stream) (n : Int) (tx : Transaction) :
    BodyStep side reached tx (side.copyFrom r n true (side.setDataError tx)).2.2 := by
  have hbuffer := hlaw.buffer_setDataError tx
  have hoptions := copyN_options side.files (side.buffer tx) r (r.weight + 1) n
  unfold BodySide.copyFrom
  rw [hbuffer]
  generalize Io.copyN Io.Stream.read (BodyBuffer.write side.files) (r.weight + 1) r
    (side.buffer tx) n = out at hoptions ⊢
  obtain ⟨⟨w, err⟩, r', buffer⟩ := out
  dsimp only at hoptions ⊢
  split
  · exact .markedStored buffer hoptions
  · by_cases hfull : buffer.length = side.limit (side.setDataError tx)
    · rw [afterCopy_full hlaw hfull, setDataError_idem, haction]
      exact .processed haction buffer hoptions
    · rw [afterCopy_below hlaw hfull]
      exact .processed haction buffer hoptions

theorem readBodyFrom_bodyStep (r : Io.Stream) (tx : Transaction) :
    BodyStep side (side.ReadReaches r tx) tx (side.readBodyFrom r tx).2.2 := by
  unfold readBodyFrom
  cases hearly : side.early tx with
  | some res => exact .same
  | none =>
    dsimp only
    cases hlen : r.len with
    | none =>
      refine (copyFrom_bodyStep hlaw r _ tx).mono (fun hreached => ⟨hearly, ?_⟩)
      rw [hlen]
      dsimp only
      omega
    | some l =>
      have hreaches : ¬(side.checksOverflow ∧ (side.buffer tx).length ≥ wrap64 (maxInt64 - l)) →
          (side.limit tx ≤ wrap64 ((side.buffer tx).length + l) ∨
            side.limit tx ≤ (side.buffer tx).length + (min l.toNat r.content.length : Nat)) →
          side.ReadReaches r tx := by
        intro hover hreached
        refine ⟨hearly, ?_⟩
        rw [hlen]
        exact ⟨hover, hreached⟩
      dsimp only
      split
      · exact .same
      rename_i hover
      split
      · rename_i hreached
        cases haction : side.limitAction with
        | reject => exact .rejected haction (hreaches hover (.inl hreached))
        | processPartial => exact copyFrom_marked_bodyStep hlaw haction r _ tx
      · exact (copyFrom_bodyStep hlaw r l tx).mono (fun hreached => hreaches hover (.inr hreached))

end

/-! ### The interruption that is returned

It is that of the transaction afterwards, or there is none.
-/

section

variable {side : BodySide}

theorem early_returned {tx : Transaction} {res : BodyResult} (h : side.early tx = some res) :
    res.1 = none ∨ res.1 = tx.interruption := (early_eq h).2.2

theorem finish_returned (run : Bool) (w : Nat) (tx : Transaction) :
    (side.finish run w tx).1.1 = (side.finish run w tx).2.interruption := by
  unfold finish
  split <;> rfl

theorem store_returned (b : Bytes) (n : Int) (run : Bool) (tx : Transaction) :
    (side.store b n run tx).1.bind (·.1) = none ∨
      (side.store b n run tx).1.bind (·.1) = (side.store b n run tx).2.interruption := by
  unfold BodySide.store
  split
  · exact .inl rfl
  dsimp only
  split
  · exact .inl rfl
  · exact .inr (finish_returned ..)

theorem writeBody_returned (b : Bytes) (tx : Transaction) :
    (side.writeBody b tx).1.bind (·.1) = none ∨
      (side.writeBody b tx).1.bind (·.1) = (side.writeBody b tx).2.interruption := by
  unfold writeBody
  split
  · rename_i hearly
    exact early_returned hearly
  dsimp only
  split
  · exact .inl rfl
  split
  · split
    · exact .inr rfl
    · exact store_returned ..
  · exact store_returned ..

theorem copyFrom_returned (r : Io.Stream) (n : Int) (run : Bool) (tx : Transaction) :
    (side.copyFrom r n run tx).1.1 = none ∨
      (side.copyFrom r n run tx).1.1 = (side.copyFrom r n run tx).2.2.interruption := by
  unfold BodySide.copyFrom
  dsimp only
  split
  · exact .inl rfl
  · unfold afterCopy
    split
    · split
      · exact .inr rfl
      · exact .inr (finish_returned ..)
    · exact .inr (finish_returned ..)

theorem readBodyFrom_returned (r : Io.Stream) (tx : Transaction) :
    (side.readBodyFrom r tx).1.1 = none ∨
      (side.readBodyFrom r tx).1.1 = (side.readBodyFrom r tx).2.2.interruption := by
  unfold readBodyFrom
  split
  · rename_i hearly
    exact early_returned hearly
  dsimp only
  split
  · exact copyFrom_returned ..
  split
  · exact .inl rfl
  split
  · split
    · exact .inr rfl
    · exact copyFrom_returned ..
  · exact copyFrom_returned ..

/-! Where nothing ends a call with an error it is that of the transaction. -/

theorem store_named {b : Bytes} {n : Int} {run : Bool} {tx : Transaction} {res : BodyResult}
    (h : (side.store b n run tx).1 = some res) (herr : res.2.2 = none) :
    res.1 = (side.store b n run tx).2.interruption := by
  unfold BodySide.store at h ⊢
  split at h
  · cases h
  dsimp only at h ⊢
  split at h
  · cases h
    cases herr
  · cases h
    exact finish_returned ..

theorem copyFrom_named {r : Io.Stream} {n : Int} {run : Bool} {tx : Transaction}
    (herr : (side.copyFrom r n run tx).1.2.2 = none) :
    (side.copyFrom r n run tx).1.1 = (side.copyFrom r n run tx).2.2.interruption := by
  unfold BodySide.copyFrom at herr ⊢
  dsimp only at herr ⊢
  split at herr
  · rename_i hfailed
    exact absurd herr hfailed.1
  · rename_i hgood
    rw [if_neg hgood]
    unfold afterCopy
    split
    · split
      · rfl
      · exact finish_returned ..
    · exact finish_returned ..

section

variable {tx : Transaction} (hearly : ∀ res, side.early tx = some res → res.1 = tx.interruption)
include hearly

theorem writeBody_named {b : Bytes} {res : BodyResult} (h : (side.writeBody b tx).1 = some res)
    (herr : res.2.2 = none) : res.1 = (side.writeBody b tx).2.interruption := by
  unfold writeBody at h ⊢
  split at h
  · rename_i hres
    cases h
    exact hearly _ hres
  dsimp only at h ⊢
  split at h
  · cases h
    cases herr
  rename_i hover
  rw [if_neg hover]
  split at h
  · rename_i hreached
    rw [if_pos hreached]
    cases haction : side.limitAction with
    | reject =>
      rw [haction] at h
      cases h
      rfl
    | processPartial =>
      rw [haction] at h
      exact store_named h herr
  · rename_i hbelow
    rw [if_neg hbelow]
    exact store_named h herr

theorem readBodyFrom_named {r : Io.Stream} (herr : (side.readBodyFrom r tx).1.2.2 = none) :
    (side.readBodyFrom r tx).1.1 = (side.readBodyFrom r tx).2.2.interruption := by
  unfold readBodyFrom at herr ⊢
  split at herr
  · rename_i hres
    exact hearly _ hres
  dsimp only at herr ⊢
  cases hlen : r.len with
  | none =>
    rw [hlen] at herr
    exact copyFrom_named herr
  | some l =>
    rw [hlen] at herr
    dsimp only at herr ⊢
    split at herr
    · cases herr
    rename_i hover
    rw [if_neg hover]
    split at herr
    · rename_i hreached
      rw [if_pos hreached]
      cases haction : side.limitAction with
      | reject => rfl
      | processPartial =>
        rw [haction] at herr
        exact copyFrom_named herr
    · rename_i hbelow
      rw [if_neg hbelow]
      exact copyFrom_named herr

end

end

/-! ### Copies without an error -/

section

variable {side : BodySide} (hlaw : side.Lawful)
  (hprocess : ∀ tx, side.buffer (side.process tx).2 = side.buffer tx)

include hprocess in
theorem buffer_finish (run : Bool) (w : Nat) (tx : Transaction) :
    side.buffer (side.finish run w tx).2 = side.buffer tx := by
  unfold finish
  split
  · exact hprocess tx
  · rfl

include hlaw in
theorem buffer_limitInterruption (tx : Transaction) :
    side.buffer (setAndReturnBodyLimitInterruption (side.setDataError tx) side.status).2
      = side.buffer tx :=
  (hlaw.buffer_interruption ..).trans (hlaw.buffer_vars ..)

include hlaw hprocess

theorem buffer_afterCopy (run : Bool) (w : Nat) (tx : Transaction) :
    side.buffer (side.afterCopy run w tx).2 = side.buffer tx := by
  unfold afterCopy
  split
  · dsimp only
    split
    · exact buffer_limitInterruption hlaw tx
    · exact (buffer_finish hprocess true w _).trans (hlaw.buffer_vars ..)
  · exact buffer_finish hprocess run w tx

/-- A copy that reports no error has only moved bytes from the reader to the buffer. -/
theorem copyFrom_content (hfiles : ∀ n, (side.files n).Proper) {tx : Transaction}
    (hwf : (side.buffer tx).WellFormed) {n : Int} {run : Bool}
    (herr : (side.copyFrom r n run tx).1.2.2 = none) :
    (side.buffer (side.copyFrom r n run tx).2.2).content
        ++ (side.copyFrom r n run tx).2.1.content
      = (side.buffer tx).content ++ r.content := by
  have hcopy := copyN_appended hfiles hwf r n
  unfold BodySide.copyFrom at herr ⊢
  dsimp only at herr ⊢
  split at herr
  · rename_i hbad
    exact absurd herr hbad.1
  · rename_i hgood
    rw [if_neg hgood]
    obtain ⟨data, happ, hdata⟩ := hcopy (by
      rwa [not_and_or, not_not, not_not] at hgood)
    rw [buffer_afterCopy hlaw hprocess, hlaw.buffer_set, happ.content, ← hdata, List.append_assoc]

/-- **`ReadRequestBodyFrom` and `ReadResponseBodyFrom` without an error** have only moved bytes
from the reader to the buffer. -/
theorem readBodyFrom_content (hfiles : ∀ n, (side.files n).Proper) {tx : Transaction}
    (hwf : (side.buffer tx).WellFormed) (herr : (side.readBodyFrom r tx).1.2.2 = none) :
    (side.buffer (side.readBodyFrom r tx).2.2).content ++ (side.readBodyFrom r tx).2.1.content
      = (side.buffer tx).content ++ r.content := by
  have hset := hlaw.buffer_setDataError tx
  unfold readBodyFrom at herr ⊢
  split at herr
  · rfl
  cases hlen : r.len with
  | none =>
    rw [hlen] at herr
    exact copyFrom_content hlaw hprocess hfiles hwf herr
  | some l =>
    rw [hlen] at herr
    dsimp only at herr ⊢
    split at herr
    · cases herr
    rename_i hoverflow
    rw [if_neg hoverflow]
    split at herr
    · rename_i hfull
      rw [if_pos hfull]
      cases haction : side.limitAction with
      | reject =>
        rw [buffer_limitInterruption hlaw]
      | processPartial =>
        rw [haction] at herr
        rw [copyFrom_content hlaw hprocess hfiles (hset.symm ▸ hwf) herr, hset]
    · rename_i hbelow
      rw [if_neg hbelow]
      exact copyFrom_content hlaw hprocess hfiles hwf herr

end

end BodySide

end Coraza.Waf
