import Coraza.Waf.Macros

/-!
# `setvar`

`Init` cuts an argument such as `TX.score=+5` at the first `=` and what is before it at the first
`.`, and compiles the two macros; `Evaluate` expands them and changes `TX`.  What the change is,
it reads off the expanded value: after a sign, a number is added to or subtracted from the present
one.

`Documented` is what the documentation of the action says, by the form in which the argument is
written.  The two differ: without `=` there is no macro to expand, and a value that is written
without a sign may be expanded to a text that has one.  `setvar_documented_iff` says when they
agree.
-/

namespace Coraza.Waf

open Go Collections Strconv Strings Variables List Map

/-! ### The action -/

/-- `setvarFn`.  A macro that `Init` has not set is `nil`. -/
structure SetvarFn where
  key : Option CompiledMacro
  value : Option CompiledMacro
  collection : RuleVariable
  isRemove : Bool
  deriving DecidableEq

/-- The parts of an argument, as `Init` cuts it. -/
structure SetvarText where
  isRemove : Bool
  colKey : Bytes
  colVal : Bytes
  colOk : Bool
  val : Bytes
  valOk : Bool
  deriving DecidableEq

/-- The argument without `!`, cut at `=` and `.`. -/
def setvarText (data : Bytes) : SetvarText :=
  let isRemove : Bool := data.head? = some 0x21
  let data := if isRemove then data.tail else data
  let (key, val, valOk) := cut data 0x3D
  let (colKey, colVal, colOk) := cut key 0x2E
  ⟨isRemove, colKey, colVal, colOk, val, valOk⟩

def optionalMacro (ok : Bool) (text : Bytes) : Except Error (Option CompiledMacro) :=
  if ok then (newMacro text).map some else .ok none

def SetvarFn.init (data : Bytes) : Except Error SetvarFn :=
  if data = [] then .error (.new "missing arguments")
  else
    let t := setvarText data
    if toUpper t.colKey ≠ bytesOf "TX" then
      .error (.new "invalid arguments, expected collection TX")
    else if trimSpace t.colVal = [] then
      .error (.new "invalid arguments, expected syntax TX.\x7bkey\x7d=\x7bvalue\x7d")
    else
      match RuleVariable.parse t.colKey with
      | none => .error (.new "unknown variable")
      | some collection => do
        let key ← optionalMacro t.colOk t.colVal
        let value ← optionalMacro t.valOk t.val
        .ok ⟨key, value, collection, t.isRemove⟩

/-- `setvarFn.evaluateTxCollection`: a collection that is not a map is left alone. -/
def SetvarFn.evaluateCollection (a : SetvarFn) (vars : Variables) (key value : Bytes) : Variables :=
  match vars.collection a.collection with
  | some (.keyed (.map _)) =>
    vars.modifyMap a.collection (evaluateTxCollection a.isRemove key value)
  | _ => vars

/-- `setvarFn.Evaluate`; `none` is a panic. -/
def SetvarFn.evaluate (a : SetvarFn) (vars : Variables) : Option Variables := do
  let key ← a.key.bind (fun m => m.expand vars)
  let value ← a.value.bind (fun m => m.expand vars)
  some (a.evaluateCollection vars (toLower key) value)

/-! ### The documentation -/

/-- The expansion of a text, if it is a macro that can be expanded. -/
def expandText (text : Bytes) (vars : Variables) : Option Bytes :=
  match newMacro text with
  | .ok m => m.expand vars
  | .error _ => none

/-- A text that begins with `+` or `-`. -/
def Signed (text : Bytes) : Prop := text.head? = some 0x2B ∨ text.head? = some 0x2D

instance (text : Bytes) : Decidable (Signed text) := inferInstanceAs (Decidable (_ ∨ _))

def applySign (sign : UInt8) (current n : Int) : Int :=
  if sign = 0x2B then current + n else current - n

/-- The integer that a key holds; a key that is missing counts as 0. -/
def currentInteger (col : Map) (key : Bytes) : Option Int :=
  match col.get key with
  | [] => some 0
  | value :: _ => atoi value

/-- What the documentation says of a key, by the form of the argument: `!TX.k` removes it, `TX.k`
sets it to 1, `TX.k=+n` and `TX.k=-n` count, and any other `TX.k=v` sets it to the expansion of
`v`. -/
def SetvarText.Documented (t : SetvarText) (vars : Variables) (key : Bytes) (col col' : Map) :
    Prop :=
  if t.isRemove then col'.get key = []
  else if t.valOk = false then col'.get key = [bytesOf "1"]
  else if Signed t.val then
    ∀ sign digits n current, t.val.head? = some sign →
      expandText t.val vars = some (sign :: digits) → atoi digits = some n →
      currentInteger col key = some current →
        col'.get key = [itoa (applySign sign current n)]
  else ∀ value, expandText t.val vars = some value → col'.get key = [value]

/-- The evaluation ends normally, does what the documentation says, and changes nothing else. -/
def SetvarFn.AsDocumented (a : SetvarFn) (t : SetvarText) (vars : Variables) : Prop :=
  ∃ vars' k, a.evaluate vars = some vars' ∧ expandText t.colVal vars = some k ∧
    t.Documented vars (toLower k) (vars.map .tx) (vars'.map .tx) ∧
    (∀ f, f ≠ (vars.map .tx).fold (toLower k) →
      (vars'.map .tx).values f = (vars.map .tx).values f) ∧
    (∀ v, v ≠ .tx → vars'.map v = vars.map v) ∧ vars'.single = vars.single

/-! ### What `Init` accepts -/

/-- A name after a `.` is there only if there is one. -/
theorem cut_snd_of_not {s : Bytes} {sep : UInt8} (h : (cut s sep).2.2 = false) :
    (cut s sep).2.1 = [] := by
  unfold cut at h ⊢
  split at h
  · cases h
  · rfl

variable {data text value : Bytes} {a : SetvarFn} {sign : UInt8}

/-- **An accepted argument**: its macros are compiled from its two parts, the second if there is
one, and the collection is `TX`. -/
theorem init_eq_ok (h : SetvarFn.init data = .ok a) :
    ∃ key, newMacro (setvarText data).colVal = .ok key ∧ a.key = some key ∧ a.collection = .tx ∧
      a.isRemove = (setvarText data).isRemove ∧
      optionalMacro (setvarText data).valOk (setvarText data).val = .ok a.value := by
  unfold SetvarFn.init at h
  dsimp only at h
  split at h
  · cases h
  split at h
  · cases h
  rename_i htx
  split at h
  · cases h
  rename_i hblank
  split at h
  · cases h
  rename_i collection hcollection
  obtain ⟨key, hkey, h⟩ := Results.bind_eq_ok.mp h
  obtain ⟨value, hvalue, h⟩ := Results.bind_eq_ok.mp h
  cases h
  have hok : (setvarText data).colOk = true := by
    by_contra hfalse
    refine hblank ?_
    have hnil : (setvarText data).colVal = [] := cut_snd_of_not (Bool.not_eq_true _ ▸ hfalse)
    rw [hnil]
    rfl
  unfold optionalMacro at hkey
  rw [if_pos hok] at hkey
  obtain ⟨m, hm, hsome⟩ := Results.map_eq_ok.mp hkey
  have hcol : RuleVariable.parse (setvarText data).colKey = some .tx := by
    unfold RuleVariable.parse
    rw [not_not.mp htx]
    decide +kernel
  exact ⟨m, hm, hsome.symm, Option.some.inj (hcollection.symm.trans hcol), rfl, hvalue⟩

theorem expandText_of_ok {m : CompiledMacro} (h : newMacro text = .ok m) (vars : Variables) :
    expandText text vars = m.expand vars := by
  unfold expandText
  rw [h]

theorem expandText_isSome {m : CompiledMacro} (h : newMacro text = .ok m) (vars : Variables) :
    (expandText text vars).isSome = true ↔ ¬BracedJSON text := by
  rw [expandText_of_ok h, expand_isSome_tokens, ← newMacro_json h]
  simp only [not_exists, not_and]

/-- **`Evaluate` of an accepted argument.** -/
theorem evaluate_eq (h : SetvarFn.init data = .ok a) (vars : Variables) :
    a.evaluate vars = (expandText (setvarText data).colVal vars).bind (fun k =>
      (if (setvarText data).valOk then expandText (setvarText data).val vars else none).map
        (fun value => vars.modifyMap .tx (evaluateTxCollection (setvarText data).isRemove
          (toLower k) value))) := by
  obtain ⟨key, hkey, hakey, hcollection, hremove, hvalue⟩ := init_eq_ok h
  unfold SetvarFn.evaluate
  rw [hakey, expandText_of_ok hkey]
  congr 1
  funext k
  unfold optionalMacro at hvalue
  split at hvalue
  · rename_i hok
    obtain ⟨value, hvalue, hsome⟩ := Results.map_eq_ok.mp hvalue
    rw [if_pos hok, expandText_of_ok hvalue, ← hsome]
    show (value.expand vars).bind _ = _
    cases value.expand vars with
    | none => rfl
    | some text =>
      unfold SetvarFn.evaluateCollection
      rw [hcollection, hremove]
      rfl
  · rename_i hok
    rw [if_neg hok, ← Except.ok.inj hvalue]
    rfl

/-! ### What becomes of `TX` -/

theorem values_evaluateTxCollection (isRemove : Bool) (key value : Bytes) (col : Map) {f : Bytes}
    (h : f ≠ col.fold key) :
    (evaluateTxCollection isRemove key value col).values f = col.values f := by
  unfold evaluateTxCollection
  split
  · rw [remove, values_erase, if_neg h]
  split
  · exact values_set_of_ne col h _
  split
  · split
    · split
      · rfl
      · exact values_set_of_ne col h _
    · dsimp only
      split
      · rfl
      · exact values_set_of_ne col h _
  · exact values_set_of_ne col h _

def ReadsZero (col : Map) (key : Bytes) : Prop :=
  (col.get key).headD [] = [] ∨ atoi ((col.get key).headD []) = some 0

/-- A value is stored as the text that it is: it has no sign; or no number and not the name of a
variable after its sign; or the key has this text already, and cannot be counted with; or it is
a negative number, and the key is read as 0. -/
def StoredAsText (col : Map) (key value : Bytes) : Prop :=
  ¬Signed value ∨
    (value.tail ≠ [] ∧ atoi value.tail = none ∧ ¬bytesOf "tx." <+: value.tail) ∨
    (col.get key = [value] ∧ atoi value = none) ∨
    (∃ n : Nat, 0 < n ∧ n < 2 ^ 63 ∧ value = itoa (-(n : Int)) ∧ ReadsZero col key)

/-- What `Atoi` makes of a part of a value; nothing counts as 0. -/
def number (text : Bytes) : Option Int := if text = [] then some 0 else atoi text

theorem get_evaluate_unsigned (h : ¬Signed value) (col : Map) (key : Bytes) :
    (evaluateTxCollection false key value col).get key = [value] := by
  unfold evaluateTxCollection
  rw [if_neg (by decide)]
  cases value with
  | nil => exact get_set ..
  | cons b rest =>
    have hb : ¬(b = 0x2B ∨ b = 0x2D) := by
      simpa [Signed] using h
    dsimp only
    rw [if_neg hb]
    exact get_set ..

theorem get_evaluate_signed (h : sign = 0x2B ∨ sign = 0x2D) (rest : Bytes) (col : Map)
    (key : Bytes) :
    (evaluateTxCollection false key (sign :: rest) col).get key =
      match number rest with
      | none => if bytesOf "tx." <+: rest then col.get key else [sign :: rest]
      | some n =>
        match number ((col.get key).headD []) with
        | none => col.get key
        | some current => [itoa (wrap64 (applySign sign current n))] := by
  unfold evaluateTxCollection
  rw [if_neg (by decide)]
  dsimp only
  rw [if_pos h]
  show get (match number rest with
    | none => _
    | some n => _) key = _
  cases number rest with
  | none =>
    dsimp only
    split
    · rfl
    · exact get_set ..
  | some n =>
    show get (match number ((col.get key).headD []) with
      | none => _
      | some current => _) key = _
    cases number ((col.get key).headD []) with
    | none => rfl
    | some current => exact get_set ..

theorem number_bounds {n : Int} (h : number text = some n) : -2 ^ 63 ≤ n ∧ n < 2 ^ 63 := by
  unfold number at h
  split at h
  · cases h
    decide
  · exact atoi_bounds h

theorem number_of_atoi {n : Int} (h : atoi text = some n) : number text = some n := by
  unfold number
  split
  · rename_i hnil
    rw [hnil] at h
    cases h
  · exact h

theorem number_eq_zero {col : Map} {key : Bytes} :
    number ((col.get key).headD []) = some 0 ↔ ReadsZero col key := by
  unfold number ReadsZero
  split
  · rename_i h
    exact iff_of_true rfl (.inl h)
  · rename_i h
    exact (or_iff_right h).symm

theorem number_decimal (m : Nat) :
    number (decimal m) = if m < 2 ^ 63 then some (m : Int) else none := by
  unfold number
  rw [if_neg (decimal_ne_nil m), atoi_decimal]

/-- Counting down from 0, and nothing else, writes the number with its sign. -/
theorem itoa_applySign (h : sign = 0x2B ∨ sign = 0x2D) {rest : Bytes} {n current : Int}
    (hn : number rest = some n) (hcurrent : -2 ^ 63 ≤ current ∧ current < 2 ^ 63) :
    itoa (wrap64 (applySign sign current n)) = sign :: rest ↔
      (∃ m : Nat, 0 < m ∧ m < 2 ^ 63 ∧ sign :: rest = itoa (-(m : Int))) ∧ current = 0 := by
  constructor
  · intro heq
    generalize hr : wrap64 (applySign sign current n) = r at heq
    rcases Int.lt_or_le r 0 with hneg | hpos
    · obtain ⟨m, rfl⟩ : ∃ m : Nat, r = -(m : Int) := ⟨r.natAbs, by omega⟩
      have hm : 0 < m := by omega
      have hdecimal := heq
      rw [itoa_neg hm] at hdecimal
      obtain ⟨rfl, rfl⟩ := cons.inj hdecimal
      rw [number_decimal] at hn
      split at hn
      · rename_i hlt
        cases hn
        refine ⟨⟨m, hm, hlt, heq.symm⟩, ?_⟩
        have hmod : (current - (m : Int)).bmod (2 ^ 64) % (2 ^ 64 : Nat)
            = (current - (m : Int)) % (2 ^ 64 : Nat) := Int.bmod_emod
        rw [show (current - (m : Int)).bmod (2 ^ 64) = -(m : Int) from hr] at hmod
        omega
      · cases hn
    · obtain ⟨m, rfl⟩ : ∃ m : Nat, r = (m : Int) := ⟨r.toNat, by omega⟩
      rw [itoa_natCast] at heq
      have hdigit := (mem_decimal (heq ▸ mem_cons_self .. : sign ∈ decimal m)).1
      rcases h with rfl | rfl <;> exact absurd hdigit (by decide)
  · rintro ⟨⟨m, hm, hlt, heq⟩, rfl⟩
    have hdecimal := heq
    rw [itoa_neg hm] at hdecimal
    obtain ⟨rfl, rfl⟩ := cons.inj hdecimal
    rw [number_decimal, if_pos hlt] at hn
    cases hn
    rw [heq]
    congr 1
    exact (congrArg wrap64 (Int.zero_sub _)).trans (wrap64_of_range (by omega) (by omega))

theorem atoi_sign_tx (h : sign = 0x2B ∨ sign = 0x2D) {rest : Bytes} (htx : bytesOf "tx." <+: rest) :
    atoi (sign :: rest) = none := by
  obtain ⟨after, rfl⟩ := htx
  have hdigits : digits (bytesOf "tx." ++ after) = none := by
    have hbytes : bytesOf "tx." = [0x74, 0x78, 0x2E] := by decide +kernel
    rw [hbytes]
    have hstay : ∀ l : Bytes, l.foldl (fun acc d => acc.bind (fun n =>
        if 0x30 ≤ d ∧ d ≤ 0x39 then some (10 * n + (d.toNat - 0x30)) else none)) none = none := by
      intro l
      induction l with
      | nil => rfl
      | cons b l ih => exact ih
    exact hstay _
  unfold atoi
  dsimp only
  rw [hdigits]
  rcases h with rfl | rfl <;> rfl

section

variable {sign : UInt8} (hsign : sign = 0x2B ∨ sign = 0x2D) {rest : Bytes} (col : Map) (key : Bytes)

include hsign

theorem storedAsText_signed : StoredAsText col key (sign :: rest) ↔
    (rest ≠ [] ∧ atoi rest = none ∧ ¬bytesOf "tx." <+: rest) ∨
    (col.get key = [sign :: rest] ∧ atoi (sign :: rest) = none) ∨
    (∃ n : Nat, 0 < n ∧ n < 2 ^ 63 ∧ sign :: rest = itoa (-(n : Int)) ∧
      ReadsZero col key) := by
  have hsigned : Signed (sign :: rest) := by simpa [Signed] using hsign
  exact or_iff_right (not_not.mpr hsigned)

theorem get_evaluate_text (hn : number rest = none) :
    (evaluateTxCollection false key (sign :: rest) col).get key = [sign :: rest] ↔
      StoredAsText col key (sign :: rest) := by
  have hrest : rest ≠ [] ∧ atoi rest = none := by
    unfold number at hn
    split at hn
    · cases hn
    · exact ⟨‹_›, hn⟩
  rw [get_evaluate_signed hsign, hn, storedAsText_signed hsign]
  dsimp only
  split
  · rename_i htx
    constructor
    · intro hget
      exact .inr (.inl ⟨hget, atoi_sign_tx hsign htx⟩)
    · rintro (⟨-, -, hnot⟩ | ⟨hget, -⟩ | ⟨m, hm, hlt, heq, -⟩)
      · exact absurd htx hnot
      · exact hget
      · rw [itoa_neg hm] at heq
        rw [(cons.inj heq).2, number_decimal, if_pos hlt] at hn
        cases hn
  · rename_i htx
    exact iff_of_true rfl (.inl ⟨hrest.1, hrest.2, htx⟩)

theorem get_evaluate_number {n : Int} (hn : number rest = some n) :
    (evaluateTxCollection false key (sign :: rest) col).get key = [sign :: rest] ↔
      StoredAsText col key (sign :: rest) := by
  have hfirst : ¬(rest ≠ [] ∧ atoi rest = none ∧ ¬bytesOf "tx." <+: rest) := by
    rintro ⟨hne, hnone, -⟩
    rw [number, if_neg hne, hnone] at hn
    cases hn
  -- the present value of the key, if it is the value that is to be stored
  have hpresent : col.get key = [sign :: rest] →
      number ((col.get key).headD []) = atoi (sign :: rest) := by
    intro hget
    rw [hget]
    exact if_neg (cons_ne_nil _ _)
  rw [get_evaluate_signed hsign, hn, storedAsText_signed hsign, or_iff_right hfirst]
  cases hc : number ((col.get key).headD []) with
  | none =>
    constructor
    · intro hget
      exact .inl ⟨hget, (hpresent hget).symm.trans hc⟩
    · rintro (⟨hget, -⟩ | ⟨m, hm, hlt, heq, hzero⟩)
      · exact hget
      · rw [number_eq_zero.mpr hzero] at hc
        cases hc
  | some current =>
    have hsecond : ¬(col.get key = [sign :: rest] ∧ atoi (sign :: rest) = none) := by
      rintro ⟨hget, hnone⟩
      rw [hpresent hget, hnone] at hc
      cases hc
    have hzero : current = 0 ↔ ReadsZero col key := by
      rw [← number_eq_zero, hc, Option.some.injEq]
    rw [or_iff_right hsecond, singleton_inj, itoa_applySign hsign hn (number_bounds hc), hzero]
    constructor
    · rintro ⟨⟨m, hm, hlt, heq⟩, hzero⟩
      exact ⟨m, hm, hlt, heq, hzero⟩
    · rintro ⟨m, hm, hlt, heq, hzero⟩
      exact ⟨⟨m, hm, hlt, heq⟩, hzero⟩

/-- **A value with a sign counts**, where there are integers to count with. -/
theorem get_evaluate_count {n current : Int} (hn : atoi rest = some n)
    (hcurrent : currentInteger col key = some current) :
    (evaluateTxCollection false key (sign :: rest) col).get key
      = [itoa (wrap64 (applySign sign current n))] := by
  have hnumber : number ((col.get key).headD []) = some current := by
    unfold currentInteger at hcurrent
    split at hcurrent
    · rename_i hget
      rw [hget]
      exact hcurrent
    · rename_i value values hget
      rw [hget]
      exact number_of_atoi hcurrent
  rw [get_evaluate_signed hsign, number_of_atoi hn]
  rw [hnumber]

end

/-- **When a value is stored as the text that it is.** -/
theorem get_evaluate_eq_iff (col : Map) (key value : Bytes) :
    (evaluateTxCollection false key value col).get key = [value] ↔ StoredAsText col key value := by
  by_cases hsigned : Signed value
  · cases value with
    | nil => simp [Signed] at hsigned
    | cons sign rest =>
      have hsign : sign = 0x2B ∨ sign = 0x2D := by simpa [Signed] using hsigned
      cases hn : number rest with
      | none => exact get_evaluate_text hsign col key hn
      | some n => exact get_evaluate_number hsign col key hn
  · exact iff_of_true (get_evaluate_unsigned hsigned col key) (.inl hsigned)

/-! ### When the documentation is right -/

/-- What an argument that is not a removal needs: a value that is written with a sign must not
count over 64 bits, and any other must be stored as the text that it is. -/
def SetvarText.Agrees (t : SetvarText) (col : Map) (key value : Bytes) : Prop :=
  if Signed t.val then
    ∀ sign digits n current, t.val.head? = some sign → value = sign :: digits →
      atoi digits = some n → currentInteger col key = some current →
      -2 ^ 63 ≤ applySign sign current n ∧ applySign sign current n < 2 ^ 63
  else StoredAsText col key value

theorem documented_iff {t : SetvarText} {vars : Variables} {key : Bytes} (hok : t.valOk = true)
    (hvalue : expandText t.val vars = some value) (col : Map) :
    t.Documented vars key col (evaluateTxCollection t.isRemove key value col) ↔
      (t.isRemove = false → t.Agrees col key value) := by
  unfold SetvarText.Documented SetvarText.Agrees
  cases t.isRemove with
  | true =>
    refine iff_of_true ?_ nofun
    exact get_remove ..
  | false =>
    rw [if_neg (by decide), if_neg (by rw [hok]; decide), hvalue]
    simp only [forall_const]
    split
    · rename_i hsigned
      refine forall₄_congr (fun sign digits n current => ?_)
      refine imp_congr_right (fun hhead => ?_)
      have hsign : sign = 0x2B ∨ sign = 0x2D := by
        unfold Signed at hsigned
        rw [hhead] at hsigned
        simpa using hsigned
      rw [Option.some.injEq]
      refine forall_congr' (fun heq => forall_congr' (fun hn => forall_congr' (fun hcurrent => ?_)))
      rw [heq, get_evaluate_count hsign col key hn hcurrent, singleton_inj, itoa_wrap64]
    · rw [← get_evaluate_eq_iff]
      constructor
      · exact fun h => h value rfl
      · rintro h _ ⟨⟩
        exact h

theorem asDocumented_iff (h : SetvarFn.init data = .ok a) {vars : Variables} {k : Bytes}
    (hok : (setvarText data).valOk = true)
    (hk : expandText (setvarText data).colVal vars = some k)
    (hvalue : expandText (setvarText data).val vars = some value) :
    a.AsDocumented (setvarText data) vars ↔ ((setvarText data).isRemove = false →
      (setvarText data).Agrees (vars.map .tx) (toLower k) value) := by
  have heval := evaluate_eq h vars
  rw [hk, if_pos hok, hvalue] at heval
  rw [← documented_iff hok hvalue]
  constructor
  · rintro ⟨vars', k', hvars', hk', hdoc, -⟩
    cases hk.symm.trans hk'
    cases heval.symm.trans hvars'
    rw [modifyMap_map_self] at hdoc
    exact hdoc
  · intro hdoc
    refine ⟨_, k, heval, hk, ?_, ?_, ?_, rfl⟩
    · rw [modifyMap_map_self]
      exact hdoc
    · intro f hf
      rw [modifyMap_map_self]
      exact values_evaluateTxCollection _ _ _ _ hf
    · intro v hv
      exact modifyMap_map_of_ne _ hv _

/-- **When `setvar` does what its documentation says.**  The argument has a value, no macro asks
for a variable of the whole transaction, and what is expanded agrees with the form in which it is
written. -/
theorem setvar_documented_iff {data : Bytes} {a : SetvarFn} (h : SetvarFn.init data = .ok a)
    (vars : Variables) :
    a.AsDocumented (setvarText data) vars ↔
      (setvarText data).valOk = true ∧ ¬BracedJSON (setvarText data).colVal ∧
        ¬BracedJSON (setvarText data).val ∧
        ∀ k value, expandText (setvarText data).colVal vars = some k →
          expandText (setvarText data).val vars = some value →
          (setvarText data).isRemove = false →
          (setvarText data).Agrees (vars.map .tx) (toLower k) value := by
  obtain ⟨key, hkey, -, -, -, hmacro⟩ := init_eq_ok h
  have hvalueMacro : (setvarText data).valOk = true →
    ∃ m, newMacro (setvarText data).val = .ok m := by
    intro hok
    rw [optionalMacro, if_pos hok] at hmacro
    obtain ⟨m, hm, -⟩ := Results.map_eq_ok.mp hmacro
    exact ⟨m, hm⟩
  constructor
  · intro hdoc
    obtain ⟨vars', -, heval, -⟩ := id hdoc
    -- the evaluation ends, so both macros were there to be expanded
    rw [evaluate_eq h] at heval
    obtain ⟨k, hk, heval⟩ := Option.bind_eq_some_iff.mp heval
    obtain ⟨value, hvalue, -⟩ := Option.map_eq_some_iff.mp heval
    split at hvalue
    · rename_i hok
      obtain ⟨m, hm⟩ := hvalueMacro hok
      refine ⟨hok, (expandText_isSome hkey vars).mp ?_, (expandText_isSome hm vars).mp ?_, ?_⟩
      · rw [hk]
        rfl
      · rw [hvalue]
        rfl
      · intro k' value' hk' hvalue'
        exact (asDocumented_iff h hok hk' hvalue').mp hdoc
    · cases hvalue
  · rintro ⟨hok, hcol, hval, hagrees⟩
    obtain ⟨m, hm⟩ := hvalueMacro hok
    obtain ⟨k, hk⟩ := Option.isSome_iff_exists.mp ((expandText_isSome hkey vars).mpr hcol)
    obtain ⟨value, hvalue⟩ := Option.isSome_iff_exists.mp ((expandText_isSome hm vars).mpr hval)
    exact (asDocumented_iff h hok hk hvalue).mpr (hagrees k value hk hvalue)

def scoreSetvar : SetvarFn where
  key := some ⟨bytesOf "Score", [⟨bytesOf "Score", .unknown, []⟩]⟩
  value := some ⟨bytesOf "+5", [⟨bytesOf "+5", .unknown, []⟩]⟩
  collection := .tx
  isRemove := false

theorem setvar_documented_score :
    scoreSetvar.AsDocumented (setvarText (bytesOf "TX.Score=+5")) new := by
  have htext : SetvarFn.init (bytesOf "TX.Score=+5") = .ok scoreSetvar ∧
      setvarText (bytesOf "TX.Score=+5")
        = ⟨false, bytesOf "TX", bytesOf "Score", true, [0x2B, 0x35], true⟩ ∧
      newMacro (bytesOf "Score") = .ok ⟨bytesOf "Score", [⟨bytesOf "Score", .unknown, []⟩]⟩ ∧
      newMacro [0x2B, 0x35] = .ok ⟨[0x2B, 0x35], [⟨[0x2B, 0x35], .unknown, []⟩]⟩ := by
    decide +kernel
  obtain ⟨hinit, hparts, hkey, hvalue⟩ := htext
  refine (setvar_documented_iff hinit new).mpr ?_
  rw [hparts]
  refine ⟨rfl, (expand_isSome_iff hkey new).mp rfl, (expand_isSome_iff hvalue new).mp rfl, ?_⟩
  intro k value _ hv _
  rw [expandText, hvalue] at hv
  cases hv
  -- the value is counted up from nothing
  rw [SetvarText.Agrees, if_pos (.inl rfl)]
  rintro sign digits n current - hdigits hn hcurrent
  cases hdigits
  cases (show atoi [0x35] = some 5 by decide).symm.trans hn
  cases (show currentInteger (new.map .tx) (toLower k) = some 0 from rfl).symm.trans hcurrent
  decide

/-- **The action of a rule is this one**, where both macros can be expanded. -/
theorem evaluate_setvar (h : SetvarFn.init data = .ok a) {key value : CompiledMacro}
    (hkey : a.key = some key) (hvalue : a.value = some value)
    (hk : ∀ token ∈ key.tokens, token.macroVariable ≠ .json)
    (hv : ∀ token ∈ value.tokens, token.macroVariable ≠ .json) (labels : List RuleLabel)
    (r : Rule) (tx : Transaction) :
    a.evaluate tx.vars = some ((Action.setvar a.isRemove (key.toMacro hk)
      (value.toMacro hv)).evaluate labels r tx).vars := by
  obtain ⟨-, -, -, hcollection, -⟩ := init_eq_ok h
  unfold SetvarFn.evaluate
  rw [hkey, hvalue]
  show (key.expand tx.vars).bind (fun _ => (value.expand tx.vars).bind _) = _
  rw [expand_toMacro key hk, expand_toMacro value hv]
  unfold SetvarFn.evaluateCollection
  rw [hcollection]
  rfl

/-- The action of a rule that counts. -/
theorem evaluate_setvar_score : ∃ vars, scoreSetvar.evaluate new = some vars := by
  have h : SetvarFn.init (bytesOf "TX.Score=+5") = .ok scoreSetvar := by decide +kernel
  exact ⟨_, evaluate_setvar h rfl rfl (by decide) (by decide) [] .new
    ((WAF.new (fun _ => none)).newTransaction new)⟩

/-- The argument that creates a flag has no value to expand. -/
theorem setvar_flag_panics : ∃ a, SetvarFn.init (bytesOf "TX.score") = .ok a ∧
    ∀ vars, a.evaluate vars = none := by
  refine ⟨⟨some ⟨bytesOf "score", [⟨bytesOf "score", .unknown, []⟩]⟩, none, .tx, false⟩, ?_, ?_⟩
  · decide +kernel
  · intro vars
    rfl

/-! ### Counters -/

/-- What is done to a counter: `TX.k=n`, `TX.k=+n` or `TX.k=-n`. -/
inductive CounterOp where
  | set (n : Nat)
  | add (n : Nat)
  | sub (n : Nat)

namespace CounterOp

def argument : CounterOp → Bytes
  | set n => decimal n
  | add n => 0x2B :: decimal n
  | sub n => 0x2D :: decimal n

def operand : CounterOp → Nat
  | set n | add n | sub n => n

def apply (current : Int) : CounterOp → Int
  | set n => n
  | add n => current + n
  | sub n => current - n

def Within : Int → List CounterOp → Prop
  | _, [] => True
  | current, op :: ops => op.operand < 2 ^ 63 ∧
      (-2 ^ 63 ≤ op.apply current ∧ op.apply current < 2 ^ 63) ∧ Within (op.apply current) ops

end CounterOp

/-- The action is an operation on a key, in any case of its letters. -/
def SetvarFn.Means (a : SetvarFn) (key : Bytes) (op : CounterOp) (vars : Variables) : Prop :=
  ∃ data k, SetvarFn.init data = .ok a ∧ (setvarText data).isRemove = false ∧
    (setvarText data).valOk = true ∧ expandText (setvarText data).colVal vars = some k ∧
    toLower k = toLower key ∧ expandText (setvarText data).val vars = some op.argument

/-- One action after the other; `none` is a panic. -/
def runSetvars (fns : List SetvarFn) (vars : Variables) : Option Variables :=
  fns.foldlM (fun vars a => a.evaluate vars) vars

def Counting (key : Bytes) : List (SetvarFn × CounterOp) → Variables → Prop
  | [], _ => True
  | (a, op) :: rest, vars => a.Means key op vars ∧
      ∀ vars', a.evaluate vars = some vars' → Counting key rest vars'

section

variable {key : Bytes} {current : Int} {vars : Variables}

/-- **One operation** writes what it makes of the number that the key holds. -/
theorem evaluate_op {op : CounterOp} (hmeans : a.Means key op vars)
    (hcurrent : currentInteger (vars.map .tx) (toLower key) = some current)
    (hoperand : op.operand < 2 ^ 63)
    (hrange : -2 ^ 63 ≤ op.apply current ∧ op.apply current < 2 ^ 63) :
    ∃ vars', a.evaluate vars = some vars' ∧
      (vars'.map .tx).get (toLower key) = [itoa (op.apply current)] := by
  obtain ⟨data, k, hinit, hset, hok, hk, hkey, hvalue⟩ := hmeans
  have heval := evaluate_eq hinit vars
  rw [hk, if_pos hok, hvalue, hset] at heval
  refine ⟨_, heval, ?_⟩
  rw [hkey]
  have hatoi : atoi (decimal op.operand) = some (op.operand : Int) := by
    rw [atoi_decimal, if_pos hoperand]
  rw [← wrap64_of_range hrange.1 hrange.2]
  cases op with
  | set n =>
    have hunsigned : ¬Signed (decimal n) := by
      rintro (hhead | hhead) <;>
        exact absurd (mem_decimal (mem_of_mem_head? hhead)).1 (by decide)
    rw [wrap64_of_range hrange.1 hrange.2]
    exact (get_evaluate_unsigned hunsigned ..).trans
      (congrArg (fun text => [text]) (itoa_natCast n).symm)
  | add n => exact get_evaluate_count (.inl rfl) _ _ hatoi hcurrent
  | sub n => exact get_evaluate_count (.inr rfl) _ _ hatoi hcurrent

/-- Operations on a key that holds a number, or nothing. -/
theorem runSetvars_counting : ∀ {calls : List (SetvarFn × CounterOp)} {current : Int}
    {vars : Variables}, calls ≠ [] → Counting key calls vars →
    CounterOp.Within current (calls.map Prod.snd) →
    currentInteger (vars.map .tx) (toLower key) = some current →
    ∃ vars', runSetvars (calls.map Prod.fst) vars = some vars' ∧
      (vars'.map .tx).get (toLower key)
        = [itoa ((calls.map Prod.snd).foldl CounterOp.apply current)]
  | (a, op) :: rest, current, vars, _, ⟨hmeans, hnext⟩, ⟨hoperand, hrange, hwithin⟩, hcurrent => by
    obtain ⟨vars₁, heval, hget⟩ := evaluate_op hmeans hcurrent hoperand hrange
    have hrun : runSetvars (((a, op) :: rest).map Prod.fst) vars
        = runSetvars (rest.map Prod.fst) vars₁ := by
      rw [map_cons, runSetvars, foldlM_cons, heval]
      rfl
    rw [hrun]
    cases rest with
    | nil => exact ⟨vars₁, rfl, hget⟩
    | cons call rest =>
      refine runSetvars_counting (cons_ne_nil _ _) (hnext vars₁ heval) hwithin ?_
      rw [currentInteger, hget]
      exact (atoi_itoa _).trans (if_pos hrange)

/-- **Counters add up**: after operations on a key that was not set, within 64 bits, the key
holds their result in decimal. -/
theorem counters_add_up {calls : List (SetvarFn × CounterOp)} (hne : calls ≠ [])
    (hcounting : Counting key calls vars)
    (hwithin : CounterOp.Within 0 (calls.map Prod.snd))
    (hunset : (vars.map .tx).get (toLower key) = []) :
    ∃ vars', runSetvars (calls.map Prod.fst) vars = some vars' ∧
      (vars'.map .tx).get (toLower key)
        = [itoa ((calls.map Prod.snd).foldl CounterOp.apply 0)] :=
  runSetvars_counting hne hcounting hwithin (by rw [currentInteger, hunset])

def creditSetvar : SetvarFn where
  key := some ⟨bytesOf "SCORE", [⟨bytesOf "SCORE", .unknown, []⟩]⟩
  value := some ⟨bytesOf "-7", [⟨bytesOf "-7", .unknown, []⟩]⟩
  collection := .tx
  isRemove := false

theorem creditSetvar_means (vars : Variables) :
    creditSetvar.Means (bytesOf "score") (.sub 7) vars := by
  have htext : SetvarFn.init (bytesOf "tx.SCORE=-7") = .ok creditSetvar ∧
      setvarText (bytesOf "tx.SCORE=-7")
        = ⟨false, bytesOf "tx", bytesOf "SCORE", true, bytesOf "-7", true⟩ ∧
      newMacro (bytesOf "SCORE") = .ok ⟨bytesOf "SCORE", [⟨bytesOf "SCORE", .unknown, []⟩]⟩ ∧
      newMacro (bytesOf "-7") = .ok ⟨bytesOf "-7", [⟨bytesOf "-7", .unknown, []⟩]⟩ ∧
      toLower (bytesOf "SCORE") = toLower (bytesOf "score") ∧
      (CounterOp.sub 7).argument = bytesOf "-7" := by decide +kernel
  obtain ⟨hinit, hparts, hkey, hvalue, hlower, hop⟩ := htext
  refine ⟨bytesOf "tx.SCORE=-7", bytesOf "SCORE", hinit, ?_, ?_, ?_, hlower, ?_⟩
  · rw [hparts]
  · rw [hparts]
  · rw [hparts, expandText, hkey]
    rfl
  · rw [hparts, expandText, hvalue, hop]
    rfl

/-- A score that is counted up and then, under another spelling, down below zero. -/
theorem counters_add_up_score :
    ∃ vars', runSetvars [scoreSetvar, creditSetvar] .new = some vars' ∧
      (vars'.map .tx).get (toLower (bytesOf "score")) = [bytesOf "-2"] := by
  have hmeans : scoreSetvar.Means (bytesOf "score") (.add 5) .new :=
    ⟨bytesOf "TX.Score=+5", bytesOf "Score", by decide +kernel⟩
  have hitoa : itoa ([CounterOp.add 5, .sub 7].foldl CounterOp.apply 0) = bytesOf "-2" := by
    decide +kernel
  rw [← hitoa]
  exact counters_add_up (cons_ne_nil (scoreSetvar, .add 5) [(creditSetvar, .sub 7)])
    ⟨hmeans, fun vars _ => ⟨creditSetvar_means vars, fun _ _ => trivial⟩⟩
    ⟨by decide, by decide, by decide, by decide, trivial⟩ rfl

end

end Coraza.Waf
