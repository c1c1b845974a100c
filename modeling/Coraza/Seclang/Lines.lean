import Coraza.Go.Io
import Coraza.Go.Strings

/-!
# The lines of a configuration

`parseString` reads a text line by line.  Blank lines and comments are skipped, a line that ends
with a backslash goes on in the next one, and the lines from one that ends with a backtick to one
that begins with a backtick belong together; what is joined is handed to `evaluateLine`.

`logicalLines` is what the loop hands over as long as there is no error (`calls_eq`), and `Joined`
says what may be joined.  `lines_handed_iff` says when every line is handed over: a line that is
too long for the scanner ends the loop without an error, and so does a backslash at the end.
-/

namespace Coraza.Seclang

open Go List Strings

/-! ### The scanner -/

def maxScanTokenSize : Nat := 64 * 1024

/-- The lines of a text, without their ends; after the last end there is no line. -/
def physicalLines (data : Bytes) : List Bytes :=
  let parts := data.splitOn 0x0A
  if parts.getLast? = some [] then parts.dropLast else parts

def dropCR (line : Bytes) : Bytes := if line.getLast? = some 0x0D then line.dropLast else line

/-- A line that fits into the buffer of the scanner, with its end. -/
def fits (line : Bytes) : Bool := line.length < maxScanTokenSize

/-- What a scanner with `bufio.ScanLines` reads: it stops at a line that is too long, which only
`Err` would tell. -/
def scanLines (data : Bytes) : List Bytes := ((physicalLines data).takeWhile fits).map dropCR

def unscanned (data : Bytes) : List Bytes := ((physicalLines data).dropWhile fits).map dropCR

/-! ### The loop -/

/-- Why a function of the parser did not succeed: an error, or the model ran out of fuel. -/
inductive Failure where
  | error (err : Error)
  | outOfFuel
  deriving DecidableEq

structure LineState where
  linebuffer : Bytes
  inBackticks : Bool
  deriving DecidableEq

def LineState.initial : LineState := ⟨[], false⟩

def isSignificant (line : Bytes) : Bool := line ≠ [] ∧ line.head? ≠ some 0x23

def backticksAfter (inBackticks : Bool) (line : Bytes) : Bool :=
  if inBackticks = false ∧ line.getLast? = some 0x60 then true
  else if inBackticks = true ∧ line.head? = some 0x60 then false
  else inBackticks

/-- What the loop does with a line, up to the call of `evaluateLine`. -/
def lineStep (st : LineState) (text : Bytes) : Option Bytes × LineState :=
  let line := trimSpace text
  if isSignificant line = false then (none, st)
  else if backticksAfter st.inBackticks line = true then
    (none, ⟨st.linebuffer ++ line ++ [0x0A], true⟩)
  else if line.getLast? = some 0x5C then (none, ⟨st.linebuffer ++ line.dropLast, false⟩)
  else (some (st.linebuffer ++ line), .initial)

section

variable {σ : Type} (nextLine : σ → σ) (evaluateLine : Bytes → σ → Option Failure × σ)

/-- The loop of `parseString`, for a parser that counts the lines with `nextLine`. -/
def parseLoop : LineState → List Bytes → σ → Option Failure × σ
  | st, [], s => (if st.inBackticks then some (.error (.new "backticks left open")) else none, s)
  | st, text :: rest, s =>
    let s := nextLine s
    match lineStep st text with
    | (none, st) => parseLoop st rest s
    | (some l, st) =>
      match evaluateLine l s with
      | (none, s) => parseLoop st rest s
      | (some err, s) => (some err, s)

def parseString (data : Bytes) (s : σ) : Option Failure × σ :=
  parseLoop nextLine evaluateLine .initial (scanLines data) s

/-- `evaluateLine` with a record of its calls. -/
def recorded (l : Bytes) (s : σ × List Bytes) : Option Failure × (σ × List Bytes) :=
  let (err, s') := evaluateLine l s.1
  (err, (s', s.2 ++ [l]))

def evaluateCalls (data : Bytes) (s : σ) : List Bytes :=
  (parseString (Prod.map nextLine id) (recorded evaluateLine) data (s, [])).2.2

end

/-! ### Logical lines -/

/-- The lines that are handed over, with the numbers of the lines in which they end; `k` lines have
been read. -/
def logicalLoop (k : Nat) (st : LineState) : List Bytes → List (Nat × Bytes)
  | [] => []
  | text :: rest =>
    match lineStep st text with
    | (none, st) => logicalLoop (k + 1) st rest
    | (some l, st) => (k + 1, l) :: logicalLoop (k + 1) st rest

def logicalLines (data : Bytes) : List (Nat × Bytes) := logicalLoop 0 .initial (scanLines data)

def finalState (st : LineState) (texts : List Bytes) : LineState :=
  texts.foldl (fun st text => (lineStep st text).2) st

section

variable {σ : Type} {nextLine : σ → σ} {evaluateLine : Bytes → σ → Option Failure × σ}

/-- **The rule of the loop.**  What every call keeps is kept, however the loop ends; a failure is
one of a call, or backticks are open; after a success every logical line has been evaluated, and
the backticks are closed. -/
theorem parseLoop_rule {I : σ → Prop} (hnext : ∀ s, I s → I (nextLine s))
    (hline : ∀ l s, I s → I (evaluateLine l s).2)
    (texts : List Bytes) (k : Nat) (st : LineState) (s : σ) : I s →
      I (parseLoop nextLine evaluateLine st texts s).2 ∧
      (∀ err, (parseLoop nextLine evaluateLine st texts s).1 = some err →
        err = .error (.new "backticks left open") ∨
          ∃ l s', I s' ∧ (evaluateLine l s').1 = some err) ∧
      ((parseLoop nextLine evaluateLine st texts s).1 = none →
        (finalState st texts).inBackticks = false ∧
          ∀ kl ∈ logicalLoop k st texts, ∃ s', I s' ∧ (evaluateLine kl.2 s').1 = none) := by
  induction texts generalizing k st s with
  | nil =>
    intro hs
    have hnil : ∀ kl ∈ logicalLoop k st [], ∃ s', I s' ∧ (evaluateLine kl.2 s').1 = none :=
      fun kl hkl => absurd hkl not_mem_nil
    unfold parseLoop
    split
    · exact ⟨hs, fun err h => .inl (Option.some.inj h).symm, nofun⟩
    · exact ⟨hs, nofun, fun _ => ⟨Bool.eq_false_iff.mpr ‹_›, hnil⟩⟩
  | cons text rest ih =>
    intro hs
    have hs₁ := hnext s hs
    have hfinal : finalState st (text :: rest) = finalState (lineStep st text).2 rest := rfl
    unfold parseLoop logicalLoop
    rw [hfinal]
    generalize lineStep st text = out
    obtain ⟨_ | l, st'⟩ := out
    · exact ih (k + 1) st' _ hs₁
    · have hs' := hline l _ hs₁
      have hcall : ∀ res, (evaluateLine l (nextLine s)).1 = res →
          ∃ s', I s' ∧ (evaluateLine l s').1 = res := fun res h => ⟨_, hs₁, h⟩
      dsimp only
      generalize evaluateLine l (nextLine s) = out at hs' hcall ⊢
      obtain ⟨_ | err, s'⟩ := out
      · obtain ⟨hkept, hfailure, hsuccess⟩ := ih (k + 1) st' s' hs'
        refine ⟨hkept, hfailure, fun h => ⟨(hsuccess h).1, fun kl hkl => ?_⟩⟩
        rcases List.mem_cons.mp hkl with rfl | hkl
        · exact hcall none rfl
        · exact (hsuccess h).2 kl hkl
      · refine ⟨hs', fun err' h => .inr ⟨l, ?_⟩, nofun⟩
        exact hcall _ h

/-- Two parsers that agree unless the first one has no fuel. -/
theorem parseLoop_congr {evaluateLine' : Bytes → σ → Option Failure × σ}
    (hline : ∀ l s, (evaluateLine l s).1 ≠ some .outOfFuel →
      evaluateLine' l s = evaluateLine l s) (texts : List Bytes) (st : LineState) (s : σ) :
    (parseLoop nextLine evaluateLine st texts s).1 ≠ some .outOfFuel →
    parseLoop nextLine evaluateLine' st texts s = parseLoop nextLine evaluateLine st texts s := by
  induction texts generalizing st s with
  | nil => exact fun _ => rfl
  | cons text rest ih =>
    intro h
    unfold parseLoop at h ⊢
    cases hstep : lineStep st text with
    | mk out st' =>
      rw [hstep] at h
      cases out with
      | none => exact ih _ _ h
      | some l =>
        dsimp only at h ⊢
        have heval : (evaluateLine l (nextLine s)).1 ≠ some .outOfFuel := by
          intro hfuel
          generalize evaluateLine l (nextLine s) = out at h hfuel
          obtain ⟨err, s'⟩ := out
          cases hfuel
          exact h rfl
        rw [hline l _ heval]
        generalize evaluateLine l (nextLine s) = out at h
        obtain ⟨err | err, s'⟩ := out
        · exact ih _ _ h
        · rfl

theorem parseLoop_recorded : ∀ (texts : List Bytes) (k : Nat) (st : LineState) (s : σ)
    (calls : List Bytes), (parseLoop nextLine evaluateLine st texts s).1 = none →
    (parseLoop (Prod.map nextLine id) (recorded evaluateLine) st texts (s, calls)).2.2
      = calls ++ (logicalLoop k st texts).map Prod.snd := by
  intro texts
  induction texts with
  | nil => exact fun k st s calls _ => (append_nil calls).symm
  | cons text rest ih =>
    intro k st s calls h
    unfold parseLoop at h ⊢
    unfold logicalLoop
    cases hstep : lineStep st text with
    | mk out st' =>
      rw [hstep] at h
      cases out with
      | none => exact ih (k + 1) st' _ calls h
      | some l =>
        dsimp only [recorded, Prod.map] at h ⊢
        generalize evaluateLine l (nextLine s) = out at h
        obtain ⟨err | err, s'⟩ := out
        · dsimp only at h ⊢
          refine (ih (k + 1) st' s' _ h).trans ?_
          rw [append_assoc]
          rfl
        · cases h

/-- **Without an error the logical lines are evaluated**, and nothing else. -/
theorem calls_eq {data : Bytes} {s : σ} (h : (parseString nextLine evaluateLine data s).1 = none) :
    evaluateCalls nextLine evaluateLine data s = (logicalLines data).map Prod.snd :=
  parseLoop_recorded (scanLines data) 0 .initial s [] h

end

/-! ### What is joined -/

/-- Lines are joined to a text: a backslash goes on in the next line, and a block goes from a
backtick at the end of a line to a backtick at the beginning of one.  The flag says whether the
lines begin inside a block. -/
inductive Joined : Bool → List Bytes → Bytes → Prop where
  | last {line : Bytes} : line.getLast? ≠ some 0x60 → line.getLast? ≠ some 0x5C →
      Joined false [line] line
  | continued {line text : Bytes} {lines : List Bytes} : line.getLast? = some 0x5C →
      Joined false lines text → Joined false (line :: lines) (line.dropLast ++ text)
  | opened {line text : Bytes} {lines : List Bytes} : line.getLast? = some 0x60 →
      Joined true lines text → Joined false (line :: lines) (line ++ 0x0A :: text)
  | inside {line text : Bytes} {lines : List Bytes} : line.head? ≠ some 0x60 →
      Joined true lines text → Joined true (line :: lines) (line ++ 0x0A :: text)
  | closed {line : Bytes} : line.head? = some 0x60 → line.getLast? ≠ some 0x5C →
      Joined true [line] line
  | closedContinued {line text : Bytes} {lines : List Bytes} : line.head? = some 0x60 →
      line.getLast? = some 0x5C → Joined false lines text →
      Joined true (line :: lines) (line.dropLast ++ text)

theorem Joined.unique {b : Bool} {lines lines' rest rest' : List Bytes} {text text' : Bytes}
    (h : Joined b lines text) (h' : Joined b lines' text')
    (heq : lines ++ rest = lines' ++ rest') : lines = lines' := by
  induction h generalizing lines' text' with
  | last hopen hback => cases h' <;> grind
  | continued hback h ih => cases h' <;> grind
  | opened hopen h ih => cases h' <;> grind
  | inside hclose h ih => cases h' <;> grind
  | closed hclose hback => cases h' <;> grind
  | closedContinued hclose hback h ih => cases h' <;> grind

theorem flatten_unique : ∀ {groups groups' : List (List Bytes)} {texts : List Bytes}
    {rest rest' : List Bytes}, List.Forall₂ (Joined false) groups texts →
    List.Forall₂ (Joined false) groups' texts →
    groups.flatten ++ rest = groups'.flatten ++ rest' → rest = rest' := by
  intro groups
  induction groups with
  | nil =>
    intro groups' texts rest rest' h h' heq
    cases h
    cases h'
    exact heq
  | cons group groups ih =>
    intro groups' texts rest rest' h h' heq
    cases h with
    | cons hgroup hgroups =>
      cases h' with
      | cons hgroup' hgroups' =>
        rw [flatten_cons, flatten_cons, append_assoc, append_assoc] at heq
        have hfirst := hgroup.unique hgroup' heq
        subst hfirst
        exact ih hgroups hgroups' (append_cancel_left heq)

def significant (texts : List Bytes) : List Bytes :=
  (texts.map trimSpace).filter isSignificant

def significantLines (data : Bytes) : List Bytes := significant ((physicalLines data).map dropCR)

theorem significantLines_eq (data : Bytes) :
    significantLines data = significant (scanLines data) ++ significant (unscanned data) := by
  unfold significantLines significant scanLines unscanned
  rw [← filter_append, ← map_append, ← map_append, takeWhile_append_dropWhile]

/-- Lines are waiting in the buffer: they are joined to what the rest is joined to. -/
def Waiting (st : LineState) (lines : List Bytes) : Prop :=
  ∀ {rest : List Bytes} {text : Bytes}, Joined st.inBackticks rest text →
    Joined false (lines ++ rest) (st.linebuffer ++ text)

/-- Outside of a block lines are waiting exactly after a backslash. -/
def WaitsForMore (st : LineState) (lines before : List Bytes) : Prop :=
  st.inBackticks = false →
    (lines = [] ↔ ∀ line, before.getLast? = some line → line.getLast? ≠ some 0x5C)

theorem waitsForMore_block {buffer : Bytes} (lines before : List Bytes) :
    WaitsForMore ⟨buffer, true⟩ lines before := nofun

theorem waitsForMore_concat {buffer line : Bytes} (lines before : List Bytes)
    (h : line.getLast? = some 0x5C) :
    WaitsForMore ⟨buffer, false⟩ (lines ++ [line]) (before ++ [line]) := by
  refine fun _ => iff_of_false (by simp) (fun hlast => ?_)
  exact hlast line List.getLast?_concat h

variable {line : Bytes}

theorem waitsForMore_nil (before : List Bytes) (h : line.getLast? ≠ some 0x5C) :
    WaitsForMore .initial [] (before ++ [line]) := by
  refine fun _ => iff_of_true rfl (fun line' hlast => ?_)
  rw [List.getLast?_concat] at hlast
  cases hlast
  exact h

/-- What a significant line does: it waits with the others, or all of them are handed over. -/
theorem lineStep_significant {st : LineState} {text : Bytes} {lines : List Bytes}
    (before : List Bytes) (hwait : Waiting st lines)
    (hline : isSignificant (trimSpace text) = true) :
    (∃ st', lineStep st text = (none, st') ∧ Waiting st' (lines ++ [trimSpace text]) ∧
      WaitsForMore st' (lines ++ [trimSpace text]) (before ++ [trimSpace text])) ∨
    ∃ l, lineStep st text = (some l, .initial) ∧
      Joined false (lines ++ [trimSpace text]) l ∧
      WaitsForMore .initial [] (before ++ [trimSpace text]) := by
  unfold lineStep
  generalize trimSpace text = line at hline ⊢
  rw [if_neg (by rw [hline]; decide)]
  obtain ⟨buffer, inBackticks⟩ := st
  -- the line is appended to those that wait
  have hblock : (∀ {rest : List Bytes} {t : Bytes}, Joined true rest t →
      Joined inBackticks (line :: rest) (line ++ 0x0A :: t)) →
      Waiting ⟨buffer ++ line ++ [0x0A], true⟩ (lines ++ [line]) := by
    intro hjoin rest t h
    simpa using hwait (hjoin h)
  have hback : (∀ {rest : List Bytes} {t : Bytes}, Joined false rest t →
      Joined inBackticks (line :: rest) (line.dropLast ++ t)) →
      Waiting ⟨buffer ++ line.dropLast, false⟩ (lines ++ [line]) := by
    intro hjoin rest t h
    simpa using hwait (hjoin h)
  cases inBackticks with
  | false =>
    by_cases hopen : line.getLast? = some 0x60
    · rw [if_pos (by simp [backticksAfter, hopen])]
      exact .inl ⟨_, rfl, hblock (.opened hopen), waitsForMore_block _ _⟩
    · rw [if_neg (by simp [backticksAfter, hopen])]
      by_cases hslash : line.getLast? = some 0x5C
      · rw [if_pos hslash]
        exact .inl ⟨_, rfl, hback (.continued hslash), waitsForMore_concat _ _ hslash⟩
      · rw [if_neg hslash]
        exact .inr ⟨_, rfl, hwait (.last hopen hslash), waitsForMore_nil _ hslash⟩
  | true =>
    by_cases hclose : line.head? = some 0x60
    · rw [if_neg (by simp [backticksAfter, hclose])]
      by_cases hslash : line.getLast? = some 0x5C
      · rw [if_pos hslash]
        exact .inl ⟨_, rfl, hback (.closedContinued hclose hslash), waitsForMore_concat _ _ hslash⟩
      · rw [if_neg hslash]
        exact .inr ⟨_, rfl, hwait (.closed hclose hslash), waitsForMore_nil _ hslash⟩
    · rw [if_pos (by simp [backticksAfter, hclose])]
      exact .inl ⟨_, rfl, hblock (.inside hclose), waitsForMore_block _ _⟩

/-- **The lines that are read are joined**, up to those that wait at the end. -/
theorem logicalLoop_joined : ∀ (texts : List Bytes) (k : Nat) (st : LineState)
    (lines before : List Bytes), Waiting st lines → WaitsForMore st lines before →
    ∃ groups waiting, List.Forall₂ (Joined false) groups ((logicalLoop k st texts).map Prod.snd) ∧
      lines ++ significant texts = groups.flatten ++ waiting ∧
      WaitsForMore (finalState st texts) waiting (before ++ significant texts) := by
  intro texts
  induction texts with
  | nil =>
    intro k st lines before _ hmore
    exact ⟨[], lines, .nil, append_nil _, by simpa [significant, finalState] using hmore⟩
  | cons text rest ih =>
    intro k st lines before hwait hmore
    have hfinal : finalState st (text :: rest) = finalState (lineStep st text).2 rest := rfl
    unfold logicalLoop
    rw [hfinal]
    cases hline : isSignificant (trimSpace text) with
    | false =>
      have hstep : lineStep st text = (none, st) := by
        unfold lineStep
        rw [if_pos hline]
      have hskip : significant (text :: rest) = significant rest := by
        simp [significant, hline]
      rw [hstep, hskip]
      exact ih (k + 1) _ _ _ hwait hmore
    | true =>
      have hcons : significant (text :: rest) = trimSpace text :: significant rest := by
        simp [significant, hline]
      rw [hcons]
      rcases lineStep_significant before hwait hline with
        ⟨st', hstep, hwait', hmore'⟩ | ⟨l, hstep, hjoined, hmore'⟩
      · rw [hstep]
        simpa using ih (k + 1) _ _ _ hwait' hmore'
      · rw [hstep]
        obtain ⟨groups, waiting, hgroups, hsplit, hend⟩ :=
          ih (k + 1) .initial [] _ (fun h => h) hmore'
        refine ⟨(lines ++ [trimSpace text]) :: groups, waiting, .cons hjoined hgroups, ?_, ?_⟩
        · rw [flatten_cons, append_assoc, ← hsplit]
          simp
        · simpa using hend

/-! ### What is lost -/

/-- **When every line is handed over.**  After a success each significant line went into one call,
exactly if the scanner read all of them and the last one does not end with a backslash. -/
theorem lines_handed_iff {σ : Type} (nextLine : σ → σ)
    (evaluateLine : Bytes → σ → Option Failure × σ) (data : Bytes) (s : σ)
    (hok : (parseString nextLine evaluateLine data s).1 = none) :
    (∃ groups, List.Forall₂ (Joined false) groups (evaluateCalls nextLine evaluateLine data s) ∧
      groups.flatten = significantLines data) ↔
      (∀ text ∈ unscanned data, isSignificant (trimSpace text) = false) ∧
        ∀ line, (significantLines data).getLast? = some line → line.getLast? ≠ some 0x5C := by
  have hclosed : (finalState .initial (scanLines data)).inBackticks = false :=
    ((parseLoop_rule (I := fun _ => True) (fun _ _ => trivial) (fun _ _ _ => trivial)
      (scanLines data) 0 .initial s trivial).2.2 hok).1
  obtain ⟨groups, waiting, hgroups, hsplit, hmore⟩ :=
    logicalLoop_joined (scanLines data) 0 .initial [] [] (fun h => h) (fun _ => by simp)
  have hmore := hmore hclosed
  rw [nil_append] at hsplit hmore
  have hunread : significant (unscanned data) = [] ↔
      ∀ text ∈ unscanned data, isSignificant (trimSpace text) = false := by
    simp [significant]
  have hcalls : evaluateCalls nextLine evaluateLine data s
      = (logicalLoop 0 .initial (scanLines data)).map Prod.snd := calls_eq hok
  rw [hcalls, significantLines_eq, ← hunread]
  constructor
  · rintro ⟨groups', hgroups', hflat⟩
    -- the calls determine the lines that went into them
    rw [hsplit, append_assoc, ← append_nil groups'.flatten] at hflat
    have hrest := flatten_unique hgroups' hgroups hflat
    obtain ⟨hwaiting, hun⟩ := List.append_eq_nil_iff.mp hrest.symm
    rw [hun, append_nil]
    exact ⟨rfl, hmore.mp hwaiting⟩
  · rintro ⟨hun, hlast⟩
    rw [hun, append_nil] at hlast ⊢
    refine ⟨groups, hgroups, ?_⟩
    rw [hsplit, hmore.mpr hlast, append_nil]

def twoLines : Bytes := bytesOf "SecRuleEngine \\\n  On\n"

theorem lines_handed_two : ∃ groups, List.Forall₂ (Joined false) groups
      (evaluateCalls id (fun _ s => (none, s)) twoLines ()) ∧
    groups.flatten = significantLines twoLines := by
  have hok : (parseString id (fun _ s => (none, s)) twoLines ()).1 = none ∧
      unscanned twoLines = [] ∧
      (significantLines twoLines).getLast?.bind (·.getLast?) ≠ some 0x5C := by decide +kernel
  obtain ⟨hok, hread, hlast⟩ := hok
  refine (lines_handed_iff id (fun _ s => (none, s)) twoLines () hok).mpr ⟨?_, fun line hline => ?_⟩
  · rw [hread]
    exact fun _ h => absurd h not_mem_nil
  · rw [hline] at hlast
    exact hlast

theorem physicalLines_cons (h : 0x0A ∉ line) (rest : Bytes) :
    physicalLines (line ++ 0x0A :: rest) = line :: physicalLines rest := by
  have hsplit : (line ++ 0x0A :: rest).splitOn 0x0A = line :: rest.splitOn 0x0A := by
    calc (line ++ 0x0A :: rest).splitOn 0x0A
        = line.splitOn 0x0A ++ rest.splitOn 0x0A :=
          splitOnP_append_cons (p := (· == 0x0A)) _ _ (beq_self_eq_true _)
      _ = line :: rest.splitOn 0x0A := by
          rw [splitOn_eq_singleton h, singleton_append]
  unfold physicalLines
  rw [hsplit]
  cases hparts : rest.splitOn 0x0A with
  | nil => exact absurd hparts (splitOn_ne_nil _ _)
  | cons part parts =>
    dsimp only
    rw [List.getLast?_cons_cons]
    split <;> rfl

/-- Nothing is read of a line that is too long, and nothing after it. -/
theorem scanLines_long (h : 0x0A ∉ line) (hlong : fits line = false) (rest : Bytes) :
    scanLines (line ++ 0x0A :: rest) = [] := by
  unfold scanLines
  rw [physicalLines_cons h, takeWhile_cons_of_neg (by rw [hlong]; decide), map_nil]

theorem significantLines_cons (h : 0x0A ∉ line) (rest : Bytes) :
    significantLines (line ++ 0x0A :: rest)
      = significant [dropCR line] ++ significantLines rest := by
  unfold significantLines significant
  rw [physicalLines_cons h, map_cons, ← filter_append, ← map_append, singleton_append]

def longComment : Bytes := List.replicate maxScanTokenSize 0x23

theorem longComment_fits : fits longComment = false := by
  unfold fits longComment
  rw [length_replicate, decide_eq_false_iff_not]
  exact Nat.lt_irrefl _

theorem longComment_line : 0x0A ∉ longComment := by
  intro h
  exact absurd (eq_of_mem_replicate h) (by decide)

/-- A directive is lost behind a backslash at the end, and behind a comment that is too long. -/
theorem lines_lost :
    ((parseString id (fun _ s => (none, s)) (bytesOf "SecRuleEngine On\\") ()).1 = none ∧
      evaluateCalls id (fun _ s => (none, s)) (bytesOf "SecRuleEngine On\\") () = [] ∧
      significantLines (bytesOf "SecRuleEngine On\\") = [bytesOf "SecRuleEngine On\\"]) ∧
    (parseString id (fun _ s => (none, s)) (longComment ++ 0x0A :: bytesOf "SecRuleEngine On")
        ()).1 = none ∧
      evaluateCalls id (fun _ s => (none, s))
        (longComment ++ 0x0A :: bytesOf "SecRuleEngine On") () = [] ∧
      bytesOf "SecRuleEngine On" ∈
        significantLines (longComment ++ 0x0A :: bytesOf "SecRuleEngine On") := by
  have hok : (parseString id (fun _ s => (none, s))
      (longComment ++ 0x0A :: bytesOf "SecRuleEngine On") ()).1 = none := by
    unfold parseString
    rw [scanLines_long longComment_line longComment_fits]
    rfl
  have hrest : significantLines (bytesOf "SecRuleEngine On") = [bytesOf "SecRuleEngine On"] := by
    decide +kernel
  refine ⟨⟨by decide +kernel, by decide +kernel, by decide +kernel⟩, hok, ?_, ?_⟩
  · rw [calls_eq hok, logicalLines, scanLines_long longComment_line longComment_fits]
    rfl
  · rw [significantLines_cons longComment_line, hrest]
    exact mem_append_right _ (mem_singleton_self _)

end Coraza.Seclang
