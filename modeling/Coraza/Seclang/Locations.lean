import Coraza.Seclang.Include

/-!
# Where the rules were written

`ParseRule` and `SecMarker` write into a rule the file and the line that the parser holds.
`Ruleset` is a WAF of which only this is known: a directive may do anything to the rest of it, take
rules out and add one.

`walk` goes through the files without a parser and says of each directive in which file and in
which line it ends, and how much was read before.  `fromFile_recorded` says what the parser records
instead, and `rules_attributed_iff` when it is the same.
-/

namespace Coraza.Seclang

open Go List

/-! ### Rules with their places -/

/-- `File_` and `Line_` of a rule, with the number of the directive that made it. -/
structure RuleRecord where
  file : Bytes
  line : Nat
  origin : Nat
  deriving DecidableEq

/-- A WAF with its rules, also those in chains.  `calls` is the number of directives so far. -/
structure Ruleset (β : Type) where
  inner : β
  rules : List RuleRecord
  calls : Nat
  deriving DecidableEq

/-- What a directive does: to the rest of the WAF, whether it makes a rule and which rules it
leaves. -/
structure Effect (β : Type) where
  inner : β
  makes : Bool
  keeps : Nat → Bool

section

variable {β : Type}

/-- A directive on a ruleset: a new rule gets the file and the line of the options. -/
def recordRule (compile : DirectiveOptions → β → Except Error (Effect β))
    (options : DirectiveOptions) (w : Ruleset β) : Option Error × Ruleset β :=
  match compile options w.inner with
  | .error err => (some err, w)
  | .ok effect =>
    (none, {
      inner := effect.inner
      rules := w.rules.filter (fun r => effect.keeps r.origin)
        ++ (if effect.makes then [⟨options.configFile, options.lastLine, w.calls⟩] else [])
      calls := w.calls + 1 })

def ruleEnvironment (fs : FileSystem) (getwd : Except Error Bytes)
    (compile : Bytes → Option (DirectiveOptions → β → Except Error (Effect β))) :
    Environment (Ruleset β) :=
  { fs with
    getwd := getwd
    directives := fun name => (compile name).map recordRule }

end

/-! ### The directives of the files -/

/-- A directive, the file that it stands in and the line in which it ends.  `before` is the number
of lines that were read before the file was opened, and `included` the number of those that were
read for the includes before it in the file, if there are any. -/
structure Place where
  file : Bytes
  line : Nat
  before : Nat
  included : Option Nat
  deriving DecidableEq

namespace Place

def shownFile (place : Place) : Bytes := if place.included.isSome then [] else place.file

def shownLine (place : Place) : Nat := place.before + place.line + place.included.getD 0

/-- The parser holds the right file and line for the first file, before its includes. -/
theorem shown_iff {place : Place} (h : place.file ≠ []) :
    place.shownFile = place.file ∧ place.shownLine = place.line ↔
      place.before = 0 ∧ place.included = none := by
  obtain ⟨file, line, before, included⟩ := place
  cases included with
  | none => simp [shownFile, shownLine]
  | some k => exact iff_of_false (fun hshown => h hshown.1.symm) (fun hplace => nomatch hplace.2)

end Place

def walkLines (walk : Bytes → Nat → List Place × Nat) (file : Bytes) (before : Nat) :
    Option Nat → List (Nat × Bytes) → List Place × Option Nat
  | included, [] => ([], included)
  | included, (k, l) :: rest =>
    match includedPath l with
    | some path =>
      let (places, read) := walk path (before + k + included.getD 0)
      let (more, last) := walkLines walk file before (some (included.getD 0 + read)) rest
      (places ++ more, last)
    | none =>
      let (more, last) := walkLines walk file before included rest
      (⟨file, k, before, included⟩ :: more, last)

def walkFile (fs : FileSystem) (walk : Bytes → Nat → List Place × Nat) (file : Bytes)
    (before : Nat) : List Place × Nat :=
  match fs.readFile file with
  | .error _ => ([], 0)
  | .ok text =>
    let (places, included) := walkLines walk file before none (logicalLines text)
    (places, (scanLines text).length + included.getD 0)

def walkFiles (fs : FileSystem) (walk : Bytes → Bytes → Nat → List Place × Nat) :
    List Bytes → Nat → List Place × Nat
  | [], _ => ([], 0)
  | file :: rest, before =>
    let (places, read) := walkFile fs (walk (Path.dir file)) file before
    let (more, reads) := walkFiles fs walk rest (before + read)
    (places ++ more, read + reads)

/-- The directives behind a path, up to a depth of includes, and the number of lines that are
read. -/
def walk (fs : FileSystem) : Nat → Bytes → Bytes → Nat → List Place × Nat
  | 0, _, _, _ => ([], 0)
  | n + 1, dir, path, before => walkFiles fs (walk fs n) (openedFiles fs dir path) before

theorem walkLines_file {step : Bytes → Nat → List Place × Nat} {file : Bytes} (hfile : file ≠ [])
    (hwalk : ∀ path before, ∀ place ∈ (step path before).1, place.file ≠ []) (before : Nat)
    (lines : List (Nat × Bytes)) (included : Option Nat) :
    ∀ place ∈ (walkLines step file before included lines).1, place.file ≠ [] := by
  induction lines generalizing included with
  | nil => exact fun place h => absurd h not_mem_nil
  | cons kl rest ih =>
    intro place h
    rw [walkLines] at h
    split at h
    · rcases List.mem_append.mp h with h | h
      · exact hwalk _ _ place h
      · exact ih _ place h
    · rcases List.mem_cons.mp h with rfl | h
      · exact hfile
      · exact ih _ place h

theorem walk_file (fs : FileSystem) (n : Nat) (dir path : Bytes) (before : Nat) :
    ∀ place ∈ (walk fs n dir path before).1, place.file ≠ [] := by
  induction n generalizing dir path before with
  | zero => exact fun place h => absurd h not_mem_nil
  | succ n ih =>
    rw [walk]
    generalize openedFiles fs dir path = files
    induction files generalizing before with
    | nil => exact fun place h => absurd h not_mem_nil
    | cons file rest ihfiles =>
      intro place h
      rw [walkFiles] at h
      rcases List.mem_append.mp h with h | h
      · unfold walkFile at h
        cases hread : fs.readFile file with
        | error err =>
          rw [hread] at h
          exact absurd h not_mem_nil
        | ok text =>
          rw [hread] at h
          refine walkLines_file ?_ (ih _) _ _ _ place h
          rintro rfl
          exact fs.readFile_nil text hread
      · exact ihfiles _ place h

/-! ### What the parser records -/

section

variable {β : Type}

/-- The rules record what the parser held at the directives that made them. -/
structure Recorded (places : List Place) (w : Ruleset β) : Prop where
  calls : w.calls = places.length
  rules : ∀ r ∈ w.rules, ∃ place, places[r.origin]? = some place ∧
    r.file = place.shownFile ∧ r.line = place.shownLine

theorem Recorded.step {places : List Place} {w : Ruleset β} (h : Recorded places w)
    {compile : DirectiveOptions → β → Except Error (Effect β)} {options : DirectiveOptions}
    {w' : Ruleset β} (hstep : recordRule compile options w = (none, w')) (place : Place)
    (hfile : options.configFile = place.shownFile) (hline : options.lastLine = place.shownLine) :
    Recorded (places ++ [place]) w' := by
  unfold recordRule at hstep
  split at hstep
  · cases hstep
  · cases hstep
    refine ⟨?_, fun r hr => ?_⟩
    · rw [length_append, length_singleton, h.calls]
    · rcases List.mem_append.mp hr with hr | hr
      · obtain ⟨place', hplace', hshown⟩ := h.rules r (List.mem_filter.mp hr).1
        exact ⟨place', List.getElem?_append_left (List.getElem?_eq_some_iff.mp hplace').1 ▸ hplace',
          hshown⟩
      · split at hr
        · rw [mem_singleton] at hr
          subst hr
          refine ⟨place, ?_, hfile, hline⟩
          show (places ++ [place])[w.calls]? = some place
          rw [h.calls, List.getElem?_concat_length]
        · exact absurd hr not_mem_nil

structure AtLine (file : Bytes) (before : Nat) (included : Option Nat) (k : Nat)
    (p : Parser (Ruleset β)) : Prop where
  dir : p.currentDir = Path.dir file
  file : p.currentFile = if included.isSome then [] else file
  line : p.currentLine = before + k + included.getD 0

variable {fs : FileSystem} {getwd : Except Error Bytes}
  {compile : Bytes → Option (DirectiveOptions → β → Except Error (Effect β))}

theorem runDirective_success {l directive opts : Bytes} {p p' : Parser (Ruleset β)}
    (h : runDirective (ruleEnvironment fs getwd compile) l directive opts p = (none, p')) :
    ∃ d wd w', recordRule d ⟨l, opts, p.currentLine, p.currentFile, p.currentDir, wd⟩ p.waf
        = (none, w') ∧ p' = { p with waf := w' } := by
  unfold runDirective at h
  split at h
  · cases h
  · rename_i d hd
    obtain ⟨compiled, -, rfl⟩ := Option.map_eq_some_iff.mp hd
    split at h
    · cases h
    · rename_i wd _
      split at h
      · cases h
      · rename_i w' hout
        cases h
        exact ⟨compiled, wd, w', hout, rfl⟩

/-- What a call of `FromFile` records, as `walk` has it. -/
def Records (fs : FileSystem) (getwd : Except Error Bytes)
    (compile : Bytes → Option (DirectiveOptions → β → Except Error (Effect β))) (n : Nat) : Prop :=
  ∀ {path : Bytes} {p p' : Parser (Ruleset β)} {places : List Place},
    fromFile (ruleEnvironment fs getwd compile) n path p = (none, p') → Recorded places p.waf →
    Recorded (places ++ (walk fs n p.currentDir path p.currentLine).1) p'.waf ∧
      p'.currentLine = p.currentLine + (walk fs n p.currentDir path p.currentLine).2 ∧
      p'.currentFile = []

theorem fromFile_dir {n : Nat} {path : Bytes} {p p' : Parser (Ruleset β)} {err : Option Failure}
    (h : fromFile (ruleEnvironment fs getwd compile) n path p = (err, p')) :
    p'.currentDir = p.currentDir := by
  have hkept : Kept p (fromFile (ruleEnvironment fs getwd compile) n path p).2 :=
    fromFile_kept n path p
  rw [h] at hkept
  exact hkept.dir

theorem parseLoop_recorded_places {n : Nat} (ih : Records fs getwd compile n) (file : Bytes)
    (before : Nat) : ∀ (texts : List Bytes) (st : LineState) (k : Nat) (included : Option Nat)
    {p p' : Parser (Ruleset β)} {places : List Place},
    parseLoop nextLine (evaluateLine (ruleEnvironment fs getwd compile)
      (fromFile (ruleEnvironment fs getwd compile) n)) st texts p = (none, p') →
    AtLine file before included k p → Recorded places p.waf →
    Recorded (places ++ (walkLines (walk fs n (Path.dir file)) file before included
        (logicalLoop k st texts)).1) p'.waf ∧
      p'.currentLine = before + (k + texts.length)
        + (walkLines (walk fs n (Path.dir file)) file before included
          (logicalLoop k st texts)).2.getD 0 := by
  intro texts
  induction texts with
  | nil =>
    intro st k included p p' places h hat hrec
    obtain ⟨-, rfl⟩ := Prod.mk.inj h
    refine ⟨?_, hat.line⟩
    rw [show logicalLoop k st [] = [] from rfl, walkLines, append_nil]
    exact hrec
  | cons text rest ihtexts =>
    intro st k included p p' places h hat hrec
    have hnext : AtLine file before included (k + 1) (nextLine p) := by
      refine ⟨hat.dir, hat.file, ?_⟩
      show p.currentLine + 1 = _
      rw [hat.line]
      omega
    have hlength : k + (text :: rest).length = k + 1 + rest.length := by
      rw [length_cons]
      omega
    rw [hlength]
    unfold parseLoop at h
    unfold logicalLoop
    cases hstep : lineStep st text with
    | mk out st' =>
      rw [hstep] at h
      cases out with
      | none => exact ihtexts st' (k + 1) included h hnext hrec
      | some l =>
        dsimp only at h ⊢
        rw [walkLines]
        split at h
        · rename_i q heval
          rcases evaluateLine_cases (fromFile (ruleEnvironment fs getwd compile) n) l
            (nextLine p) with ⟨err, heq⟩ | ⟨hnone, heq⟩ | ⟨path, hpath, -, heq⟩
          · cases heq.symm.trans heval
          · -- a directive is recorded where it ends
            rw [hnone]
            obtain ⟨d, wd, w', hrecord, rfl⟩ := runDirective_success (heq.symm.trans heval)
            have hplace := hrec.step hrecord ⟨file, k + 1, before, included⟩ hnext.file hnext.line
            have hmore := ihtexts st' (k + 1) included h ⟨hnext.dir, hnext.file, hnext.line⟩ hplace
            rw [append_assoc] at hmore
            exact hmore
          · -- an include leaves no file behind, and has read some lines
            rw [hpath]
            have hcall := heq.symm.trans heval
            obtain ⟨hrec', hline, hfile⟩ := ih hcall hrec
            rw [hnext.line, hnext.dir] at hrec' hline
            have hmore := ihtexts st' (k + 1) (some (included.getD 0
              + (walk fs n (Path.dir file) path (before + (k + 1) + included.getD 0)).2)) h
              ⟨(fromFile_dir hcall).trans hnext.dir, hfile, by rw [Option.getD_some]; omega⟩ hrec'
            rw [append_assoc] at hmore
            exact hmore
        · cases h

theorem readFiles_recorded {n : Nat} (ih : Records fs getwd compile n) (dir : Bytes)
    (isGlob : Bool) (paths : List Bytes) {p p' : Parser (Ruleset β)} {places : List Place} :
    readFiles (ruleEnvironment fs getwd compile) (parseString nextLine
      (evaluateLine (ruleEnvironment fs getwd compile)
        (fromFile (ruleEnvironment fs getwd compile) n))) dir isGlob paths p = (none, p') →
    p.currentDir = dir → Recorded places p.waf →
    Recorded (places ++ (walkFiles fs (walk fs n) (paths.map (openedPath isGlob dir))
        p.currentLine).1) p'.waf ∧
      p'.currentLine = p.currentLine + (walkFiles fs (walk fs n)
        (paths.map (openedPath isGlob dir)) p.currentLine).2 ∧
      p'.currentFile = [] := by
  induction paths generalizing p p' places with
  | nil =>
    intro h hdir hrec
    cases h
    refine ⟨?_, rfl, rfl⟩
    rw [map_nil, walkFiles, append_nil]
    exact hrec
  | cons path rest ihpaths =>
    intro h hdir hrec
    subst hdir
    rw [map_cons, walkFiles]
    rcases readFiles_cons (parseString nextLine (evaluateLine (ruleEnvironment fs getwd compile)
      (fromFile (ruleEnvironment fs getwd compile) n))) p.currentDir isGlob path rest p with
      ⟨err, -, heq⟩ | ⟨text, hread, ⟨err, q, -, heq⟩ | ⟨q, hparse, heq⟩⟩
    · cases heq.symm.trans h
    · cases heq.symm.trans h
    · have hread : fs.readFile (openedPath isGlob p.currentDir path) = .ok text := hread
      generalize openedPath isGlob p.currentDir path = file at hread hparse
      obtain ⟨hrec', hline⟩ := parseLoop_recorded_places ih file p.currentLine (scanLines text)
        .initial 0 none hparse ⟨rfl, rfl, rfl⟩ hrec
      have hwalk : walkFile fs (walk fs n (Path.dir file)) file p.currentLine
          = ((walkLines (walk fs n (Path.dir file)) file p.currentLine none
              (logicalLines text)).1,
            (scanLines text).length + (walkLines (walk fs n (Path.dir file)) file p.currentLine none
              (logicalLines text)).2.getD 0) := by
        unfold walkFile
        rw [hread]
      have hline' : q.currentLine = p.currentLine + ((scanLines text).length
          + (walkLines (walk fs n (Path.dir file)) file p.currentLine none
            (logicalLines text)).2.getD 0) := by
        rw [hline, Nat.zero_add, Nat.add_assoc]
        rfl
      obtain ⟨hrec'', hline'', hfile⟩ := ihpaths (heq.symm.trans h) rfl hrec'
      rw [hline', append_assoc] at hrec''
      rw [hline'] at hline''
      rw [hwalk]
      refine ⟨hrec'', ?_, hfile⟩
      rw [hline'', Nat.add_assoc]

/-- **What the parser records** for the rules behind a path. -/
theorem fromFile_recorded (n : Nat) : Records fs getwd compile n := by
  induction n with
  | zero => exact fun h _ => nomatch h
  | succ n ih =>
    intro path p p' places h hrec
    rw [walk]
    rw [fromFile] at h
    unfold openedFiles
    split at h
    · rename_i hglob
      rw [if_pos hglob]
      split at h
      · cases h
      · rename_i files hfiles
        have hfiles : fs.glob path = .ok files := hfiles
        rw [hfiles]
        exact readFiles_recorded ih _ _ _ h rfl hrec
    · rename_i hglob
      rw [if_neg hglob]
      exact readFiles_recorded ih _ _ [path] h rfl hrec

end

/-! ### Attribution -/

def RuleRecord.At (r : RuleRecord) (places : List Place) (P : Place → Prop) : Prop :=
  ∃ place, places[r.origin]? = some place ∧ P place

/-- **When rules are attributed to their file and line.**  After a success this is so exactly for
the rules of the first file in which there are lines, and there only before the first include. -/
theorem rules_attributed_iff {β : Type} (fs : FileSystem) (getwd : Except Error Bytes)
    (compile : Bytes → Option (DirectiveOptions → β → Except Error (Effect β))) (path : Bytes)
    {p p' : Parser (Ruleset β)} (hrules : p.waf.rules = []) (hcalls : p.waf.calls = 0)
    (hok : fromFile (ruleEnvironment fs getwd compile) (maxIncludeRecursion + 1) path p
      = (none, p')) :
    (∀ r ∈ p'.waf.rules, r.At (walk fs (maxIncludeRecursion + 1) p.currentDir path
        p.currentLine).1 (fun place => r.file = place.file ∧ r.line = place.line)) ↔
      ∀ r ∈ p'.waf.rules, r.At (walk fs (maxIncludeRecursion + 1) p.currentDir path
        p.currentLine).1 (fun place => place.before = 0 ∧ place.included = none) := by
  have hempty : Recorded [] p.waf := by
    refine ⟨hcalls, fun r hr => ?_⟩
    rw [hrules] at hr
    exact absurd hr not_mem_nil
  have hrec := (fromFile_recorded (maxIncludeRecursion + 1) hok hempty).1
  refine forall₂_congr (fun r hr => exists_congr (fun place => and_congr_right (fun hplace => ?_)))
  obtain ⟨place', hplace', hfile, hline⟩ := hrec.rules r hr
  cases hplace.symm.trans hplace'
  rw [hfile, hline]
  exact place.shown_iff (walk_file fs _ _ _ _ place (mem_of_getElem? hplace))

def configFiles : FileSystem where
  readFile path :=
    if path = bytesOf "main.conf" then .ok (bytesOf "Include a.conf\nSecAction 1\n")
    else if path = bytesOf "a.conf" then .ok (bytesOf "SecAction 2\n")
    else if path = bytesOf "b.conf" then .ok (bytesOf "SecAction 3\n\nSecAction 4\n")
    else .error (.new "file does not exist")
  readFile_nil file := by
    rw [if_neg (by decide +kernel), if_neg (by decide +kernel), if_neg (by decide +kernel)]
    exact nofun
  glob _ := .ok []

def actionsOnly (name : Bytes) : Option (DirectiveOptions → Unit → Except Error (Effect Unit)) :=
  if name = bytesOf "secaction" then some (fun _ _ => .ok ⟨(), true, fun _ => true⟩) else none

def parsedFile (path : String) : Option Failure × Parser (Ruleset Unit) :=
  fromFile (ruleEnvironment configFiles (.ok []) actionsOnly) (maxIncludeRecursion + 1)
    (bytesOf path) (.new ⟨(), [], 0⟩)

/-- A file with two rules and an empty line between them. -/
theorem rules_attributed_two : (parsedFile "b.conf").2.waf.rules
      = [⟨bytesOf "b.conf", 1, 0⟩, ⟨bytesOf "b.conf", 3, 1⟩] ∧
    ∀ r ∈ (parsedFile "b.conf").2.waf.rules, r.At (walk configFiles (maxIncludeRecursion + 1) []
      (bytesOf "b.conf") 0).1 (fun place => r.file = place.file ∧ r.line = place.line) := by
  have hrun : parsedFile "b.conf" = (none, (parsedFile "b.conf").2) ∧
      (parsedFile "b.conf").2.waf.rules
        = [⟨bytesOf "b.conf", 1, 0⟩, ⟨bytesOf "b.conf", 3, 1⟩] ∧
      (walk configFiles (maxIncludeRecursion + 1) [] (bytesOf "b.conf") 0).1
        = [⟨bytesOf "b.conf", 1, 0, none⟩, ⟨bytesOf "b.conf", 3, 0, none⟩] := by decide +kernel
  obtain ⟨hok, hrules, hplaces⟩ := hrun
  refine ⟨hrules, (rules_attributed_iff configFiles (.ok []) actionsOnly (bytesOf "b.conf") rfl rfl
    hok).mpr ?_⟩
  show ∀ r ∈ (parsedFile "b.conf").2.waf.rules, r.At (walk configFiles (maxIncludeRecursion + 1) []
    (bytesOf "b.conf") 0).1 _
  rw [hplaces, hrules]
  simp [RuleRecord.At]

/-- The rule of the included file is said to be in line 2 of it, and the one behind the include in
line 3 of no file. -/
theorem rules_misattributed : (parsedFile "main.conf").1 = none ∧
      (parsedFile "main.conf").2.waf.rules = [⟨bytesOf "a.conf", 2, 0⟩, ⟨[], 3, 1⟩] ∧
      (walk configFiles (maxIncludeRecursion + 1) [] (bytesOf "main.conf") 0).1
        = [⟨bytesOf "a.conf", 1, 1, none⟩, ⟨bytesOf "main.conf", 2, 0, some 1⟩] := by
  decide +kernel

end Coraza.Seclang
