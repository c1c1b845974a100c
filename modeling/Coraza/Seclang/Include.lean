import Coraza.Go.Path
import Coraza.Seclang.Lines

/-!
# Includes

`FromFile` reads a file, or all files that match a pattern, and hands each one to `parseString`.
Its lines are directives; `Include` is `FromFile` again, below the directory of the file that it
stands in.  The parser counts the includes and refuses to follow more than `maxIncludeRecursion`.

The model has a fuel for the depth of the includes.  `parsing_terminates` says that there is always
enough, over the life of a parser, that the directory is restored however a call ends, and that a
cycle of includes is an error.
-/

namespace Coraza.Seclang

open Go

/-! ### The parser -/

def maxIncludeRecursion : Nat := 100

/-- What a directive gets of `DirectiveOptions`, besides the WAF. -/
structure DirectiveOptions where
  raw : Bytes
  opts : Bytes
  lastLine : Nat
  configFile : Bytes
  configDir : Bytes
  workingDir : Bytes

/-- `Parser`, where directives change a value of type `α`.  `expansions` are the paths of the
`Include` directives that were followed; the code does not keep them. -/
structure Parser (α : Type) where
  waf : α
  currentLine : Nat
  currentFile : Bytes
  currentDir : Bytes
  includeCount : Nat
  expansions : List Bytes
  deriving DecidableEq

def Parser.new {α : Type} (waf : α) : Parser α := ⟨waf, 0, [], [], 0, []⟩

/-- The file system of a parser, its `root`.  There is no file without a name. -/
structure FileSystem where
  readFile : Bytes → Except Error Bytes
  readFile_nil : ∀ file, readFile [] ≠ .ok file
  glob : Bytes → Except Error (List Bytes)

/-- The surroundings of a parser: the file system, `os.Getwd` and `directivesMap`. -/
structure Environment (α : Type) extends FileSystem where
  getwd : Except Error Bytes
  directives : Bytes → Option (DirectiveOptions → α → Option Error × α)

def splitDirective (l : Bytes) : Bytes × Bytes :=
  let (dir, opts, _) := Strings.cut l 0x20
  let opts :=
    if opts.length ≥ 3 ∧ opts.head? = some 0x22 ∧ opts.getLast? = some 0x22 then
      Strings.trim opts [0x22]
    else opts
  (Strings.toLower dir, opts)

def includedPath (l : Bytes) : Option Bytes :=
  let (directive, opts) := splitDirective l
  if directive = bytesOf "include" then some opts else none

def anchored (currentDir path : Bytes) : Bytes :=
  let path := Strings.trimSpace path
  if Path.isAbs path then path else Path.join currentDir path

section

variable {α : Type} (env : Environment α)

def runDirective (l directive opts : Bytes) (p : Parser α) : Option Failure × Parser α :=
  match env.directives directive with
  | none => (some (.error (.errorf "unknown directive %q" [directive])), p)
  | some d =>
    match env.getwd with
    | .error err => (some (.error err), p)
    | .ok wd =>
      match d ⟨l, opts, p.currentLine, p.currentFile, p.currentDir, wd⟩ p.waf with
      | (some err, waf) =>
        (some (.error (.errorf "failed to compile the directive %q: %w" [directive, err.text])),
          { p with waf })
      | (none, waf) => (none, { p with waf })

/-- `evaluateLine`, with `FromFile`. -/
def evaluateLine (fromFile : Bytes → Parser α → Option Failure × Parser α) (l : Bytes)
    (p : Parser α) : Option Failure × Parser α :=
  if l = [] ∨ l.head? = some 0x23 then (some (.error (.new "invalid line")), p)
  else
    let (directive, opts) := splitDirective l
    if directive = bytesOf "include" then
      if p.includeCount ≥ maxIncludeRecursion then
        (some (.error (.new "cannot include more than 100 files")), p)
      else
        fromFile opts { p with
          includeCount := p.includeCount + 1
          expansions := p.expansions ++ [opts] }
    else runDirective env l directive opts p

def nextLine (p : Parser α) : Parser α := { p with currentLine := p.currentLine + 1 }

def Failure.inFile : Failure → Failure
  | .error err => .error (.errorf "failed to parse string: %w" [err.text])
  | .outOfFuel => .outOfFuel

def restore (originalDir : Bytes) (p : Parser α) : Parser α :=
  { p with currentDir := originalDir, currentFile := [] }

def Parser.atFile (p : Parser α) (path : Bytes) : Parser α :=
  { p with currentFile := path, currentDir := Path.dir path }

/-- The path of a file in the loop of `FromFile`; the files that match a pattern are not looked for
below the directory. -/
def openedPath (isGlob : Bool) (dir path : Bytes) : Bytes :=
  if isGlob then Strings.trimSpace path else anchored dir path

def readFiles (parse : Bytes → Parser α → Option Failure × Parser α) (originalDir : Bytes)
    (isGlob : Bool) : List Bytes → Parser α → Option Failure × Parser α
  | [], p => (none, restore originalDir p)
  | path :: rest, p =>
    let path := openedPath isGlob p.currentDir path
    let lastDir := p.currentDir
    match env.readFile path with
    | .error err =>
      (some (.error (.errorf "failed to read file: %w" [err.text])),
        restore originalDir (p.atFile path))
    | .ok file =>
      match parse file (p.atFile path) with
      | (some err, p) => (some err.inFile, restore originalDir p)
      | (none, p) => readFiles parse originalDir isGlob rest { p with currentDir := lastDir }

def isGlob (path : Bytes) : Bool := 0x2A ∈ path

/-- `FromFile`, with a fuel for the includes. -/
def fromFile : Nat → Bytes → Parser α → Option Failure × Parser α
  | 0, _, p => (some .outOfFuel, p)
  | n + 1, path, p =>
    let parse := parseString nextLine (evaluateLine env (fromFile n))
    if isGlob path then
      match env.glob path with
      | .error err => (some (.error (.errorf "failed to glob: %w" [err.text])), p)
      | .ok files => readFiles env parse p.currentDir true files p
    else readFiles env parse p.currentDir false [path] p

/-- `FromString`, with a fuel for the includes. -/
def fromString (n : Nat) (data : Bytes) (p : Parser α) : Option Failure × Parser α :=
  let (err, p') := parseString nextLine (evaluateLine env (fromFile env n)) data
    { p with currentFile := bytesOf "_inline_" }
  (err, { p' with currentFile := p.currentFile })

end

/-! ### What a call keeps -/

/-- What every call leaves alone, or changes in one direction only. -/
structure Kept {α : Type} (p p' : Parser α) : Prop where
  dir : p'.currentDir = p.currentDir
  mono : p.includeCount ≤ p'.includeCount
  bound : p'.includeCount ≤ max maxIncludeRecursion p.includeCount
  count : p'.expansions.length + p.includeCount = p.expansions.length + p'.includeCount

namespace Kept

variable {α : Type} {p p₁ p' : Parser α}

theorem refl (p : Parser α) : Kept p p := ⟨rfl, le_rfl, le_max_right _ _, rfl⟩

theorem trans (h : Kept p p₁) (h' : Kept p₁ p') : Kept p p' where
  dir := h'.dir.trans h.dir
  mono := h.mono.trans h'.mono
  bound := by
    have := h.bound
    have := h'.bound
    omega
  count := by
    have := h.count
    have := h'.count
    omega

end Kept

section

variable {α : Type} {env : Environment α}

theorem nextLine_kept (p : Parser α) : Kept p (nextLine p) :=
  ⟨rfl, le_rfl, le_max_right _ _, rfl⟩

theorem runDirective_kept (l directive opts : Bytes) (p : Parser α) :
    Kept p (runDirective env l directive opts p).2 := by
  have hwaf : ∀ waf : α, Kept p { p with waf } := fun waf => ⟨rfl, le_rfl, le_max_right _ _, rfl⟩
  unfold runDirective
  split
  · exact .refl p
  · split
    · exact .refl p
    · split
      · exact hwaf _
      · exact hwaf _

/-- **What `evaluateLine` can do**: it fails at once, runs a directive or follows an include. -/
theorem evaluateLine_cases (fromFile : Bytes → Parser α → Option Failure × Parser α) (l : Bytes)
    (p : Parser α) :
    (∃ err, evaluateLine env fromFile l p = (some (.error err), p)) ∨
    (includedPath l = none ∧ evaluateLine env fromFile l p
      = runDirective env l (splitDirective l).1 (splitDirective l).2 p) ∨
    ∃ path, includedPath l = some path ∧ p.includeCount < maxIncludeRecursion ∧
      evaluateLine env fromFile l p = fromFile path { p with
        includeCount := p.includeCount + 1
        expansions := p.expansions ++ [path] } := by
  by_cases hline : l = [] ∨ l.head? = some 0x23
  · exact .inl ⟨_, if_pos hline⟩
  · by_cases hinclude : (splitDirective l).1 = bytesOf "include"
    · by_cases hcount : p.includeCount ≥ maxIncludeRecursion
      · exact .inl ⟨.new "cannot include more than 100 files",
          by simp [evaluateLine, hline, hinclude, hcount]⟩
      · exact .inr (.inr ⟨(splitDirective l).2, if_pos hinclude, Nat.lt_of_not_le hcount,
          by simp [evaluateLine, hline, hinclude, hcount]⟩)
    · exact .inr (.inl ⟨if_neg hinclude, by simp [evaluateLine, hline, hinclude]⟩)

theorem evaluateLine_kept {fromFile : Bytes → Parser α → Option Failure × Parser α}
    (h : ∀ path p, Kept p (fromFile path p).2) (l : Bytes) (p : Parser α) :
    Kept p (evaluateLine env fromFile l p).2 := by
  rcases evaluateLine_cases fromFile l p with ⟨err, heq⟩ | ⟨-, heq⟩ | ⟨path, -, hcount, heq⟩
  · rw [heq]
    exact .refl p
  · rw [heq]
    exact runDirective_kept ..
  · rw [heq]
    have hstep : Kept p { p with
        includeCount := p.includeCount + 1
        expansions := p.expansions ++ [path] } := by
      refine ⟨rfl, Nat.le_succ _, ?_, ?_⟩
      · exact Nat.le_trans hcount (Nat.le_max_left _ _)
      · simp only [List.length_append, List.length_singleton]
        omega
    exact hstep.trans (h path _)

theorem parseString_kept {evaluateLine : Bytes → Parser α → Option Failure × Parser α}
    (h : ∀ l p, Kept p (evaluateLine l p).2) (data : Bytes) (p : Parser α) :
    Kept p (parseString nextLine evaluateLine data p).2 :=
  (parseLoop_rule (I := Kept p) (fun q hq => hq.trans (nextLine_kept q))
    (fun l q hq => hq.trans (h l q)) _ 0 _ p (.refl p)).1

/-- **What the loop of `FromFile` does with a file.** -/
theorem readFiles_cons (parse : Bytes → Parser α → Option Failure × Parser α)
    (originalDir : Bytes) (isGlob : Bool) (path : Bytes) (rest : List Bytes) (p : Parser α) :
    (∃ err, env.readFile (openedPath isGlob p.currentDir path) = .error err ∧
      readFiles env parse originalDir isGlob (path :: rest) p
        = (some (.error (.errorf "failed to read file: %w" [err.text])),
          restore originalDir (p.atFile (openedPath isGlob p.currentDir path)))) ∨
    ∃ file, env.readFile (openedPath isGlob p.currentDir path) = .ok file ∧
      ((∃ err p', parse file (p.atFile (openedPath isGlob p.currentDir path)) = (some err, p') ∧
        readFiles env parse originalDir isGlob (path :: rest) p
          = (some err.inFile, restore originalDir p')) ∨
      ∃ p', parse file (p.atFile (openedPath isGlob p.currentDir path)) = (none, p') ∧
        readFiles env parse originalDir isGlob (path :: rest) p
          = readFiles env parse originalDir isGlob rest
            { p' with currentDir := p.currentDir }) := by
  rw [readFiles]
  generalize openedPath isGlob p.currentDir path = opened
  cases env.readFile opened with
  | error err => exact .inl ⟨err, rfl, rfl⟩
  | ok file =>
    refine .inr ⟨file, rfl, ?_⟩
    dsimp only
    generalize parse file (p.atFile opened) = out
    obtain ⟨err | err, p'⟩ := out
    · exact .inr ⟨p', rfl, rfl⟩
    · exact .inl ⟨err, p', rfl, rfl⟩

variable {parse : Bytes → Parser α → Option Failure × Parser α}

theorem readFiles_kept (h : ∀ data p, Kept p (parse data p).2) (originalDir : Bytes)
    (isGlob : Bool) :
    ∀ (paths : List Bytes) (p : Parser α), p.currentDir = originalDir →
      Kept p (readFiles env parse originalDir isGlob paths p).2 := by
  have hrestore : ∀ {p q : Parser α} {path : Bytes}, p.currentDir = originalDir →
      Kept (p.atFile path) q → Kept p (restore originalDir q) :=
    fun hdir hq => ⟨hdir.symm, hq.mono, hq.bound, hq.count⟩
  intro paths
  induction paths with
  | nil =>
    intro p hdir
    exact ⟨hdir.symm, le_rfl, le_max_right _ _, rfl⟩
  | cons path rest ih =>
    intro p hdir
    rcases readFiles_cons parse originalDir isGlob path rest p with
      ⟨err, -, heq⟩ | ⟨file, -, ⟨err, p', hparse, heq⟩ | ⟨p', hparse, heq⟩⟩
    · rw [heq]
      exact hrestore hdir (.refl _)
    · have hp' := h file (p.atFile (openedPath isGlob p.currentDir path))
      rw [hparse] at hp'
      rw [heq]
      exact hrestore hdir hp'
    · have hp' := h file (p.atFile (openedPath isGlob p.currentDir path))
      rw [hparse] at hp'
      rw [heq]
      refine Kept.trans ?_ (ih { p' with currentDir := p.currentDir } hdir)
      exact ⟨rfl, hp'.mono, hp'.bound, hp'.count⟩

/-- **Every call of `FromFile` keeps the directory**, and counts the includes. -/
theorem fromFile_kept (n : Nat) (path : Bytes) (p : Parser α) :
    Kept p (fromFile env n path p).2 := by
  induction n generalizing path p with
  | zero => exact .refl p
  | succ n ih =>
    have hparse : ∀ data p,
        Kept p (parseString nextLine (evaluateLine env (fromFile env n)) data p).2 :=
      parseString_kept (evaluateLine_kept ih)
    rw [fromFile]
    split
    · split
      · exact .refl p
      · exact readFiles_kept hparse _ _ _ _ rfl
    · exact readFiles_kept hparse _ _ _ _ rfl

theorem fromString_kept (n : Nat) (data : Bytes) (p : Parser α) :
    Kept p (fromString env n data p).2 := by
  have h : Kept _ (parseString nextLine (evaluateLine env (fromFile env n)) data
      { p with currentFile := bytesOf "_inline_" }).2 :=
    parseString_kept (evaluateLine_kept (fromFile_kept n)) data _
  exact ⟨h.dir, h.mono, h.bound, h.count⟩

/-! ### Termination -/

theorem readFiles_outOfFuel {I : Parser α → Prop} (hfile : ∀ p path, I p → I (p.atFile path))
    (hdir : ∀ p dir, I p → I { p with currentDir := dir })
    (hparse : ∀ data p, I p → I (parse data p).2)
    (hfuel : ∀ data p, I p → (parse data p).1 ≠ some .outOfFuel) (originalDir : Bytes)
    (isGlob : Bool) (paths : List Bytes) (p : Parser α) : I p →
      (readFiles env parse originalDir isGlob paths p).1 ≠ some .outOfFuel := by
  induction paths generalizing p with
  | nil => exact fun _ => nofun
  | cons path rest ih =>
    intro hp
    have hp₁ := hfile p (openedPath isGlob p.currentDir path) hp
    rcases readFiles_cons parse originalDir isGlob path rest p with
      ⟨err, -, heq⟩ | ⟨file, -, ⟨err, p', hout, heq⟩ | ⟨p', hout, heq⟩⟩
    · rw [heq]
      nofun
    · have hne := hfuel file _ hp₁
      rw [hout] at hne
      rw [heq]
      cases err with
      | error err => exact nofun
      | outOfFuel => exact absurd rfl hne
    · have hp' := hparse file _ hp₁
      rw [hout] at hp'
      rw [heq]
      exact ih _ (hdir p' _ hp')

/-- **The count of the includes is a bound for their depth.** -/
theorem fromFile_fuel (n : Nat) (path : Bytes) (p : Parser α) :
    maxIncludeRecursion - p.includeCount < n → (fromFile env n path p).1 ≠ some .outOfFuel := by
  induction n generalizing path p with
  | zero => exact fun h => absurd h (Nat.not_lt_zero _)
  | succ n ih =>
    intro hn
    have hline : ∀ l q, p.includeCount ≤ q.includeCount →
        (evaluateLine env (fromFile env n) l q).1 ≠ some .outOfFuel := by
      intro l q hq
      rcases evaluateLine_cases (fromFile env n) l q with
        ⟨err, heq⟩ | ⟨-, heq⟩ | ⟨path, -, hcount, heq⟩
      · rw [heq]
        nofun
      · rw [heq]
        unfold runDirective
        split
        · nofun
        · split
          · nofun
          · split <;> nofun
      · rw [heq]
        refine ih _ _ ?_
        show maxIncludeRecursion - (q.includeCount + 1) < n
        omega
    have hkept : ∀ l q, Kept q (evaluateLine env (fromFile env n) l q).2 :=
      evaluateLine_kept (fromFile_kept n)
    have hmono : ∀ l q, p.includeCount ≤ q.includeCount →
        p.includeCount ≤ (evaluateLine env (fromFile env n) l q).2.includeCount :=
      fun l q hq => hq.trans (hkept l q).mono
    have hparse : ∀ data q, p.includeCount ≤ q.includeCount →
        (parseString nextLine (evaluateLine env (fromFile env n)) data q).1
          ≠ some .outOfFuel := by
      intro data q hq hfuel
      rcases (parseLoop_rule (I := fun q : Parser α => p.includeCount ≤ q.includeCount)
        (fun q hq => hq.trans (nextLine_kept q).mono) hmono _ 0 _ q hq).2.1 _ hfuel with
        herr | ⟨l, q', hq', herr⟩
      · cases herr
      · exact hline l q' hq' herr
    have hread : ∀ isGlob paths, (readFiles env
        (parseString nextLine (evaluateLine env (fromFile env n))) p.currentDir isGlob paths p).1
          ≠ some .outOfFuel := fun isGlob paths =>
      readFiles_outOfFuel (I := fun q : Parser α => p.includeCount ≤ q.includeCount)
        (fun _ _ hq => hq) (fun _ _ hq => hq)
        (fun data q hq => hq.trans (parseString_kept hkept data q).mono) hparse
        p.currentDir isGlob paths p le_rfl
    rw [fromFile]
    split
    · split
      · nofun
      · exact hread true _
    · exact hread false _

theorem readFiles_congr {parse' : Bytes → Parser α → Option Failure × Parser α}
    (h : ∀ data p, (parse data p).1 ≠ some .outOfFuel → parse' data p = parse data p)
    (originalDir : Bytes) (isGlob : Bool) (paths : List Bytes) (p : Parser α) :
      (readFiles env parse originalDir isGlob paths p).1 ≠ some .outOfFuel →
      readFiles env parse' originalDir isGlob paths p
        = readFiles env parse originalDir isGlob paths p := by
  induction paths generalizing p with
  | nil => exact fun _ => rfl
  | cons path rest ih =>
    intro hne
    rw [readFiles] at hne
    rw [readFiles, readFiles]
    cases hread : env.readFile (openedPath isGlob p.currentDir path) with
    | error err => rfl
    | ok file =>
      rw [hread] at hne
      dsimp only at hne ⊢
      have hparse : (parse file (p.atFile (openedPath isGlob p.currentDir path))).1
          ≠ some .outOfFuel := by
        intro hfuel
        generalize parse file (p.atFile (openedPath isGlob p.currentDir path)) = out at hne hfuel
        obtain ⟨err, p'⟩ := out
        cases hfuel
        exact hne rfl
      rw [h _ _ hparse]
      generalize parse file (p.atFile (openedPath isGlob p.currentDir path)) = out at hne
      obtain ⟨err | err, p'⟩ := out
      · exact ih _ hne
      · rfl

theorem fromFile_succ (n : Nat) (path : Bytes) (p : Parser α) :
    (fromFile env n path p).1 ≠ some .outOfFuel →
    fromFile env (n + 1) path p = fromFile env n path p := by
  induction n generalizing path p with
  | zero => exact fun h => absurd rfl h
  | succ n ih =>
    intro hne
    have hline : ∀ l q, (evaluateLine env (fromFile env n) l q).1 ≠ some .outOfFuel →
        evaluateLine env (fromFile env (n + 1)) l q = evaluateLine env (fromFile env n) l q := by
      intro l q hfuel
      unfold evaluateLine at hfuel ⊢
      dsimp only at hfuel ⊢
      split
      · rfl
      · rename_i hvalid
        rw [if_neg hvalid] at hfuel
        split
        · rename_i hinclude
          rw [if_pos hinclude] at hfuel
          split
          · rfl
          · rename_i hcount
            rw [if_neg hcount] at hfuel
            exact ih _ _ hfuel
        · rfl
    have hparse : ∀ data q,
        (parseString nextLine (evaluateLine env (fromFile env n)) data q).1 ≠ some .outOfFuel →
        parseString nextLine (evaluateLine env (fromFile env (n + 1))) data q
          = parseString nextLine (evaluateLine env (fromFile env n)) data q :=
      fun data q => parseLoop_congr hline _ _ q
    rw [fromFile] at hne
    rw [fromFile, fromFile]
    split
    · rename_i hglob
      rw [if_pos hglob] at hne
      cases hfiles : env.glob path with
      | error err => rfl
      | ok files =>
        rw [hfiles] at hne
        exact readFiles_congr hparse _ _ _ _ hne
    · rename_i hglob
      rw [if_neg hglob] at hne
      exact readFiles_congr hparse _ _ _ _ hne

theorem fromFile_eq (path : Bytes) (p : Parser α) {n : Nat} (hn : maxIncludeRecursion < n) :
    fromFile env n path p = fromFile env (maxIncludeRecursion + 1) path p := by
  induction n, hn using Nat.le_induction with
  | base => rfl
  | succ n hn ih =>
    rw [fromFile_succ n path p (fromFile_fuel n path p (by omega)), ih]

/-! ### Cycles -/

def openedFiles (fs : FileSystem) (dir path : Bytes) : List Bytes :=
  if isGlob path then
    match fs.glob path with
    | .error _ => []
    | .ok files => files.map (openedPath true dir)
  else [openedPath false dir path]

def Includes (fs : FileSystem) (file file' : Bytes) : Prop :=
  ∃ text, fs.readFile file = .ok text ∧ ∃ kl ∈ logicalLines text,
    ∃ path, includedPath kl.2 = some path ∧ file' ∈ openedFiles fs (Path.dir file) path

/-- There is a cycle of includes behind a path. -/
def ReachesCycle (fs : FileSystem) (dir path : Bytes) : Prop :=
  ∃ file ∈ openedFiles fs dir path, ∃ file', Relation.ReflTransGen (Includes fs) file file' ∧
    Relation.TransGen (Includes fs) file' file'

theorem readFiles_success (originalDir : Bytes) (isGlob : Bool)
    (paths : List Bytes) (p : Parser α) :
    (readFiles env parse originalDir isGlob paths p).1 = none →
    ∀ file ∈ paths.map (openedPath isGlob p.currentDir), ∃ text q,
      env.readFile file = .ok text ∧ q.currentDir = Path.dir file ∧ (parse text q).1 = none := by
  induction paths generalizing p with
  | nil => exact fun _ file hfile => absurd hfile List.not_mem_nil
  | cons path rest ih =>
    intro hok file hfile
    rcases readFiles_cons parse originalDir isGlob path rest p with
      ⟨err, -, heq⟩ | ⟨text, hread, ⟨err, p', hout, heq⟩ | ⟨p', hout, heq⟩⟩
    · rw [heq] at hok
      cases hok
    · rw [heq] at hok
      cases hok
    · rw [heq] at hok
      rcases List.mem_cons.mp hfile with rfl | hfile
      · exact ⟨text, _, hread, rfl, by rw [hout]⟩
      · exact ih _ hok file hfile

/-- **After a success there are no more includes to follow** behind any file. -/
theorem fromFile_acc (n : Nat) (path : Bytes) (p : Parser α) :
    (fromFile env n path p).1 = none → ∀ file ∈ openedFiles env.toFileSystem p.currentDir path,
      Acc (fun file' file => Includes env.toFileSystem file file') file := by
  induction n generalizing path p with
  | zero => exact fun h => nomatch h
  | succ n ih =>
    intro hok file hfile
    have hparsed : ∃ text q, env.readFile file = .ok text ∧ q.currentDir = Path.dir file ∧
        (parseString nextLine (evaluateLine env (fromFile env n)) text q).1 = none := by
      rw [fromFile] at hok
      unfold openedFiles at hfile
      split at hfile
      · rename_i hglob
        rw [if_pos hglob] at hok
        cases hfiles : env.glob path with
        | error err =>
          rw [hfiles] at hok
          cases hok
        | ok files =>
          rw [hfiles] at hok hfile
          exact readFiles_success _ _ _ _ hok file hfile
      · rename_i hglob
        rw [if_neg hglob] at hok
        exact readFiles_success _ _ _ _ hok file hfile
    obtain ⟨text, q, hread, hdir, hparse⟩ := hparsed
    have hkept : ∀ l q, Kept q (evaluateLine env (fromFile env n) l q).2 :=
      evaluateLine_kept (fromFile_kept n)
    have hlines := ((parseLoop_rule (I := fun q : Parser α => q.currentDir = Path.dir file)
      (fun q hq => (nextLine_kept q).dir.trans hq) (fun l q hq => (hkept l q).dir.trans hq)
      (scanLines text) 0 .initial q hdir).2.2 hparse).2
    refine Acc.intro file (fun file' hfile' => ?_)
    obtain ⟨text', hread', kl, hkl, path', hpath', hfile'⟩ := hfile'
    cases hread.symm.trans hread'
    obtain ⟨q', hdir', hline⟩ := hlines kl hkl
    rcases evaluateLine_cases (fromFile env n) kl.2 q' with
      ⟨err, heq⟩ | ⟨hnone, heq⟩ | ⟨path'', hpath'', -, heq⟩
    · rw [heq] at hline
      cases hline
    · rw [hnone] at hpath'
      cases hpath'
    · cases hpath'.symm.trans hpath''
      rw [heq] at hline
      refine ih path' _ hline file' ?_
      rw [← hdir'] at hfile'
      exact hfile'

theorem not_transGen_of_acc {β : Type} {r : β → β → Prop} {b : β}
    (h : Acc (fun x y => r y x) b) : ¬ Relation.TransGen r b b := by
  have hirrefl : ∀ b, Acc (Relation.TransGen (fun x y => r y x)) b →
      ¬ Relation.TransGen (fun x y => r y x) b b := by
    intro b hb
    induction hb with
    | intro b _ ih => exact fun hself => ih b hself hself
  exact fun hcycle => hirrefl b h.transGen hcycle.swap

theorem acc_of_reflTransGen {β : Type} {r : β → β → Prop} {b b' : β}
    (h : Acc (fun x y => r y x) b) (hreach : Relation.ReflTransGen r b b') :
    Acc (fun x y => r y x) b' := by
  induction hreach with
  | refl => exact h
  | tail _ hstep ih => exact ih.inv hstep

/-! ### The life of a parser -/

/-- A call of a parser; `SetRoot` may have changed the file system before. -/
inductive ParserCall (α : Type) where
  | fromFile (env : Environment α) (path : Bytes)
  | fromString (env : Environment α) (data : Bytes)

def ParserCall.run (p : Parser α) : ParserCall α → Parser α
  | fromFile env path => (Seclang.fromFile env (maxIncludeRecursion + 1) path p).2
  | fromString env data => (Seclang.fromString env (maxIncludeRecursion + 1) data p).2

def runCalls (waf : α) (calls : List (ParserCall α)) : Parser α :=
  calls.foldl ParserCall.run (.new waf)

theorem runCalls_kept (waf : α) (calls : List (ParserCall α)) :
    Kept (.new waf) (runCalls waf calls) := by
  unfold runCalls
  induction calls using List.reverseRecOn with
  | nil => exact .refl _
  | append_singleton calls call ih =>
    rw [List.foldl_concat]
    refine ih.trans ?_
    cases call with
    | fromFile env path => exact fromFile_kept ..
    | fromString env data => exact fromString_kept ..

/-- **Parsing terminates.**  Whatever the files include, a call of `FromFile` returns, with the
directory that it was called with, and with an error if there is a cycle of includes; and over the
life of a parser no more than 100 includes are followed. -/
theorem parsing_terminates (env : Environment α) (path : Bytes) :
    (∀ p : Parser α, ∃ out : Option Failure × Parser α,
      (∀ n, maxIncludeRecursion < n → fromFile env n path p = out) ∧
      out.1 ≠ some .outOfFuel ∧ out.2.currentDir = p.currentDir ∧
      (ReachesCycle env.toFileSystem p.currentDir path → ∃ err, out.1 = some (.error err))) ∧
    ∀ (waf : α) (calls : List (ParserCall α)),
      (fromFile env (maxIncludeRecursion + 1) path (runCalls waf calls)).2.expansions.length
        ≤ maxIncludeRecursion := by
  refine ⟨fun p => ⟨_, fun n hn => fromFile_eq path p hn, ?_, (fromFile_kept ..).dir, ?_⟩, ?_⟩
  · exact fromFile_fuel _ path p (by omega)
  · rintro ⟨file, hfile, file', hreach, hcycle⟩
    cases hout : (fromFile env (maxIncludeRecursion + 1) path p).1 with
    | none =>
      have hacc := fromFile_acc _ path p hout file hfile
      exact absurd hcycle (not_transGen_of_acc (acc_of_reflTransGen hacc hreach))
    | some err =>
      cases err with
      | error err => exact ⟨err, rfl⟩
      | outOfFuel => exact absurd hout (fromFile_fuel _ path p (by omega))
  · intro waf calls
    have hkept : Kept (.new waf) (fromFile env (maxIncludeRecursion + 1) path
        (runCalls waf calls)).2 := (runCalls_kept waf calls).trans (fromFile_kept ..)
    have hcount : _ = _ := hkept.count.trans (Nat.zero_add _)
    exact hcount.trans_le hkept.bound

end

end Coraza.Seclang
