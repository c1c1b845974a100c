import Coraza.Lib.Results
import Coraza.Waf.Rule

/-!
# Macros

A macro is a text with variables in braces, such as `%{TX.score}`.  `newMacro` cuts it into tokens
once, when the rules are read, and `CompiledMacro.expand` puts the values of the variables in,
whenever an action needs the text.

`newMacro_json` reads the tokens off the text: the variables of an accepted macro are those that
it has between `%{` and `}`.  One of the variables that `RuleVariable.parse` knows has no
collection, so that a macro can be expanded in a transaction exactly if its text does not name it
(`expand_isSome_iff`).
-/

namespace Coraza.Waf

open Go Collections List Strings

/-! ### Variables by name -/

/-- The variables in the order of `rulemapRev`. -/
def RuleVariable.all : List RuleVariable :=
  [.unknown, .responseContentType, .uniqueID, .argsCombinedSize, .filesCombinedSize,
    .fullRequestLength, .inboundDataError, .matchedVar, .matchedVarName, .multipartDataAfter,
    .outboundDataError, .queryString, .remoteAddr, .remoteHost, .remotePort, .reqbodyError,
    .reqbodyErrorMsg, .reqbodyProcessorError, .reqbodyProcessorErrorMsg, .reqbodyProcessor,
    .requestBasename, .requestBody, .requestBodyLength, .requestFilename, .requestLine,
    .requestMethod, .requestProtocol, .requestURI, .requestURIRaw, .responseBody,
    .responseContentLength, .responseProtocol, .responseStatus, .serverAddr, .serverName,
    .serverPort, .highestSeverity, .statusLine, .duration, .responseHeadersNames,
    .requestHeadersNames, .args, .argsGet, .argsPost, .argsPath, .filesSizes, .filesNames,
    .filesTmpContent, .multipartFilename, .multipartName, .matchedVarsNames, .matchedVars,
    .files, .requestCookies, .requestHeaders, .responseHeaders, .resBodyProcessor, .geo,
    .requestCookiesNames, .filesTmpNames, .argsNames, .argsGetNames, .argsPostNames, .tx, .rule,
    .json, .env, .urlencodedError, .responseArgs, .responseXML, .requestXML, .xml,
    .multipartPartHeaders, .resBodyError, .resBodyErrorMsg, .resBodyProcessorError,
    .resBodyProcessorErrorMsg, .time, .timeDay, .timeEpoch, .timeHour, .timeMin, .timeMon,
    .timeSec, .timeWday, .timeYear, .authType, .fullRequest, .multipartBoundaryQuoted,
    .multipartBoundaryWhitespace, .multipartCrlfLfLines, .multipartDataBefore,
    .multipartFileLimitExceeded, .multipartHeaderFolding, .multipartInvalidHeaderFolding,
    .multipartInvalidPart, .multipartInvalidQuoting, .multipartLfLine,
    .multipartMissingSemicolon, .multipartStrictError, .multipartUnmatchedBoundary, .pathInfo,
    .sessionid, .userid, .ip]

/-- `variables.Parse`; `none` is an error. -/
def RuleVariable.parse (v : Bytes) : Option RuleVariable :=
  RuleVariable.all.find? (fun rv => bytesOf rv.name = toUpper v)

/-- A known name is the name of its variable, in upper case. -/
theorem RuleVariable.parse_name {v : Bytes} {rv : RuleVariable}
    (h : RuleVariable.parse v = some rv) :
    toUpper v = bytesOf rv.name := by
  have hname := List.find?_some h
  exact (of_decide_eq_true hname).symm

theorem RuleVariable.parse_json {v : Bytes} :
    RuleVariable.parse v = some .json ↔ toUpper v = bytesOf "JSON" := by
  refine ⟨RuleVariable.parse_name, fun h => ?_⟩
  unfold RuleVariable.parse
  rw [h]
  decide +kernel

/-! ### Compiling -/

def isValidMacroChar (c : UInt8) : Bool :=
  c = 0x5B ∨ c = 0x5D ∨ c = 0x2E ∨ c = 0x5F ∨ c = 0x2D ∨ (0x30 ≤ c ∧ c ≤ 0x39)
    ∨ (0x41 ≤ c ∧ c ≤ 0x5A) ∨ (0x61 ≤ c ∧ c ≤ 0x7A)

def textToken (currentToken : Bytes) : List MacroToken :=
  if currentToken = [] then [] else [⟨currentToken, .unknown, []⟩]

def variableToken (currentToken : Bytes) : Except Error MacroToken :=
  let (varName, key, _) := cut currentToken 0x2E
  match RuleVariable.parse varName with
  | none => .error (.errorf "unknown variable %q" [varName])
  | some v => .ok ⟨currentToken, v, toLower key⟩

/-- The loop of `macro.compile`; `previous` is the byte before. -/
def compileLoop : UInt8 → Bool → Bytes → Bytes → Except Error (List MacroToken)
  | _, _, currentToken, [] => .ok (textToken currentToken)
  | _, _, currentToken, 0x25 :: 0x7B :: rest =>
    (compileLoop 0x7B true [] rest).map (textToken currentToken ++ ·)
  | previous, true, currentToken, c :: rest =>
    if c = 0x7D then
      if previous = 0x2E then .error (.new "empty variable name")
      else do
        let token ← variableToken currentToken
        (compileLoop c false [] rest).map (token :: ·)
    else if isValidMacroChar c = false then
      .error (.errorf "malformed variable starting with %q" [bytesOf "%\x7b" ++ currentToken])
    else if rest = [] then .error (.new "malformed variable: no closing braces")
    else compileLoop c true (currentToken ++ [c]) rest
  | _, false, currentToken, c :: rest => compileLoop c false (currentToken ++ [c]) rest

/-- `macro`, as `NewMacro` returns it. -/
structure CompiledMacro where
  original : Bytes
  tokens : List MacroToken

def newMacro (data : Bytes) : Except Error CompiledMacro :=
  if data = [] then .error (.new "empty data")
  else (compileLoop 0 false [] data).map (fun tokens => ⟨data, tokens⟩)

/-- `macro.Expand`; `none` is a panic. -/
def CompiledMacro.expand (m : CompiledMacro) (vars : Variables) : Option Bytes :=
  match m.tokens with
  | [token] => expandToken vars token
  | tokens => (tokens.mapM (expandToken vars)).map List.flatten

/-! ### The variables of a text -/

/-- The text between the braces of a variable that has no collection. -/
def namesJSON (n : Bytes) : Prop := toUpper (cut n 0x2E).1 = bytesOf "JSON"

/-- A text names `JSON` between braces. -/
def BracedJSON (text : Bytes) : Prop :=
  ∃ n, [0x25, 0x7B] ++ n ++ [0x7D] <:+: text ∧ (∀ c ∈ n, isValidMacroChar c = true) ∧ namesJSON n

/-- A text closes the braces after a name of `JSON` that begins with `current`. -/
def ClosesJSON (current text : Bytes) : Prop :=
  ∃ n, n ++ [0x7D] <+: text ∧ (∀ c ∈ n, isValidMacroChar c = true) ∧ namesJSON (current ++ n)

theorem bracedJSON_cons {c : UInt8} {rest : Bytes} (h : ∀ after, c = 0x25 → rest ≠ 0x7B :: after) :
    BracedJSON (c :: rest) ↔ BracedJSON rest := by
  refine exists_congr (fun n => and_congr_left (fun _ => ?_))
  rw [infix_cons_iff]
  refine or_iff_right (fun hpre => ?_)
  obtain ⟨after, hafter⟩ := hpre
  simp only [cons_append, List.cons.injEq] at hafter
  exact h _ hafter.1.symm hafter.2.symm

theorem bracedJSON_open {rest : Bytes} :
    BracedJSON (0x25 :: 0x7B :: rest) ↔ ClosesJSON [] rest ∨ BracedJSON rest := by
  have hinner : BracedJSON (0x7B :: rest) ↔ BracedJSON rest :=
    bracedJSON_cons (fun _ h => absurd h (by decide))
  rw [← hinner]
  unfold BracedJSON ClosesJSON
  rw [← exists_or]
  refine exists_congr (fun n => ?_)
  rw [infix_cons_iff, nil_append, ← or_and_right]
  refine and_congr_left (fun _ => or_congr_left ?_)
  simp only [cons_append, nil_append, cons_prefix_cons, true_and]

theorem not_bracedJSON_nil : ¬BracedJSON [] := by
  rintro ⟨n, hinfix, -⟩
  exact absurd (List.infix_nil.mp hinfix) (by simp)

variable {current : Bytes}

theorem not_closesJSON_nil : ¬ClosesJSON current [] := by
  rintro ⟨n, hpre, -⟩
  exact absurd (List.prefix_nil.mp hpre) (by simp)

theorem closesJSON_cons {current rest : Bytes} {c : UInt8} :
    ClosesJSON current (c :: rest) ↔ (c = 0x7D ∧ namesJSON current) ∨
      (isValidMacroChar c = true ∧ ClosesJSON (current ++ [c]) rest) := by
  constructor
  · rintro ⟨n, hpre, hvalid, hname⟩
    cases n with
    | nil =>
      rw [append_nil] at hname
      exact .inl ⟨(List.cons_prefix_cons.mp hpre).1.symm, hname⟩
    | cons b n =>
      obtain ⟨rfl, hrest⟩ := List.cons_prefix_cons.mp hpre
      rw [forall_mem_cons] at hvalid
      refine .inr ⟨hvalid.1, n, hrest, hvalid.2, ?_⟩
      rwa [append_assoc, singleton_append]
  · rintro (⟨rfl, hname⟩ | ⟨hc, n, hpre, hvalid, hname⟩)
    · refine ⟨[], ⟨rest, rfl⟩, forall_mem_nil _, ?_⟩
      rwa [append_nil]
    · refine ⟨c :: n, List.cons_prefix_cons.mpr ⟨rfl, hpre⟩,
        List.forall_mem_cons.mpr ⟨hc, hvalid⟩, ?_⟩
      rwa [append_assoc, singleton_append] at hname

theorem textToken_json : ¬∃ token ∈ textToken current, token.macroVariable = .json := by
  unfold textToken
  split
  · simp
  · simp

theorem variableToken_json {token : MacroToken}
    (h : variableToken current = .ok token) : token.macroVariable = .json ↔ namesJSON current := by
  unfold variableToken at h
  dsimp only at h
  split at h
  · cases h
  · rename_i v hv
    cases h
    unfold namesJSON
    rw [← RuleVariable.parse_json, hv, Option.some.injEq]

/-- **The loop finds the variables of the text**: those that it names between braces, and that
whose name it is in the middle of. -/
theorem compileLoop_json (previous : UInt8) (isMacro : Bool) (current text : Bytes) :
    ∀ tokens, compileLoop previous isMacro current text = .ok tokens →
    ((∃ token ∈ tokens, token.macroVariable = .json) ↔
      (isMacro = true ∧ ClosesJSON current text) ∨ BracedJSON text) := by
  fun_induction compileLoop previous isMacro current text with
  | case1 _ isMacro current =>
    rintro tokens ⟨⟩
    refine iff_of_false textToken_json ?_
    rintro (⟨-, h⟩ | h)
    · exact not_closesJSON_nil h
    · exact not_bracedJSON_nil h
  | case2 _ isMacro current rest ih =>
    intro tokens h
    obtain ⟨tokens, htokens, rfl⟩ := Results.map_eq_ok.mp h
    have hnot : ¬ClosesJSON current (0x25 :: 0x7B :: rest) := by
      rw [closesJSON_cons]
      rintro (⟨h, -⟩ | ⟨h, -⟩) <;> exact absurd h (by decide)
    simp only [mem_append, or_and_right, exists_or]
    rw [or_iff_right textToken_json, ih tokens htokens, bracedJSON_open]
    simp only [hnot, and_false, false_or, true_and]
  | case4 previous current rest hdot hopen ih =>
    intro tokens h
    obtain ⟨token, htoken, h⟩ := Results.bind_eq_ok.mp h
    obtain ⟨tokens, htokens, rfl⟩ := Results.map_eq_ok.mp h
    have hvalid : ¬isValidMacroChar 0x7D = true := by decide
    simp only [mem_cons, exists_eq_or_imp]
    rw [variableToken_json htoken, ih tokens htokens,
      bracedJSON_cons (fun after hc => hopen after hc), closesJSON_cons]
    simp only [hvalid, Bool.false_eq_true, false_and, false_or, or_false, true_and]
  | case7 previous current c rest hopen hclose hvalid hrest ih =>
    intro tokens h
    rw [ih tokens h, bracedJSON_cons (fun after hc hafter => hopen after hc hafter),
      closesJSON_cons]
    simp only [hclose, Bool.not_eq_false _ ▸ hvalid, false_and, false_or, true_and]
  | case8 _ current c rest hopen ih =>
    intro tokens h
    rw [ih tokens h, bracedJSON_cons (fun after hc hafter => hopen after hc hafter)]
    simp only [Bool.false_eq_true, false_and]
  | _ =>
    intro tokens h
    cases h

/-- **The variables of an accepted macro.** -/
theorem newMacro_json {data : Bytes} {m : CompiledMacro} (h : newMacro data = .ok m) :
    (∃ token ∈ m.tokens, token.macroVariable = .json) ↔ BracedJSON data := by
  unfold newMacro at h
  split at h
  · cases h
  · obtain ⟨tokens, htokens, rfl⟩ := Results.map_eq_ok.mp h
    rw [compileLoop_json 0 false [] data tokens htokens]
    simp only [Bool.false_eq_true, false_and, false_or]

/-! ### Expanding -/

/-- Only `JSON` has no collection. -/
theorem expandToken_isSome_iff (vars : Variables) (token : MacroToken) :
    (expandToken vars token).isSome = true ↔ token.macroVariable ≠ .json := by
  refine ⟨fun h hjson => ?_, expandToken_isSome vars⟩
  unfold expandToken at h
  rw [hjson] at h
  cases h

theorem expand_eq_mapM (m : CompiledMacro) (vars : Variables) :
    m.expand vars = (m.tokens.mapM (expandToken vars)).map List.flatten := by
  unfold CompiledMacro.expand
  split
  · rename_i token htoken
    rw [htoken, mapM_cons]
    cases expandToken vars token with
    | none => rfl
    | some text => simp
  · rfl

theorem mapM_isSome {α β : Type} {f : α → Option β} (l : List α) :
    (l.mapM f).isSome = true ↔ ∀ a ∈ l, (f a).isSome = true := by
  induction l with
  | nil => simp
  | cons a l ih =>
    rw [mapM_cons, forall_mem_cons, ← ih]
    cases f a with
    | none => simp
    | some b => cases l.mapM f <;> simp

def CompiledMacro.toMacro (m : CompiledMacro)
    (h : ∀ token ∈ m.tokens, token.macroVariable ≠ .json) : Macro := ⟨m.original, m.tokens, h⟩

/-- The macros of rules are those that can be expanded, and are expanded to the same texts. -/
theorem expand_toMacro (m : CompiledMacro) (h : ∀ token ∈ m.tokens, token.macroVariable ≠ .json)
    (vars : Variables) : m.expand vars = some ((m.toMacro h).expand vars) := by
  rw [expand_eq_mapM]
  unfold Macro.expand CompiledMacro.toMacro
  generalize m.tokens = tokens at h
  induction tokens with
  | nil => rfl
  | cons token tokens ih =>
    rw [forall_mem_cons] at h
    obtain ⟨text, htext⟩ := Option.isSome_iff_exists.mp (expandToken_isSome vars h.1)
    obtain ⟨texts, htexts, hflat⟩ := Option.map_eq_some_iff.mp (ih h.2)
    rw [mapM_cons, htexts, flatMap_cons, htext, ← hflat]
    rfl

theorem expand_isSome_tokens (m : CompiledMacro) (vars : Variables) :
    (m.expand vars).isSome = true ↔ ∀ token ∈ m.tokens, token.macroVariable ≠ .json := by
  rw [expand_eq_mapM, Option.isSome_map, mapM_isSome]
  simp only [expandToken_isSome_iff]

/-- **A macro can be expanded exactly if it does not name `JSON`**, in every transaction. -/
theorem expand_isSome_iff {data : Bytes} {m : CompiledMacro} (h : newMacro data = .ok m)
    (vars : Variables) : (m.expand vars).isSome = true ↔ ¬BracedJSON data := by
  rw [← newMacro_json h, expand_isSome_tokens]
  simp only [not_exists, not_and]

deriving instance DecidableEq for MacroToken, CompiledMacro

def scoreMacro : Bytes := bytesOf "score: %\x7btx.Score\x7d"

theorem newMacro_score : newMacro scoreMacro = .ok ⟨scoreMacro, [⟨bytesOf "score: ", .unknown, []⟩,
    ⟨bytesOf "tx.Score", .tx, bytesOf "score"⟩]⟩ := by decide +kernel

/-- A macro that is expanded in a new transaction, and so in any. -/
theorem expand_isSome_score : ¬BracedJSON scoreMacro :=
  (expand_isSome_iff newMacro_score Variables.new).mp rfl

def jsonMacro : Bytes := bytesOf "%\x7bjson.a\x7d"

/-- `NewMacro` accepts a variable that no transaction has a collection for. -/
theorem expand_json_panics : ∃ m, newMacro jsonMacro = .ok m ∧ ∀ vars, m.expand vars = none :=
  ⟨⟨jsonMacro, [⟨bytesOf "json.a", .json, bytesOf "a"⟩]⟩, by decide +kernel, fun _ => rfl⟩

end Coraza.Waf
