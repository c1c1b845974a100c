import Coraza.Collections
import Coraza.Go.Io

/-!
# The variables of a transaction

`Variables` holds what the single-valued and the keyed variables of a transaction
contain; the rest are views of these.  `Variables.collection` is
`Transaction.Collection`, and `getFieldMatches` is what a rule gets for one of its
targets: the entries that the key or expression selects, without the exceptions,
or their number.
-/

namespace Coraza.Waf

open Go Collections Strings

inductive RuleVariable where
  | unknown | responseContentType | uniqueID | argsCombinedSize | filesCombinedSize
  | fullRequestLength | inboundDataError | matchedVar | matchedVarName | multipartDataAfter
  | outboundDataError | queryString | remoteAddr | remoteHost | remotePort | reqbodyError
  | reqbodyErrorMsg | reqbodyProcessorError | reqbodyProcessorErrorMsg | reqbodyProcessor
  | requestBasename | requestBody | requestBodyLength | requestFilename | requestLine
  | requestMethod | requestProtocol | requestURI | requestURIRaw | responseBody
  | responseContentLength | responseProtocol | responseStatus | serverAddr | serverName
  | serverPort | highestSeverity | statusLine | duration | responseHeadersNames
  | requestHeadersNames | args | argsGet | argsPost | argsPath | filesSizes | filesNames
  | filesTmpContent | multipartFilename | multipartName | matchedVarsNames | matchedVars | files
  | requestCookies | requestHeaders | responseHeaders | resBodyProcessor | geo
  | requestCookiesNames | filesTmpNames | argsNames | argsGetNames | argsPostNames | tx | rule
  | json | env | urlencodedError | responseArgs | responseXML | requestXML | xml
  | multipartPartHeaders | resBodyError | resBodyErrorMsg | resBodyProcessorError
  | resBodyProcessorErrorMsg | time | timeDay | timeEpoch | timeHour | timeMin | timeMon
  | timeSec | timeWday | timeYear | authType | fullRequest | multipartBoundaryQuoted
  | multipartBoundaryWhitespace | multipartCrlfLfLines | multipartDataBefore
  | multipartFileLimitExceeded | multipartHeaderFolding | multipartInvalidHeaderFolding
  | multipartInvalidPart | multipartInvalidQuoting | multipartLfLine | multipartMissingSemicolon
  | multipartStrictError | multipartUnmatchedBoundary | pathInfo | sessionid | userid | ip
  deriving DecidableEq

def RuleVariable.name : RuleVariable → String
  | .unknown => "UNKNOWN"
  | .responseContentType => "RESPONSE_CONTENT_TYPE"
  | .uniqueID => "UNIQUE_ID"
  | .argsCombinedSize => "ARGS_COMBINED_SIZE"
  | .filesCombinedSize => "FILES_COMBINED_SIZE"
  | .fullRequestLength => "FULL_REQUEST_LENGTH"
  | .inboundDataError => "INBOUND_DATA_ERROR"
  | .matchedVar => "MATCHED_VAR"
  | .matchedVarName => "MATCHED_VAR_NAME"
  | .multipartDataAfter => "MULTIPART_DATA_AFTER"
  | .outboundDataError => "OUTBOUND_DATA_ERROR"
  | .queryString => "QUERY_STRING"
  | .remoteAddr => "REMOTE_ADDR"
  | .remoteHost => "REMOTE_HOST"
  | .remotePort => "REMOTE_PORT"
  | .reqbodyError => "REQBODY_ERROR"
  | .reqbodyErrorMsg => "REQBODY_ERROR_MSG"
  | .reqbodyProcessorError => "REQBODY_PROCESSOR_ERROR"
  | .reqbodyProcessorErrorMsg => "REQBODY_PROCESSOR_ERROR_MSG"
  | .reqbodyProcessor => "REQBODY_PROCESSOR"
  | .requestBasename => "REQUEST_BASENAME"
  | .requestBody => "REQUEST_BODY"
  | .requestBodyLength => "REQUEST_BODY_LENGTH"
  | .requestFilename => "REQUEST_FILENAME"
  | .requestLine => "REQUEST_LINE"
  | .requestMethod => "REQUEST_METHOD"
  | .requestProtocol => "REQUEST_PROTOCOL"
  | .requestURI => "REQUEST_URI"
  | .requestURIRaw => "REQUEST_URI_RAW"
  | .responseBody => "RESPONSE_BODY"
  | .responseContentLength => "RESPONSE_CONTENT_LENGTH"
  | .responseProtocol => "RESPONSE_PROTOCOL"
  | .responseStatus => "RESPONSE_STATUS"
  | .serverAddr => "SERVER_ADDR"
  | .serverName => "SERVER_NAME"
  | .serverPort => "SERVER_PORT"
  | .highestSeverity => "HIGHEST_SEVERITY"
  | .statusLine => "STATUS_LINE"
  | .duration => "DURATION"
  | .responseHeadersNames => "RESPONSE_HEADERS_NAMES"
  | .requestHeadersNames => "REQUEST_HEADERS_NAMES"
  | .args => "ARGS"
  | .argsGet => "ARGS_GET"
  | .argsPost => "ARGS_POST"
  | .argsPath => "ARGS_PATH"
  | .filesSizes => "FILES_SIZES"
  | .filesNames => "FILES_NAMES"
  | .filesTmpContent => "FILES_TMP_CONTENT"
  | .multipartFilename => "MULTIPART_FILENAME"
  | .multipartName => "MULTIPART_NAME"
  | .matchedVarsNames => "MATCHED_VARS_NAMES"
  | .matchedVars => "MATCHED_VARS"
  | .files => "FILES"
  | .requestCookies => "REQUEST_COOKIES"
  | .requestHeaders => "REQUEST_HEADERS"
  | .responseHeaders => "RESPONSE_HEADERS"
  | .resBodyProcessor => "RES_BODY_PROCESSOR"
  | .geo => "GEO"
  | .requestCookiesNames => "REQUEST_COOKIES_NAMES"
  | .filesTmpNames => "FILES_TMPNAMES"
  | .argsNames => "ARGS_NAMES"
  | .argsGetNames => "ARGS_GET_NAMES"
  | .argsPostNames => "ARGS_POST_NAMES"
  | .tx => "TX"
  | .rule => "RULE"
  | .json => "JSON"
  | .env => "ENV"
  | .urlencodedError => "URLENCODED_ERROR"
  | .responseArgs => "RESPONSE_ARGS"
  | .responseXML => "RESPONSE_XML"
  | .requestXML => "REQUEST_XML"
  | .xml => "XML"
  | .multipartPartHeaders => "MULTIPART_PART_HEADERS"
  | .resBodyError => "RES_BODY_ERROR"
  | .resBodyErrorMsg => "RES_BODY_ERROR_MSG"
  | .resBodyProcessorError => "RES_BODY_PROCESSOR_ERROR"
  | .resBodyProcessorErrorMsg => "RES_BODY_PROCESSOR_ERROR_MSG"
  | .time => "TIME"
  | .timeDay => "TIME_DAY"
  | .timeEpoch => "TIME_EPOCH"
  | .timeHour => "TIME_HOUR"
  | .timeMin => "TIME_MIN"
  | .timeMon => "TIME_MON"
  | .timeSec => "TIME_SEC"
  | .timeWday => "TIME_WDAY"
  | .timeYear => "TIME_YEAR"
  | .authType => "AUTH_TYPE"
  | .fullRequest => "FULL_REQUEST"
  | .multipartBoundaryQuoted => "MULTIPART_BOUNDARY_QUOTED"
  | .multipartBoundaryWhitespace => "MULTIPART_BOUNDARY_WHITESPACE"
  | .multipartCrlfLfLines => "MULTIPART_CRLF_LF_LINES"
  | .multipartDataBefore => "MULTIPART_DATA_BEFORE"
  | .multipartFileLimitExceeded => "MULTIPART_FILE_LIMIT_EXCEEDED"
  | .multipartHeaderFolding => "MULTIPART_HEADER_FOLDING"
  | .multipartInvalidHeaderFolding => "MULTIPART_INVALID_HEADER_FOLDING"
  | .multipartInvalidPart => "MULTIPART_INVALID_PART"
  | .multipartInvalidQuoting => "MULTIPART_INVALID_QUOTING"
  | .multipartLfLine => "MULTIPART_LF_LINE"
  | .multipartMissingSemicolon => "MULTIPART_MISSING_SEMICOLON"
  | .multipartStrictError => "MULTIPART_STRICT_ERROR"
  | .multipartUnmatchedBoundary => "MULTIPART_UNMATCHED_BOUNDARY"
  | .pathInfo => "PATH_INFO"
  | .sessionid => "SESSIONID"
  | .userid => "USERID"
  | .ip => "IP"

/-- The contents of the single-valued and of the keyed variables. -/
structure Variables where
  single : RuleVariable → Bytes
  map : RuleVariable → Map

namespace Variables

def new : Variables := ⟨fun _ => [], fun _ => Map.new⟩

def setSingle (vars : Variables) (v : RuleVariable) (value : Bytes) : Variables :=
  { vars with single := Function.update vars.single v value }

def modifyMap (vars : Variables) (v : RuleVariable) (f : Map → Map) : Variables :=
  { vars with map := Function.update vars.map v (f (vars.map v)) }

variable (vars : Variables)

@[simp] theorem setSingle_single (v w : RuleVariable) (value : Bytes) :
    (vars.setSingle v value).single w = if w = v then value else vars.single w :=
  Function.update_apply ..

@[simp] theorem modifyMap_single (v : RuleVariable) (f : Map → Map) :
    (vars.modifyMap v f).single = vars.single := rfl

@[simp] theorem setSingle_map (v : RuleVariable) (value : Bytes) :
    (vars.setSingle v value).map = vars.map := rfl

@[simp] theorem modifyMap_map_self (v : RuleVariable) (f : Map → Map) :
    (vars.modifyMap v f).map v = f (vars.map v) := Function.update_self ..

theorem modifyMap_map_of_ne {v w : RuleVariable} (h : w ≠ v) (f : Map → Map) :
    (vars.modifyMap v f).map w = vars.map w := Function.update_of_ne h ..

/-- `Transaction.Collection`; `none` is `nil`. -/
def collection (vars : Variables) (v : RuleVariable) : Option Collection :=
  match v with
  | .responseContentType | .uniqueID | .filesCombinedSize | .fullRequestLength
  | .inboundDataError | .matchedVar | .matchedVarName | .multipartDataAfter
  | .outboundDataError | .queryString | .remoteAddr | .remoteHost | .remotePort
  | .reqbodyError | .reqbodyErrorMsg | .reqbodyProcessorError | .reqbodyProcessorErrorMsg
  | .reqbodyProcessor | .requestBasename | .requestBody | .requestBodyLength
  | .requestFilename | .requestLine | .requestMethod | .requestProtocol | .requestURI
  | .requestURIRaw | .responseBody | .responseContentLength | .responseProtocol
  | .responseStatus | .serverAddr | .serverName | .serverPort | .highestSeverity
  | .statusLine | .duration | .resBodyProcessor | .urlencodedError | .time | .timeDay
  | .timeEpoch | .timeHour | .timeMin | .timeMon | .timeSec | .timeWday | .timeYear
  | .multipartStrictError => some (.single (vars.single v))
  | .argsGet | .argsPost | .argsPath | .filesSizes | .filesNames | .filesTmpContent
  | .multipartFilename | .multipartName | .matchedVars | .files | .requestCookies
  | .requestHeaders | .responseHeaders | .geo | .filesTmpNames | .tx | .rule | .env
  | .responseArgs | .responseXML | .requestXML | .multipartPartHeaders =>
    some (.keyed (.map (vars.map v)))
  -- `XML` is a pointer to `REQUEST_XML`
  | .xml => some (.keyed (.map (vars.map .requestXML)))
  | .responseHeadersNames => some (.keyed (.names (vars.map .responseHeaders)))
  | .requestHeadersNames => some (.keyed (.names (vars.map .requestHeaders)))
  | .matchedVarsNames => some (.keyed (.names (vars.map .matchedVars)))
  | .requestCookiesNames => some (.keyed (.names (vars.map .requestCookies)))
  | .argsGetNames => some (.keyed (.names (vars.map .argsGet)))
  | .argsPostNames => some (.keyed (.names (vars.map .argsPost)))
  | .args => some (.concat [.map (vars.map .argsGet), .map (vars.map .argsPost),
      .map (vars.map .argsPath)])
  | .argsNames => some (.concat [.names (vars.map .argsGet), .names (vars.map .argsPost),
      .names (vars.map .argsPath)])
  | .argsCombinedSize => some (.size [vars.map .argsGet, vars.map .argsPost])
  | .json => none
  | _ => some .noop

end Variables

/-- The variable that the matches of a collection carry. -/
def RuleVariable.shown : RuleVariable → RuleVariable
  | .xml => .requestXML
  | v => v

structure Match where
  argVariable : RuleVariable
  key : Bytes
  value : Bytes

/-- `ruleVariableException`; an expression is its `MatchString`. -/
structure RuleVariableException where
  keyStr : Bytes
  keyRx : Option (Bytes → Bool)

structure RuleVariableParams where
  count : Bool
  ruleVariable : RuleVariable
  keyRx : Option (Bytes → Bool)
  keyStr : Bytes
  exceptions : List RuleVariableException

/-- The loop of `lowercaseStringsEqual`: the whole strings are `left` and `right`, and
the loop is at `l` and `r`. -/
def lowercaseLoop (left right : Bytes) : Bytes → Bytes → Bool
  | a :: l, b :: r =>
    if a ≥ 0x80 ∨ b ≥ 0x80 then toLower left = toLower right
    else if (if 0x41 ≤ a ∧ a ≤ 0x5A then a + 0x20 else a)
        ≠ (if 0x41 ≤ b ∧ b ≤ 0x5A then b + 0x20 else b) then false
    else lowercaseLoop left right l r
  | _, _ => left.length = right.length

def lowercaseStringsEqual (left right : Bytes) : Bool := lowercaseLoop left right left right

/-- `isRuleVariableException`; `ready` says whether an earlier expression made the
loop lower the key. -/
def isRuleVariableException (key : Bytes) (ready : Bool) : List RuleVariableException → Bool
  | [] => false
  | e :: es =>
    if e.keyStr = [] ∧ e.keyRx.isNone then true
    else
      match e.keyRx with
      | some rx =>
        if rx (toLower key) then true
        else if toLower e.keyStr = toLower key then true
        else isRuleVariableException key true es
      | none =>
        if ready then
          if toLower e.keyStr = toLower key then true
          else isRuleVariableException key ready es
        else if lowercaseStringsEqual e.keyStr key then true
        else isRuleVariableException key ready es

/-- The entries that a target selects, before exceptions. -/
def selectMatches (it : Iteration) (col : Collection) (rv : RuleVariableParams) : List KeyValue :=
  match rv.keyRx with
  | some rx =>
    match col with
    | .keyed c => c.appendMatchesRegex it rx
    | .concat parts => parts.flatMap (fun c => c.appendMatchesRegex it rx)
    | _ => []
  | none =>
    if rv.keyStr ≠ [] then
      match col with
      | .keyed c => c.appendMatchesString it rv.keyStr
      | .concat parts => parts.flatMap (fun c => c.appendMatchesString it rv.keyStr)
      | _ => []
    else
      match col with
      | .single value => [⟨[], value⟩]
      | .keyed c => c.appendMatches it
      | .concat parts => parts.flatMap (fun c => c.appendMatches it)
      | .size parts => [⟨[], bytesOf (toString (size parts))⟩]
      | .noop => []

def getFieldMatches (it : Iteration) (vars : Variables) (rv : RuleVariableParams) : List Match :=
  match vars.collection rv.ruleVariable with
  | none => []
  | some col =>
    let selected := selectMatches it col rv
    let kept :=
      if rv.exceptions.length ≠ 0 then
        selected.filter (fun kv => !isRuleVariableException kv.key false rv.exceptions)
      else selected
    if rv.count then [⟨rv.ruleVariable, rv.keyStr, bytesOf (toString kept.length)⟩]
    else kept.map (fun kv => ⟨rv.ruleVariable.shown, kv.key, kv.value⟩)

end Coraza.Waf
