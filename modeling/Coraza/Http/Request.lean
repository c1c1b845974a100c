import Coraza.Http.Middleware
import Coraza.Operators.IpMatch
import Coraza.Waf.Arguments

/-!
# The variables of a request

Before it runs the phases, `processRequest` tells the transaction about the connection, the URI
and the headers of the request.  `fillRequest` is this part, and `fillRequest_eq` says that it is
a change of variables, as the model of the middleware has it.

The address of the client is what stands before the last colon of `RemoteAddr`.
`client_address_iff` says for which addresses this is the address, so that `@ipMatch` sees it.
-/

namespace Coraza.Http

open Go Collections Waf Operators Strings Net List

/-! ### The functions -/

/-- What `processRequest` reads of an `http.Request`, except for the body. -/
structure Request where
  remoteAddr : Bytes
  /-- `URL.String()`. -/
  url : Bytes
  method : Bytes
  proto : Bytes
  header : AList (fun _ : Bytes => List Bytes)
  host : Bytes
  transferEncoding : List Bytes

def processConnection (client : Bytes) (cPort : Int) (server : Bytes) (sPort : Int)
    (tx : Transaction) : Transaction :=
  let p := Strconv.itoa cPort
  let p2 := Strconv.itoa sPort
  let tx := setSingle .remoteAddr client tx
  let tx := setSingle .remotePort p tx
  let tx := setSingle .serverAddr server tx
  setSingle .serverPort p2 tx

/-- `Map.Add` for a variable of the transaction. -/
def addTo (v : RuleVariable) (key value : Bytes) (tx : Transaction) : Transaction :=
  tx.modifyVariables (fun vars => vars.modifyMap v (fun m => m.add key value))

def trimString (s : Bytes) : Bytes := trim s (bytesOf " \t\n\r")

def parseCookie (part : Bytes) : Option (Bytes × Bytes) :=
  let part := trimString part
  if part = [] then none
  else
    let (name, val, _) := cut part 0x3D
    let name := trimString name
    if name = [] then none else some (name, val)

def parseCookies (rawCookies : Bytes) : AList (fun _ : Bytes => List Bytes) :=
  Maps.group (((trimString rawCookies).splitOn 0x3B).filterMap parseCookie)

def addRequestHeader (it : Iteration) (key value : Bytes) (tx : Transaction) : Transaction :=
  if key = [] then tx
  else
    let keyl := toLower key
    let tx := addTo .requestHeaders key value tx
    if keyl = bytesOf "content-type" then
      let val := toLower value
      if val = bytesOf "application/x-www-form-urlencoded" then
        setSingle .reqbodyProcessor (bytesOf "URLENCODED") tx
      else if bytesOf "multipart/form-data" <+: val then
        setSingle .reqbodyProcessor (bytesOf "MULTIPART") tx
      else tx
    else if keyl = bytesOf "cookie" then
      (it.entries (parseCookies value)).foldl
        (fun tx e => e.2.foldl (fun tx v => addTo .requestCookies e.1 v tx) tx) tx
    else tx

def setServerName (serverName : Bytes) (tx : Transaction) : Transaction :=
  setSingle .serverName serverName tx

/-- The client and its port, as `processRequest` splits `RemoteAddr`. -/
def splitRemoteAddr (remoteAddr : Bytes) : Bytes × Int :=
  match lastIndexByte remoteAddr 0x3A with
  | some idx => (remoteAddr.take idx, Strconv.atoiValue (remoteAddr.drop (idx + 1)))
  | none => ([], 0)

def addHeaders (it : Iteration) (header : AList (fun _ : Bytes => List Bytes))
    (tx : Transaction) : Transaction :=
  (it.entries header).foldl
    (fun tx e => e.2.foldl (fun tx v => addRequestHeader it e.1 v tx) tx) tx

def addHost (it : Iteration) (host : Bytes) (tx : Transaction) : Transaction :=
  if host ≠ [] then setServerName host (addRequestHeader it (bytesOf "Host") host tx) else tx

def addTransferEncoding (it : Iteration) (transferEncoding : List Bytes) (tx : Transaction) :
    Transaction :=
  transferEncoding.foldl (fun tx te => addRequestHeader it (bytesOf "Transfer-Encoding") te tx) tx

section

variable (waf : WAF) (parseRequestURI : Bytes → Except Bytes ParsedURL) (it : Iteration)
  (req : Request)

/-- `processRequest` up to the request headers phase. -/
def fillRequest (tx : Transaction) : Transaction :=
  let (client, cport) := splitRemoteAddr req.remoteAddr
  let tx := processConnection client cport [] 0 tx
  let tx := processURI waf parseRequestURI it req.url req.method req.proto tx
  let tx := addHeaders it req.header tx
  let tx := addHost it req.host tx
  addTransferEncoding it req.transferEncoding tx

def requestVariables (vars : Variables) : Variables :=
  (fillRequest waf parseRequestURI it req (waf.newTransaction vars)).vars

end

/-! ### What the steps write -/

/-- A step that changes nothing but variables, and leaves a variable with a single value alone. -/
def Fills (v : RuleVariable) (f : Transaction → Transaction) : Prop :=
  ∃ g : Variables → Variables, (∀ tx, f tx = tx.modifyVariables g) ∧
    ∀ vars, (g vars).single v = vars.single v

def uriVariables : List RuleVariable :=
  [.requestMethod, .requestProtocol, .requestURIRaw, .requestLine, .urlencodedError, .requestURI,
    .requestBasename, .requestFilename, .queryString]

namespace Fills

variable {v : RuleVariable}

theorem id : Fills v (fun tx => tx) := ⟨fun vars => vars, fun _ => rfl, fun _ => rfl⟩

variable {f f' : Transaction → Transaction}

theorem comp (h' : Fills v f') (h : Fills v f) : Fills v (fun tx => f' (f tx)) := by
  obtain ⟨g, hg, hv⟩ := h
  obtain ⟨g', hg', hv'⟩ := h'
  refine ⟨fun vars => g' (g vars), fun tx => ?_, fun vars => ?_⟩
  · exact (hg' (f tx)).trans (by rw [hg]; rfl)
  · exact (hv' (g vars)).trans (hv vars)

theorem foldl {α : Type} {f : Transaction → α → Transaction} (h : ∀ a, Fills v (fun tx => f tx a))
    (l : List α) : Fills v (fun tx => l.foldl f tx) := by
  induction l with
  | nil => exact id
  | cons a l ih => exact ih.comp (h a)

theorem forValues {f : Bytes → Bytes → Transaction → Transaction}
    (h : ∀ key value, Fills v (f key value)) (l : List (Bytes × List Bytes)) :
    Fills v (fun tx => l.foldl (fun tx e => e.2.foldl (fun tx value => f e.1 value tx) tx) tx) :=
  foldl (fun e => foldl (fun value => h e.1 value) e.2) l

theorem ite {p : Prop} [Decidable p] (h : Fills v f)
    (h' : Fills v f') : Fills v (fun tx => if p then f tx else f' tx) := by
  by_cases hp : p
  · simpa only [if_pos hp] using h
  · simpa only [if_neg hp] using h'

theorem setSingle {w : RuleVariable} (hw : v ≠ w) (value : Bytes) :
    Fills v (Waf.setSingle w value) := by
  refine ⟨fun vars => vars.setSingle w value, fun _ => rfl, fun vars => ?_⟩
  rw [Variables.setSingle_single, if_neg hw]

theorem addTo (w : RuleVariable) (key value : Bytes) : Fills v (Http.addTo w key value) :=
  ⟨fun vars => vars.modifyMap w (fun m => m.add key value), fun _ => rfl, fun _ => rfl⟩

theorem addArgument (waf : WAF) (w : RuleVariable) (key value : Bytes) :
    Fills v (Waf.addArgument waf w key value) := by
  refine ⟨fun vars => if checkArgumentLimit waf (vars.map w) then vars
    else vars.modifyMap w (fun m => m.add key value), fun tx => ?_, fun vars => ?_⟩
  · unfold Waf.addArgument
    by_cases hfull : checkArgumentLimit waf (tx.vars.map w)
    · show _ = { tx with vars := if _ then _ else _ }
      rw [if_pos hfull, if_pos hfull]
    · show _ = { tx with vars := if _ then _ else _ }
      rw [if_neg hfull, if_neg hfull]
      rfl
  · dsimp only
    split <;> rfl

theorem extractGetArguments (waf : WAF) (it : Iteration) (uri : Bytes) :
    Fills v (Waf.extractGetArguments waf it uri) :=
  forValues (fun key value => addArgument waf .argsGet key value) _

theorem processURI (waf : WAF) (parseRequestURI : Bytes → Except Bytes ParsedURL) (it : Iteration)
    (uri method httpVersion : Bytes)
    (hv : v ∉ uriVariables) :
    Fills v (Waf.processURI waf parseRequestURI it uri method httpVersion) := by
  simp only [uriVariables, mem_cons, not_mem_nil, or_false, not_or] at hv
  obtain ⟨hmethod, hprotocol, hraw, hline, herror, huri, hbasename, hfilename, hquery⟩ := hv
  have hbefore := ((setSingle hline
    (method ++ bytesOf " " ++ uri ++ bytesOf " " ++ httpVersion)).comp
    ((setSingle hraw uri).comp ((setSingle hprotocol httpVersion).comp (setSingle hmethod method))))
  have hafter : ∀ path query : Bytes, Fills v (fun tx => Waf.setSingle .queryString query
      (Waf.setSingle .requestFilename path (Waf.setSingle .requestBasename (basename path) tx))) :=
    fun path query => (setSingle hquery query).comp
      ((setSingle hfilename path).comp (setSingle hbasename (basename path)))
  unfold Waf.processURI
  dsimp only
  cases parseRequestURI (withoutAnchor uri) with
  | error err =>
    exact (hafter _ _).comp (((setSingle huri _).comp (setSingle herror err)).comp hbefore)
  | ok parsedURL =>
    exact (hafter _ _).comp (((setSingle huri _).comp
      (extractGetArguments waf it parsedURL.rawQuery)).comp hbefore)

theorem addRequestHeader (hv : v ≠ .reqbodyProcessor) (it : Iteration) (key value : Bytes) :
    Fills v (Http.addRequestHeader it key value) := by
  have htype := ite (p := toLower value = bytesOf "application/x-www-form-urlencoded")
    (setSingle hv (bytesOf "URLENCODED"))
    (ite (p := bytesOf "multipart/form-data" <+: toLower value)
      (setSingle hv (bytesOf "MULTIPART")) id)
  have hcookies := forValues (v := v) (fun key value => addTo .requestCookies key value)
    (it.entries (parseCookies value))
  have hswitch := ite (p := toLower key = bytesOf "content-type") htype
    (ite (p := toLower key = bytesOf "cookie") hcookies id)
  exact ite id (hswitch.comp (addTo .requestHeaders key value))

theorem vars_eq {f : Transaction → Transaction} (h : Fills v f) (tx : Transaction) :
    (f tx).vars.single v = tx.vars.single v := by
  obtain ⟨g, hg, hv⟩ := h
  rw [hg]
  exact hv tx.vars

end Fills

section

variable {waf : WAF} {parseRequestURI : Bytes → Except Bytes ParsedURL} {it : Iteration}
  {req : Request}

theorem fills_afterConnection {v : RuleVariable} (huri : v ∉ uriVariables)
    (hprocessor : v ≠ .reqbodyProcessor) (hname : v ≠ .serverName) :
    Fills v (fun tx => addTransferEncoding it req.transferEncoding (addHost it req.host
      (addHeaders it req.header
        (processURI waf parseRequestURI it req.url req.method req.proto tx)))) := by
  have hheader := fun key value => Fills.addRequestHeader hprocessor it key value
  have hencoding : Fills v (addTransferEncoding it req.transferEncoding) :=
    Fills.foldl (fun te => hheader _ te) _
  have hhost : Fills v (addHost it req.host) :=
    Fills.ite ((Fills.setSingle hname _).comp (hheader _ _)) Fills.id
  have hheaders : Fills v (addHeaders it req.header) :=
    Fills.forValues hheader _
  exact hencoding.comp (hhost.comp (hheaders.comp (Fills.processURI _ _ _ _ _ _ huri)))

theorem fills_processConnection {v : RuleVariable}
    (hv : v ∉ [RuleVariable.remoteAddr, .remotePort, .serverAddr, .serverPort])
    (client : Bytes) (cPort : Int) (server : Bytes) (sPort : Int) :
    Fills v (processConnection client cPort server sPort) := by
  simp only [mem_cons, not_mem_nil, or_false, not_or] at hv
  obtain ⟨haddr, hport, hserver, hserverPort⟩ := hv
  exact (Fills.setSingle hserverPort _).comp ((Fills.setSingle hserver _).comp
    ((Fills.setSingle hport _).comp (Fills.setSingle haddr _)))

/-- **The request is told to the transaction through its variables.** -/
theorem fillRequest_eq (tx : Transaction) : fillRequest waf parseRequestURI it req tx
      = tx.modifyVariables (requestVariables waf parseRequestURI it req) := by
  have hfills : Fills .unknown (fillRequest waf parseRequestURI it req) :=
    (fills_afterConnection (by decide) (by decide) (by decide)).comp
      (fills_processConnection (by decide) ..)
  obtain ⟨g, hg, -⟩ := hfills
  have hvars : requestVariables waf parseRequestURI it req = g := by
    funext vars
    unfold requestVariables
    rw [hg]
    rfl
  rw [hg, hvars]

theorem requestVariables_remoteAddr (vars : Variables) :
    (requestVariables waf parseRequestURI it req vars).single .remoteAddr
      = (splitRemoteAddr req.remoteAddr).1 :=
  (fills_afterConnection (v := .remoteAddr) (by decide) (by decide) (by decide)).vars_eq _

end

/-! ### The address of the client -/

/-- The form in which a server writes the address of a client. -/
inductive AddressForm where
  | hostPort
  | bare
  deriving DecidableEq

def AddressForm.text (a port : Bytes) : AddressForm → Bytes
  | hostPort => joinHostPort a port
  | bare => a

theorem splitRemoteAddr_append (client : Bytes) {port : Bytes} (h : 0x3A ∉ port) :
    (splitRemoteAddr (client ++ 0x3A :: port)).1 = client := by
  unfold splitRemoteAddr
  rw [lastIndexByte_append client h]
  exact take_left

theorem splitRemoteAddr_ne {remoteAddr : Bytes} (h : remoteAddr ≠ []) :
    (splitRemoteAddr remoteAddr).1 ≠ remoteAddr := by
  unfold splitRemoteAddr
  split
  · rename_i idx hidx
    have hlt := lastIndexByte_lt hidx
    intro heq
    have hlen := congrArg length heq
    rw [length_take] at hlen
    omega
  · exact h.symm

variable {a port : Bytes}

theorem splitRemoteAddr_bracketed (ha : 0x3A ∈ a) (h : 0x3A ∉ port) :
    (splitRemoteAddr (joinHostPort a port)).1 = 0x5B :: a ++ [0x5D] := by
  unfold joinHostPort
  rw [if_pos ha, ← splitRemoteAddr_append (0x5B :: a ++ [0x5D]) h]
  simp

theorem splitRemoteAddr_eq_iff (ha : (parseAddr a).isSome = true)
    (hport : 0x3A ∉ port) (form : AddressForm) :
    (splitRemoteAddr (form.text a port)).1 = a ↔ form = .hostPort ∧ 0x3A ∉ a := by
  cases form with
  | bare =>
    have hne : a ≠ [] := by
      rintro rfl
      exact absurd ha (by decide)
    exact iff_of_false (splitRemoteAddr_ne hne) (fun h => nomatch h.1)
  | hostPort =>
    by_cases hcolon : 0x3A ∈ a
    · refine iff_of_false (fun h => ?_) (fun h => h.2 hcolon)
      have hlen := congrArg length ((splitRemoteAddr_bracketed hcolon hport).symm.trans h)
      simp only [length_append, length_cons] at hlen
      omega
    · refine iff_of_true ?_ ⟨rfl, hcolon⟩
      unfold AddressForm.text joinHostPort
      rw [if_neg hcolon]
      exact splitRemoteAddr_append a hport

/-! ### `@ipMatch` on the address -/

def remoteAddrTarget : RuleVariableParams := ⟨false, .remoteAddr, none, [], []⟩

/-- `SecRule REMOTE_ADDR "@ipMatch …"`: the operator is true of a value of the target. -/
def ipRule (it : Iteration) (vars : Variables) (data : Bytes) : Bool :=
  (getFieldMatches it vars remoteAddrTarget).any
    (fun m => IpMatch.evaluate (IpMatch.newIPMatch data) m.value)

theorem ipRule_eq (it : Iteration) (vars : Variables) (data : Bytes) : ipRule it vars data
      = IpMatch.evaluate (IpMatch.newIPMatch data) (vars.single .remoteAddr) :=
  Bool.or_false _

/-- **A client with an address of version 6 is in no network**: the brackets are no part of an
address. -/
theorem ipRule_bracketed (waf : WAF) (parseRequestURI : Bytes → Except Bytes ParsedURL)
    (it : Iteration) {req : Request} (ha : 0x3A ∈ a) (hport : 0x3A ∉ port)
    (hreq : req.remoteAddr = joinHostPort a port) (vars : Variables) (data : Bytes) :
    ipRule it (requestVariables waf parseRequestURI it req vars) data = false := by
  have hnone : parseIP (0x5B :: a ++ [0x5D]) = [] := by
    rw [parseIP_eq_nil, ← Option.not_isSome_iff_eq_none, Option.isSome_iff_exists]
    rintro ⟨addr, haddr⟩
    have hbracket := addrByte_of_unzoned haddr 0x5B (mem_cons_self ..)
    exact absurd hbracket (by unfold Net.AddrByte; decide)
  rw [ipRule_eq, requestVariables_remoteAddr, hreq, splitRemoteAddr_bracketed ha hport]
  exact IpMatch.evaluate_noAddress hnone data

/-- **When the address of the client reaches the rules.**  It does for an address of version 4
with a port, and for no other. -/
theorem client_address_iff (waf : WAF) (parseRequestURI : Bytes → Except Bytes ParsedURL)
    (it : Iteration) (vars : Variables) {a port : Bytes}
    (ha : (parseAddr a).isSome = true) (hport : 0x3A ∉ port) (form : AddressForm)
    {req : Request} (hreq : req.remoteAddr = form.text a port) :
    ((requestVariables waf parseRequestURI it req vars).single .remoteAddr = a ∧
      ∀ data, ipRule it (requestVariables waf parseRequestURI it req vars) data = true ↔
        ∃ sb ∈ IpMatch.entries data, IpMatch.LiesIn a sb) ↔
      form = .hostPort ∧ 0x3A ∉ a := by
  rw [← splitRemoteAddr_eq_iff ha hport form, requestVariables_remoteAddr, hreq]
  refine and_iff_left_of_imp (fun heq data => ?_)
  rw [ipRule_eq, requestVariables_remoteAddr, hreq, heq]
  exact IpMatch.evaluate_iff data a

def requestFrom (remoteAddr : Bytes) : Request where
  remoteAddr := remoteAddr
  url := bytesOf "/"
  method := bytesOf "GET"
  proto := bytesOf "HTTP/1.1"
  header := ∅
  host := []
  transferEncoding := []

theorem client_address_v4 : (requestVariables (WAF.new (fun _ => none)) splitURI .stored
      (requestFrom (bytesOf "192.0.2.1:8080")) Variables.new).single .remoteAddr
        = bytesOf "192.0.2.1" ∧
    ∀ data, ipRule .stored (requestVariables (WAF.new (fun _ => none)) splitURI .stored
        (requestFrom (bytesOf "192.0.2.1:8080")) Variables.new) data = true ↔
      ∃ sb ∈ IpMatch.entries data, IpMatch.LiesIn (bytesOf "192.0.2.1") sb :=
  (client_address_iff _ _ _ _ (by decide +kernel) (show 0x3A ∉ bytesOf "8080" by decide +kernel)
    .hostPort (show bytesOf "192.0.2.1:8080" = joinHostPort (bytesOf "192.0.2.1")
      (bytesOf "8080") by decide +kernel)).mpr ⟨rfl, by decide +kernel⟩

/-- The address `::1` with a port gets the brackets that separate the two. -/
theorem client_address_bracketed : (parseAddr (bytesOf "::1")).isSome = true ∧
      bytesOf "[::1]:8080" = joinHostPort (bytesOf "::1") (bytesOf "8080") ∧
      (requestVariables (WAF.new (fun _ => none)) splitURI .stored
        (requestFrom (bytesOf "[::1]:8080")) Variables.new).single .remoteAddr
          = bytesOf "[::1]" ∧
      (∃ sb ∈ IpMatch.entries (bytesOf "::1"), IpMatch.LiesIn (bytesOf "::1") sb) ∧
      ∀ data, ipRule .stored (requestVariables (WAF.new (fun _ => none)) splitURI .stored
        (requestFrom (bytesOf "[::1]:8080")) Variables.new) data = false := by
  have hjoin : bytesOf "[::1]:8080" = joinHostPort (bytesOf "::1") (bytesOf "8080") := by
    decide +kernel
  refine ⟨by decide +kernel, hjoin, ?_, ?_, fun data => ?_⟩
  · rw [requestVariables_remoteAddr]
    decide +kernel
  · rw [← IpMatch.evaluate_iff]
    decide +kernel
  · exact ipRule_bracketed _ _ _ (by decide +kernel) (by decide +kernel) hjoin _ data

end Coraza.Http
