import Coraza.Lib.Capacity
import Coraza.Url
import Coraza.Waf.Transaction

/-!
# Arguments

The functions that add an argument to `ARGS_GET`, `ARGS_POST`, `ARGS_PATH` and `RESPONSE_ARGS`
compare the length of the collection with `ArgumentLimit`, and `ProcessURI` adds the arguments of
the query in the order in which Go iterates over the map that they were parsed into.

The length is a number of names, folded where the collection folds them, so each collection is a
store that is bounded by its keys (`pairs_run`).  `arguments_bounded_iff` says when it is bounded
in its values, and `query_arguments_deterministic_iff` when the iteration does not matter.
-/

namespace Coraza.Waf

open Go Collections List Variables

/-- What `ProcessURI` reads of an `url.URL`. -/
structure ParsedURL where
  path : Bytes
  rawQuery : Bytes
  string : Bytes

section

variable (waf : WAF)

/-! ### The functions -/

def checkArgumentLimit (c : Map) : Bool := (c.len : Int) ≥ waf.argumentLimit

def addArgument (v : RuleVariable) (key value : Bytes) (tx : Transaction) : Transaction :=
  if checkArgumentLimit waf (tx.vars.map v) then tx
  else tx.modifyVariables (fun vars => vars.modifyMap v (fun m => m.add key value))

def addGetRequestArgument (key value : Bytes) (tx : Transaction) : Transaction :=
  addArgument waf .argsGet key value tx

def addPostRequestArgument (key value : Bytes) (tx : Transaction) : Transaction :=
  addArgument waf .argsPost key value tx

def addPathRequestArgument (key value : Bytes) (tx : Transaction) : Transaction :=
  addArgument waf .argsPath key value tx

def addResponseArgument (key value : Bytes) (tx : Transaction) : Transaction :=
  addArgument waf .responseArgs key value tx

def extractGetArguments (it : Iteration) (uri : Bytes) (tx : Transaction) : Transaction :=
  (it.entries (Url.parseQuery uri 0x26)).foldl
    (fun tx e => e.2.foldl (fun tx v => addGetRequestArgument waf e.1 v tx) tx) tx

def setSingle (v : RuleVariable) (value : Bytes) (tx : Transaction) : Transaction :=
  tx.modifyVariables (fun vars => vars.setSingle v value)

def withoutAnchor (uri : Bytes) : Bytes :=
  match Strings.indexByte uri 0x23 with
  | some i => uri.take i
  | none => uri

def basename (path : Bytes) : Bytes :=
  match Strings.lastIndexAny path (bytesOf "/\\") with
  | some offset => if path.length > offset + 1 then path.drop (offset + 1) else path
  | none => path

def processURI (parseRequestURI : Bytes → Except Bytes ParsedURL) (it : Iteration)
    (uri method httpVersion : Bytes) (tx : Transaction) : Transaction :=
  let tx := setSingle .requestMethod method tx
  let tx := setSingle .requestProtocol httpVersion tx
  let tx := setSingle .requestURIRaw uri tx
  let tx := setSingle .requestLine (method ++ bytesOf " " ++ uri ++ bytesOf " " ++ httpVersion) tx
  let uri := withoutAnchor uri
  let (path, query, tx) :=
    match parseRequestURI uri with
    | .error err => (uri, [], setSingle .requestURI uri (setSingle .urlencodedError err tx))
    | .ok parsedURL => (parsedURL.path, parsedURL.rawQuery,
      setSingle .requestURI parsedURL.string (extractGetArguments waf it parsedURL.rawQuery tx))
  let tx := setSingle .requestBasename (basename path) tx
  let tx := setSingle .requestFilename path tx
  setSingle .queryString query tx

/-- The functions that add arguments, and `ProcessURI` with the order in which it iterates. -/
inductive ArgumentCall where
  | addGetRequestArgument (key value : Bytes)
  | addPostRequestArgument (key value : Bytes)
  | addPathRequestArgument (key value : Bytes)
  | addResponseArgument (key value : Bytes)
  | processURI (it : Iteration) (uri method httpVersion : Bytes)

variable (parseRequestURI : Bytes → Except Bytes ParsedURL)

def ArgumentCall.run (tx : Transaction) : ArgumentCall → Transaction
  | addGetRequestArgument key value => Waf.addGetRequestArgument waf key value tx
  | addPostRequestArgument key value => Waf.addPostRequestArgument waf key value tx
  | addPathRequestArgument key value => Waf.addPathRequestArgument waf key value tx
  | addResponseArgument key value => Waf.addResponseArgument waf key value tx
  | processURI it uri method httpVersion =>
    Waf.processURI waf parseRequestURI it uri method httpVersion tx

end

/-! ### What is offered to a collection -/

def requestQuery (parseRequestURI : Bytes → Except Bytes ParsedURL) (uri : Bytes) : Bytes :=
  match parseRequestURI (withoutAnchor uri) with
  | .ok parsedURL => parsedURL.rawQuery
  | .error _ => []

def named (e : Bytes × List Bytes) : List (Bytes × Bytes) := e.2.map (fun v => (e.1, v))

def queryArguments (it : Iteration) (query : Bytes) : List (Bytes × Bytes) :=
  (it.entries (Url.parseQuery query 0x26)).flatMap named

def ArgumentCall.offered (parseRequestURI : Bytes → Except Bytes ParsedURL) (v : RuleVariable) :
    ArgumentCall → List (Bytes × Bytes)
  | addGetRequestArgument key value => if v = .argsGet then [(key, value)] else []
  | addPostRequestArgument key value => if v = .argsPost then [(key, value)] else []
  | addPathRequestArgument key value => if v = .argsPath then [(key, value)] else []
  | addResponseArgument key value => if v = .responseArgs then [(key, value)] else []
  | processURI it uri _ _ =>
    if v = .argsGet then queryArguments it (requestQuery parseRequestURI uri) else []

def offered (parseRequestURI : Bytes → Except Bytes ParsedURL) (v : RuleVariable)
    (calls : List ArgumentCall) : List (Bytes × Bytes) :=
  calls.flatMap (fun call => call.offered parseRequestURI v)

def runArguments (waf : WAF) (parseRequestURI : Bytes → Except Bytes ParsedURL)
    (calls : List ArgumentCall) (tx : Transaction) : Transaction :=
  calls.foldl (fun tx call => call.run waf parseRequestURI tx) tx

def offer (waf : WAF) (c : Map) (e : Bytes × Bytes) : Map :=
  if checkArgumentLimit waf c then c else c.add e.1 e.2

section

variable {waf : WAF} {parseRequestURI : Bytes → Except Bytes ParsedURL}

theorem map_addArgument (v w : RuleVariable) (key value : Bytes) (tx : Transaction) :
    (addArgument waf w key value tx).vars.map v
      = if v = w then offer waf (tx.vars.map v) (key, value) else tx.vars.map v := by
  unfold addArgument offer
  by_cases hv : v = w
  · subst hv
    rw [if_pos rfl]
    split
    · rfl
    · exact tx.vars.modifyMap_map_self v (fun m => m.add key value)
  · rw [if_neg hv]
    split
    · rfl
    · exact tx.vars.modifyMap_map_of_ne hv (fun m => m.add key value)

@[simp] theorem map_setSingle (v w : RuleVariable) (value : Bytes) (tx : Transaction) :
    (setSingle w value tx).vars.map v = tx.vars.map v := rfl

variable (v : RuleVariable)

theorem map_addNamed (key : Bytes) (values : List Bytes) (tx : Transaction) :
    (values.foldl (fun tx value => addGetRequestArgument waf key value tx) tx).vars.map v
      = (if v = .argsGet then named (key, values) else []).foldl (offer waf) (tx.vars.map v) := by
  induction values generalizing tx with
  | nil =>
    split <;> rfl
  | cons value values ih =>
    rw [foldl_cons, ih, addGetRequestArgument, map_addArgument]
    split <;> rfl

theorem map_extractGetArguments (it : Iteration) (query : Bytes) (tx : Transaction) :
    (extractGetArguments waf it query tx).vars.map v
      = (if v = .argsGet then queryArguments it query else []).foldl (offer waf)
        (tx.vars.map v) := by
  unfold extractGetArguments queryArguments
  generalize it.entries (Url.parseQuery query 0x26) = entries
  induction entries generalizing tx with
  | nil => split <;> rfl
  | cons e entries ih =>
    rw [foldl_cons, ih, map_addNamed]
    split
    · rw [flatMap_cons, foldl_append]
    · rfl

theorem map_processURI (it : Iteration) (uri method httpVersion : Bytes) (tx : Transaction) :
    (processURI waf parseRequestURI it uri method httpVersion tx).vars.map v
      = (if v = .argsGet then queryArguments it (requestQuery parseRequestURI uri) else []).foldl
        (offer waf) (tx.vars.map v) := by
  unfold processURI requestQuery
  dsimp only
  cases parseRequestURI (withoutAnchor uri) with
  | error err =>
    have hnil : queryArguments it [] = [] := by
      unfold queryArguments
      rw [show it.entries (Url.parseQuery [] 0x26) = [] from List.perm_nil.mp (it.perm [])]
      rfl
    simp only [map_setSingle, hnil, ite_self, foldl_nil]
  | ok parsedURL => simp only [map_setSingle, map_extractGetArguments]

/-- **A call offers its arguments**, one after the other. -/
theorem map_run (call : ArgumentCall) (tx : Transaction) :
    (call.run waf parseRequestURI tx).vars.map v
      = (call.offered parseRequestURI v).foldl (offer waf) (tx.vars.map v) := by
  cases call with
  | processURI it uri method httpVersion => exact map_processURI ..
  | _ =>
    refine (map_addArgument ..).trans ?_
    unfold ArgumentCall.offered
    split <;> rfl

theorem map_runArguments (calls : List ArgumentCall) (tx : Transaction) :
    (runArguments waf parseRequestURI calls tx).vars.map v
      = (offered parseRequestURI v calls).foldl (offer waf) (tx.vars.map v) := by
  induction calls generalizing tx with
  | nil => rfl
  | cons call calls ih =>
    have hstep : runArguments waf parseRequestURI (call :: calls) tx
        = runArguments waf parseRequestURI calls (call.run waf parseRequestURI tx) := rfl
    rw [hstep, ih, map_run, offered, offered, flatMap_cons, foldl_append]

/-! ### The collection as a store -/

def filedUnder (c : Map) (e : Bytes × Bytes) : Bytes := c.fold e.1

/-- **A collection is a store that is bounded by its keys.** -/
theorem foldl_offer {c : Map} (hc : c.data = ∅) (l : List (Bytes × Bytes)) : l.foldl (offer waf) c
      = c.addAll (Capacity.acceptAll (filedUnder c) waf.argumentLimit.toNat l) := by
  induction l using List.reverseRecOn with
  | nil => rfl
  | append_singleton l e ih =>
    rw [foldl_concat, ih, Capacity.acceptAll_concat]
    generalize Capacity.acceptAll (filedUnder c) waf.argumentLimit.toNat l = held
    have hfull : checkArgumentLimit waf (c.addAll held) = true ↔
        waf.argumentLimit.toNat ≤ Capacity.distinct (filedUnder c) held := by
      unfold checkArgumentLimit
      rw [decide_eq_true_iff, Map.len_addAll hc, Int.toNat_le]
      rfl
    unfold offer Capacity.accept
    by_cases hroom : waf.argumentLimit.toNat ≤ Capacity.distinct (filedUnder c) held
    · rw [if_pos (hfull.mpr hroom), if_pos hroom]
    · rw [if_neg (mt hfull.mp hroom), if_neg hroom]
      unfold Map.addAll
      rw [foldl_concat]

variable (waf parseRequestURI) in
/-- What a fresh collection holds after a sequence of calls. -/
theorem pairs_run {v : RuleVariable} {tx : Transaction} (hv : (tx.vars.map v).data = ∅)
    (calls : List ArgumentCall) :
    ((runArguments waf parseRequestURI calls tx).vars.map v).pairs.Perm
      ((Capacity.acceptAll (filedUnder (tx.vars.map v)) waf.argumentLimit.toNat
        (offered parseRequestURI v calls)).map (fun e => ⟨e.1, e.2⟩)) := by
  rw [map_runArguments, foldl_offer hv]
  exact Map.pairs_addAll hv _

end

/-! ### The bound -/

def argumentVariables : List RuleVariable := [.argsGet, .argsPost, .argsPath, .responseArgs]

/-- **When the limit bounds the arguments.**  A collection that is offered more arguments than
the limit keeps within it exactly if the first ones have different names. -/
theorem arguments_bounded_iff (waf : WAF) (hlimit : 1 ≤ waf.argumentLimit)
    (parseRequestURI : Bytes → Except Bytes ParsedURL) {vars : Variables}
    (hfresh : ∀ v ∈ argumentVariables, (vars.map v).data = ∅) (calls : List ArgumentCall) :
    (∀ v ∈ argumentVariables, (((runArguments waf parseRequestURI calls
        (waf.newTransaction vars)).vars.map v).pairs.length : Int) ≤ waf.argumentLimit) ↔
      ∀ v ∈ argumentVariables,
        ((offered parseRequestURI v calls).length : Int) ≤ waf.argumentLimit ∨
          (((offered parseRequestURI v calls).take waf.argumentLimit.toNat).map
            (fun e => (vars.map v).fold e.1)).Nodup := by
  refine forall₂_congr (fun v hv => ?_)
  have hnat : ∀ n : Nat, (n : Int) ≤ waf.argumentLimit ↔ n ≤ waf.argumentLimit.toNat := by
    intro n
    omega
  have hpairs := List.Perm.length_eq (pairs_run waf parseRequestURI
    (show ((waf.newTransaction vars).vars.map v).data = ∅ from hfresh v hv) calls)
  rw [length_map] at hpairs
  rw [hpairs, hnat, hnat]
  exact Capacity.length_acceptAll_le_iff ..

def roomForTwo : WAF := { WAF.new (fun _ => none) with argumentLimit := 2 }

/-- What follows the first `?` is the query, as `url.ParseRequestURI` has it for a path. -/
def splitURI (uri : Bytes) : Except Bytes ParsedURL :=
  .ok ⟨(Url.cut uri 0x3F).1, (Url.cut uri 0x3F).2, uri⟩

/-- Three names, of which the first two are taken. -/
theorem arguments_bounded_two : (offered splitURI .argsGet [.processURI .stored
        (bytesOf "/?a=1&b=2&c=3") (bytesOf "GET") (bytesOf "HTTP/1.1")]).length = 3 ∧
      ∀ v ∈ argumentVariables, (((runArguments roomForTwo splitURI
        [.processURI .stored (bytesOf "/?a=1&b=2&c=3") (bytesOf "GET") (bytesOf "HTTP/1.1")]
        (roomForTwo.newTransaction new)).vars.map v).pairs.length : Int)
          ≤ roomForTwo.argumentLimit :=
  ⟨by decide +kernel, (arguments_bounded_iff roomForTwo (by decide) splitURI (fun _ _ => rfl)
    _).mpr (by decide +kernel)⟩

/-- One name, three values, and a limit of two. -/
theorem arguments_exceed_limit : ((runArguments roomForTwo splitURI
      [.addGetRequestArgument (bytesOf "a") (bytesOf "1"),
        .addGetRequestArgument (bytesOf "a") (bytesOf "2"),
        .addGetRequestArgument (bytesOf "a") (bytesOf "3")]
      (roomForTwo.newTransaction new)).vars.map .argsGet).pairs.length = 3 := by
  decide +kernel

/-! ### The order of the names -/

def storedNames (query : Bytes) : List (Bytes × List Bytes) :=
  (Url.parseQuery query 0x26).entries.map (fun e => (e.1, e.2))

theorem storedNames_perm (query : Bytes) :
    ((storedNames query).flatMap named).Perm (Url.decoded query 0x26 true) := by
  have hperm := Maps.flatMap_group (fun k v => (k, v)) (Url.decoded query 0x26 true)
  rw [← Url.doParseQuery_eq, map_id'] at hperm
  unfold storedNames
  rw [flatMap_map]
  exact hperm

theorem length_storedNames (query : Bytes) :
    (storedNames query).length = Capacity.distinct Prod.fst (Url.decoded query 0x26 true) := by
  unfold storedNames Url.parseQuery
  rw [length_map, Url.doParseQuery_eq, Maps.length_group]
  rfl

theorem named_ne_nil {query : Bytes} : ∀ e ∈ storedNames query, named e ≠ [] := by
  intro e he
  obtain ⟨stored, hstored, rfl⟩ := List.mem_map.mp he
  unfold Url.parseQuery at hstored
  rw [Url.doParseQuery_eq] at hstored
  exact mt List.map_eq_nil_iff.mp (Maps.ne_nil_of_mem_group hstored)

theorem pairwise_named (query : Bytes) :
    (storedNames query).Pairwise (fun e e' => (named e).Disjoint (named e')) := by
  have hnodup : ((storedNames query).map Prod.fst).Nodup := by
    unfold storedNames
    rw [map_map]
    exact (Url.parseQuery query 0x26).nodupKeys
  refine (List.pairwise_map.mp hnodup).imp ?_
  rintro e e' hne x hx hx'
  obtain ⟨v, -, rfl⟩ := List.mem_map.mp hx
  obtain ⟨v', -, heq⟩ := List.mem_map.mp hx'
  exact hne (congrArg Prod.fst heq).symm

theorem pairs_processURI {waf : WAF} {parseRequestURI : Bytes → Except Bytes ParsedURL}
    {tx : Transaction} (hfresh : (tx.vars.map .argsGet).data = ∅) (it : Iteration)
    (uri method httpVersion : Bytes) :
    ((processURI waf parseRequestURI it uri method httpVersion tx).vars.map .argsGet).pairs.Perm
      ((Capacity.acceptAll (filedUnder (tx.vars.map .argsGet)) waf.argumentLimit.toNat
        ((it.order (storedNames (requestQuery parseRequestURI uri))).flatMap named)).map
          (fun e => ⟨e.1, e.2⟩)) := by
  rw [map_processURI, foldl_offer hfresh]
  exact Map.pairs_addAll hfresh _

theorem forall_iteration_iff {waf : WAF} {parseRequestURI : Bytes → Except Bytes ParsedURL}
    {tx : Transaction} (hfresh : (tx.vars.map .argsGet).data = ∅) (uri method httpVersion : Bytes) :
    (∀ it it' : Iteration,
      ((processURI waf parseRequestURI it uri method httpVersion tx).vars.map .argsGet).pairs.Perm
        ((processURI waf parseRequestURI it' uri method httpVersion tx).vars.map .argsGet).pairs) ↔
      ∀ σ σ' : List (Bytes × List Bytes),
        σ.Perm (storedNames (requestQuery parseRequestURI uri)) →
        σ'.Perm (storedNames (requestQuery parseRequestURI uri)) →
        (Capacity.acceptAll (filedUnder (tx.vars.map .argsGet)) waf.argumentLimit.toNat
          (σ.flatMap named)).Perm (Capacity.acceptAll (filedUnder (tx.vars.map .argsGet))
            waf.argumentLimit.toNat (σ'.flatMap named)) := by
  have hinjective : Function.Injective (fun e : Bytes × Bytes => (⟨e.1, e.2⟩ : KeyValue)) := by
    rintro ⟨k, v⟩ ⟨k', v'⟩ heq
    cases heq
    rfl
  have hpairs := @pairs_processURI waf parseRequestURI tx hfresh
  constructor
  · intro h σ σ' hσ hσ'
    obtain ⟨it, rfl⟩ := exists_iteration hσ
    obtain ⟨it', rfl⟩ := exists_iteration hσ'
    rw [← map_perm_map_iff hinjective]
    exact (hpairs it uri method httpVersion).symm.trans ((h it it').trans (hpairs it' ..))
  · intro h it it'
    refine (hpairs it ..).trans (List.Perm.trans ?_ (hpairs it' ..).symm)
    exact (h _ _ (it.perm _) (it'.perm _)).map _

/-- **When a request has the same arguments in every order.**  Either nothing is taken, or
everything has room, or there is one name and so one order. -/
theorem query_arguments_deterministic_iff (waf : WAF)
    (parseRequestURI : Bytes → Except Bytes ParsedURL) {tx : Transaction}
    (hfresh : (tx.vars.map .argsGet).data = ∅) (uri method httpVersion : Bytes) :
    (∀ it it' : Iteration,
      ((processURI waf parseRequestURI it uri method httpVersion tx).vars.map .argsGet).pairs.Perm
        ((processURI waf parseRequestURI it' uri method httpVersion tx).vars.map .argsGet).pairs) ↔
      waf.argumentLimit ≤ 0 ∨
      (Capacity.distinct (fun e => (tx.vars.map .argsGet).fold e.1)
        (Url.decoded (requestQuery parseRequestURI uri) 0x26 true) : Int) < waf.argumentLimit ∨
      ((Url.decoded (requestQuery parseRequestURI uri) 0x26 true).length : Int)
        ≤ waf.argumentLimit ∨
      Capacity.distinct Prod.fst (Url.decoded (requestQuery parseRequestURI uri) 0x26 true)
        ≤ 1 := by
  rw [forall_iteration_iff hfresh]
  generalize requestQuery parseRequestURI uri = query
  have hkey : ∀ e ∈ storedNames query, ∀ x ∈ named e,
      filedUnder (tx.vars.map .argsGet) x = (tx.vars.map .argsGet).fold e.1 := by
    intro e _ x hx
    obtain ⟨v, -, rfl⟩ := List.mem_map.mp hx
    rfl
  rw [Capacity.acceptAll_flatMap_perm_iff hkey named_ne_nil (pairwise_named query),
    Capacity.distinct_perm (storedNames_perm query), (storedNames_perm query).length_eq,
    length_storedNames]
  unfold filedUnder
  omega

def roomForOne : WAF := { WAF.new (fun _ => none) with argumentLimit := 1 }

/-- Two names and room for both. -/
theorem query_arguments_deterministic_two :
    (Url.decoded (requestQuery splitURI (bytesOf "/?a=1&b=2")) 0x26 true).length = 2 ∧
    ∀ it it' : Iteration, ((processURI roomForTwo splitURI it (bytesOf "/?a=1&b=2") (bytesOf "GET")
      (bytesOf "HTTP/1.1") (roomForTwo.newTransaction new)).vars.map .argsGet).pairs.Perm
    ((processURI roomForTwo splitURI it' (bytesOf "/?a=1&b=2") (bytesOf "GET") (bytesOf "HTTP/1.1")
      (roomForTwo.newTransaction new)).vars.map .argsGet).pairs :=
  ⟨by decide +kernel, (query_arguments_deterministic_iff roomForTwo splitURI rfl _ _ _).mpr
    (.inr (.inr (.inl (by decide +kernel))))⟩

/-- Two names, room for one of them: the iteration decides which. -/
theorem query_arguments_differ : ∃ it it' : Iteration,
    ((processURI roomForOne splitURI it (bytesOf "/?a=1&b=2") (bytesOf "GET")
      (bytesOf "HTTP/1.1") (roomForOne.newTransaction new)).vars.map .argsGet).pairs
        = [⟨bytesOf "a", bytesOf "1"⟩] ∧
    ((processURI roomForOne splitURI it' (bytesOf "/?a=1&b=2") (bytesOf "GET")
      (bytesOf "HTTP/1.1") (roomForOne.newTransaction new)).vars.map .argsGet).pairs
        = [⟨bytesOf "b", bytesOf "2"⟩] := by
  refine ⟨⟨List.reverse, reverse_perm⟩, .stored, ?_, ?_⟩
  · decide +kernel
  · decide +kernel

end Coraza.Waf
