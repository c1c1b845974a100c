import Coraza.Go.Sync
import Coraza.Lib.Threads

/-!
# The memoizer

`Do` looks a key up in a cache that all WAFs share and computes the value if it is not there.
Every entry has the owners that use it.  `Release` takes an owner out of all entries, and removes
those without owners.

Goroutines run these two concurrently.  A step is an operation on the cache, a critical section of
the mutex of an entry, or the result of a call of the group.  The critical section of
`releaseEntry` has an operation on the cache in it, and is two steps; the mutex is held between
them.
-/

namespace Coraza.Memoize

open Go

/-- `entry`.  While the mutex is held, it names the goroutine and the owner it releases. -/
structure Entry (O V T : Type) where
  value : V
  mu : Option (T × O)
  owners : Finset O
  deleted : Bool

/-- What the function returns that `Do` passes to the group: an entry, or what `fn` returned with
an error. -/
inductive Outcome (V E : Type) where
  | entry (e : Nat)
  | failed (data : V) (err : E)

inductive Leading (V E : Type) where
  /-- Before `cache.Load`. -/
  | load
  /-- Before `addOwner`. -/
  | add (e : Nat)
  /-- Before `fn`. -/
  | compute
  /-- Before `cache.LoadOrStore`.  Nobody else has the candidate until it is stored. -/
  | store (data : V)
  /-- Before `addOwner` for the entry that was loaded. -/
  | addLoaded (data : V) (e : Nat)
  /-- Before `cache.CompareAndDelete`. -/
  | remove (data : V) (e : Nat)
  /-- At its end. -/
  | finish (r : Outcome V E)

inductive Doing (V E : Type) where
  /-- Before `cache.Load`. -/
  | load
  /-- Before the first `addOwner`. -/
  | add (e : Nat)
  /-- Before `group.Do`. -/
  | group
  /-- In the function of a call of the group. -/
  | lead (call : Nat) (place : Leading V E)
  /-- Waiting for the result of a call of the group. -/
  | wait (call : Nat)
  /-- Before the last `addOwner`. -/
  | own (e : Nat)

inductive Releasing (K : Type) where
  /-- In `cache.Range`. -/
  | range
  /-- Before the critical section of `releaseEntry`. -/
  | visit (key : K) (e : Nat)
  /-- In it, before `cache.CompareAndDelete`. -/
  | remove (key : K) (e : Nat)

inductive Local (K O V E : Type) where
  | idle
  | doing (ownerID : O) (key : K) (place : Doing V E)
  | releasing (ownerID : O) (start : Nat) (visited : List K) (place : Releasing K)

structure Returned (K O V : Type) where
  ownerID : O
  key : K
  entry : Nat
  value : V

/-- What goroutines share: the cache, the entries and the group.  The rest is a history: the calls
of `Do` in flight, the owners that have called `Do`, those that have called `Release` and those for
which it has returned, and what was returned by `Do`. -/
structure Shared (K O V E T : Type) where
  cache : Sync.Map K Nat
  heap : Nat → Option (Entry O V T)
  group : Sync.Group K (Outcome V E)
  active : Finset (T × O)
  called : Finset O
  begun : Finset O
  released : Finset O
  returned : List (Returned K O V)

variable {K O V E T : Type} [DecidableEq O]

def Entry.addOwner (ownerID : O) (e : Entry O V T) : Bool × Entry O V T :=
  if e.deleted then (false, e) else (true, { e with owners := insert ownerID e.owners })

/-- The critical section of `releaseEntry`, up to the removal, and whether there is one. -/
def Entry.dropOwner (ownerID : O) (e : Entry O V T) : Bool × Entry O V T :=
  let e := { e with owners := e.owners.erase ownerID }
  if e.owners = ∅ then (true, { e with deleted := true }) else (false, e)

namespace Shared

def init : Shared K O V E T :=
  ⟨.empty, fun _ => none, .empty, ∅, ∅, ∅, ∅, []⟩

def setEntry (g : Shared K O V E T) (e : Nat) (x : Entry O V T) : Shared K O V E T :=
  { g with heap := Function.update g.heap e (some x) }

/-- The critical section of `addOwner`, for the entry `e`, which is `x`. -/
def Adds (g : Shared K O V E T) (ownerID : O) (e : Nat) (x : Entry O V T) (ok : Bool)
    (g' : Shared K O V E T) : Prop :=
  g.heap e = some x ∧ x.mu = none ∧ (x.addOwner ownerID).1 = ok ∧
    g' = g.setEntry e (x.addOwner ownerID).2

variable [DecidableEq T]

def call (g : Shared K O V E T) (t : T) (ownerID : O) : Shared K O V E T :=
  { g with active := insert (t, ownerID) g.active, called := insert ownerID g.called }

def fail (g : Shared K O V E T) (t : T) (ownerID : O) : Shared K O V E T :=
  { g with active := g.active.erase (t, ownerID) }

def answer (g : Shared K O V E T) (t : T) (r : Returned K O V) : Shared K O V E T :=
  { g with active := g.active.erase (t, r.ownerID), returned := g.returned ++ [r] }

end Shared

section

variable [DecidableEq K] (ownerID : O) (key : K)

/-- The function that `Do` passes to the group. -/
inductive LeadStep : Leading V E → Shared K O V E T → Leading V E → Shared K O V E T → Prop where
  | hit {g e} (h : g.cache.load key = some e) : LeadStep .load g (.add e) g
  | miss {g} (h : g.cache.load key = none) : LeadStep .load g .compute g
  | added {g g' e x} (h : g.Adds ownerID e x true g') :
      LeadStep (.add e) g (.finish (.entry e)) g'
  | refused {g g' e x} (h : g.Adds ownerID e x false g') : LeadStep (.add e) g .compute g'
  | computed {g} (data : V) : LeadStep .compute g (.store data) g
  | failed {g} (data : V) (err : E) : LeadStep .compute g (.finish (.failed data err)) g
  | stored {g data cache} (e : Nat) (hfresh : g.heap e = none)
      (h : g.cache.loadOrStore key e = ((e, false), cache)) :
      LeadStep (.store data) g (.finish (.entry e))
        ({ g with cache }.setEntry e ⟨data, none, {ownerID}, false⟩)
  | loaded {g data candidate e cache} (hfresh : g.heap candidate = none)
      (h : g.cache.loadOrStore key candidate = ((e, true), cache)) :
      LeadStep (.store data) g (.addLoaded data e) { g with cache }
  | loadedAdded {g g' data e x} (h : g.Adds ownerID e x true g') :
      LeadStep (.addLoaded data e) g (.finish (.entry e)) g'
  | loadedRefused {g g' data e x} (h : g.Adds ownerID e x false g') :
      LeadStep (.addLoaded data e) g (.remove data e) g'
  | removed {g data e} :
      LeadStep (.remove data e) g (.store data)
        { g with cache := (g.cache.compareAndDelete key e).2 }

variable [DecidableEq T] (t : T)

/-- What `Do` does with the result of `group.Do`. -/
inductive Resumes (g : Shared K O V E T) :
    Outcome V E → Local K O V E → Shared K O V E T → Prop where
  | entry (e : Nat) : Resumes g (.entry e) (.doing ownerID key (.own e)) g
  | failed (data : V) (err : E) : Resumes g (.failed data err) .idle (g.fail t ownerID)

/-- `Memoizer.Do`. -/
inductive DoStep : Doing V E → Shared K O V E T → Local K O V E → Shared K O V E T → Prop where
  | hit {g e} (h : g.cache.load key = some e) : DoStep .load g (.doing ownerID key (.add e)) g
  | miss {g} (h : g.cache.load key = none) : DoStep .load g (.doing ownerID key .group) g
  | added {g g' e x} (h : g.Adds ownerID e x true g') :
      DoStep (.add e) g .idle (g'.answer t ⟨ownerID, key, e, x.value⟩)
  | refused {g g' e x} (h : g.Adds ownerID e x false g') :
      DoStep (.add e) g (.doing ownerID key .group) g'
  | lead {g} (call : Nat) (h : g.group.inFlight key = none) (hfresh : g.group.calls call = none) :
      DoStep .group g (.doing ownerID key (.lead call .load))
        { g with group := g.group.start key call }
  | wait {g call} (h : g.group.inFlight key = some call) :
      DoStep .group g (.doing ownerID key (.wait call)) g
  | run {g g' call place place'} (h : LeadStep ownerID key place g place' g') :
      DoStep (.lead call place) g (.doing ownerID key (.lead call place')) g'
  | finished {g g' call r l}
      (h : Resumes ownerID key t { g with group := g.group.finish key call r } r l g') :
      DoStep (.lead call (.finish r)) g l g'
  | resumed {g g' call key' r l} (hcall : g.group.calls call = some (key', some r))
      (h : Resumes ownerID key t g r l g') : DoStep (.wait call) g l g'
  | owned {g g' e x} (h : g.Adds ownerID e x true g') :
      DoStep (.own e) g .idle (g'.answer t ⟨ownerID, key, e, x.value⟩)
  /-- The entry was deleted, and the loop begins again. -/
  | again {g g' e x} (h : g.Adds ownerID e x false g') :
      DoStep (.own e) g (.doing ownerID key .load) g'

end

section

variable [DecidableEq K] [DecidableEq T] (ownerID : O) (start : Nat) (t : T)

/-- `Release`, a call of `cache.Range` with `releaseEntry`. -/
inductive ReleaseStep :
    List K → Releasing K → Shared K O V E T → Local K O V E → Shared K O V E T → Prop where
  | visit {visited g key e} (h : g.cache.Visits start visited key e) :
      ReleaseStep visited .range g (.releasing ownerID start (key :: visited) (.visit key e)) g
  | kept {visited g key e x} (hx : g.heap e = some x) (hmu : x.mu = none)
      (h : (x.dropOwner ownerID).1 = false) :
      ReleaseStep visited (.visit key e) g (.releasing ownerID start visited .range)
        (g.setEntry e (x.dropOwner ownerID).2)
  | emptied {visited g key e x} (hx : g.heap e = some x) (hmu : x.mu = none)
      (h : (x.dropOwner ownerID).1 = true) :
      ReleaseStep visited (.visit key e) g (.releasing ownerID start visited (.remove key e))
        (g.setEntry e { (x.dropOwner ownerID).2 with mu := some (t, ownerID) })
  | removed {visited g key e x} (hx : g.heap e = some x) :
      ReleaseStep visited (.remove key e) g (.releasing ownerID start visited .range)
        ({ g with cache := (g.cache.compareAndDelete key e).2 }.setEntry e { x with mu := none })
  | returned {visited g} (h : g.cache.Ends start visited) :
      ReleaseStep visited .range g .idle { g with released := insert ownerID g.released }

end

/-- **The memoizer.**  An owner does not call `Do` after its `Release` has begun, and begins it
when no `Do` of it is in flight. -/
inductive Step [DecidableEq K] [DecidableEq T] (t : T) :
    Local K O V E → Shared K O V E T → Local K O V E → Shared K O V E T → Prop where
  | call {g} (ownerID : O) (key : K) (h : ownerID ∉ g.begun) :
      Step t .idle g (.doing ownerID key .load) (g.call t ownerID)
  | doing {g ownerID key place l g'} (h : DoStep ownerID key t place g l g') :
      Step t (.doing ownerID key place) g l g'
  | release {g} (ownerID : O) (h : ∀ t', (t', ownerID) ∉ g.active) :
      Step t .idle g (.releasing ownerID g.cache.past.length [] .range)
        { g with begun := insert ownerID g.begun }
  | releasing {g ownerID start visited place l g'}
      (h : ReleaseStep ownerID start t visited place g l g') :
      Step t (.releasing ownerID start visited place) g l g'

end Coraza.Memoize
