import Coraza.Memoize.Memoizer

/-!
# Owners and entries

What goroutines that share the memoizer can rely on, whatever the interleaving of their steps.
`Invariant` is about the shared state: an entry that was stored is either deleted or still stored,
and it is deleted exactly when it has no owners.  An entry that is deleted and still stored is about
to be removed, by the goroutine that holds its mutex.

The hard part is `Release`.  It walks over a map that others change, and must find every entry
of its owner.  `Sweeps` says why it does: as long as an entry owes something to the owner, it has
been in its place since the walk began, and it was not visited yet.

`memoizer_protocol` puts together what callers see.
-/

namespace Coraza.Memoize

open Go Threads Sync.Map Finset Function

variable {K O V E T : Type}

/-- A release of the owner has to come to the entry, or is about to remove it. -/
def Owes (ownerID : O) (x : Entry O V T) : Prop :=
  ownerID ∈ x.owners ∨ ∃ t, x.mu = some (t, ownerID)

/-- **The invariant of the shared state.** -/
structure Invariant (g : Shared K O V E T) : Prop where
  /-- An entry that was stored has owners, or is deleted; if it is not, it is stored. -/
  entries : ∀ {key e}, g.cache.Ever key e → ∃ x, g.heap e = some x ∧
    (x.deleted = true ↔ x.owners = ∅) ∧ (x.deleted = false → g.cache.now key = some e)
  /-- It was stored under one key. -/
  keys : ∀ {key key' e}, g.cache.Ever key e → g.cache.Ever key' e → key = key'
  /-- If it is deleted and stored, somebody is removing it. -/
  removal : ∀ {key e x}, g.cache.now key = some e → g.heap e = some x → x.deleted = true →
    x.mu ≠ none
  inFlight : ∀ {key call}, g.group.inFlight key = some call →
    ∃ r, g.group.calls call = some (key, r)
  /-- Calls of the group return entries that were stored. -/
  calls : ∀ {call key e}, g.group.calls call = some (key, some (.entry e)) →
    g.cache.Ever key e
  returned : ∀ r ∈ g.returned, g.cache.Ever r.key r.entry ∧ ∃ x, g.heap r.entry = some x ∧
    x.value = r.value ∧ (r.ownerID ∉ g.begun → r.ownerID ∈ x.owners)
  /-- Entries owe nothing to those that never used the memoizer, or have released. -/
  owes : ∀ {key e x ownerID}, g.cache.now key = some e → g.heap e = some x → Owes ownerID x →
    ownerID ∈ g.called ∧ ownerID ∉ g.released
  released : g.released ⊆ g.begun

theorem invariant_init : Invariant (.init : Shared K O V E T) where
  entries h := by
    obtain ⟨c, hc, he⟩ := h
    cases List.mem_singleton.mp hc
    cases he
  keys h := by
    obtain ⟨c, hc, he⟩ := h
    cases List.mem_singleton.mp hc
    cases he
  removal h := nomatch h
  inFlight h := nomatch h
  calls h := nomatch h
  returned r h := absurd h List.not_mem_nil
  owes h := nomatch h
  released := subset_rfl

theorem Invariant.holds {g : Shared K O V E T} (h : Invariant g) {r : Returned K O V}
    (hr : r ∈ g.returned)
    (hbegun : r.ownerID ∉ g.begun) :
    ∃ x, g.heap r.entry = some x ∧ x.value = r.value ∧ r.ownerID ∈ x.owners ∧
      x.deleted = false ∧ g.cache.load r.key = some r.entry := by
  obtain ⟨hever, x, hx, hvalue, howner⟩ := h.returned r hr
  obtain ⟨y, hy, hempty, hstored⟩ := h.entries hever
  cases hx.symm.trans hy
  have hdeleted : x.deleted = false := by
    rw [← Bool.not_eq_true, hempty]
    exact ne_empty_of_mem (howner hbegun)
  exact ⟨x, hx, hvalue, howner hbegun, hdeleted, hstored hdeleted⟩

theorem Invariant.empty {g : Shared K O V E T} (h : Invariant g)
    (hreleased : ∀ o ∈ g.called, o ∈ g.released) (key : K) :
    g.cache.load key = none := by
  have hnobody : ∀ {e x}, g.cache.now key = some e → g.heap e = some x → ∀ o, ¬Owes o x := by
    intro e x hnow hx o howes
    obtain ⟨hcalled, hnot⟩ := h.owes hnow hx howes
    exact hnot (hreleased o hcalled)
  cases hnow : g.cache.load key with
  | none => rfl
  | some e =>
    obtain ⟨x, hx, hempty, -⟩ := h.entries (ever_of_now hnow)
    have howners : x.owners = ∅ :=
      eq_empty_of_forall_notMem (fun o ho => hnobody hnow hx o (.inl ho))
    -- the entry is deleted, so that the goroutine that has deleted it holds the mutex
    cases hmu : x.mu with
    | none => exact absurd hmu (h.removal hnow hx (hempty.mpr howners))
    | some holder => exact absurd (.inr ⟨holder.1, hmu⟩) (hnobody hnow hx holder.2)

/-! ### What a goroutine knows -/

def Leading.Ok (g : Shared K O V E T) (key : K) : Leading V E → Prop
  | .add e | .addLoaded _ e | .finish (.entry e) => g.cache.Ever key e
  | .remove _ e => g.cache.Ever key e ∧ ∃ x, g.heap e = some x ∧ x.deleted = true
  | _ => True

def Doing.Ok (g : Shared K O V E T) (key : K) : Doing V E → Prop
  | .add e | .own e => g.cache.Ever key e
  | .lead call place => (∃ r, g.group.calls call = some (key, r)) ∧ place.Ok g key
  | .wait call => ∃ r, g.group.calls call = some (key, r)
  | _ => True

def Releasing.Ok (g : Shared K O V E T) (t : T) (ownerID : O) : Releasing K → Prop
  | .range => True
  | .visit key e => g.cache.Ever key e
  | .remove key e => g.cache.Ever key e ∧
      ∃ x, g.heap e = some x ∧ x.mu = some (t, ownerID) ∧ x.deleted = true

/-- **The progress of a release.**  An entry that is stored and owes something to the owner has
been there since the release began, and was not visited yet. -/
def Sweeps (g : Shared K O V E T) (ownerID : O) (start : Nat) (visited : List K)
    (place : Releasing K) : Prop :=
  ∀ key e x, g.cache.now key = some e → g.heap e = some x → Owes ownerID x →
    (∀ c ∈ g.cache.since start, c key = some e) ∧
      (key ∈ visited → place = .visit key e ∨ place = .remove key e)

def Local.Ok (t : T) (l : Local K O V E) (g : Shared K O V E T) : Prop :=
  match l with
  | .idle => True
  | .doing ownerID key place => (t, ownerID) ∈ g.active ∧ ownerID ∈ g.called ∧
      ownerID ∉ g.begun ∧ place.Ok g key
  | .releasing ownerID start visited place => ownerID ∈ g.begun ∧
      start ≤ g.cache.past.length ∧ place.Ok g t ownerID ∧ Sweeps g ownerID start visited place

/-! ### What a step does to others -/

structure Entry.Later (x x' : Entry O V T) : Prop where
  value : x'.value = x.value
  deleted : x.deleted = true → x'.deleted = true ∧ x'.owners ⊆ x.owners

theorem Entry.Later.refl (x : Entry O V T) : x.Later x := ⟨rfl, fun h => ⟨h, subset_rfl⟩⟩

theorem Entry.Later.trans {x x' x'' : Entry O V T} (h : x.Later x') (h' : x'.Later x'') :
    x.Later x'' where
  value := h'.value.trans h.value
  deleted hdeleted := by
    obtain ⟨hdeleted', howners⟩ := h.deleted hdeleted
    obtain ⟨hdeleted'', howners'⟩ := h'.deleted hdeleted'
    exact ⟨hdeleted'', howners'.trans howners⟩

structure Spares (t : T) (g g' : Shared K O V E T) : Prop where
  active : ∀ {t' ownerID}, t' ≠ t → (t', ownerID) ∈ g.active → (t', ownerID) ∈ g'.active
  called : g.called ⊆ g'.called
  begun : g.begun ⊆ g'.begun
  /-- No release begins while `Do` is in flight. -/
  unbegun : ∀ {t' ownerID}, t' ≠ t → (t', ownerID) ∈ g.active → ownerID ∉ g.begun →
    ownerID ∉ g'.begun
  ever : ∀ {key e}, g.cache.Ever key e → g'.cache.Ever key e
  calls : ∀ {call key r}, g.group.calls call = some (key, r) →
    ∃ r', g'.group.calls call = some (key, r')
  entries : ∀ {e x}, g.heap e = some x → ∃ x', g'.heap e = some x' ∧ x.Later x' ∧
    ∀ t' ownerID, t' ≠ t → x.mu = some (t', ownerID) → x'.mu = some (t', ownerID)
  past : g.cache.past.length ≤ g'.cache.past.length
  /-- Entries that owe something to an owner that releases have done so before. -/
  sweep : ∀ {ownerID start key e x'}, ownerID ∈ g.begun → start ≤ g.cache.past.length →
    g'.cache.now key = some e → g'.heap e = some x' → Owes ownerID x' →
    g.cache.now key = some e ∧ (∃ x, g.heap e = some x ∧ Owes ownerID x) ∧
      ((∀ c ∈ g.cache.since start, c key = some e) →
        ∀ c ∈ g'.cache.since start, c key = some e)

namespace Spares

variable {t : T} {g g' g'' : Shared K O V E T}

theorem refl (t : T) (g : Shared K O V E T) : Spares t g g where
  active _ h := h
  called := subset_rfl
  begun := subset_rfl
  unbegun _ _ h := h
  ever h := h
  calls h := ⟨_, h⟩
  entries h := ⟨_, h, .refl _, fun _ _ _ h => h⟩
  past := le_rfl
  sweep _ _ hnow hx howes := ⟨hnow, ⟨_, hx, howes⟩, fun h => h⟩

theorem trans (h : Spares t g g') (h' : Spares t g' g'') : Spares t g g'' where
  active ht hactive := h'.active ht (h.active ht hactive)
  called := h.called.trans h'.called
  begun := h.begun.trans h'.begun
  unbegun ht hactive hbegun := h'.unbegun ht (h.active ht hactive) (h.unbegun ht hactive hbegun)
  ever hever := h'.ever (h.ever hever)
  calls hcall := by
    obtain ⟨r, hr⟩ := h.calls hcall
    exact h'.calls hr
  entries hx := by
    obtain ⟨x', hx', hlater, hmu⟩ := h.entries hx
    obtain ⟨x'', hx'', hlater', hmu'⟩ := h'.entries hx'
    exact ⟨x'', hx'', hlater.trans hlater',
      fun t' o ht hlocked => hmu' t' o ht (hmu t' o ht hlocked)⟩
  past := h.past.trans h'.past
  sweep hbegun hstart hnow hx howes := by
    obtain ⟨hnow', ⟨x', hx', howes'⟩, hsince'⟩ :=
      h'.sweep (h.begun hbegun) (hstart.trans h.past) hnow hx howes
    obtain ⟨hnow'', howes'', hsince⟩ := h.sweep hbegun hstart hnow' hx' howes'
    exact ⟨hnow'', howes'', fun hc => hsince' (hsince hc)⟩

end Spares

variable {visited : List K}

section

variable {t t' : T} {g g' : Shared K O V E T}

theorem Leading.Ok.stable (h : Spares t g g') {key : K} {place : Leading V E}
    (hok : place.Ok g key) : place.Ok g' key := by
  cases place with
  | add e | addLoaded data e => exact h.ever hok
  | remove data e =>
    obtain ⟨hever, x, hx, hdeleted⟩ := hok
    obtain ⟨x', hx', hlater, -⟩ := h.entries hx
    exact ⟨h.ever hever, x', hx', (hlater.deleted hdeleted).1⟩
  | finish r =>
    cases r with
    | entry e => exact h.ever hok
    | failed data err => trivial
  | load | compute | store data => trivial

theorem Doing.Ok.stable (h : Spares t g g') {key : K} {place : Doing V E}
    (hok : place.Ok g key) : place.Ok g' key := by
  cases place with
  | add e | own e => exact h.ever hok
  | lead call place =>
    obtain ⟨⟨r, hr⟩, hplace⟩ := hok
    exact ⟨h.calls hr, Leading.Ok.stable h hplace⟩
  | wait call =>
    obtain ⟨r, hr⟩ := hok
    exact h.calls hr
  | load | group => trivial

theorem Releasing.Ok.stable (ht : t' ≠ t) (h : Spares t g g') {ownerID : O} {place : Releasing K}
    (hok : place.Ok g t' ownerID) : place.Ok g' t' ownerID := by
  cases place with
  | range => trivial
  | visit key e => exact h.ever hok
  | remove key e =>
    obtain ⟨hever, x, hx, hmu, hdeleted⟩ := hok
    obtain ⟨x', hx', hlater, hlocked⟩ := h.entries hx
    exact ⟨h.ever hever, x', hx', hlocked _ _ ht hmu, (hlater.deleted hdeleted).1⟩

theorem Sweeps.stable (h : Spares t g g') {ownerID : O} {start : Nat}
    {place : Releasing K} (hbegun : ownerID ∈ g.begun) (hstart : start ≤ g.cache.past.length)
    (hsweeps : Sweeps g ownerID start visited place) : Sweeps g' ownerID start visited place := by
  intro key e x' hnow hx' howes
  obtain ⟨hnow₀, ⟨x, hx, howes₀⟩, hsince⟩ := h.sweep hbegun hstart hnow hx' howes
  obtain ⟨hconstant, hvisited⟩ := hsweeps key e x hnow₀ hx howes₀
  exact ⟨hsince hconstant, hvisited⟩

/-- The place in a release may change, if it was at no entry that still owes something. -/
theorem Sweeps.place {ownerID : O} {start : Nat} {place place' : Releasing K}
    (h : Sweeps g ownerID start visited place)
    (hplace : ∀ key e x, g.cache.now key = some e → g.heap e = some x → Owes ownerID x →
      place = .visit key e ∨ place = .remove key e →
      place' = .visit key e ∨ place' = .remove key e) :
    Sweeps g ownerID start visited place' := by
  intro key e x hnow hx howes
  obtain ⟨hconstant, hvisited⟩ := h key e x hnow hx howes
  exact ⟨hconstant, fun hmem => hplace key e x hnow hx howes (hvisited hmem)⟩

/-- **Goroutines do not disturb each other.** -/
theorem Local.Ok.stable (ht : t' ≠ t) (h : Spares t g g') {l : Local K O V E}
    (hok : l.Ok t' g) : l.Ok t' g' := by
  cases l with
  | idle => trivial
  | doing ownerID key place =>
    obtain ⟨hactive, hcalled, hbegun, hplace⟩ := hok
    exact ⟨h.active ht hactive, h.called hcalled, h.unbegun ht hactive hbegun,
      Doing.Ok.stable h hplace⟩
  | releasing ownerID start visited place =>
    obtain ⟨hbegun, hstart, hplace, hsweeps⟩ := hok
    exact ⟨h.begun hbegun, hstart.trans h.past, Releasing.Ok.stable ht h hplace,
      Sweeps.stable h hbegun hstart hsweeps⟩

end

/-! ### The changes of the shared state

Each of them keeps the invariant and spares the other goroutines; a step is made of them. -/

section

variable {t : T} {g : Shared K O V E T}

theorem Shared.setEntry_heap (g : Shared K O V E T) (e e' : Nat) (x : Entry O V T) :
    (g.setEntry e x).heap e' = if e' = e then some x else g.heap e' :=
  update_apply ..

variable {e : Nat} {x : Entry O V T} {key : K}

theorem Spares.setEntry {x' : Entry O V T} (hx : g.heap e = some x) (hlater : x.Later x')
    (hmu : ∀ t' ownerID, t' ≠ t → x.mu = some (t', ownerID) → x'.mu = some (t', ownerID))
    (howes : ∀ key ownerID, ownerID ∈ g.begun → g.cache.now key = some e → Owes ownerID x' →
      Owes ownerID x) : Spares t g (g.setEntry e x') :=
  { Spares.refl t g with
    entries := by
      intro e' y hy
      rw [Shared.setEntry_heap]
      split
      · rename_i heq
        subst heq
        cases hx.symm.trans hy
        exact ⟨x', rfl, hlater, hmu⟩
      · exact ⟨y, hy, .refl y, fun _ _ _ h => h⟩
    sweep := by
      intro ownerID start key e' y hbegun hstart hnow hy hy'
      refine ⟨hnow, ?_, fun h => h⟩
      rcases Sync.update_eq_some.mp hy with ⟨rfl, ⟨⟩⟩ | ⟨-, hy⟩
      · exact ⟨x, hx, howes key ownerID hbegun hnow hy'⟩
      · exact ⟨y, hy, hy'⟩ }

theorem Invariant.setEntry (h : Invariant g) {x' : Entry O V T} (hx : g.heap e = some x)
    (hvalue : x'.value = x.value)
    (hdeleted : ∀ key, g.cache.Ever key e → (x'.deleted = true ↔ x'.owners = ∅) ∧
      (x'.deleted = false → x.deleted = false))
    (hremoval : ∀ key, g.cache.now key = some e → x'.deleted = true → x'.mu ≠ none)
    (hreturned : ∀ ownerID, ownerID ∉ g.begun → ownerID ∈ x.owners → ownerID ∈ x'.owners)
    (howes : ∀ key ownerID, g.cache.now key = some e → Owes ownerID x' →
      ownerID ∈ g.called ∧ ownerID ∉ g.released) : Invariant (g.setEntry e x') :=
  { h with
    entries := by
      intro key e' hever
      obtain ⟨y, hy, hempty, hstored⟩ := h.entries hever
      rw [Shared.setEntry_heap]
      split
      · rename_i heq
        subst heq
        cases hx.symm.trans hy
        obtain ⟨hempty', hfalse⟩ := hdeleted key hever
        exact ⟨x', rfl, hempty', fun hx' => hstored (hfalse hx')⟩
      · exact ⟨y, hy, hempty, hstored⟩
    removal := by
      intro key e' y hnow hy hy'
      rcases Sync.update_eq_some.mp hy with ⟨rfl, ⟨⟩⟩ | ⟨-, hy⟩
      · exact hremoval key hnow hy'
      · exact h.removal hnow hy hy'
    returned := by
      intro r hr
      obtain ⟨hever, y, hy, hvalue', howner⟩ := h.returned r hr
      refine ⟨hever, ?_⟩
      rw [Shared.setEntry_heap]
      split
      · rename_i heq
        rw [heq] at hy
        cases hx.symm.trans hy
        exact ⟨x', rfl, hvalue.trans hvalue', fun hb => hreturned _ hb (howner hb)⟩
      · exact ⟨y, hy, hvalue', howner⟩
    owes := by
      intro key e' y ownerID hnow hy hy'
      rcases Sync.update_eq_some.mp hy with ⟨rfl, ⟨⟩⟩ | ⟨-, hy⟩
      · exact howes key ownerID hnow hy'
      · exact h.owes hnow hy hy' }

variable [DecidableEq K]

theorem Spares.remove (key : K) (e : Nat) :
    Spares t g { g with cache := (g.cache.compareAndDelete key e).2 } :=
  { Spares.refl t g with
    ever := ever_compareAndDelete.mpr
    past := past_compareAndDelete e key
    sweep := by
      intro ownerID start key' e' x hbegun hstart hnow hx howes
      have hnow₀ := (compareAndDelete_now_eq_some.mp hnow).1
      exact ⟨hnow₀, ⟨x, hx, howes⟩, since_compareAndDelete_constant hstart hnow⟩ }

theorem Invariant.remove (h : Invariant g) (key : K) (hx : g.heap e = some x)
    (hdeleted : x.deleted = true) :
    Invariant { g with cache := (g.cache.compareAndDelete key e).2 } :=
  { h with
    entries := by
      intro key' e' hever
      obtain ⟨y, hy, hempty, hstored⟩ := h.entries (ever_compareAndDelete.mp hever)
      refine ⟨y, hy, hempty, fun hy' => ?_⟩
      refine compareAndDelete_now_eq_some.mpr ⟨hstored hy', ?_⟩
      rintro - rfl
      cases hx.symm.trans hy
      cases hdeleted.symm.trans hy'
    keys := fun hever hever' => h.keys (ever_compareAndDelete.mp hever)
      (ever_compareAndDelete.mp hever')
    removal := fun hnow => h.removal (compareAndDelete_now_eq_some.mp hnow).1
    calls := fun hcall => ever_compareAndDelete.mpr (h.calls hcall)
    returned := fun r hr =>
      ⟨ever_compareAndDelete.mpr (h.returned r hr).1, (h.returned r hr).2⟩
    owes := fun hnow => h.owes (compareAndDelete_now_eq_some.mp hnow).1 }

theorem Spares.store {ownerID : O} (hbegun : ownerID ∉ g.begun) (hfresh : g.heap e = none)
    (data : V) :
    Spares t g ({ g with cache := g.cache.set key (some e) }.setEntry e
      ⟨data, none, {ownerID}, false⟩) :=
  { Spares.refl t g with
    ever := fun hever => ever_set_iff.mpr (.inl hever)
    entries := by
      intro e' y hy
      rw [Shared.setEntry_heap, if_neg]
      · exact ⟨y, hy, .refl y, fun _ _ _ h => h⟩
      · rintro rfl
        cases hfresh.symm.trans hy
    past := (Nat.le_succ _).trans_eq (set_past_length ..).symm
    sweep := by
      intro ownerID' start key' e' y hbegun' hstart hnow hy howes
      rcases Sync.update_eq_some.mp hy with ⟨-, ⟨⟩⟩ | ⟨hne, hy⟩
      · -- the entry is new, and its owner is another one
        rcases howes with howner | ⟨t', ht'⟩
        · rw [mem_singleton.mp howner] at hbegun'
          exact absurd hbegun' hbegun
        · cases ht'
      · exact ⟨now_of_set hnow hne, ⟨y, hy, howes⟩,
          since_set_constant hstart hnow⟩ }

theorem Invariant.store (h : Invariant g) {ownerID : O} (hcalled : ownerID ∈ g.called)
    (hbegun : ownerID ∉ g.begun) (hfresh : g.heap e = none) (hnone : g.cache.now key = none)
    (data : V) :
    Invariant ({ g with cache := g.cache.set key (some e) }.setEntry e
      ⟨data, none, {ownerID}, false⟩) := by
  have hnew : ∀ {key'}, ¬g.cache.Ever key' e := by
    intro key' hever
    obtain ⟨y, hy, -⟩ := h.entries hever
    cases hfresh.symm.trans hy
  have hself : (g.cache.set key (some e)).now key = some e := update_self ..
  have hother : ∀ {key'}, key' ≠ key → (g.cache.set key (some e)).now key' = g.cache.now key' :=
    fun hne => update_of_ne hne ..
  have hold : ∀ {e' y}, g.heap e' = some y → e' ≠ e := by
    rintro e' y hy rfl
    cases hfresh.symm.trans hy
  exact
  { entries := by
      intro key' e' hever
      rcases ever_set_iff.mp hever with hever | ⟨rfl, he⟩
      · obtain ⟨y, hy, hempty, hstored⟩ := h.entries hever
        refine ⟨y, ?_, hempty, fun hy' => ?_⟩
        · rw [Shared.setEntry_heap, if_neg (hold hy)]
          exact hy
        · have hnow := hstored hy'
          refine (hother ?_).trans hnow
          rintro rfl
          cases hnone.symm.trans hnow
      · cases he
        refine ⟨_, (Shared.setEntry_heap ..).trans (if_pos rfl), ?_, fun _ => hself⟩
        simp
    keys := by
      intro key₁ key₂ e' h₁ h₂
      rcases ever_set_iff.mp h₁ with hold₁ | ⟨rfl, he₁⟩
      · rcases ever_set_iff.mp h₂ with hold₂ | ⟨rfl, he₂⟩
        · exact h.keys hold₁ hold₂
        · cases he₂
          exact (hnew hold₁).elim
      · cases he₁
        rcases ever_set_iff.mp h₂ with hold₂ | ⟨rfl, -⟩
        · exact (hnew hold₂).elim
        · rfl
    removal := by
      intro key' e' y hnow hy hy'
      rcases Sync.update_eq_some.mp hy with ⟨-, ⟨⟩⟩ | ⟨hne, hy⟩
      · cases hy'
      · exact h.removal (now_of_set hnow hne) hy hy'
    inFlight := h.inFlight
    calls := fun hcall => ever_set_iff.mpr (.inl (h.calls hcall))
    returned := by
      intro r hr
      obtain ⟨hever, y, hy, hvalue, howner⟩ := h.returned r hr
      refine ⟨ever_set_iff.mpr (.inl hever), y, ?_, hvalue, howner⟩
      rw [Shared.setEntry_heap, if_neg (hold hy)]
      exact hy
    owes := by
      intro key' e' y ownerID' hnow hy howes
      rcases Sync.update_eq_some.mp hy with ⟨-, ⟨⟩⟩ | ⟨hne, hy⟩
      · rcases howes with howner | ⟨t', ht'⟩
        · rw [mem_singleton.mp howner]
          exact ⟨hcalled, fun hreleased => hbegun (h.released hreleased)⟩
        · cases ht'
      · exact h.owes (now_of_set hnow hne) hy howes
    released := h.released }

variable {call : Nat}

theorem Spares.start (hfresh : g.group.calls call = none) (key : K) :
    Spares t g { g with group := g.group.start key call } :=
  { Spares.refl t g with
    calls := Sync.Group.start_calls hfresh }

theorem Invariant.start (h : Invariant g) (hfresh : g.group.calls call = none)
    (key : K) : Invariant { g with group := g.group.start key call } :=
  { h with
    inFlight := by
      intro key' call' hflight
      rcases Sync.update_eq_some.mp hflight with ⟨rfl, ⟨⟩⟩ | ⟨-, hold⟩
      · exact ⟨none, update_self ..⟩
      · obtain ⟨r, hr⟩ := h.inFlight hold
        exact Sync.Group.start_calls hfresh hr
    calls := by
      intro call' key' e hcall
      rcases Sync.update_eq_some.mp hcall with ⟨-, ⟨⟩⟩ | ⟨-, hold⟩
      exact h.calls hold }

theorem Spares.finish {r : Option (Outcome V E)}
    (hcall : g.group.calls call = some (key, r)) (r' : Outcome V E) :
    Spares t g { g with group := g.group.finish key call r' } :=
  { Spares.refl t g with
    calls := Sync.Group.finish_calls hcall r' }

theorem Invariant.finish (h : Invariant g) {r : Option (Outcome V E)}
    (hcall : g.group.calls call = some (key, r)) {r' : Outcome V E}
    (hr' : ∀ e, r' = .entry e → g.cache.Ever key e) :
    Invariant { g with group := g.group.finish key call r' } :=
  { h with
    inFlight := by
      intro key' call' hflight
      rcases Sync.update_eq_some.mp hflight with ⟨-, ⟨⟩⟩ | ⟨-, hold⟩
      obtain ⟨r₀, hr₀⟩ := h.inFlight hold
      exact Sync.Group.finish_calls hcall r' hr₀
    calls := by
      intro call' key' e hcall'
      rcases Sync.update_eq_some.mp hcall' with ⟨-, ⟨⟩⟩ | ⟨-, hold⟩
      · exact hr' e rfl
      · exact h.calls hold }

end

section

variable [DecidableEq O] {t : T} {g : Shared K O V E T}

theorem Spares.begin {ownerID : O} (h : ∀ t', (t', ownerID) ∉ g.active) :
    Spares t g { g with begun := insert ownerID g.begun } :=
  { Spares.refl t g with
    begun := subset_insert ..
    unbegun := by
      intro t' ownerID' ht hactive hbegun hnew
      rcases mem_insert.mp hnew with rfl | hnew
      · exact h t' hactive
      · exact hbegun hnew }

theorem Invariant.begin (h : Invariant g) (ownerID : O) :
    Invariant { g with begun := insert ownerID g.begun } :=
  { h with
    returned := by
      intro r hr
      obtain ⟨hever, x, hx, hvalue, howner⟩ := h.returned r hr
      exact ⟨hever, x, hx, hvalue, fun hb =>
        howner (fun hmem => hb (mem_insert_of_mem hmem))⟩
    released := h.released.trans (subset_insert ..) }

variable [DecidableEq T]

theorem Spares.call (ownerID : O) : Spares t g (g.call t ownerID) :=
  { Spares.refl t g with
    active := fun _ h => mem_insert_of_mem h
    called := subset_insert .. }

theorem Spares.fail (ownerID : O) : Spares t g (g.fail t ownerID) :=
  { Spares.refl t g with
    active := fun ht h => mem_erase_of_ne_of_mem (fun heq => ht (congrArg Prod.fst heq)) h }

theorem Spares.answer (r : Returned K O V) : Spares t g (g.answer t r) :=
  { Spares.refl t g with
    active := fun ht h => mem_erase_of_ne_of_mem (fun heq => ht (congrArg Prod.fst heq)) h }

theorem Invariant.call (h : Invariant g) (ownerID : O) : Invariant (g.call t ownerID) :=
  { h with
    owes := fun hnow hx howes =>
      ⟨mem_insert_of_mem (h.owes hnow hx howes).1, (h.owes hnow hx howes).2⟩ }

theorem Invariant.fail (h : Invariant g) (ownerID : O) : Invariant (g.fail t ownerID) :=
  { h with }

theorem Invariant.answer (h : Invariant g) {r : Returned K O V}
    (hever : g.cache.Ever r.key r.entry) {x : Entry O V T} (hx : g.heap r.entry = some x)
    (hvalue : x.value = r.value) (howner : r.ownerID ∈ x.owners) : Invariant (g.answer t r) :=
  { h with
    returned := by
      intro r' hr'
      rcases List.mem_append.mp hr' with hr' | hr'
      · exact h.returned r' hr'
      · rw [List.mem_singleton.mp hr']
        exact ⟨hever, x, hx, hvalue, fun _ => howner⟩ }

end

/-! ### The steps -/

section

variable {t : T} {g g' : Shared K O V E T} {ownerID : O} {key : K}

structure Internal (t : T) (g g' : Shared K O V E T) : Prop where
  invariant : Invariant g'
  spares : Spares t g g'
  active : g'.active = g.active
  called : g'.called = g.called
  begun : g'.begun = g.begun

theorem Internal.refl (h : Invariant g) : Internal t g g := ⟨h, .refl t g, rfl, rfl, rfl⟩

structure Sound (t : T) (g : Shared K O V E T) (l : Local K O V E) (g' : Shared K O V E T) :
    Prop where
  invariant : Invariant g'
  own : l.Ok t g'
  spares : Spares t g g'

theorem Internal.sound {place : Doing V E} (h : Internal t g g') (hactive : (t, ownerID) ∈ g.active)
    (hcalled : ownerID ∈ g.called) (hbegun : ownerID ∉ g.begun) (hplace : place.Ok g' key) :
    Sound t g (.doing ownerID key place) g' := by
  refine ⟨h.invariant, ⟨?_, ?_, ?_, hplace⟩, h.spares⟩
  · exact h.active ▸ hactive
  · exact h.called ▸ hcalled
  · exact h.begun ▸ hbegun

section

variable [DecidableEq K]

theorem Entry.removed {e : Nat} {x : Entry O V T} (hinv : Invariant g)
    (hever : g.cache.Ever key e) (hx : g.heap e = some x) (hmu : x.mu = some (t, ownerID))
    (hdeleted : x.deleted = true) :
    let g' := { g with cache := (g.cache.compareAndDelete key e).2 }.setEntry e
      { x with mu := none }
    Internal t g g' ∧ ∀ key', g'.cache.now key' ≠ some e := by
  have hgone : ∀ key', (g.cache.compareAndDelete key e).2.now key' ≠ some e := by
    intro key' hnow
    obtain ⟨hnow', hne⟩ := compareAndDelete_now_eq_some.mp hnow
    exact hne (hinv.keys (ever_of_now hnow') hever) rfl
  refine ⟨⟨?_, ?_, rfl, rfl, rfl⟩, hgone⟩
  · refine (hinv.remove key hx hdeleted).setEntry hx rfl ?_
      (fun key' hnow => absurd hnow (hgone key')) (fun _ _ h => h)
      (fun key' _ hnow => absurd hnow (hgone key'))
    intro key' hever'
    obtain ⟨y, hy, hempty, -⟩ := (hinv.remove key hx hdeleted).entries hever'
    cases hx.symm.trans hy
    exact ⟨hempty, fun hfalse => hfalse⟩
  · refine (Spares.remove key e).trans (Spares.setEntry hx ⟨rfl, fun h => ⟨h, subset_rfl⟩⟩ ?_
      (fun key' _ _ hnow => absurd hnow (hgone key')))
    intro t' o ht hlocked
    cases hmu.symm.trans hlocked
    exact absurd rfl ht

end

variable [DecidableEq O]

variable {e : Nat} {x : Entry O V T} {l : Local K O V E}

/-- `addOwner` refuses an entry that is deleted. -/
theorem Shared.Adds.refused (h : g.Adds ownerID e x false g') :
    g' = g ∧ g.heap e = some x ∧ x.deleted = true := by
  obtain ⟨hx, -, hfalse, rfl⟩ := h
  unfold Entry.addOwner at hfalse ⊢
  split_ifs at hfalse ⊢ with hdeleted
  refine ⟨?_, hx, hdeleted⟩
  show { g with heap := update g.heap e (some x) } = g
  rw [← hx, update_eq_self]

theorem Shared.Adds.added {e : Nat} {x : Entry O V T} (h : g.Adds ownerID e x true g') :
    g' = g.setEntry e { x with owners := insert ownerID x.owners } ∧ g.heap e = some x ∧
      x.deleted = false := by
  obtain ⟨hx, -, htrue, rfl⟩ := h
  unfold Entry.addOwner at htrue ⊢
  split_ifs at htrue ⊢ with hdeleted
  exact ⟨rfl, hx, Bool.not_eq_true _ ▸ hdeleted⟩

/-- **A call of `Do` becomes an owner.** -/
theorem Shared.Adds.internal (hinv : Invariant g) (hcalled : ownerID ∈ g.called)
    (hbegun : ownerID ∉ g.begun) (h : g.Adds ownerID e x true g') : Internal t g g' := by
  obtain ⟨rfl, hx, hdeleted⟩ := h.added
  have howes : ∀ o, Owes o { x with owners := insert ownerID x.owners } →
      o = ownerID ∨ Owes o x := by
    rintro o (howner | hmu)
    · exact (mem_insert.mp howner).imp_right .inl
    · exact .inr (.inr hmu)
  refine ⟨?_, ?_, rfl, rfl, rfl⟩
  · refine hinv.setEntry hx rfl ?_ ?_ ?_ ?_
    · intro key _
      refine ⟨⟨fun htrue => ?_, fun hempty => ?_⟩, fun hfalse => hfalse⟩
      · cases hdeleted.symm.trans htrue
      · exact (insert_ne_empty _ _ hempty).elim
    · intro key _ htrue
      cases hdeleted.symm.trans htrue
    · exact fun o _ ho => mem_insert_of_mem ho
    · intro key o hnow ho
      rcases howes o ho with rfl | ho
      · exact ⟨hcalled, fun hreleased => hbegun (hinv.released hreleased)⟩
      · exact hinv.owes hnow hx ho
  · refine Spares.setEntry hx ⟨rfl, fun htrue => ?_⟩ (fun _ _ _ h => h) ?_
    · cases hdeleted.symm.trans htrue
    · intro key o ho _ howes'
      refine (howes o howes').resolve_left ?_
      rintro rfl
      exact hbegun ho

theorem Entry.dropOwner_eq (ownerID : O) (x : Entry O V T) :
    (x.dropOwner ownerID).1 = decide (x.owners.erase ownerID = ∅) ∧
      (x.dropOwner ownerID).2 = { x with
        owners := x.owners.erase ownerID
        deleted := x.deleted || decide (x.owners.erase ownerID = ∅) } := by
  unfold Entry.dropOwner
  dsimp only
  split
  · rename_i hempty
    simp [hempty]
  · rename_i hempty
    simp [hempty]

theorem Entry.dropOwner_kept (hinv : Invariant g) (hbegun : ownerID ∈ g.begun)
    (hever : g.cache.Ever key e) (hx : g.heap e = some x) (h : (x.dropOwner ownerID).1 = false) :
    Internal t g (g.setEntry e (x.dropOwner ownerID).2) := by
  obtain ⟨hfirst, hsecond⟩ := x.dropOwner_eq ownerID
  rw [hfirst, decide_eq_false_iff_not] at h
  rw [hsecond, decide_eq_false h, Bool.or_false]
  have hnot : x.deleted = false := by
    obtain ⟨y, hy, hempty, -⟩ := hinv.entries hever
    cases hx.symm.trans hy
    rw [← Bool.not_eq_true, hempty]
    intro hnone
    exact h (hnone ▸ erase_empty ..)
  have howes : ∀ o, Owes o { x with owners := x.owners.erase ownerID } → Owes o x :=
    fun o ho => ho.imp_left mem_of_mem_erase
  refine ⟨?_, ?_, rfl, rfl, rfl⟩
  · refine hinv.setEntry hx rfl ?_ ?_ ?_ (fun key o hnow ho => hinv.owes hnow hx (howes o ho))
    · intro key _
      refine ⟨⟨fun htrue => ?_, fun hempty => absurd hempty h⟩, fun hfalse => hfalse⟩
      cases hnot.symm.trans htrue
    · intro key _ htrue
      cases hnot.symm.trans htrue
    · intro o ho hmem
      refine mem_erase_of_ne_of_mem ?_ hmem
      rintro rfl
      exact ho hbegun
  · refine Spares.setEntry hx ⟨rfl, fun htrue => ?_⟩ (fun _ _ _ h => h) (fun _ o _ _ => howes o)
    cases hnot.symm.trans htrue

/-- An entry that a release can lock and that is stored has the owner, if no other is left. -/
theorem Entry.mem_owners_of_stored (hinv : Invariant g) (hx : g.heap e = some x)
    (hmu : x.mu = none) (h : x.owners.erase ownerID = ∅) (hnow : g.cache.now key = some e) :
    ownerID ∈ x.owners := by
  by_contra hnot
  obtain ⟨y, hy, hempty, -⟩ := hinv.entries (ever_of_now hnow)
  cases hx.symm.trans hy
  rw [erase_eq_of_notMem hnot] at h
  exact hinv.removal hnow hx (hempty.mpr h) hmu

theorem Entry.dropOwner_emptied (hinv : Invariant g) (hbegun : ownerID ∈ g.begun)
    (hx : g.heap e = some x) (hmu : x.mu = none) (h : (x.dropOwner ownerID).1 = true) :
    Internal t g (g.setEntry e { (x.dropOwner ownerID).2 with mu := some (t, ownerID) }) := by
  obtain ⟨hfirst, hsecond⟩ := x.dropOwner_eq ownerID
  rw [hfirst, decide_eq_true_iff] at h
  rw [hsecond, decide_eq_true h, Bool.or_true, h]
  have howes : ∀ key o, g.cache.now key = some e →
      Owes o { x with mu := some (t, ownerID), owners := ∅, deleted := true } →
      o = ownerID ∧ Owes o x := by
    rintro key o hnow (howner | ⟨t', ht'⟩)
    · exact absurd howner (notMem_empty o)
    · cases ht'
      exact ⟨rfl, .inl (Entry.mem_owners_of_stored hinv hx hmu h hnow)⟩
  refine ⟨?_, ?_, rfl, rfl, rfl⟩
  · refine hinv.setEntry hx rfl (fun _ _ => ⟨⟨fun _ => rfl, fun _ => rfl⟩, nofun⟩)
      (fun _ _ _ => nofun) ?_ (fun key o hnow ho => hinv.owes hnow hx (howes key o hnow ho).2)
    intro o ho hmem
    have hne : o ≠ ownerID := by
      rintro rfl
      exact ho hbegun
    exact h ▸ mem_erase_of_ne_of_mem hne hmem
  · refine Spares.setEntry hx ⟨rfl, fun _ => ⟨rfl, empty_subset _⟩⟩ ?_
      (fun key o _ hnow ho => (howes key o hnow ho).2)
    intro t' o _ hlocked
    cases hmu.symm.trans hlocked

section

variable [DecidableEq T]

theorem Shared.Adds.sound {e : Nat} {x : Entry O V T} (hinv : Invariant g)
    (hcalled : ownerID ∈ g.called) (hbegun : ownerID ∉ g.begun) (hever : g.cache.Ever key e)
    (h : g.Adds ownerID e x true g') :
    Sound t g .idle (g'.answer t ⟨ownerID, key, e, x.value⟩) := by
  have hinternal : Internal t g g' := h.internal hinv hcalled hbegun
  obtain ⟨rfl, -, -⟩ := h.added
  have hx : (g.setEntry e { x with owners := insert ownerID x.owners }).heap e
      = some { x with owners := insert ownerID x.owners } :=
    (Shared.setEntry_heap ..).trans (if_pos rfl)
  exact ⟨hinternal.invariant.answer hever hx rfl (mem_insert_self ..), trivial,
    hinternal.spares.trans (.answer _)⟩

theorem Resumes.sound {g₀ : Shared K O V E T} {r : Outcome V E} {l : Local K O V E}
    (hinternal : Internal t g₀ g) (hactive : (t, ownerID) ∈ g₀.active)
    (hcalled : ownerID ∈ g₀.called) (hbegun : ownerID ∉ g₀.begun)
    (hr : ∀ e, r = .entry e → g.cache.Ever key e) (h : Resumes ownerID key t g r l g') :
    Sound t g₀ l g' := by
  cases h with
  | entry e => exact hinternal.sound hactive hcalled hbegun (hr e rfl)
  | failed data err =>
    exact ⟨hinternal.invariant.fail ownerID, trivial, hinternal.spares.trans (.fail ownerID)⟩

end

variable [DecidableEq K]

theorem LeadStep.internal {place place' : Leading V E} (hinv : Invariant g)
    (hcalled : ownerID ∈ g.called) (hbegun : ownerID ∉ g.begun) (hok : place.Ok g key)
    (h : LeadStep ownerID key place g place' g') : Internal t g g' ∧ place'.Ok g' key := by
  cases h with
  | hit h => exact ⟨.refl hinv, ever_of_now h⟩
  | miss h => exact ⟨.refl hinv, trivial⟩
  | added h =>
    have hinternal : Internal t g g' := h.internal hinv hcalled hbegun
    exact ⟨hinternal, hinternal.spares.ever hok⟩
  | refused h =>
    obtain ⟨rfl, -⟩ := h.refused
    exact ⟨.refl hinv, trivial⟩
  | computed data => exact ⟨.refl hinv, trivial⟩
  | failed data err => exact ⟨.refl hinv, trivial⟩
  | @stored _ data cache e hfresh h =>
    unfold loadOrStore at h
    split at h
    · cases h
    · rename_i hnone
      cases h
      exact ⟨⟨hinv.store hcalled hbegun hfresh hnone data, .store hbegun hfresh data, rfl, rfl,
        rfl⟩,
        ever_set_iff.mpr (.inr ⟨rfl, rfl⟩)⟩
  | loaded hfresh h =>
    unfold loadOrStore at h
    split at h
    · rename_i hnow
      cases h
      exact ⟨.refl hinv, ever_of_now hnow⟩
    · cases h
  | loadedAdded h =>
    have hinternal : Internal t g g' := h.internal hinv hcalled hbegun
    exact ⟨hinternal, hinternal.spares.ever hok⟩
  | loadedRefused h =>
    obtain ⟨rfl, hx, hdeleted⟩ := h.refused
    exact ⟨.refl hinv, hok, _, hx, hdeleted⟩
  | removed =>
    obtain ⟨-, x, hx, hdeleted⟩ := hok
    exact ⟨⟨hinv.remove key hx hdeleted, .remove key _, rfl, rfl, rfl⟩, trivial⟩

/-- **`Release`.** -/
theorem ReleaseStep.sound {start : Nat} {place : Releasing K} (hinv : Invariant g)
    (hok : (Local.releasing ownerID start visited place : Local K O V E).Ok t g)
    (h : ReleaseStep ownerID start t visited place g l g') : Sound t g l g' := by
  obtain ⟨hbegun, hstart, hplace, hsweeps⟩ := hok
  cases h with
  | @visit _ key e h =>
    refine ⟨hinv, ⟨hbegun, hstart, h.ever, ?_⟩, .refl t g⟩
    intro key' e' x hnow hx howes
    obtain ⟨hconstant, hvisited⟩ := hsweeps key' e' x hnow hx howes
    refine ⟨hconstant, fun hmem => ?_⟩
    rcases List.mem_cons.mp hmem with rfl | hmem
    · -- the walk has found the entry that was there all the time
      obtain ⟨-, c, hc, he⟩ := h
      cases (hconstant c hc).symm.trans he
      exact .inl rfl
    · rcases hvisited hmem with heq | heq <;> cases heq
  | @kept _ key e x hx hmu h =>
    have hinternal : Internal t g (g.setEntry e (x.dropOwner ownerID).2) :=
      Entry.dropOwner_kept hinv hbegun hplace hx h
    refine ⟨hinternal.invariant, ⟨hbegun, hstart, trivial, ?_⟩, hinternal.spares⟩
    refine (Sweeps.stable hinternal.spares hbegun hstart hsweeps).place ?_
    rintro key' e' y hnow hy howes (heq | heq) <;> cases heq
    rw [Shared.setEntry_heap, if_pos rfl] at hy
    cases hy
    obtain ⟨-, hsecond⟩ := x.dropOwner_eq ownerID
    rw [hsecond] at howes
    rcases howes with howner | ⟨t', ht'⟩
    · exact absurd howner (notMem_erase _ _)
    · cases hmu.symm.trans ht'
  | @emptied _ key e x hx hmu h =>
    have hinternal : Internal t g
        (g.setEntry e { (x.dropOwner ownerID).2 with mu := some (t, ownerID) }) :=
      Entry.dropOwner_emptied hinv hbegun hx hmu h
    obtain ⟨hfirst, hsecond⟩ := x.dropOwner_eq ownerID
    have hdeleted : (x.dropOwner ownerID).2.deleted = true := by
      rw [hsecond, ← hfirst, h]
      exact Bool.or_true _
    refine ⟨hinternal.invariant, ⟨hbegun, hstart, ⟨hplace,
      { (x.dropOwner ownerID).2 with mu := some (t, ownerID) }, ?_, rfl, hdeleted⟩, ?_⟩,
      hinternal.spares⟩
    · exact (Shared.setEntry_heap ..).trans (if_pos rfl)
    · refine (Sweeps.stable hinternal.spares hbegun hstart hsweeps).place ?_
      rintro key' e' y - - - (heq | heq) <;> cases heq
      exact .inr rfl
  | @removed _ key e x hx =>
    obtain ⟨hever, y, hy, hmu, hdeleted⟩ := hplace
    cases hx.symm.trans hy
    obtain ⟨hinternal, hgone⟩ := Entry.removed hinv hever hx hmu hdeleted
    refine ⟨hinternal.invariant, ⟨hbegun, hstart.trans hinternal.spares.past, trivial, ?_⟩,
      hinternal.spares⟩
    refine (Sweeps.stable hinternal.spares hbegun hstart hsweeps).place ?_
    rintro key' e' z hnow - - (heq | heq) <;> cases heq
    exact absurd hnow (hgone _)
  | returned h =>
    have hnothing : ∀ key e x, g.cache.now key = some e → g.heap e = some x → ¬Owes ownerID x := by
      intro key e x hnow hx howes
      obtain ⟨hconstant, hvisited⟩ := hsweeps key e x hnow hx howes
      rcases hvisited (h.mem_visited hconstant) with heq | heq <;> cases heq
    refine ⟨{ hinv with owes := ?_, released := ?_ }, trivial, { Spares.refl t g with }⟩
    · intro key e x o hnow hx howes
      refine ⟨(hinv.owes hnow hx howes).1, fun hmem => ?_⟩
      rcases mem_insert.mp hmem with rfl | hmem
      · exact hnothing key e x hnow hx howes
      · exact (hinv.owes hnow hx howes).2 hmem
    · exact insert_subset hbegun hinv.released

variable [DecidableEq T]

/-- **`Do`.** -/
theorem DoStep.sound {place : Doing V E} (hinv : Invariant g)
    (hok : (Local.doing ownerID key place).Ok t g) (h : DoStep ownerID key t place g l g') :
    Sound t g l g' := by
  obtain ⟨hactive, hcalled, hbegun, hplace⟩ := hok
  have hrefl : Internal t g g := .refl hinv
  cases h with
  | hit h => exact hrefl.sound hactive hcalled hbegun (ever_of_now h)
  | miss h => exact hrefl.sound hactive hcalled hbegun trivial
  | added h => exact h.sound hinv hcalled hbegun hplace
  | refused h =>
    obtain ⟨rfl, -⟩ := h.refused
    exact hrefl.sound hactive hcalled hbegun trivial
  | lead call h hfresh =>
    have hinternal : Internal t g { g with group := g.group.start key call } :=
      ⟨hinv.start hfresh key, .start hfresh key, rfl, rfl, rfl⟩
    exact hinternal.sound hactive hcalled hbegun ⟨⟨none, update_self ..⟩, trivial⟩
  | wait h => exact hrefl.sound hactive hcalled hbegun (hinv.inFlight h)
  | run h =>
    obtain ⟨⟨r, hr⟩, hlead⟩ := hplace
    obtain ⟨hinternal, hlead'⟩ := h.internal hinv hcalled hbegun hlead
    exact hinternal.sound hactive hcalled hbegun ⟨hinternal.spares.calls hr, hlead'⟩
  | @finished _ _ call r _ h =>
    obtain ⟨⟨r₀, hr₀⟩, hlead⟩ := hplace
    have hr : ∀ e, r = .entry e → g.cache.Ever key e := by
      rintro e rfl
      exact hlead
    have hinternal : Internal t g { g with group := g.group.finish key call r } :=
      ⟨hinv.finish hr₀ hr, .finish hr₀ r, rfl, rfl, rfl⟩
    exact h.sound hinternal hactive hcalled hbegun hr
  | @resumed _ _ call key' r _ hcall h =>
    obtain ⟨r₀, hr₀⟩ := hplace
    refine h.sound hrefl hactive hcalled hbegun ?_
    rintro e rfl
    cases hr₀.symm.trans hcall
    exact hinv.calls hcall
  | owned h => exact h.sound hinv hcalled hbegun hplace
  | again h =>
    obtain ⟨rfl, -⟩ := h.refused
    exact hrefl.sound hactive hcalled hbegun trivial

/-- **Every step is sound.** -/
theorem Step.sound {l' : Local K O V E} (hinv : Invariant g) (hok : l.Ok t g)
    (h : Step t l g l' g') : Sound t g l' g' := by
  cases h with
  | call ownerID key h =>
    exact ⟨hinv.call ownerID, ⟨mem_insert_self .., mem_insert_self .., h, trivial⟩, .call ownerID⟩
  | doing h => exact h.sound hinv hok
  | release ownerID h =>
    refine ⟨hinv.begin ownerID, ⟨mem_insert_self .., le_rfl, trivial, ?_⟩, .begin h⟩
    intro key e x hnow hx howes
    refine ⟨fun c hc => ?_, fun hmem => absurd hmem List.not_mem_nil⟩
    have hc' : c ∈ [g.cache.now] := g.cache.since_length ▸ hc
    rw [List.mem_singleton.mp hc']
    exact hnow
  | releasing h => exact h.sound hinv hok

theorem outline : Outline (Step : System T (Local K O V E) (Shared K O V E T)) Invariant
    (fun t l g => l.Ok t g) Spares where
  shared hinv hok h := (Step.sound hinv hok h).invariant
  own hinv hok h := (Step.sound hinv hok h).own
  others hinv hok h := (Step.sound hinv hok h).spares
  stable ht hspares hok := hok.stable ht hspares

def start : Config T (Local K O V E) (Shared K O V E T) := ⟨fun _ => .idle, .init⟩

variable {s : Config T (Local K O V E) (Shared K O V E T)}

theorem reachable (h : Steps Step start s) :
    Invariant s.shared ∧ ∀ t, (s.threads t).Ok t s.shared :=
  outline.steps h invariant_init (fun _ => trivial)

theorem Step.answers {l' : Local K O V E} (hok : l.Ok t g) (h : Step t l g l' g') :
    g'.returned = g.returned ∨
      ∃ r, g'.returned = g.returned ++ [r] ∧ r.ownerID ∉ g'.begun := by
  have hadds : ∀ {g' : Shared K O V E T} {ownerID e x ok}, g.Adds ownerID e x ok g' →
      g'.returned = g.returned ∧ g'.begun = g.begun := by
    rintro g' ownerID e x ok ⟨-, -, -, rfl⟩
    exact ⟨rfl, rfl⟩
  cases h with
  | call | release => exact .inl rfl
  | releasing h => cases h <;> exact .inl rfl
  | doing h =>
    obtain ⟨-, -, hbegun, -⟩ := hok
    cases h with
    | hit | miss | lead | wait => exact .inl rfl
    | refused h | again h => exact .inl (hadds h).1
    | added h | owned h =>
      refine .inr ⟨_, congrArg (· ++ _) (hadds h).1, ?_⟩
      rw [show (Shared.answer _ t _).begun = _ from (hadds h).2]
      exact hbegun
    | run h =>
      cases h with
      | hit | miss | computed | failed | stored | loaded | removed => exact .inl rfl
      | added h | refused h | loadedAdded h | loadedRefused h => exact .inl (hadds h).1
    | finished h | resumed _ h => cases h <;> exact .inl rfl

/-- **The ownership protocol.**  In every interleaving,

* an owner that gets a value from `Do` has not begun to release, and until it does, it is an owner
  of the entry, which has this value and is the one stored under the key, so that all who hold a
  key hold the same entry;
* an entry that is deleted stays so and gets no owner;
* when all who have called `Do` have released, nothing is stored. -/
theorem memoizer_protocol (h : Steps Step start s) :
    (∀ s', Threads.Step Step s s' → s'.shared.returned = s.shared.returned ∨
      ∃ r, s'.shared.returned = s.shared.returned ++ [r] ∧ r.ownerID ∉ s'.shared.begun) ∧
    (∀ r ∈ s.shared.returned, r.ownerID ∉ s.shared.begun →
      ∃ x, s.shared.heap r.entry = some x ∧ x.value = r.value ∧ r.ownerID ∈ x.owners ∧
        x.deleted = false ∧ s.shared.cache.load r.key = some r.entry) ∧
    (∀ r ∈ s.shared.returned, ∀ r' ∈ s.shared.returned, r.ownerID ∉ s.shared.begun →
      r'.ownerID ∉ s.shared.begun → r.key = r'.key → r.entry = r'.entry) ∧
    (∀ s', Steps Step s s' → ∀ e x, s.shared.heap e = some x → x.deleted = true →
      ∃ x', s'.shared.heap e = some x' ∧ x'.deleted = true ∧ x'.owners ⊆ x.owners) ∧
    ((∀ o ∈ s.shared.called, o ∈ s.shared.released) → ∀ key, s.shared.cache.load key = none) := by
  obtain ⟨hinv, hok⟩ := reachable h
  refine ⟨?_, fun r hr hbegun => hinv.holds hr hbegun, ?_, ?_, hinv.empty⟩
  · rintro s' ⟨t, hstep⟩
    exact Step.answers (hok t) hstep
  · intro r hr r' hr' hbegun hbegun' hkey
    obtain ⟨-, -, -, -, -, hload⟩ := hinv.holds hr hbegun
    obtain ⟨-, -, -, -, -, hload'⟩ := hinv.holds hr' hbegun'
    exact Option.some.inj (hload.symm.trans (hkey ▸ hload'))
  · intro s' hsteps e x hx hdeleted
    have hlater := outline.steps_relation
      (M := fun g g' => ∀ e x, g.heap e = some x → ∃ x', g'.heap e = some x' ∧ x.Later x')
      (fun g e x hx => ⟨x, hx, .refl x⟩) ?_ ?_ hsteps hinv hok
    · obtain ⟨x', hx', hlater⟩ := hlater e x hx
      exact ⟨x', hx', hlater.deleted hdeleted⟩
    · intro g g' g'' hfirst hsecond e x hx
      obtain ⟨x', hx', hlater⟩ := hfirst e x hx
      obtain ⟨x'', hx'', hlater'⟩ := hsecond e x' hx'
      exact ⟨x'', hx'', hlater.trans hlater'⟩
    · intro t l g l' g' hinv hok hstep e x hx
      obtain ⟨x', hx', hlater, -⟩ := (Step.sound hinv hok hstep).spares.entries hx
      exact ⟨x', hx', hlater⟩

end

/-- Two owners use a key, one after the other, and get the same entry. -/
theorem memoizer_protocol_two :
    ∃ s : Config Bool (Local Nat Nat Nat Unit) (Shared Nat Nat Nat Unit Bool),
      Steps Step start s ∧ s.shared.returned = [⟨1, 7, 0, 5⟩, ⟨2, 7, 0, 5⟩] ∧
        s.shared.cache.load 7 = some 0 := by
  have h₁ : Steps (Step : System Bool (Local Nat Nat Nat Unit) (Shared Nat Nat Nat Unit Bool))
      start _ := .single (.mk false (.call 1 7 (notMem_empty 1)))
  have h₂ := h₁.tail (.mk false (.doing (.miss rfl)))
  have h₃ := h₂.tail (.mk false (.doing (.lead 0 rfl rfl)))
  have h₄ := h₃.tail (.mk false (.doing (.run (.miss rfl))))
  have h₅ := h₄.tail (.mk false (.doing (.run (.computed 5))))
  have h₆ := h₅.tail (.mk false (.doing (.run (.stored 0 rfl rfl))))
  have h₇ := h₆.tail (.mk false (.doing (.finished (.entry 0))))
  have h₈ := h₇.tail (.mk false (.doing (.owned ⟨rfl, rfl, rfl, rfl⟩)))
  have h₉ := h₈.tail (.mk true (.call 2 7 (notMem_empty 2)))
  have h₁₀ := h₉.tail (.mk true (.doing (.hit rfl)))
  have h₁₁ := h₁₀.tail (.mk true (.doing (.added ⟨rfl, rfl, rfl, rfl⟩)))
  refine ⟨_, h₁₁, rfl, ?_⟩
  obtain ⟨-, -, -, -, -, hload⟩ := (memoizer_protocol h₁₁).2.1 ⟨1, 7, 0, 5⟩ List.mem_cons_self
    (notMem_empty 1)
  exact hload

end Coraza.Memoize
