import Mathlib

/-!
# Go maps filled in a loop

A Go map is a finite map, here an `AList`.  Two loops fill one: `m[k] = v` for every pair of a
list, where the last value of a key stays (`lookup_assignAll`), and
`m[k] = append(m[k], v)`, where a key collects its values in order (`lookup_group`) and nothing
is lost (`flatMap_group`).
-/

namespace Go.Maps

open List

variable {α β : Type} [DecidableEq α]

/-! ### Assigning -/

def assignAll (m : AList (fun _ : α => β)) (l : List (α × β)) : AList (fun _ : α => β) :=
  l.foldl (fun m e => m.insert e.1 e.2) m

def lastAt (l : List (α × β)) (k : α) : Option β :=
  (l.reverse.find? (fun e => e.1 = k)).map Prod.snd

theorem assignAll_append (m : AList (fun _ : α => β)) (l l' : List (α × β)) :
    assignAll m (l ++ l') = assignAll (assignAll m l) l' := foldl_append ..

theorem lastAt_concat (l : List (α × β)) (e : α × β) (k : α) :
    lastAt (l ++ [e]) k = if e.1 = k then some e.2 else lastAt l k := by
  unfold lastAt
  rw [reverse_append, reverse_singleton, singleton_append, List.find?_cons]
  by_cases h : e.1 = k
  · simp [h]
  · simp [h]

theorem lastAt_append (l l' : List (α × β)) (k : α) :
    lastAt (l ++ l') k = (lastAt l' k).or (lastAt l k) := by
  unfold lastAt
  rw [reverse_append, List.find?_append]
  cases l'.reverse.find? (fun e => e.1 = k) <;> rfl

theorem lastAt_map {γ : Type} (g : β → γ) (l : List (α × β)) (k : α) :
    lastAt (l.map (Prod.map id g)) k = (lastAt l k).map g := by
  unfold lastAt
  rw [← map_reverse, List.find?_map, Option.map_map, Option.map_map]
  rfl

/-- **The last value of a key stays.** -/
theorem lookup_assignAll (m : AList (fun _ : α => β)) (l : List (α × β)) (k : α) :
    (assignAll m l).lookup k = (lastAt l k).or (m.lookup k) := by
  induction l using List.reverseRecOn with
  | nil => rfl
  | append_singleton l e ih =>
    rw [assignAll_append, lastAt_concat]
    show (AList.insert e.1 e.2 (assignAll m l)).lookup k = _
    by_cases h : e.1 = k
    · rw [if_pos h, ← h, AList.lookup_insert]
      rfl
    · rw [if_neg h, AList.lookup_insert_ne (Ne.symm h), ih]

variable {l : List (α × β)} {k : α}

theorem mem_of_lastAt {v : β} (h : lastAt l k = some v) : (k, v) ∈ l := by
  obtain ⟨e, hfind, rfl⟩ := Option.map_eq_some_iff.mp h
  have hk : e.1 = k := by simpa using List.find?_some hfind
  have hmem : e ∈ l := List.mem_reverse.mp (mem_of_find?_eq_some hfind)
  rwa [← hk]

theorem lastAt_isSome : (lastAt l k).isSome = true ↔ k ∈ l.map Prod.fst := by
  unfold lastAt
  rw [Option.isSome_map, List.find?_isSome]
  simp

theorem lastAt_append_right {l' : List (α × β)} (h : k ∈ l'.map Prod.fst) :
    lastAt (l ++ l') k = lastAt l' k := by
  obtain ⟨v, hv⟩ := Option.isSome_iff_exists.mp (lastAt_isSome.mpr h)
  rw [lastAt_append, hv]
  rfl

theorem lastAt_of_mem (hl : (l.map Prod.fst).Nodup) {v : β} (h : (k, v) ∈ l) :
    lastAt l k = some v := by
  obtain ⟨w, hw⟩ := Option.isSome_iff_exists.mp
    (lastAt_isSome.mpr (mem_map_of_mem (f := Prod.fst) h))
  have heq : ((k, w) : α × β) = (k, v) := inj_on_of_nodup_map hl (mem_of_lastAt hw) h rfl
  rw [hw, (Prod.mk.inj heq).2]

/-! ### Collecting -/

/-- `m[k] = append(m[k], v)`. -/
def appendAt (m : AList (fun _ : α => List β)) (e : α × β) : AList (fun _ : α => List β) :=
  m.insert e.1 ((m.lookup e.1).getD [] ++ [e.2])

def group (l : List (α × β)) : AList (fun _ : α => List β) := l.foldl appendAt ∅

def valuesOf (l : List (α × β)) (k : α) : List β :=
  (l.filter (fun e => e.1 = k)).map Prod.snd

theorem valuesOf_concat (l : List (α × β)) (e : α × β) (k : α) :
    valuesOf (l ++ [e]) k = if e.1 = k then valuesOf l k ++ [e.2] else valuesOf l k := by
  unfold valuesOf
  rw [filter_append, map_append, filter_singleton]
  by_cases h : e.1 = k
  · simp [h]
  · simp [h]

/-- **A key collects its values in order.** -/
theorem lookup_group (l : List (α × β)) (k : α) :
    (group l).lookup k = if valuesOf l k = [] then none else some (valuesOf l k) := by
  induction l using List.reverseRecOn with
  | nil => rfl
  | append_singleton l e ih =>
    have hstep : group (l ++ [e]) = appendAt (group l) e := foldl_concat ..
    have hget : ((group l).lookup k).getD [] = valuesOf l k := by
      rw [ih]
      split_ifs with h
      · exact h.symm
      · rfl
    rw [hstep, valuesOf_concat]
    unfold appendAt
    by_cases h : e.1 = k
    · rw [if_pos h, h, AList.lookup_insert, hget, if_neg (by simp)]
    · rw [if_neg h, AList.lookup_insert_ne (Ne.symm h), ih]

theorem count_valuesOf [BEq β] [LawfulBEq β] [BEq (α × β)] [LawfulBEq (α × β)] (l : List (α × β))
    (k : α) (v : β) :
    (valuesOf l k).count v = l.count (k, v) := by
  unfold valuesOf
  rw [List.count, countP_map, countP_filter]
  refine countP_congr (fun e _ => ?_)
  simp [Prod.ext_iff, and_comm]

/-! ### What is collected -/

section

variable {γ : Type} (h : α → β → γ)

theorem flatMap_dlookup_kerase (k : α) (l : List (Σ _ : α, List β)) :
    (((l.dlookup k).getD []).map (h k) ++ (l.kerase k).flatMap (fun e => e.2.map (h e.1))).Perm
      (l.flatMap (fun e => e.2.map (h e.1))) := by
  induction l with
  | nil => exact List.Perm.refl []
  | cons e l ih =>
    obtain ⟨a, vs⟩ := e
    by_cases ha : k = a
    · subst ha
      have herase : List.kerase k (⟨k, vs⟩ :: l) = l := kerase_cons_eq rfl
      rw [dlookup_cons_eq, herase]
      exact List.Perm.refl _
    · rw [dlookup_cons_ne _ _ ha, kerase_cons_ne ha]
      refine perm_append_comm_assoc .. |>.trans ?_
      exact ih.append_left _

theorem flatMap_appendAt (m : AList (fun _ : α => List β)) (e : α × β) :
    ((appendAt m e).entries.flatMap (fun e => e.2.map (h e.1))).Perm
      (h e.1 e.2 :: m.entries.flatMap (fun e => e.2.map (h e.1))) := by
  show ((((m.entries.dlookup e.1).getD [] ++ [e.2]).map (h e.1)) ++
    (m.entries.kerase e.1).flatMap (fun e => e.2.map (h e.1))).Perm _
  rw [map_append, append_assoc]
  exact List.perm_middle.trans ((flatMap_dlookup_kerase h e.1 m.entries).cons _)

/-- **Everything is collected**, under some key. -/
theorem flatMap_group (l : List (α × β)) :
    ((group l).entries.flatMap (fun e => e.2.map (h e.1))).Perm
      (l.map (fun e => h e.1 e.2)) := by
  induction l using List.reverseRecOn with
  | nil => exact List.Perm.refl []
  | append_singleton l e ih =>
    have hstep : group (l ++ [e]) = appendAt (group l) e := foldl_concat ..
    rw [hstep, map_append]
    exact (flatMap_appendAt h _ e).trans ((ih.cons _).trans (perm_append_singleton ..).symm)

end

theorem valuesOf_eq_nil : valuesOf l k = [] ↔ k ∉ l.map Prod.fst := by
  unfold valuesOf
  rw [map_eq_nil_iff, filter_eq_nil_iff, mem_map]
  constructor
  · rintro h ⟨e, he, rfl⟩
    exact h e he (decide_eq_true rfl)
  · intro h e he hk
    exact h ⟨e, he, of_decide_eq_true hk⟩

theorem mem_group : k ∈ group l ↔ k ∈ l.map Prod.fst := by
  rw [← AList.lookup_isSome, lookup_group]
  split <;> rename_i hvalues
  · exact iff_of_false (Bool.false_ne_true) (valuesOf_eq_nil.mp hvalues)
  · exact iff_of_true rfl (not_not.mp (mt valuesOf_eq_nil.mpr hvalues))

theorem length_group (l : List (α × β)) :
    (group l).entries.length = (l.map Prod.fst).toFinset.card := by
  have hkeys : (group l).keys.toFinset = (l.map Prod.fst).toFinset := by
    ext k
    rw [mem_toFinset, mem_toFinset, ← mem_group, AList.mem_keys]
  rw [← hkeys, toFinset_card_of_nodup (AList.keys_nodup _)]
  exact (length_map ..).symm

theorem ne_nil_of_mem_group {e : Σ _ : α, List β} (he : e ∈ (group l).entries) : e.2 ≠ [] := by
  have hlookup := AList.mem_lookup_iff.mpr he
  rw [lookup_group] at hlookup
  split at hlookup
  · cases hlookup
  · rename_i hne
    rwa [← Option.some.inj hlookup]

end Go.Maps
