import Mathlib

/-!
# A store that is bounded by its keys

Items are offered to a store one after the other, and each has a key.  The store takes an item as
long as it holds fewer than `limit` different keys, so what it takes is the beginning of what is
offered (`acceptAll_isPrefix`).

The bound is one of keys and not of items: the store keeps within `limit` items exactly if no key
occurs twice among the first ones (`length_acceptAll_le_iff`).  And what is at the beginning depends
on the order: items that come in groups, in any order of the groups, leave the same items in the
store exactly if nothing has to be turned away (`acceptAll_flatMap_perm_iff`).
-/

namespace Capacity

open List

variable {α κ : Type} [DecidableEq κ] (key : α → κ)

def distinct (l : List α) : Nat := (l.map key).toFinset.card

def accept (limit : Nat) (held : List α) (x : α) : List α :=
  if limit ≤ distinct key held then held else held ++ [x]

def acceptAll (limit : Nat) (l : List α) : List α := l.foldl (accept key limit) []

variable {key}

/-! ### Different keys -/

variable {l l' : List α} {limit : Nat}

theorem distinct_mono (h : ∀ x ∈ l, ∃ y ∈ l', key y = key x) :
    distinct key l ≤ distinct key l' := by
  refine Finset.card_le_card (fun c hc => ?_)
  obtain ⟨x, hx, rfl⟩ := List.mem_map.mp (List.mem_toFinset.mp hc)
  obtain ⟨y, hy, heq⟩ := h x hx
  exact List.mem_toFinset.mpr (List.mem_map.mpr ⟨y, hy, heq⟩)

theorem distinct_le_of_subset (h : l ⊆ l') : distinct key l ≤ distinct key l' :=
  distinct_mono (fun x hx => ⟨x, h hx, rfl⟩)

theorem distinct_perm (h : l.Perm l') : distinct key l = distinct key l' :=
  Nat.le_antisymm (distinct_le_of_subset h.subset) (distinct_le_of_subset h.symm.subset)

theorem distinct_le_length (l : List α) : distinct key l ≤ l.length := by
  rw [← length_map (f := key)]
  exact toFinset_card_le _

theorem length_le_distinct_iff : l.length ≤ distinct key l ↔ (l.map key).Nodup := by
  have hiff := Multiset.toFinset_card_eq_card_iff_nodup (m := (l.map key : Multiset κ))
  rw [Multiset.coe_nodup, Multiset.coe_card, length_map] at hiff
  rw [← hiff]
  exact ⟨fun h => Nat.le_antisymm (distinct_le_length l) h, fun h => h.ge⟩

/-! ### What is taken -/

theorem acceptAll_concat (limit : Nat) (l : List α) (x : α) :
    acceptAll key limit (l ++ [x]) = accept key limit (acceptAll key limit l) x :=
  foldl_concat ..

theorem acceptAll_eq_or (limit : Nat) (l : List α) :
    acceptAll key limit l = l ∨ limit ≤ distinct key (acceptAll key limit l) := by
  induction l using List.reverseRecOn with
  | nil => exact .inl rfl
  | append_singleton l x ih =>
    rw [acceptAll_concat]
    unfold accept
    split
    · exact .inr ‹_›
    · rename_i hroom
      rw [ih.resolve_right hroom]
      exact .inl rfl

theorem acceptAll_isPrefix (limit : Nat) (l : List α) : acceptAll key limit l <+: l := by
  induction l using List.reverseRecOn with
  | nil => exact prefix_refl []
  | append_singleton l x ih =>
    rw [acceptAll_concat]
    unfold accept
    split
    · exact ih.trans (prefix_append ..)
    · rename_i hroom
      rw [(acceptAll_eq_or limit l).resolve_right hroom]

/-- **How much is taken**: an item, if there is room for it after those before it. -/
theorem lt_length_acceptAll_iff (limit : Nat) (l : List α) (n : Nat) :
    n < (acceptAll key limit l).length ↔ n < l.length ∧ distinct key (l.take n) < limit := by
  induction l using List.reverseRecOn with
  | nil => exact ⟨fun h => absurd h (Nat.not_lt_zero n), fun h => absurd h.1 (Nat.not_lt_zero n)⟩
  | append_singleton l x ih =>
    rw [acceptAll_concat, length_append, length_singleton]
    unfold accept
    split
    · rename_i hfull
      rw [ih]
      have hl : limit ≤ distinct key l :=
        hfull.trans (distinct_le_of_subset (acceptAll_isPrefix limit l).subset)
      rcases Nat.lt_trichotomy n l.length with hn | hn | hn
      · rw [take_append_of_le_length hn.le]
        simp only [hn, Nat.lt_succ_of_lt hn]
      · subst hn
        rw [take_left]
        omega
      · omega
    · rename_i hroom
      have hall := (acceptAll_eq_or limit l).resolve_right hroom
      rw [hall] at hroom ⊢
      rw [length_append]
      refine ⟨fun hn => ⟨hn, ?_⟩, And.left⟩
      rw [take_append_of_le_length (Nat.lt_succ_iff.mp hn)]
      exact (distinct_le_of_subset (take_subset n l)).trans_lt (Nat.lt_of_not_le hroom)

/-- **The bound is one of keys.**  The store keeps within `limit` items exactly if it is offered
no more, or if the first ones have different keys. -/
theorem length_acceptAll_le_iff (limit : Nat) (l : List α) :
    (acceptAll key limit l).length ≤ limit ↔
      l.length ≤ limit ∨ ((l.take limit).map key).Nodup := by
  rw [← Nat.not_lt, lt_length_acceptAll_iff, not_and_or, Nat.not_lt, Nat.not_lt]
  by_cases hl : l.length ≤ limit
  · simp only [hl, true_or]
  · have htake : (l.take limit).length = limit := length_take_of_le (Nat.le_of_not_le hl)
    rw [← length_le_distinct_iff, htake]

theorem acceptAll_eq_self (h : ∀ n < l.length, distinct key (l.take n) < limit) :
    acceptAll key limit l = l := by
  refine (acceptAll_isPrefix limit l).eq_of_length_le ?_
  by_contra hlt
  exact absurd ((lt_length_acceptAll_iff limit l _).mpr ⟨Nat.lt_of_not_le hlt,
    h _ (Nat.lt_of_not_le hlt)⟩) (Nat.lt_irrefl _)

theorem acceptAll_of_distinct_lt (h : distinct key l < limit) : acceptAll key limit l = l :=
  acceptAll_eq_self (fun n _ => (distinct_le_of_subset (take_subset n l)).trans_lt h)

theorem acceptAll_of_length_le (h : l.length ≤ limit) : acceptAll key limit l = l := by
  refine acceptAll_eq_self (fun n hn => ?_)
  calc distinct key (l.take n) ≤ (l.take n).length := distinct_le_length _
    _ ≤ n := length_take_le ..
    _ < limit := hn.trans_le h

theorem acceptAll_zero (l : List α) : acceptAll key 0 l = [] := by
  refine List.length_eq_zero_iff.mp (Nat.eq_zero_of_not_pos (fun h => ?_))
  exact Nat.not_lt_zero _ ((lt_length_acceptAll_iff 0 l 0).mp h).2

theorem isPrefix_acceptAll (h : distinct key l < limit) (l' : List α) :
    l <+: acceptAll key limit (l ++ l') := by
  refine prefix_of_prefix_length_le (prefix_append l l') (acceptAll_isPrefix ..) ?_
  by_contra hlt
  have htaken : ¬(acceptAll key limit (l ++ l')).length < (acceptAll key limit (l ++ l')).length :=
    Nat.lt_irrefl _
  rw [lt_length_acceptAll_iff] at htaken
  refine htaken ⟨?_, ?_⟩
  · rw [length_append]
    omega
  · rw [take_append_of_le_length (Nat.le_of_not_le hlt)]
    exact (distinct_le_of_subset (take_subset _ l)).trans_lt h

theorem distinct_acceptAll_le (limit : Nat) (l : List α) :
    distinct key (acceptAll key limit l) ≤ limit := by
  induction l using List.reverseRecOn with
  | nil => exact Nat.zero_le limit
  | append_singleton l x ih =>
    rw [acceptAll_concat]
    unfold accept
    split
    · exact ih
    · rename_i hroom
      refine le_trans ?_ (Nat.lt_of_not_le hroom)
      unfold distinct
      rw [map_append, toFinset_append]
      exact Finset.card_union_le ..

theorem acceptAll_one (x : α) (l : List α) : acceptAll key 1 (x :: l) = [x] := by
  have hone : (acceptAll key 1 (x :: l)).length = 1 := by
    refine Nat.le_antisymm (Nat.not_lt.mp ?_) ?_
    · rw [lt_length_acceptAll_iff]
      rintro ⟨-, hlt⟩
      exact absurd hlt (Nat.lt_irrefl 1)
    · exact (lt_length_acceptAll_iff 1 _ 0).mpr ⟨Nat.succ_pos _, Nat.one_pos⟩
  rw [List.prefix_iff_eq_take.mp (acceptAll_isPrefix 1 (x :: l)), hone]
  rfl

/-! ### Groups in any order -/

section

variable {ε : Type} {item : ε → List α} {group : ε → κ} {entries : List ε} {limit : Nat}
  (hkey : ∀ e ∈ entries, ∀ x ∈ item e, key x = group e)

include hkey

/-- With room for two keys, a group that comes first is taken whole. -/
theorem exists_order_first (htwo : 2 ≤ limit) {e : ε} (he : e ∈ entries) :
    ∃ rest : List ε, (e :: rest).Perm entries ∧
      item e <+: acceptAll key limit ((e :: rest).flatMap item) := by
  obtain ⟨before, after, rfl⟩ := append_of_mem he
  refine ⟨before ++ after, List.perm_middle.symm, ?_⟩
  refine isPrefix_acceptAll ?_ _
  have hone : distinct key (item e) ≤ 1 := by
    refine Finset.card_le_one.mpr ?_
    simp only [mem_toFinset, mem_map, forall_exists_index, and_imp]
    rintro _ x hx rfl _ y hy rfl
    rw [hkey e he x hx, hkey e he y hy]
  exact hone.trans_lt htwo

/-- So if the order of the groups does not matter, everything is taken in each order. -/
theorem acceptAll_flatMap_eq
    (hdisjoint : entries.Pairwise (fun e e' => (item e).Disjoint (item e'))) (htwo : 2 ≤ limit)
    (h : ∀ σ σ' : List ε, σ.Perm entries → σ'.Perm entries →
      (acceptAll key limit (σ.flatMap item)).Perm (acceptAll key limit (σ'.flatMap item)))
    (σ : List ε) (hσ : σ.Perm entries) :
    acceptAll key limit (σ.flatMap item) = σ.flatMap item := by
  classical
  refine (acceptAll_isPrefix limit _).eq_of_length_le (List.Subperm.length_le ?_)
  rw [subperm_ext_iff]
  intro x hx
  obtain ⟨e, he, hxe⟩ := List.mem_flatMap.mp hx
  obtain ⟨rest, hperm, hfirst⟩ := exists_order_first hkey htwo (hσ.subset he)
  -- the item is in no other group
  have hothers : (rest.flatMap item).count x = 0 := by
    refine List.count_eq_zero.mpr (fun hmem => ?_)
    obtain ⟨e', he', hxe'⟩ := List.mem_flatMap.mp hmem
    have hpair := hperm.symm.pairwise hdisjoint (fun hdisj => hdisj.symm)
    exact rel_of_pairwise_cons hpair he' hxe hxe'
  calc (σ.flatMap item).count x
      = ((e :: rest).flatMap item).count x := ((hσ.trans hperm.symm).flatMap_right item).count_eq x
    _ = (item e).count x := by rw [flatMap_cons, count_append, hothers, Nat.add_zero]
    _ ≤ (acceptAll key limit ((e :: rest).flatMap item)).count x := hfirst.sublist.count_le x
    _ = (acceptAll key limit (σ.flatMap item)).count x := (h _ _ hperm hσ).count_eq x

theorem exists_order_last (hfull : limit ≤ distinct key (entries.flatMap item)) {c : κ}
    (hc : 2 ≤ ((entries.flatMap item).map key).count c) :
    ∃ σ : List ε, σ.Perm entries ∧ acceptAll key limit (σ.flatMap item) ≠ σ.flatMap item := by
  have hperm := filter_append_perm (fun e => group e ≠ c) entries
  have hitems := hperm.flatMap_right item
  refine ⟨_, hperm, fun heq => ?_⟩
  rw [flatMap_append] at heq hitems
  have hfirst : ∀ x ∈ (entries.filter (fun e => group e ≠ c)).flatMap item, key x ≠ c := by
    intro x hx
    obtain ⟨e, he, hxe⟩ := List.mem_flatMap.mp hx
    obtain ⟨he, hgroup⟩ := List.mem_filter.mp he
    rw [hkey e he x hxe]
    simpa using hgroup
  have hlast : ∀ x ∈ (entries.filter (fun e => !decide (group e ≠ c))).flatMap item, key x = c := by
    intro x hx
    obtain ⟨e, he, hxe⟩ := List.mem_flatMap.mp hx
    obtain ⟨he, hgroup⟩ := List.mem_filter.mp he
    rw [hkey e he x hxe]
    simpa using hgroup
  rw [← (hitems.map key).count_eq, map_append, count_append,
    List.count_eq_zero.mpr (by simpa using hfirst), Nat.zero_add] at hc
  rw [← distinct_perm hitems] at hfull
  generalize (entries.filter (fun e => group e ≠ c)).flatMap item = A at *
  generalize (entries.filter (fun e => !decide (group e ≠ c))).flatMap item = B at *
  match B, hc.trans count_le_length with
  | y :: z :: B, _ =>
    -- the last item has the key of one before it, so there was no room for it
    have hsplit : A ++ y :: z :: B
        = (A ++ y :: (z :: B).dropLast) ++ [(z :: B).getLast (cons_ne_nil z B)] := by
      rw [append_assoc, cons_append, dropLast_append_getLast]
    rw [hsplit] at heq hfull
    have hroom := ((lt_length_acceptAll_iff limit _ (A ++ y :: (z :: B).dropLast).length).mp
      (by rw [heq]; simp)).2
    rw [take_left] at hroom
    refine absurd (hfull.trans (distinct_mono ?_)) (Nat.not_le.mpr hroom)
    intro x hx
    rcases List.mem_append.mp hx with hx | hx
    · exact ⟨x, hx, rfl⟩
    · refine ⟨y, by simp, ?_⟩
      rw [List.mem_singleton.mp hx, hlast y (by simp), hlast _ (mem_cons_of_mem _ (getLast_mem _))]

/-- **When the order of the groups does not matter.** -/
theorem acceptAll_flatMap_perm_iff (hne : ∀ e ∈ entries, item e ≠ [])
    (hdisjoint : entries.Pairwise (fun e e' => (item e).Disjoint (item e'))) :
    (∀ σ σ' : List ε, σ.Perm entries → σ'.Perm entries →
      (acceptAll key limit (σ.flatMap item)).Perm (acceptAll key limit (σ'.flatMap item))) ↔
      limit = 0 ∨ distinct key (entries.flatMap item) < limit ∨
        (entries.flatMap item).length ≤ limit ∨ entries.length ≤ 1 := by
  constructor
  · intro h
    by_contra hnot
    simp only [not_or, not_lt, not_le] at hnot
    obtain ⟨hzero, hfull, hlength, hentries⟩ := hnot
    by_cases htwo : 2 ≤ limit
    · have hall := acceptAll_flatMap_eq hkey hdisjoint htwo h
      have hdistinct : distinct key (acceptAll key limit (entries.flatMap item)) ≤ limit :=
        distinct_acceptAll_le ..
      rw [hall _ (List.Perm.refl _)] at hdistinct
      have hdup : ¬((entries.flatMap item).map key).Nodup := by
        rw [← length_le_distinct_iff]
        omega
      obtain ⟨c, hc⟩ := List.exists_duplicate_iff_not_nodup.mpr hdup
      obtain ⟨σ, hσ, hneq⟩ := exists_order_last hkey hfull (List.duplicate_iff_two_le_count.mp hc)
      exact hneq (hall σ hσ)
    · obtain rfl : limit = 1 := by omega
      match entries, hentries with
      | e :: e' :: rest, _ =>
        -- the first item of all stays alone, and it belongs to the group that comes first
        obtain ⟨x, xs, hx⟩ := exists_cons_of_ne_nil (hne e (by simp))
        obtain ⟨y, ys, hy⟩ := exists_cons_of_ne_nil (hne e' (by simp))
        have hperm := h (e :: e' :: rest) (e' :: e :: rest) (List.Perm.refl _) (List.Perm.swap ..)
        rw [flatMap_cons, hx, cons_append, acceptAll_one, flatMap_cons, hy,
          cons_append, acceptAll_one, singleton_perm_singleton] at hperm
        have hdisj := rel_of_pairwise_cons hdisjoint (mem_cons_self ..)
        rw [hx, hy, hperm] at hdisj
        exact hdisj (mem_cons_self ..) (mem_cons_self ..)
  · rintro (rfl | hlt | hle | hone) σ σ' hσ hσ' <;>
      have hperm := (hσ.trans hσ'.symm).flatMap_right item
    · rw [acceptAll_zero, acceptAll_zero]
    · rw [← distinct_perm (hσ.flatMap_right item)] at hlt
      have hlt' := hlt
      rw [distinct_perm hperm] at hlt'
      rw [acceptAll_of_distinct_lt hlt, acceptAll_of_distinct_lt hlt']
      exact hperm
    · rw [← (hσ.flatMap_right item).length_eq] at hle
      have hle' := hle
      rw [hperm.length_eq] at hle'
      rw [acceptAll_of_length_le hle, acceptAll_of_length_le hle']
      exact hperm
    · have heq : σ = σ' := by
        match entries, hone with
        | [], _ => rw [List.perm_nil.mp hσ, List.perm_nil.mp hσ']
        | [e], _ => rw [List.perm_singleton.mp hσ, List.perm_singleton.mp hσ']
      rw [heq]

end

end Capacity
