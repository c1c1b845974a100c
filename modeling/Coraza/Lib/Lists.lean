import Mathlib

/-!
# Lists that grow at the end, and lists that agree

What becomes of a list when an element is appended, lists whose elements are related place by
place, and loops that look for the least of something.
-/

namespace Lists

open List

variable {α β : Type} {R : α → β → Prop} {l : List α} {l' : List β}

theorem append_singleton_cases {before after : List α} {x y : α}
    (h : l ++ [x] = before ++ y :: after) :
    (before = l ∧ y = x ∧ after = []) ∨ ∃ after', after = after' ++ [x] ∧
      l = before ++ y :: after' := by
  rcases eq_nil_or_concat after with rfl | ⟨after', z, rfl⟩
  · left
    obtain ⟨h₁, h₂⟩ := append_inj' h rfl
    injection h₂ with h₂
    exact ⟨h₁.symm, h₂.symm, rfl⟩
  · right
    rw [concat_eq_append] at h ⊢
    have h' : l ++ [x] = (before ++ y :: after') ++ [z] := by simpa using h
    obtain ⟨h₁, h₂⟩ := append_inj' h' rfl
    exact ⟨after', by rw [h₂], h₁⟩

theorem sublist_dropLast {l' : List α} (h : l.Sublist l') : l.dropLast.Sublist l'.dropLast := by
  rw [← reverse_sublist, ← tail_reverse, ← tail_reverse]
  exact (reverse_sublist.mpr h).tail

theorem forall₂_mapM {f : α → Option β} {l : List α} {l' : List β} :
    l.mapM f = some l' → List.Forall₂ (fun a b => f a = some b) l l' := by
  induction l generalizing l' with
  | nil =>
    intro h
    cases h
    exact .nil
  | cons a l ih =>
    intro h
    rw [mapM_cons] at h
    obtain ⟨b, hb, h⟩ := Option.bind_eq_some_iff.mp h
    obtain ⟨l₁, hl₁, h⟩ := Option.bind_eq_some_iff.mp h
    cases h
    exact .cons hb (ih hl₁)

theorem forall₂_trans {R : α → α → Prop} (htrans : ∀ {a b c}, R a b → R b c → R a c) :
    ∀ {l l' l'' : List α}, List.Forall₂ R l l' → List.Forall₂ R l' l'' → List.Forall₂ R l l'' := by
  intro l l' l'' h
  induction h generalizing l'' with
  | nil => exact id
  | cons hab _ ih =>
    intro h'
    cases h' with
    | cons hbc hrest => exact .cons (htrans hab hbc) (ih hrest)

theorem exists_of_mem_right (h : List.Forall₂ R l l') {b : β} (hb : b ∈ l') : ∃ a ∈ l, R a b := by
  induction h with
  | nil => cases hb
  | cons hab _ ih =>
    rcases mem_cons.mp hb with rfl | hb
    · exact ⟨_, mem_cons_self .., hab⟩
    · obtain ⟨a, ha, hR⟩ := ih hb
      exact ⟨a, mem_cons_of_mem _ ha, hR⟩

theorem forall₂_getElem? (h : List.Forall₂ R l l') {b : β} :
    ∀ {i : Nat}, l'[i]? = some b → ∃ a, l[i]? = some a ∧ R a b := by
  induction h with
  | nil => exact fun hb => (nomatch hb)
  | cons hab _ ih =>
    intro i hb
    cases i with
    | zero =>
      cases hb
      exact ⟨_, rfl, hab⟩
    | succ i => exact ih hb

theorem forall₂_set (h : List.Forall₂ R l l') {a : α} {b : β} (hab : R a b) :
    ∀ i, List.Forall₂ R (l.set i a) (l'.set i b) := by
  induction h with
  | nil => exact fun _ => .nil
  | cons hcd hrest ih =>
    intro i
    cases i with
    | zero => exact .cons hab hrest
    | succ i => exact .cons hcd (ih i)

theorem forall₂_dropLast (h : List.Forall₂ R l l') : List.Forall₂ R l.dropLast l'.dropLast := by
  rw [dropLast_eq_take, dropLast_eq_take, ← h.length_eq]
  exact forall₂_take _ h

theorem exists_of_forall₂_concat {a : α} : ∀ {l' : List β}, List.Forall₂ R (l ++ [a]) l' →
    ∃ l₁ b, l' = l₁ ++ [b] ∧ List.Forall₂ R l l₁ ∧ R a b := by
  induction l with
  | nil =>
    intro l' h
    cases h with
    | cons hab hnil =>
      cases hnil
      exact ⟨[], _, rfl, .nil, hab⟩
  | cons c l ih =>
    intro l' h
    cases h with
    | cons hcd hrest =>
      obtain ⟨l₁, b, rfl, hl, hab⟩ := ih hrest
      exact ⟨_ :: l₁, b, rfl, .cons hcd hl, hab⟩

/-- A loop that goes down with every round, to where its element asks it to be, ends below its
start and where all elements ask it to be. -/
theorem foldl_le {α β γ : Type*} [Preorder γ] {op : β → α → β} (f : β → γ) {S : α → γ → Prop}
    (hS : ∀ {a c c'}, c' ≤ c → S a c → S a c') (hop : ∀ b a, f (op b a) ≤ f b ∧ S a (f (op b a)))
    (l : List α) (b : β) : f (l.foldl op b) ≤ f b ∧ ∀ a ∈ l, S a (f (l.foldl op b)) := by
  induction l generalizing b with
  | nil => exact ⟨le_refl _, fun a ha => (nomatch ha)⟩
  | cons x l ih =>
    obtain ⟨hle, hrest⟩ := ih (op b x)
    refine ⟨le_trans hle (hop b x).1, fun a ha => ?_⟩
    rcases mem_cons.mp ha with rfl | ha
    · exact hS hle (hop b a).2
    · exact hrest a ha

end Lists
