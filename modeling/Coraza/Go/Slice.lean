import Mathlib

/-!
# Slices

A slice is an array and a length; what stands in the array after that length is its spare room.
`append` writes into the spare room if there is any, and otherwise takes a new array.  The loops
that programs write to edit a slice in place are here too: `filterInPlace` and `mapInPlace`.

When a struct is copied, its slices are copied without their arrays.  An `Aliased` pair is a slice
of the original struct and that of the copy: they share an array until one of them has to take a
new one.  An edit of the copy is then seen through the original, if it is made to an element that
both have while they still share the array.
-/

namespace Go

open List

variable {α : Type}

/-- A slice; its capacity is the length of the array. -/
structure Slice (α : Type) where
  array : List α
  len : Nat
  len_le : len ≤ array.length

variable (grow : Nat → List α) (f : α → α)

namespace Slice

def view (s : Slice α) : List α := s.array.take s.len

def ofList (elements spare : List α) : Slice α :=
  ⟨elements ++ spare, elements.length, by rw [length_append]; omega⟩

@[simp] theorem view_ofList (elements spare : List α) : (ofList elements spare).view = elements :=
  take_left ..

def reset (s : Slice α) : Slice α := ⟨s.array, 0, Nat.zero_le _⟩

variable (s : Slice α)

@[simp] theorem view_reset : s.reset.view = [] := take_zero

/-- `append(s, x)`; `grow` is the room after the elements of a new array. -/
def append (grow : Nat → List α) (s : Slice α) (x : α) : Slice α :=
  if h : s.len < s.array.length then
    ⟨s.array.set s.len x, s.len + 1, by rw [length_set]; omega⟩
  else ofList (s.view ++ [x]) (grow s.len)

theorem take_set_length {l : List α} {n : Nat} (h : n < l.length) (x : α) :
    (l.set n x).take (n + 1) = l.take n ++ [x] := by
  rw [take_succ_eq_append_getElem (by rwa [length_set]), getElem_set_self,
    take_set_of_le (Nat.le_refl n)]

theorem view_append (x : α) : (s.append grow x).view = s.view ++ [x] := by
  unfold append
  split
  · rename_i h
    exact take_set_length h x
  · exact view_ofList ..

def extend (grow : Nat → List α) (s : Slice α) (l : List α) : Slice α := l.foldl (append grow) s

theorem view_extend (l : List α) (s : Slice α) : (s.extend grow l).view = s.view ++ l := by
  induction l generalizing s with
  | nil => exact (append_nil _).symm
  | cons x l ih =>
    show ((s.append grow x).extend grow l).view = s.view ++ x :: l
    rw [ih, view_append, append_assoc, singleton_append]

/-! ### Edits in place -/

/-- The loop that moves the elements to keep to the front; it is at index `i`, has kept `count`
elements and has `n` to go. -/
def filterLoop (keep : α → Bool) : Nat → List α → Nat → Nat → List α × Nat
  | 0, array, _, count => (array, count)
  | n + 1, array, i, count =>
    match array[i]? with
    | none => (array, count)
    | some x =>
      if keep x then filterLoop keep n (array.set count x) (i + 1) (count + 1)
      else filterLoop keep n array (i + 1) count

theorem filterLoop_spec (keep : α → Bool) (n : Nat) (array : List α) (i count : Nat) :
    count ≤ i → i + n ≤ array.length →
    (filterLoop keep n array i count).2 ≤ (filterLoop keep n array i count).1.length ∧
      (filterLoop keep n array i count).1.take (filterLoop keep n array i count).2
        = array.take count ++ ((array.drop i).take n).filter keep := by
  induction n generalizing array i count with
  | zero =>
    intro hcount hlength
    refine ⟨by simp only [filterLoop]; omega, ?_⟩
    rw [take_zero, filter_nil, append_nil]
    rfl
  | succ n ih =>
    intro hcount hlength
    have hi : i < array.length := by omega
    have hdrop : (array.drop i).take (n + 1) = array[i] :: (array.drop (i + 1)).take n := by
      rw [drop_eq_getElem_cons hi, take_succ_cons]
    unfold filterLoop
    rw [List.getElem?_eq_getElem hi]
    dsimp only
    rw [hdrop, filter_cons]
    split
    · have hrest := ih (array.set count array[i]) (i + 1) (count + 1) (by omega)
        (by rw [length_set]; omega)
      refine ⟨hrest.1, ?_⟩
      rw [hrest.2, take_set_length (by omega), drop_set_of_lt (by omega), append_assoc,
        singleton_append]
    · exact ih array (i + 1) count (by omega) (by omega)

def filterInPlace (keep : α → Bool) (s : Slice α) : Slice α :=
  ⟨(filterLoop keep s.len s.array 0 0).1, (filterLoop keep s.len s.array 0 0).2,
    (filterLoop_spec keep s.len s.array 0 0 (Nat.le_refl 0) (by have := s.len_le; omega)).1⟩

theorem view_filterInPlace (keep : α → Bool) (s : Slice α) :
    (s.filterInPlace keep).view = s.view.filter keep := by
  have hlength : 0 + s.len ≤ s.array.length := by have := s.len_le; omega
  have hspec := (filterLoop_spec keep s.len s.array 0 0 (Nat.le_refl 0) hlength).2
  rwa [take_zero, nil_append, drop_zero] at hspec

def mapInPlace (f : α → α) (s : Slice α) : Slice α :=
  ⟨s.view.map f ++ s.array.drop s.len, s.len, by
    rw [length_append, length_map, view, length_take, length_drop]
    have := s.len_le
    omega⟩

theorem length_array_mapInPlace : (s.mapInPlace f).array.length = s.array.length := by
  show (s.view.map f ++ s.array.drop s.len).length = s.array.length
  rw [length_append, length_map, view, length_take, length_drop]
  omega

theorem view_mapInPlace : (s.mapInPlace f).view = s.view.map f := by
  have hlength : (s.view.map f).length = s.len := by
    rw [length_map, view, length_take]
    have := s.len_le
    omega
  show (s.view.map f ++ s.array.drop s.len).take s.len = s.view.map f
  rw [take_append_of_le_length (by omega), take_of_length_le (by omega)]

def mapFrom (start : Nat) (f : α → α) (s : Slice α) : Slice α :=
  ⟨s.view.take start ++ (s.view.drop start).map f ++ s.array.drop s.len, s.len, by
    rw [length_append, length_append, length_map, ← length_append,
      take_append_drop, view, length_take, length_drop]
    have := s.len_le
    omega⟩

theorem view_mapFrom (start : Nat) (f : α → α) (s : Slice α) :
    (s.mapFrom start f).view = s.view.take start ++ (s.view.drop start).map f := by
  have hlength : (s.view.take start ++ (s.view.drop start).map f).length = s.len := by
    rw [length_append, length_map, ← length_append, take_append_drop, view, length_take]
    have := s.len_le
    omega
  show (s.view.take start ++ (s.view.drop start).map f ++ s.array.drop s.len).take s.len = _
  rw [take_append_of_le_length (by omega), take_of_length_le (by omega)]

theorem length_view : s.view.length = s.len := by
  rw [view, length_take]
  have := s.len_le
  omega

end Slice

/-- A buffer of the length of a list, after the elements of the list were written into it from its
start. -/
def fill (buf l : List α) : List α := l ++ buf.drop l.length

theorem fill_eq {buf l : List α} (h : buf.length = l.length) : fill buf l = l := by
  rw [fill, drop_of_length_le (by omega), append_nil]

/-! ### A slice and its copy -/

/-- A slice of a struct and that of a copy of the struct. -/
inductive Aliased (α : Type) where
  /-- Both have the same array, and the original is no longer than the copy. -/
  | shared (s : Slice α) (len : Nat) (h : len ≤ s.len)
  | apart (original copy : Slice α)

namespace Aliased

def of (s : Slice α) : Aliased α := shared s s.len (Nat.le_refl _)

def original : Aliased α → Slice α
  | shared s len h => ⟨s.array, len, h.trans s.len_le⟩
  | apart original _ => original

def append (grow : Nat → List α) (x : α) : Aliased α → Aliased α
  | shared s len h =>
    if hroom : s.len < s.array.length then
      shared ⟨s.array.set s.len x, s.len + 1, by rw [length_set]; omega⟩ len
        (by dsimp only; omega)
    else apart (original (shared s len h)) (s.append grow x)
  | apart original copy => apart original (copy.append grow x)

def mapInPlace (f : α → α) : Aliased α → Aliased α
  | shared s len h => shared (s.mapInPlace f) len h
  | apart original copy => apart original (copy.mapInPlace f)

/-- The room that is left in the array that the slices share; `none` if they share none. -/
def room : Aliased α → Option Nat
  | shared s _ _ => some (s.array.length - s.len)
  | apart _ _ => none

theorem room_append (x : α) (a : Aliased α) :
    (a.append grow x).room = a.room.bind (fun n => if n = 0 then none else some (n - 1)) := by
  cases a with
  | shared s len h =>
    by_cases hroom : s.len < s.array.length
    · have hstep : ((shared s len h).append grow x).room
          = some ((s.array.set s.len x).length - (s.len + 1)) := by
        simp only [append, dif_pos hroom, room]
      have hne : ¬s.array.length - s.len = 0 := by omega
      rw [hstep, length_set, room, Option.bind_some, if_neg hne, Nat.sub_sub]
    · have hstep : ((shared s len h).append grow x).room = none := by
        simp only [append, dif_neg hroom, room]
      have hzero : s.array.length - s.len = 0 := by omega
      rw [hstep, room, Option.bind_some, if_pos hzero]
  | apart original copy => rfl

theorem size_append (x : α) (a : Aliased α) : (a.append grow x).original.len = a.original.len ∧
      (a.append grow x).original.array.length = a.original.array.length := by
  cases a with
  | shared s len h =>
    simp only [append]
    split
    · exact ⟨rfl, length_set ..⟩
    · exact ⟨rfl, rfl⟩
  | apart original copy => exact ⟨rfl, rfl⟩

theorem size_mapInPlace (a : Aliased α) : (a.mapInPlace f).original.len = a.original.len ∧
      (a.mapInPlace f).original.array.length = a.original.array.length := by
  cases a with
  | shared s len h => exact ⟨rfl, s.length_array_mapInPlace f⟩
  | apart original copy => exact ⟨rfl, rfl⟩

theorem room_mapInPlace (a : Aliased α) : (a.mapInPlace f).room = a.room := by
  cases a with
  | shared s len h => exact congrArg some (congrArg (· - s.len) (s.length_array_mapInPlace f))
  | apart original copy => rfl

/-- **What is appended to the copy is not seen through the original.** -/
theorem original_append (x : α) (a : Aliased α) :
    (a.append grow x).original.view = a.original.view := by
  cases a with
  | shared s len h =>
    simp only [append]
    split
    · exact take_set_of_le h
    · rfl
  | apart original copy => rfl

/-- **An edit of the copy is seen through the original as long as they share the array.** -/
theorem original_mapInPlace (a : Aliased α) : (a.mapInPlace f).original.view
      = if a.room.isSome then a.original.view.map f else a.original.view := by
  cases a with
  | shared s len h =>
    have hlength : len ≤ (s.view.map f).length := by
      rw [length_map, Slice.view, length_take]
      have := s.len_le
      omega
    show (s.view.map f ++ s.array.drop s.len).take len = (s.array.take len).map f
    rw [take_append_of_le_length hlength, ← map_take, Slice.view, take_take, Nat.min_eq_left h]
  | apart original copy => rfl

end Aliased

end Go
