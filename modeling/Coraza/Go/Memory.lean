import Coraza.Go.Utf8

/-!
# Strings in memory

A program that keys a map by the address of a string relies on the run-time
system: as long as a string is reachable, its data pointer and length determine
its contents.  `Str` is a string with its pointer, `Coherent` says that a list of
strings may be alive together, and a `Memory` is any way of placing new strings
that keeps to this rule.  It may reuse the address of a string that is no longer
alive, or give a new string the address of an equal one.
-/

namespace Go

/-- A string and the address of its first byte. -/
structure Str where
  ptr : Nat
  bytes : Bytes
  deriving DecidableEq

/-- Pointer and length determine the contents. -/
def Coherent (live : List Str) : Prop :=
  ∀ s ∈ live, ∀ t ∈ live, s.ptr = t.ptr → s.bytes.length = t.bytes.length → s.bytes = t.bytes

/-- Where strings are placed: `place n live b` is the address of the `n`-th string
of a run, with contents `b`, while the strings `live` are reachable. -/
structure Memory where
  place : Nat → List Str → Bytes → Nat
  separate : ∀ n live b, ∀ s ∈ live, s.ptr = place n live b → s.bytes.length = b.length →
    s.bytes = b

def Memory.alloc (mem : Memory) (n : Nat) (live : List Str) (b : Bytes) : Str :=
  ⟨mem.place n live b, b⟩

@[simp] theorem Memory.alloc_bytes (mem : Memory) (n : Nat) (live : List Str) (b : Bytes) :
    (mem.alloc n live b).bytes = b := rfl

theorem Coherent.nil : Coherent [] := fun _ h => (nomatch h)

theorem Coherent.mono {live live' : List Str} (h : Coherent live) (hsub : ∀ s ∈ live', s ∈ live) :
    Coherent live' :=
  fun s hs t ht => h s (hsub s hs) t (hsub t ht)

/-- **A new string may live with those that were alive when it was placed.** -/
theorem Coherent.alloc {live : List Str} (h : Coherent live) (mem : Memory) (n : Nat) (b : Bytes) :
    Coherent (mem.alloc n live b :: live) := by
  intro s hs t ht hp hl
  rcases List.mem_cons.mp hs with rfl | hs
  · rcases List.mem_cons.mp ht with rfl | ht
    · rfl
    · exact (mem.separate n live b t ht hp.symm hl.symm).symm
  · rcases List.mem_cons.mp ht with rfl | ht
    · exact mem.separate n live b s hs hp hl
    · exact h s hs t ht hp hl

/-- A memory that gives an equal string the same address, and every other string one
that is not in use. -/
def Memory.interning : Memory where
  place _ live b :=
    match live.find? (fun s => s.bytes = b ∧
      ∀ t ∈ live, t.ptr = s.ptr → t.bytes.length = b.length → t.bytes = b) with
    | some s => s.ptr
    | none => (live.map Str.ptr).max?.getD 0 + 1
  separate _ live b t ht hp hl := by
    split at hp
    · rename_i s hs
      have hfound := List.find?_some hs
      exact (of_decide_eq_true hfound).2 t ht hp hl
    · have hmem : t.ptr ∈ live.map Str.ptr := List.mem_map_of_mem ht
      have hle : t.ptr ≤ (live.map Str.ptr).max?.getD 0 := List.le_max?_getD_of_mem hmem
      omega

end Go
