import Coraza.Go.Io
import Coraza.Go.Net

/-!
# The operator `@ipMatch`

The argument is a list of addresses and networks with commas between them.  An address stands for
the network that has nothing but itself, so `newIPMatch` writes `/32` or `/128` behind it; what is
no network is skipped.  `evaluate_iff` says that a text matches if the address that it denotes lies
in one of the entries.
-/

namespace Coraza.Operators.IpMatch

open Go Net Strings

/-- An entry as `newIPMatch` hands it to `net.ParseCIDR`. -/
def withMask (sb : Bytes) : Bytes :=
  if 0x3A ∈ sb ∧ 0x2F ∉ sb then sb ++ bytesOf "/128"
  else if 0x2E ∈ sb ∧ 0x2F ∉ sb then sb ++ bytesOf "/32"
  else sb

def entries (data : Bytes) : List Bytes :=
  ((data.splitOn 0x2C).map trimSpace).filter (fun sb => sb ≠ [])

def newIPMatch (data : Bytes) : List Net.IPNet :=
  (entries data).filterMap (fun sb => parseCIDR (withMask sb))

def evaluate (subnets : List Net.IPNet) (value : Bytes) : Bool :=
  subnets.any (fun subnet => subnet.contains (parseIP value))

/-- An address lies in an entry: in the network, or it is the address. -/
def LiesIn (value sb : Bytes) : Prop :=
  if 0x2F ∈ sb then ∃ subnet, parseCIDR sb = some subnet ∧
    subnet.contains (parseIP value) = true
  else ∃ a, unzoned sb = some a ∧ parseIP value = a.as16

theorem cut_append {sb rest : Bytes} (h : 0x2F ∉ sb) :
    cut (sb ++ 0x2F :: rest) 0x2F = (sb, rest, true) := by
  unfold cut
  rw [indexByte_append h]
  simp

theorem dtoi_masks : (bytesOf "/32" = 0x2F :: bytesOf "32" ∧ dtoi (bytesOf "32") = some (32, [])) ∧
      bytesOf "/128" = 0x2F :: bytesOf "128" ∧ dtoi (bytesOf "128") = some (128, []) := by
  decide +kernel

theorem parseCIDR_withMask {sb : Bytes} (h : 0x2F ∉ sb) :
    parseCIDR (withMask sb) = (unzoned sb).map single := by
  have hmask : ∀ {rest : Bytes} {n : Nat}, dtoi rest = some (n, []) →
      (∀ a, unzoned sb = some a → a.bitLen = n) →
      parseCIDR (sb ++ 0x2F :: rest) = (unzoned sb).map single := by
    intro rest n hn hlen
    unfold parseCIDR
    rw [cut_append h]
    dsimp only
    rw [hn]
    cases ha : unzoned sb with
    | none => rfl
    | some a =>
      have hbits := hlen a ha
      subst hbits
      simp [single]
  unfold withMask
  by_cases hcolon : 0x3A ∈ sb
  · rw [if_pos ⟨hcolon, h⟩, dtoi_masks.2.1]
    refine hmask dtoi_masks.2.2 (fun a ha => ?_)
    cases a with
    | v4 fields => exact absurd hcolon (parseAddr_v4 (unzoned_eq_some.mp ha).1).2.2.1
    | v6 ip zone => rfl
  · rw [if_neg (fun hc => hcolon hc.1)]
    by_cases hdot : 0x2E ∈ sb
    · rw [if_pos ⟨hdot, h⟩, dtoi_masks.1.1]
      refine hmask dtoi_masks.1.2 (fun a ha => ?_)
      cases a with
      | v4 fields => rfl
      | v6 ip zone => exact absurd (parseAddr_v6 (unzoned_eq_some.mp ha).1).2.1 hcolon
    · -- without a separator there is neither an address nor a mask
      rw [if_neg (fun hc => hdot hc.1)]
      have hnone : unzoned sb = none := by
        cases ha : unzoned sb with
        | none => rfl
        | some a =>
          cases a with
          | v4 fields => exact absurd (parseAddr_v4 (unzoned_eq_some.mp ha).1).2.1 hdot
          | v6 ip zone =>
            exact absurd (parseAddr_v6 (unzoned_eq_some.mp ha).1).2.1 hcolon
      have hindex : indexByte sb 0x2F = none := by
        rw [← Option.not_isSome_iff_eq_none, indexByte_isSome]
        exact h
      unfold parseCIDR cut
      rw [hindex, hnone]
      rfl

/-- **What an entry is good for.** -/
theorem liesIn_iff (value sb : Bytes) : (∃ subnet, parseCIDR (withMask sb) = some subnet ∧
      subnet.contains (parseIP value) = true) ↔ LiesIn value sb := by
  unfold LiesIn
  split
  · rename_i hslash
    have hself : withMask sb = sb := by
      unfold withMask
      rw [if_neg (fun hc => hc.2 hslash), if_neg (fun hc => hc.2 hslash)]
    rw [hself]
  · rename_i hslash
    rw [parseCIDR_withMask hslash]
    constructor
    · rintro ⟨subnet, hsubnet, hcontains⟩
      obtain ⟨a, ha, rfl⟩ := Option.map_eq_some_iff.mp hsubnet
      exact ⟨a, ha, (contains_single ha value).mp hcontains⟩
    · rintro ⟨a, ha, heq⟩
      exact ⟨single a, Option.map_eq_some_iff.mpr ⟨a, ha, rfl⟩, (contains_single ha value).mpr heq⟩

/-- **`@ipMatch`** is true if the address lies in one of the entries. -/
theorem evaluate_iff (data value : Bytes) :
    evaluate (newIPMatch data) value = true ↔ ∃ sb ∈ entries data, LiesIn value sb := by
  unfold evaluate newIPMatch
  simp only [List.any_eq_true, List.mem_filterMap]
  constructor
  · rintro ⟨subnet, ⟨sb, hsb, hsubnet⟩, hcontains⟩
    exact ⟨sb, hsb, (liesIn_iff value sb).mp ⟨subnet, hsubnet, hcontains⟩⟩
  · rintro ⟨sb, hsb, hlies⟩
    obtain ⟨subnet, hsubnet, hcontains⟩ := (liesIn_iff value sb).mpr hlies
    exact ⟨subnet, ⟨sb, hsb, hsubnet⟩, hcontains⟩

theorem evaluate_noAddress {value : Bytes} (h : parseIP value = []) (data : Bytes) :
    evaluate (newIPMatch data) value = false := by
  unfold evaluate newIPMatch
  rw [h, List.any_eq_false]
  intro subnet hsubnet
  obtain ⟨sb, -, hparse⟩ := List.mem_filterMap.mp hsubnet
  rw [contains_nil hparse]
  decide

end Coraza.Operators.IpMatch
