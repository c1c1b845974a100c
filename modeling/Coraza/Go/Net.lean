import Coraza.Go.Encoding
import Coraza.Go.Strings

/-!
# Internet addresses, as packages `net` and `net/netip` have them

`parseAddr` reads an address of either family, `parseIP` one without a zone, and `parseCIDR` a
network.  An address in memory is a slice of 16 bytes, where an IPv4 address stands behind
`v4InV6Prefix`; no address is `nil`, here the empty list.

What is used of them: an address is written with hexadecimal digits, dots and colons, and with a
colon exactly if it is of version 6 (`parseAddr_v4`, `parseAddr_v6`); and a network that is a single
address contains this address and no other (`contains_single`).
-/

namespace Go.Net

open List

/-! ### Addresses -/

inductive Addr where
  | v4 (fields : Bytes)
  | v6 (ip zone : Bytes)
  deriving DecidableEq

/-- The loop of `parseIPv4Fields`; `dot` is that there was a dot, or nothing, before. -/
def ipv4Loop (dot : Bool) (val digLen : Nat) (fields : Bytes) : Bytes → Option Bytes
  | [] => if fields.length < 3 then none else some (fields ++ [UInt8.ofNat val])
  | c :: rest =>
    if 0x30 ≤ c ∧ c ≤ 0x39 then
      if digLen = 1 ∧ val = 0 then none
      else
        let val := val * 10 + (c.toNat - 0x30)
        if val > 255 then none else ipv4Loop false val (digLen + 1) fields rest
    else if c = 0x2E then
      if dot ∨ rest = [] then none
      else if fields.length = 3 then none
      else ipv4Loop true 0 0 (fields ++ [UInt8.ofNat val]) rest
    else none

def parseIPv4Fields (s : Bytes) : Option Bytes := ipv4Loop true 0 0 [] s

def hexGroup (s : Bytes) : Bytes × Bytes := s.span (fun c => (Hex.fromHexChar c).isSome)

def hexNumber (digits : Bytes) : Nat :=
  digits.foldl (fun acc c => acc * 16 + ((Hex.fromHexChar c).getD 0).toNat) 0

/-- The loop of `parseIPv6`, with the number of groups that there is room for: the bytes, the
place of the ellipsis, and what is left of the text. -/
def ipv6Loop : Nat → Bytes → Option Nat → Bytes → Option (Bytes × Option Nat × Bytes)
  | 0, ip, ellipsis, s => some (ip, ellipsis, s)
  | n + 1, ip, ellipsis, s =>
    let (digits, rest) := hexGroup s
    if digits = [] ∨ digits.length > 4 then none
    else
      let chunk := [UInt8.ofNat (hexNumber digits / 256), UInt8.ofNat (hexNumber digits)]
      match rest with
      | [] => some (ip ++ chunk, ellipsis, [])
      | c :: rest =>
        if c = 0x2E then
          if ellipsis = none ∧ ip.length ≠ 12 then none
          else if ip.length + 4 > 16 then none
          else (parseIPv4Fields s).map (fun fields => (ip ++ fields, ellipsis, []))
        else if c = 0x3A then
          match rest with
          | [] => none
          | c :: more =>
            if c = 0x3A then
              if ellipsis.isSome then none
              else if more = [] then some (ip ++ chunk, some (ip.length + 2), [])
              else ipv6Loop n (ip ++ chunk) (some (ip.length + 2)) more
            else ipv6Loop n (ip ++ chunk) ellipsis (c :: more)
        else none

/-- The end of `parseIPv6`: the ellipsis stands for what is missing. -/
def expandEllipsis (ip : Bytes) (ellipsis : Option Nat) : Option Bytes :=
  match ellipsis with
  | none => if ip.length < 16 then none else some ip
  | some e =>
    if ip.length < 16 then some (ip.take e ++ List.replicate (16 - ip.length) 0 ++ ip.drop e)
    else none

/-- `parseIPv6` without the zone. -/
def parseIPv6Fields (s : Bytes) : Option Bytes :=
  let (ellipsis, s) : Option Nat × Bytes :=
    match s with
    | 0x3A :: 0x3A :: rest => (some 0, rest)
    | s => (none, s)
  if ellipsis.isSome ∧ s = [] then some (List.replicate 16 0)
  else
    match ipv6Loop 8 [] ellipsis s with
    | some (ip, ellipsis, []) => expandEllipsis ip ellipsis
    | _ => none

def parseIPv6 (s : Bytes) : Option Addr :=
  match Strings.indexByte s 0x25 with
  | none => (parseIPv6Fields s).map (fun ip => .v6 ip [])
  | some i =>
    if s.drop (i + 1) = [] then none
    else (parseIPv6Fields (s.take i)).map (fun ip => .v6 ip (s.drop (i + 1)))

/-- `netip.ParseAddr`: the first separator tells the family. -/
def parseAddr (s : Bytes) : Option Addr :=
  match s.find? (fun c => c = 0x2E ∨ c = 0x3A ∨ c = 0x25) with
  | some 0x2E => (parseIPv4Fields s).map .v4
  | some 0x3A => parseIPv6 s
  | _ => none

def v4InV6Prefix : Bytes := List.replicate 10 0 ++ [0xFF, 0xFF]

namespace Addr

def as16 : Addr → Bytes
  | v4 fields => v4InV6Prefix ++ fields
  | v6 ip _ => ip

def zone : Addr → Bytes
  | v4 _ => []
  | v6 _ zone => zone

def bitLen : Addr → Nat
  | v4 _ => 32
  | v6 _ _ => 128

end Addr

def unzoned (s : Bytes) : Option Addr := (parseAddr s).filter (fun a => a.zone = [])

def parseIP (s : Bytes) : Bytes := ((unzoned s).map Addr.as16).getD []

def to4 (ip : Bytes) : Option Bytes :=
  if ip.length = 4 then some ip
  else if ip.length = 16 ∧ ip.take 12 = v4InV6Prefix then some (ip.drop 12)
  else none

def joinHostPort (host port : Bytes) : Bytes :=
  if 0x3A ∈ host then 0x5B :: host ++ 0x5D :: 0x3A :: port else host ++ 0x3A :: port

/-! ### Networks -/

def dtoiLoop (n : Nat) : Bytes → Option (Nat × Bytes)
  | [] => some (n, [])
  | c :: rest =>
    if 0x30 ≤ c ∧ c ≤ 0x39 then
      let n := n * 10 + (c.toNat - 0x30)
      if n ≥ 0xFFFFFF then none else dtoiLoop n rest
    else some (n, c :: rest)

/-- `dtoi`; there has to be a digit. -/
def dtoi (s : Bytes) : Option (Nat × Bytes) :=
  (dtoiLoop 0 s).filter (fun out => out.2.length < s.length)

/-- `CIDRMask`, with the number of bytes. -/
def cidrMask (ones : Nat) : Nat → Bytes
  | 0 => []
  | l + 1 => if ones ≥ 8 then 0xFF :: cidrMask (ones - 8) l
    else (~~~((0xFF : UInt8) >>> UInt8.ofNat ones)) :: cidrMask 0 l

def maskIP (ip mask : Bytes) : Bytes :=
  let mask := if mask.length = 16 ∧ ip.length = 4 ∧ mask.take 12 = List.replicate 12 0xFF
    then mask.drop 12 else mask
  let ip := if mask.length = 4 ∧ ip.length = 16 ∧ ip.take 12 = v4InV6Prefix
    then ip.drop 12 else ip
  if ip.length ≠ mask.length then [] else ip.zipWith (fun b m => b &&& m) mask

structure IPNet where
  ip : Bytes
  mask : Bytes
  deriving DecidableEq

/-- `net.ParseCIDR`, the network. -/
def parseCIDR (s : Bytes) : Option IPNet :=
  match Strings.cut s 0x2F with
  | (_, _, false) => none
  | (addr, mask, true) =>
    match unzoned addr, dtoi mask with
    | some a, some (n, []) =>
      if n > a.bitLen then none
      else
        let m := cidrMask n (a.bitLen / 8)
        some ⟨maskIP a.as16 m, m⟩
    | _, _ => none

def networkNumberAndMask (n : IPNet) : Bytes × Bytes :=
  match to4 n.ip with
  | some ip => if n.mask.length = 4 then (ip, n.mask)
    else if n.mask.length = 16 then (ip, n.mask.drop 12) else ([], [])
  | none => if n.ip.length = 16 ∧ n.mask.length = 16 then (n.ip, n.mask) else ([], [])

def IPNet.contains (n : IPNet) (ip : Bytes) : Bool :=
  let (nn, m) := networkNumberAndMask n
  let ip := (to4 ip).getD ip
  if ip.length ≠ nn.length then false
  else nn.zipWith (fun b m => b &&& m) m = ip.zipWith (fun b m => b &&& m) m

/-! ### The text of an address -/

def AddrByte (c : UInt8) : Prop := (Hex.fromHexChar c).isSome = true ∨ c = 0x2E ∨ c = 0x3A

theorem fromHexChar_digit {c : UInt8} (h : 0x30 ≤ c ∧ c ≤ 0x39) :
    (Hex.fromHexChar c).isSome = true := by
  unfold Hex.fromHexChar
  rw [if_pos h]
  rfl

theorem ipv4Loop_eq_some (s : Bytes) {dot : Bool} {val digLen : Nat} {fields out : Bytes} :
    fields.length ≤ 3 → ipv4Loop dot val digLen fields s = some out →
    out.length = 4 ∧ ∀ c ∈ s, 0x30 ≤ c ∧ c ≤ 0x39 ∨ c = 0x2E := by
  induction s generalizing dot val digLen fields out with
  | nil =>
    intro hfields h
    unfold ipv4Loop at h
    split at h
    · cases h
    · cases h
      rw [length_append, length_singleton]
      exact ⟨by omega, fun c hc => absurd hc not_mem_nil⟩
  | cons c s ih =>
    intro hfields h
    unfold ipv4Loop at h
    simp only [forall_mem_cons]
    split at h
    · rename_i hdigit
      split at h
      · cases h
      dsimp only at h
      split at h
      · cases h
      obtain ⟨hout, hs⟩ := ih hfields h
      exact ⟨hout, .inl hdigit, hs⟩
    split at h
    · rename_i hdot
      split at h
      · cases h
      split at h
      · cases h
      obtain ⟨hout, hs⟩ := ih (by rw [length_append, length_singleton]; omega) h
      exact ⟨hout, .inr hdot, hs⟩
    · cases h

variable {s out ip fields : Bytes} {a : Addr}

theorem parseIPv4Fields_eq_some (h : parseIPv4Fields s = some out) :
    out.length = 4 ∧ ∀ c ∈ s, 0x30 ≤ c ∧ c ≤ 0x39 ∨ c = 0x2E :=
  ipv4Loop_eq_some s (show ([] : Bytes).length ≤ 3 by decide) h

theorem parseIPv4Fields_addrByte (h : parseIPv4Fields s = some out) :
    ∀ c ∈ s, AddrByte c := fun c hc =>
  ((parseIPv4Fields_eq_some h).2 c hc).imp fromHexChar_digit .inl

theorem hexGroup_eq {digits rest : Bytes} (h : hexGroup s = (digits, rest)) :
    s = digits ++ rest ∧ ∀ c ∈ digits, AddrByte c := by
  unfold hexGroup at h
  rw [span_eq_takeWhile_dropWhile] at h
  obtain ⟨rfl, rfl⟩ := Prod.mk.inj h
  refine ⟨List.takeWhile_append_dropWhile.symm, fun c hc => .inl ?_⟩
  exact mem_takeWhile_imp (p := fun c => (Hex.fromHexChar c).isSome) hc

theorem ipv6Loop_eq_some (n : Nat) {ip s out : Bytes} {ellipsis ellipsis' : Option Nat} :
    ip.length + 2 * n = 16 → ipv6Loop n ip ellipsis s = some (out, ellipsis', []) →
    out.length ≤ 16 ∧ ∀ c ∈ s, AddrByte c := by
  induction n generalizing ip s out ellipsis ellipsis' with
  | zero =>
    intro hlen h
    cases h
    exact ⟨by omega, fun c hc => absurd hc not_mem_nil⟩
  | succ n ih =>
    intro hlen h
    have hcolon : AddrByte 0x3A := .inr (.inr rfl)
    unfold ipv6Loop at h
    generalize hgroup : hexGroup s = group at h
    obtain ⟨digits, rest⟩ := group
    obtain ⟨rfl, hdigits⟩ := hexGroup_eq hgroup
    dsimp only at h
    split at h
    · cases h
    generalize UInt8.ofNat (hexNumber digits / 256) = hi at h
    generalize UInt8.ofNat (hexNumber digits) = lo at h
    have hchunk : (ip ++ [hi, lo]).length = ip.length + 2 := length_append
    -- the group and what follows it
    have happend : ∀ {rest : Bytes}, (∀ c ∈ rest, AddrByte c) → ∀ c ∈ digits ++ rest, AddrByte c :=
      fun hrest c hc => (List.mem_append.mp hc).elim (hdigits c) (hrest c)
    cases rest with
    | nil =>
      cases h
      exact ⟨by omega, happend (fun c hc => absurd hc not_mem_nil)⟩
    | cons c rest =>
      dsimp only at h
      split at h
      · split at h
        · cases h
        split at h
        · cases h
        obtain ⟨fields, hfields, heq⟩ := Option.map_eq_some_iff.mp h
        cases heq
        rw [length_append, (parseIPv4Fields_eq_some hfields).1]
        exact ⟨by omega, parseIPv4Fields_addrByte hfields⟩
      split at h
      · rename_i hc
        subst hc
        cases rest with
        | nil => cases h
        | cons c more =>
          dsimp only at h
          split at h
          · rename_i hc
            subst hc
            split at h
            · cases h
            split at h
            · rename_i hmore
              cases h
              refine ⟨by omega, happend ?_⟩
              simp [hmore, hcolon]
            · obtain ⟨hout, hrest⟩ := ih (by omega) h
              refine ⟨hout, happend ?_⟩
              simpa [hcolon] using hrest
          · obtain ⟨hout, hrest⟩ := ih (by omega) h
            refine ⟨hout, happend ?_⟩
            simpa [hcolon] using hrest
      · cases h

theorem expandEllipsis_length {ellipsis : Option Nat} (hip : ip.length ≤ 16)
    (h : expandEllipsis ip ellipsis = some out) : out.length = 16 := by
  unfold expandEllipsis at h
  split at h
  · split at h
    · cases h
    · cases h
      omega
  · rename_i e
    split at h
    · cases h
      have hsplit := congrArg List.length (take_append_drop e ip)
      simp only [length_append, length_replicate] at hsplit ⊢
      omega
    · cases h

theorem parseIPv6Fields_eq_some (h : parseIPv6Fields s = some out) :
    out.length = 16 ∧ ∀ c ∈ s, AddrByte c := by
  have hcolon : AddrByte 0x3A := .inr (.inr rfl)
  have hrest : ∀ (ellipsis : Option Nat) (t : Bytes),
      (if ellipsis.isSome = true ∧ t = [] then some (List.replicate 16 0)
        else match ipv6Loop 8 [] ellipsis t with
          | some (ip, ellipsis, []) => expandEllipsis ip ellipsis
          | _ => none) = some out → out.length = 16 ∧ ∀ c ∈ t, AddrByte c := by
    intro ellipsis t h
    split at h
    · rename_i hnil
      cases h
      rw [hnil.2]
      exact ⟨rfl, fun c hc => absurd hc not_mem_nil⟩
    · split at h
      · rename_i ip ellipsis' hloop
        obtain ⟨hlen, ht⟩ := ipv6Loop_eq_some 8 rfl hloop
        exact ⟨expandEllipsis_length hlen h, ht⟩
      · cases h
  unfold parseIPv6Fields at h
  dsimp only at h
  split at h
  · rename_i t
    obtain ⟨hlen, ht⟩ := hrest (some 0) t h
    refine ⟨hlen, ?_⟩
    simpa [hcolon] using ht
  · exact hrest none s h

/-- **The text of an IPv4 address** has dots and no colon. -/
theorem parseAddr_v4 (h : parseAddr s = some (.v4 fields)) :
    fields.length = 4 ∧ 0x2E ∈ s ∧ 0x3A ∉ s ∧ ∀ c ∈ s, AddrByte c := by
  unfold parseAddr at h
  split at h
  · rename_i hfind
    obtain ⟨fields', hfields, heq⟩ := Option.map_eq_some_iff.mp h
    cases heq
    obtain ⟨hlen, hchars⟩ := parseIPv4Fields_eq_some hfields
    refine ⟨hlen, mem_of_find?_eq_some hfind, fun hcolon => ?_, parseIPv4Fields_addrByte hfields⟩
    exact absurd (hchars 0x3A hcolon) (by decide)
  · unfold parseIPv6 at h
    split at h
    · obtain ⟨ip, -, heq⟩ := Option.map_eq_some_iff.mp h
      cases heq
    · split at h
      · cases h
      · obtain ⟨ip, -, heq⟩ := Option.map_eq_some_iff.mp h
        cases heq
  · cases h

/-- **The text of an IPv6 address** has a colon. -/
theorem parseAddr_v6 {zone : Bytes} (h : parseAddr s = some (.v6 ip zone)) :
    ip.length = 16 ∧ 0x3A ∈ s ∧ (zone = [] → ∀ c ∈ s, AddrByte c) := by
  unfold parseAddr at h
  split at h
  · obtain ⟨fields, -, heq⟩ := Option.map_eq_some_iff.mp h
    cases heq
  · rename_i hfind
    unfold parseIPv6 at h
    split at h
    · obtain ⟨ip', hip, heq⟩ := Option.map_eq_some_iff.mp h
      cases heq
      obtain ⟨hlen, hchars⟩ := parseIPv6Fields_eq_some hip
      exact ⟨hlen, mem_of_find?_eq_some hfind, fun _ => hchars⟩
    · split at h
      · cases h
      · rename_i hzone
        obtain ⟨ip', hip, heq⟩ := Option.map_eq_some_iff.mp h
        cases heq
        exact ⟨(parseIPv6Fields_eq_some hip).1, mem_of_find?_eq_some hfind,
          fun hnil => absurd hnil hzone⟩
  · cases h

theorem unzoned_eq_some : unzoned s = some a ↔ parseAddr s = some a ∧ a.zone = [] := by
  unfold unzoned
  rw [Option.filter_eq_some_iff, decide_eq_true_iff]

theorem as16_length (h : unzoned s = some a) : a.as16.length = 16 := by
  have hparse := (unzoned_eq_some.mp h).1
  cases a with
  | v4 fields =>
    show (v4InV6Prefix ++ fields).length = 16
    rw [length_append, (parseAddr_v4 hparse).1]
    rfl
  | v6 ip zone => exact (parseAddr_v6 hparse).1

theorem addrByte_of_unzoned (h : unzoned s = some a) : ∀ c ∈ s, AddrByte c := by
  obtain ⟨hparse, hzone⟩ := unzoned_eq_some.mp h
  cases a with
  | v4 fields => exact (parseAddr_v4 hparse).2.2.2
  | v6 ip zone => exact (parseAddr_v6 hparse).2.2 hzone

theorem parseIP_eq (h : unzoned s = some a) : parseIP s = a.as16 := by
  unfold parseIP
  rw [h]
  rfl

theorem parseIP_length (s : Bytes) : parseIP s = [] ∨ (parseIP s).length = 16 := by
  cases h : unzoned s with
  | none =>
    unfold parseIP
    rw [h]
    exact .inl rfl
  | some a =>
    rw [parseIP_eq h]
    exact .inr (as16_length h)

theorem parseIP_eq_nil : parseIP s = [] ↔ unzoned s = none := by
  constructor
  · intro hnil
    cases h : unzoned s with
    | none => rfl
    | some a =>
      have hlen := as16_length h
      rw [← parseIP_eq h, hnil] at hlen
      cases hlen
  · intro h
    unfold parseIP
    rw [h]
    rfl

/-! ### Networks without an address -/

theorem length_cidrMask (l ones : Nat) : (cidrMask ones l).length = l := by
  induction l generalizing ones with
  | zero => rfl
  | succ l ih =>
    unfold cidrMask
    split <;> rw [length_cons, ih]

theorem mapped_take (h : fields.length = 4) :
    (v4InV6Prefix ++ fields).length = 16 ∧ (v4InV6Prefix ++ fields).take 12 = v4InV6Prefix := by
  refine ⟨?_, take_left' rfl⟩
  rw [length_append, h]
  rfl

theorem maskIP_v4 {mask : Bytes} (h : fields.length = 4) (hmask : mask.length = 4) :
    maskIP (v4InV6Prefix ++ fields) mask = fields.zipWith (fun b m => b &&& m) mask := by
  have hdrop : (v4InV6Prefix ++ fields).drop 12 = fields := drop_left' rfl
  unfold maskIP
  simp [mapped_take h, hdrop, h, hmask]

theorem maskIP_v6 {mask : Bytes} (h : ip.length = 16) (hmask : mask.length = 16) :
    maskIP ip mask = ip.zipWith (fun b m => b &&& m) mask := by
  unfold maskIP
  simp [h, hmask]

theorem to4_eq_some {short : Bytes} (hip : ip.length = 16) (h : to4 ip = some short) :
    short.length = 4 ∧ ip = v4InV6Prefix ++ short := by
  unfold to4 at h
  rw [if_neg (by omega)] at h
  split at h
  · rename_i hmapped
    cases h
    constructor
    · rw [length_drop]
      omega
    · rw [← hmapped.2, take_append_drop]
  · cases h

theorem networkNumber_ne_nil {n : IPNet} (h : parseCIDR s = some n) :
    (networkNumberAndMask n).1 ≠ [] := by
  unfold parseCIDR at h
  split at h
  · cases h
  · split at h
    · rename_i addr mask _ a k ha hk
      split at h
      · cases h
      · cases h
        have hmask := length_cidrMask (a.bitLen / 8) k
        generalize cidrMask k (a.bitLen / 8) = m at hmask
        have hparse := (unzoned_eq_some.mp ha).1
        cases a with
        | v4 fields =>
          have hlen := (parseAddr_v4 hparse).1
          replace hmask : m.length = 4 := by rw [hmask, Addr.bitLen]
          have hip : (fields.zipWith (fun b m => b &&& m) m).length = 4 := by
            rw [length_zipWith, hlen, hmask, min_self]
          have hself : to4 (fields.zipWith (fun b m => b &&& m) m)
            = some (fields.zipWith (fun b m => b &&& m) m) := if_pos hip
          unfold networkNumberAndMask Addr.as16
          rw [maskIP_v4 hlen hmask, hself]
          dsimp only
          rw [if_pos hmask]
          exact ne_nil_of_length_pos (by rw [hip]; decide)
        | v6 ip zone =>
          have hlen := (parseAddr_v6 hparse).1
          replace hmask : m.length = 16 := by rw [hmask, Addr.bitLen]
          have hip : (ip.zipWith (fun b m => b &&& m) m).length = 16 := by
            rw [length_zipWith, hlen, hmask, min_self]
          unfold networkNumberAndMask Addr.as16
          rw [maskIP_v6 hlen hmask]
          cases hshort : to4 (ip.zipWith (fun b m => b &&& m) m) with
          | none =>
            rw [if_pos ⟨hip, hmask⟩]
            exact ne_nil_of_length_pos (by rw [hip]; decide)
          | some short =>
            dsimp only
            rw [if_neg (by omega), if_pos hmask]
            exact ne_nil_of_length_pos (by rw [(to4_eq_some hip hshort).1]; decide)
    · cases h

theorem contains_nil {n : IPNet} (h : parseCIDR s = some n) : n.contains [] = false := by
  unfold IPNet.contains
  dsimp only
  rw [if_pos]
  exact fun hlen => networkNumber_ne_nil h (List.length_eq_zero_iff.mp hlen.symm)

/-! ### Networks of one address -/

/-- An address as `Contains` compares it. -/
def shortened (ip : Bytes) : Bytes := (to4 ip).getD ip

theorem to4_mapped (h : fields.length = 4) : to4 (v4InV6Prefix ++ fields) = some fields := by
  have hprefix : v4InV6Prefix.length = 12 := rfl
  unfold to4
  rw [if_neg (by rw [length_append]; omega), if_pos, ← hprefix, drop_left]
  rw [length_append, ← hprefix]
  exact ⟨by omega, rfl⟩

theorem shortened_inj {ip' : Bytes} (hip : ip.length = 16) (hip' : ip'.length = 16) :
    shortened ip = shortened ip' ↔ ip = ip' := by
  refine ⟨fun h => ?_, fun h => by rw [h]⟩
  unfold shortened at h
  cases hshort : to4 ip with
  | none =>
    cases hshort' : to4 ip' with
    | none =>
      rw [hshort, hshort'] at h
      exact h
    | some short' =>
      have hlen := congrArg List.length h
      rw [hshort, hshort'] at hlen
      simp only [Option.getD_none, Option.getD_some] at hlen
      have := (to4_eq_some hip' hshort').1
      omega
  | some short =>
    obtain ⟨hlen, heq⟩ := to4_eq_some hip hshort
    cases hshort' : to4 ip' with
    | none =>
      have hlens := congrArg List.length h
      rw [hshort, hshort'] at hlens
      simp only [Option.getD_none, Option.getD_some] at hlens
      omega
    | some short' =>
      rw [hshort, hshort', Option.getD_some, Option.getD_some] at h
      rw [heq, (to4_eq_some hip' hshort').2, h]

theorem zipWith_ones (ip : Bytes) :
    ip.zipWith (fun b m => b &&& m) (List.replicate ip.length 0xFF) = ip := by
  induction ip with
  | nil => rfl
  | cons b ip ih =>
    rw [length_cons, replicate_succ, zipWith_cons_cons, ih]
    have hones : (0xFF : UInt8) = -1 := rfl
    rw [hones, UInt8.and_neg_one]

def single (a : Addr) : IPNet :=
  ⟨maskIP a.as16 (cidrMask a.bitLen (a.bitLen / 8)), cidrMask a.bitLen (a.bitLen / 8)⟩

theorem single_v4 (h : fields.length = 4) :
    single (.v4 fields) = ⟨fields, List.replicate 4 0xFF⟩ := by
  have hmask : cidrMask 32 (32 / 8) = List.replicate fields.length 0xFF := by
    rw [h]
    decide
  have hlen : (List.replicate fields.length (0xFF : UInt8)).length = 4 := by
    rw [length_replicate, h]
  simp only [single, Addr.bitLen, Addr.as16, hmask, maskIP_v4 h hlen, zipWith_ones]
  rw [h]

theorem single_v6 {zone : Bytes} (h : ip.length = 16) :
    single (.v6 ip zone) = ⟨ip, List.replicate 16 0xFF⟩ := by
  have hmask : cidrMask 128 (128 / 8) = List.replicate ip.length 0xFF := by
    rw [h]
    decide
  have hlen : (List.replicate ip.length (0xFF : UInt8)).length = 16 := by
    rw [length_replicate, h]
  simp only [single, Addr.bitLen, Addr.as16, hmask, maskIP_v6 h hlen, zipWith_ones]
  rw [h]

theorem networkNumberAndMask_single (h : unzoned s = some a) : networkNumberAndMask (single a)
      = (shortened a.as16, List.replicate (shortened a.as16).length 0xFF) := by
  have hparse := (unzoned_eq_some.mp h).1
  unfold networkNumberAndMask shortened
  cases a with
  | v4 fields =>
    have hlen := (parseAddr_v4 hparse).1
    have hself : to4 fields = some fields := if_pos hlen
    have hmapped : to4 (Addr.v4 fields).as16 = some fields := to4_mapped hlen
    rw [single_v4 hlen, hmapped, hself]
    simp [hlen]
  | v6 ip zone =>
    have hlen := (parseAddr_v6 hparse).1
    rw [single_v6 hlen]
    cases hshort : to4 ip with
    | none => simp [hlen, hshort, Addr.as16]
    | some short => simp [(to4_eq_some hlen hshort).1, hshort, Addr.as16]

/-- **A network of one address** contains this address and no other. -/
theorem contains_single (h : unzoned s = some a) (value : Bytes) :
    (single a).contains (parseIP value) = true ↔ parseIP value = a.as16 := by
  have hlen := as16_length h
  have hcontains : (single a).contains (parseIP value) = true ↔
      shortened (parseIP value) = shortened a.as16 := by
    unfold IPNet.contains
    rw [networkNumberAndMask_single h]
    dsimp only
    rw [show (to4 (parseIP value)).getD (parseIP value) = shortened (parseIP value) from rfl]
    split
    · rename_i hne
      simp only [Bool.false_eq_true, false_iff]
      exact fun heq => hne (congrArg List.length heq)
    · rename_i heq
      rw [decide_eq_true_iff, zipWith_ones, ← not_not.mp heq, zipWith_ones, eq_comm]
  rw [hcontains]
  rcases parseIP_length value with hnil | hvalue
  · -- no address: what is compared has no bytes
    rw [hnil]
    have hshort : (shortened a.as16).length ≠ 0 := by
      unfold shortened
      cases hto4 : to4 a.as16 with
      | none =>
        rw [Option.getD_none]
        omega
      | some short =>
        have := (to4_eq_some hlen hto4).1
        rw [Option.getD_some]
        omega
    constructor
    · intro heq
      exact absurd (congrArg List.length heq.symm) hshort
    · intro heq
      rw [← heq] at hlen
      cases hlen
  · exact shortened_inj hvalue hlen

end Go.Net
