import Coraza.Go.Path
import Coraza.Transformations.Whitespace

/-!
# Paths

The transformations `normalisePath` and `normalisePathWin`.  The first cleans a path but keeps a
slash at its end.  The second reads backslashes as slashes and then drops what Windows drops: the
name of a stream after the last component, and dots and spaces at the end of each component.

Both compare the texts at the end, the second with the path before the backslashes were replaced,
so their flags are right (`normalisePath_changed_iff`, `normalisePathWin_changed_iff`).
-/

namespace Coraza.Transformations

open Go Rewriting

def normalisePath (data : Bytes) : Bytes × Bool :=
  if data.length < 1 then (data, false)
  else
    let clean := Path.clean data
    if clean = [0x2E] then ([], true)
    else if data.getLast? = some 0x2F then (clean ++ [0x2F], data ≠ clean ++ [0x2F])
    else (clean, data ≠ clean)

/-! ### What Windows drops -/

def isASCIILetter (b : UInt8) : Bool := (0x61 ≤ b && b ≤ 0x7A) || (0x41 ≤ b && b ≤ 0x5A)

/-- The letter of a drive with its colon, and what follows. -/
def splitDrive (data : Bytes) : Bytes × Bytes :=
  match data with
  | letter :: 0x3A :: rest => if isASCIILetter letter then ([letter, 0x3A], rest) else ([], data)
  | _ => ([], data)

/-- What comes before the first colon of the last component. -/
def beforeStream (data : Bytes) : Bytes :=
  match Strings.lastIndexByte data 0x2F with
  | some idx =>
    match Strings.indexByte (data.drop (idx + 1)) 0x3A with
    | some colon => data.take (idx + 1 + colon)
    | none => data
  | none =>
    match Strings.indexByte data 0x3A with
    | some colon => data.take colon
    | none => data

def stripWindowsADS (data : Bytes) : Bytes :=
  let drive := (splitDrive data).1
  let rest := (splitDrive data).2
  -- a slash at the end is set aside, so that the component before it is the last one
  if rest.getLast? = some 0x2F then drive ++ beforeStream rest.dropLast ++ [0x2F]
  else drive ++ beforeStream rest

def isAllDots (s : Bytes) : Bool := s.all (fun b => b == 0x2E)

def hasTrimmableComponent (data : Bytes) : Bool :=
  (data.splitOn 0x2F).any (fun seg =>
    !isAllDots seg && (seg.getLast? == some 0x2E || seg.getLast? == some 0x20))

/-- A round of the loop of `stripWindowsTrailingDotsAndSpaces` for one component; the state is
what was written and `wroteAny`. -/
def stripStep (state : Bytes × Bool) (seg : Bytes) : Bytes × Bool :=
  let kept := if isAllDots seg then seg else Strings.trimRight seg [0x2E, 0x20]
  -- a component of dots and spaces is dropped
  if !isAllDots seg && kept == [] then state
  else (state.1 ++ (if state.2 then [0x2F] else []) ++ kept, true)

def stripWindowsTrailingDotsAndSpaces (data : Bytes) : Bytes :=
  if hasTrimmableComponent data then ((data.splitOn 0x2F).foldl stripStep ([], false)).1 else data

def normalisePathWin (data : Bytes) : Bytes × Bool :=
  if data.length < 1 then (data, false)
  else
    let clean := (normalisePath (Strings.replaceAll data 0x5C [0x2F])).1
    let stripped := stripWindowsTrailingDotsAndSpaces (stripWindowsADS clean)
    (stripped, data ≠ stripped)

/-! ### The flags -/

theorem normalisePath_changed_iff (data : Bytes) :
    (normalisePath data).2 = true ↔ (normalisePath data).1 ≠ data := by
  unfold normalisePath
  dsimp only
  split_ifs with hempty hdot hslash
  · exact ⟨nofun, fun hne => absurd rfl hne⟩
  · refine iff_of_true rfl (fun heq => hempty ?_)
    rw [← heq]
    exact Nat.zero_lt_one
  · exact compared_changed_iff (fun data => Path.clean data ++ [0x2F]) data
  · exact compared_changed_iff Path.clean data

theorem normalisePathWin_changed_iff (data : Bytes) :
    (normalisePathWin data).2 = true ↔ (normalisePathWin data).1 ≠ data := by
  unfold normalisePathWin
  split_ifs with hempty
  · exact ⟨nofun, fun hne => absurd rfl hne⟩
  · exact compared_changed_iff (fun data => stripWindowsTrailingDotsAndSpaces
      (stripWindowsADS (normalisePath (Strings.replaceAll data 0x5C [0x2F])).1)) data

end Coraza.Transformations
