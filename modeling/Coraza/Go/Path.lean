import Coraza.Go.Strings

/-!
# Paths as package `path` has them

`clean` drops the elements of a path that stand for nothing and takes back an element for each
`..`.  The functions of `path/filepath` are the same ones on a system whose separator is a slash.
-/

namespace Go.Path

/-- One element of a path in the loop of `path.Clean`, with the elements that are kept, the last
one first. -/
def cleanStep (rooted : Bool) (kept : List Bytes) (elem : Bytes) : List Bytes :=
  if elem = [] ∨ elem = [0x2E] then kept
  else if elem = [0x2E, 0x2E] then
    match kept with
    | [] => if rooted then [] else [elem]
    | top :: rest => if top = [0x2E, 0x2E] then elem :: kept else rest
  else elem :: kept

def isAbs (path : Bytes) : Bool := path.head? = some 0x2F

def clean (path : Bytes) : Bytes :=
  let kept := (path.splitOn 0x2F).foldl (cleanStep (isAbs path)) []
  let out := (if isAbs path then [0x2F] else []) ++ [0x2F].intercalate kept.reverse
  if out = [] then [0x2E] else out

def join (dir elem : Bytes) : Bytes :=
  if dir = [] ∧ elem = [] then []
  else if dir = [] then clean elem
  else clean (dir ++ 0x2F :: elem)

def dir (path : Bytes) : Bytes :=
  match Strings.lastIndexByte path 0x2F with
  | some i => clean (path.take (i + 1))
  | none => clean []

end Go.Path
