import Ifj24.Text.Bytes

/-!
Paths of files as texts, and their shortest equivalent form.
-/

namespace Ifj24.Path

def slash : UInt8 := Bytes.ascii '/'

def isRooted (path : Bytes) : Bool := path.head? == some slash

def names (path : Bytes) : List Bytes := (Bytes.splitOn slash path).filter fun n => !n.isEmpty

/-- Takes a name after the names `done`, the last of which comes first. A step up
undoes a step down; above a root there is nothing. -/
def step (rooted : Bool) (done : List Bytes) (name : Bytes) : List Bytes :=
  if name = Bytes.ofString "." then done
  else if name = Bytes.ofString ".." then
    match done with
    | [] => if rooted then [] else [name]
    | last :: rest => if last = Bytes.ofString ".." then name :: done else rest
  else name :: done

def ofNames (rooted : Bool) (names : List Bytes) : Bytes :=
  let body := Bytes.join "/" names
  if rooted then "/" ++ body else if names.isEmpty then "." else body

def clean (path : Bytes) : Bytes :=
  let rooted := isRooted path
  ofNames rooted ((names path).foldl (step rooted) []).reverse

def join (parts : List Bytes) : Bytes :=
  match parts.filter fun p => !p.isEmpty with
  | [] => []
  | parts => clean (Bytes.join "/" parts)

def parent (path : Bytes) : Bytes :=
  clean (path.reverse.dropWhile (· != slash)).reverse

end Ifj24.Path
