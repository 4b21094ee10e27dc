import Ifj24.Files.Access

/-!
A file tree as a value, and a machine that consists of such a tree, a clock, an
environment and standard streams.
-/

namespace Ifj24

inductive FileEntry where
  | file (content : Bytes) (modified : Int)
  | directory (made : Int)
  deriving DecidableEq, Repr

/-- Files and directories by their names from the root, in the order of the
names. The root itself is not in the list. -/
structure FileTree where
  entries : List (List Bytes × FileEntry)
  deriving Repr

namespace FileTree

def empty : FileTree := ⟨[]⟩

def get? (t : FileTree) (path : List Bytes) : Option FileEntry :=
  if path.isEmpty then some (.directory 0) else t.entries.lookup path

def insert (path : List Bytes) (e : FileEntry) :
    List (List Bytes × FileEntry) → List (List Bytes × FileEntry)
  | [] => [(path, e)]
  | (p, x) :: rest =>
    if p = path then (path, e) :: rest
    else if path < p then (path, e) :: (p, x) :: rest
    else (p, x) :: insert path e rest

def set (t : FileTree) (path : List Bytes) (e : FileEntry) : FileTree := ⟨insert path e t.entries⟩

def erase (t : FileTree) (path : List Bytes) : FileTree :=
  ⟨t.entries.filter fun (p, _) => p != path⟩

def longestName : Nat := 255

/-- Goes along names from a place. Every place on the way has to be a directory;
the last one need not exist. -/
def walk (t : FileTree) : List Bytes → List Bytes → Except FileReason (List Bytes)
  | place, [] => .ok place
  | place, name :: rest =>
    match t.get? place with
    | none => .error .noEntry
    | some (.file ..) => .error .notDirectory
    | some (.directory _) =>
      if longestName < name.length then .error .nameTooLong
      else if name = Bytes.ofString "." then walk t place rest
      else if name = Bytes.ofString ".." then walk t place.dropLast rest
      else walk t (place ++ [name]) rest

/-- The place that a path means. A slash at the end asks for a directory. -/
def resolve (t : FileTree) (here : List Bytes) (path : Bytes) : Except FileReason (List Bytes) :=
  if path.isEmpty then .error .noEntry
  else if path.contains 0 then .error .invalid
  else
    let start := if Path.isRooted path then [] else here
    let tail : List Bytes := if path.getLast? = some Path.slash then ["."] else []
    t.walk start (Path.names path ++ tail)

def children (t : FileTree) (place : List Bytes) : List Bytes :=
  t.entries.filterMap fun (p, _) => if p.dropLast = place then p.getLast? else none

/-- The files below a place with their contents, in the order of a walk. -/
def filesBelow (t : FileTree) (place : List Bytes) : List (List Bytes × Bytes) :=
  t.entries.filterMap fun (p, e) =>
    match e with
    | .file content _ => if place.isPrefixOf p then some (p.drop place.length, content) else none
    | .directory _ => none

def plant (t : FileTree) (path : List Bytes) (content : Bytes) (time : Int) : FileTree :=
  let above := (List.range path.length).map path.take
  let withDirectories := above.foldl
    (fun t p => if p.isEmpty || (t.get? p).isSome then t else t.set p (.directory time)) t
  withDirectories.set path (.file content time)

end FileTree

structure Machine where
  files : FileTree
  here : List Bytes
  clock : Int
  settings : List (Bytes × Bytes)
  input : Bytes
  /-- What every write to the standard output fails with, if it does. -/
  broken : Option Bytes
  output : Bytes
  errors : Bytes

namespace Machine

def failed {α : Type} (operation path : Bytes) (reason : FileReason) : Except FileError α :=
  .error ⟨operation, path, reason⟩

def stat (s : Machine) (path : Bytes) : Except FileError FileInfo :=
  match s.files.resolve s.here path with
  | .error reason => failed "stat" path reason
  | .ok place =>
    match s.files.get? place with
    | none => failed "stat" path .noEntry
    | some (.directory made) => .ok ⟨true, made⟩
    | some (.file _ modified) => .ok ⟨false, modified⟩

def readFile (s : Machine) (path : Bytes) : Except FileError Bytes :=
  match s.files.resolve s.here path with
  | .error reason => failed "open" path reason
  | .ok place =>
    match s.files.get? place with
    | none => failed "open" path .noEntry
    | some (.directory _) => failed "read" path .isDirectory
    | some (.file content _) => .ok content

/-- The directory that a new entry would be in has to exist. -/
def room (s : Machine) (place : List Bytes) : Option FileReason :=
  match s.files.get? place.dropLast with
  | none => some .noEntry
  | some (.file ..) => some .notDirectory
  | some (.directory _) => none

/-- Why a path that means nothing cannot be a new file: one that ends in a slash
would be a directory. -/
def newFileReason (s : Machine) (path : Bytes) (reason : FileReason) : FileReason :=
  let trimmed := (path.reverse.dropWhile (· == Path.slash)).reverse
  match s.files.resolve s.here trimmed with
  | .error reason => reason
  | .ok place => if reason = .noEntry ∧ (s.room place).isNone then .isDirectory else reason

def writeFile (s : Machine) (path content : Bytes) : Except FileError Machine :=
  match s.files.resolve s.here path with
  | .error reason => failed "open" path (s.newFileReason path reason)
  | .ok place =>
    match s.files.get? place, s.room place with
    | some (.directory _), _ => failed "open" path .isDirectory
    | _, some reason => failed "open" path reason
    | _, none => .ok { s with files := s.files.set place (.file content s.clock) }

def makeDirectory (s : Machine) (path : Bytes) : Except FileError Machine :=
  match s.files.resolve s.here path with
  | .error reason => failed "mkdir" path reason
  | .ok place =>
    match s.files.get? place, s.room place with
    | some _, _ => failed "mkdir" path .exists
    | none, some reason => failed "mkdir" path reason
    | none, none => .ok { s with files := s.files.set place (.directory s.clock) }

/-- The first number that makes a name new in a directory; `fuel` bounds the
search. -/
def freshNumber (taken : List Bytes) (front back : Bytes) : Nat → Nat → Nat
  | 0, n => n
  | fuel + 1, n =>
    if taken.contains (front ++ Bytes.ofNat n ++ back) then freshNumber taken front back fuel (n + 1)
    else n

def makeTemporary (s : Machine) (directory front back : Bytes) :
    Except FileError (Bytes × Machine) :=
  match s.files.resolve s.here directory with
  | .error reason => failed "open" directory reason
  | .ok place =>
    let taken := s.files.children place
    let name := front ++ Bytes.ofNat (freshNumber taken front back taken.length 0) ++ back
    let path := Path.join [directory, name]
    match s.room (place ++ [name]) with
    | some reason => failed "open" path reason
    | none =>
      if FileTree.longestName < name.length then failed "open" path .nameTooLong
      else .ok (path, { s with files := s.files.set (place ++ [name]) (.file [] s.clock) })

/-- Moves a file; a file in the way is replaced. -/
def rename (s : Machine) (source target : Bytes) : Except FileError Machine :=
  let error (reason : FileReason) : Except FileError Machine :=
    failed "rename" (source ++ " " ++ target) reason
  match s.files.resolve s.here source, s.files.resolve s.here target with
  | .error reason, _ => error reason
  | _, .error reason => error reason
  | .ok a, .ok b =>
    match s.files.get? a, s.files.get? b, s.room b with
    | none, _, _ => error .noEntry
    | _, some (.directory _), _ => error .exists
    | _, _, some reason => error reason
    | some e, _, none => .ok { s with files := (s.files.erase a).set b e }

def remove (s : Machine) (path : Bytes) : Except FileError Machine :=
  match s.files.resolve s.here path with
  | .error reason => failed "remove" path reason
  | .ok place =>
    match s.files.get? place with
    | none => failed "remove" path .noEntry
    | some (.directory _) =>
      if (s.files.children place).isEmpty then .ok { s with files := s.files.erase place }
      else failed "remove" path .notEmpty
    | some (.file ..) => .ok { s with files := s.files.erase place }

def filesBelow (s : Machine) (path : Bytes) : Except FileError (List Bytes) :=
  match s.files.resolve s.here path with
  | .error reason => failed "lstat" path reason
  | .ok place =>
    match s.files.get? place with
    | none => failed "lstat" path .noEntry
    | some (.file ..) => .ok [path]
    | some (.directory _) =>
      .ok ((s.files.filesBelow place).map fun (names, _) => Path.join (path :: names))

/-- Runs a change of the machine, which a failure leaves as it was. -/
def change (f : Machine → Except FileError Machine) : StateM Machine (Except FileError Unit) :=
  fun s =>
    match f s with
    | .ok s => (.ok (), s)
    | .error e => (.error e, s)

instance : Surroundings (StateM Machine) where
  stat path := do return (← get).stat path
  readFile path := do return (← get).readFile path
  writeFile path content := change fun s => s.writeFile path content
  makeDirectory path := change fun s => s.makeDirectory path
  makeTemporary directory front back := fun s =>
    match s.makeTemporary directory front back with
    | .ok (path, s) => (.ok path, s)
    | .error e => (.error e, s)
  rename source target := change fun s => s.rename source target
  remove path := change fun s => s.remove path
  filesBelow path := do return (← get).filesBelow path
  now := do return (← get).clock
  environment name := do return (← get).settings.lookup name
  standardInput := do return (← get).input
  print text := fun s =>
    match s.broken with
    | some reason => (.error reason, s)
    | none => (.ok (), { s with output := s.output ++ text })
  printError text := modify fun s => { s with errors := s.errors ++ text }
  isTerminal := return false

end Machine

end Ifj24
