import Ifj24.Files.Path

/-!
What the compiler asks of its surroundings: files, the clock, the environment and
the standard streams. The commands are written against this interface, so that
they can run on a file tree that is a value as well as on a machine.
-/

namespace Ifj24

inductive FileReason where
  | noEntry
  | notDirectory
  | isDirectory
  | exists
  | notEmpty
  | nameTooLong
  | invalid
  | separator
  | other (text : Bytes)
  deriving DecidableEq, Repr

namespace FileReason

def text : FileReason → Bytes
  | .noEntry => "no such file or directory"
  | .notDirectory => "not a directory"
  | .isDirectory => "is a directory"
  | .exists => "file exists"
  | .notEmpty => "directory not empty"
  | .nameTooLong => "file name too long"
  | .invalid => "invalid argument"
  | .separator => "pattern contains path separator"
  | .other text => text

end FileReason

structure FileError where
  operation : Bytes
  path : Bytes
  reason : FileReason
  deriving DecidableEq, Repr

def FileError.text (e : FileError) : Bytes :=
  e.operation ++ " " ++ e.path ++ ": " ++ e.reason.text

structure FileInfo where
  isDirectory : Bool
  /-- When the file was changed last, in nanoseconds. -/
  modified : Int
  deriving DecidableEq, Repr

class Surroundings (m : Type → Type) where
  stat : Bytes → m (Except FileError FileInfo)
  readFile : Bytes → m (Except FileError Bytes)
  /-- Replaces the contents of a file, which is made if there is none. -/
  writeFile : Bytes → Bytes → m (Except FileError Unit)
  makeDirectory : Bytes → m (Except FileError Unit)
  /-- Makes a new file in a directory and returns its path. Its name is the given
  one with something put in to make it new. -/
  makeTemporary : (directory front back : Bytes) → m (Except FileError Bytes)
  rename : (source target : Bytes) → m (Except FileError Unit)
  remove : Bytes → m (Except FileError Unit)
  /-- The paths of the files at or below a path, in the order of their names. -/
  filesBelow : Bytes → m (Except FileError (List Bytes))
  /-- The time in nanoseconds. -/
  now : m Int
  environment : Bytes → m (Option Bytes)
  standardInput : m Bytes
  /-- Writes to the standard output; an error is a text. -/
  print : Bytes → m (Except Bytes Unit)
  printError : Bytes → m Unit
  isTerminal : m Bool

namespace Files

variable {m : Type → Type} [Monad m] [Surroundings m]

/-- Makes a directory with the names in reverse order, and those above it. -/
def makeNames (rooted : Bool) : List Bytes → m (Except FileError Unit)
  | [] => return .ok ()
  | name :: above => do
    let path := Path.ofNames rooted (name :: above).reverse
    match ← Surroundings.stat path with
    | .ok info =>
      if info.isDirectory then return .ok ()
      else return .error ⟨"mkdir", path, .notDirectory⟩
    | .error _ =>
      match ← makeNames rooted above with
      | .error e => return .error e
      | .ok () => Surroundings.makeDirectory path

def makeDirectories (path : Bytes) : m (Except FileError Unit) :=
  makeNames (Path.isRooted path) (Path.names path).reverse

/-- Makes a new file whose name contains the given one. -/
def makeTemporary (directory front back : Bytes) : m (Except FileError Bytes) :=
  if (front ++ back).contains Path.slash then
    return .error ⟨"createtemp", front ++ "*" ++ back, .separator⟩
  else Surroundings.makeTemporary directory front back

end Files

end Ifj24
