import Ifj24.Duration
import Ifj24.Files.Access
import Ifj24.Hash.Blake3

/-!
A directory that keeps generated code. An entry is a file whose name is a hash of
all that decides the code, and it is good until it is older than the cache allows.
-/

namespace Ifj24

/-- The name of an entry. Entries are spread over directories by the first two
bytes of their names. -/
structure CacheKey where
  text : Bytes
  long : 2 ≤ text.length

namespace CacheKey

def ofText? (text : Bytes) : Option CacheKey :=
  if h : 2 ≤ text.length then some ⟨text, h⟩ else none

theorem two_le_length_hex {bytes : Bytes} (h : bytes ≠ []) : 2 ≤ (Bytes.hex bytes).length := by
  obtain ⟨b, rest, rfl⟩ := List.exists_cons_of_ne_nil h
  simp only [Bytes.hex, Bytes.paddedDigits, List.flatMap_cons, List.length_append,
    List.length_replicate]
  omega

def material (version fingerprint source : Bytes) : Bytes :=
  "ifjc " ++ version ++ "\n" ++ fingerprint ++ "\nsrc: " ++ Bytes.hex (Blake3.hash source) ++ "\n"

/-- The key of the code that a version of the compiler generates from a source. -/
def of (version fingerprint source : Bytes) : CacheKey where
  text := Bytes.hex (Blake3.hash (material version fingerprint source))
  long := two_le_length_hex <| List.ne_nil_of_length_pos (by simp [Blake3.length_hash])

end CacheKey

structure Cache where
  directory : Bytes
  /-- How long an entry is good; zero is for ever. -/
  maxAge : Duration
  deriving Repr

namespace Cache

def suffix : Bytes := ".ifjcode"

def path (c : Cache) (key : CacheKey) : Bytes :=
  Path.join [c.directory, key.text.take 2, key.text ++ suffix]

def isExpired (c : Cache) (now : Int) (info : FileInfo) : Bool :=
  decide ((0 : Int) < c.maxAge) && decide (c.maxAge < now - info.modified)

def failureText (e : FileError) : Bytes := "cache: " ++ e.text

section

variable {m : Type → Type} [Monad m] [Surroundings m]

def get? (c : Cache) (key : CacheKey) : m (Except FileError (Option Bytes)) := do
  let path := c.path key
  match ← Surroundings.stat path with
  | .error e => return if e.reason = .noEntry then .ok none else .error e
  | .ok info =>
    if c.isExpired (← Surroundings.now) info then return .ok none
    return (← Surroundings.readFile path).map some

/-- Replaces a file by one with the given content. The content is complete before
the file has its name, so that nobody sees a part of it. -/
def replace (temporary path content : Bytes) : m (Except FileError Unit) := do
  let written ← do
    match ← Surroundings.writeFile temporary content with
    | .error e => pure (.error e)
    | .ok () => Surroundings.rename temporary path
  if let .error _ := written then
    let _ ← Surroundings.remove temporary
  return written

def put (c : Cache) (key : CacheKey) (code : Bytes) : m (Except FileError Unit) := do
  let path := c.path key
  let directory := Path.parent path
  match ← Files.makeDirectories directory with
  | .error e => return .error e
  | .ok () =>
    match ← Files.makeTemporary directory (key.text ++ ".") ".tmp" with
    | .error e => return .error e
    | .ok temporary => replace temporary path code

/-- Removes a file if it is an entry that is too old. -/
def removeExpired (c : Cache) (path : Bytes) : m (Except FileError Bool) := do
  if !path.endsWith suffix then return .ok false
  match ← Surroundings.stat path with
  | .error e => return .error e
  | .ok info =>
    if c.isExpired (← Surroundings.now) info then
      return (← Surroundings.remove path).map fun () => true
    return .ok false

/-- Removes the entries that are too old among files, and counts them. -/
def removeAll (c : Cache) (removed : Nat) : List Bytes → m (Except FileError Nat)
  | [] => return .ok removed
  | path :: rest => do
    match ← c.removeExpired path with
    | .error e => return .error e
    | .ok true => removeAll c (removed + 1) rest
    | .ok false => removeAll c removed rest

/-- Removes the entries that are too old, and counts them. A cache without a
directory has none. -/
def clean (c : Cache) : m (Except FileError Nat) := do
  match ← Surroundings.filesBelow c.directory with
  | .error e => return if e.reason = .noEntry then .ok 0 else .error e
  | .ok files => c.removeAll 0 files

end

end Cache

end Ifj24
