import Ifj24.Command.Run
import Ifj24.Watch
import Std.Time.DateTime.Timestamp

/-!
The command line on a machine.
-/

namespace Ifj24.Main

def fileReason : IO.Error → FileReason
  | .noFileOrDirectory .. => .noEntry
  | .alreadyExists .. => .exists
  | .inappropriateType _ code _ =>
    if code = 21 ∨ code = -21 then .isDirectory else .notDirectory
  | .resourceBusy .. | .unsatisfiedConstraints .. => .notEmpty
  | .invalidArgument .. => .invalid
  | .permissionDenied .. => .other "permission denied"
  | e => .other (Bytes.ofString e.toString)

def name (path : Bytes) : String := path.toString?.getD ""

def attempt {α : Type} (operation path : Bytes) (act : IO α) : IO (Except FileError α) := do
  match ← act.toBaseIO with
  | .ok a => return .ok a
  | .error e => return .error ⟨operation, path, fileReason e⟩

def toBytes (b : ByteArray) : Bytes := b.data.toList

def ofBytes (b : Bytes) : ByteArray := ⟨b.toArray⟩

def nanoseconds (t : IO.FS.SystemTime) : Int := t.sec * 1000000000 + t.nsec.toNat

def metadata (path : Bytes) : IO IO.FS.Metadata := do
  ((← IO.currentDir) / name path).metadata

def isDirectory (info : IO.FS.Metadata) : Bool :=
  match info.type with
  | .dir => true
  | _ => false

partial def listFiles (path : Bytes) : IO (List Bytes) := do
  if !isDirectory (← metadata path) then return [path]
  let found ← ((← IO.currentDir) / name path).readDir
  let names := (found.map fun e => Bytes.ofString e.fileName).toList
  let sorted := names.mergeSort fun a b => !Bytes.before b a
  return (← sorted.mapM fun n => listFiles (Path.join [path, n])).flatten

partial def readAll (stream : IO.FS.Stream) (done : ByteArray) : IO ByteArray := do
  let part ← stream.read 65536
  if part.isEmpty then return done
  readAll stream (done ++ part)

/-- Makes a new file, with another number in its name as long as there is such a
file already. -/
partial def makeNew (directory front back : Bytes) (n : Nat) : IO Bytes := do
  let path := Path.join [directory, front ++ Bytes.ofNat n ++ back]
  match ← (IO.FS.Handle.mk (name path) .writeNew).toBaseIO with
  | .ok _ => return path
  | .error (.alreadyExists ..) => makeNew directory front back (n + 1)
  | .error e => throw e

def environmentText (variableName : String) : IO String := do
  return (← IO.getEnv variableName).getD ""

instance : Surroundings IO where
  stat path := attempt "stat" path do
    let info ← metadata path
    return ⟨isDirectory info, nanoseconds info.modified⟩
  readFile path := do
    let operation : Bytes :=
      match ← (metadata path).toBaseIO with
      | .ok info => if isDirectory info then "read" else "open"
      | .error _ => "open"
    attempt operation path (toBytes <$> IO.FS.readBinFile (name path))
  writeFile path content := attempt "open" path (IO.FS.writeBinFile (name path) (ofBytes content))
  makeDirectory path := attempt "mkdir" path (IO.FS.createDir (name path))
  makeTemporary directory front back := do
    attempt "open" directory (makeNew directory front back (← IO.monoNanosNow))
  rename source target :=
    attempt "rename" (source ++ " " ++ target) (IO.FS.rename (name source) (name target))
  remove path := attempt "remove" path (IO.FS.removeFile (name path))
  filesBelow path := attempt "lstat" path (listFiles path)
  now := do return (← Std.Time.Timestamp.now).toNanosecondsSinceUnixEpoch.val
  environment variableName := do
    return (← IO.getEnv (name variableName)).map Bytes.ofString
  standardInput := do return toBytes (← readAll (← IO.getStdin) .empty)
  print text := do
    let stdout ← IO.getStdout
    match ← (do stdout.write (ofBytes text); stdout.flush : IO Unit).toBaseIO with
    | .ok () => return .ok ()
    | .error e => return .error (Bytes.ofString e.toString)
  printError text := do
    (← IO.getStderr).write (ofBytes text)
  isTerminal := do
    let plain := (← environmentText "NO_COLOR") != "" || (← environmentText "TERM") == "dumb"
    return !plain && (← (← IO.getStdout).isTty)

partial def build (rebuild : IO Unit) (s : Watch.State) : IO Watch.State := do
  match s.builders with
  | [] => return s
  | b :: _ =>
    if b = .building then rebuild
    build rebuild (s.builderStep 0)

def changed? (file : Bytes) : IO (Option Int) := do
  match ← (metadata file).toBaseIO with
  | .ok info => return some (nanoseconds info.modified)
  | .error _ => return none

partial def watch (file : Bytes) (rebuild : IO Unit) (s : Watch.State) (last : Option Int) :
    IO Unit := do
  IO.sleep 100
  let current ← changed? file
  if current.isSome && current != last then
    watch file rebuild (← build rebuild s.callerStep.callerStep) current
  else watch file rebuild s current

end Ifj24.Main

def main (args : List String) : IO UInt32 := do
  let ending : Ifj24.Command.Ending ← Ifj24.Command.run (args.map Ifj24.Bytes.ofString)
  match ending with
  | .exit code => return code.toNat.toUInt32
  | .watch compiler colored file =>
    let rebuild : IO Unit := compiler.rebuild colored file
    let last ← Ifj24.Main.changed? file
    let s ← Ifj24.Main.build rebuild Ifj24.Watch.State.initial.callerStep.callerStep
    Ifj24.Main.watch file rebuild s last
    return 0
