import Ifj24.Command.Compiler
import Ifj24.Command.Help

/-!
Running a command line.
-/

namespace Ifj24.Command

inductive Ending where
  | exit (code : Int)
  /-- It goes on with compiling a file whenever the file changes. -/
  | watch (compiler : Compiler) (colored : Bool) (file : Bytes)

section

variable {m : Type → Type} [Monad m] [Surroundings m]

def isColored : ColorMode → m Bool
  | .always => return true
  | .never => return false
  | .auto => Surroundings.isTerminal

def tell : Failure → m Int
  | .usage message => do
    Surroundings.printError
      ("ifjc: " ++ message ++ "\n" ++ "usage: ifjc [flags] [file.zig|-]\n")
    return Kind.other.exitCode
  | .report color r => do
    Surroundings.printError (r.line (← isColored color))
    return r.kind.exitCode

def printHelp (c : Command) : m Unit := do
  if let .error e ← Surroundings.print c.helpText then
    Surroundings.printError (e ++ "\n")

/-- Compiles a file, or the standard input if none is named. -/
def runRoot (flags : Flags) (operands : List Bytes) : m (Except Failure Unit) := do
  match ← Compiler.setUp flags with
  | .error f => return .error f
  | .ok c =>
    return (← c.compileFile (operands.headD "-")).mapError (.report c.config.color)

def runClean (flags : Flags) : m (Except Failure Unit) := do
  let failure (message : Bytes) : Failure :=
    .report (Compiler.askedColor flags) (Compiler.trouble message)
  match ← Config.find flags.config with
  | .error f => return .error (failure f.message)
  | .ok config =>
    let cache : Cache := ⟨config.cacheDirectory, config.maxAge⟩
    match ← cache.clean with
    | .error e => return .error (failure (Cache.failureText e))
    | .ok n =>
      let _ ← Surroundings.print
        ("removed " ++ Bytes.ofNat n ++ " expired entries from " ++ cache.directory ++ "\n")
      return .ok ()

/-- Sets up a compiler for a file that is watched. The directory of the file has
to exist. -/
def runWatch (flags : Flags) (operands : List Bytes) : m (Except Failure Ending) := do
  match ← Compiler.setUp flags with
  | .error f => return .error f
  | .ok c =>
    let file := Path.clean (operands.headD [])
    match ← Surroundings.stat (Path.parent file) with
    | .error e =>
      return .error (.report c.config.color (Compiler.trouble ("watch: " ++ e.reason.text)))
    | .ok _ => return .ok (.watch c (← isColored c.config.color) file)

def perform (c : Command) (flags : Flags) (operands : List Bytes) : m (Except Failure Ending) := do
  let done (result : Except Failure Unit) : Except Failure Ending :=
    result.map fun () => .exit 0
  match c with
  | .root => return done (← runRoot flags operands)
  | .clean => return done (← runClean flags)
  | .watch => runWatch flags operands
  | .version =>
    let _ ← Surroundings.print ("ifjc version " ++ Compiler.version ++ "\n")
    return .ok (.exit 0)
  | .help =>
    printHelp (find operands).1
    return .ok (.exit 0)
  | .cache | .completion =>
    printHelp c
    return .ok (.exit 0)

/-- Runs a command with its arguments. Help goes before a look at the operands. -/
def runCommand (c : Command) (args : List Bytes) : m (Except Failure Ending) := do
  match Flags.read args with
  | .error f => return .error (.usage f.message)
  | .ok (flags, operands) =>
    if flags.help || !c.isRunnable then
      printHelp c
      return .ok (.exit 0)
    match c.operandFault? operands with
    | some f => return .error (.usage f.message)
    | none => c.perform flags operands

def run (args : List Bytes) : m Ending := do
  let (c, rest) := find args
  match ← runCommand c rest with
  | .ok ending => return ending
  | .error f => return .exit (← tell f)

end

end Ifj24.Command
