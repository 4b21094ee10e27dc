import Ifj24.Cache
import Ifj24.Command.Flag
import Ifj24.Config
import Ifj24.Diagnostic.Report

/-!
A compiler that is set up for one configuration, and its work on one file.
-/

namespace Ifj24

structure Compiler where
  config : Config
  cache : Option Cache
  trace : Bool
  /-- The file that the output goes to; empty for the standard output. -/
  output : Bytes

inductive Failure where
  | usage (message : Bytes)
  | report (color : ColorMode) (r : Report)

namespace Compiler

def version : Bytes := "1.0.0"

def traceLine (message : Bytes) : Bytes := "[trace] " ++ message ++ "\n"

def trouble (message : Bytes) : Report := .classified Pos.none .other message

def askedColor (flags : Flags) : ColorMode :=
  ((flags.color.bind fun word => ColorMode.choices.lookup word)).getD .auto

/-- A choice of the command line, which wins over the one of the configuration. -/
def chosen {α : Type} (choices : Choices α) (flag : Flag) (asked : Option Bytes) (configured : α) :
    Except Failure α :=
  match asked with
  | none => .ok configured
  | some word => (choices.read ("--" ++ flag.name) word).mapError fun f => .usage f.message

def override (flags : Flags) (c : Config) : Except Failure Config := do
  let emit ← chosen Emit.choices .emit flags.emit c.options.emit
  let format ← chosen AstFormat.choices .astFormat flags.astFormat c.options.format
  let color ← chosen ColorMode.choices .color flags.color c.color
  return { c with options := { c.options with emit, format }, color }

def ofConfig (flags : Flags) (c : Config) : Compiler :=
  { config := c
    cache :=
      if c.cacheEnabled && !flags.noCache then some ⟨c.cacheDirectory, c.maxAge⟩ else none
    trace := flags.trace
    output := flags.output }

section

variable {m : Type → Type} [Monad m] [Surroundings m]

def showTrace (c : Compiler) (messages : List Bytes) : m Unit :=
  if c.trace then Surroundings.printError (messages.flatMap traceLine) else pure ()

def setUp (flags : Flags) : m (Except Failure Compiler) := do
  match ← Config.find flags.config with
  | .error f => return .error (.report (askedColor flags) (trouble f.message))
  | .ok config =>
    match config.checkVersion version with
    | .error f => return .error (.report (askedColor flags) (trouble f.message))
    | .ok () =>
      match override flags config with
      | .error f => return .error f
      | .ok config =>
        let c := ofConfig flags config
        unless config.path.isEmpty do
          c.showTrace ["config " ++ config.path]
        return .ok c

/-- The code of a source, from the cache if it is there. What the cache cannot do
is only told. -/
def codeThrough (cache : Cache) (config : Config) (file source : Bytes) : m (Traced Bytes) := do
  let key := CacheKey.of version config.fingerprint source
  let found ← cache.get? key
  if let .ok (some code) := found then
    return ⟨["cache hit " ++ key.text.take 12], .ok code⟩
  let before : List Bytes := match found with
    | .error e => [Cache.failureText e]
    | .ok _ => []
  let compiled := Compile.code config.options file source
  match compiled.result with
  | .error d => return ⟨before ++ compiled.messages, .error d⟩
  | .ok code =>
    let after : List Bytes := match ← cache.put key code with
      | .error e => [Cache.failureText e]
      | .ok () => []
    return ⟨before ++ compiled.messages ++ after, .ok code⟩

/-- What a source gives. Only code goes through the cache. -/
def compile (c : Compiler) (file source : Bytes) : m (Traced Bytes) :=
  match c.config.options.emit, c.cache with
  | .code, some cache => codeThrough cache c.config file source
  | _, _ => return Ifj24.compile c.config.options file source

def readSource (name : Bytes) : m (Except Report (Bytes × Bytes)) := do
  if name = Bytes.ofString "-" then return .ok (← Surroundings.standardInput, "<stdin>")
  match ← Surroundings.readFile name with
  | .error e => return .error (trouble e.text)
  | .ok source => return .ok (source, name)

def writeOutput (c : Compiler) (data : Bytes) : m (Except Report Unit) := do
  if c.output.isEmpty then
    return (← Surroundings.print data).mapError fun e => trouble ("writing output: " ++ e)
  else return (← Surroundings.writeFile c.output data).mapError fun e => trouble e.text

def compileFile (c : Compiler) (name : Bytes) : m (Except Report Unit) := do
  match ← readSource name with
  | .error r => return .error r
  | .ok (source, file) =>
    let out ← c.compile file source
    c.showTrace out.messages
    match out.result with
    | .error d => return .error (.ofDiagnostic d)
    | .ok data => c.writeOutput data

/-- Compiles a file that is being watched. An error is shown and that is all. -/
def rebuild (c : Compiler) (colored : Bool) (name : Bytes) : m Unit := do
  c.showTrace ["build " ++ name]
  if let .error r ← c.compileFile name then
    Surroundings.printError (r.line colored)

end

end Compiler

end Ifj24
