import Ifj24.Config.Choice
import Ifj24.Duration
import Ifj24.Files.Access
import Ifj24.Text.Variables
import Ifj24.Toml.Read
import Ifj24.Version

/-!
The configuration of the compiler. It comes from a file, in which every setting
may be left out.
-/

namespace Ifj24

structure Config where
  /-- The file that it was read from; empty if there is none. -/
  path : Bytes
  /-- The oldest version of the compiler that will do; empty if any does. -/
  minVersion : Bytes
  options : Options
  color : ColorMode
  cacheEnabled : Bool
  cacheDirectory : Bytes
  maxAge : Duration
  deriving Repr

namespace Config

inductive Fault where
  | notFound (path : Bytes)
  | unreadable (e : FileError)
  | malformed (f : Toml.Fault)
  | mistyped (key : Toml.Key)
  | unknownKey (path : Bytes) (key : Toml.Key)
  | choice (path : Bytes) (f : ChoiceFault)
  | version (path : Bytes) (f : Version.Fault)
  | negativeAge (path : Bytes)

def Fault.message : Fault → Bytes
  | .notFound path => "config file not found: " ++ path
  | .unreadable e => "failed to parse config: " ++ e.text
  | .malformed f => "failed to parse config: toml: " ++ f.message
  | .mistyped key => "failed to parse config: toml: incompatible types for " ++ key.text
  | .unknownKey path key => path ++ ": unknown key " ++ key.text
  | .choice path f => path ++ ": " ++ f.message
  | .version path f => path ++ ": compile.min_version: " ++ f.message
  | .negativeAge path => path ++ ": cache.max_age must not be negative"

/-- What a file says. An empty text and an age of zero say nothing. -/
structure Settings where
  strict : Option Bool
  minVersion : Bytes
  emit : Bytes
  format : Bytes
  comments : Bool
  color : Bytes
  cacheEnabled : Option Bool
  cacheDirectory : Bytes
  maxAge : Duration
  deriving Repr

def Settings.none : Settings := ⟨.none, [], [], [], false, [], .none, [], (0 : Int)⟩

/-- A setting takes its value from a file, unless that is of another kind. -/
abbrev Setter := Toml.Value → Settings → Option Settings

def boolSetter (set : Bool → Settings → Settings) : Setter
  | .bool b, s => some (set b s)
  | _, _ => none

def textSetter (set : Bytes → Settings → Settings) : Setter
  | .string text, s => some (set text s)
  | _, _ => none

/-- A duration is a text; a number is read as one. -/
def durationSetter (set : Duration → Settings → Settings) : Setter
  | .string text, s => (Duration.read? text).map (set · s)
  | .integer n, s => (Duration.read? (Bytes.ofInt n)).map (set · s)
  | _, _ => none

def sections : List (Bytes × List (Bytes × Setter)) :=
  [("compile",
      [("strict_mutability", boolSetter fun b s => { s with strict := some b }),
       ("min_version", textSetter fun t s => { s with minVersion := t })]),
   ("output",
      [("emit", textSetter fun t s => { s with emit := t }),
       ("ast_format", textSetter fun t s => { s with format := t }),
       ("comments", boolSetter fun b s => { s with comments := b }),
       ("color", textSetter fun t s => { s with color := t })]),
   ("cache",
      [("enabled", boolSetter fun b s => { s with cacheEnabled := some b }),
       ("dir", textSetter fun t s => { s with cacheDirectory := t }),
       ("max_age", durationSetter fun d s => { s with maxAge := d })])]

/-- The text in small letters. Besides the capital letters, the long s and the
kelvin sign have a small letter of ASCII. -/
def folded : Bytes → Bytes
  | 0xC5 :: 0xBF :: rest => Bytes.ascii 's' :: folded rest
  | 0xE2 :: 0x84 :: 0xAA :: rest => Bytes.ascii 'k' :: folded rest
  | b :: rest => Number.lower b :: folded rest
  | [] => []

/-- What a key names: the case of its letters counts only if it has to. -/
def named? {α : Type} (names : List (Bytes × α)) (key : Bytes) : Option α :=
  names.lookup key <|>
    (names.find? fun (name, _) => folded name == folded key).map Prod.snd

def readSection (section_ : Bytes) (setters : List (Bytes × Setter)) (s : Settings)
    (f : Field Toml.Value) : Except Fault Settings :=
  match named? setters f.key with
  | none => .ok s
  | some set =>
    match set f.value s with
    | some s => .ok s
    | none => .error (.mistyped [section_, f.key])

def readTable (s : Settings) (f : Field Toml.Value) : Except Fault Settings :=
  match named? sections f.key with
  | none => .ok s
  | some setters =>
    match f.value with
    | .table entries => entries.foldlM (readSection f.key setters) s
    | _ => .error (.mistyped [f.key])

def isKnown : Toml.Key → Bool
  | [section_] => (named? sections section_).isSome
  | [section_, key] => ((named? sections section_).bind (named? · key)).isSome
  | _ => false

/-- What a document says; the first key that means nothing is a fault. -/
def settings (path : Bytes) (d : Toml.Document) : Except Fault Settings := do
  let s ← d.root.foldlM readTable Settings.none
  match d.order.find? (!isKnown ·) with
  | some key => throw (.unknownKey path key)
  | none => return s

def orElse (text default : Bytes) : Bytes := if text.isEmpty then default else text

/-- The configuration that settings give, with `directory` for the cache if they
name none. -/
def ofSettings (path directory : Bytes) (s : Settings) : Except Fault Config := do
  let choose {α : Type} (choices : Choices α) (setting word : Bytes) : Except Fault α :=
    (choices.read setting word).mapError (.choice path)
  let emit ← choose Emit.choices "output.emit" (orElse s.emit "code")
  let format ← choose AstFormat.choices "output.ast_format" (orElse s.format "text")
  let color ← choose ColorMode.choices "output.color" (orElse s.color "auto")
  unless s.minVersion.isEmpty do
    let _ ← (Version.read s.minVersion).mapError (Fault.version path)
  let maxAge : Duration := if s.maxAge = (0 : Int) then Duration.hours 168 else s.maxAge
  if maxAge < (0 : Int) then throw (.negativeAge path)
  return {
    path
    minVersion := s.minVersion
    options := { emit, format, strict := s.strict.getD true, comments := s.comments }
    color
    cacheEnabled := s.cacheEnabled.getD true
    cacheDirectory := orElse s.cacheDirectory directory
    maxAge }

def default (directory : Bytes) : Config :=
  { path := []
    minVersion := []
    options := { emit := .code, format := .text, strict := true, comments := false }
    color := .auto
    cacheEnabled := true
    cacheDirectory := directory
    maxAge := Duration.hours 168 }

/-- The settings that decide which code a source has. -/
def fingerprint (c : Config) : Bytes :=
  let word (b : Bool) : Bytes := if b then "true" else "false"
  "strict=" ++ word c.options.strict ++ " comments=" ++ word c.options.comments

inductive VersionFault where
  | required (f : Version.Fault)
  | actual (version : Bytes) (f : Version.Fault)
  | older (version wanted : Version) (path : Bytes)
  deriving DecidableEq, Repr

def VersionFault.message : VersionFault → Bytes
  | .required f => "compile.min_version: " ++ f.message
  | .actual version f => "compiler version " ++ Text.quoted version ++ ": " ++ f.message
  | .older version wanted path =>
    "ifjc " ++ version.text ++ " is older than min_version " ++ wanted.text ++
      " required by " ++ orElse path "the default configuration"

def checkVersion (c : Config) (version : Bytes) : Except VersionFault Unit := do
  if c.minVersion.isEmpty then return
  let required ← (Version.read c.minVersion).mapError .required
  let actual ← (Version.read version).mapError (.actual version)
  if actual.older required then throw (.older actual required c.path)

section

variable {m : Type → Type} [Monad m] [Surroundings m]

/-- A variable of the environment; one that is not set is empty. -/
def variableText (name : Bytes) : m Bytes := do
  return (← Surroundings.environment name).getD []

/-- A text with the variables of the environment put in. -/
def expand (text : Bytes) : m Bytes := do
  let parts ← (Text.pieces text).mapM fun
    | .literal b => pure [b]
    | .named name => variableText name
  return parts.flatten

/-- Where the cache is unless the configuration says so. -/
def cacheDirectory? : m (Option Bytes) := do
  let caches ← variableText "XDG_CACHE_HOME"
  if !caches.isEmpty then
    return if Path.isRooted caches then some (Path.join [caches, "ifjc"]) else none
  let home ← variableText "HOME"
  return if home.isEmpty then none else some (Path.join [home ++ "/.cache", "ifjc"])

def usualDirectory : m Bytes := do
  return (← cacheDirectory?).getD ".ifjc-cache"

def load (name : Bytes) : m (Except Fault Config) := do
  let path ← expand name
  if let .error e ← Surroundings.stat path then
    if e.reason = .noEntry then return .error (.notFound path)
  match ← Surroundings.readFile path with
  | .error e => return .error (.unreadable e)
  | .ok content =>
    let directory ← usualDirectory
    return do
      let document ← (Toml.read content).mapError .malformed
      ofSettings path directory (← settings path document)

/-- The configuration: from the file that is asked for, from the one that the
environment names, or from the one in the working directory. Without any of them
it is the default. -/
def find (asked : Bytes) : m (Except Fault Config) := do
  if !asked.isEmpty then return ← load asked
  let fromEnvironment ← variableText "IFJC_CONFIG"
  if !fromEnvironment.isEmpty then return ← load fromEnvironment
  match ← Surroundings.stat "ifjc.toml" with
  | .ok _ => load "ifjc.toml"
  | .error _ => return .ok (default (← usualDirectory))

end

end Config

end Ifj24
