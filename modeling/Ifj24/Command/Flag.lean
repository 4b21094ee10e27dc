import Ifj24.Text.Quoted

/-!
The flags of the command line.
-/

namespace Ifj24

inductive Flag where
  | astFormat
  | color
  | config
  | emit
  | help
  | noCache
  | output
  | trace
  deriving DecidableEq, Repr

namespace Flag

def shared : List Flag := [.astFormat, .color, .config, .emit, .noCache, .output, .trace]

def all : List Flag := [.astFormat, .color, .config, .emit, .help, .noCache, .output, .trace]

def name : Flag → Bytes
  | .astFormat => "ast-format"
  | .color => "color"
  | .config => "config"
  | .emit => "emit"
  | .help => "help"
  | .noCache => "no-cache"
  | .output => "output"
  | .trace => "trace"

def letter? : Flag → Option UInt8
  | .help => some (Bytes.ascii 'h')
  | .output => some (Bytes.ascii 'o')
  | _ => none

def isSwitch : Flag → Bool
  | .help | .noCache | .trace => true
  | _ => false

def ofName? (flags : List Flag) (name : Bytes) : Option Flag := flags.find? fun f => f.name == name

def ofLetter? (flags : List Flag) (letter : UInt8) : Option Flag :=
  flags.find? fun f => f.letter? == some letter

def shown (f : Flag) : Bytes :=
  match f.letter? with
  | some letter => "-" ++ [letter] ++ ", --" ++ f.name
  | none => "--" ++ f.name

end Flag

inductive FlagFault where
  | badForm (arg : Bytes)
  | unknown (name : Bytes)
  | unknownLetter (letters : Bytes)
  | noValue (arg : Bytes)
  | noLetterValue (letters : Bytes)
  | noTruth (flag : Flag) (value : Bytes)
  deriving DecidableEq, Repr

namespace FlagFault

/-- The first of some letters in quotes, and all of them. -/
def shownLetters (letters : Bytes) : Bytes :=
  (letters.head?.map fun b => Text.quotedChar (Char.ofNat b.toNat)).getD [] ++ " in -" ++ letters

def message : FlagFault → Bytes
  | .badForm arg => "bad flag syntax: " ++ arg
  | .unknown name => "unknown flag: --" ++ name
  | .unknownLetter letters => "unknown shorthand flag: " ++ shownLetters letters
  | .noValue arg => "flag needs an argument: " ++ arg
  | .noLetterValue letters => "flag needs an argument: " ++ shownLetters letters
  | .noTruth flag value =>
    "invalid argument " ++ Text.quoted value ++ " for " ++ Text.quoted flag.shown ++
      " flag: strconv.ParseBool: parsing " ++ Text.quoted value ++ ": invalid syntax"

end FlagFault

structure Flags where
  astFormat : Option Bytes
  color : Option Bytes
  config : Bytes
  emit : Option Bytes
  help : Bool
  noCache : Bool
  output : Bytes
  trace : Bool
  deriving DecidableEq, Repr

namespace Flags

def none : Flags :=
  { astFormat := .none
    color := .none
    config := []
    emit := .none
    help := false
    noCache := false
    output := []
    trace := false }

def truths : List (Bytes × Bool) :=
  [("1", true), ("t", true), ("T", true), ("TRUE", true), ("true", true), ("True", true),
   ("0", false), ("f", false), ("F", false), ("FALSE", false), ("false", false), ("False", false)]

def truth (flag : Flag) (value : Bytes) : Except FlagFault Bool :=
  match truths.lookup value with
  | some b => .ok b
  | .none => .error (.noTruth flag value)

def set (v : Flags) (flag : Flag) (value : Bytes) : Except FlagFault Flags :=
  match flag with
  | .astFormat => .ok { v with astFormat := some value }
  | .color => .ok { v with color := some value }
  | .config => .ok { v with config := value }
  | .emit => .ok { v with emit := some value }
  | .help => do return { v with help := ← truth flag value }
  | .noCache => do return { v with noCache := ← truth flag value }
  | .output => .ok { v with output := value }
  | .trace => do return { v with trace := ← truth flag value }

/-- A flag whose value is the next argument, and the fault if there is none. -/
structure Awaited where
  flag : Flag
  fault : FlagFault

/-- A name and the value that follows an equals sign. -/
def splitValue (arg : Bytes) : Bytes × Option Bytes :=
  match arg.dropWhile (· != Bytes.ascii '=') with
  | [] => (arg, .none)
  | _ :: value => (arg.takeWhile (· != Bytes.ascii '='), some value)

/-- Takes an argument that starts with two dashes, with what follows them. -/
def takeLong (v : Flags) (rest : Bytes) : Except FlagFault (Flags × Option Awaited) := do
  let arg : Bytes := "--" ++ rest
  if rest.head? = some (Bytes.ascii '-') ∨ rest.head? = some (Bytes.ascii '=') then
    throw (.badForm arg)
  let (name, value?) := splitValue rest
  match Flag.ofName? Flag.all name, value? with
  | .none, _ => throw (.unknown name)
  | some flag, some value => return (← v.set flag value, .none)
  | some flag, .none =>
    if flag.isSwitch then return (← v.set flag "true", .none)
    else return (v, some ⟨flag, .noValue arg⟩)

/-- Takes the letters after one dash. Letters that start with `test.` are passed
over. -/
def takeLetters (v : Flags) : Bytes → Except FlagFault (Flags × Option Awaited)
  | [] => .ok (v, .none)
  | letter :: rest => do
    if Bytes.startsWith (letter :: rest) "test." then return (v, .none)
    match Flag.ofLetter? Flag.all letter with
    | .none => throw (.unknownLetter (letter :: rest))
    | some flag =>
      if rest.head? = some (Bytes.ascii '=') ∧ 1 < rest.length then
        return (← v.set flag rest.tail, .none)
      else if flag.isSwitch then takeLetters (← v.set flag "true") rest
      else if rest.isEmpty then return (v, some ⟨flag, .noLetterValue [letter]⟩)
      else return (← v.set flag rest, .none)

/-- Takes the flags out of arguments. What is left are the operands; after two
dashes there are only operands. -/
def takeFrom (awaited : Option Awaited) (v : Flags) :
    List Bytes → Except FlagFault (Flags × List Bytes)
  | [] =>
    match awaited with
    | some a => .error a.fault
    | .none => .ok (v, [])
  | arg :: rest => do
    match awaited with
    | some a => takeFrom .none (← v.set a.flag arg) rest
    | .none =>
      if arg = Bytes.ofString "--" then return (v, rest)
      else if arg.startsWith "--" then
        let (v, awaited) ← v.takeLong (arg.drop 2)
        takeFrom awaited v rest
      else if arg.startsWith "-" ∧ 1 < arg.length then
        let (v, awaited) ← v.takeLetters (arg.drop 1)
        takeFrom awaited v rest
      else
        let (v, operands) ← takeFrom .none v rest
        return (v, arg :: operands)

def read (args : List Bytes) : Except FlagFault (Flags × List Bytes) := takeFrom .none none args

end Flags

end Ifj24
