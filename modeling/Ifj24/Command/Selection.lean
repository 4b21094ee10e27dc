import Ifj24.Command.Flag

/-!
The commands, and which of them a command line means.
-/

namespace Ifj24

inductive Command where
  | root
  | cache
  | clean
  | completion
  | help
  | version
  | watch
  deriving DecidableEq, Repr

namespace Command

def name : Command → Bytes
  | .root => "ifjc"
  | .cache => "cache"
  | .clean => "clean"
  | .completion => "completion"
  | .help => "help"
  | .version => "version"
  | .watch => "watch"

/-- The commands under a command, in the order of their names. -/
def children : Command → List Command
  | .root => [.cache, .completion, .help, .version, .watch]
  | .cache => [.clean]
  | _ => []

def path : Command → Bytes
  | .root => "ifjc"
  | .clean => "ifjc cache clean"
  | c => "ifjc " ++ c.name

def isRunnable : Command → Bool
  | .cache | .completion => false
  | _ => true

/-- Whether the argument after this one belongs to it. Only the shared flags are
known before there is a command; any other is taken to have a value. -/
def takesNext (arg : Bytes) : Bool :=
  let isSwitch (flag : Option Flag) : Bool := (flag.map Flag.isSwitch).getD false
  if arg.contains (Bytes.ascii '=') then false
  else if arg.startsWith "--" then !isSwitch (Flag.ofName? Flag.shared (arg.drop 2))
  else
    arg.startsWith "-" && arg.length == 2 &&
      !isSwitch (arg[1]?.bind (Flag.ofLetter? Flag.shared))

/-- The first argument that is no flag and not the value of one, and all the
others. `skip` says that the argument belongs to the one before it. -/
def firstWord? (skip : Bool) : List Bytes → Option (Bytes × List Bytes)
  | [] => none
  | arg :: rest => do
    if skip then
      let (word, rest) ← firstWord? false rest
      return (word, arg :: rest)
    if arg = Bytes.ofString "--" then none
    else if takesNext arg then
      let (word, rest) ← firstWord? true rest
      return (word, arg :: rest)
    else if !arg.isEmpty && !arg.startsWith "-" then some (arg, rest)
    else
      let (word, rest) ← firstWord? false rest
      return (word, arg :: rest)

/-- The command under a command that arguments name, and the arguments without its
name. -/
def select? (c : Command) (args : List Bytes) : Option (Command × List Bytes) := do
  let (word, rest) ← firstWord? false args
  let child ← c.children.find? fun d => d.name == word
  return (child, rest)

/-- The command that arguments name. There are commands of two levels. -/
def find (args : List Bytes) : Command × List Bytes :=
  match root.select? args with
  | none => (.root, args)
  | some (c, rest) => (c.select? rest).getD (c, rest)

inductive OperandFault where
  | unexpected (operand : Bytes) (command : Command)
  | tooMany (limit received : Nat)
  | wrongNumber (expected received : Nat)
  deriving DecidableEq, Repr

def OperandFault.message : OperandFault → Bytes
  | .unexpected operand command =>
    "unknown command " ++ Text.quoted operand ++ " for " ++ Text.quoted command.path
  | .tooMany limit received =>
    "accepts at most " ++ Bytes.ofNat limit ++ " arg(s), received " ++ Bytes.ofNat received
  | .wrongNumber expected received =>
    "accepts " ++ Bytes.ofNat expected ++ " arg(s), received " ++ Bytes.ofNat received

def operandFault? (c : Command) (operands : List Bytes) : Option OperandFault :=
  match c with
  | .root => if operands.length ≤ 1 then none else some (.tooMany 1 operands.length)
  | .watch => if operands.length = 1 then none else some (.wrongNumber 1 operands.length)
  | .help => none
  | _ => operands.head?.map (.unexpected · c)

end Command

end Ifj24
