import Ifj24.Command.Selection

/-!
The help texts of the commands.
-/

namespace Ifj24.Command

def short : Command → Bytes
  | .root => "ifjc - IFJ24 to IFJcode24 compiler"
  | .cache => "Manage the output cache"
  | .clean => "Remove cache entries older than cache.max_age"
  | .completion => "Generate the autocompletion script for the specified shell"
  | .help => "Help about any command"
  | .version => "Print the compiler version"
  | .watch => "Recompile a file whenever it changes"

def long : Command → Bytes
  | .root =>
    "ifjc compiles an IFJ24 program into IFJcode24.\n" ++
    "\n" ++
    "The program is read from the named file, or from standard input when the\n" ++
    "file is omitted or \"-\". The exit code is 0 on success and otherwise the\n" ++
    "code of the first error:\n" ++
    "\n" ++
    "  1  lexical error            6  bad function return\n" ++
    "  2  syntax error             7  incompatible types\n" ++
    "  3  undefined identifier     8  unknown type\n" ++
    "  4  invalid parameter        9  unused variable\n" ++
    "  5  redefinition            10  other semantic error\n" ++
    " 99  internal error"
  | .completion =>
    "Generate the autocompletion script for ifjc for the specified shell.\n" ++
    "See each sub-command's help for details on how to use the generated script."
  | .help =>
    "Help provides help for any command in the application.\n" ++
    "Simply type ifjc help [path to command] for full details."
  | .watch =>
    "watch compiles the file once and again after every change until\n" ++
    "interrupted. Errors are reported but do not stop watching."
  | c => c.short

def usageLine (c : Command) : Bytes :=
  let operands : Bytes := match c with
    | .root => " [file.zig|-]"
    | .watch => " file.zig"
    | .help => " [command]"
    | _ => []
  c.path ++ operands ++ " [flags]"

/-- The names and descriptions of what can follow the name of a command. -/
def listing : Command → List (Bytes × Bytes)
  | .completion =>
    (["bash", "fish", "powershell", "zsh"] : List Bytes).map fun shell =>
      (shell, "Generate the autocompletion script for " ++ shell)
  | c => c.children.map fun d => (d.name, d.short)

def padTo (width : Nat) (text : Bytes) : Bytes := text ++ Bytes.spaces (width - text.length)

def describe (c : Command) : Flag → Bytes
  | .astFormat => "AST format: text, json or yaml"
  | .color => "colored diagnostics: auto, always or never"
  | .config => "config file (default: $IFJC_CONFIG or ./ifjc.toml)"
  | .emit => "output: tokens, ast or code"
  | .help => "help for " ++ c.name
  | .noCache => "do not read or write the output cache"
  | .output => "output file (default: stdout)"
  | .trace => "log phase timings to stderr"

/-- A flag with its letter and the kind of its value. -/
def flagColumn (f : Flag) : Bytes :=
  let letter : Bytes := match f.letter? with
    | some l => "  -" ++ [l] ++ ", --"
    | none => "      --"
  letter ++ f.name ++ (if f.isSwitch then [] else " string")

def flagLines (c : Command) (flags : List Flag) : Bytes :=
  let width := (flags.map fun f => (flagColumn f).length).foldl max 0
  flags.flatMap fun f => padTo width (flagColumn f) ++ "   " ++ c.describe f ++ "\n"

def nameWidth : Nat := 11

def usageText (c : Command) : Bytes :=
  let usage : Bytes := if c.isRunnable then "\n  " ++ c.usageLine else []
  let further : Bytes := if c.listing.isEmpty then [] else "\n  " ++ c.path ++ " [command]"
  let entry (e : Bytes × Bytes) : Bytes := "\n  " ++ padTo nameWidth e.1 ++ " " ++ e.2
  let commands : Bytes :=
    if c.listing.isEmpty then []
    else "\n\nAvailable Commands:" ++ (c.listing.flatMap entry : Bytes)
  let flags : Bytes :=
    if c = .root then "\n\nFlags:\n" ++ c.flagLines Flag.all
    else "\n\nFlags:\n" ++ c.flagLines [.help] ++ "\nGlobal Flags:\n" ++ c.flagLines Flag.shared
  let more : Bytes :=
    if c.listing.isEmpty then []
    else "\nUse \"" ++ c.path ++ " [command] --help\" for more information about a command.\n"
  "Usage:" ++ usage ++ further ++ commands ++ flags ++ more

def helpText (c : Command) : Bytes := c.long ++ "\n\n" ++ c.usageText

end Ifj24.Command
