import Ifj24.Code.Lowering

/-!
Whole programs in IFJcode24: a prologue that calls `main`, the functions of the
program, and the built-in functions that these call.
-/

namespace Ifj24.Code

def prologue : List Line :=
  [.header, .instr (.defVar .discard), .instr (.call (.function "main")),
    .instr (.exit (.constant (.int 0)))]

/-- A function set off by a blank line and, if wanted, a comment. -/
def section_ (comments : Bool) (comment : Bytes) (code : List Instr) : List Line :=
  [.blank] ++ (if comments then [.comment comment] else []) ++ code.map .instr

/-- The built-in functions that some instruction calls, in the order of the
catalog. -/
def calledBuiltins (code : List Instr) : List Builtin :=
  Builtin.all.filter fun b => code.contains (.call (.builtin b))

def builtinSection (comments : Bool) (b : Builtin) : List Line :=
  section_ comments (FuncDef.builtinStart ++ b.name) (.label (.builtin b) :: b.body)

structure Generated where
  lines : List Line
  labels : Nat
  failure : Option Diagnostic

namespace Generated

def text (g : Generated) : List Bytes := g.lines.map fun l => l.text ++ "\n"

def summary (g : Generated) : Bytes :=
  "generated " ++ Bytes.ofNat (g.lines.countP Line.isCounted) ++ " instructions, " ++
    Bytes.ofNat g.labels ++ " labels"

end Generated

def generate (comments : Bool) (t : Table) (p : Tree.Program) : Generated :=
  let (functions, s) := (lowerFunctions t p.functions).run ⟨0, none⟩
  let user := functions.flatMap fun (f, code) =>
    section_ comments f.definition.signature code
  let builtins := calledBuiltins (functions.flatMap Prod.snd)
  { lines := prologue ++ user ++ builtins.flatMap (builtinSection comments)
    labels := s.labels
    failure := s.failure }

end Ifj24.Code
