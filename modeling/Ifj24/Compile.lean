import Ifj24.Code.Generate
import Ifj24.Data.Json
import Ifj24.Data.Yaml
import Ifj24.Tree.Dump
import Ifj24.Typing.Statement

/-!
Compilations of one source: reading tokens, parsing, checking and generating
code, or stopping earlier to show the tokens or the tree.
-/

namespace Ifj24

inductive Emit where
  | tokens
  | ast
  | code
  deriving DecidableEq, Repr

inductive AstFormat where
  | text
  | json
  | yaml
  deriving DecidableEq, Repr

structure Options where
  emit : Emit
  format : AstFormat
  /-- Whether a variable that is never modified has to be a constant. -/
  strict : Bool
  comments : Bool
  deriving DecidableEq, Repr

/-- The outcome of a step, with the messages that it left on its way. -/
structure Traced (α : Type) where
  messages : List Bytes
  result : Except Diagnostic α

namespace Traced

def ok {α : Type} (a : α) : Traced α := ⟨[], .ok a⟩

/-- Goes on with the result unless there is none. -/
def bind {α β : Type} (x : Traced α) (f : α → Traced β) : Traced β :=
  match x.result with
  | .error d => ⟨x.messages, .error d⟩
  | .ok a => ⟨x.messages ++ (f a).messages, (f a).result⟩

instance : Monad Traced where
  pure := ok
  bind := bind

/-- A phase tells its name when it has ended, also if it failed. -/
def phase {α : Type} (name : Bytes) (x : Traced α) : Traced α :=
  { x with messages := x.messages ++ [name] }

end Traced

structure CheckedProgram where
  program : Tree.Program
  table : Table

namespace Compile

def readTokens (file source : Bytes) : Traced (List Token) :=
  ⟨[], (tokenize file source).mapError .ofLexical⟩

def parseTokens (strict : Bool) (tokens : List Token) : Traced (Tree.Parsed × Table) :=
  match (Tree.parse (.ofTokens tokens)).run (.fresh .fnv1a strict) with
  | .ok parsed table => .ok (parsed, table)
  | .error d _ => ⟨[], .error d⟩

def checkTree (parsed : Tree.Parsed) (table : Table) : Traced CheckedProgram :=
  let c := Typing.check parsed table
  match c.failure with
  | some d => ⟨c.trace, .error d⟩
  | none => ⟨c.trace, .ok ⟨c.program, c.table⟩⟩

def generateCode (comments : Bool) (c : CheckedProgram) : Traced Bytes :=
  let g := Code.generate comments c.table c.program
  match g.failure with
  | some d => ⟨[], .error d⟩
  | none => ⟨[g.summary], .ok g.text.flatten⟩

def frontEnd (strict : Bool) (file source : Bytes) : Traced CheckedProgram := do
  let tokens ← Traced.phase "tokenize" (readTokens file source)
  let (parsed, table) ← Traced.phase "parse" (parseTokens strict tokens)
  Traced.phase "check" (checkTree parsed table)

def code (o : Options) (file source : Bytes) : Traced Bytes := do
  let checked ← frontEnd o.strict file source
  Traced.phase "codegen" (generateCode o.comments checked)

def treeText (format : AstFormat) (c : CheckedProgram) : Bytes :=
  match format with
  | .text => Tree.Print.program c.table c.program
  | .json => (Tree.Dump.program c.table c.program).json
  | .yaml => (Tree.Dump.program c.table c.program).yaml

end Compile

def compile (o : Options) (file source : Bytes) : Traced Bytes :=
  match o.emit with
  | .tokens => do return Token.listing (← Compile.readTokens file source)
  | .ast => do return Compile.treeText o.format (← Compile.frontEnd o.strict file source)
  | .code => Compile.code o file source

end Ifj24
