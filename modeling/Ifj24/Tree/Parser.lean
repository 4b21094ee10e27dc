import Ifj24.Tree.Header
import Ifj24.Tree.Precedence

/-!
The second pass over a source: recursive descent through the grammar. Names are
resolved while they are read, and a scope is closed at its brace; expressions and
comparisons are left to the precedence automaton. The first failure ends the
parse, and the table is left as it was then. A variable that breaks a rule of use
is no failure here: the first one is kept for the caller.
-/

namespace Ifj24.Tree

structure ParserState where
  /-- The tokens from the current one on. -/
  rest : List Token
  table : Table
  unused : Option Diagnostic

/-- Parsers that keep their state when they fail. -/
abbrev Parser := EStateM Diagnostic ParserState

namespace Parser

variable (last : Token)

def peek : Parser Token := return (← get).rest.headD last

/-- The kind of the token `n` places after the current one. -/
def peekKind (n : Nat) : Parser TokenKind := return ((← get).rest.getD n last).kind

/-- Moves to the next token; the last one is never passed. -/
def advance : Parser Unit :=
  modify fun s => { s with
    rest := match s.rest with
      | _ :: next :: more => next :: more
      | rest => rest }

/-- Consumes a token of the given kind, if it is the current one. -/
def got (kind : TokenKind) : Parser Bool := do
  if (← peek last).kind = kind then
    advance
    return true
  else return false

/-- Fails for want of something else than the current token. -/
def fail {α : Type} (what : Expectation) : Parser α := do
  let found ← peek last
  throw ⟨found.pos, .expected found what⟩

def want (kind : TokenKind) : Parser Unit := do
  unless ← got last kind do fail last (.token kind)

def name : Parser Token := do
  let found ← peek last
  if found.kind = .name then
    advance
    return found
  else fail last .identifier

def typeName : Parser DataType := do
  match dataType? (← peek last).kind with
  | some type =>
    advance
    return type
  | none => fail last .type

def find (token : Token) : Parser VarRef := do
  let s ← get
  match s.table.find? token.literal with
  | some (r, table) =>
    set { s with table }
    return r
  | none => throw ⟨token.pos, .undefined token.literal⟩

def modifyTable (f : Table → Table) : Parser Unit :=
  modify fun s => { s with table := f s.table }

def declare (token : Token) (type : DataType) (mutable_ : Bool) (nullable : Nullability) :
    Parser VarRef := do
  let s ← get
  match s.table.declare token.literal type mutable_ nullable token.pos with
  | .ok r table =>
    set { s with table }
    return r
  | .error d table =>
    set { s with table }
    throw d

def enter (kind : ScopeKind) (comment : Bytes) : Parser Unit :=
  modifyTable (·.enter kind comment)

/-- Closes the innermost scope and keeps the first broken rule of use. -/
def exitScope : Parser Scope := do
  let s ← get
  let closed := s.table.exit
  set { s with table := closed.table, unused := s.unused.or closed.unused }
  return closed.scope

def analyze {α : Type} (reader : List Token → Token → Table → Analysis α) : Parser α := do
  let s ← get
  let analysis := reader s.rest last s.table
  match analysis.result with
  | .ok x =>
    set { s with table := analysis.state.table, rest := analysis.state.pending }
    return x
  | .error d =>
    set { s with table := analysis.state.table }
    throw d

/-- Parses an argument: an identifier, a literal or null. -/
def argument : Parser Expr := do
  let token ← peek last
  match token.kind with
  | .name =>
    let r ← find token
    advance
    return .variable ⟨token.pos, r⟩
  | .int =>
    advance
    return .value (.ofLiteral token.pos .i32 token.literal)
  | .float =>
    advance
    return .value (.ofLiteral token.pos .f64 token.literal)
  | .string =>
    advance
    return .value (.ofLiteral token.pos .u8 token.literal)
  | .kwNull =>
    advance
    return .value (.ofNull token.pos)
  | _ => fail last .argument

/-- Parses arguments up to the closing parenthesis; a comma may follow the last
one. -/
def arguments : Nat → Parser (List Expr)
  | 0 => throw (.nowhere .parserStuck)
  | fuel + 1 => do
    if (← peek last).kind = .rparen then return []
    let x ← argument last
    if ← got last .comma then return x :: (← arguments fuel)
    else return [x]

/-- More fuel than there are tokens left. -/
def fuel : Parser Nat := return (← get).rest.length + 1

/-- Parses the name of a called function, with `ifj.` if it is a built-in. -/
def calledName : Parser Bytes := do
  if ← got last .kwIfj then
    want last .dot
    return FuncDef.builtinStart ++ (← name last).literal
  else return (← name last).literal

def call : Parser Call := do
  let pos := (← peek last).pos
  let name ← calledName last
  want last .lparen
  let args ← arguments last (← fuel)
  want last .rparen
  return ⟨pos, name, args, none⟩

def rhs : Parser Expr := do
  let kind ← peekKind last 0
  if kind = .kwIfj ∨ kind = .name ∧ (← peekKind last 1) = .lparen then
    return .call (← call last)
  else return .expression (← analyze last analyzeExpression)

def declaredType : Parser (DataType × Nullability) := do
  if ← got last .colon then
    let nullable ← got last .question
    return (← typeName last, .ofBool nullable)
  else return (.unresolved, .unknown)

/-- Parses `const` or `var`, a name, and its initial value. The name is declared
last, so that the value sees outer variables of that name. -/
def declaration : Parser Stmt := do
  let start ← peek last
  advance
  let token ← name last
  let (type, nullable) ← declaredType last
  want last .assign
  let value ← rhs last
  want last .semi
  let r ← declare token type (start.kind = .kwVar) nullable
  return .declare start.pos r value

def target : Parser VarRef := do
  if ← got last .discard then return Table.discard
  else
    let r ← find (← name last)
    modifyTable (·.modify r fun v => { v with modified := true })
    return r

def assignment : Parser Stmt := do
  let pos := (← peek last).pos
  let r ← target last
  want last .assign
  let value ← rhs last
  want last .semi
  return .assign pos r value

def callStmt : Parser Stmt := do
  let c ← call last
  want last .semi
  return .call c

def returnStmt : Parser Stmt := do
  let pos := (← peek last).pos
  advance
  if (← peek last).kind = .semi then
    want last .semi
    return .return pos none
  else
    let value ← rhs last
    want last .semi
    return .return pos (some value)

/-- Parses the parenthesised guard of a branch or a loop and opens the scope of
its body, in which an unwrapping guard declares its name. -/
def guard (kind : ScopeKind) (comment : Bytes) : Parser Guard := do
  if (← peek last).kind ≠ .lparen then fail last (.token .lparen)
  if (← peekKind last 1) = .name ∧ (← peekKind last 2) = .rparen ∧ (← peekKind last 3) = .pipe then
    advance
    let token ← name last
    let r ← find token
    advance
    advance
    let bound ← name last
    want last .pipe
    enter kind comment
    let binding ← declare bound .unresolved false .no
    return .unwrap ⟨token.pos, r⟩ binding
  else
    advance
    let t ← analyze last analyzeCondition
    want last .rparen
    enter kind comment
    return .compare t

mutual

def stmt : Nat → Parser Stmt
  | 0 => throw (.nowhere .parserStuck)
  | fuel + 1 => do
    match (← peek last).kind with
    | .kwConst | .kwVar => declaration last
    | .discard => assignment last
    | .name => if (← peekKind last 1) = .assign then assignment last else callStmt last
    | .kwIfj => callStmt last
    | .kwIf =>
      let pos := (← peek last).pos
      advance
      let guard ← guard last .branch "if"
      let yes ← block fuel
      return .ifElse pos guard yes (← elseBranch fuel)
    | .kwWhile =>
      let pos := (← peek last).pos
      advance
      let guard ← guard last .loop "while"
      return .while pos guard (← block fuel)
    | .kwReturn => returnStmt last
    | _ => fail last .statement

def elseBranch : Nat → Parser (Option Else)
  | 0 => throw (.nowhere .parserStuck)
  | fuel + 1 => do
    let pos := (← peek last).pos
    if ← got last .kwElse then
      enter .branch "else"
      return some ⟨pos, ← block fuel⟩
    else return none

/-- Parses a block whose scope is open, and closes that scope. -/
def block : Nat → Parser Block
  | 0 => throw (.nowhere .parserStuck)
  | fuel + 1 => do
    let pos := (← peek last).pos
    want last .lbrace
    let stmts ← stmts fuel
    let stop := (← peek last).pos
    want last .rbrace
    return ⟨pos, stmts, stop, ← exitScope⟩

def stmts : Nat → Parser (List Stmt)
  | 0 => throw (.nowhere .parserStuck)
  | fuel + 1 => do
    let kind := (← peek last).kind
    if kind = .rbrace ∨ kind = .eof then return []
    else
      let s ← stmt fuel
      return s :: (← stmts fuel)

end

/-- Parses parameters up to the closing parenthesis and declares them with the
types that the first pass has read. -/
def params (definition : FuncDef) : Nat → List Param → Parser (List VarRef)
  | 0, _ => throw (.nowhere .parserStuck)
  | fuel + 1, expected => do
    if (← peek last).kind = .rparen then return []
    let token ← name last
    want last .colon
    let _ ← got last .question
    let _ ← typeName last
    let param :: more := expected | throw (.nowhere (.missingParameter definition.name))
    let r ← declare token param.type false (.ofBool param.nullable)
    modifyTable (·.modify r fun v => { v with param := true })
    if ← got last .comma then return r :: (← params definition fuel more)
    else return [r]

/-- Passes over the tokens before the next opening brace. -/
def skipToBody : Parser Unit :=
  modify fun s => { s with
    rest := s.rest.dropWhile fun t => t.kind != .lbrace && t.kind != .eof }

/-- Parses a function, whose signature is known from the first pass. -/
def function : Parser Function := do
  let pos := (← peek last).pos
  want last .kwPub
  want last .kwFn
  let token ← name last
  let some definition := (← get).table.lookupFunction? token.literal
    | throw (.nowhere (.unregistered token.literal))
  enter .function token.literal
  want last .lparen
  let params ← params last definition (← fuel) definition.params
  want last .rparen
  skipToBody
  -- Four calls open a nesting level, and a level takes more than four tokens.
  let body ← block last ((← fuel) + 4)
  return ⟨pos, token.literal, definition, params, body⟩

def functions : Nat → Parser (List Function)
  | 0 => throw (.nowhere .parserStuck)
  | fuel + 1 => do
    if (← peek last).kind = .kwPub then
      let f ← function last
      return f :: (← functions fuel)
    else return []

def prolog : Parser Bytes := do
  [TokenKind.kwConst, .kwIfj, .assign, .at, .kwImport, .lparen].forM (want last)
  let path ← peek last
  if path.kind ≠ .string then fail last .importPath
  if path.literal ≠ Cause.importPath then throw ⟨path.pos, .unknownImport path.literal⟩
  advance
  want last .rparen
  want last .semi
  return path.literal

def program : Parser Program := do
  let pos := (← peek last).pos
  let importPath ← prolog last
  let functions ← functions last (← fuel)
  if (← peek last).kind ≠ .eof then fail last .function
  return ⟨pos, importPath, functions⟩

end Parser

/-- A parsed source. `unused` is the first broken rule of use. -/
structure Parsed where
  program : Program
  unused : Option Diagnostic

def parse (b : TokenBuffer) : EStateM Diagnostic Table Parsed := do
  collectFunctions b
  match (Parser.program b.last).run ⟨b.items, ← get, none⟩ with
  | .ok program s =>
    set s.table
    return ⟨program, s.unused⟩
  | .error d s =>
    set s.table
    throw d

end Ifj24.Tree
