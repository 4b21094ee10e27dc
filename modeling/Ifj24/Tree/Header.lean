import Ifj24.Token.Buffer
import Ifj24.Symbols.Table

/-!
The first pass over a source: the signature of every function is registered, so
that a call may come before the function it means. Bodies are passed over by
counting braces.
-/

namespace Ifj24.Tree

def dataType? : TokenKind → Option DataType
  | .kwI32 => some .i32
  | .kwF64 => some .f64
  | .kwU8 => some .u8
  | _ => none

/-- Readers of function headers. The state holds the tokens that are left; `last`
is read after all of them. -/
abbrev HeaderReader := StateT (List Token) (Except Diagnostic)

namespace HeaderReader

variable (last : Token)

def peek : HeaderReader Token := return (← get).headD last

def advance : HeaderReader Unit := modify List.tail

def want (kind : TokenKind) : HeaderReader Token := do
  let found ← peek last
  if found.kind = kind then
    advance
    return found
  else throw ⟨found.pos, .headerToken found kind⟩

def valueType : HeaderReader (DataType × Bool) := do
  let nullable := (← peek last).kind = .question
  if nullable then advance
  let found ← peek last
  match dataType? found.kind with
  | some type =>
    advance
    return (type, nullable)
  | none => throw ⟨found.pos, .expected found .type⟩

/-- Reads parameters up to the closing parenthesis; a comma may follow the last
one. More fuel than tokens left is never used up. -/
def params : Nat → HeaderReader (List Param)
  | 0 => return []
  | fuel + 1 => do
    if (← peek last).kind = .rparen then return []
    let name ← want last .name
    let _ ← want last .colon
    let (type, nullable) ← valueType last
    let param : Param := ⟨name.literal, type, nullable⟩
    if (← peek last).kind = .comma then
      advance
      return param :: (← params fuel)
    else return [param]

def resultType : HeaderReader (DataType × Bool) := do
  if (← peek last).kind = .kwVoid then
    advance
    return (.void, false)
  else valueType last

/-- Reads `pub fn name(params) type` up to the body, which must follow. -/
def header : HeaderReader FuncDef := do
  let _ ← want last .kwPub
  let _ ← want last .kwFn
  let name ← want last .name
  let _ ← want last .lparen
  let params ← params last ((← get).length + 1)
  let _ ← want last .rparen
  let (result, nullableResult) ← resultType last
  let found ← peek last
  if found.kind = .lbrace then
    return ⟨name.literal, params, result, nullableResult, false, name.pos⟩
  else throw ⟨found.pos, .headerEnd found⟩

end HeaderReader

/-- A program has a function `main` without parameters and result. -/
def checkMain (last : Token) : EStateM Diagnostic Table Unit := do
  match (← get).lookupFunction? "main" with
  | none => throw ⟨last.pos, .missingMain⟩
  | some main =>
    if !main.params.isEmpty || main.result != .void then throw ⟨main.pos, .badMain⟩

/-- Registers the functions of a token sequence. The first `skip` tokens belong to
a header already read; `depth` counts the open braces. -/
def collectFrom (last : Token) : Nat → Nat → List Token → EStateM Diagnostic Table Unit
  | _, depth, [] => atEnd depth last
  | skip + 1, depth, _ :: rest => collectFrom last skip depth rest
  | 0, depth, token :: rest =>
    match token.kind with
    | .eof => atEnd depth token
    | .lbrace => collectFrom last 0 (depth + 1) rest
    | .rbrace =>
      match depth with
      | 0 => throw ⟨token.pos, .unbalancedBrace⟩
      | depth + 1 => collectFrom last 0 depth rest
    | .kwPub => do
      if 0 < depth then throw ⟨token.pos, .nestedFunction⟩
      match (HeaderReader.header last).run (token :: rest) with
      | .error d => throw d
      | .ok (definition, after) =>
        Table.addFunction definition
        collectFrom last (rest.length - after.length) depth rest
    | _ => collectFrom last 0 depth rest
where
  atEnd (depth : Nat) (found : Token) : EStateM Diagnostic Table Unit :=
    if depth != 0 then throw ⟨found.pos, .expected found (.token .rbrace)⟩
    else checkMain last

def collectFunctions (b : TokenBuffer) : EStateM Diagnostic Table Unit :=
  collectFrom b.last 0 0 b.items

end Ifj24.Tree
