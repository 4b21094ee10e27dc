import Ifj24.DataType
import Ifj24.Diagnostic.Kind
import Ifj24.Token.Scan

/-!
Why a compilation fails. Every failure is a cause at a place; the class of a
cause and its wording are functions of the cause.
-/

namespace Ifj24

/-- The classes of terminals that operator precedence tells apart. -/
inductive TermClass where
  | addSub
  | mulDiv
  | lparen
  | rparen
  | operand
  | rel
  | stop
  deriving DecidableEq, Repr

namespace TermClass

def text : TermClass → Bytes
  | .addSub => "+-"
  | .mulDiv => "*/"
  | .lparen => "("
  | .rparen => ")"
  | .operand => "id"
  | .rel => "rel"
  | .stop => "$"

end TermClass

inductive NodeKind where
  | file
  | function
  | block
  | declare
  | assign
  | ifElse
  | while
  | return
  | elseStart
  | blockEnd
  | value
  | variable
  | operand
  | functionCall
  | truthExpression
  | expression
  deriving DecidableEq, Repr

namespace NodeKind

def text : NodeKind → Bytes
  | .file => "File"
  | .function => "Function"
  | .block => "Block"
  | .declare => "Declare"
  | .assign => "Assign"
  | .ifElse => "IfElse"
  | .while => "While"
  | .return => "Return"
  | .elseStart => "ElseStart"
  | .blockEnd => "BlockEnd"
  | .value => "Value"
  | .variable => "Variable"
  | .operand => "Operand"
  | .functionCall => "FunctionCall"
  | .truthExpression => "TruthExpression"
  | .expression => "Expression"

/-- The name of a node sort in failures of the compiler itself. -/
def qualified (k : NodeKind) : Bytes := "*syntax." ++ k.text

end NodeKind

inductive Expectation where
  | token (kind : TokenKind)
  | identifier
  | type
  | importPath
  | function
  | statement
  | argument
  deriving DecidableEq, Repr

namespace Expectation

def text : Expectation → Bytes
  | .token kind => kind.text
  | .identifier => "identifier"
  | .type => "type"
  | .importPath => "import path"
  | .function => "pub fn"
  | .statement => "statement"
  | .argument => "argument"

end Expectation

/-- A type together with its nullability, as written in messages. -/
structure TypeUse where
  type : DataType
  nullable : Bool
  deriving DecidableEq, Repr

def TypeUse.text (t : TypeUse) : Bytes := t.type.textWith t.nullable

inductive OperandMode where
  | noValue
  | null
  | literal
  | variable
  | value
  deriving DecidableEq, Repr

namespace OperandMode

def text : OperandMode → Bytes
  | .noValue => "no value"
  | .null => "null"
  | .literal => "literal"
  | .variable => "variable"
  | .value => "value"

end OperandMode

structure OperandUse where
  mode : OperandMode
  type : TypeUse
  deriving DecidableEq, Repr

def OperandUse.text (x : OperandUse) : Bytes :=
  match x.mode with
  | .noValue | .null => x.mode.text
  | _ => x.mode.text ++ " " ++ x.type.text

inductive UsageFault where
  | neverRead
  | neverModified
  deriving DecidableEq, Repr

inductive Cause where
  | lexical (fault : LexicalFault)
  -- The token sequence is no program.
  | expected (found : Token) (what : Expectation)
  | headerToken (found : Token) (wanted : TokenKind)
  | headerEnd (found : Token)
  | unbalancedBrace
  | nestedFunction
  | unknownImport (path : Bytes)
  | operatorOrder (found : Token) (after : TermClass)
  | malformedBefore (found : Token)
  | missingExpression (found : Token)
  | inExpression (found : Token)
  | notComparison
  | chainedComparison
  | strayComparison (operator : TokenKind)
  | unbalancedClose
  | unbalancedOpen
  | emptyExpression
  -- A name has no meaning where it is used.
  | missingMain
  | undefined (name : Bytes)
  | unknownBuiltin (name : Bytes)
  -- A call does not fit the function.
  | badMain
  | argumentCount (name : Bytes) (have_ want : Nat)
  | badArgument (operand : OperandUse) (type : TypeUse) (index : Nat) (name : Bytes)
  | droppedResult (name : Bytes) (operand : OperandUse)
  -- A name is defined or assigned once too often.
  | functionRedeclared (name : Bytes)
  | variableRedeclared (name : Bytes) (previous : Pos)
  | assignedConst (name : Bytes)
  -- A function does not return what it promises.
  | missingReturn (name : Bytes) (type : TypeUse)
  | tooManyReturns (name : Bytes)
  | notEnoughReturns (name : Bytes) (type : TypeUse)
  -- Types do not fit.
  | noValueUsed (call : Option Bytes)
  | badAssignment (operand : OperandUse) (type : TypeUse) (name : Bytes)
  | badReturn (operand : OperandUse) (type : TypeUse)
  | notUnwrappable (name : Bytes)
  | nullArithmetic (operator : TokenKind)
  | badArithmetic (operator : TokenKind) (operand : OperandUse)
  | mixedArithmetic (left right : DataType)
  | nullComparison (operator : TokenKind)
  | badComparison (operator : TokenKind) (operand : OperandUse)
  | mixedComparison (left right : DataType)
  | nullLiteral (type : DataType)
  | lossyLiteral (literal : Bytes)
  | badLiteral (source : DataType) (literal : Bytes) (target : DataType)
  -- A type cannot be found.
  | untypedNull (name : Bytes)
  | uninferred (name : Bytes)
  | unused (name : Bytes) (fault : UsageFault)
  | environment (message : Bytes)
  -- The compiler met a state it should never be in.
  | globalVariable (name : Bytes)
  | lateTerm
  | lateOperator
  | badTerm (node : NodeKind)
  | badOperator (operator : TokenKind)
  | unregistered (name : Bytes)
  | missingParameter (name : Bytes)
  | parserStuck
  | operandToken (kind : TokenKind)
  | stackWithoutTerminal
  | unfinished
  | malformedPostfix (items : Bytes)
  | missingOperand (operator : TokenKind)
  | invalidNode (node : NodeKind)
  | literalWithoutSlot
  | badFloat (literal : Bytes)
  | badInt (literal : Bytes)
  | literalType (type : DataType)
  | cannotLower (node : NodeKind)
  | cannotPush (node : NodeKind)
  | comparisonOperator (operator : TokenKind)
  | unresolvedCall (name : Bytes)
  | missingHelper (name : Bytes)
  deriving DecidableEq, Repr

namespace Cause

def kind : Cause → Kind
  | .lexical _ => .lexical
  | .expected .. | .headerToken .. | .headerEnd _ | .unbalancedBrace | .nestedFunction
  | .unknownImport _ | .operatorOrder .. | .malformedBefore _ | .missingExpression _
  | .inExpression _ | .notComparison | .chainedComparison | .strayComparison _
  | .unbalancedClose | .unbalancedOpen | .emptyExpression => .grammar
  | .missingMain | .undefined _ | .unknownBuiltin _ => .undefinedName
  | .badMain | .argumentCount .. | .badArgument .. | .droppedResult .. => .badParameter
  | .functionRedeclared _ | .variableRedeclared .. | .assignedConst _ => .redefinition
  | .missingReturn .. | .tooManyReturns _ | .notEnoughReturns .. => .badReturn
  | .noValueUsed _ | .badAssignment .. | .badReturn .. | .notUnwrappable _
  | .nullArithmetic _ | .badArithmetic .. | .mixedArithmetic .. | .nullComparison _
  | .badComparison .. | .mixedComparison .. | .nullLiteral _ | .lossyLiteral _
  | .badLiteral .. => .incompatibleTypes
  | .untypedNull _ | .uninferred _ => .unknownType
  | .unused .. => .unusedVariable
  | .environment _ => .other
  | .globalVariable _ | .lateTerm | .lateOperator | .badTerm _ | .badOperator _
  | .unregistered _ | .missingParameter _ | .parserStuck | .operandToken _
  | .stackWithoutTerminal | .unfinished | .malformedPostfix _ | .missingOperand _
  | .invalidNode _ | .literalWithoutSlot | .badFloat _ | .badInt _
  | .literalType _ | .cannotLower _ | .cannotPush _ | .comparisonOperator _
  | .unresolvedCall _ | .missingHelper _ => .internal

/-- A literal as shown in messages: strings are quoted. -/
def literalText (type : DataType) (literal : Bytes) : Bytes :=
  if type = .u8 then Text.quoted literal else literal

def importPath : Bytes := "ifj24.zig"

def message : Cause → Bytes
  | .lexical fault => fault.message
  | .expected found what => "unexpected " ++ found.text ++ ", expected " ++ what.text
  | .headerToken found wanted =>
    "unexpected " ++ found.text ++ " in function header, expected " ++ wanted.text
  | .headerEnd found =>
    "unexpected " ++ found.text ++ " after function header, expected " ++ TokenKind.lbrace.text
  | .unbalancedBrace => "unbalanced " ++ TokenKind.rbrace.text
  | .nestedFunction => "function declaration inside function body"
  | .unknownImport path =>
    "cannot import " ++ Text.quoted path ++ ", only " ++ Text.quoted importPath ++ " is available"
  | .operatorOrder found after =>
    "unexpected " ++ found.text ++ " after " ++ after.text ++ " in expression"
  | .malformedBefore found => "malformed expression before " ++ found.text
  | .missingExpression found => "expected expression, found " ++ found.text
  | .inExpression found => "unexpected " ++ found.text ++ " in expression"
  | .notComparison => "condition is not a comparison"
  | .chainedComparison => "chained comparison"
  | .strayComparison operator => "comparison " ++ operator.text ++ " outside of a condition"
  | .unbalancedClose => "unbalanced )"
  | .unbalancedOpen => "unbalanced ("
  | .emptyExpression => "empty expression"
  | .missingMain => "function main is undeclared"
  | .undefined name => "undefined: " ++ name
  | .unknownBuiltin name => name ++ " is not a built-in function"
  | .badMain => "func main must have no arguments and no return values"
  | .argumentCount name have_ want =>
    "wrong argument count in call to " ++ name ++ ": have " ++ Bytes.ofNat have_ ++ ", want " ++
      Bytes.ofNat want
  | .badArgument operand type index name =>
    "cannot use " ++ operand.text ++ " as " ++ type.text ++ " in argument " ++
      Bytes.ofNat index ++ " to " ++ name
  | .droppedResult name operand => "result of " ++ name ++ " (" ++ operand.text ++ ") is not used"
  | .functionRedeclared name => "function " ++ name ++ " redeclared"
  | .variableRedeclared name previous =>
    "variable " ++ name ++ " redeclared in this block (previous declaration at " ++
      previous.text ++ ")"
  | .assignedConst name => "cannot assign to " ++ name ++ " (declared const)"
  | .missingReturn name type =>
    "missing return in function " ++ name ++ " returning " ++ type.text
  | .tooManyReturns name => "too many return values in " ++ name
  | .notEnoughReturns name type =>
    "not enough return values in " ++ name ++ ", want " ++ type.text
  | .noValueUsed (some name) => name ++ "() (no value) used as value"
  | .noValueUsed none => "expression (no value) used as value"
  | .badAssignment operand type name =>
    "cannot use " ++ operand.text ++ " as " ++ type.text ++ " value in assignment to " ++ name
  | .badReturn operand type =>
    "cannot use " ++ operand.text ++ " as " ++ type.text ++ " value in return statement"
  | .notUnwrappable name => "cannot unwrap non-nullable " ++ name
  | .nullArithmetic operator => "invalid operation: null operand of " ++ operator.text
  | .badArithmetic operator operand =>
    "invalid operation: operator " ++ operator.text ++ " not defined on " ++ operand.text
  | .mixedArithmetic left right =>
    "invalid operation: mismatched types " ++ left.text ++ " and " ++ right.text
  | .nullComparison operator => "invalid comparison: null operand of " ++ operator.text
  | .badComparison operator operand =>
    "invalid comparison: operator " ++ operator.text ++ " not defined on " ++ operand.text
  | .mixedComparison left right =>
    "invalid comparison: mismatched types " ++ left.text ++ " and " ++ right.text
  | .nullLiteral type => "cannot use null as " ++ type.text
  | .lossyLiteral literal => literal ++ " loses precision as i32"
  | .badLiteral source literal target =>
    "cannot use " ++ source.text ++ " literal " ++ literalText source literal ++ " as " ++
      target.text
  | .untypedNull name => "use of untyped null in declaration of " ++ name
  | .uninferred name => "cannot infer type of " ++ name
  | .unused name .neverRead => "variable " ++ name ++ " declared and not used"
  | .unused name .neverModified =>
    "variable " ++ name ++ " declared with var but never modified"
  | .environment message => message
  | .globalVariable name => "variable " ++ name ++ " declared in global scope"
  | .lateTerm => "term added to finished expression"
  | .lateOperator => "operator added to finished expression"
  | .badTerm node => "expression term " ++ node.qualified
  | .badOperator operator => "operator " ++ operator.text ++ " in arithmetic expression"
  | .unregistered name => "function " ++ name ++ " missing from pass 1"
  | .missingParameter name => "parameter missing from the header of " ++ name
  | .parserStuck => "statements nested too deeply"
  | .operandToken kind => "operand token " ++ kind.text
  | .stackWithoutTerminal => "precedence stack without terminal"
  | .unfinished => "unfinished expression"
  | .malformedPostfix items => "malformed postfix expression [" ++ items ++ "]"
  | .missingOperand operator => "missing operand for " ++ operator.text
  | .invalidNode node => "invalid AST: unexpected " ++ node.qualified
  | .literalWithoutSlot => "literal without slot"
  | .badFloat literal => "malformed float literal " ++ literal
  | .badInt literal => "malformed integer literal " ++ literal
  | .literalType type => "literal of type " ++ type.text
  | .cannotLower node => "cannot lower " ++ node.qualified
  | .cannotPush node => "cannot push " ++ node.qualified
  | .comparisonOperator operator => "comparison operator " ++ operator.text
  | .unresolvedCall name => "unresolved call to " ++ name
  | .missingHelper name => "no runtime helper for " ++ name

end Cause

structure Diagnostic where
  pos : Pos
  cause : Cause
  deriving DecidableEq, Repr

namespace Diagnostic

def kind (d : Diagnostic) : Kind := d.cause.kind

def message (d : Diagnostic) : Bytes := d.cause.message

/-- A failure of the compiler itself that belongs to no place. -/
def nowhere (cause : Cause) : Diagnostic := ⟨.none, cause⟩

def ofLexical (e : LexicalError) : Diagnostic := ⟨e.pos, .lexical e.fault⟩

end Diagnostic

end Ifj24
