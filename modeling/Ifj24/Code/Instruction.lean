import Ifj24.Number.Double

/-!
Instructions of IFJcode24, the code of a stack machine with frames. Values travel
on a data stack; every activation of a function has a frame of variables.
Programs are kept as instructions, and their text is made in one place here.
-/

namespace Ifj24.Code

/-- The functions whose code comes with the compiler. -/
inductive Builtin where
  | readstr
  | readi32
  | readf64
  | write
  | i2f
  | f2i
  | string
  | length
  | concat
  | substring
  | strcmp
  | ord
  | chr
  deriving DecidableEq, Repr

namespace Builtin

/-- All of them, in the order in which their code is appended to a program. -/
def all : List Builtin :=
  [.readstr, .readi32, .readf64, .write, .i2f, .f2i, .string, .length, .concat, .substring,
    .strcmp, .ord, .chr]

def name : Builtin → Bytes
  | .readstr => "readstr"
  | .readi32 => "readi32"
  | .readf64 => "readf64"
  | .write => "write"
  | .i2f => "i2f"
  | .f2i => "f2i"
  | .string => "string"
  | .length => "length"
  | .concat => "concat"
  | .substring => "substring"
  | .strcmp => "strcmp"
  | .ord => "ord"
  | .chr => "chr"

def bareName (name : Bytes) : Bytes := name.dropStart "ifj."

/-- The built-in of a name, with the qualifier or without. -/
def ofName? (name : Bytes) : Option Builtin := all.find? fun b => b.name == bareName name

end Builtin

inductive Place where
  | discard
  /-- A variable of a user's function; the number keeps equal names apart. -/
  | local (name : Bytes) (id : UInt32)
  | temporary (name : Bytes)
  deriving DecidableEq, Repr

namespace Place

def localText (name : Bytes) (id : UInt32) : Bytes := "LF@" ++ name ++ "$" ++ Bytes.ofNat id.toNat

def text : Place → Bytes
  | .discard => "GF@$discard"
  | .local name id => localText name id
  | .temporary name => "LF@" ++ name

end Place

inductive Constant where
  | nil
  | bool (b : Bool)
  | int (n : Int)
  | float (x : Double)
  | string (s : Bytes)
  deriving DecidableEq, Repr

namespace Constant

/-- Whether a byte would end or change a constant if it stood there as it is. -/
def isSpecial (b : UInt8) : Bool := b ≤ 32 || b == Bytes.ascii '#' || b == Bytes.ascii '\\'

/-- A string with every special byte as three decimal digits after a
backslash. -/
def escape (s : Bytes) : Bytes :=
  s.flatMap fun b =>
    if isSpecial b then Bytes.ascii '\\' :: Bytes.paddedDigits 10 3 b.toNat else [b]

def text : Constant → Bytes
  | .nil => "nil@nil"
  | .bool b => if b then "bool@true" else "bool@false"
  | .int n => "int@" ++ Bytes.ofInt n
  | .float x => "float@" ++ x.hexText
  | .string s => "string@" ++ escape s

end Constant

inductive Source where
  | place (p : Place)
  | constant (c : Constant)
  deriving DecidableEq, Repr

namespace Source

instance : Coe Place Source := ⟨.place⟩

instance : Coe Constant Source := ⟨.constant⟩

def text : Source → Bytes
  | .place p => p.text
  | .constant c => c.text

end Source

inductive FlowTag where
  | otherwise
  | endIf
  | loop
  | endLoop
  deriving DecidableEq, Repr

namespace FlowTag

def text : FlowTag → Bytes
  | .otherwise => "else"
  | .endIf => "endif"
  | .loop => "while"
  | .endLoop => "endwhile"

end FlowTag

inductive Label where
  | function (name : Bytes)
  /-- A place in a user's function; the number is used by one construct only. -/
  | flow (owner : Bytes) (tag : FlowTag) (number : Nat)
  | builtin (b : Builtin)
  | inside (b : Builtin) (tag : Bytes)
  deriving DecidableEq, Repr

namespace Label

def functionText (name : Bytes) : Bytes := "$" ++ name

/-- The entry label of a built-in function, given by its name with the qualifier
or without. -/
def builtinText (name : Bytes) : Bytes := "$ifj$" ++ Builtin.bareName name

def text : Label → Bytes
  | .function name => functionText name
  | .flow owner tag number =>
    functionText owner ++ "$" ++ tag.text ++ "$" ++ Bytes.ofNat number
  | .builtin b => builtinText b.name
  | .inside b tag => builtinText b.name ++ "$" ++ tag

end Label

inductive InputType where
  | string
  | int
  | float
  deriving DecidableEq, Repr

namespace InputType

def text : InputType → Bytes
  | .string => "string"
  | .int => "int"
  | .float => "float"

end InputType

/-- Operations that take their operands from the data stack and leave their result
there. -/
inductive StackOp where
  | add
  | sub
  | mul
  | div
  | idiv
  | lt
  | gt
  | eq
  | not
  | intToFloat
  | floatToInt
  | intToChar
  deriving DecidableEq, Repr

namespace StackOp

def text : StackOp → Bytes
  | .add => "ADDS"
  | .sub => "SUBS"
  | .mul => "MULS"
  | .div => "DIVS"
  | .idiv => "IDIVS"
  | .lt => "LTS"
  | .gt => "GTS"
  | .eq => "EQS"
  | .not => "NOTS"
  | .intToFloat => "INT2FLOATS"
  | .floatToInt => "FLOAT2INTS"
  | .intToChar => "INT2CHARS"

end StackOp

/-- Operations on two operands whose result goes to a variable. -/
inductive BinaryOp where
  | add
  | lt
  | gt
  | concat
  | getChar
  /-- The number of the character of a string at an index. -/
  | charCode
  deriving DecidableEq, Repr

namespace BinaryOp

def text : BinaryOp → Bytes
  | .add => "ADD"
  | .lt => "LT"
  | .gt => "GT"
  | .concat => "CONCAT"
  | .getChar => "GETCHAR"
  | .charCode => "STRI2INT"

end BinaryOp

inductive Instr where
  | label (l : Label)
  | jump (l : Label)
  | jumpIfEq (l : Label) (a b : Source)
  | jumpIfNeq (l : Label) (a b : Source)
  /-- Takes two values from the data stack and jumps if they are equal. -/
  | jumpIfEqs (l : Label)
  | call (l : Label)
  | return
  | createFrame
  | pushFrame
  | popFrame
  | defVar (p : Place)
  | move (p : Place) (a : Source)
  | push (a : Source)
  | pop (p : Place)
  | stack (op : StackOp)
  | binary (op : BinaryOp) (p : Place) (a b : Source)
  | strLen (p : Place) (a : Source)
  /-- The name of the type of a value, `nil` for null. -/
  | typeOf (p : Place) (a : Source)
  | read (p : Place) (type : InputType)
  | write (a : Source)
  | exit (a : Source)
  deriving DecidableEq, Repr

namespace Instr

def words (opcode : Bytes) (operands : List Bytes) : Bytes := Bytes.join " " (opcode :: operands)

def text : Instr → Bytes
  | .label l => words "LABEL" [l.text]
  | .jump l => words "JUMP" [l.text]
  | .jumpIfEq l a b => words "JUMPIFEQ" [l.text, a.text, b.text]
  | .jumpIfNeq l a b => words "JUMPIFNEQ" [l.text, a.text, b.text]
  | .jumpIfEqs l => words "JUMPIFEQS" [l.text]
  | .call l => words "CALL" [l.text]
  | .return => "RETURN"
  | .createFrame => "CREATEFRAME"
  | .pushFrame => "PUSHFRAME"
  | .popFrame => "POPFRAME"
  | .defVar p => words "DEFVAR" [p.text]
  | .move p a => words "MOVE" [p.text, a.text]
  | .push a => words "PUSHS" [a.text]
  | .pop p => words "POPS" [p.text]
  | .stack op => op.text
  | .binary op p a b => words op.text [p.text, a.text, b.text]
  | .strLen p a => words "STRLEN" [p.text, a.text]
  | .typeOf p a => words "TYPE" [p.text, a.text]
  | .read p type => words "READ" [p.text, type.text]
  | .write a => words "WRITE" [a.text]
  | .exit a => words "EXIT" [a.text]

end Instr

inductive Line where
  | header
  | instr (i : Instr)
  | blank
  | comment (text : Bytes)
  deriving DecidableEq, Repr

namespace Line

def text : Line → Bytes
  | .header => ".IFJcode24"
  | .instr i => i.text
  | .blank => []
  | .comment text => "# " ++ text

/-- Whether a line counts as one of the program's instructions. -/
def isCounted : Line → Bool
  | .header | .instr _ => true
  | .blank | .comment _ => false

end Line

end Ifj24.Code
