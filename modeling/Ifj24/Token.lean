import Ifj24.Text.Utf8

/-!
Tokens of IFJ24. A token is its kind, the text it carries and the place where
it starts. Lines and columns are 32-bit words counted from one; line zero marks
the absence of a place. Tokens are listed in a table for people to read.
-/

namespace Ifj24

structure Pos where
  file : Bytes
  line : UInt32
  col : UInt32
  deriving DecidableEq, Repr

namespace Pos

def none : Pos := ⟨[], 0, 0⟩

instance : Inhabited Pos := ⟨none⟩

def isValid (p : Pos) : Bool := p.line != 0

/-- `file:line:col`, without the file if it has no name, and `-` for no
position. -/
def text (p : Pos) : Bytes :=
  if !p.isValid then "-"
  else
    let place : Bytes := Bytes.ofNat p.line.toNat ++ ":" ++ Bytes.ofNat p.col.toNat
    if p.file.isEmpty then place else p.file ++ ":" ++ place

/-- Order of places within one file; the file itself is not compared. -/
def before (p q : Pos) : Bool :=
  if p.line != q.line then p.line < q.line else p.col < q.col

end Pos

inductive TokenKind where
  | none
  | eof
  | name
  | add
  | sub
  | div
  | mul
  | eql
  | lss
  | leq
  | gtr
  | geq
  | neq
  | string
  | int
  | float
  | dot
  | assign
  | colon
  | comma
  | lparen
  | rparen
  | lbrace
  | rbrace
  | semi
  | pipe
  | at
  | discard
  | question
  | kwVar
  | kwConst
  | kwIf
  | kwElse
  | kwReturn
  | kwWhile
  | kwFn
  | kwNull
  | kwPub
  | kwVoid
  | kwI32
  | kwF64
  | kwU8
  | kwIfj
  | kwImport
  deriving DecidableEq, Repr

namespace TokenKind

def all : List TokenKind :=
  [.none, .eof, .name, .add, .sub, .div, .mul, .eql, .lss, .leq, .gtr, .geq, .neq, .string,
    .int, .float, .dot, .assign, .colon, .comma, .lparen, .rparen, .lbrace, .rbrace, .semi,
    .pipe, .at, .discard, .question, .kwVar, .kwConst, .kwIf, .kwElse, .kwReturn, .kwWhile,
    .kwFn, .kwNull, .kwPub, .kwVoid, .kwI32, .kwF64, .kwU8, .kwIfj, .kwImport]

def ofNumber? (n : Nat) : Option TokenKind := all[n]?

/-- The spelling of punctuation and keywords, and a capitalised word for the
kinds that have no fixed spelling. -/
def text : TokenKind → Bytes
  | .none => "NONE"
  | .eof => "EOF"
  | .name => "NAME"
  | .add => "+"
  | .sub => "-"
  | .div => "/"
  | .mul => "*"
  | .eql => "=="
  | .lss => "<"
  | .leq => "<="
  | .gtr => ">"
  | .geq => ">="
  | .neq => "!="
  | .string => "STRING"
  | .int => "INT"
  | .float => "FLOAT"
  | .dot => "."
  | .assign => "="
  | .colon => ":"
  | .comma => ","
  | .lparen => "("
  | .rparen => ")"
  | .lbrace => "\x7b"
  | .rbrace => "\x7d"
  | .semi => ";"
  | .pipe => "|"
  | .at => "@"
  | .discard => "_"
  | .question => "?"
  | .kwVar => "var"
  | .kwConst => "const"
  | .kwIf => "if"
  | .kwElse => "else"
  | .kwReturn => "return"
  | .kwWhile => "while"
  | .kwFn => "fn"
  | .kwNull => "null"
  | .kwPub => "pub"
  | .kwVoid => "void"
  | .kwI32 => "i32"
  | .kwF64 => "f64"
  | .kwU8 => "[]u8"
  | .kwIfj => "ifj"
  | .kwImport => "import"

/-- The text of a kind given by number; numbers without a kind show
themselves. -/
def numberText (n : Nat) : Bytes :=
  match ofNumber? n with
  | some k => k.text
  | Option.none => "token(" ++ Bytes.ofNat n ++ ")"

def isKeyword : TokenKind → Bool
  | .kwVar | .kwConst | .kwIf | .kwElse | .kwReturn | .kwWhile | .kwFn | .kwNull | .kwPub
  | .kwVoid | .kwI32 | .kwF64 | .kwU8 | .kwIfj | .kwImport => true
  | _ => false

def isLiteral : TokenKind → Bool
  | .string | .int | .float => true
  | _ => false

def isDataType : TokenKind → Bool
  | .kwI32 | .kwF64 | .kwU8 => true
  | _ => false

def isArith : TokenKind → Bool
  | .add | .sub | .div | .mul => true
  | _ => false

def isRelational : TokenKind → Bool
  | .eql | .lss | .leq | .gtr | .geq | .neq => true
  | _ => false

def isEquality : TokenKind → Bool
  | .eql | .neq => true
  | _ => false

/-- Binding strength of an arithmetic operator; 0 for everything else. -/
def precedence : TokenKind → Nat
  | .add | .sub => 1
  | .mul | .div => 2
  | _ => 0

/-- The comparison that holds exactly when the given one does not. Other kinds
are left as they are. -/
def negate : TokenKind → TokenKind
  | .eql => .neq
  | .neq => .eql
  | .gtr => .leq
  | .leq => .gtr
  | .lss => .geq
  | .geq => .lss
  | k => k

/-- The words that are no names. `[]u8` is no word, and `_` stands apart. -/
def words : List TokenKind :=
  [.kwVar, .kwConst, .kwIf, .kwElse, .kwReturn, .kwWhile, .kwFn, .kwNull, .kwPub, .kwVoid,
    .kwI32, .kwF64, .kwIfj, .kwImport]

/-- The kind of a word that starts with a letter or an underscore. -/
def ofWord (word : Bytes) : TokenKind :=
  (words.find? fun k => k.text == word).getD .name

@[simp] theorem negate_negate (k : TokenKind) : k.negate.negate = k := by
  cases k <;> rfl

end TokenKind

structure Token where
  kind : TokenKind
  literal : Bytes
  pos : Pos
  deriving DecidableEq, Repr

namespace Token

def text (t : Token) : Bytes :=
  match t.kind with
  | .name | .int | .float => t.literal
  | .string => Bytes.ascii '"' :: t.literal ++ [Bytes.ascii '"']
  | k => k.text

def shownChar (c : Char) : Bytes :=
  match c with
  | '\n' => "\\n"
  | '\t' => "\\t"
  | '\r' => "\\r"
  | '\\' => "\\\\"
  | '"' => "\\\""
  | c => if c < ' ' then "\\x" ++ Bytes.paddedDigits 16 2 c.toNat else Bytes.ofChars [c]

/-- A literal in quotes, with the escapes of the source language; nothing for an
empty one. Bytes that are no text are shown as the replacement character. -/
def shownLiteral (literal : Bytes) : Bytes :=
  if literal.isEmpty then []
  else
    Bytes.ascii '"' :: literal.glyphs.flatMap (fun g => shownChar g.replaced) ++
      [Bytes.ascii '"']

def padded (width : Nat) (text : Bytes) : Bytes :=
  text ++ Bytes.spaces (width - text.glyphs.length)

def row (pos kind literal : Bytes) : Bytes :=
  padded 20 pos ++ " " ++ padded 12 kind ++ " " ++ literal ++ "\n"

def listing (tokens : List Token) : Bytes :=
  let rule (n : Nat) : Bytes := List.replicate n (Bytes.ascii '-')
  row "POSITION" "TOKEN" "LITERAL" ++ row (rule 20) (rule 12) (rule 20) ++
    tokens.flatMap fun t => row t.pos.text t.kind.text (shownLiteral t.literal)

end Token

end Ifj24
