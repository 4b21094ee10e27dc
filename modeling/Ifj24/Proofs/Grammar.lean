import Ifj24.Proofs.Arithmetic
import Ifj24.Tree.Header

/-!
The grammar of programs as the type of its derivation trees. The leaves of a tree
are tokens of the kinds that the grammar asks for, so a token sequence is
derivable exactly if it is the sequence of leaves of some tree:

* program → prolog function* EOF
* function → pub fn id ( params ) result { statement* }
* statement → (const|var) id [: type] = rhs ; | _ = rhs ; | id = rhs ; | call ;
  | if guard { statement* } [else { statement* }] | while guard { statement* } | return [rhs] ;
* guard → ( E rel E ) | ( id ) | id |
* rhs → call | E, where the tree of E is the grouped one
* call → id ( args ) | ifj . id ( args )
* args and params are separated by commas, and a comma may follow the last one
-/

namespace Ifj24.Grammar

open Ifj24.Tree

abbrev Lexeme (kind : TokenKind) := { a : Token // a.kind = kind }

structure TypeName where
  question : Option (Lexeme .question)
  name : Token
  type : DataType
  isType : dataType? name.kind = some type

namespace TypeName

def nullable (t : TypeName) : Bool := t.question.isSome

def tokens (t : TypeName) : List Token :=
  match t.question with
  | some q => [q.1, t.name]
  | none => [t.name]

end TypeName

inductive ResultType where
  | void (a : Lexeme .kwVoid)
  | value (t : TypeName)

namespace ResultType

def type : ResultType → DataType
  | .void _ => .void
  | .value t => t.type

def nullable : ResultType → Bool
  | .void _ => false
  | .value t => t.nullable

def tokens : ResultType → List Token
  | .void a => [a.1]
  | .value t => t.tokens

end ResultType

/-- Elements separated by commas, with or without a comma after the last one. -/
inductive Listed (α : Type) where
  | nil
  | last (a : α)
  | cons (a : α) (comma : Lexeme .comma) (rest : Listed α)

namespace Listed

variable {α : Type}

def toList : Listed α → List α
  | .nil => []
  | .last a => [a]
  | .cons a _ rest => a :: rest.toList

def tokens (leaves : α → List Token) : Listed α → List Token
  | .nil => []
  | .last a => leaves a
  | .cons a comma rest => leaves a ++ comma.1 :: rest.tokens leaves

end Listed

abbrev Term := { a : Token // a.kind.isOperand = true }

inductive Callee where
  | user (name : Lexeme .name)
  | builtin (ifj : Lexeme .kwIfj) (dot : Lexeme .dot) (name : Lexeme .name)

namespace Callee

def name : Callee → Bytes
  | .user name => name.1.literal
  | .builtin _ _ name => FuncDef.builtinStart ++ name.1.literal

def first : Callee → Token
  | .user name => name.1
  | .builtin ifj _ _ => ifj.1

def tokens : Callee → List Token
  | .user name => [name.1]
  | .builtin ifj dot name => [ifj.1, dot.1, name.1]

end Callee

structure Call where
  callee : Callee
  opening : Lexeme .lparen
  args : Listed Term
  closing : Lexeme .rparen

namespace Call

def tokens (c : Call) : List Token :=
  c.callee.tokens ++ c.opening.1 :: (c.args.tokens (fun a => [a.1]) ++ [c.closing.1])

end Call

abbrev Arithmetic := { e : ArithTree // e.Grouped }

inductive Rhs where
  | call (c : Call)
  | arithmetic (e : Arithmetic)

namespace Rhs

def tokens : Rhs → List Token
  | .call c => c.tokens
  | .arithmetic e => e.1.tokens

end Rhs

structure TypeMark where
  colon : Lexeme .colon
  type : TypeName

namespace TypeMark

def tokens (a : TypeMark) : List Token := a.colon.1 :: a.type.tokens

end TypeMark

abbrev Binder := { a : Token // a.kind = .kwConst ∨ a.kind = .kwVar }

inductive Plain where
  | declare (binder : Binder) (name : Lexeme .name) (mark : Option TypeMark)
      (eq : Lexeme .assign) (value : Rhs) (semi : Lexeme .semi)
  | drop (target : Lexeme .discard) (eq : Lexeme .assign) (value : Rhs) (semi : Lexeme .semi)
  | assign (target : Lexeme .name) (eq : Lexeme .assign) (value : Rhs) (semi : Lexeme .semi)
  | call (c : Call) (semi : Lexeme .semi)
  | return (keyword : Lexeme .kwReturn) (value : Option Rhs) (semi : Lexeme .semi)

namespace Plain

def optional {α : Type} (leaves : α → List Token) : Option α → List Token
  | none => []
  | some a => leaves a

def tokens : Plain → List Token
  | .declare binder name mark eq value semi =>
    binder.1 :: name.1 ::
      (optional TypeMark.tokens mark ++ eq.1 :: (value.tokens ++ [semi.1]))
  | .drop target eq value semi => target.1 :: eq.1 :: (value.tokens ++ [semi.1])
  | .assign target eq value semi => target.1 :: eq.1 :: (value.tokens ++ [semi.1])
  | .call c semi => c.tokens ++ [semi.1]
  | .return keyword value semi => keyword.1 :: (optional Rhs.tokens value ++ [semi.1])

end Plain

abbrev Relation := { a : Token // a.kind.isRelational = true }

inductive Guard where
  | compare (opening : Lexeme .lparen) (left : Arithmetic) (op : Relation) (right : Arithmetic)
      (closing : Lexeme .rparen)
  | unwrap (opening : Lexeme .lparen) (subject : Lexeme .name) (closing : Lexeme .rparen)
      (bar : Lexeme .pipe) (bound : Lexeme .name) (bar' : Lexeme .pipe)

namespace Guard

def tokens : Guard → List Token
  | .compare opening left op right closing =>
    opening.1 :: (left.1.tokens ++ op.1 :: (right.1.tokens ++ [closing.1]))
  | .unwrap opening subject closing bar bound bar' =>
    [opening.1, subject.1, closing.1, bar.1, bound.1, bar'.1]

end Guard

structure Braces where
  opening : Lexeme .lbrace
  closing : Lexeme .rbrace

inductive Body where
  | done
  | plain (s : Plain) (rest : Body)
  | branch (keyword : Lexeme .kwIf) (guard : Guard) (braces : Braces) (yes : Body) (rest : Body)
  | branchElse (keyword : Lexeme .kwIf) (guard : Guard) (braces : Braces) (yes : Body)
      (otherwise : Lexeme .kwElse) (braces' : Braces) (no : Body) (rest : Body)
  | loop (keyword : Lexeme .kwWhile) (guard : Guard) (braces : Braces) (body : Body) (rest : Body)

def Braces.tokens (b : Braces) (inside : List Token) : List Token :=
  b.opening.1 :: (inside ++ [b.closing.1])

namespace Body

def tokens : Body → List Token
  | .done => []
  | .plain s rest => s.tokens ++ rest.tokens
  | .branch keyword guard braces yes rest =>
    keyword.1 :: (guard.tokens ++ (braces.tokens yes.tokens ++ rest.tokens))
  | .branchElse keyword guard braces yes otherwise braces' no rest =>
    keyword.1 :: (guard.tokens ++ (braces.tokens yes.tokens ++
      otherwise.1 :: (braces'.tokens no.tokens ++ rest.tokens)))
  | .loop keyword guard braces body rest =>
    keyword.1 :: (guard.tokens ++ (braces.tokens body.tokens ++ rest.tokens))

end Body

structure Parameter where
  name : Lexeme .name
  colon : Lexeme .colon
  type : TypeName

namespace Parameter

def tokens (p : Parameter) : List Token := p.name.1 :: p.colon.1 :: p.type.tokens

def param (p : Parameter) : Param := ⟨p.name.1.literal, p.type.type, p.type.nullable⟩

end Parameter

structure Heading where
  pub : Lexeme .kwPub
  fn : Lexeme .kwFn
  name : Lexeme .name
  opening : Lexeme .lparen
  params : Listed Parameter
  closing : Lexeme .rparen

namespace Heading

def before (h : Heading) (rest : List Token) : List Token :=
  h.pub.1 :: h.fn.1 :: h.name.1 :: h.opening.1 ::
    (h.params.tokens Parameter.tokens ++ h.closing.1 :: rest)

end Heading

structure Function extends Heading where
  result : ResultType
  braces : Braces
  body : Body

namespace Function

def tokens (f : Function) : List Token :=
  f.before (f.result.tokens ++ f.braces.tokens f.body.tokens)

def signature (f : Function) : FuncDef :=
  ⟨f.name.1.literal, f.params.toList.map Parameter.param, f.result.type, f.result.nullable, false,
    f.name.1.pos⟩

end Function

structure Prolog where
  const : Lexeme .kwConst
  ifj : Lexeme .kwIfj
  eq : Lexeme .assign
  at_ : Lexeme .at
  import_ : Lexeme .kwImport
  opening : Lexeme .lparen
  path : Lexeme .string
  isPath : path.1.literal = Cause.importPath
  closing : Lexeme .rparen
  semi : Lexeme .semi

namespace Prolog

def tokens (p : Prolog) : List Token :=
  [p.const.1, p.ifj.1, p.eq.1, p.at_.1, p.import_.1, p.opening.1, p.path.1, p.closing.1, p.semi.1]

end Prolog

structure Program where
  prolog : Prolog
  functions : List Function
  eof : Lexeme .eof

namespace Program

def tokens (p : Program) : List Token :=
  p.prolog.tokens ++ (p.functions.flatMap Function.tokens ++ [p.eof.1])

end Program

end Ifj24.Grammar
