import Ifj24.Data.Json
import Ifj24.Tree.Print

/-!
Syntax trees as data, for output in structured formats.
-/

namespace Ifj24.Tree.Dump

variable (t : Table)

def node (kind : NodeKind) (pos : Pos) (fields : List (String × Data)) : Data :=
  .record ([("type", .text kind.text), ("pos", .text pos.text)] ++ fields)

def expression (e : Expression) : Data :=
  node .expression e.pos [("postfix", .text (e.text t))]

def truth (c : Truth) : Data :=
  node .truthExpression c.pos
    [("op", .text c.op.text), ("left", expression t c.left), ("right", expression t c.right)]

mutual

def expr : Expr → Data
  | .value v =>
    node .value v.pos [("datatype", .text v.type.text), ("value", .text v.literal)]
  | .variable v => node .variable v.pos [("var", .text (t.var v.var).text)]
  | .operand _ => .record [("type", .text "Unknown")]
  | .expression e => expression t e
  | .truth c => truth t c
  | .call ⟨pos, name, args, _⟩ =>
    node .functionCall pos [("name", .text name), ("args", .list (exprs args))]
termination_by structural x => x

def exprs : List Expr → List Data
  | [] => []
  | x :: rest => expr x :: exprs rest
termination_by structural xs => xs

end

def guard : Guard → List (String × Data)
  | .compare c => [("cond", truth t c)]
  | .unwrap subject binding =>
    [("subject", expr t (.variable subject)), ("binding", .text (t.var binding).text)]

def blockAround (b : Block) (inside : List Data) : Data :=
  node .block b.pos
    [("stmts", .list inside), ("scope", .text b.stop.scope.kind.text)]

def elseAround (e : Else) (inside : List Data) : Data :=
  node .elseStart e.pos [("body", blockAround e.body inside)]

mutual

def stmt : Stmt → Data
  | .declare pos r x =>
    node .declare pos [("var", .text (t.var r).text), ("mutable", .bool (t.var r).mutable_),
      ("value", expr t x)]
  | .assign pos r x => node .assign pos [("var", .text (t.var r).text), ("value", expr t x)]
  | .call c => expr t (.call c)
  | .ifElse pos cond yes no =>
    node .ifElse pos
      (guard t cond ++ [("then", blockAround yes (stmts yes.stmts))] ++
        match no with
        | none => []
        | some e => [("else", elseAround e (stmts e.body.stmts))])
  | .while pos cond body =>
    node .while pos (guard t cond ++ [("body", blockAround body (stmts body.stmts))])
  | .return pos x =>
    node .return pos
      (match x with
        | none => []
        | some x => [("value", expr t x)])
  | .elseStart e => elseAround e (stmts e.body.stmts)
  | .blockEnd _ => .record [("type", .text "Unknown")]
termination_by structural s => s

def stmts : List Stmt → List Data
  | [] => []
  | s :: rest => stmt s :: stmts rest
termination_by structural ss => ss

end

def function (f : Function) : Data :=
  node .function f.pos
    [("name", .text f.name), ("signature", .text f.definition.signature),
      ("body", blockAround f.body (stmts t f.body.stmts))]

def program (p : Program) : Data :=
  node .file p.pos
    [("import", .text p.importPath), ("funcs", .list (p.functions.map (function t)))]

end Ifj24.Tree.Dump
