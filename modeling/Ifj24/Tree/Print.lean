import Ifj24.Tree.Node

/-!
Syntax trees as indented text, one node a line.
-/

namespace Ifj24.Tree

def Expr.termText (t : Table) : Expr → Bytes
  | .value v => Cause.literalText v.type v.literal
  | .variable v => (t.var v.var).name
  | .operand o => o.op.text
  | x => x.kind.qualified

def ExpressionOf.text (t : Table) (e : Expression) : Bytes :=
  Bytes.join " " (e.items.map (Expr.termText t))

namespace Print

def line (indent : Nat) (text : Bytes) : Bytes := Bytes.spaces (2 * indent) ++ text ++ "\n"

/-- The line of a node: its sort, its place and what it holds itself. -/
def nodeLine (indent : Nat) (kind : NodeKind) (pos : Pos) (details : List Bytes) : Bytes :=
  line indent (Bytes.join " " (kind.text :: pos.text :: details))

variable (t : Table)

def expression (indent : Nat) (e : Expression) : Bytes :=
  nodeLine indent .expression e.pos ["[" ++ e.text t ++ "]"]

def truth (indent : Nat) (c : Truth) : Bytes :=
  nodeLine indent .truthExpression c.pos [c.op.text] ++
    expression t (indent + 1) c.left ++ expression t (indent + 1) c.right

mutual

def expr (indent : Nat) : Expr → Bytes
  | .value v => nodeLine indent .value v.pos [v.type.text, (Expr.value v).termText t]
  | .variable v => nodeLine indent .variable v.pos [(t.var v.var).text]
  | .operand o => nodeLine indent .operand o.pos [o.op.text]
  | .expression e => expression t indent e
  | .truth c => truth t indent c
  | .call ⟨pos, name, args, _⟩ =>
    nodeLine indent .functionCall pos [name] ++ exprs (indent + 1) args
termination_by structural x => x

def exprs (indent : Nat) : List Expr → Bytes
  | [] => []
  | x :: rest => expr indent x ++ exprs indent rest
termination_by structural xs => xs

end

def guard (indent : Nat) : Guard → Bytes
  | .compare c => truth t indent c
  | .unwrap subject binding =>
    line indent ("Unwrap " ++ (t.var subject.var).text ++ " |" ++ (t.var binding).name ++ "|")

def blockEnd (indent : Nat) (e : BlockEnd) : Bytes :=
  nodeLine indent .blockEnd e.pos [e.scope.kind.text]

def blockAround (indent : Nat) (b : Block) (inside : Bytes) : Bytes :=
  nodeLine indent .block b.pos [] ++ inside ++ blockEnd indent b.stop

def elseAround (indent : Nat) (e : Else) (inside : Bytes) : Bytes :=
  nodeLine indent .elseStart e.pos [] ++ blockAround (indent + 1) e.body inside

mutual

def stmt (indent : Nat) : Stmt → Bytes
  | .declare pos r value =>
    nodeLine indent .declare pos
      [if (t.var r).mutable_ then "var" else "const", (t.var r).text] ++
      expr t (indent + 1) value
  | .assign pos r value =>
    nodeLine indent .assign pos [(t.var r).text] ++ expr t (indent + 1) value
  | .call c => expr t indent (.call c)
  | .ifElse pos cond yes no =>
    nodeLine indent .ifElse pos [] ++ guard t (indent + 1) cond ++ line (indent + 1) "Then:" ++
      blockAround (indent + 2) yes (stmts (indent + 3) yes.stmts) ++
      match no with
      | none => []
      | some e => elseAround (indent + 1) e (stmts (indent + 3) e.body.stmts)
  | .while pos cond body =>
    nodeLine indent .while pos [] ++ guard t (indent + 1) cond ++ line (indent + 1) "Body:" ++
      blockAround (indent + 2) body (stmts (indent + 3) body.stmts)
  | .return pos value =>
    nodeLine indent .return pos [] ++
      match value with
      | none => []
      | some x => expr t (indent + 1) x
  | .elseStart e => elseAround indent e (stmts (indent + 2) e.body.stmts)
  | .blockEnd e => blockEnd indent e
termination_by structural s => s

def stmts (indent : Nat) : List Stmt → Bytes
  | [] => []
  | s :: rest => stmt indent s ++ stmts indent rest
termination_by structural ss => ss

end

def block (indent : Nat) (b : Block) : Bytes :=
  blockAround indent b (stmts t (indent + 1) b.stmts)

def function (indent : Nat) (f : Function) : Bytes :=
  nodeLine indent .function f.pos [f.definition.signature] ++
    f.params.flatMap (fun r => line (indent + 1) ("Param " ++ (t.var r).text)) ++
    block t (indent + 1) f.body

def program (p : Program) : Bytes :=
  nodeLine 0 .file p.pos [] ++ line 1 ("Import: " ++ Text.quoted p.importPath) ++
    p.functions.flatMap (function t 1)

end Print

end Ifj24.Tree
