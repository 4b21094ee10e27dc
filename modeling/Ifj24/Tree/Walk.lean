import Ifj24.Tree.Node

/-!
The nodes of a tree in the order of a depth-first walk, parents first. A walk may
leave out what is below some sorts of nodes.
-/

namespace Ifj24.Tree

inductive NodeRef where
  | program (p : Program)
  | function (f : Function)
  | block (b : Block)
  | stmt (s : Stmt)
  | expr (x : Expr)

namespace NodeRef

def kind : NodeRef → NodeKind
  | .program _ => .file
  | .function _ => .function
  | .block _ => .block
  | .stmt s => s.kind
  | .expr x => x.kind

def pos : NodeRef → Pos
  | .program p => p.pos
  | .function f => f.pos
  | .block b => b.pos
  | .stmt s => s.pos
  | .expr x => x.pos

end NodeRef

namespace Walk

variable (descend : NodeKind → Bool)

/-- A node, followed by what is below it if the walk goes there. -/
def visit (n : NodeRef) (below : List NodeRef) : List NodeRef :=
  n :: if descend n.kind then below else []

mutual

def expr : Expr → List NodeRef
  | .value v => visit descend (.expr (.value v)) []
  | .variable v => visit descend (.expr (.variable v)) []
  | .operand o => visit descend (.expr (.operand o)) []
  | .expression e => visit descend (.expr (.expression e)) (exprs e.items)
  | .truth t =>
    visit descend (.expr (.truth t))
      (visit descend (.expr (.expression t.left)) (exprs t.left.items) ++
        visit descend (.expr (.expression t.right)) (exprs t.right.items))
  | .call c => visit descend (.expr (.call c)) (exprs c.args)
termination_by structural x => x

def exprs : List Expr → List NodeRef
  | [] => []
  | x :: rest => expr x ++ exprs rest
termination_by structural xs => xs

end

def guard : Guard → List NodeRef
  | .compare t => expr descend (.truth t)
  | .unwrap subject _ => expr descend (.variable subject)

def blockAround (b : Block) (inside : List NodeRef) : List NodeRef :=
  visit descend (.block b) (inside ++ visit descend (.stmt (.blockEnd b.stop)) [])

def elseAround (e : Else) (inside : List NodeRef) : List NodeRef :=
  visit descend (.stmt (.elseStart e)) (blockAround descend e.body inside)

mutual

def stmt : Stmt → List NodeRef
  | .declare pos r value => visit descend (.stmt (.declare pos r value)) (expr descend value)
  | .assign pos r value => visit descend (.stmt (.assign pos r value)) (expr descend value)
  | .call c => expr descend (.call c)
  | .ifElse pos cond yes no =>
    visit descend (.stmt (.ifElse pos cond yes no))
      (guard descend cond ++ blockAround descend yes (stmts yes.stmts) ++
        match no with
        | none => []
        | some e => elseAround descend e (stmts e.body.stmts))
  | .while pos cond body =>
    visit descend (.stmt (.while pos cond body))
      (guard descend cond ++ blockAround descend body (stmts body.stmts))
  | .return pos value =>
    visit descend (.stmt (.return pos value))
      (match value with
        | none => []
        | some x => expr descend x)
  | .elseStart e => elseAround descend e (stmts e.body.stmts)
  | .blockEnd e => visit descend (.stmt (.blockEnd e)) []
termination_by structural s => s

def stmts : List Stmt → List NodeRef
  | [] => []
  | s :: rest => stmt s ++ stmts rest
termination_by structural ss => ss

end

def function (f : Function) : List NodeRef :=
  visit descend (.function f) (blockAround descend f.body (stmts descend f.body.stmts))

def program (p : Program) : List NodeRef :=
  visit descend (.program p) (p.functions.flatMap (function descend))

end Walk

end Ifj24.Tree
