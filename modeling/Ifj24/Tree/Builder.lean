import Ifj24.Tree.Node

/-!
Building an expression from infix input, with an output queue and an operator
stack. A call that fails keeps what it has moved so far.
-/

namespace Ifj24.Tree

/-- An expression under construction. The queue becomes the postfix sequence
when the expression is finished. -/
structure Builder where
  pos : Pos
  output : List Expr
  /-- The top of the stack comes first. -/
  operators : List Operand
  finished : Bool

namespace Builder

def start (pos : Pos) : Builder := ⟨pos, [], [], false⟩

/-- A builder after a call, and why the call failed if it did. -/
structure Attempt where
  builder : Builder
  failure : Option Diagnostic

def Attempt.toExcept (a : Attempt) : Except Diagnostic Builder :=
  match a.failure with
  | some d => .error d
  | none => .ok a.builder

/-- The postfix sequence, empty until the expression is finished. -/
def items (b : Builder) : List Expr := if b.finished then b.output else []

def expression (b : Builder) : Expression := ⟨b.pos, b.items, b.finished, .any, false⟩

def addTerm (b : Builder) (x : Expr) : Attempt :=
  if b.finished then ⟨b, some (.nowhere .lateTerm)⟩
  else
    match x with
    | .value _ | .variable _ => ⟨{ b with output := b.output ++ [x] }, none⟩
    | _ => ⟨b, some (.nowhere (.badTerm x.kind))⟩

/-- Moves operators to the output up to an opening parenthesis, which is
dropped. The flag tells whether there was one. -/
def closeParen : List Operand → List Expr → List Operand × List Expr × Bool
  | [], output => ([], output, false)
  | top :: rest, output =>
    if top.op = .lparen then (rest, output, true)
    else closeParen rest (output ++ [.operand top])

/-- Moves operators to the output that bind at least as tightly as
`precedence`. -/
def yieldTo (precedence : Nat) : List Operand → List Expr → List Operand × List Expr
  | [], output => ([], output)
  | top :: rest, output =>
    if top.op = .lparen ∨ top.op.precedence < precedence then (top :: rest, output)
    else yieldTo precedence rest (output ++ [.operand top])

def addOperator (b : Builder) (o : Operand) : Attempt :=
  if b.finished then ⟨b, some (.nowhere .lateOperator)⟩
  else if o.op = .lparen then ⟨{ b with operators := o :: b.operators }, none⟩
  else if o.op = .rparen then
    let (operators, output, found) := closeParen b.operators b.output
    ⟨{ b with operators, output }, if found then none else some ⟨o.pos, .unbalancedClose⟩⟩
  else if o.op.isArith then
    let (operators, output) := yieldTo o.op.precedence b.operators b.output
    ⟨{ b with operators := o :: operators, output }, none⟩
  else ⟨b, some (.nowhere (.badOperator o.op))⟩

/-- Moves all operators to the output. An opening parenthesis stops the moving;
it is gone then, and its operator is returned. -/
def drain : List Operand → List Expr → List Operand × List Expr × Option Operand
  | [], output => ([], output, none)
  | top :: rest, output =>
    if top.op = .lparen then (rest, output, some top)
    else drain rest (output ++ [.operand top])

/-- Ends the construction. Finishing again does nothing. -/
def finish (b : Builder) : Attempt :=
  if b.finished then ⟨b, none⟩
  else
    let (operators, output, unclosed) := drain b.operators b.output
    let drained := { b with operators, output }
    match unclosed with
    | some o => ⟨drained, some ⟨o.pos, .unbalancedOpen⟩⟩
    | none =>
      if output.isEmpty then ⟨drained, some ⟨b.pos, .emptyExpression⟩⟩
      else ⟨{ drained with finished := true }, none⟩

end Builder

end Ifj24.Tree
