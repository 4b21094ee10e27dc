import Ifj24.Number.Read
import Ifj24.Tree.Print

/-!
Types of expressions, calls and comparisons. Literals whose type another operand
fixes are converted where they stand, and operators are annotated with the type
of their result. A check that fails keeps the conversions made before. An integer
literal becomes a float by a zero fraction; a float literal becomes an integer if
the double it denotes is one that fits 32 bits.
-/

namespace Ifj24.Tree.Value

/-- The literal at another type. A literal that has the type already is left as
it is. -/
def coerce (v : Value) (type : DataType) : Except Diagnostic Value :=
  if v.null then .error ⟨v.pos, .nullLiteral type⟩
  else if v.type = type then .ok v
  else if v.type = .i32 ∧ type = .f64 then .ok (.ofLiteral v.pos .f64 (v.literal ++ ".0"))
  else if v.type = .f64 ∧ type = .i32 then
    match Number.readDouble? v.literal with
    | none => .error ⟨v.pos, .badFloat v.literal⟩
    | some x =>
      match x.toInt? with
      | none => .error ⟨v.pos, .lossyLiteral v.literal⟩
      | some n =>
        if -Int.pow 2 31 ≤ n ∧ n < Int.pow 2 31 then .ok (.ofLiteral v.pos .i32 (Bytes.ofInt n))
        else .error ⟨v.pos, .lossyLiteral v.literal⟩
  else .error ⟨v.pos, .badLiteral v.type v.literal type⟩

end Ifj24.Tree.Value

namespace Ifj24.Typing

open Ifj24.Tree

structure Evaluated where
  mode : OperandMode
  pos : Pos
  type : DataType
  nullable : Bool
  slot : Option Nat
  deriving DecidableEq, Repr

namespace Evaluated

def use (x : Evaluated) : OperandUse := ⟨x.mode, x.type, x.nullable⟩

def isLiteral (x : Evaluated) : Bool := x.mode == .literal

def computed (pos : Pos) (type : DataType) : Evaluated := ⟨.value, pos, type, false, none⟩

end Evaluated

/-- Checks that keep the node they are about when they fail. -/
abbrev Check (node : Type) := EStateM Diagnostic node

def Check.within {part whole α : Type} (get : whole → part) (put : whole → part → whole)
    (check : Check part α) : Check whole α := fun w =>
  match check (get w) with
  | .ok a p => .ok a (put w p)
  | .error d p => .error d (put w p)

def leaf (t : Table) (x : Expr) (slot : Option Nat) : Except Diagnostic Evaluated :=
  match x with
  | .value v =>
    if v.null then .ok ⟨.null, v.pos, .unresolved, true, slot⟩
    else .ok ⟨.literal, v.pos, v.type, false, slot⟩
  | .variable v =>
    let var := t.var v.var
    if var.type.isResolved then .ok ⟨.variable, v.pos, var.type, var.nullable.toBool, slot⟩
    else .error ⟨v.pos, .uninferred var.name⟩
  | x => .error ⟨x.pos, .invalidNode x.kind⟩

/-- Converts the literal `x` of a sequence to another type. -/
def coerceSlot (x : Evaluated) (type : DataType) : Check (List Expr) Evaluated := do
  let items ← get
  let some slot := x.slot | throw ⟨x.pos, .literalWithoutSlot⟩
  match items[slot]? with
  | none => throw ⟨x.pos, .literalWithoutSlot⟩
  | some (.value v) =>
    match v.coerce type with
    | .error d => throw d
    | .ok v =>
      set (items.set slot (.value v))
      return { x with type }
  | some other => throw ⟨other.pos, .invalidNode other.kind⟩

/-- An operand of an arithmetic operator has to be a number that is not null. -/
def arithmeticOperand (o : Operand) (x : Evaluated) : Except Diagnostic Unit :=
  if x.mode = .null then .error ⟨o.pos, .nullArithmetic o.op⟩
  else if x.nullable || !x.type.isNumeric then .error ⟨o.pos, .badArithmetic o.op x.use⟩
  else .ok ()

def ofExcept {node α : Type} : Except Diagnostic α → Check node α
  | .ok a => pure a
  | .error d => throw d

/-- Brings both operands of an arithmetic operator to one type, which is
returned. -/
def binary (o : Operand) (l r : Evaluated) : Check (List Expr) DataType := do
  ofExcept (arithmeticOperand o l)
  ofExcept (arithmeticOperand o r)
  if l.type = r.type then return l.type
  else if l.isLiteral && r.isLiteral then
    let l ← coerceSlot l .f64
    let _ ← coerceSlot r .f64
    return l.type
  else if l.isLiteral then
    let l ← coerceSlot l r.type
    return l.type
  else if r.isLiteral then
    let _ ← coerceSlot r l.type
    return l.type
  else throw ⟨o.pos, .mixedArithmetic l.type r.type⟩

/-- Evaluates the items of a postfix sequence from index `i` on. The top of the
operand stack comes first. -/
def evaluateItems (t : Table) :
    Nat → List Expr → List Evaluated → Check (List Expr) (List Evaluated)
  | _, [], stack => return stack
  | i, x :: rest, stack =>
    match x with
    | .value _ | .variable _ => do
      let y ← ofExcept (leaf t x (some i))
      evaluateItems t (i + 1) rest (y :: stack)
    | .operand o =>
      match stack with
      | r :: l :: below => do
        let type ← binary o l r
        modify (·.set i (.operand { o with type }))
        evaluateItems t (i + 1) rest (.computed o.pos type :: below)
      | _ => throw ⟨o.pos, .missingOperand o.op⟩
    | x => throw ⟨x.pos, .invalidNode x.kind⟩

def expression (t : Table) : Check Expression Evaluated := do
  let e ← get
  if !e.finished then throw ⟨e.pos, .unfinished⟩
  let stack ← Check.within ExpressionOf.items (fun e items => { e with items })
    (evaluateItems t 0 e.items [])
  match stack with
  | [x] =>
    modify fun e => { e with type := x.type, nullable := x.nullable }
    return x
  | _ => throw ⟨e.pos, .malformedPostfix ((← get).text t)⟩

/-- Converts an expression that is a single number literal to a numeric type.
`none` if its type is not the wanted one and cannot be made so. -/
def convertLiteral (x : Evaluated) (type : DataType) : Check Expression (Option Evaluated) := do
  if x.type = type then return some x
  else if !x.isLiteral || !x.type.isNumeric || !type.isNumeric then return none
  else
    let x ← Check.within ExpressionOf.items (fun e items => { e with items }) (coerceSlot x type)
    modify fun e => { e with type }
    return some x

/-- The same for any right-hand side; only expressions have literals to
convert. -/
def convertValue (x : Evaluated) (type : DataType) : Check Expr (Option Evaluated) := fun node =>
  match node with
  | .expression e =>
    match convertLiteral x type e with
    | .ok a e => .ok a (.expression e)
    | .error d e => .error d (.expression e)
  | node => .ok (if x.type = type then some x else none) node

/-- An operand of an ordering has to be a number that is not null. -/
def orderedOperand (c : Truth) (x : Evaluated) : Except Diagnostic Unit :=
  if x.mode = .null then .error ⟨c.pos, .nullComparison c.op⟩
  else if x.nullable || !x.type.isNumeric then .error ⟨c.pos, .badComparison c.op x.use⟩
  else .ok ()

def onLeft {α : Type} : Check Expression α → Check Truth α :=
  Check.within TruthOf.left fun c left => { c with left }

def onRight {α : Type} : Check Expression α → Check Truth α :=
  Check.within TruthOf.right fun c right => { c with right }

/-- Brings the sides of a comparison to one numeric type if one of them is a
literal, and returns their types. -/
def balance (l r : Evaluated) : Check Truth (DataType × DataType) := do
  let converted (x : Evaluated) (y : Option Evaluated) : DataType := (y.getD x).type
  if l.type = r.type || !l.type.isNumeric || !r.type.isNumeric then return (l.type, r.type)
  else if l.isLiteral && r.isLiteral then
    let l' ← onLeft (convertLiteral l .f64)
    let r' ← onRight (convertLiteral r .f64)
    return (converted l l', converted r r')
  else if l.isLiteral then
    let l' ← onLeft (convertLiteral l r.type)
    return (converted l l', r.type)
  else if r.isLiteral then
    let r' ← onRight (convertLiteral r l.type)
    return (l.type, converted r r')
  else return (l.type, r.type)

/-- Checks a comparison and annotates it with the type it is made at. Orderings
take numbers that are not null; equality takes everything of one type, and
null. -/
def truth (t : Table) : Check Truth Unit := do
  let l ← onLeft (expression t)
  let r ← onRight (expression t)
  let c ← get
  if !c.op.isEquality then
    ofExcept (orderedOperand c l)
    ofExcept (orderedOperand c r)
  if l.mode = .null && r.mode = .null then modify fun c => { c with type := .unresolved }
  else if l.mode = .null then modify fun c => { c with type := r.type }
  else if r.mode = .null then modify fun c => { c with type := l.type }
  else
    let (left, right) ← balance l r
    if left ≠ right then throw ⟨c.pos, .mixedComparison left right⟩
    modify fun c => { c with type := left }

/-- Checks the `i`-th argument of a call of `name`; a literal is converted where
it stands. -/
def argument (t : Table) (name : Bytes) (i : Nat) (param : Param) : Check (List Expr) Unit := do
  let some x := (← get)[i]? | return
  let y ← ofExcept (leaf t x (some i))
  let refused : Diagnostic :=
    ⟨x.pos, .badArgument y.use ⟨param.type, param.nullable⟩ (i + 1) name⟩
  if y.nullable && !param.nullable then throw refused
  else if param.type = .any ∨ y.mode = .null ∨ y.type = param.type then return
  else if y.isLiteral then
    match coerceSlot y param.type (← get) with
    | .ok _ items => set items
    | .error _ _ => throw refused
  else throw refused

def arguments (t : Table) (name : Bytes) : Nat → List Param → Check (List Expr) Unit
  | _, [] => return
  | i, param :: rest => do
    argument t name i param
    arguments t name (i + 1) rest

def call (t : Table) : Check Call Evaluated := do
  let c ← get
  match t.lookupFunction? c.name with
  | none =>
    if FuncDef.isBuiltinName c.name then throw ⟨c.pos, .unknownBuiltin c.name⟩
    else throw ⟨c.pos, .undefined c.name⟩
  | some f =>
    modify fun c => { c with target := some f }
    if c.args.length ≠ f.params.length then
      throw ⟨c.pos, .argumentCount c.name c.args.length f.params.length⟩
    Check.within CallOf.args (fun c args => { c with args }) (arguments t c.name 0 f.params)
    return ⟨if f.result = .void then .noValue else .value, c.pos, f.result, f.nullableResult, none⟩

def value (t : Table) : Check Expr Evaluated := fun node =>
  match node with
  | .value _ | .variable _ =>
    match leaf t node none with
    | .ok x => .ok x node
    | .error d => .error d node
  | .call c =>
    match call t c with
    | .ok x c => .ok x (.call c)
    | .error d c => .error d (.call c)
  | .expression e =>
    match expression t e with
    | .ok x e => .ok x (.expression e)
    | .error d e => .error d (.expression e)
  | node => .error ⟨node.pos, .invalidNode node.kind⟩ node

end Ifj24.Typing
