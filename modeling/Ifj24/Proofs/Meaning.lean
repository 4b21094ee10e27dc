import Ifj24.Code.Lowering

/-!
What checked programs mean. Values are the constants of the machine. Arithmetic,
comparisons and built-in functions can be interpreted in any way; what is fixed is the
order in which a program uses them. Evaluation goes by the structure of the tree: an
operator follows its operands, a call binds the parameters of a function to the values of
the arguments, and statements either go on with new values of the variables or return.
-/

namespace Ifj24.Meaning

open Ifj24.Tree
open Code (Constant Builtin)

structure Event where
  builtin : Builtin
  args : List Constant
  deriving DecidableEq, Repr

abbrev History := List Event

inductive Arith where
  | add
  | sub
  | mul
  | div
  deriving DecidableEq, Repr

def Arith.ofKind? : TokenKind → Option Arith
  | .add => some .add
  | .sub => some .sub
  | .mul => some .mul
  | .div => some .div
  | _ => none

/-- An interpretation of operators and built-in functions, each of which may have no result
for some operands. The result of a built-in function may depend on what was called
before. -/
structure Interp where
  int : Arith → Int → Int → Option Int
  float : Arith → Double → Double → Option Double
  eq : Constant → Constant → Option Bool
  lt : Constant → Constant → Option Bool
  gt : Constant → Constant → Option Bool
  builtin : History → Builtin → List Constant → Option (Option Constant)
  /-- A built-in function gives a value if it has a result at all. -/
  isSome_builtin : ∀ h b args r, builtin h b args = some r → r.isSome = b.hasResult

namespace Interp

variable (I : Interp)

def apply (o : Operand) (a b : Constant) : Option Constant :=
  match Arith.ofKind? o.op, o.type, a, b with
  | some op, .i32, .int x, .int y => (I.int op x y).map .int
  | some op, .f64, .float x, .float y => (I.float op x y).map .float
  | _, _, _, _ => none

def compare (op : TokenKind) (a b : Constant) : Option Bool :=
  match op with
  | .eql => I.eq a b
  | .neq => (I.eq a b).map not
  | .lss => I.lt a b
  | .gtr => I.gt a b
  | .leq => (I.gt a b).map not
  | .geq => (I.lt a b).map not
  | _ => none

end Interp

def literal (v : Value) : Option Constant :=
  if v.null then some .nil
  else
    match v.type with
    | .i32 => (Number.readInt64? v.literal).map .int
    | .f64 => (Number.readDouble? v.literal).map .float
    | .u8 => some (.string v.literal)
    | _ => none

abbrev Env := Bytes → UInt32 → Option Constant

namespace Env

variable (t : Table)

def empty : Env := fun _ _ => none

def get (env : Env) (r : VarRef) : Option Constant :=
  if (t.var r).isDiscard then none else env (t.var r).name (t.var r).id

/-- What is stored in `_` is lost. -/
def set (env : Env) (r : VarRef) (c : Constant) : Env :=
  if (t.var r).isDiscard then env
  else fun name id => if name = (t.var r).name ∧ id = (t.var r).id then some c else env name id

/-- The variables of a function that starts: one parameter for each argument. -/
def ofArgs : List VarRef → List Constant → Option Env
  | [], [] => some empty
  | r :: rs, c :: cs => (ofArgs rs cs).map fun env => env.set t r c
  | _, _ => none

end Env

section

variable (I : Interp) (t : Table) (fns : List Function)

def leafValue (env : Env) : Expr → Option Constant
  | .value v => literal v
  | .variable v => env.get t v.var
  | _ => none

def leafValues (env : Env) : List Expr → Option (List Constant)
  | [] => some []
  | x :: xs => do return (← leafValue t env x) :: (← leafValues env xs)

/-- Sequences in postfix order have values: first the one operand, then the other, then the
operator. -/
inductive SequenceEval (env : Env) : List Expr → Constant → Prop
  | leaf {x : Expr} {c : Constant} (hx : leafValue t env x = some c) : SequenceEval env [x] c
  | operator {o : Operand} {ls rs : List Expr} {a b c : Constant} (hl : SequenceEval env ls a)
      (hr : SequenceEval env rs b) (ho : I.apply o a b = some c) :
    SequenceEval env (ls ++ (rs ++ [.operand o])) c

/-- A guard holds and the body starts with the given variables, or it does not hold. -/
inductive GuardEval (env : Env) : Guard → Option Env → Prop
  | holds (hl : SequenceEval I t env c.left.items a)
      (hr : SequenceEval I t env c.right.items b) (hc : I.compare c.op a b = some true) :
    GuardEval env (.compare c) (some env)
  | fails (hl : SequenceEval I t env c.left.items a)
      (hr : SequenceEval I t env c.right.items b) (hc : I.compare c.op a b = some false) :
    GuardEval env (.compare c) none
  | present (hs : env.get t subject.var = some c) (hc : c ≠ .nil) :
    GuardEval env (.unwrap subject binding) (some (env.set t binding c))
  | absent (hs : env.get t subject.var = some .nil) : GuardEval env (.unwrap subject binding) none

inductive Job where
  | value (env : Env) (x : Expr)
  | stmt (env : Env) (s : Stmt)
  | stmts (env : Env) (ss : List Stmt)

inductive Result where
  /-- A right-hand side has a value, unless it is a call of a function without one. -/
  | value (r : Option Constant)
  /-- Statements go on. -/
  | next (env : Env)
  | returned (r : Option Constant)

/-- What a function gives whose body ends so. The end of the body is reached properly only
if the function has no result. -/
def Result.ofBody? (f : FuncDef) : Result → Option (Option Constant)
  | .returned r => some r
  | .next _ => if f.result = .void then some none else none
  | .value _ => none

/-- A variable to which a value may be assigned: `_`, or one that has a value. -/
def Assignable (env : Env) (r : VarRef) : Prop :=
  (t.var r).isDiscard = true ∨ (env.get t r).isSome = true

/-- Evaluation, from the calls of built-in functions before it to those after it. -/
inductive Evaluates : Job → History → Result → History → Prop
  | leaf {env : Env} {x : Expr} {c : Constant} {h : History} (hx : leafValue t env x = some c) :
    Evaluates (.value env x) h (.value (some c)) h
  | expression {env : Env} {e : Expression} {c : Constant} {h : History}
      (he : SequenceEval I t env e.items c) :
    Evaluates (.value env (.expression e)) h (.value (some c)) h
  | builtin {env : Env} {c : Call} {f : FuncDef} {b : Builtin} {args : List Constant}
      {r : Option Constant} {h : History} (htarget : c.target = some f)
      (hbuiltin : f.builtin = true) (hname : f.name = FuncDef.builtinStart ++ b.name)
      (hargs : leafValues t env c.args = some args) (hr : I.builtin h b args = some r) :
    Evaluates (.value env (.call c)) h (.value r) (⟨b, args⟩ :: h)
  | user (htarget : c.target = some fn.definition)
      (hbuiltin : fn.definition.builtin = false) (hfn : fn ∈ fns)
      (hargs : leafValues t env c.args = some args) (henv : Env.ofArgs t fn.params args = some env')
      (hbody : Evaluates (.stmts env' fn.body.stmts) h out h')
      (hr : out.ofBody? fn.definition = some r) : Evaluates (.value env (.call c)) h (.value r) h'
  | declare {env : Env} {pos : Pos} {r : VarRef} {x : Expr} {c : Constant} {h h' : History}
      (hx : Evaluates (.value env x) h (.value (some c)) h') :
    Evaluates (.stmt env (.declare pos r x)) h (.next (env.set t r c)) h'
  | assign {env : Env} {pos : Pos} {r : VarRef} {x : Expr} {c : Constant} {h h' : History}
      (hx : Evaluates (.value env x) h (.value (some c)) h') (hr : Assignable t env r) :
    Evaluates (.stmt env (.assign pos r x)) h (.next (env.set t r c)) h'
  | call {env : Env} {c : Call} {r : Option Constant} {h h' : History}
      (hc : Evaluates (.value env (.call c)) h (.value r) h') :
    Evaluates (.stmt env (.call c)) h (.next env) h'
  | ifTrue {env env' : Env} {pos : Pos} {g : Guard} {yes : Block} {no : Option Else}
      {out : Result} {h h' : History} (hg : GuardEval I t env g (some env'))
      (hyes : Evaluates (.stmts env' yes.stmts) h out h') :
    Evaluates (.stmt env (.ifElse pos g yes no)) h out h'
  | ifFalse {env : Env} {pos : Pos} {g : Guard} {yes : Block} {e : Else} {out : Result}
      {h h' : History} (hg : GuardEval I t env g none)
      (hno : Evaluates (.stmts env e.body.stmts) h out h') :
    Evaluates (.stmt env (.ifElse pos g yes (some e))) h out h'
  | ifSkip (hg : GuardEval I t env g none) :
    Evaluates (.stmt env (.ifElse pos g yes none)) h (.next env) h
  | whileDone (hg : GuardEval I t env g none) :
    Evaluates (.stmt env (.while pos g body)) h (.next env) h
  | whileNext {env env₁ env₂ : Env} {pos : Pos} {g : Guard} {body : Block} {out : Result}
      {h h₁ h₂ : History} (hg : GuardEval I t env g (some env₁))
      (hbody : Evaluates (.stmts env₁ body.stmts) h (.next env₂) h₁)
      (hagain : Evaluates (.stmt env₂ (.while pos g body)) h₁ out h₂) :
    Evaluates (.stmt env (.while pos g body)) h out h₂
  | whileReturn (hg : GuardEval I t env g (some env'))
      (hbody : Evaluates (.stmts env' body.stmts) h (.returned r) h') :
    Evaluates (.stmt env (.while pos g body)) h (.returned r) h'
  | returnNone : Evaluates (.stmt env (.return pos none)) h (.returned none) h
  | returnSome (hx : Evaluates (.value env x) h (.value (some c)) h') :
    Evaluates (.stmt env (.return pos (some x))) h (.returned (some c)) h'
  | nil : Evaluates (.stmts env []) h (.next env) h
  | cons {env env' : Env} {s : Stmt} {rest : List Stmt} {out : Result} {h h₁ h₂ : History}
      (hs : Evaluates (.stmt env s) h (.next env') h₁)
      (hrest : Evaluates (.stmts env' rest) h₁ out h₂) :
    Evaluates (.stmts env (s :: rest)) h out h₂
  | stop (hs : Evaluates (.stmt env s) h (.returned r) h') :
    Evaluates (.stmts env (s :: rest)) h (.returned r) h'

end

end Ifj24.Meaning
