import Ifj24.Proofs.Resolution

/-!
When a syntax tree shows a derivation tree. Nodes stand at the positions of the tokens
they come from. Variables are numbered in the order of their declarations, and a name
stands for a variable of that name that was declared before.
-/

namespace Ifj24.Grammar

open Ifj24.Tree Scoped

section

def Plain.count : Plain → Nat
  | .declare .. => 1
  | .drop .. | .assign .. | .call .. | .return .. => 0

def Guard.count : Guard → Nat
  | .compare .. => 0
  | .unwrap .. => 1

def Body.count : Body → Nat
  | .done => 0
  | .plain s rest => s.count + rest.count
  | .branch _ guard _ yes rest => guard.count + yes.count + rest.count
  | .branchElse _ guard _ yes _ _ no rest => guard.count + yes.count + no.count + rest.count
  | .loop _ guard _ body rest => guard.count + body.count + rest.count

def Function.count (f : Function) : Nat := f.params.toList.length + f.body.count

def countAll : List Function → Nat
  | [] => 0
  | f :: rest => f.count + countAll rest

end

section

variable (T : Table)

structure Declared (r : VarRef) (a : Token) (type : DataType) (mutable_ : Bool)
    (nullable : Nullability) : Prop where
  lt_size : r < T.store.size
  id : (T.var r).id = UInt32.ofNat r
  name : (T.var r).name = a.literal
  pos : (T.var r).pos = a.pos
  type : (T.var r).type = type
  mutable_ : (T.var r).mutable_ = mutable_
  nullable : (T.var r).nullable = nullable

def Named (n : Nat) (a : Token) (r : VarRef) : Prop := r < n ∧ (T.var r).name = a.literal

def NamesIn (P : Bytes → Prop) (ts : List Token) : Prop := ∀ a ∈ ts, a.kind = .name → P a.literal

def Spells (n : Nat) (meaning : Bytes → VarRef) (ts : List Token) : Prop :=
  ∀ a ∈ ts, a.kind = .name → Named T n a (meaning a.literal)

inductive TermsDepict (n : Nat) : Listed Term → List Expr → Prop
  | nil : TermsDepict n .nil []
  | last {a : Term} {meaning : Bytes → VarRef} (ha : Spells T n meaning [a.1]) :
    TermsDepict n (.last a) [leafExpr meaning a.1]
  | cons {a : Term} {comma : Lexeme .comma} {rest : Listed Term} {meaning : Bytes → VarRef}
      {xs : List Expr} (ha : Spells T n meaning [a.1]) (hrest : TermsDepict n rest xs) :
    TermsDepict n (.cons a comma rest) (leafExpr meaning a.1 :: xs)

inductive Call.Depicts (n : Nat) : Call → Tree.Call → Prop
  | mk {c : Call} {args : List Expr} (hargs : TermsDepict T n c.args args) :
    Call.Depicts n c ⟨c.callee.first.pos, c.callee.name, args, none⟩

inductive Rhs.Depicts (n : Nat) : Rhs → Expr → Prop
  | call {c : Call} {x : Tree.Call} (hc : c.Depicts T n x) : Rhs.Depicts n (.call c) (.call x)
  | arithmetic {e : Arithmetic} {meaning : Bytes → VarRef} (he : Spells T n meaning e.1.tokens) :
    Rhs.Depicts n (.arithmetic e) (.expression (Arithmetic.expression meaning e))

inductive Plain.Depicts (n : Nat) : Plain → Stmt → Prop
  | declare {binder : Binder} {name : Lexeme .name} {mark : Option TypeMark}
      {eq : Lexeme .assign} {value : Rhs} {semi : Lexeme .semi} {x : Expr}
      (hvalue : value.Depicts T n x)
      (hvar : Declared T n name.1 (annotated mark).1 (binder.1.kind = .kwVar)
        (annotated mark).2) :
    Plain.Depicts n (.declare binder name mark eq value semi) (.declare binder.1.pos n x)
  | drop (hvalue : value.Depicts T n x) :
    Plain.Depicts n (.drop target eq value semi) (.assign target.1.pos Table.discard x)
  | assign {target : Lexeme .name} {eq : Lexeme .assign} {value : Rhs} {semi : Lexeme .semi}
      {r : VarRef} {x : Expr} (htarget : Named T n target.1 r) (hvalue : value.Depicts T n x) :
    Plain.Depicts n (.assign target eq value semi) (.assign target.1.pos r x)
  | call {c : Call} {semi : Lexeme .semi} {x : Tree.Call} (hc : c.Depicts T n x) :
    Plain.Depicts n (.call c semi) (.call x)
  | returnNone : Plain.Depicts n (.return keyword none semi) (.return keyword.1.pos none)
  | returnSome (hvalue : value.Depicts T n x) :
    Plain.Depicts n (.return keyword (some value) semi) (.return keyword.1.pos (some x))

inductive Guard.Depicts (n : Nat) : Guard → Tree.Guard → Prop
  | compare {opening : Lexeme .lparen} {left right : Arithmetic} {op : Relation}
      {closing : Lexeme .rparen} {meaning : Bytes → VarRef}
      (h : Spells T n meaning (left.1.tokens ++ op.1 :: right.1.tokens)) :
    Guard.Depicts n (.compare opening left op right closing)
      (.compare ⟨op.1.pos, Arithmetic.expression meaning left, op.1.kind,
        Arithmetic.expression meaning right, .any⟩)
  | unwrap {opening : Lexeme .lparen} {subject bound : Lexeme .name} {closing : Lexeme .rparen}
      {bar bar' : Lexeme .pipe} {r : VarRef} (hsubject : Named T n subject.1 r)
      (hbound : Declared T n bound.1 .unresolved false .no) :
    Guard.Depicts n (.unwrap opening subject closing bar bound bar')
      (.unwrap ⟨subject.1.pos, r⟩ n)

def Braces.around (b : Braces) (stmts : List Stmt) (scope : Scope) : Block :=
  ⟨b.opening.1.pos, stmts, b.closing.1.pos, scope⟩

inductive Body.Depicts : Nat → Body → List Stmt → Prop
  | done : Body.Depicts n .done []
  | plain {n : Nat} {s : Plain} {rest : Body} {x : Stmt} {xs : List Stmt}
      (hs : s.Depicts T n x) (hrest : Body.Depicts (n + s.count) rest xs) :
    Body.Depicts n (.plain s rest) (x :: xs)
  | branch {n : Nat} {keyword : Lexeme .kwIf} {guard : Guard} {braces : Braces} {yes rest : Body}
      {g : Tree.Guard} {ys xs : List Stmt} {scope : Scope} (hguard : guard.Depicts T n g)
      (hyes : Body.Depicts (n + guard.count) yes ys)
      (hrest : Body.Depicts (n + guard.count + yes.count) rest xs) :
    Body.Depicts n (.branch keyword guard braces yes rest)
      (.ifElse keyword.1.pos g (braces.around ys scope) none :: xs)
  | branchElse {n : Nat} {keyword : Lexeme .kwIf} {guard : Guard} {braces braces' : Braces}
      {yes no rest : Body} {otherwise : Lexeme .kwElse} {g : Tree.Guard} {ys zs xs : List Stmt}
      {scope scope' : Scope} (hguard : guard.Depicts T n g)
      (hyes : Body.Depicts (n + guard.count) yes ys)
      (hno : Body.Depicts (n + guard.count + yes.count) no zs)
      (hrest : Body.Depicts (n + guard.count + yes.count + no.count) rest xs) :
    Body.Depicts n (.branchElse keyword guard braces yes otherwise braces' no rest)
      (.ifElse keyword.1.pos g (braces.around ys scope)
        (some ⟨otherwise.1.pos, braces'.around zs scope'⟩) :: xs)
  | loop {n : Nat} {keyword : Lexeme .kwWhile} {guard : Guard} {braces : Braces} {body rest : Body}
      {g : Tree.Guard} {ys xs : List Stmt} {scope : Scope} (hguard : guard.Depicts T n g)
      (hbody : Body.Depicts (n + guard.count) body ys)
      (hrest : Body.Depicts (n + guard.count + body.count) rest xs) :
    Body.Depicts n (.loop keyword guard braces body rest)
      (.while keyword.1.pos g (braces.around ys scope) :: xs)

def Parameter.Declares (n : Nat) (p : Parameter) : Prop :=
  Declared T n p.name.1 p.type.type false (.ofBool p.type.nullable)

inductive ParametersDepict : Nat → Listed Parameter → List VarRef → Prop
  | nil : ParametersDepict n .nil []
  | last {n : Nat} {p : Parameter} (hp : p.Declares T n) : ParametersDepict n (.last p) [n]
  | cons {n : Nat} {p : Parameter} {comma : Lexeme .comma} {rest : Listed Parameter}
      {rs : List VarRef} (hp : p.Declares T n) (hrest : ParametersDepict (n + 1) rest rs) :
    ParametersDepict n (.cons p comma rest) (n :: rs)

inductive Function.Depicts (n : Nat) : Function → Tree.Function → Prop
  | mk {f : Function} {params : List VarRef} {stmts : List Stmt} {scope : Scope}
      (hparams : ParametersDepict T n f.params params)
      (hbody : f.body.Depicts T (n + f.params.toList.length) stmts) :
    Function.Depicts n f
      ⟨f.pub.1.pos, f.name.1.literal, f.signature, params, f.braces.around stmts scope⟩

inductive FunctionsDepict : Nat → List Function → List Tree.Function → Prop
  | nil : FunctionsDepict n [] []
  | cons {n : Nat} {f : Function} {rest : List Function} {x : Tree.Function}
      {xs : List Tree.Function} (hf : f.Depicts T n x)
      (hrest : FunctionsDepict (n + f.count) rest xs) :
    FunctionsDepict n (f :: rest) (x :: xs)

/-- The variable `_` is the first one of every program. -/
inductive Program.Depicts : Program → Tree.Program → Prop
  | mk {p : Program} {fs : List Tree.Function} (hfunctions : FunctionsDepict T 1 p.functions fs) :
    Program.Depicts p ⟨p.prolog.const.1.pos, Cause.importPath, fs⟩

end

theorem ParametersDepict.eq_range {T : Table} (h : ParametersDepict T n params rs) :
    rs = List.range' n params.toList.length := by
  induction h with
  | nil => rfl
  | last => rfl
  | cons _ _ ih => rw [ih]; rfl

theorem Program.Depicts.functions {T : Table} {p : Program} {x : Tree.Program}
    (h : p.Depicts T x) : FunctionsDepict T 1 p.functions x.functions := by
  cases h with
  | mk h => exact h

theorem Program.mem_tokens (p : Program) (h : a ∈ p.functions.flatMap Function.tokens) :
    a ∈ p.tokens := List.mem_append_right _ (List.mem_append_left _ h)

theorem naming_apply (ts : List Token) (f : (Bytes → VarRef) → α) (s : Scoping) :
    (do
      let meaning ← meaning
      useAll ts
      return f meaning : Scoped α) s =
      match useAll ts s with
      | .ok _ s' => .ok (f s.table.visible) s'
      | .error d s' => .error d s' := by
  simp only [meaning, bind_apply, get_apply, pure_apply]
  cases useAll ts s <;> rfl

end Ifj24.Grammar
