import Ifj24.Diagnostic.Cause
import Ifj24.Symbols.Function
import Ifj24.Symbols.NameIndex

/-!
The symbol table of one compilation. Variables live in a store and are known by
their place in it, so that a syntax tree and the scopes share one variable; the
open scopes form a stack with the global scope at its bottom, and the scopes
inside each scope are known by their numbers. An operation that fails hands its
table back with the failure.
-/

namespace Ifj24

/-- A variable's place in the store of the table. -/
abbrev VarRef := Nat

inductive ScopeKind where
  | global
  | function
  | branch
  | loop
  | count
  | choice
  | unnamed (number : UInt8)
  deriving DecidableEq, Repr

namespace ScopeKind

def ofNumber (n : UInt8) : ScopeKind :=
  match n with
  | 0 => .global
  | 1 => .function
  | 2 => .branch
  | 3 => .loop
  | 4 => .count
  | 5 => .choice
  | n => .unnamed n

def text : ScopeKind → Bytes
  | .global => "global"
  | .function => "function"
  | .branch => "if"
  | .loop => "while"
  | .count => "for"
  | .choice => "switch"
  | .unnamed n => "ScopeKind(" ++ Bytes.ofNat n.toNat ++ ")"

end ScopeKind

/-- A variable, a parameter or the name bound by an unwrapping condition. -/
structure Var where
  id : UInt32
  name : Bytes
  type : DataType
  mutable_ : Bool
  nullable : Nullability
  accessed : Bool
  modified : Bool
  param : Bool
  pos : Pos
  scope : Nat
  deriving DecidableEq, Repr

namespace Var

/-- The variable `_`, which takes values that nobody wants. -/
def discard : Var :=
  { id := 0, name := "_", type := .unresolved, mutable_ := false, nullable := .yes,
    accessed := true, modified := false, param := false, pos := .none, scope := 0 }

instance : Inhabited Var := ⟨discard⟩

def isDiscard (v : Var) : Bool := v.id == 0

def typeUse (v : Var) : TypeUse := ⟨v.type, v.nullable.toBool⟩

def typeText (v : Var) : Bytes := v.typeUse.text

def text (v : Var) : Bytes :=
  "#" ++ Bytes.ofNat v.id.toNat ++ " " ++ v.name ++ ": " ++ v.typeText

/-- The rule of use that a variable breaks when its scope closes. -/
def usageFault? (strict : Bool) (v : Var) : Option UsageFault :=
  if v.param || v.isDiscard then none
  else if !v.accessed then some .neverRead
  else if strict && v.mutable_ && !v.modified then some .neverModified
  else none

end Var

structure Scope where
  kind : ScopeKind
  comment : Bytes
  /-- Scopes are numbered in the order in which they are opened. -/
  number : Nat
  /-- In the order of declaration. -/
  vars : List VarRef
  index : NameIndex VarRef
  deriving Repr

namespace Scope

def opened (kind : ScopeKind) (comment : Bytes) (number : Nat) : Scope :=
  ⟨kind, comment, number, [], .empty⟩

def lookup? (hash : NameHash) (s : Scope) (name : Bytes) : Option VarRef :=
  s.index.find? hash name

def insert (hash : NameHash) (s : Scope) (name : Bytes) (r : VarRef) : Scope :=
  { s with vars := s.vars ++ [r], index := s.index.insert hash name r }

end Scope

/-- The functions of a program by name, in the order in which they were
added. -/
structure Registry where
  order : List FuncDef
  index : NameIndex FuncDef
  deriving Repr

namespace Registry

def empty : Registry := ⟨[], .empty⟩

def lookup? (hash : NameHash) (r : Registry) (name : Bytes) : Option FuncDef :=
  r.index.find? hash name

def add (hash : NameHash) (r : Registry) (f : FuncDef) : Except Diagnostic Registry :=
  match r.lookup? hash f.name with
  | some _ => .error ⟨f.pos, .functionRedeclared f.name⟩
  | none => .ok ⟨r.order ++ [f], r.index.insert hash f.name f⟩

def ofList (hash : NameHash) (fs : List FuncDef) : Registry :=
  fs.foldl (fun r f => ⟨r.order ++ [f], r.index.insert hash f.name f⟩) empty

end Registry

structure Table where
  hash : NameHash
  store : Array Var
  /-- The declared variables, in the order of declaration. -/
  log : Array VarRef
  global : Scope
  /-- The open scopes inside the global one, the innermost first. -/
  inner : List Scope
  /-- The scopes directly inside each scope, by its number. -/
  children : Array (List Nat)
  nextScope : Nat
  nextId : UInt32
  funcs : Registry
  strict : Bool

namespace Table

def discard : VarRef := 0

/-- A table that knows `_` and the built-in functions. -/
def fresh (hash : NameHash) (strict : Bool) : Table :=
  { hash
    store := #[Var.discard]
    log := #[discard]
    global := (Scope.opened .global "global" 0).insert hash Var.discard.name discard
    inner := []
    children := #[[]]
    nextScope := 1
    nextId := 1
    funcs := .ofList hash FuncDef.builtins
    strict }

def current (t : Table) : Scope := t.inner.headD t.global

def isGlobal (t : Table) : Bool := t.inner.isEmpty

def childrenOf (t : Table) (s : Scope) : List Nat := t.children.getD s.number []

def var (t : Table) (r : VarRef) : Var := t.store.getD r .discard

def modify (t : Table) (r : VarRef) (f : Var → Var) : Table :=
  { t with store := t.store.modify r f }

def vars (t : Table) : List Var := t.log.toList.map t.var

/-- The variable that a name means, and the scope that declares it. -/
def resolve? (t : Table) (name : Bytes) : Option (VarRef × Scope) :=
  (t.inner ++ [t.global]).findSome? fun s => (s.lookup? t.hash name).map (·, s)

/-- The variable that a name means, which thereby counts as accessed. -/
def find? (t : Table) (name : Bytes) : Option (VarRef × Table) :=
  (t.resolve? name).map fun (r, _) => (r, t.modify r fun v => { v with accessed := true })

def lookup? (t : Table) (name : Bytes) : Option VarRef := t.current.lookup? t.hash name

/-- Declares a variable in the innermost scope, which must not be the global
one. Outer declarations of the name are hidden. -/
def declare (t : Table) (name : Bytes) (type : DataType) (mutable_ : Bool)
    (nullable : Nullability) (pos : Pos) : EStateM.Result Diagnostic Table VarRef :=
  match t.inner with
  | [] => .error ⟨pos, .globalVariable name⟩ t
  | scope :: outer =>
    match scope.lookup? t.hash name with
    | some r => .error ⟨pos, .variableRedeclared name (t.var r).pos⟩ t
    | none =>
      let r := t.store.size
      let v : Var :=
        { id := t.nextId, name, type, mutable_, nullable, accessed := false, modified := false,
          param := false, pos, scope := scope.number }
      .ok r { t with
        store := t.store.push v
        log := t.log.push r
        inner := scope.insert t.hash name r :: outer
        nextId := t.nextId + 1 }

/-- Opens a scope as the last child of the innermost one. -/
def enter (t : Table) (kind : ScopeKind) (comment : Bytes) : Table :=
  { t with
    inner := Scope.opened kind comment t.nextScope :: t.inner
    children := (t.children.modify t.current.number (· ++ [t.nextScope])).push []
    nextScope := t.nextScope + 1 }

/-- Takes a scope out of the children of the innermost one. -/
def detach (t : Table) (s : Scope) : Table :=
  { t with children := t.children.modify t.current.number (·.erase s.number) }

/-- The failure of the first variable that breaks a rule of use. -/
def unused? (t : Table) (s : Scope) : Option Diagnostic :=
  s.vars.findSome? fun r =>
    let v := t.var r
    (v.usageFault? t.strict).map fun fault => ⟨v.pos, .unused v.name fault⟩

structure Closed where
  scope : Scope
  unused : Option Diagnostic
  table : Table

/-- Closes the innermost scope, whatever its variables, and drops it from the
tree. Closing the global scope empties the table; only `_` stays known to those
who hold it. -/
def exit (t : Table) : Closed :=
  match t.inner with
  | scope :: outer => ⟨scope, t.unused? scope, { t with inner := outer }.detach scope⟩
  | [] =>
    ⟨t.global, t.unused? t.global,
      { t with
        log := #[]
        global := Scope.opened .global "global" t.nextScope
        children := t.children.push []
        nextScope := t.nextScope + 1
        funcs := .empty }⟩

def canMutate (v : Var) : Bool := v.isDiscard || v.mutable_

def addFunction (f : FuncDef) : EStateM Diagnostic Table Unit := fun t =>
  match t.funcs.add t.hash f with
  | .error d => .error d t
  | .ok funcs => .ok () { t with funcs }

def lookupFunction? (t : Table) (name : Bytes) : Option FuncDef := t.funcs.lookup? t.hash name

def userFunctions (t : Table) : List FuncDef := t.funcs.order.filter fun f => !f.builtin

/-- The lines of a scope and of its children, with the open scopes given from the
outside in. -/
def treeFrom (t : Table) (indent : Nat) : List Scope → Bytes
  | [] => []
  | s :: inside =>
    let margin := Bytes.spaces (2 * indent)
    let line (text : Bytes) : Bytes := margin ++ text ++ "\n"
    line (s.kind.text ++ " scope " ++ s.comment ++ " \x7b") ++
      s.vars.flatMap (fun r => line ("  " ++ (t.var r).text)) ++
      (t.childrenOf s).flatMap (fun n =>
        if inside.head?.map Scope.number = some n then t.treeFrom (indent + 1) inside else []) ++
      line "\x7d"

def tree (t : Table) : Bytes := t.treeFrom 0 (t.global :: t.inner.reverse)

end Table

end Ifj24
