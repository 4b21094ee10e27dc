import Mathlib.Logic.Relation
import Ifj24.Proofs.Layout

/-!
The machine with all its instructions, so that the code of built-in functions runs too. What
it leaves open is how doubles are computed with and how numbers are read. A run of a function
goes up to its `RETURN`; an instruction that finds values of wrong types, an index that is out
of range or a variable without a value has no step.

`Ends` says what such a run comes to. There is one rule for each instruction, and the rules
follow the code from its front, so a specification of some code is built up instruction by
instruction.
-/

namespace Ifj24

open Code Meaning
open Machine (Frame)

structure Processor where
  float : Arith → Double → Double → Option Double
  /-- Division of integers. -/
  quotient : Int → Int → Option Int
  floatLess : Double → Double → Bool
  floatEqual : Double → Double → Bool
  toFloat : Int → Double
  /-- Leaves out the fraction. -/
  toInt : Double → Int
  readInt : Bytes → Option Int
  readFloat : Bytes → Option Double

namespace Processor

structure State extends Machine.State where
  /-- The lines of input that are left. -/
  input : List Bytes
  output : List Constant

namespace State

def slot (s : State) : Place → Option (Option Constant)
  | .discard => s.globals .discard
  | p => s.frames.head?.bind fun f => f p

def assign (s : State) (p : Place) (c : Constant) : Option State :=
  (s.store p c).map fun m => { s with toState := m }

def goto (s : State) (program : List Instr) (l : Label) : Option State :=
  (s.jump program l).map fun m => { s with toState := m }

end State

open State

def byteAt (s : Bytes) (i : Int) : Option UInt8 := if 0 ≤ i then s[i.toNat]? else none

def typeName : Constant → Bytes
  | .nil => "nil"
  | .bool _ => "bool"
  | .int _ => "int"
  | .float _ => "float"
  | .string _ => "string"

section

variable (P : Processor)

def less : Constant → Constant → Option Bool
  | .int x, .int y => some (decide (x < y))
  | .string s, .string t => some (decide (s < t))
  | .float x, .float y => some (P.floatLess x y)
  | .bool a, .bool b => some (!a && b)
  | _, _ => none

/-- Equality of values of one type. Null can be compared with everything. -/
def equal : Constant → Constant → Option Bool
  | .nil, c | c, .nil => some (c == .nil)
  | .int x, .int y => some (x == y)
  | .string s, .string t => some (s == t)
  | .float x, .float y => some (P.floatEqual x y)
  | .bool a, .bool b => some (a == b)
  | _, _ => none

def integer : Arith → Int → Int → Option Int
  | .add, x, y => some (x + y)
  | .sub, x, y => some (x - y)
  | .mul, x, y => some (x * y)
  | .div, x, y => P.quotient x y

def interp : Interp where
  int := P.integer
  float := P.float
  eq := P.equal
  lt := P.less
  gt a b := P.less b a
  builtin _ _ _ := none
  isSome_builtin _ _ _ _ h := by cases h

def binary : BinaryOp → Constant → Constant → Option Constant
  | .add, a, b => Machine.numeric P.interp .add a b
  | .lt, a, b => (P.less a b).map .bool
  | .gt, a, b => (P.less b a).map .bool
  | .concat, .string s, .string t => some (.string (s ++ t))
  | .getChar, .string s, .int i => (byteAt s i).map fun b => .string [b]
  | .charCode, .string s, .int i => (byteAt s i).map fun b => .int b.toNat
  | _, _, _ => none

/-- What an operation makes of the data stack. Only bytes are characters. -/
def operate : StackOp → List Constant → Option (List Constant)
  | .intToFloat, .int n :: rest => some (.float (P.toFloat n) :: rest)
  | .floatToInt, .float x :: rest => some (.int (P.toInt x) :: rest)
  | .intToChar, .int n :: rest =>
    if 0 ≤ n ∧ n < 256 then some (.string [n.toNat.toUInt8] :: rest) else none
  | op, data => Machine.operate P.interp op data

def valueOf (line : Bytes) : InputType → Constant
  | .string => .string line
  | .int => (P.readInt line).elim .nil .int
  | .float => (P.readFloat line).elim .nil .float

def received (s : State) (type : InputType) : Constant :=
  s.input.head?.elim .nil fun line => P.valueOf line type

def execute (program : List Instr) (i : Instr) (s : State) : Option State :=
  match i with
  | .jumpIfEq l a b => do
    if ← P.equal (← s.read a) (← s.read b) then s.goto program l else some s
  | .jumpIfNeq l a b => do
    if ← P.equal (← s.read a) (← s.read b) then some s else s.goto program l
  | .call l => goto { s with calls := s.code :: s.calls } program l
  | .stack op => (P.operate op s.data).map fun data => { s with data }
  | .binary op p a b => do s.assign p (← P.binary op (← s.read a) (← s.read b))
  | .strLen p a => do
    match ← s.read a with
    | .string t => s.assign p (.int t.length)
    | _ => none
  | .typeOf p (.constant c) => s.assign p (.string (typeName c))
  | .typeOf p (.place q) => do s.assign p (.string ((← s.slot q).elim [] typeName))
  | .read p type => assign { s with input := s.input.tail } p (P.received s type)
  | .write a => (s.read a).map fun c => { s with output := s.output ++ [c] }
  | i => (Machine.execute P.interp program i s.toState).map fun m => { s with toState := m }

def step (program : List Instr) (s : State) : Option State :=
  match s.code with
  | [] => none
  | i :: code => P.execute program i { s with code }

def State.returns (s : State) : Bool := s.code.head? == some .return

def Within (program : List Instr) (s s' : State) : Prop :=
  s.returns = false ∧ P.step program s = some s'

abbrev Reaches (program : List Instr) : State → State → Prop :=
  Relation.ReflTransGen (P.Within program)

def Final (program : List Instr) (s : State) : Prop := ∀ s', ¬ P.Within program s s'

end

section

variable {P : Processor} {program : List Instr} {s : State}

theorem final_of_returns (h : s.returns = true) : P.Final program s := by
  rintro s' ⟨hs, -⟩
  rw [h] at hs
  cases hs

/-- A run inside a function ends in one way. -/
theorem Reaches.unique (h₁ : P.Reaches program s s₁) (h₂ : P.Reaches program s s₂)
    (hf₁ : P.Final program s₁) (hf₂ : P.Final program s₂) : s₁ = s₂ := by
  have hdet : Relator.RightUnique (P.Within program) := by
    rintro s a b ⟨-, ha⟩ ⟨-, hb⟩
    exact Option.some.inj (ha.symm.trans hb)
  have hstop {a b : State} (h : P.Reaches program a b) (ha : P.Final program a) : a = b := by
    rcases h.cases_head with rfl | ⟨c, hc, -⟩
    · rfl
    · exact absurd hc (ha c)
  rcases Relation.ReflTransGen.total_of_right_unique hdet h₁ h₂ with h | h
  · exact hstop h hf₁
  · exact (hstop h hf₂).symm

end

/-- A function is about to return: the calls and the global variables are those at the start of
the run, the frames are those given, and the data stack is as required. -/
structure Returned (base : List Frame) (Q : List Constant → Prop) (s s' : State) : Prop where
  returns : s'.returns = true
  calls : s'.calls = s.calls
  frames : s'.frames = base
  globals : s'.globals = s.globals
  data : Q s'.data

/-- From code, frames and data a run ends at a `RETURN` with the given frames and data. -/
def Ends (P : Processor) (program : List Instr) (base : List Frame) (Q : List Constant → Prop)
    (k : List Instr) (frames : List Frame) (data : List Constant) : Prop :=
  ∀ s : State, s.code = k → s.frames = frames → s.data = data →
    ∃ s', P.Reaches program s s' ∧ Returned base Q s s'

def valueIn (f : Frame) : Source → Option Constant
  | .constant c => some c
  | .place (.temporary x) => (f (.temporary x)).join
  | .place _ => none

def opened (names : List String) : Frame :=
  names.foldl (fun f x => f.set (Builtin.temp x) none) .empty

variable {a : Source} {c : Constant} {x : String} {l : Label}

namespace State

variable {s : State} {f : Frame}

theorem read_mk (h : valueIn f a = some c) :
    Machine.State.read ⟨code, calls, data, temporary, f :: fs, globals, history⟩ a = some c := by
  cases a with
  | constant c' => exact h
  | place p =>
    cases p with
    | temporary x => exact h
    | discard => cases h
    | «local» name id => cases h

theorem assign_temp (hframes : s.frames = f :: fs) (hx : (f (Builtin.temp x)).isSome = true) :
    s.assign (Builtin.temp x) c =
      some { s with frames := f.set (Builtin.temp x) (some c) :: fs } := by
  rw [Builtin.temp] at hx
  simp only [assign, Builtin.temp, Machine.State.store, hframes, hx, if_true, Option.map_some]

theorem goto_of_codeAt {program k : List Instr} (h : Machine.codeAt l program = some k) :
    s.goto program l = some { s with code := k } := by
  simp only [goto, Machine.State.jump, h, Option.map_some]

end State

namespace Ends

open Code.Builtin (temp get)

variable {P : Processor} {program : List Instr} {base : List Frame}
  {Q : List Constant → Prop} {k : List Instr} {f : Frame} {fs frames : List Frame}
  {data : List Constant}

theorem step {i : Instr} (hi : i ≠ .return)
    (h : ∀ s : State, ∃ s', P.execute program i { s with code := k, frames, data } = some s' ∧
      s'.calls = s.calls ∧ s'.globals = s.globals ∧
        Ends P program base Q s'.code s'.frames s'.data) :
    Ends P program base Q (i :: k) frames data := by
  rintro s hcode rfl rfl
  obtain ⟨s₁, hexecute, hcalls, hglobals, hends⟩ := h s
  obtain ⟨s₂, hreach, hret⟩ := hends s₁ rfl rfl rfl
  have hwithin : P.Within program s s₁ := by
    constructor
    · simp [returns, hcode, hi]
    · rw [Processor.step, hcode]
      exact hexecute
  refine ⟨s₂, .head hwithin hreach, ?_⟩
  exact ⟨hret.returns, hret.calls.trans hcalls, hret.frames, hret.globals.trans hglobals, hret.data⟩

theorem «return» (h : Q data) : Ends P program base Q (.return :: k) base data := by
  intro s hcode hframes hdata
  refine ⟨s, .refl, ?_, rfl, hframes, rfl, hdata ▸ h⟩
  simp [returns, hcode]

theorem label (h : Ends P program base Q k frames data) :
    Ends P program base Q (.label l :: k) frames data := by
  exact step (by simp) fun s => ⟨_, rfl, rfl, rfl, h⟩

theorem jump (hl : Machine.codeAt l program = some k') (h : Ends P program base Q k' frames data) :
    Ends P program base Q (.jump l :: k) frames data := by
  exact step (by simp) fun s => ⟨_, goto_of_codeAt hl, rfl, rfl, h⟩

theorem jumpIfEq {b : Source} {x y : Constant} {equal : Bool} (ha : valueIn f a = some x)
    (hb : valueIn f b = some y) (hequal : P.equal x y = some equal)
    (hl : Machine.codeAt l program = some k')
    (h : Ends P program base Q (if equal then k' else k) (f :: fs) data) :
    Ends P program base Q (.jumpIfEq l a b :: k) (f :: fs) data := by
  refine step (by simp) fun s => ?_
  simp only [execute, read_mk ha, read_mk hb, hequal,
    Option.bind_eq_bind, Option.bind_some]
  cases equal with
  | true => exact ⟨_, goto_of_codeAt hl, rfl, rfl, h⟩
  | false => exact ⟨_, rfl, rfl, rfl, h⟩

theorem jumpIfNeq {b : Source} {x y : Constant} {equal : Bool} (ha : valueIn f a = some x)
    (hb : valueIn f b = some y) (hequal : P.equal x y = some equal)
    (hl : Machine.codeAt l program = some k')
    (h : Ends P program base Q (if equal then k else k') (f :: fs) data) :
    Ends P program base Q (.jumpIfNeq l a b :: k) (f :: fs) data := by
  refine step (by simp) fun s => ?_
  simp only [execute, read_mk ha, read_mk hb, hequal,
    Option.bind_eq_bind, Option.bind_some]
  cases equal with
  | true => exact ⟨_, rfl, rfl, rfl, h⟩
  | false => exact ⟨_, goto_of_codeAt hl, rfl, rfl, h⟩

theorem assign {i : Instr} (hi : i ≠ .return) (hx : (f (temp x)).isSome = true)
    (hassign : ∀ s : State, P.execute program i { s with frames := f :: fs } =
      { s with frames := f :: fs }.assign (temp x) c)
    (h : Ends P program base Q k (f.set (temp x) (some c) :: fs) data) :
    Ends P program base Q (i :: k) (f :: fs) data := by
  exact step hi fun s =>
    ⟨_, (hassign { s with code := k, data }).trans (assign_temp rfl hx), rfl, rfl, h⟩

section

variable (hx : (f (temp x)).isSome = true)

include hx

theorem move (ha : valueIn f a = some c)
    (h : Ends P program base Q k (f.set (temp x) (some c) :: fs) data) :
    Ends P program base Q (.move (temp x) a :: k) (f :: fs) data := by
  refine assign (by simp) hx (fun s => ?_) h
  simp only [execute, Machine.execute, State.read_mk ha, Option.bind_eq_bind, Option.bind_some,
    State.assign]

theorem binary {op : BinaryOp} {b : Source} {u v : Constant}
    (ha : valueIn f a = some u) (hb : valueIn f b = some v) (hc : P.binary op u v = some c)
    (h : Ends P program base Q k (f.set (temp x) (some c) :: fs) data) :
    Ends P program base Q (.binary op (temp x) a b :: k) (f :: fs) data := by
  refine assign (by simp) hx (fun s => ?_) h
  simp only [execute, read_mk ha, read_mk hb, hc, Option.bind_eq_bind, Option.bind_some]

theorem strLen (ha : valueIn f a = some (.string t))
    (h : Ends P program base Q k (f.set (temp x) (some (.int t.length)) :: fs) data) :
    Ends P program base Q (.strLen (temp x) a :: k) (f :: fs) data := by
  refine assign (by simp) hx (fun s => ?_) h
  simp only [execute, read_mk ha, Option.bind_eq_bind, Option.bind_some]

theorem typeOf (hy : f (temp y) = some (some c))
    (h : Ends P program base Q k (f.set (temp x) (some (.string (typeName c))) :: fs) data) :
    Ends P program base Q (.typeOf (temp x) (get y) :: k) (f :: fs) data := by
  refine assign (by simp) hx (fun s => ?_) h
  have hslot : { s with frames := f :: fs }.slot (temp y) = some (some c) := hy
  simp only [execute, Builtin.get, hslot, Option.bind_eq_bind, Option.bind_some, Option.elim_some]

theorem read (h : ∀ line : Option Bytes, Ends P program base Q k
      (f.set (temp x) (some (line.elim .nil fun line => P.valueOf line type)) :: fs) data) :
    Ends P program base Q (.read (temp x) type :: k) (f :: fs) data := by
  exact step (by simp) fun s => ⟨_, assign_temp rfl hx, rfl, rfl, h s.input.head?⟩

end

theorem write (ha : valueIn f a = some c) (h : Ends P program base Q k (f :: fs) data) :
    Ends P program base Q (.write a :: k) (f :: fs) data := by
  refine step (by simp) fun s => ?_
  simp only [execute, read_mk ha, Option.map_some]
  exact ⟨_, rfl, rfl, rfl, h⟩

theorem push (ha : valueIn f a = some c) (h : Ends P program base Q k (f :: fs) (c :: data)) :
    Ends P program base Q (.push a :: k) (f :: fs) data := by
  refine step (by simp) fun s => ?_
  simp only [execute, Machine.execute, read_mk ha, Option.map_some]
  exact ⟨_, rfl, rfl, rfl, h⟩

theorem pop (hx : (f (temp x)).isSome = true)
    (h : Ends P program base Q k (f.set (temp x) (some c) :: fs) data) :
    Ends P program base Q (.pop (temp x) :: k) (f :: fs) (c :: data) := by
  refine step (by simp) fun s => ?_
  have hassign := assign_temp (s := { s with code := k, frames := f :: fs, data }) (c := c)
    rfl hx
  exact ⟨_, hassign, rfl, rfl, h⟩

theorem stack {op : StackOp} {data' : List Constant} (hop : P.operate op data = some data')
    (h : Ends P program base Q k frames data') :
    Ends P program base Q (.stack op :: k) frames data := by
  refine step (by simp) fun s => ?_
  simp only [execute, hop, Option.map_some]
  exact ⟨_, rfl, rfl, rfl, h⟩

theorem defVar (h : Ends P program base Q k (f.set (temp x) none :: fs) data) :
    Ends P program base Q (.defVar (temp x) :: k) (f :: fs) data := by
  exact step (by simp) fun s => ⟨_, rfl, rfl, rfl, h⟩

theorem popFrame (h : Ends P program base Q k fs data) :
    Ends P program base Q (.popFrame :: k) (f :: fs) data := by
  exact step (by simp) fun s => ⟨_, rfl, rfl, rfl, h⟩

theorem newFrame (h : Ends P program base Q k (Frame.empty :: frames) data) :
    Ends P program base Q (.createFrame :: .pushFrame :: k) frames data := by
  intro s hcode hframes hdata
  let created : State := { s with code := .pushFrame :: k, temporary := some .empty }
  let pushed : State := { s with code := k, temporary := none, frames := .empty :: s.frames }
  obtain ⟨s', hreach, hret⟩ := h pushed rfl (congrArg (.empty :: ·) hframes) hdata
  have hfirst : P.Within program s created := by
    refine ⟨by simp [returns, hcode], ?_⟩
    rw [Processor.step, hcode]
    rfl
  have hsecond : P.Within program created pushed := ⟨rfl, rfl⟩
  exact ⟨s', .head hfirst (.head hsecond hreach), hret.returns, hret.calls, hret.frames,
    hret.globals, hret.data⟩

theorem defVars {names : List String}
    (h : Ends P program base Q k (names.foldl (fun f x => f.set (temp x) none) f :: fs) data) :
    Ends P program base Q (names.map (fun x => .defVar (temp x)) ++ k) (f :: fs) data := by
  induction names generalizing f with
  | nil => exact h
  | cons x names ih => exact defVar (ih h)

theorem open_ (h : Ends P program base Q k (opened names :: frames) data) :
    Ends P program base Q (Builtin.open_ names ++ k) frames data :=
  newFrame (defVars h)

theorem close (h : Q data) :
    Ends P program base Q (Builtin.close ++ k) (f :: base) data :=
  popFrame (.return h)

theorem give (ha : valueIn f a = some c) (h : Q (c :: data)) :
    Ends P program base Q (Builtin.give a ++ k) (f :: base) data :=
  push ha (close h)

end Ends

end Processor

end Ifj24
