import Ifj24.Token.Buffer
import Ifj24.Tree.Builder

/-!
Reading expressions and comparisons by operator precedence. A stack of terminals,
markers and nonterminals decides what is grammatical; every terminal that is
shifted also goes to an expression builder, so an accepted run has built its
tree. Each step of the automaton shifts one token or reduces one handle, and
either the tokens left or the stack get shorter by it.
-/

namespace Ifj24.Tree

/-- What the automaton does with an input below a given topmost terminal. -/
inductive PrecedenceAction where
  | shift
  | equal
  | reduce
  | stop
  | error
  deriving DecidableEq, Repr

namespace PrecedenceAction

/-- The table of operator precedence, by the topmost terminal and the input. -/
def select : TermClass → TermClass → PrecedenceAction
  | .addSub, .mulDiv | .addSub, .lparen | .addSub, .operand => .shift
  | .addSub, _ => .reduce
  | .mulDiv, .lparen | .mulDiv, .operand => .shift
  | .mulDiv, _ => .reduce
  | .lparen, .rparen => .equal
  | .lparen, .stop => .error
  | .lparen, _ => .shift
  | .rparen, .lparen | .rparen, .operand => .error
  | .rparen, _ => .reduce
  | .operand, .lparen | .operand, .operand => .error
  | .operand, _ => .reduce
  | .rel, .rparen | .rel, .rel | .rel, .stop => .reduce
  | .rel, _ => .shift
  | .stop, .rparen => .error
  | .stop, .stop => .stop
  | .stop, _ => .shift

end PrecedenceAction

inductive StackItem where
  | bottom
  | terminal (cls : TermClass) (token : Token)
  | marker
  | expr
  | relation
  deriving DecidableEq, Repr

namespace StackItem

def class? : StackItem → Option TermClass
  | .bottom => some .stop
  | .terminal cls _ => some cls
  | _ => none

def isTerminal (it : StackItem) : Bool := it.class?.isSome

def isClass (cls : TermClass) (it : StackItem) : Bool := it.class? == some cls

/-- The class of the topmost terminal of a stack whose top comes first. -/
def active? (stack : List StackItem) : Option TermClass := stack.findSome? class?

/-- The stack with a marker right above its topmost terminal. -/
def mark (stack : List StackItem) : List StackItem :=
  stack.takeWhile (!·.isTerminal) ++ .marker :: stack.dropWhile (!·.isTerminal)

/-- The items above the topmost marker, the lowest first and followed by `above`,
and the stack below that marker. The bottom of the stack is no part of a
handle. -/
def splitHandle? : List StackItem → List StackItem → Option (List StackItem × List StackItem)
  | [], _ => none
  | .marker :: rest, above => some (above, rest)
  | it :: rest, above =>
    if it.isClass .stop then none else splitHandle? rest (it :: above)

def match? (truth : Bool) : List StackItem → Option StackItem
  | [x] => if x.isClass .operand then some .expr else none
  | [x, y, z] =>
    if x = .expr && z = .expr && (y.isClass .addSub || y.isClass .mulDiv) then some .expr
    else if x.isClass .lparen && y = .expr && z.isClass .rparen then some .expr
    else if truth && x = .expr && z = .expr && y.isClass .rel then some .relation
    else none
  | _ => none

/-- The stack after the handle above the topmost marker is reduced. -/
def reduce? (truth : Bool) (stack : List StackItem) : Option (List StackItem) := do
  let (handle, below) ← splitHandle? stack []
  let nonterminal ← match? truth handle
  return nonterminal :: below

theorem length_of_splitHandle? {stack above handle below : List StackItem}
    (h : splitHandle? stack above = some (handle, below)) :
    handle.length + below.length + 1 = stack.length + above.length := by
  induction stack generalizing above with
  | nil => simp [splitHandle?] at h
  | cons it rest ih =>
    cases it with
    | marker =>
      simp only [splitHandle?, Option.some.injEq, Prod.mk.injEq] at h
      obtain ⟨rfl, rfl⟩ := h
      simp only [List.length_cons]
      omega
    | _ =>
      simp only [splitHandle?] at h
      split at h
      · simp at h
      · have := ih h
        simp only [List.length_cons] at this ⊢
        omega

theorem length_of_reduce? {truth : Bool} {stack next : List StackItem}
    (h : reduce? truth stack = some next) : next.length < stack.length := by
  simp only [reduce?, Option.bind_eq_bind, Option.pure_def, Option.bind_eq_some_iff,
    Option.some.injEq] at h
  obtain ⟨⟨handle, below⟩, split, nonterminal, matched, rfl⟩ := h
  have size := length_of_splitHandle? split
  have : handle ≠ [] := by
    rintro rfl
    simp [match?] at matched
  have := List.length_pos_iff.mpr this
  simp only [List.length_cons, List.length_nil] at size ⊢
  omega

end StackItem

structure Analyzer where
  /-- Whether a comparison is read, up to its closing parenthesis. -/
  truth : Bool
  /-- Open parentheses of a comparison, the one before it included. -/
  depth : Nat
  /-- The top of the stack comes first. -/
  stack : List StackItem
  builder : Builder
  /-- The left side of a comparison and its operator, once it is read. -/
  left : Option (Expression × Token)
  table : Table
  shifted : Nat
  pending : List Token
  last : Token
  cls : TermClass

namespace Analyzer

/-- The class of a token, and how many parentheses are open after it. -/
def classify (truth : Bool) (depth : Nat) (input : Token) :
    Except Diagnostic (TermClass × Nat) :=
  match input.kind with
  | .add | .sub => .ok (.addSub, depth)
  | .mul | .div => .ok (.mulDiv, depth)
  | .lparen => .ok (.lparen, if truth then depth + 1 else depth)
  | .rparen =>
    if truth then .ok (if depth - 1 = 0 then .stop else .rparen, depth - 1)
    else .ok (.rparen, depth)
  | .name | .string | .int | .float | .kwNull => .ok (.operand, depth)
  | .semi => if truth then .error ⟨input.pos, .inExpression input⟩ else .ok (.stop, depth)
  | kind =>
    if kind.isRelational then
      if truth then .ok (.rel, depth) else .error ⟨input.pos, .strayComparison kind⟩
    else .error ⟨input.pos, .inExpression input⟩

def input (a : Analyzer) : Token := a.pending.headD a.last

def look (a : Analyzer) : Except Diagnostic Analyzer :=
  match a.pending with
  | [] => .error ⟨a.last.pos, .inExpression a.last⟩
  | token :: _ => (classify a.truth a.depth token).map fun (cls, depth) => { a with cls, depth }

def start (truth : Bool) (pending : List Token) (last : Token) (table : Table) : Analyzer :=
  { truth
    depth := if truth then 1 else 0
    stack := [.bottom]
    builder := .start (pending.headD last).pos
    left := none
    table
    shifted := 0
    pending
    last
    cls := .stop }

/-- The node of an operand, with its use recorded in the table. -/
def leaf (table : Table) (token : Token) : Except Diagnostic (Expr × Table) :=
  match token.kind with
  | .name =>
    match table.find? token.literal with
    | some (r, table) => .ok (.variable ⟨token.pos, r⟩, table)
    | none => .error ⟨token.pos, .undefined token.literal⟩
  | .int => .ok (.value (.ofLiteral token.pos .i32 token.literal), table)
  | .float => .ok (.value (.ofLiteral token.pos .f64 token.literal), table)
  | .string => .ok (.value (.ofLiteral token.pos .u8 token.literal), table)
  | .kwNull => .ok (.value (.ofNull token.pos), table)
  | kind => .error (.nowhere (.operandToken kind))

/-- Gives the input to the builder. A comparison operator ends the left side, and
the right side starts at the token after it. -/
def feed (a : Analyzer) : Except Diagnostic Analyzer := do
  let token := a.input
  match a.cls with
  | .operand =>
    let (x, table) ← leaf a.table token
    let builder ← (a.builder.addTerm x).toExcept
    return { a with builder, table }
  | .rel =>
    if a.left.isSome then throw ⟨token.pos, .chainedComparison⟩
    let builder ← a.builder.finish.toExcept
    let next := a.pending.tail.headD a.last
    return { a with left := some (builder.expression, token), builder := .start next.pos }
  | _ =>
    let builder ← (a.builder.addOperator (.untyped token.pos token.kind)).toExcept
    return { a with builder }

/-- Whether the final stack is that of a whole sentence. -/
def accept (a : Analyzer) : Option Diagnostic :=
  let want : StackItem := if a.truth then .relation else .expr
  match a.stack with
  | [top, .bottom] =>
    if top = want then none
    else some ⟨a.input.pos, if a.truth then .notComparison else .malformedBefore a.input⟩
  | [_] => some ⟨a.input.pos, .missingExpression a.input⟩
  | _ => some ⟨a.input.pos, if a.truth then .notComparison else .malformedBefore a.input⟩

/-- What a step leads to. A failure keeps the state it arose in. -/
inductive Outcome where
  | next (a : Analyzer)
  | accepted (a : Analyzer)
  | failed (d : Diagnostic) (a : Analyzer)

def shift (a : Analyzer) : Outcome :=
  match a.pending with
  | [] => .failed ⟨a.last.pos, .inExpression a.last⟩ a
  | token :: rest =>
    match a.feed with
    | .error d => .failed d a
    | .ok fed =>
      let moved := { fed with
        stack := .terminal a.cls token :: a.stack
        shifted := a.shifted + 1
        pending := rest }
      match moved.look with
      | .error d => .failed d moved
      | .ok ready => .next ready

def step (a : Analyzer) : Outcome :=
  match StackItem.active? a.stack with
  | none => .failed (.nowhere .stackWithoutTerminal) a
  | some top =>
    match PrecedenceAction.select top a.cls with
    | .shift => shift { a with stack := StackItem.mark a.stack }
    | .equal => shift a
    | .reduce =>
      match StackItem.reduce? a.truth a.stack with
      | some stack => .next { a with stack }
      | none => .failed ⟨a.input.pos, .malformedBefore a.input⟩ a
    | .stop =>
      match a.accept with
      | none => .accepted a
      | some d => .failed d a
    | .error => .failed ⟨a.input.pos, .operatorOrder a.input top⟩ a

theorem look_eq {a b : Analyzer} (h : a.look = .ok b) :
    b.pending = a.pending ∧ b.stack = a.stack := by
  unfold look at h
  split at h
  · cases h
  · rename_i token rest eq
    cases hc : classify a.truth a.depth token with
    | error d => simp [hc, Except.map] at h
    | ok pair =>
      simp only [hc, Except.map, Except.ok.injEq] at h
      subst h
      exact ⟨rfl, rfl⟩

theorem shift_shorter {a b : Analyzer} (h : a.shift = .next b) :
    b.pending.length < a.pending.length := by
  unfold shift at h
  split at h
  · cases h
  · rename_i token rest eq
    split at h
    · cases h
    · dsimp only at h
      split at h
      · cases h
      · rename_i hready
        cases h
        rw [(look_eq hready).1, eq]
        simp

/-- A step that goes on leaves fewer tokens, or as many and a shorter stack. -/
theorem step_shorter {a b : Analyzer} (h : a.step = .next b) :
    b.pending.length < a.pending.length ∨
      b.pending.length = a.pending.length ∧ b.stack.length < a.stack.length := by
  unfold step at h
  split at h
  · cases h
  · split at h
    · exact .inl (by simpa using shift_shorter h)
    · exact .inl (shift_shorter h)
    · split at h
      · rename_i hreduce
        cases h
        exact .inr ⟨rfl, StackItem.length_of_reduce? hreduce⟩
      · cases h
    · split at h <;> cases h
    · cases h

def run (a : Analyzer) : Except Diagnostic Unit × Analyzer :=
  match _h : a.step with
  | .accepted b => (.ok (), b)
  | .failed d b => (.error d, b)
  | .next b => run b
termination_by (a.pending.length, a.stack.length)
decreasing_by
  have := step_shorter _h
  simp only [Prod.lex_def]
  omega

/-- Classifies the first token and runs the automaton. -/
def runFromStart (a : Analyzer) : Except Diagnostic Unit × Analyzer :=
  match a.look with
  | .error d => (.error d, a)
  | .ok ready => ready.run

end Analyzer

/-- The outcome of reading an expression or a comparison. The state is that of
the end or of the failure. -/
structure Analysis (α : Type) where
  result : Except Diagnostic α
  state : Analyzer

/-- Reads an arithmetic expression from the front of `pending` up to a semicolon,
which is not consumed. -/
def analyzeExpression (pending : List Token) (last : Token) (table : Table) :
    Analysis Expression :=
  let (outcome, a) := (Analyzer.start false pending last table).runFromStart
  { state := a
    result := do
      outcome
      let builder ← a.builder.finish.toExcept
      return builder.expression }

/-- Reads a comparison from the front of `pending` up to the parenthesis that
closes it, which is not consumed. -/
def analyzeCondition (pending : List Token) (last : Token) (table : Table) : Analysis Truth :=
  let (outcome, a) := (Analyzer.start true pending last table).runFromStart
  { state := a
    result := do
      outcome
      let some (left, op) := a.left | throw ⟨(pending.headD last).pos, .notComparison⟩
      let builder ← a.builder.finish.toExcept
      return ⟨op.pos, left, op.kind, builder.expression, .any⟩ }

def analyzeExpressionAt (b : TokenBuffer) (index : Int) (table : Table) : Analysis Expression :=
  analyzeExpression (b.readFrom index) b.last table

def analyzeConditionAt (b : TokenBuffer) (index : Int) (table : Table) : Analysis Truth :=
  analyzeCondition (b.readFrom index) b.last table

/-- The index at which a reading from `index` on has ended. -/
def Analysis.stop {α : Type} (a : Analysis α) (index : Int) : Int := index + a.state.shifted

end Ifj24.Tree
