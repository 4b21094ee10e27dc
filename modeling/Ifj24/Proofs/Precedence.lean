import Ifj24.Proofs.Arithmetic

/-!
The precedence automaton reads exactly the sentences of arithmetic. One half
follows the tokens: from a grouped tree it is known what the automaton and the
builder hold after each part of the tree. The other half follows the stack: it
always spells the tokens shifted so far, so an accepted stack is a sentence.
The run is deterministic, so the first half also says what is built.
-/

open List

namespace Ifj24

variable {u : Table}

namespace Table

def visible (t : Table) (name : Bytes) : VarRef := ((t.resolve? name).map Prod.fst).getD discard

def Sees (t : Table) (name : Bytes) : Prop := (t.resolve? name).isSome = true

def SameScopes (t u : Table) : Prop := ∀ name, t.resolve? name = u.resolve? name

theorem SameScopes.visible_eq {t : Table} (h : t.SameScopes u) : t.visible = u.visible := by
  funext name
  simp only [visible, h name]

end Table

namespace Tree

variable {t : Table} {a : Token}

def use (a : Token) : EStateM Diagnostic Table Unit := fun t =>
  if a.kind = .name then
    match t.find? a.literal with
    | some (_, t) => .ok () t
    | none => .error ⟨a.pos, .undefined a.literal⟩ t
  else .ok () t

def useAll : List Token → EStateM Diagnostic Table Unit
  | [] => pure ()
  | a :: rest => do
    use a
    useAll rest

theorem useAll_nil (t : Table) : useAll [] t = .ok () t := rfl

theorem useAll_cons (a : Token) (rest : List Token) (t : Table) :
    useAll (a :: rest) t =
      match use a t with
      | .ok _ u => useAll rest u
      | .error d u => .error d u := by
  simp only [useAll, bind, EStateM.bind]
  cases use a t <;> rfl

theorem useAll_append (as bs : List Token) (t : Table) :
    useAll (as ++ bs) t =
      match useAll as t with
      | .ok _ u => useAll bs u
      | .error d u => .error d u := by
  induction as generalizing t with
  | nil => rfl
  | cons a rest ih =>
    rw [cons_append, useAll_cons, useAll_cons]
    cases use a t with
    | ok _ u => exact ih u
    | error d u => rfl

theorem use_of_not_name (h : a.kind ≠ .name) (t : Table) : use a t = .ok () t := by
  simp [use, h]

theorem use_error (h : use a t = .error d u) : u = t := by
  unfold use at h
  split at h
  · split at h
    · cases h
    · cases h
      rfl
  · cases h

theorem use_cases (h : use a t = .ok () u) :
    u = t ∨ ∃ r, u = t.modify r fun v => { v with accessed := true } := by
  unfold use at h
  split at h
  · split at h
    · rename_i r t' hfind
      obtain ⟨pair, -, heq⟩ := Option.map_eq_some_iff.mp hfind
      cases heq
      cases h
      exact .inr ⟨pair.1, rfl⟩
    · cases h
  · cases h
    exact .inl rfl

theorem use_sameScopes (h : use a t = .ok () u) : t.SameScopes u := by
  obtain rfl | ⟨r, rfl⟩ := use_cases h <;> exact fun _ => rfl

theorem useAll_preserves {P : Table → Prop} {ts : List Token}
    (hP : ∀ t r, P t → P (t.modify r fun v => { v with accessed := true })) (h : P t)
    (hu : useAll ts t = .ok () u) : P u := by
  induction ts generalizing t with
  | nil =>
    cases hu
    exact h
  | cons a rest ih =>
    rw [useAll_cons] at hu
    cases ha : use a t with
    | error d v => simp [ha] at hu
    | ok _ v =>
      rw [ha] at hu
      refine ih ?_ hu
      obtain rfl | ⟨r, rfl⟩ := use_cases ha
      · exact h
      · exact hP t r h

theorem useAll_sameScopes {as : List Token} (h : useAll as t = .ok () u) :
    t.SameScopes u :=
  useAll_preserves (fun _ _ h => h) (fun _ => rfl) h

theorem useAll_ok_iff (as : List Token) (t : Table) :
    (∃ u, useAll as t = .ok () u) ↔ ∀ a ∈ as, a.kind = .name → t.Sees a.literal := by
  induction as generalizing t with
  | nil => simp [useAll_nil]
  | cons a rest ih =>
    rw [useAll_cons, forall_mem_cons]
    by_cases hname : a.kind = .name
    · cases hres : t.resolve? a.literal with
      | none =>
        have hfail : use a t = .error ⟨a.pos, .undefined a.literal⟩ t := by
          simp [use, hname, Table.find?, hres]
        simp [hfail, hname, Table.Sees, hres]
      | some pair =>
        obtain ⟨v, hv⟩ : ∃ v, use a t = .ok () v := by
          simp [use, hname, Table.find?, hres]
        have same := use_sameScopes hv
        simp only [hv, ih v, Table.Sees, ← same _]
        simp [hres]
    · rw [use_of_not_name hname]
      simp [ih, hname]

/-- The node of an operand whose name means the variable that `meaning` gives. -/
def leafExpr (meaning : Bytes → VarRef) (a : Token) : Expr :=
  match a.kind with
  | .name => .variable ⟨a.pos, meaning a.literal⟩
  | .int => .value (.ofLiteral a.pos .i32 a.literal)
  | .float => .value (.ofLiteral a.pos .f64 a.literal)
  | .string => .value (.ofLiteral a.pos .u8 a.literal)
  | _ => .value (.ofNull a.pos)

namespace ArithTree

def operator (op : Token) : Operand := .untyped op.pos op.kind

def postOrder (meaning : Bytes → VarRef) : ArithTree → List Expr
  | .operand a _ => [leafExpr meaning a]
  | .binary l op _ r => l.postOrder meaning ++ r.postOrder meaning ++ [.operand (operator op)]
  | .paren _ _ inner _ _ => inner.postOrder meaning

/-- The nodes of a tree that are out when its last token has been read. -/
def emitted (meaning : Bytes → VarRef) : ArithTree → List Expr
  | .operand a _ => [leafExpr meaning a]
  | .binary l _ _ r => l.postOrder meaning ++ r.emitted meaning
  | .paren _ _ inner _ _ => inner.postOrder meaning

/-- The operators of a tree that wait when its last token has been read, the
innermost first. -/
def waiting : ArithTree → List Operand
  | .binary _ op _ r => r.waiting ++ [operator op]
  | .operand .. | .paren .. => []

theorem emitted_append_waiting (meaning : Bytes → VarRef) (t : ArithTree) :
    t.emitted meaning ++ t.waiting.map .operand = t.postOrder meaning := by
  induction t with
  | operand a ha => simp [emitted, waiting, postOrder]
  | paren o ho inner c hc ih => simp [emitted, waiting, postOrder]
  | binary l op hop r ihl ihr => simp [emitted, waiting, postOrder, ← ihr]

theorem postOrder_ne_nil (meaning : Bytes → VarRef) (t : ArithTree) :
    t.postOrder meaning ≠ [] := by
  induction t with
  | operand a ha => simp [postOrder]
  | paren o ho inner c hc ih => exact ih
  | binary l op hop r ihl ihr => simp [postOrder]

theorem strength_le_waiting {t : ArithTree} (ht : t.Grouped)
    (ho : o ∈ t.waiting) : o.op.isArith = true ∧ t.strength ≤ o.op.precedence := by
  induction t with
  | operand a ha => simp [waiting] at ho
  | paren op hp inner c hc ih => simp [waiting] at ho
  | binary l op hop r ihl ihr =>
    obtain ⟨-, hr, -, hor⟩ := ht
    simp only [waiting, mem_append, mem_singleton] at ho
    rcases ho with ho | rfl
    · have := ihr hr ho
      simp only [strength]
      exact ⟨this.1, by omega⟩
    · exact ⟨hop, Nat.le_refl _⟩

end ArithTree

open ArithTree

variable {k : TokenKind}

namespace Builder

variable {t : ArithTree} {b : Builder}

/-- The operators on top of a stack do not yield to one of precedence `limit`. -/
def Blocked (limit : Nat) : List Operand → Prop
  | [] => True
  | top :: _ => top.op = .lparen ∨ top.op.precedence < limit

variable {waiting : List Operand}

theorem Blocked.mono (h : Blocked n ops) (hnm : n ≤ m) : Blocked m ops := by
  cases ops with
  | nil => trivial
  | cons top rest =>
    rcases h with h | h
    · exact .inl h
    · exact .inr (by omega)

theorem ne_lparen_of_isArith (h : k.isArith = true) : k ≠ .lparen := by
  rintro rfl
  simp [TokenKind.isArith] at h

theorem yieldTo_append (output : List Expr)
    (hw : ∀ o ∈ waiting, o.op.isArith = true ∧ limit ≤ o.op.precedence) (hb : Blocked limit ops) :
    yieldTo limit (waiting ++ ops) output = (ops, output ++ waiting.map .operand) := by
  induction waiting generalizing output with
  | nil =>
    cases ops with
    | nil => simp [yieldTo]
    | cons top rest =>
      simp only [Blocked] at hb
      simp [yieldTo, hb]
  | cons o rest ih =>
    obtain ⟨hl, hp⟩ := hw o (by simp)
    have hne := ne_lparen_of_isArith hl
    have hnot : ¬ (o.op = .lparen ∨ o.op.precedence < limit) := by
      rintro (h | h)
      · exact hne h
      · omega
    have hrest : ∀ o ∈ rest, o.op.isArith = true ∧ limit ≤ o.op.precedence :=
      fun x hx => hw x (by simp [hx])
    simp only [cons_append, yieldTo]
    rw [if_neg hnot, ih _ hrest]
    simp

theorem closeParen_append (output : List Expr)
    (hw : ∀ o ∈ waiting, o.op.isArith = true) (ho : opening.op = .lparen) :
    closeParen (waiting ++ opening :: ops) output =
      (ops, output ++ waiting.map .operand, true) := by
  induction waiting generalizing output with
  | nil => simp [closeParen, ho]
  | cons o rest ih =>
    have hne := ne_lparen_of_isArith (hw o (by simp))
    have hrest : ∀ o ∈ rest, o.op.isArith = true := fun x hx => hw x (by simp [hx])
    simp only [cons_append, closeParen]
    rw [if_neg hne, ih _ hrest]
    simp

theorem drain_waiting (output : List Expr) (hw : ∀ o ∈ waiting, o.op.isArith = true) :
    drain waiting output = ([], output ++ waiting.map .operand, none) := by
  induction waiting generalizing output with
  | nil => simp [drain]
  | cons o rest ih =>
    have hne := ne_lparen_of_isArith (hw o (by simp))
    have hrest : ∀ o ∈ rest, o.op.isArith = true := fun x hx => hw x (by simp [hx])
    simp only [drain]
    rw [if_neg hne, ih _ hrest]
    simp

theorem addOperator_arith {o : Operand} (hb : b.finished = false) (ho : o.op.isArith = true)
    (hops : b.operators = waiting ++ ops)
    (hw : ∀ x ∈ waiting, x.op.isArith = true ∧ o.op.precedence ≤ x.op.precedence)
    (hblocked : Blocked o.op.precedence ops) :
    (b.addOperator o).toExcept =
      .ok { b with output := b.output ++ waiting.map .operand, operators := o :: ops } := by
  have hlp : o.op ≠ .lparen := ne_lparen_of_isArith ho
  have hrp : o.op ≠ .rparen := by
    intro h
    simp [h, TokenKind.isArith] at ho
  simp [addOperator, Attempt.toExcept, hb, hlp, hrp, ho, hops,
    yieldTo_append b.output hw hblocked]

theorem addOperator_rparen {o : Operand} (hb : b.finished = false) (ho : o.op = .rparen)
    (hops : b.operators = waiting ++ opening :: ops) (hw : ∀ x ∈ waiting, x.op.isArith = true)
    (hopening : opening.op = .lparen) :
    (b.addOperator o).toExcept =
      .ok { b with output := b.output ++ waiting.map .operand, operators := ops } := by
  simp [addOperator, Attempt.toExcept, hb, ho, hops, closeParen_append b.output hw hopening]

def afterTree (b : Builder) (meaning : Bytes → VarRef) (t : ArithTree) : Builder :=
  { b with
    output := b.output ++ t.emitted meaning
    operators := t.waiting ++ b.operators }

theorem addOperator_afterTree (hb : b.finished = false) (meaning : Bytes → VarRef) (ht : t.Grouped)
    (hop : op.kind.isArith = true) (hle : op.kind.precedence ≤ t.strength)
    (hblocked : Blocked op.kind.precedence b.operators) :
    ((b.afterTree meaning t).addOperator (operator op)).toExcept =
      .ok { b with
        output := b.output ++ t.postOrder meaning
        operators := operator op :: b.operators } := by
  have hw : ∀ o ∈ t.waiting, o.op.isArith = true ∧ op.kind.precedence ≤ o.op.precedence := by
    intro o ho
    have := strength_le_waiting ht ho
    exact ⟨this.1, by omega⟩
  have hadd := addOperator_arith (b := b.afterTree meaning t) (o := operator op) hb hop
    rfl hw hblocked
  rw [hadd, ← emitted_append_waiting, ← append_assoc]
  rfl

theorem addOperator_close (hb : b.finished = false) (meaning : Bytes → VarRef)
    (ht : t.Grouped) (ho : opening.kind = .lparen)
    (hc : closing.kind = .rparen) :
    (({ b with operators := operator opening :: b.operators }.afterTree meaning
        t).addOperator (operator closing)).toExcept =
      .ok { b with output := b.output ++ t.postOrder meaning } := by
  have hw : ∀ o ∈ t.waiting, o.op.isArith = true :=
    fun o h => (strength_le_waiting ht h).1
  have hadd := addOperator_rparen
    (b := { b with operators := operator opening :: b.operators }.afterTree meaning t)
    (o := operator closing) hb hc rfl hw ho
  rw [hadd, ← emitted_append_waiting, ← append_assoc]
  rfl

/-- A builder that has read one tree is finished to its post-order. -/
theorem finish_afterTree (pos : Pos) (meaning : Bytes → VarRef) (ht : t.Grouped) :
    (((start pos).afterTree meaning t).finish).toExcept =
      .ok ⟨pos, t.postOrder meaning, [], true⟩ := by
  have hw : ∀ o ∈ t.waiting, o.op.isArith = true :=
    fun o h => (strength_le_waiting ht h).1
  have hdrain := drain_waiting (t.emitted meaning) hw
  rw [emitted_append_waiting] at hdrain
  have hne := t.postOrder_ne_nil meaning
  simp [finish, Attempt.toExcept, afterTree, start, hdrain, hne]

end Builder

open Builder

namespace PrecedenceAction

def classOf (k : TokenKind) : TermClass := if k.precedence = 1 then .addSub else .mulDiv

/-- How tightly a terminal on the stack holds the operand above it. -/
def hold : TermClass → Nat
  | .addSub => 1
  | .mulDiv => 2
  | _ => 0

def Opens (c : TermClass) : Prop := c ≠ .operand ∧ c ≠ .rparen

/-- Inputs that may come after an operand and do not belong to a tree of the given
strength. -/
def Follows (c : TermClass) (strength : Nat) : Prop :=
  c ≠ .operand ∧ c ≠ .lparen ∧ hold c ≤ strength

variable {c : TermClass}

theorem Follows.mono (h : Follows c n) (hnm : n ≤ m) : Follows c m :=
  ⟨h.1, h.2.1, Nat.le_trans h.2.2 hnm⟩

theorem hold_classOf (h : k.isArith = true) : hold (classOf k) = k.precedence := by
  rcases precedence_of_isArith h with h | h <;> simp [classOf, hold, h]

theorem opens_classOf (k : TokenKind) : Opens (classOf k) := by
  unfold classOf
  split <;> simp [Opens]

theorem follows_classOf (h : k.isArith = true) (hn : k.precedence ≤ n) : Follows (classOf k) n := by
  rcases precedence_of_isArith h with hp | hp <;>
    simp [Follows, classOf, hold, hp] <;> omega

theorem select_operand (h : Opens c) : select c .operand = .shift := by
  cases c <;> simp_all [Opens, select]

theorem select_lparen (h : Opens c) : select c .lparen = .shift := by
  cases c <;> simp_all [Opens, select]

theorem select_classOf (h : Opens c) (hk : k.isArith = true) (hlt : hold c < k.precedence) :
    select c (classOf k) = .shift := by
  rcases precedence_of_isArith hk with hp | hp <;>
    cases c <;> simp_all [Opens, classOf, hold, select]

theorem classOf_select (hk : k.isArith = true) (h : Follows c k.precedence) :
    select (classOf k) c = .reduce := by
  rcases precedence_of_isArith hk with hp | hp <;>
    cases c <;> simp_all [Follows, classOf, hold, select]

theorem operand_select (h : Follows c n) : select .operand c = .reduce := by
  cases c <;> simp_all [Follows, select]

theorem rparen_select (h : Follows c n) : select .rparen c = .reduce := by
  cases c <;> simp_all [Follows, select]

end PrecedenceAction

namespace StackItem

@[simp] theorem class?_bottom : class? .bottom = some .stop := rfl

@[simp] theorem class?_terminal (c : TermClass) (a : Token) :
    class? (.terminal c a) = some c := rfl

@[simp] theorem class?_marker : class? .marker = none := rfl

@[simp] theorem class?_expr : class? .expr = none := rfl

@[simp] theorem class?_relation : class? .relation = none := rfl

end StackItem

namespace Analyzer

open PrecedenceAction StackItem

variable {stack : List StackItem} {c : TermClass} {a : Token}

variable {b : Analyzer}

theorem run_of_next {a : Analyzer} (h : a.step = .next b) : a.run = b.run := by
  rw [run]
  split <;> simp_all

theorem run_of_failed {a : Analyzer} (h : a.step = .failed d b) :
    a.run = (.error d, b) := by
  rw [run]
  split <;> simp_all

theorem run_of_accepted {a : Analyzer} (h : a.step = .accepted b) : a.run = (.ok (), b) := by
  rw [run]
  split <;> simp_all

/-- A shift goes on behind the input, or fails where the builder does. -/
theorem run_of_shift {a : Analyzer} {rest : List Token} (hstep : a.step = b.shift)
    (hp : b.pending = token :: rest) :
    a.run =
      match b.feed with
      | .error d => (.error d, b)
      | .ok fed => ({ fed with
          stack := .terminal b.cls token :: b.stack
          shifted := b.shifted + 1
          pending := rest } : Analyzer).runFromStart := by
  unfold shift at hstep
  rw [hp] at hstep
  cases hfeed : b.feed with
  | error d =>
    rw [hfeed] at hstep
    exact run_of_failed hstep
  | ok fed =>
    rw [hfeed] at hstep
    dsimp only at hstep ⊢
    unfold runFromStart
    split at hstep
    · exact run_of_failed hstep
    · exact run_of_next hstep

theorem classify_operand (h : a.kind.isOperand = true) (truth : Bool) (depth : Nat) :
    classify truth depth a = .ok (.operand, depth) := by
  unfold classify
  cases hk : a.kind <;> simp [hk, TokenKind.isOperand] at h ⊢

theorem classify_arith (h : a.kind.isArith = true) (truth : Bool) (depth : Nat) :
    classify truth depth a = .ok (classOf a.kind, depth) := by
  unfold classify
  cases hk : a.kind <;>
    simp [hk, TokenKind.isArith, classOf, TokenKind.precedence] at h ⊢

def deeper (truth : Bool) (depth : Nat) : Nat := if truth then depth + 1 else depth

theorem classify_lparen (h : a.kind = .lparen) (truth : Bool) (depth : Nat) :
    classify truth depth a = .ok (.lparen, deeper truth depth) := by
  simp [classify, h, deeper]

theorem classify_rparen (h : a.kind = .rparen) {truth : Bool} {depth : Nat}
    (hd : truth = true → 0 < depth) :
    classify truth (deeper truth depth) a = .ok (.rparen, depth) := by
  cases truth with
  | false => simp [classify, h, deeper]
  | true =>
    have := hd rfl
    have hne : depth ≠ 0 := by omega
    simp [classify, h, deeper, hne]

theorem leaf_operand (h : a.kind.isOperand = true) (t : Table) :
    leaf t a =
      match use a t with
      | .ok _ u => .ok (leafExpr t.visible a, u)
      | .error d _ => .error d := by
  cases hk : a.kind <;> simp [hk, TokenKind.isOperand] at h
  case name =>
    cases hr : t.resolve? a.literal with
    | none => simp [leaf, hk, use, Table.find?, hr]
    | some pair => simp [leaf, hk, use, leafExpr, Table.find?, Table.visible, hr]
  all_goals simp [leaf, hk, use, leafExpr]

/-- The topmost item of a stack is a terminal of the given class. -/
def Top (stack : List StackItem) (c : TermClass) : Prop :=
  ∃ it below, stack = it :: below ∧ it.class? = some c

theorem Top.active (h : Top stack c) :
    active? stack = some c := by
  obtain ⟨it, below, rfl, hc⟩ := h
  simp [active?, hc]

theorem Top.active_expr (h : Top stack c) :
    active? (.expr :: stack) = some c := by
  obtain ⟨it, below, rfl, hc⟩ := h
  simp [active?, findSome?_cons, hc]

theorem Top.mark_eq (h : Top stack c) :
    mark stack = .marker :: stack := by
  obtain ⟨it, below, rfl, hc⟩ := h
  simp [mark, isTerminal, hc]

theorem Top.mark_expr (h : Top stack c) :
    mark (.expr :: stack) = .expr :: .marker :: stack := by
  obtain ⟨it, below, rfl, hc⟩ := h
  simp [mark, isTerminal, takeWhile_cons, dropWhile_cons, hc]

theorem reduce?_operand (truth : Bool) (a : Token) (below : List StackItem) :
    reduce? truth (.terminal .operand a :: .marker :: below) = some (.expr :: below) := by
  simp [reduce?, splitHandle?, isClass, match?]

theorem reduce?_binary (k : TokenKind) (truth : Bool) (a : Token) (below : List StackItem) :
    reduce? truth (.expr :: .terminal (classOf k) a :: .expr :: .marker :: below) =
      some (.expr :: below) := by
  unfold classOf
  split <;> simp [reduce?, splitHandle?, isClass, match?]

theorem reduce?_paren (truth : Bool) (o c : Token) (below : List StackItem) :
    reduce? truth (.terminal .rparen c :: .expr :: .terminal .lparen o :: .marker :: below) =
      some (.expr :: below) := by
  simp [reduce?, splitHandle?, isClass, match?]

section

variable {truth : Bool} {depth shifted : Nat} {stack : List StackItem}
  {builder builder' : Builder} {left : Option (Expression × Token)} {table : Table}
  {token : Token} {rest : List Token} {last : Token} {cls c top : TermClass}

theorem runFromStart_eq (h : classify truth depth token = .ok (c, depth')) :
    (mk truth depth stack builder left table shifted (token :: rest) last cls).runFromStart =
      (mk truth depth' stack builder left table shifted (token :: rest) last c).run := by
  simp [runFromStart, look, h, Except.map]

theorem run_reduce (top : TermClass) {next : List StackItem} {pending : List Token}
    (hactive : active? stack = some top) (hselect : select top cls = .reduce)
    (hreduce : reduce? truth stack = some next) :
    (mk truth depth stack builder left table shifted pending last cls).run =
      (mk truth depth next builder left table shifted pending last cls).run := by
  apply run_of_next
  simp [step, hactive, hselect, hreduce]

theorem run_shift_operand (hx : token.kind.isOperand = true) (htop : Top stack top)
    (hopens : Opens top) (hb : builder.finished = false) :
    (mk truth depth stack builder left table shifted (token :: rest) last .operand).run =
      match use token table with
      | .error d _ => (.error d,
          mk truth depth (.marker :: stack) builder left table shifted (token :: rest) last
            .operand)
      | .ok _ u =>
        (mk truth depth (.terminal .operand token :: .marker :: stack)
          { builder with output := builder.output ++ [leafExpr table.visible token] } left u
          (shifted + 1) rest last .operand).runFromStart := by
  have hstep : (mk truth depth stack builder left table shifted (token :: rest) last
      .operand).step = (mk truth depth (.marker :: stack) builder left table shifted
        (token :: rest) last .operand).shift := by
    simp [step, htop.active, select_operand hopens, htop.mark_eq]
  have hterm : (builder.addTerm (leafExpr table.visible token)).toExcept =
      .ok { builder with output := builder.output ++ [leafExpr table.visible token] } := by
    unfold leafExpr
    split <;> simp [addTerm, Builder.Attempt.toExcept, hb]
  rw [run_of_shift hstep rfl]
  simp only [feed, input, headD_cons, leaf_operand hx]
  cases use token table with
  | error d u => rfl
  | ok _ u => simp [bind, Except.bind, hterm, pure, Except.pure]

theorem run_shift_operator (hactive : active? stack = some top)
    (hselect : select top cls = .shift) (hmark : mark stack = marked)
    (hoperand : cls ≠ .operand) (hrel : cls ≠ .rel)
    (hb : (builder.addOperator (operator token)).toExcept = .ok builder') :
    (mk truth depth stack builder left table shifted (token :: rest) last cls).run =
      (mk truth depth (.terminal cls token :: marked) builder' left table (shifted + 1) rest last
        cls).runFromStart := by
  have hstep : (mk truth depth stack builder left table shifted (token :: rest) last cls).step =
      (mk truth depth marked builder left table shifted (token :: rest) last cls).shift := by
    simp [step, hactive, hselect, hmark]
  have hb' : (builder.addOperator (.untyped token.pos token.kind)).toExcept = .ok builder' := hb
  rw [run_of_shift hstep rfl]
  cases cls <;> simp_all [feed, input, bind, Except.bind, pure, Except.pure]

theorem run_equal_operator (top : TermClass) (hactive : active? stack = some top)
    (hselect : select top cls = .equal) (hoperand : cls ≠ .operand) (hrel : cls ≠ .rel)
    (hb : (builder.addOperator (operator token)).toExcept = .ok builder') :
    (mk truth depth stack builder left table shifted (token :: rest) last cls).run =
      (mk truth depth (.terminal cls token :: stack) builder' left table (shifted + 1) rest last
        cls).runFromStart := by
  have hstep : (mk truth depth stack builder left table shifted (token :: rest) last cls).step =
      (mk truth depth stack builder left table shifted (token :: rest) last cls).shift := by
    simp [step, hactive, hselect]
  have hb' : (builder.addOperator (.untyped token.pos token.kind)).toExcept = .ok builder' := hb
  rw [run_of_shift hstep rfl]
  cases cls <;> simp_all [feed, input, bind, Except.bind, pure, Except.pure]

/-- From a place where an operand may begin, the automaton reads a grouped tree
and reduces it to an expression, provided that the input after it does not belong
to the tree. It fails only at a name that means nothing. -/
theorem runFromStart_tree (t : ArithTree) (ht : t.Grouped) (truth : Bool)
    (depth depth' shifted : Nat) (stack : List StackItem) (builder : Builder)
    (left : Option (Expression × Token)) (table : Table) (token : Token) (rest : List Token)
    (last : Token) (cls c top : TermClass) (htop : Top stack top)
    (hopens : Opens top) (hhold : hold top < t.strength) (hb : builder.finished = false)
    (hops : Builder.Blocked t.strength builder.operators) (hdepth : truth = true → 0 < depth)
    (hclass : classify truth depth token = .ok (c, depth')) (hfollows : Follows c t.strength) :
    match useAll t.tokens table with
    | .ok _ u =>
      (mk truth depth stack builder left table shifted (t.tokens ++ token :: rest) last
          cls).runFromStart =
        (mk truth depth' (.expr :: stack) (builder.afterTree table.visible t) left u
          (shifted + t.tokens.length) (token :: rest) last c).run
    | .error d u =>
      ∃ b, (mk truth depth stack builder left table shifted (t.tokens ++ token :: rest) last
        cls).runFromStart = (.error d, b) ∧ b.table = u := by
  induction t generalizing truth depth depth' shifted stack builder left table token rest last cls
    c top with
  | operand x hx =>
    simp only [tokens, cons_append, nil_append, useAll_cons, useAll_nil]
    rw [runFromStart_eq (classify_operand hx truth depth), run_shift_operand hx htop hopens hb]
    cases huse : use x table with
    | error d u =>
      refine ⟨_, rfl, ?_⟩
      exact (use_error huse).symm
    | ok _ u =>
      dsimp only
      rw [runFromStart_eq hclass,
        run_reduce .operand rfl (operand_select hfollows) (reduce?_operand truth x stack)]
      simp [afterTree, emitted, waiting]
  | paren o ho inner cl hcl ih =>
    have huses : useAll (paren o ho inner cl hcl).tokens table =
        useAll inner.tokens table := by
      simp only [tokens, cons_append, useAll_cons, useAll_append, useAll_nil,
        use_of_not_name (a := o) (by simp [ho]), use_of_not_name (a := cl) (by simp [hcl])]
      cases useAll inner.tokens table <;> rfl
    have hopen : (builder.addOperator (operator o)).toExcept =
        .ok { builder with operators := operator o :: builder.operators } := by
      simp [addOperator, Builder.Attempt.toExcept, hb, operator,
        Operand.untyped, ho]
    have hdeeper : truth = true → 0 < deeper truth depth := by
      intro h
      simp [deeper, h]
    have inside := ih ht truth (deeper truth depth) depth (shifted + 1)
      (.terminal .lparen o :: .marker :: stack)
      { builder with operators := operator o :: builder.operators } left table cl
      (token :: rest) last .lparen .rparen .lparen ⟨_, _, rfl, rfl⟩
      (by simp [Opens]) inner.strength_pos hb (.inl ho) hdeeper (classify_rparen hcl hdepth)
      (by simp [Follows, hold])
    rw [huses]
    simp only [tokens, cons_append, append_assoc, nil_append]
    rw [runFromStart_eq (classify_lparen ho truth depth),
      run_shift_operator htop.active (select_lparen hopens) htop.mark_eq (by simp) (by simp) hopen]
    cases huse : useAll inner.tokens table with
    | error d u =>
      rw [huse] at inside
      exact inside
    | ok _ u =>
      rw [huse] at inside
      rw [inside, run_equal_operator .lparen rfl rfl (by simp) (by simp)
          (addOperator_close hb table.visible (show inner.Grouped from ht) ho hcl),
        runFromStart_eq hclass,
        run_reduce .rparen rfl (rparen_select hfollows) (reduce?_paren truth o cl stack)]
      simp [afterTree, emitted, waiting]
      congr 2
      omega
  | binary l op hop r ihl ihr =>
    obtain ⟨hl, hr, hol, hor⟩ := ht
    simp only [strength] at hhold hops hfollows
    have hnotName : op.kind ≠ .name := by
      intro h
      simp [h, TokenKind.isArith] at hop
    have hleft := ihl hl truth depth depth shifted stack builder left table op
      (r.tokens ++ token :: rest) last cls (classOf op.kind) top htop hopens (by omega) hb
      (hops.mono hol) hdepth (classify_arith hop truth depth) (follows_classOf hop hol)
    simp only [tokens, append_assoc, cons_append, useAll_append, useAll_cons,
      use_of_not_name hnotName]
    cases huse : useAll l.tokens table with
    | error d u =>
      rw [huse] at hleft
      exact hleft
    | ok _ u =>
      rw [huse] at hleft
      dsimp only at hleft ⊢
      have hselect := select_classOf hopens hop hhold
      have hclassOf := opens_classOf op.kind
      have hrel : classOf op.kind ≠ .rel := by
        unfold classOf
        split <;> simp
      rw [hleft, run_shift_operator htop.active_expr hselect htop.mark_expr hclassOf.1 hrel
        (addOperator_afterTree hb table.visible hl hop hol hops)]
      have hright := ihr hr truth depth depth' (shifted + l.tokens.length + 1)
        (.terminal (classOf op.kind) op :: .expr :: .marker :: stack)
        { builder with
          output := builder.output ++ l.postOrder table.visible
          operators := operator op :: builder.operators }
        left u token rest last (classOf op.kind) c (classOf op.kind) ⟨_, _, rfl, rfl⟩ hclassOf
        (by rw [hold_classOf hop]; exact hor) hb (.inr hor) hdepth hclass
        (hfollows.mono (by omega))
      cases huse' : useAll r.tokens u with
      | error d v =>
        rw [huse'] at hright
        exact hright
      | ok _ v =>
        rw [huse'] at hright
        rw [hright, run_reduce (classOf op.kind) rfl (classOf_select hop hfollows)
          (reduce?_binary op.kind truth op stack), ← (useAll_sameScopes huse).visible_eq]
        simp [afterTree, emitted, waiting]
        congr 2
        omega

end

end Analyzer

end Tree

end Ifj24
