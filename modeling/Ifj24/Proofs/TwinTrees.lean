import Ifj24.Proofs.Recognition
import Ifj24.Proofs.Twins

/-!
Twins of syntax trees, which differ in the places of their nodes and in the numbers of their
variables. The precedence automaton builds twins from twins: where the tokens of its stack and of
its output stand takes no part in a decision.
-/

open List

namespace Ifj24.Tree

variable {x y : Expr} {e e' : Expression} {c c' t t' : Truth}

variable (ρ : VarRef → VarRef → Prop)

inductive ItemTwin : Expr → Expr → Prop
  | value (v : Value) (pos : Pos) : ItemTwin (.value v) (.value { v with pos })
  | variable (pos pos' : Pos) : ρ r s → ItemTwin (.variable ⟨pos, r⟩) (.variable ⟨pos', s⟩)
  | operand (o : Operand) (pos : Pos) : ItemTwin (.operand o) (.operand { o with pos })

inductive LeafTwin : Expr → Expr → Prop
  | value (v : Value) (pos : Pos) : LeafTwin (.value v) (.value { v with pos })
  | variable (pos pos' : Pos) : ρ r s → LeafTwin (.variable ⟨pos, r⟩) (.variable ⟨pos', s⟩)

abbrev ItemsTwin : List Expr → List Expr → Prop := List.Forall₂ (ItemTwin ρ)

inductive ExpressionTwin : Expression → Expression → Prop
  | mk {xs ys : List Expr} {finished nullable : Bool} {type : DataType} (pos pos' : Pos) :
    ItemsTwin ρ xs ys →
    ExpressionTwin ⟨pos, xs, finished, type, nullable⟩ ⟨pos', ys, finished, type, nullable⟩

inductive TruthTwin : Truth → Truth → Prop
  | mk {left left' right right' : Expression} {op : TokenKind} {type : DataType} (pos pos' : Pos) :
    ExpressionTwin ρ left left' → ExpressionTwin ρ right right' →
    TruthTwin ⟨pos, left, op, right, type⟩ ⟨pos', left', op, right', type⟩

inductive CallTwin : Call → Call → Prop
  | mk {name : Bytes} {xs ys : List Expr} {target target' : Option FuncDef} (pos pos' : Pos) :
    ItemsTwin ρ xs ys → Option.Rel FuncDef.Twin target target' →
    CallTwin ⟨pos, name, xs, target⟩ ⟨pos', name, ys, target'⟩

inductive ValueTwin : Expr → Expr → Prop
  | expression {e e' : Expression} : ExpressionTwin ρ e e' → ValueTwin (.expression e) (.expression e')
  | call {c c' : Call} : CallTwin ρ c c' → ValueTwin (.call c) (.call c')

inductive GuardTwin : Guard → Guard → Prop
  | compare {t t' : Truth} : TruthTwin ρ t t' → GuardTwin (.compare t) (.compare t')
  | unwrap {r r' binding binding' : VarRef} (pos pos' : Pos) :
    ρ r r' → Fresh ρ binding binding' → GuardTwin (.unwrap ⟨pos, r⟩ binding) (.unwrap ⟨pos', r'⟩ binding')

/-- Twins of statements, the first of which stands before the others. -/
inductive StmtsTwin : List Stmt → List Stmt → Prop
  | nil : StmtsTwin [] []
  | declare {r s : VarRef} {x y : Expr} {xs ys : List Stmt} (pos pos' : Pos) :
    ρ r s → ValueTwin ρ x y → StmtsTwin xs ys →
    StmtsTwin (.declare pos r x :: xs) (.declare pos' s y :: ys)
  | assign {r s : VarRef} {x y : Expr} {xs ys : List Stmt} (pos pos' : Pos) :
    ρ r s → ValueTwin ρ x y → StmtsTwin xs ys →
    StmtsTwin (.assign pos r x :: xs) (.assign pos' s y :: ys)
  | call {c c' : Call} {xs ys : List Stmt} :
    CallTwin ρ c c' → StmtsTwin xs ys → StmtsTwin (.call c :: xs) (.call c' :: ys)
  | branch (pos pos' start start' : Pos) (stop stop' : BlockEnd) :
    GuardTwin ρ g g' → StmtsTwin yes yes' → StmtsTwin xs ys →
    StmtsTwin (.ifElse pos g ⟨start, yes, stop⟩ none :: xs)
      (.ifElse pos' g' ⟨start', yes', stop'⟩ none :: ys)
  | branchElse (pos pos' start start' : Pos)
    (stop stop' : BlockEnd) (otherwise otherwise' start₂ start₂' : Pos) (stop₂ stop₂' : BlockEnd) :
    GuardTwin ρ g g' → StmtsTwin yes yes' → StmtsTwin no no' → StmtsTwin xs ys →
    StmtsTwin (.ifElse pos g ⟨start, yes, stop⟩ (some ⟨otherwise, start₂, no, stop₂⟩) :: xs)
      (.ifElse pos' g' ⟨start', yes', stop'⟩ (some ⟨otherwise', start₂', no', stop₂'⟩) :: ys)
  | loop (pos pos' start start' : Pos) (stop stop' : BlockEnd) :
    GuardTwin ρ g g' → StmtsTwin body body' → StmtsTwin xs ys →
    StmtsTwin (.while pos g ⟨start, body, stop⟩ :: xs) (.while pos' g' ⟨start', body', stop'⟩ :: ys)
  | returnNone (pos pos' : Pos) :
    StmtsTwin xs ys → StmtsTwin (.return pos none :: xs) (.return pos' none :: ys)
  | returnSome {x y : Expr} (pos pos' : Pos) : ValueTwin ρ x y → StmtsTwin xs ys →
    StmtsTwin (.return pos (some x) :: xs) (.return pos' (some y) :: ys)

inductive FunctionTwin : Function → Function → Prop
  | mk {name : Bytes} {f f' : FuncDef} {rs rs' : List VarRef} {xs ys : List Stmt}
    (pos pos' start start' : Pos) (stop stop' : BlockEnd) :
    FuncDef.Twin f f' → List.Forall₂ ρ rs rs' → StmtsTwin ρ xs ys →
    FunctionTwin ⟨pos, name, f, rs, ⟨start, xs, stop⟩⟩ ⟨pos', name, f', rs', ⟨start', ys, stop'⟩⟩

variable {ρ} {ρ' : VarRef → VarRef → Prop}

theorem LeafTwin.item (h : LeafTwin ρ x y) : ItemTwin ρ x y := by
  cases h with
  | value v pos => exact .value v pos
  | «variable» pos pos' h => exact .variable pos pos' h

theorem ItemTwin.mono (h : ItemTwin ρ x y) (hρ : ∀ r s, ρ r s → ρ' r s) :
    ItemTwin ρ' x y := by
  cases h with
  | value v pos => exact .value v pos
  | «variable» pos pos' h => exact .variable pos pos' (hρ _ _ h)
  | operand o pos => exact .operand o pos

theorem ExpressionTwin.mono (h : ExpressionTwin ρ e e')
    (hρ : ∀ r s, ρ r s → ρ' r s) : ExpressionTwin ρ' e e' := by
  cases h with
  | mk pos pos' hitems => exact .mk pos pos' (hitems.imp fun _ _ h => h.mono hρ)

theorem TruthTwin.mono (h : TruthTwin ρ t t') (hρ : ∀ r s, ρ r s → ρ' r s) :
    TruthTwin ρ' t t' := by
  cases h with
  | mk pos pos' hleft hright => exact .mk pos pos' (hleft.mono hρ) (hright.mono hρ)

theorem ExpressionTwin.items (h : ExpressionTwin ρ e e') :
    ItemsTwin ρ e.items e'.items := by
  cases h with
  | mk pos pos' h => exact h

theorem ExpressionTwin.withItems (h : ExpressionTwin ρ e e')
    (hxs : ItemsTwin ρ xs ys) : ExpressionTwin ρ { e with items := xs } { e' with items := ys } := by
  cases h with
  | mk pos pos' h => exact .mk pos pos' hxs

theorem TruthTwin.left (h : TruthTwin ρ c c') :
    ExpressionTwin ρ c.left c'.left := by
  cases h with
  | mk pos pos' hleft hright => exact hleft

theorem TruthTwin.right (h : TruthTwin ρ c c') :
    ExpressionTwin ρ c.right c'.right := by
  cases h with
  | mk pos pos' hleft hright => exact hright

theorem FunctionTwin.signature (h : FunctionTwin ρ fn fn') :
    fn'.definition.signature = fn.definition.signature := by
  cases h with
  | mk pos pos' start start' stop stop' hdef hparams hstmts =>
    cases hdef
    rfl

theorem StmtsTwin.cons {x y : Stmt} {xs ys : List Stmt} (h : StmtsTwin ρ [x] [y])
    (hrest : StmtsTwin ρ xs ys) : StmtsTwin ρ (x :: xs) (y :: ys) := by
  cases h with
  | declare pos pos' hr hx => exact .declare pos pos' hr hx hrest
  | assign pos pos' hr hx => exact .assign pos pos' hr hx hrest
  | call hc => exact .call hc hrest
  | branch pos pos' start start' stop stop' hg hyes =>
    exact .branch pos pos' start start' stop stop' hg hyes hrest
  | branchElse pos pos' start start' stop stop' otherwise otherwise' start₂ start₂' stop₂ stop₂' hg
      hyes hno =>
    exact .branchElse pos pos' start start' stop stop' otherwise otherwise' start₂ start₂' stop₂
      stop₂' hg hyes hno hrest
  | loop pos pos' start start' stop stop' hg hbody =>
    exact .loop pos pos' start start' stop stop' hg hbody hrest
  | returnNone pos pos' => exact .returnNone pos pos' hrest
  | returnSome pos pos' hx => exact .returnSome pos pos' hx hrest

inductive OperandTwin : Operand → Operand → Prop
  | mk (o : Operand) (pos : Pos) : OperandTwin o { o with pos }

namespace Builder

structure Twin (ρ : VarRef → VarRef → Prop) (a b : Builder) : Prop where
  output : ItemsTwin ρ a.output b.output
  operators : List.Forall₂ OperandTwin a.operators b.operators
  finished : b.finished = a.finished

def AttemptAlike (ρ : VarRef → VarRef → Prop) (x y : Attempt) : Prop :=
  ExceptAlike (Twin ρ) x.toExcept y.toExcept

variable {a b : Builder}

theorem twin_start (pos pos' : Pos) : Twin ρ (start pos) (start pos') := ⟨.nil, .nil, rfl⟩

theorem Twin.expression (h : Twin ρ a b) : ExpressionTwin ρ a.expression b.expression := by
  have hitems : ItemsTwin ρ a.items b.items := by
    rw [items, items, h.finished]
    split
    · exact h.output
    · exact .nil
  unfold Builder.expression
  rw [h.finished]
  exact .mk _ _ hitems

theorem Twin.addTerm (h : Twin ρ a b) {x y : Expr} (hxy : LeafTwin ρ x y) :
    AttemptAlike ρ (a.addTerm x) (b.addTerm y) := by
  have houtput := rel_append h.output (.cons hxy.item .nil)
  unfold Builder.addTerm
  rw [h.finished]
  split
  · exact .error rfl
  · cases hxy with
    | value v pos => exact .ok ⟨houtput, h.operators, rfl⟩
    | «variable» pos pos' hrs => exact .ok ⟨houtput, h.operators, rfl⟩

theorem closeParen_alike (ho : List.Forall₂ OperandTwin os os')
    (hout : ItemsTwin ρ out out') :
    List.Forall₂ OperandTwin (closeParen os out).1 (closeParen os' out').1 ∧
      ItemsTwin ρ (closeParen os out).2.1 (closeParen os' out').2.1 ∧
      (closeParen os' out').2.2 = (closeParen os out).2.2 := by
  induction ho generalizing out out' with
  | nil => exact ⟨.nil, hout, rfl⟩
  | @cons o _ _ _ hop hrest ih =>
    cases hop with
    | mk pos =>
      rw [closeParen, closeParen]
      split
      · exact ⟨hrest, hout, rfl⟩
      · exact ih (rel_append hout (.cons (.operand o pos) .nil))

theorem yieldTo_alike (precedence : Nat) (ho : List.Forall₂ OperandTwin os os')
    (hout : ItemsTwin ρ out out') :
    List.Forall₂ OperandTwin (yieldTo precedence os out).1 (yieldTo precedence os' out').1 ∧
      ItemsTwin ρ (yieldTo precedence os out).2 (yieldTo precedence os' out').2 := by
  induction ho generalizing out out' with
  | nil => exact ⟨.nil, hout⟩
  | @cons o _ _ _ hop hrest ih =>
    cases hop with
    | mk pos =>
      rw [yieldTo, yieldTo]
      split
      · exact ⟨.cons (.mk o pos) hrest, hout⟩
      · exact ih (rel_append hout (.cons (.operand o pos) .nil))

theorem drain_alike (ho : List.Forall₂ OperandTwin os os')
    (hout : ItemsTwin ρ out out') :
    List.Forall₂ OperandTwin (drain os out).1 (drain os' out').1 ∧
      ItemsTwin ρ (drain os out).2.1 (drain os' out').2.1 ∧
      Option.Rel OperandTwin (drain os out).2.2 (drain os' out').2.2 := by
  induction ho generalizing out out' with
  | nil => exact ⟨.nil, hout, .none⟩
  | @cons o _ _ _ hop hrest ih =>
    cases hop with
    | mk pos =>
      rw [drain, drain]
      split
      · exact ⟨hrest, hout, .some (.mk o pos)⟩
      · exact ih (rel_append hout (.cons (.operand o pos) .nil))

theorem Twin.addOperator (h : Twin ρ a b) (op : TokenKind) (pos pos' : Pos) :
    AttemptAlike ρ (a.addOperator (.untyped pos op)) (b.addOperator (.untyped pos' op)) := by
  have hnew : OperandTwin (.untyped pos op) (.untyped pos' op) := .mk (.untyped pos op) pos'
  obtain ⟨hclosed, hclosedOut, hfound⟩ := closeParen_alike h.operators h.output
  obtain ⟨hyielded, hyieldedOut⟩ := yieldTo_alike op.precedence h.operators h.output
  unfold Builder.addOperator
  rw [h.finished]
  refine rel_ite .rfl (fun _ => .error rfl) fun _ => ?_
  refine rel_ite .rfl (fun _ => .ok ⟨h.output, .cons hnew h.operators, rfl⟩) fun _ => ?_
  refine rel_ite .rfl (fun _ => ?_) fun _ => ?_
  · dsimp only
    rw [hfound]
    generalize (closeParen a.operators a.output).2.2 = found
    cases found with
    | true => exact .ok ⟨hclosedOut, hclosed, rfl⟩
    | false => exact .error rfl
  · refine rel_ite .rfl (fun _ => ?_) fun _ => .error rfl
    exact .ok ⟨hyieldedOut, .cons hnew hyielded, rfl⟩

theorem Twin.finish (h : Twin ρ a b) : AttemptAlike ρ a.finish b.finish := by
  obtain ⟨hdrained, hout, hunclosed⟩ := drain_alike h.operators h.output
  unfold Builder.finish
  rw [h.finished]
  split
  · exact .ok h
  · generalize drain a.operators a.output = d at hdrained hout hunclosed
    generalize drain b.operators b.output = d' at hdrained hout hunclosed
    obtain ⟨os, out, unclosed⟩ := d
    obtain ⟨os', out', unclosed'⟩ := d'
    cases hunclosed with
    | some _ => exact .error rfl
    | none =>
      cases hout with
      | nil => exact .error rfl
      | cons hx hxs => exact .ok ⟨.cons hx hxs, hdrained, rfl⟩

end Builder

namespace StackItem

variable {it : StackItem}

def bare : StackItem → StackItem
  | .terminal cls _ => .terminal cls ⟨.none, [], .none⟩
  | it => it

theorem class?_bare (it : StackItem) : it.bare.class? = it.class? := by
  cases it <;> rfl

theorem isTerminal_bare (it : StackItem) : it.bare.isTerminal = it.isTerminal := by
  rw [isTerminal, isTerminal, class?_bare]

theorem isClass_bare (cls : TermClass) (it : StackItem) : it.bare.isClass cls = it.isClass cls := by
  rw [isClass, isClass, class?_bare]

theorem bare_eq_expr (it : StackItem) : it.bare = .expr ↔ it = .expr := by
  cases it <;> simp [bare]

theorem bare_eq_marker (it : StackItem) : it.bare = .marker ↔ it = .marker := by
  cases it <;> simp [bare]

theorem splitHandle?_cons (h : it ≠ .marker) (rest above : List StackItem) :
    splitHandle? (it :: rest) above =
      if it.isClass .stop then none else splitHandle? rest (it :: above) := by
  cases it with
  | marker => contradiction
  | _ => rfl

theorem active?_bare (stack : List StackItem) : active? (stack.map bare) = active? stack := by
  rw [active?, active?, findSome?_map]
  exact congrArg (stack.findSome? ·) (funext class?_bare)

theorem mark_bare (stack : List StackItem) : mark (stack.map bare) = (mark stack).map bare := by
  have hterminal : (fun it : StackItem => !it.isTerminal) ∘ bare = fun it => !it.isTerminal :=
    funext fun it => congrArg (!·) (isTerminal_bare it)
  rw [mark, mark, map_append, map_cons, takeWhile_map, dropWhile_map, hterminal]
  rfl

theorem splitHandle?_bare (stack above : List StackItem) :
    splitHandle? (stack.map bare) (above.map bare) =
      (splitHandle? stack above).map fun parts => (parts.1.map bare, parts.2.map bare) := by
  induction stack generalizing above with
  | nil => rfl
  | cons it rest ih =>
    by_cases hit : it = .marker
    · subst hit
      rfl
    · have hbare : it.bare ≠ .marker := fun h => hit ((bare_eq_marker it).mp h)
      rw [map_cons, splitHandle?_cons hit, splitHandle?_cons hbare, isClass_bare]
      split
      · rfl
      · exact ih (it :: above)

theorem match?_bare (truth : Bool) (handle : List StackItem) :
    match? truth (handle.map bare) = match? truth handle := by
  match handle with
  | [] => rfl
  | [x] => simp only [map_cons, map_nil, match?, isClass_bare]
  | [x, y] => rfl
  | [x, y, z] => simp only [map_cons, map_nil, match?, isClass_bare, bare_eq_expr]
  | _ :: _ :: _ :: _ :: _ => rfl

theorem bare_of_match? (h : match? truth handle = some it) : it.bare = it := by
  unfold match? at h
  split at h
  · split at h
    · cases h
      rfl
    · cases h
  · split at h
    · cases h
      rfl
    · split at h
      · cases h
        rfl
      · split at h
        · cases h
          rfl
        · cases h
  · cases h

theorem reduce?_bare (truth : Bool) (stack : List StackItem) :
    reduce? truth (stack.map bare) = (reduce? truth stack).map (List.map bare) := by
  have hsplit := splitHandle?_bare stack []
  simp only [map_nil] at hsplit
  simp only [reduce?, hsplit]
  cases splitHandle? stack [] with
  | none => rfl
  | some parts =>
    simp only [Option.map_some, Option.bind_eq_bind, Option.bind_some, match?_bare]
    cases hmatch : match? truth parts.1 with
    | none => rfl
    | some it =>
      simp only [Option.bind_some, Option.pure_def, Option.map_some, map_cons,
        bare_of_match? hmatch]

end StackItem

open StackItem

namespace Analyzer

variable {t : Table}

structure Twin (E : Prop) (m n c : Nat) (a b : Analyzer) : Prop where
  truth : b.truth = a.truth
  depth : b.depth = a.depth
  cls : b.cls = a.cls
  stack : b.stack.map bare = a.stack.map bare
  builder : Builder.Twin (Paired m n c) a.builder b.builder
  left : Option.Rel (fun x y => ExpressionTwin (Paired m n c) x.1 y.1 ∧ Token.Twin x.2 y.2) a.left
    b.left
  table : Table.Twin E m n c a.table b.table
  pending : List.Forall₂ Token.Twin a.pending b.pending
  last : Token.Twin a.last b.last

inductive OutcomeAlike (E : Prop) (m n c : Nat) : Outcome → Outcome → Prop
  | next {a b : Analyzer} : Twin E m n c a b → OutcomeAlike E m n c (.next a) (.next b)
  | accepted {a b : Analyzer} : Twin E m n c a b → OutcomeAlike E m n c (.accepted a) (.accepted b)
  | failed {d e : Diagnostic} {a b : Analyzer} :
    SameKind d e → OutcomeAlike E m n c (.failed d a) (.failed e b)

variable {m n c : Nat} {a b : Analyzer}

theorem classify_alike (truth : Bool) (depth : Nat) {input input' : Token}
    (h : Token.Twin input input') :
    ExceptAlike Eq (classify truth depth input) (classify truth depth input') := by
  cases h with
  | mk pos =>
    obtain ⟨kind, literal, pos⟩ := input
    unfold classify
    dsimp only
    split <;> first | exact .ok rfl | skip
    · split <;> exact .ok rfl
    · split <;> first | exact .ok rfl | exact .error rfl
    · split
      · split <;> first | exact .ok rfl | exact .error rfl
      · exact .error rfl

namespace Twin

theorem input (h : Twin E m n c a b) : Token.Twin a.input b.input := Token.Twin.headD h.pending h.last

theorem look (h : Twin E m n c a b) : ExceptAlike (Twin E m n c) a.look b.look := by
  have hpend := h.pending
  unfold Analyzer.look
  rw [h.truth, h.depth]
  generalize a.pending = pending at hpend
  generalize b.pending = pending' at hpend
  cases hpend with
  | nil => exact .error rfl
  | @cons token token' _ _ htoken hrest =>
    dsimp only
    have hclass := classify_alike a.truth a.depth htoken
    generalize classify a.truth a.depth token = x at hclass
    generalize classify a.truth a.depth token' = y at hclass
    cases hclass with
    | error hkind => exact .error hkind
    | ok heq =>
      subst heq
      exact .ok ⟨rfl, rfl, rfl, h.stack, h.builder, h.left, h.table, .cons htoken hrest, h.last⟩

end Twin

theorem leaf_alike (h : Table.Twin E m n c t u) (htoken : Token.Twin token token') :
    ExceptAlike (fun x y => LeafTwin (Paired m n c) x.1 y.1 ∧ Table.Twin E m n c x.2 y.2)
      (leaf t token) (leaf u token') := by
  cases htoken with
  | mk pos' =>
    obtain ⟨kind, literal, pos⟩ := token
    have hfind := h.find? literal
    unfold leaf
    dsimp only
    split
    · generalize t.find? literal = x at hfind
      generalize u.find? literal = y at hfind
      cases hfind with
      | none => exact .error rfl
      | some hxy => exact .ok ⟨.variable pos pos' hxy.1, hxy.2⟩
    · exact .ok ⟨.value _ pos', h⟩
    · exact .ok ⟨.value _ pos', h⟩
    · exact .ok ⟨.value _ pos', h⟩
    · exact .ok ⟨.value _ pos', h⟩
    · exact .error rfl

theorem Twin.feed (h : Twin E m n c a b) : ExceptAlike (Twin E m n c) a.feed b.feed := by
  have hinput := h.input
  unfold Analyzer.feed
  rw [h.cls]
  split
  · refine (leaf_alike h.table hinput).bind fun x y hxy => ?_
    refine (h.builder.addTerm hxy.1).bind fun builder builder' hbuild => ?_
    exact .ok ⟨h.truth, h.depth, rfl, h.stack, hbuild, h.left, hxy.2, h.pending, h.last⟩
  · rw [option_rel_isSome h.left]
    split
    · exact .error rfl
    · refine h.builder.finish.bind fun builder builder' hbuild => ?_
      exact .ok ⟨h.truth, h.depth, rfl, h.stack, Builder.twin_start _ _,
        .some ⟨hbuild.expression, hinput⟩, h.table, h.pending, h.last⟩
  · refine .bind (R := Builder.Twin (Paired m n c)) ?_ fun builder builder' hbuild => ?_
    · rw [hinput.kind]
      exact h.builder.addOperator _ _ _
    · exact .ok ⟨h.truth, h.depth, rfl, h.stack, hbuild, h.left, h.table, h.pending, h.last⟩

theorem Twin.shift (h : Twin E m n c a b) : OutcomeAlike E m n c a.shift b.shift := by
  have hpend := h.pending
  have hfeed := h.feed
  unfold Analyzer.shift
  generalize a.pending = pending at hpend
  generalize b.pending = pending' at hpend
  cases hpend with
  | nil => exact .failed rfl
  | @cons token token' rest rest' htoken hrest =>
    generalize a.feed = x at hfeed
    generalize b.feed = y at hfeed
    cases hfeed with
    | error hkind => exact .failed hkind
    | @ok fed fed' hfed =>
      dsimp only
      have hstack : (.terminal b.cls token' :: b.stack).map bare =
          (.terminal a.cls token :: a.stack).map bare := by
        rw [map_cons, map_cons, h.stack, h.cls]
        rfl
      have hmoved : Twin E m n c
          { fed with
            stack := .terminal a.cls token :: a.stack, shifted := a.shifted + 1, pending := rest }
          { fed' with
            stack := .terminal b.cls token' :: b.stack, shifted := b.shifted + 1, pending := rest' } :=
        ⟨hfed.truth, hfed.depth, hfed.cls, hstack, hfed.builder, hfed.left, hfed.table, hrest, hfed.last⟩
      have hlook := hmoved.look
      generalize Analyzer.look _ = x at hlook
      generalize Analyzer.look _ = y at hlook
      cases hlook with
      | error hkind => exact .failed hkind
      | ok hready => exact .next hready

theorem accept_of_bare (htruth : b.truth = a.truth)
    (hstack : b.stack.map bare = a.stack.map bare) (h : a.accept = none) :
    b.accept = none := by
  have hbare (it : StackItem) : it.bare = (if a.truth then .relation else .expr : StackItem) →
      it = if a.truth then .relation else .expr := by
    cases a.truth <;> cases it <;> simp [bare]
  have hbottom (it : StackItem) : it.bare = .bottom → it = .bottom := by
    cases it <;> simp [bare]
  have hwant : (if a.truth then .relation else .expr : StackItem).bare =
      if a.truth then .relation else .expr := by
    cases a.truth <;> rfl
  rw [stack_of_accept h, map_cons, map_cons, map_nil, hwant] at hstack
  obtain ⟨top, below, hb, htop, hbelow⟩ := map_eq_cons_iff.mp hstack
  obtain ⟨lowest, rest, rfl, hlowest, hrest⟩ := map_eq_cons_iff.mp hbelow
  obtain rfl := map_eq_nil_iff.mp hrest
  rw [hbare top htop, hbottom lowest hlowest] at hb
  simp [Analyzer.accept, hb, htruth]

theorem Twin.accept (h : Twin E m n c a b) : Option.Rel SameKind a.accept b.accept := by
  cases ha : a.accept with
  | none =>
    rw [accept_of_bare h.truth h.stack ha]
    exact .none
  | some d =>
    cases hb : b.accept with
    | none =>
      rw [accept_of_bare h.truth.symm h.stack.symm hb] at ha
      cases ha
    | some e => exact .some ((kind_of_accept hb).trans (kind_of_accept ha).symm)

/-- One step of the automaton leads from twins to twins. -/
theorem Twin.step (h : Twin E m n c a b) : OutcomeAlike E m n c a.step b.step := by
  have hactive : active? b.stack = active? a.stack := by
    rw [← active?_bare, h.stack, active?_bare]
  unfold Analyzer.step
  rw [hactive, h.cls]
  split
  · exact .failed rfl
  · split
    · refine Twin.shift ⟨h.truth, h.depth, rfl, ?_, h.builder, h.left, h.table, h.pending, h.last⟩
      rw [← mark_bare, ← mark_bare, h.stack]
    · exact h.shift
    · have hreduce : (reduce? b.truth b.stack).map (List.map bare) =
          (reduce? a.truth a.stack).map (List.map bare) := by
        rw [← reduce?_bare, ← reduce?_bare, h.stack, h.truth]
      generalize reduce? a.truth a.stack = x at hreduce
      generalize reduce? b.truth b.stack = y at hreduce
      cases x with
      | none =>
        cases y with
        | none => exact .failed rfl
        | some stack => cases hreduce
      | some stack =>
        cases y with
        | none => cases hreduce
        | some stack' =>
          exact .next ⟨h.truth, h.depth, rfl, Option.some.inj hreduce, h.builder, h.left, h.table,
            h.pending, h.last⟩
    · have haccept := h.accept
      generalize a.accept = x at haccept
      generalize b.accept = y at haccept
      cases haccept with
      | none => exact .accepted h
      | some hkind => exact .failed hkind
    · exact .failed rfl

inductive RunAlike (E : Prop) (m n c : Nat) :
    Except Diagnostic Unit × Analyzer → Except Diagnostic Unit × Analyzer → Prop
  | ok {a b : Analyzer} : Twin E m n c a b → RunAlike E m n c (.ok (), a) (.ok (), b)
  | error {e : Diagnostic} {a b : Analyzer} :
    SameKind d e → RunAlike E m n c (.error d, a) (.error e, b)

/-- Runs from twins end alike, by induction on the first one. -/
theorem Twin.run (h : Twin E m n c a b) : RunAlike E m n c a.run b.run := by
  fun_induction Analyzer.run a generalizing b with
  | case1 a final hstep =>
    have hstep' := h.step
    rw [hstep] at hstep'
    generalize hb : b.step = y at hstep'
    cases hstep' with
    | accepted hfinal =>
      rw [run_of_accepted hb]
      exact .ok hfinal
  | case2 a d final hstep =>
    have hstep' := h.step
    rw [hstep] at hstep'
    generalize hb : b.step = y at hstep'
    cases hstep' with
    | failed hkind =>
      rw [run_of_failed hb]
      exact .error hkind
  | case3 a next hstep ih =>
    have hstep' := h.step
    rw [hstep] at hstep'
    generalize hb : b.step = y at hstep'
    cases hstep' with
    | next hnext =>
      rw [run_of_next hb]
      exact ih hnext

theorem runFromStart_alike (truth : Bool) {pending pending' : List Token}
    {last last' : Token} (hpend : List.Forall₂ Token.Twin pending pending')
    (hlast : Token.Twin last last') (ht : Table.Twin E m n c t u) :
    RunAlike E m n c (start truth pending last t).runFromStart
      (start truth pending' last' u).runFromStart := by
  have hstart : Twin E m n c (start truth pending last t) (start truth pending' last' u) :=
    ⟨rfl, rfl, rfl, rfl, Builder.twin_start _ _, .none, ht, hpend, hlast⟩
  have hlook := hstart.look
  unfold runFromStart
  generalize (start truth pending last t).look = x at hlook
  generalize (start truth pending' last' u).look = y at hlook
  cases hlook with
  | error hkind => exact .error hkind
  | ok hready => exact hready.run

end Analyzer

open Analyzer

section

variable {m n c : Nat} {t : Table} {pending : List Token} {last : Token}

inductive AnalysisAlike {α β : Type} (E : Prop) (m n c : Nat) (R : α → β → Prop) :
    Analysis α → Analysis β → Prop
  | ok {x : α} {y : β} {a b : Analyzer} :
    R x y → a.Twin E m n c b → AnalysisAlike E m n c R ⟨.ok x, a⟩ ⟨.ok y, b⟩
  | error {e : Diagnostic} {a b : Analyzer} :
    SameKind d e → AnalysisAlike E m n c R ⟨.error d, a⟩ ⟨.error e, b⟩

theorem analyzeExpression_alike (hpend : List.Forall₂ Token.Twin pending pending')
    (hlast : Token.Twin last last') (ht : Table.Twin E m n c t u) :
    AnalysisAlike E m n c (ExpressionTwin (Paired m n c)) (analyzeExpression pending last t)
      (analyzeExpression pending' last' u) := by
  have hrun := runFromStart_alike false hpend hlast ht
  unfold analyzeExpression
  generalize (start false pending last t).runFromStart = x at hrun
  generalize (start false pending' last' u).runFromStart = y at hrun
  cases hrun with
  | error hkind => exact .error hkind
  | @ok a b hab =>
    have hfinish : ExceptAlike _ a.builder.finish.toExcept b.builder.finish.toExcept :=
      hab.builder.finish
    dsimp only
    generalize a.builder.finish.toExcept = x at hfinish
    generalize b.builder.finish.toExcept = y at hfinish
    cases hfinish with
    | error hkind => exact .error hkind
    | ok hbuild => exact .ok hbuild.expression hab

theorem analyzeCondition_alike (hpend : List.Forall₂ Token.Twin pending pending')
    (hlast : Token.Twin last last') (ht : Table.Twin E m n c t u) :
    AnalysisAlike E m n c (TruthTwin (Paired m n c)) (analyzeCondition pending last t)
      (analyzeCondition pending' last' u) := by
  have hrun := runFromStart_alike true hpend hlast ht
  unfold analyzeCondition
  generalize (start true pending last t).runFromStart = x at hrun
  generalize (start true pending' last' u).runFromStart = y at hrun
  cases hrun with
  | error hkind => exact .error hkind
  | @ok a b hab =>
    have hleft := hab.left
    have hfinish : ExceptAlike _ a.builder.finish.toExcept b.builder.finish.toExcept :=
      hab.builder.finish
    dsimp only
    generalize a.left = l at hleft
    generalize b.left = l' at hleft
    cases hleft with
    | none => exact .error rfl
    | @some l l' hl =>
      obtain ⟨left, op⟩ := l
      obtain ⟨left', op'⟩ := l'
      obtain ⟨hexpr, hop⟩ := hl
      generalize a.builder.finish.toExcept = x at hfinish
      generalize b.builder.finish.toExcept = y at hfinish
      cases hfinish with
      | error hkind => exact .error hkind
      | ok hbuild =>
        cases hop with
        | mk pos => exact .ok (.mk op.pos pos hexpr hbuild.expression) hab

end

end Ifj24.Tree
