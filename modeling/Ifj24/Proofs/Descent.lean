import Ifj24.Proofs.Recognition
import Ifj24.Proofs.Binding
import Ifj24.Tree.Parser

/-!
Recursive descent on derivable tokens. A parser *reads* the leaves of a derivation
tree if it consumes them whatever comes after, and ends as the resolution of the
tree does. The rules below follow a parser token by token.
-/

open List

namespace Ifj24.Grammar

open Ifj24.Tree TokenKind Arithmetic Parser

variable {α β : Type} {last : Token}

/-- The kind of the first token of a sequence that is followed by a token of
another kind. -/
def firstKind : List Token → TokenKind → TokenKind
  | [], next => next
  | a :: _, _ => a.kind

/-- The outcome of a parser is that of `m`, and if it succeeds the tokens `left` are
left. -/
def Agrees (m : Scoped α) (s : Scoping) (outcome : EStateM.Result Diagnostic ParserState α)
    (left : List Token) : Prop :=
  match m s with
  | .ok a s' => outcome = .ok a ⟨left, s'.table, s'.unused⟩
  | .error d s' => ∃ other, outcome = .error d ⟨other, s'.table, s'.unused⟩

theorem Agrees.bind {m : Scoped α} {g : α → Scoped β} {p : Parser α} {f : α → Parser β}
    (hp : Agrees m s (p start) middle)
    (hf : ∀ a s', m s = .ok a s' → Agrees (g a) s' (f a ⟨middle, s'.table, s'.unused⟩) left) :
    Agrees (m >>= g) s ((p >>= f) start) left := by
  unfold Agrees at hp ⊢
  rw [bind_apply, bind_apply]
  cases hm : m s with
  | error d s' =>
    rw [hm] at hp
    obtain ⟨other, hp⟩ := hp
    rw [hp]
    exact ⟨other, rfl⟩
  | ok a s' =>
    rw [hm] at hp
    rw [hp]
    exact hf a s' hm

/-- The parser consumes `ts` before a token of a kind in `follow` and ends as `m`
does. -/
def Reads (p : Parser α) (ts : List Token) (m : Scoped α) (follow : TokenKind → Prop) : Prop :=
  ∀ (next : Token) (rest : List Token) (s : Scoping), follow next.kind →
    Agrees m s (p ⟨ts ++ next :: rest, s.table, s.unused⟩) (next :: rest)

namespace Reads

variable {p : Parser α} {f : α → Parser β} {m : Scoped α} {g : α → Scoped β}
  {ts us : List Token} {F G : TokenKind → Prop}

theorem mono (h : Reads p ts m F) (hG : ∀ k, G k → F k) : Reads p ts m G :=
  fun next rest s hnext => h next rest s (hG _ hnext)

theorem pure (a : α) : Reads (Pure.pure a) [] (Pure.pure a) F := fun _ _ _ _ => rfl

theorem bind_of_ok (hp : Reads p ts m F)
    (hf : ∀ a s s', m s = .ok a s' → Reads (f a) us (g a) G)
    (hF : ∀ k, G k → F (firstKind us k)) : Reads (p >>= f) (ts ++ us) (m >>= g) G := by
  intro next rest s hnext
  obtain ⟨first, more, hsplit, hfirst⟩ : ∃ first more, us ++ next :: rest = first :: more ∧
      F first.kind := by
    cases us with
    | nil => exact ⟨next, rest, rfl, hF _ hnext⟩
    | cons u us => exact ⟨u, us ++ next :: rest, rfl, hF _ hnext⟩
  rw [append_assoc, hsplit]
  refine .bind (hp first more s hfirst) ?_
  intro a s' hm
  rw [← hsplit]
  exact hf a s s' hm next rest s' hnext

theorem bind (hp : Reads p ts m F) (hf : ∀ a, Reads (f a) us (g a) G)
    (hF : ∀ k, G k → F (firstKind us k)) : Reads (p >>= f) (ts ++ us) (m >>= g) G :=
  bind_of_ok hp (fun a _ _ _ => hf a) hF

theorem bind_pure {h : α → β} (hp : Reads p ts m F) :
    Reads (do let a ← p; Pure.pure (h a)) ts (do let a ← m; Pure.pure (h a)) F := by
  have hboth := bind hp (fun a => pure (h a)) (fun k hk => hk)
  rwa [append_nil] at hboth

theorem bind_value {x : α} {n : Scoped β} (hp : Reads p ts (Pure.pure x) F)
    (hf : Reads (f x) us n G) (hF : ∀ k, G k → F (firstKind us k)) :
    Reads (p >>= f) (ts ++ us) n G := by
  change Reads _ _ (.pure x >>= fun _ => n) G
  refine bind_of_ok hp ?_ hF
  intro a s s' ha
  cases ha
  exact hf

theorem bind_nil (hp : Reads p [] m F) (hf : ∀ a, Reads (f a) us (g a) G)
    (hF : ∀ k, G k → F (firstKind us k)) : Reads (p >>= f) us (m >>= g) G :=
  bind hp hf hF

section

variable {a : Token} {k : TokenKind}

theorem consume (hp : ∀ b rest t u, p ⟨a :: b :: rest, t, u⟩ = .ok x ⟨b :: rest, t, u⟩)
    (h : Reads (f x) ts n F) : Reads (p >>= f) (a :: ts) n F := by
  intro next rest s hnext
  have hstep : (p >>= f) ⟨a :: ts ++ next :: rest, s.table, s.unused⟩ =
      f x ⟨ts ++ next :: rest, s.table, s.unused⟩ := by
    cases ts with
    | nil => simp only [Bind.bind, EStateM.bind, cons_append, nil_append, hp]
    | cons b ts => simp only [Bind.bind, EStateM.bind, cons_append, hp]
  rw [hstep]
  exact h next rest s hnext

theorem glance (hp : ∀ next rest t u, F next.kind →
      p ⟨ts ++ next :: rest, t, u⟩ = .ok x ⟨ts ++ next :: rest, t, u⟩)
    (h : Reads (f x) ts n F) : Reads (p >>= f) ts n F := by
  intro next rest s hnext
  have hstep : (p >>= f) ⟨ts ++ next :: rest, s.table, s.unused⟩ =
      f x ⟨ts ++ next :: rest, s.table, s.unused⟩ := by
    simp only [Bind.bind, EStateM.bind, hp next rest _ _ hnext]
  rw [hstep]
  exact h next rest s hnext

theorem advance {f : Unit → Parser β} (h : Reads (f ()) ts n F) :
    Reads (advance >>= f) (a :: ts) n F :=
  consume (fun _ _ _ _ => rfl) h

theorem peek {f : Token → Parser β} (h : Reads (f a) (a :: ts) n F) :
    Reads (peek last >>= f) (a :: ts) n F :=
  glance (fun _ _ _ _ _ => rfl) h

theorem peek_head {f : Token → Parser β} (hts : ts.head? = some a) (h : Reads (f a) ts n F) :
    Reads (Parser.peek last >>= f) ts n F := by
  cases ts with
  | nil => simp at hts
  | cons b ts =>
    obtain rfl : b = a := by simpa using hts
    exact peek h

theorem fuel {f : Nat → Parser β} (h : ∀ i, ts.length < i → Reads (f i) ts n F) :
    Reads (fuel >>= f) ts n F := by
  intro next rest s hnext
  have hlen : ts.length < (ts ++ next :: rest).length + 1 := by
    rw [length_append]
    omega
  exact h _ hlen next rest s hnext

theorem got {f : Bool → Parser β} (ha : a.kind = k) (h : Reads (f true) ts n F) :
    Reads (Parser.got last k >>= f) (a :: ts) n F :=
  consume (fun b rest t u => by simp [Parser.got, Parser.peek, Parser.advance, ha]) h

theorem got_else {f : Bool → Parser β} (hk : ∀ next, F next → firstKind ts next ≠ k)
    (h : Reads (f false) ts n F) : Reads (Parser.got last k >>= f) ts n F := by
  refine glance (fun next rest t u hnext => ?_) h
  have hne := hk _ hnext
  cases ts with
  | nil | cons a ts =>
    rw [firstKind] at hne
    simp [Parser.got, Parser.peek, hne]

theorem want {f : Unit → Parser β} (ha : a.kind = k) (h : Reads (f ()) ts n F) :
    Reads (Parser.want last k >>= f) (a :: ts) n F :=
  consume (fun b rest t u => by simp [Parser.want, Parser.got, Parser.peek, Parser.advance, ha]) h

theorem name {f : Token → Parser β} (ha : a.kind = .name) (h : Reads (f a) ts n F) :
    Reads (Parser.name last >>= f) (a :: ts) n F :=
  consume (fun b rest t u => by simp [Parser.name, Parser.peek, Parser.advance, ha]) h

theorem typeName {f : DataType → Parser β} (ha : dataType? a.kind = some type)
    (h : Reads (f type) ts n F) : Reads (Parser.typeName last >>= f) (a :: ts) n F :=
  consume (fun b rest t u => by simp [Parser.typeName, Parser.peek, Parser.advance, ha]) h

theorem peekKind {f : TokenKind → Parser β} (hi : i ≤ ts.length)
    (h : ∀ next, F next → Reads (f (firstKind (ts.drop i) next)) ts n F) :
    Reads (Parser.peekKind last i >>= f) ts n F := by
  intro next rest s hnext
  have hkind : ((ts ++ next :: rest).getD i last).kind = firstKind (ts.drop i) next.kind := by
    rcases Nat.lt_or_ge i ts.length with hlt | hge
    · rw [drop_eq_getElem_cons hlt, firstKind, getD_eq_getElem?_getD,
        getElem?_append_left hlt, getElem?_eq_getElem hlt, Option.getD_some]
    · obtain rfl : i = ts.length := by omega
      simp [firstKind]
  have hstep : (Parser.peekKind last i >>= f) ⟨ts ++ next :: rest, s.table, s.unused⟩ =
      f (firstKind (ts.drop i) next.kind) ⟨ts ++ next :: rest, s.table, s.unused⟩ := by
    simp only [Parser.peekKind, bind_apply, get_apply, pure_apply, hkind]
  rw [hstep]
  exact h _ hnext next rest s hnext

end

section

theorem modifyTable (f : Table → Table) :
    Reads (modifyTable f) [] (Scoped.modifyTable f) F := fun _ _ _ _ => rfl

theorem enter (kind : ScopeKind) (comment : Bytes) :
    Reads (enter kind comment) [] (Scoped.enter kind comment) F := fun _ _ _ _ => rfl

theorem exitScope : Reads exitScope [] Scoped.exit F := fun _ _ _ _ => rfl

theorem find (name : Lexeme .name) : Reads (Parser.find name.1) [] (Scoped.find name) F := by
  intro next rest s hnext
  obtain ⟨a, ha⟩ := name
  cases hfind : s.table.resolve? a.literal with
  | none =>
    simp [Agrees, Scoped.find, Scoped.meaning, Scoped.useAll, Scoped.onTable, Tree.useAll, use, ha,
      Table.find?, hfind, Parser.find]
  | some pair =>
    simp [Agrees, Scoped.find, Scoped.meaning, Scoped.useAll, Scoped.onTable, Tree.useAll, use, ha,
      Table.find?, hfind, Parser.find, Table.visible]

theorem declare (name : Lexeme .name) (type : DataType) (mutable_ : Bool) (nullable : Nullability) :
    Reads (Parser.declare name.1 type mutable_ nullable) []
      (Scoped.declare name type mutable_ nullable) F := by
  intro next rest s hnext
  cases h : s.table.declare name.1.literal type mutable_ nullable name.1.pos with
  | error d | ok pair => simp [Agrees, Scoped.declare, Parser.declare, h]

end

end Reads

def anything : TokenKind → Prop := fun _ => True

theorem reads_term (a : Term) : Reads (argument last) [a.1] (Term.resolve a) anything := by
  obtain ⟨a, ha⟩ := a
  intro next rest s _
  by_cases hname : a.kind = .name
  · cases hfind : s.table.resolve? a.literal with
    | none =>
      simp [Agrees, Term.resolve, Scoped.meaning, Scoped.useAll, Scoped.onTable, Tree.useAll, use, hname,
        Table.find?, hfind, argument, peek, find]
    | some pair =>
      simp [Agrees, Term.resolve, Scoped.meaning, Scoped.useAll, Scoped.onTable, Tree.useAll, use, hname,
        Table.find?, hfind, argument, peek, find, advance, leafExpr,
        Table.visible]
  · cases hk : a.kind <;> simp [hk, isOperand] at ha hname <;>
      simp [Agrees, Term.resolve, Scoped.meaning, Scoped.useAll, Scoped.onTable, Tree.useAll, use, hk,
        argument, peek, advance, leafExpr]

theorem reads_arguments (args : Listed Term) (fuel : Nat)
    (hfuel : (args.tokens fun a => [a.1]).length < fuel) :
    Reads (arguments last fuel) (args.tokens fun a => [a.1]) (resolveTerms args)
      (· = .rparen) := by
  have notClosing (a : Term) : a.1.kind ≠ .rparen := by
    intro h
    have := a.2
    simp [h, isOperand] at this
  induction args generalizing fuel with
  | nil =>
    obtain ⟨fuel, rfl⟩ := Nat.exists_eq_add_of_lt hfuel
    simp only [Listed.tokens, length_nil, Nat.zero_add, arguments]
    intro next rest s hnext
    simp [Agrees, resolveTerms, peek, hnext]
  | last a =>
    obtain ⟨fuel, rfl⟩ := Nat.exists_eq_add_of_lt hfuel
    apply Reads.peek
    rw [if_neg (notClosing a)]
    refine .bind (reads_term a) (fun x => ?_) (fun _ _ => trivial)
    apply Reads.got_else
    · intro next hnext
      rw [firstKind, hnext]
      decide
    · exact .pure [x]
  | cons a comma rest ih =>
    obtain ⟨fuel, rfl⟩ := Nat.exists_eq_add_of_lt hfuel
    apply Reads.peek
    rw [if_neg (notClosing a)]
    refine .bind (reads_term a) (fun x => ?_) (fun _ _ => trivial)
    apply Reads.got comma.2
    exact .bind_pure (ih _ (by simp [Listed.tokens]; omega))

theorem reads_callee (c : Callee) :
    Reads (calledName last) c.tokens (pure c.name) anything := by
  cases c with
  | user name =>
    apply Reads.got_else
    · intro next _
      simp [Callee.tokens, firstKind, name.2]
    · exact .name name.2 (.pure _)
  | builtin ifj dot name =>
    apply Reads.got ifj.2
    apply Reads.want dot.2
    exact .name name.2 (.pure _)

theorem Callee.head?_tokens (c : Callee) (ts : List Token) :
    (c.tokens ++ ts).head? = some c.first := by
  cases c <;> rfl

theorem reads_call (c : Call) : Reads (call last) c.tokens c.resolve anything := by
  apply Reads.peek_head (c.callee.head?_tokens _)
  refine .bind_value (reads_callee c.callee) ?_ (fun _ _ => trivial)
  apply Reads.want c.opening.2
  apply Reads.fuel
  intro fuel hfuel
  refine .bind (reads_arguments c.args fuel (by simp at hfuel; omega)) ?_
    (fun _ _ => c.closing.2)
  intro args
  exact .want c.closing.2 (.pure _)

theorem second_ne (e : ArithTree) (he : e.first.kind = .name) {k : TokenKind}
    (hbad : bad.isArith = false) (hrest : firstKind rest k ≠ bad) :
    firstKind ((e.tokens ++ rest).drop 1) k ≠ bad := by
  induction e generalizing rest with
  | operand a ha => exact hrest
  | paren o ho inner c hc ih =>
    rw [ArithTree.first, ho] at he
    cases he
  | binary l op hop r ihl ihr =>
    rw [ArithTree.tokens, append_assoc]
    apply ihl he
    intro h
    change op.kind = bad at h
    rw [h, hbad] at hop
    cases hop

theorem firstKind_tokens (e : ArithTree) (rest : List Token) (k : TokenKind) :
    firstKind (e.tokens ++ rest) k = e.first.kind := by
  induction e generalizing rest with
  | operand a ha => rfl
  | paren o ho inner c hc ih => rfl
  | binary l op hop r ihl ihr =>
    rw [ArithTree.tokens, append_assoc]
    exact ihl _

theorem reads_arithmetic (e : Arithmetic) :
    Reads (analyze last analyzeExpression) e.1.tokens (resolve e)
      (· = .semi) := by
  intro next rest s hnext
  have hread := analyzeExpression_tree e.1 e.2 hnext rest last s.table
  cases huse : useAll e.1.tokens s.table with
  | error d u =>
    rw [huse] at hread
    obtain ⟨a, hread, rfl⟩ := hread
    simp [Agrees, resolve, Scoped.meaning, Scoped.useAll, Scoped.onTable, huse, analyze,
      hread]
  | ok x u =>
    rw [huse] at hread
    obtain ⟨a, hread, rfl, hpend, -⟩ := hread
    simp [Agrees, resolve, Scoped.meaning, Scoped.useAll, Scoped.onTable, huse, analyze,
      hread, hpend, expression]

theorem first_of_arithmetic (e : ArithTree) :
    e.first.kind.isOperand = true ∨ e.first.kind = .lparen := by
  induction e with
  | operand a ha => exact .inl ha
  | paren o ho inner c hc ih => exact .inr ho
  | binary l op hop r ihl ihr => exact ihl

def Rhs.first : Rhs → Token
  | .call c => c.callee.first
  | .arithmetic e => e.1.first

theorem Rhs.head?_tokens (x : Rhs) (ts : List Token) : (x.tokens ++ ts).head? = some x.first := by
  cases x with
  | call c =>
    rw [Rhs.tokens, Call.tokens, append_assoc]
    exact c.callee.head?_tokens _
  | arithmetic e =>
    have hhead := e.1.headD_tokens ts
    cases htoks : e.1.tokens ++ ts with
    | nil => simp [e.1.tokens_ne_nil] at htoks
    | cons a more =>
      have hfirst := hhead a
      rw [htoks] at hfirst
      rw [Rhs.tokens, htoks, Rhs.first, ← hfirst]
      rfl

theorem Callee.kind_first (c : Callee) : c.first.kind = .name ∨ c.first.kind = .kwIfj := by
  cases c with
  | user name => exact .inl name.2
  | builtin ifj dot name => exact .inr ifj.2

theorem Rhs.first_ne_semi (x : Rhs) : x.first.kind ≠ .semi := by
  intro h
  cases x with
  | call c => rcases c.callee.kind_first with hf | hf <;> simp [Rhs.first, hf] at h
  | arithmetic e =>
    rcases first_of_arithmetic e.1 with hf | hf
    · simp [Rhs.first] at h
      simp [h, isOperand] at hf
    · simp [Rhs.first, hf] at h

theorem reads_rhs (x : Rhs) : Reads (rhs last) x.tokens x.resolve (· = .semi) := by
  cases x with
  | call c =>
    have hcall : Reads (do return Expr.call (← call last)) c.tokens
        (do return Expr.call (← c.resolve)) (· = .semi) :=
      Reads.bind_pure ((reads_call c).mono fun _ _ => trivial)
    have hlen : 1 ≤ c.tokens.length := by simp [Call.tokens]; omega
    apply Reads.peekKind (Nat.zero_le _)
    intro next _
    apply Reads.peekKind hlen
    intro next' _
    rw [if_pos]
    · exact hcall
    · obtain ⟨callee, opening, args, closing⟩ := c
      cases callee with
      | user name => exact .inr ⟨name.2, opening.2⟩
      | builtin ifj dot name => exact .inl ifj.2
  | arithmetic e =>
    have hlen : 1 ≤ e.1.tokens.length := length_pos_iff.mpr e.1.tokens_ne_nil
    apply Reads.peekKind (Nat.zero_le _)
    intro next _
    apply Reads.peekKind hlen
    intro next' hnext'
    rw [if_neg]
    · exact .bind_pure (reads_arithmetic e)
    · have hfirst := firstKind_tokens e.1 [] next
      rw [append_nil] at hfirst
      rw [Rhs.tokens, drop_zero, hfirst]
      rintro (h | ⟨hname, h⟩)
      · rcases first_of_arithmetic e.1 with hf | hf
        · simp [h, isOperand] at hf
        · simp [h] at hf
      · have hsecond : firstKind ((e.1.tokens ++ []).drop 1) next' ≠ .lparen :=
          second_ne e.1 hname rfl (by simp [firstKind, hnext'])
        rw [append_nil] at hsecond
        exact hsecond h

theorem reads_typeName (t : TypeName) {f : Bool → DataType → Parser α} {ts : List Token}
    {n : Scoped α} {F : TokenKind → Prop} (h : Reads (f t.nullable t.type) ts n F) :
    Reads (do
      let nullable ← got last .question
      let type ← typeName last
      f nullable type) (t.tokens ++ ts) n F := by
  obtain ⟨question, name, type, htype⟩ := t
  cases question with
  | some q =>
    apply Reads.got q.2
    exact .typeName htype h
  | none =>
    apply Reads.got_else
    · intro next _ hq
      change name.kind = .question at hq
      simp [hq, dataType?] at htype
    · exact .typeName htype h

theorem reads_typeMark (a : Option TypeMark) :
    Reads (declaredType last) (Plain.optional TypeMark.tokens a) (pure (annotated a))
      (· = .assign) := by
  cases a with
  | none =>
    apply Reads.got_else
    · intro next hnext
      simp [Plain.optional, firstKind, hnext]
    · exact .pure _
  | some a =>
    apply Reads.got a.colon.2
    rw [← append_nil a.type.tokens]
    exact reads_typeName a.type (.pure _)

theorem reads_declaration (binder : Binder) (name : Lexeme .name) (mark : Option TypeMark)
    (eq : Lexeme .assign) (value : Rhs) (semi : Lexeme .semi) :
    Reads (declaration last) (Plain.declare binder name mark eq value semi).tokens
      (Plain.declare binder name mark eq value semi).resolve anything := by
  apply Reads.peek
  apply Reads.advance
  apply Reads.name name.2
  refine .bind_value (reads_typeMark mark) ?_ (fun _ _ => eq.2)
  apply Reads.want eq.2
  refine .bind (reads_rhs value) ?_ (fun _ _ => semi.2)
  intro x
  apply Reads.want semi.2
  refine .bind_nil (F := anything) (.declare name _ _ _) ?_ (fun _ _ => trivial)
  intro r
  exact .pure _

theorem reads_target (target : Lexeme .name) :
    Reads (Parser.target last) [target.1] (Scoped.assignTo target) anything := by
  apply Reads.got_else
  · intro next _
    simp [firstKind, target.2]
  · apply Reads.name target.2
    refine .bind_nil (F := anything) (.find target) ?_ (fun _ _ => trivial)
    intro r
    refine .bind_nil (F := anything) (.modifyTable _) ?_ (fun _ _ => trivial)
    intro _
    exact .pure r

theorem reads_drop (target : Lexeme .discard) (eq : Lexeme .assign) (value : Rhs)
    (semi : Lexeme .semi) :
    Reads (Parser.assignment last) (Plain.drop target eq value semi).tokens
      (Plain.drop target eq value semi).resolve anything := by
  apply Reads.peek
  have htgt : Reads (Parser.target last) [target.1] (pure Table.discard) anything :=
    Reads.got target.2 (.pure _)
  refine .bind_value htgt ?_ (fun _ _ => trivial)
  apply Reads.want eq.2
  refine .bind (reads_rhs value) ?_ (fun _ _ => semi.2)
  intro x
  exact .want semi.2 (.pure _)

theorem reads_assign (target : Lexeme .name) (eq : Lexeme .assign) (value : Rhs)
    (semi : Lexeme .semi) :
    Reads (assignment last) (Plain.assign target eq value semi).tokens
      (Plain.assign target eq value semi).resolve anything := by
  apply Reads.peek
  refine .bind (reads_target target) ?_ (fun _ _ => trivial)
  intro r
  apply Reads.want eq.2
  refine .bind (reads_rhs value) ?_ (fun _ _ => semi.2)
  intro x
  exact .want semi.2 (.pure _)

theorem reads_callStmt (c : Call) (semi : Lexeme .semi) :
    Reads (callStmt last) (Plain.call c semi).tokens (Plain.call c semi).resolve
      anything := by
  refine .bind (reads_call c) ?_ (fun _ _ => trivial)
  intro x
  exact .want semi.2 (.pure _)

theorem reads_return (keyword : Lexeme .kwReturn) (value : Option Rhs) (semi : Lexeme .semi) :
    Reads (returnStmt last) (Plain.return keyword value semi).tokens
      (Plain.return keyword value semi).resolve anything := by
  apply Reads.peek
  apply Reads.advance
  cases value with
  | none =>
    apply Reads.peek
    rw [if_pos semi.2]
    exact .want semi.2 (.pure _)
  | some value =>
    apply Reads.peek_head (value.head?_tokens _)
    rw [if_neg value.first_ne_semi]
    refine .bind (reads_rhs value) ?_ (fun _ _ => semi.2)
    intro x
    exact .want semi.2 (.pure _)

theorem reads_condition (left : Arithmetic) (op : Relation) (right : Arithmetic) :
    Reads (analyze last analyzeCondition) (left.1.tokens ++ op.1 :: right.1.tokens)
      (resolveTruth left op right) (· = .rparen) := by
  intro next rest s hnext
  have hread := analyzeCondition_trees left.1 right.1 left.2 right.2 op.2 hnext rest last s.table
  cases huse : useAll (left.1.tokens ++ op.1 :: right.1.tokens) s.table with
  | error d u =>
    rw [huse] at hread
    obtain ⟨a, hread, rfl⟩ := hread
    simp [Agrees, resolveTruth, Scoped.meaning, Scoped.useAll, Scoped.onTable, huse, analyze, hread]
  | ok x u =>
    rw [huse] at hread
    obtain ⟨a, hread, rfl, hpend, -⟩ := hread
    simp [Agrees, resolveTruth, Scoped.meaning, Scoped.useAll, Scoped.onTable, huse, analyze, hread,
      hpend, expression]

theorem compare_not_unwrap (left : Arithmetic) (op : Relation) (rest : List Token)
    (k k' : TokenKind) (bar : Prop) :
    ¬ (firstKind (left.1.tokens ++ op.1 :: rest) k = .name ∧
      firstKind ((left.1.tokens ++ op.1 :: rest).drop 1) k' = .rparen ∧ bar) := by
  rintro ⟨hname, hclose, -⟩
  rw [firstKind_tokens] at hname
  refine second_ne left.1 hname rfl ?_ hclose
  intro h
  have hop := op.2
  change op.1.kind = .rparen at h
  simp [h, isRelational] at hop

theorem reads_guard (g : Guard) (kind : ScopeKind) (comment : Bytes) :
    Reads (guard last kind comment) g.tokens (g.resolve kind comment) anything := by
  cases g with
  | unwrap opening subject closing bar bound bar' =>
    apply Reads.peek
    rw [if_neg (by simp [opening.2])]
    apply Reads.peekKind (by simp)
    intro _ _
    apply Reads.peekKind (by simp)
    intro _ _
    apply Reads.peekKind (by simp)
    intro _ _
    rw [if_pos ⟨subject.2, closing.2, bar.2⟩]
    apply Reads.advance
    apply Reads.name subject.2
    refine .bind_nil (F := anything) (.find subject) ?_ (fun _ _ => trivial)
    intro r
    apply Reads.advance
    apply Reads.advance
    apply Reads.name bound.2
    apply Reads.want bar'.2
    refine .bind_nil (F := anything) (.enter kind comment) ?_ (fun _ _ => trivial)
    intro _
    exact .bind_pure (.declare bound _ _ _)
  | compare opening left op right closing =>
    have hlen : 3 ≤ (Guard.compare opening left op right closing).tokens.length := by
      simp [Guard.tokens]
      omega
    apply Reads.peek
    rw [if_neg (by simp [opening.2])]
    apply Reads.peekKind (Nat.le_trans (by decide) hlen)
    intro _ _
    apply Reads.peekKind (Nat.le_trans (by decide) hlen)
    intro _ _
    apply Reads.peekKind hlen
    intro _ _
    rw [if_neg]
    case hnc => exact compare_not_unwrap left op _ _ _ _
    apply Reads.advance
    rw [show left.1.tokens ++ op.1 :: (right.1.tokens ++ [closing.1]) =
      left.1.tokens ++ op.1 :: right.1.tokens ++ [closing.1] by simp]
    refine .bind (reads_condition left op right) ?_ (fun _ _ => closing.2)
    intro t
    apply Reads.want closing.2
    refine .bind_nil (F := anything) (.enter kind comment) ?_ (fun _ _ => trivial)
    intro _
    exact .pure _

theorem reads_plain (s : Plain) (fuel : Nat) :
    Reads (stmt last (fuel + 1)) s.tokens s.resolve anything := by
  cases s with
  | declare binder name mark eq value semi =>
    apply Reads.peek
    rcases binder.2 with hk | hk
    · rw [hk]
      exact reads_declaration binder name mark eq value semi
    · rw [hk]
      exact reads_declaration binder name mark eq value semi
  | drop target eq value semi =>
    apply Reads.peek
    rw [target.2]
    exact reads_drop target eq value semi
  | assign target eq value semi =>
    apply Reads.peek
    rw [target.2]
    apply Reads.peekKind (by simp)
    intro _ _
    rw [if_pos]
    · exact reads_assign target eq value semi
    · exact eq.2
  | call c semi =>
    apply Reads.peek_head
    · rw [Plain.tokens, Call.tokens, append_assoc]
      exact c.callee.head?_tokens _
    · have h : Reads (callStmt last) (Plain.call c semi).tokens
          (Plain.call c semi).resolve anything := reads_callStmt c semi
      obtain ⟨callee, opening, args, closing⟩ := c
      cases callee with
      | user name =>
        simp only [Callee.first, name.2]
        apply Reads.peekKind (by simp [Plain.tokens, Call.tokens]; omega)
        intro _ _
        rw [if_neg]
        · exact h
        · change opening.1.kind ≠ .assign
          simp [opening.2]
      | builtin ifj dot name =>
        simp only [Callee.first, ifj.2]
        exact h
  | «return» keyword value semi =>
    apply Reads.peek
    rw [keyword.2]
    exact reads_return keyword value semi

def Unstarted (k : TokenKind) : Prop := k = .rbrace ∨ k = .eof ∨ k = .kwElse

theorem Plain.tokens_pos (s : Plain) : 0 < s.tokens.length := by
  cases s <;> simp [Plain.tokens]

theorem plain_first (s : Plain) (ts : List Token) (k : TokenKind) :
    ¬ Unstarted (firstKind (s.tokens ++ ts) k) := by
  cases s with
  | declare binder name mark eq value semi =>
    change ¬ Unstarted binder.1.kind
    rcases binder.2 with hk | hk <;> simp [Unstarted, hk]
  | drop target eq value semi | assign target eq value semi =>
    change ¬ Unstarted target.1.kind
    simp [Unstarted, target.2]
  | call c semi =>
    have hfirst : firstKind ((Plain.call c semi).tokens ++ ts) k = c.callee.first.kind := by
      obtain ⟨callee, opening, args, closing⟩ := c
      cases callee <;> rfl
    rw [hfirst]
    rcases c.callee.kind_first with hk | hk <;> simp [Unstarted, hk]
  | «return» keyword value semi =>
    change ¬ Unstarted keyword.1.kind
    simp [Unstarted, keyword.2]

theorem body_first (body : Body) {k : TokenKind} (hk : k ≠ .kwElse) :
    firstKind body.tokens k ≠ .kwElse := by
  cases body with
  | done => exact hk
  | plain s rest => exact fun h => plain_first s rest.tokens k (.inr (.inr h))
  | branch keyword guard braces yes rest =>
    change keyword.1.kind ≠ .kwElse
    simp [keyword.2]
  | branchElse keyword guard braces yes otherwise braces' no rest =>
    change keyword.1.kind ≠ .kwElse
    simp [keyword.2]
  | loop keyword guard braces body rest =>
    change keyword.1.kind ≠ .kwElse
    simp [keyword.2]

theorem reads_block (braces : Braces) {fuel : Nat} {ts : List Token} {m : Scoped (List Stmt)}
    (h : Reads (stmts last fuel) ts m (· = .rbrace)) :
    Reads (block last (fuel + 1)) (braces.tokens ts) (braces.block m) anything := by
  apply Reads.peek
  apply Reads.want braces.opening.2
  refine .bind h ?_ (fun _ _ => braces.closing.2)
  intro stmts
  apply Reads.peek
  apply Reads.want braces.closing.2
  exact .bind_pure Reads.exitScope

theorem reads_noElse (fuel : Nat) :
    Reads (elseBranch last (fuel + 1)) [] (pure none) (· ≠ .kwElse) := by
  intro next rest s hnext
  simp [Agrees, elseBranch, peek, got, hnext]

theorem reads_else (otherwise : Lexeme .kwElse) (braces : Braces) {fuel : Nat} {ts : List Token}
    {m : Scoped (List Stmt)} (h : Reads (stmts last fuel) ts m (· = .rbrace)) :
    Reads (elseBranch last (fuel + 2)) (otherwise.1 :: braces.tokens ts)
      (resolveElse otherwise (braces.block m)) anything := by
  apply Reads.peek
  apply Reads.got otherwise.2
  refine .bind_nil (F := anything) (.enter _ _) ?_ (fun _ _ => trivial)
  intro _
  exact .bind_pure (reads_block braces h)

theorem reads_branch (keyword : Lexeme .kwIf) (guard : Guard) {fuel : Nat} {ts us : List Token}
    {yes : Scoped Block} {no : Scoped (Option Else)} {F : TokenKind → Prop}
    (hyes : Reads (block last fuel) ts yes anything)
    (hno : Reads (elseBranch last fuel) us no F) :
    Reads (stmt last (fuel + 1)) (keyword.1 :: (guard.tokens ++ (ts ++ us)))
      (resolveBranch keyword guard yes no) F := by
  apply Reads.peek
  rw [keyword.2]
  apply Reads.peek
  apply Reads.advance
  refine .bind (reads_guard guard _ _) ?_ (fun _ _ => trivial)
  intro g
  refine .bind hyes ?_ (fun _ _ => trivial)
  intro block
  exact .bind_pure hno

theorem reads_loop (keyword : Lexeme .kwWhile) (guard : Guard) {fuel : Nat} {ts : List Token}
    {body : Scoped Block} (hbody : Reads (block last fuel) ts body anything) :
    Reads (stmt last (fuel + 1)) (keyword.1 :: (guard.tokens ++ ts))
      (resolveLoop keyword guard body) anything := by
  apply Reads.peek
  rw [keyword.2]
  apply Reads.peek
  apply Reads.advance
  refine .bind (reads_guard guard _ _) ?_ (fun _ _ => trivial)
  intro g
  exact .bind_pure hbody

theorem reads_stmts_cons {fuel : Nat} {ts us : List Token} {m : Scoped Stmt}
    {n : Scoped (List Stmt)} {F : TokenKind → Prop} (hs : Reads (stmt last fuel) ts m F)
    (hrest : Reads (stmts last fuel) us n (· = .rbrace))
    (hF : F (firstKind us .rbrace)) (hfirst : ¬ Unstarted (firstKind (ts ++ us) .rbrace)) :
    Reads (stmts last (fuel + 1)) (ts ++ us) (do return (← m) :: (← n)) (· = .rbrace) := by
  cases hts : ts ++ us with
  | nil =>
    rw [hts] at hfirst
    exact absurd (.inl rfl) hfirst
  | cons a more =>
    rw [hts] at hfirst
    apply Reads.peek
    rw [if_neg]
    · rw [← hts]
      refine .bind hs ?_ ?_
      · intro s
        exact .bind_pure hrest
      · rintro k rfl
        exact hF
    · rintro (h | h)
      · exact hfirst (.inl h)
      · exact hfirst (.inr (.inl h))

theorem reads_stmts (body : Body) (fuel : Nat) (hfuel : body.tokens.length < fuel) :
    Reads (stmts last fuel) body.tokens body.resolve (· = .rbrace) := by
  induction body generalizing fuel with
  | done =>
    obtain ⟨fuel, rfl⟩ := Nat.exists_eq_add_of_lt hfuel
    intro next rest s hnext
    simp [Agrees, Body.tokens, Body.resolve, stmts, peek, hnext]
  | plain s rest ih =>
    have hpos := s.tokens_pos
    simp only [Body.tokens, length_append] at hfuel
    obtain ⟨fuel, rfl⟩ : ∃ i, fuel = i + 2 := ⟨fuel - 2, by omega⟩
    exact reads_stmts_cons (reads_plain s fuel) (ih _ (by omega)) trivial (plain_first s _ _)
  | branch keyword guard braces yes rest ihYes ihRest =>
    simp only [Body.tokens, Braces.tokens, length_append, length_cons] at hfuel
    obtain ⟨fuel, rfl⟩ : ∃ i, fuel = i + 3 := ⟨fuel - 3, by omega⟩
    have hno : Reads (elseBranch last (fuel + 1)) [] (pure none) (· ≠ .kwElse) :=
      reads_noElse fuel
    have hs := reads_branch keyword guard (reads_block braces (ihYes fuel (by omega))) hno
    have htoks : (Body.branch keyword guard braces yes rest).tokens =
        keyword.1 :: (guard.tokens ++ (braces.tokens yes.tokens ++ [])) ++ rest.tokens := by
      simp [Body.tokens]
    rw [htoks]
    refine reads_stmts_cons hs (ihRest _ (by omega)) (body_first rest (by decide)) ?_
    change ¬ Unstarted keyword.1.kind
    simp [Unstarted, keyword.2]
  | branchElse keyword guard braces yes otherwise braces' no rest ihYes ihNo ihRest =>
    simp only [Body.tokens, Braces.tokens, length_append, length_cons] at hfuel
    obtain ⟨fuel, rfl⟩ : ∃ i, fuel = i + 4 := ⟨fuel - 4, by omega⟩
    have hs := reads_branch keyword guard (reads_block braces (ihYes (fuel + 1) (by omega)))
      (reads_else otherwise braces' (ihNo fuel (by omega)))
    have htoks : (Body.branchElse keyword guard braces yes otherwise braces' no rest).tokens =
        keyword.1 :: (guard.tokens ++ (braces.tokens yes.tokens ++
          otherwise.1 :: braces'.tokens no.tokens)) ++ rest.tokens := by
      simp [Body.tokens]
    rw [htoks]
    refine reads_stmts_cons hs (ihRest _ (by omega)) trivial ?_
    change ¬ Unstarted keyword.1.kind
    simp [Unstarted, keyword.2]
  | loop keyword guard braces body rest ihBody ihRest =>
    simp only [Body.tokens, Braces.tokens, length_append, length_cons] at hfuel
    obtain ⟨fuel, rfl⟩ : ∃ i, fuel = i + 3 := ⟨fuel - 3, by omega⟩
    have hs := reads_loop keyword guard (reads_block braces (ihBody fuel (by omega)))
    have htoks : (Body.loop keyword guard braces body rest).tokens =
        keyword.1 :: (guard.tokens ++ braces.tokens body.tokens) ++ rest.tokens := by
      simp [Body.tokens]
    rw [htoks]
    refine reads_stmts_cons hs (ihRest _ (by omega)) trivial ?_
    change ¬ Unstarted keyword.1.kind
    simp [Unstarted, keyword.2]

theorem reads_parameter (p : Parameter) {f : VarRef → Parser α} {g : VarRef → Scoped α}
    {ts : List Token} {F : TokenKind → Prop} (h : ∀ r, Reads (f r) ts (g r) F) :
    Reads (do
      let token ← name last
      want last .colon
      let _ ← got last .question
      let _ ← typeName last
      let r ← declare token p.param.type false (.ofBool p.param.nullable)
      modifyTable (·.modify r fun v => { v with param := true })
      f r) (p.tokens ++ ts) (p.resolve >>= g) F := by
  have hresolve : p.resolve >>= g = (do
      let r ← Scoped.declare p.name p.type.type false (.ofBool p.type.nullable)
      Scoped.modifyTable (·.modify r fun v => { v with param := true })
      g r) := by
    simp [Parameter.resolve]
  rw [hresolve]
  apply Reads.name p.name.2
  apply Reads.want p.colon.2
  refine reads_typeName p.type ?_
  refine .bind_nil (F := anything) (.declare p.name _ _ _) ?_ (fun _ _ => trivial)
  intro r
  refine .bind_nil (F := anything) (.modifyTable _) ?_ (fun _ _ => trivial)
  intro _
  exact h r

theorem reads_parameters (definition : FuncDef) (ps : Listed Parameter) (fuel : Nat)
    (hfuel : (ps.tokens Parameter.tokens).length < fuel) :
    Reads (params last definition fuel (ps.toList.map Parameter.param))
      (ps.tokens Parameter.tokens) (resolveParameters ps) (· = .rparen) := by
  have notClosing (p : Parameter) : p.name.1.kind ≠ .rparen := by simp [p.name.2]
  induction ps generalizing fuel with
  | nil =>
    obtain ⟨fuel, rfl⟩ := Nat.exists_eq_add_of_lt hfuel
    intro next rest s hnext
    simp [Agrees, Listed.tokens, Listed.toList, resolveParameters, params, peek, hnext]
  | last p =>
    obtain ⟨fuel, rfl⟩ := Nat.exists_eq_add_of_lt hfuel
    rw [params, Listed.tokens, ← append_nil p.tokens]
    apply Reads.peek
    rw [if_neg (notClosing p)]
    refine reads_parameter p ?_
    intro r
    apply Reads.got_else
    · intro next hnext
      simp [firstKind, hnext]
    · exact Reads.pure _
  | cons p comma rest ih =>
    obtain ⟨fuel, rfl⟩ := Nat.exists_eq_add_of_lt hfuel
    rw [params, Listed.tokens]
    apply Reads.peek
    rw [if_neg (notClosing p)]
    refine reads_parameter p ?_
    intro r
    apply Reads.got comma.2
    exact Reads.bind_pure (ih _ (by simp; omega))

theorem reads_skipToBody {ts : List Token} (hts : ∀ a ∈ ts, a.kind ≠ .lbrace ∧ a.kind ≠ .eof) :
    Reads skipToBody ts (pure ()) (· = .lbrace) := by
  intro next rest s hnext
  have hdrop : (ts ++ next :: rest).dropWhile (fun t => t.kind != .lbrace && t.kind != .eof) =
      next :: rest := by
    rw [dropWhile_append_of_pos]
    · simp [hnext]
    · intro a ha
      simpa using hts a ha
  simp [Agrees, skipToBody, hdrop]

theorem TypeName.token_kind (t : TypeName) (a : Token) (ha : a ∈ t.tokens) :
    a.kind = .question ∨ a.kind.isDataType = true := by
  obtain ⟨question, name, type, htype⟩ := t
  have hname : name.kind.isDataType = true := by
    cases hk : name.kind <;> simp [hk, dataType?] at htype <;> rfl
  cases question with
  | none =>
    obtain rfl : a = name := by simpa [TypeName.tokens] using ha
    exact .inr hname
  | some q =>
    rcases (by simpa [TypeName.tokens] using ha : a = q.1 ∨ a = name) with rfl | rfl
    · exact .inl q.2
    · exact .inr hname

theorem ResultType.token_kind (r : ResultType) (a : Token) (ha : a ∈ r.tokens) :
    a.kind = .kwVoid ∨ a.kind = .question ∨ a.kind.isDataType = true := by
  cases r with
  | void b =>
    obtain rfl : a = b.1 := by simpa [ResultType.tokens] using ha
    exact .inl b.2
  | value t => exact .inr (t.token_kind a ha)

def functionRest (last : Token) (pos : Pos) (name : Bytes) (definition : FuncDef) :
    Parser Tree.Function := do
  enter .function name
  want last .lparen
  let params ← params last definition (← fuel) definition.params
  want last .rparen
  skipToBody
  let body ← block last ((← fuel) + 4)
  return ⟨pos, name, definition, params, body⟩

theorem reads_functionRest (f : Function) :
    Reads (functionRest last f.pub.1.pos f.name.1.literal f.signature)
      (f.opening.1 :: (f.params.tokens Parameter.tokens ++
        f.closing.1 :: (f.result.tokens ++ f.braces.tokens f.body.tokens))) f.resolve anything := by
  refine .bind_nil (F := anything) (.enter _ _) ?_ (fun _ _ => trivial)
  intro _
  apply Reads.want f.opening.2
  apply Reads.fuel
  intro fuel hfuel
  have hlen : (f.params.tokens Parameter.tokens).length < fuel := by
    simp at hfuel
    omega
  refine .bind (reads_parameters f.signature f.params fuel hlen) ?_
    (fun _ _ => f.closing.2)
  intro params
  apply Reads.want f.closing.2
  refine .bind_value (reads_skipToBody ?_) ?_ (fun _ _ => f.braces.opening.2)
  · intro a ha
    rcases f.result.token_kind a ha with h | h | h
    · simp [h]
    · simp [h]
    · constructor <;> intro hk <;> simp [hk, isDataType] at h
  · apply Reads.fuel
    intro fuel hfuel
    refine .bind_pure (reads_block f.braces (reads_stmts f.body _ ?_))
    simp [Braces.tokens] at hfuel
    omega

theorem function_before (h : Heading) (rest : List Token)
    (hf : t.lookupFunction? h.name.1.literal = some definition) (u : Option Diagnostic) :
    Parser.function last ⟨h.before rest, t, u⟩ =
      functionRest last h.pub.1.pos h.name.1.literal definition
        ⟨h.opening.1 :: (h.params.tokens Parameter.tokens ++ h.closing.1 :: rest), t, u⟩ := by
  simp only [Parser.function, functionRest, Heading.before, Parser.peek, Parser.want, Parser.got,
    Parser.name, Parser.advance, bind_apply, get_apply, pure_apply, headD_cons, h.pub.2,
    h.fn.2, h.name.2, if_true, modify_apply, hf]

/-- A function is read, if the table has its signature under its name. -/
theorem reads_function (f : Function) (next : Token) (rest : List Token) (s : Scoping)
    (hf : s.table.lookupFunction? f.name.1.literal = some f.signature) :
    Agrees f.resolve s (function last ⟨f.tokens ++ next :: rest, s.table, s.unused⟩)
      (next :: rest) := by
  have hsplit : f.tokens ++ next :: rest =
      f.before ((f.result.tokens ++ f.braces.tokens f.body.tokens) ++ next :: rest) := by
    simp [Function.tokens, Heading.before]
  have hrest : f.opening.1 :: (f.params.tokens Parameter.tokens ++
      f.closing.1 :: ((f.result.tokens ++ f.braces.tokens f.body.tokens) ++ next :: rest)) =
      f.opening.1 :: (f.params.tokens Parameter.tokens ++
        f.closing.1 :: (f.result.tokens ++ f.braces.tokens f.body.tokens)) ++ next :: rest := by
    simp
  rw [hsplit, function_before _ _ hf, hrest]
  exact reads_functionRest f next rest s trivial

theorem reads_functions (fs : List Function) (fuel : Nat) (hfuel : fs.length < fuel)
    (eof : Lexeme .eof) (behind : List Token) {n : Nat} (s : Scoping) (hs : Shows s.table [] n)
    (hfs : ∀ f ∈ fs, s.table.lookupFunction? f.name.1.literal = some f.signature) :
    Agrees (resolveFunctions fs) s
      (functions last fuel ⟨fs.flatMap Function.tokens ++ eof.1 :: behind, s.table, s.unused⟩)
      (eof.1 :: behind) := by
  induction fs generalizing fuel s n with
  | nil =>
    obtain ⟨fuel, rfl⟩ := Nat.exists_eq_add_of_lt hfuel
    simp [Agrees, resolveFunctions, functions, peek, eof.2]
  | cons f rest ih =>
    obtain ⟨fuel, rfl⟩ := Nat.exists_eq_add_of_lt hfuel
    have hsplit : ∃ next more, rest.flatMap Function.tokens ++ eof.1 :: behind = next :: more := by
      cases h : rest.flatMap Function.tokens ++ eof.1 :: behind with
      | nil => simp at h
      | cons next more => exact ⟨next, more, rfl⟩
    obtain ⟨next, more, hsplit⟩ := hsplit
    have hstart : functions last ((f :: rest).length + fuel + 1)
        ⟨(f :: rest).flatMap Function.tokens ++ eof.1 :: behind, s.table, s.unused⟩ =
        (do
          let x ← function last
          return x :: (← functions last ((f :: rest).length + fuel)))
        ⟨f.tokens ++ next :: more, s.table, s.unused⟩ := by
      rw [flatMap_cons, append_assoc, hsplit, functions]
      simp only [bind_apply, peek, get_apply, pure_apply, Function.tokens, Heading.before,
        cons_append, headD_cons, f.pub.2, if_true]
    rw [hstart]
    refine Agrees.bind (reads_function f next more s (hfs f (by simp))) ?_
    intro a s' hresolve
    have hbinds := Binds.function f s hs
    rw [hresolve] at hbinds
    obtain ⟨hlater, -, -, hs', -⟩ := hbinds
    rw [← hsplit]
    refine Agrees.bind (ih _ (by simp; omega) s' hs' ?_) ?_
    · intro g hg
      rw [hlater.lookupFunction?]
      exact hfs g (by simp [hg])
    · intro gs s'' _
      rfl

theorem reads_prolog (p : Prolog) :
    Reads (prolog last) p.tokens (pure Cause.importPath) anything := by
  unfold prolog
  simp only [forM_eq_forM, forM_cons, forM_nil, bind_assoc, pure_bind]
  apply Reads.want p.const.2
  apply Reads.want p.ifj.2
  apply Reads.want p.eq.2
  apply Reads.want p.at_.2
  apply Reads.want p.import_.2
  apply Reads.want p.opening.2
  apply Reads.peek
  rw [if_neg (by simp [p.path.2]), if_neg (by simp [p.isPath])]
  apply Reads.advance
  apply Reads.want p.closing.2
  apply Reads.want p.semi.2
  rw [p.isPath]
  exact .pure _

/-- A derivable program is read as its resolution says. -/
theorem reads_program (p : Program) (behind : List Token) (s : Scoping) (hs : Shows s.table [] 1)
    (hfs : ∀ f ∈ p.functions, s.table.lookupFunction? f.name.1.literal = some f.signature) :
    Agrees p.resolve s (program last ⟨p.tokens ++ behind, s.table, s.unused⟩) (p.eof.1 :: behind) := by
  obtain ⟨next, more, hsplit⟩ : ∃ next more,
      p.functions.flatMap Function.tokens ++ p.eof.1 :: behind = next :: more := by
    cases h : p.functions.flatMap Function.tokens ++ p.eof.1 :: behind with
    | nil => simp at h
    | cons next more => exact ⟨next, more, rfl⟩
  have hprolog : prolog last ⟨p.tokens ++ behind, s.table, s.unused⟩ =
      .ok Cause.importPath ⟨p.functions.flatMap Function.tokens ++ p.eof.1 :: behind, s.table, s.unused⟩ := by
    rw [Program.tokens, append_assoc, append_assoc, singleton_append, hsplit]
    exact reads_prolog p.prolog next more s trivial
  have hlen : p.functions.length <
      (p.functions.flatMap Function.tokens ++ p.eof.1 :: behind).length + 1 := by
    have hle : p.functions.length ≤ (p.functions.flatMap Function.tokens).length := by
      induction p.functions with
      | nil => exact Nat.le_refl _
      | cons f rest ih =>
        rw [flatMap_cons, length_append, length_cons]
        have hpos : 0 < f.tokens.length := by simp [Function.tokens, Heading.before]
        omega
    rw [length_append]
    omega
  have hstart : program last ⟨p.tokens ++ behind, s.table, s.unused⟩ =
      (do
        let functions ← functions last
          ((p.functions.flatMap Function.tokens ++ p.eof.1 :: behind).length + 1)
        if (← peek last).kind ≠ eof then fail last .function
        return (⟨p.prolog.const.1.pos, Cause.importPath, functions⟩ : Tree.Program))
        ⟨p.functions.flatMap Function.tokens ++ p.eof.1 :: behind, s.table, s.unused⟩ := by
    have hpeek : peek last ⟨p.tokens ++ behind, s.table, s.unused⟩ =
        .ok p.prolog.const.1 ⟨p.tokens ++ behind, s.table, s.unused⟩ := rfl
    rw [program, bind_apply, hpeek]
    dsimp only
    rw [bind_apply, hprolog]
    rfl
  rw [hstart]
  refine Agrees.bind (reads_functions p.functions _ hlen p.eof behind s hs hfs) ?_
  intro functions s' _
  simp [Agrees, peek, p.eof.2]

end Ifj24.Grammar
