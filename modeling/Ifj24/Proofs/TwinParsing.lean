import Ifj24.Proofs.TwinTrees
import Ifj24.Tree.Parser

/-!
Parsing twins. Both passes are followed on two token sequences that differ in places only, from
symbol tables that are twins. They fail alike, or give trees and tables that are twins, and a rule
of use is broken on both sides or on none.
-/

namespace Ifj24.Tree

section

variable {α β γ δ : Type} {last last' : Token}

def HeadersAlike (R : α → β → Prop) (p : HeaderReader α) (q : HeaderReader β) : Prop :=
  ∀ as bs, List.Forall₂ Token.Twin as bs →
    ExceptAlike (fun x y => R x.1 y.1 ∧ List.Forall₂ Token.Twin x.2 y.2) (p as) (q bs)

namespace HeadersAlike

variable {R : α → β → Prop} {Q : γ → δ → Prop} {p : HeaderReader α} {q : HeaderReader β}
  {f : α → HeaderReader γ} {g : β → HeaderReader δ}

theorem pure (h : R a b) :
    HeadersAlike R (Pure.pure a : HeaderReader α) (Pure.pure b : HeaderReader β) :=
  fun _ _ hts => .ok ⟨h, hts⟩

theorem throw (h : SameKind d e) :
    HeadersAlike R (MonadExcept.throw d : HeaderReader α) (MonadExcept.throw e : HeaderReader β) :=
  fun _ _ _ => .error h

theorem bind (hp : HeadersAlike R p q) (hf : ∀ a b, R a b → HeadersAlike Q (f a) (g b)) :
    HeadersAlike Q (p >>= f) (q >>= g) :=
  fun as bs hts => (hp as bs hts).bind fun x y hxy => hf x.1 y.1 hxy.1 x.2 y.2 hxy.2

theorem advance : HeadersAlike Eq HeaderReader.advance HeaderReader.advance :=
  fun _ _ hts => .ok ⟨rfl, Token.Twin.tail hts⟩

theorem length : HeadersAlike (fun as bs => as.length = bs.length) (get : HeaderReader (List Token))
    (get : HeaderReader (List Token)) :=
  fun _ _ hts => .ok ⟨hts.length_eq, hts⟩

variable (hlast : Token.Twin last last')

include hlast

theorem peek : HeadersAlike Token.Twin (HeaderReader.peek last) (HeaderReader.peek last') :=
  fun _ _ hts => .ok ⟨.headD hts hlast, hts⟩

theorem want (kind : TokenKind) :
    HeadersAlike Token.Twin (HeaderReader.want last kind) (HeaderReader.want last' kind) := by
  refine (peek hlast).bind fun a b hab => ?_
  rw [hab.kind]
  split
  · exact advance.bind fun _ _ _ => pure hab
  · exact throw rfl

theorem valueType :
    HeadersAlike Eq (HeaderReader.valueType last) (HeaderReader.valueType last') := by
  refine (peek hlast).bind fun a b hab => ?_
  rw [hab.kind]
  dsimp only
  split
  · refine advance.bind fun _ _ _ => (peek hlast).bind fun found found' hfound => ?_
    rw [hfound.kind]
    split
    · exact advance.bind fun _ _ _ => pure rfl
    · exact throw rfl
  · refine (peek hlast).bind fun found found' hfound => ?_
    rw [hfound.kind]
    split
    · exact advance.bind fun _ _ _ => pure rfl
    · exact throw rfl

theorem params (fuel : Nat) :
    HeadersAlike Eq (HeaderReader.params last fuel) (HeaderReader.params last' fuel) := by
  induction fuel with
  | zero => exact pure rfl
  | succ fuel ih =>
    refine (peek hlast).bind fun a b hab => ?_
    rw [hab.kind]
    split
    · exact pure rfl
    · refine (want hlast .name).bind fun name name' hname => ?_
      refine (want hlast .colon).bind fun _ _ _ => ?_
      refine (valueType hlast).bind fun type type' htype => ?_
      obtain rfl := htype
      refine (peek hlast).bind fun a b hab => ?_
      rw [hab.kind, hname.literal]
      split
      · refine advance.bind fun _ _ _ => ih.bind fun rest rest' hrest => ?_
        obtain rfl := hrest
        exact pure rfl
      · exact pure rfl

theorem resultType :
    HeadersAlike Eq (HeaderReader.resultType last) (HeaderReader.resultType last') := by
  refine (peek hlast).bind fun a b hab => ?_
  rw [hab.kind]
  split
  · exact advance.bind fun _ _ _ => pure rfl
  · exact valueType hlast

theorem header :
    HeadersAlike FuncDef.Twin (HeaderReader.header last) (HeaderReader.header last') := by
  refine (want hlast .kwPub).bind fun _ _ _ => ?_
  refine (want hlast .kwFn).bind fun _ _ _ => ?_
  refine (want hlast .name).bind fun name name' hname => ?_
  refine (want hlast .lparen).bind fun _ _ _ => ?_
  refine length.bind fun as bs hlen => ?_
  rw [hlen]
  refine (params hlast _).bind fun ps ps' hps => ?_
  obtain rfl := hps
  refine (want hlast .rparen).bind fun _ _ _ => ?_
  refine (resultType hlast).bind fun result result' hres => ?_
  obtain rfl := hres
  refine (peek hlast).bind fun found found' hfound => ?_
  rw [hfound.kind]
  split
  · cases hname with
    | mk pos => exact pure (.mk _ pos)
  · exact throw rfl

end HeadersAlike

variable {m n c : Nat} {t : Table}

theorem checkMain_alike (ht : Table.Twin E m n c t u) :
    EndAlike (fun _ _ => Table.Twin E m n c) (checkMain last t) (checkMain last' u) := by
  have hmain := ht.funcs "main"
  unfold checkMain
  rw [bind_apply, bind_apply, get_apply, get_apply]
  dsimp only
  generalize t.lookupFunction? "main" = x at hmain
  generalize u.lookupFunction? "main" = y at hmain
  cases hmain with
  | none => exact .error rfl
  | @some f g hfg =>
    cases hfg with
    | mk pos =>
      dsimp only
      split
      · exact .error rfl
      · exact .ok ht

theorem atEnd_alike (depth : Nat) (ht : Table.Twin E m n c t u) :
    EndAlike (fun _ _ => Table.Twin E m n c) (collectFrom.atEnd last depth found t)
      (collectFrom.atEnd last' depth found' u) := by
  unfold collectFrom.atEnd
  split
  · exact .error rfl
  · exact checkMain_alike ht

theorem collectFrom_alike (hlast : Token.Twin last last')
    (hts : List.Forall₂ Token.Twin as bs) (skip depth : Nat) (ht : Table.Twin E m n c t u) :
    EndAlike (fun _ _ => Table.Twin E m n c) (collectFrom last skip depth as t)
      (collectFrom last' skip depth bs u) := by
  induction hts generalizing skip depth t u with
  | nil =>
    rw [collectFrom, collectFrom]
    exact atEnd_alike depth ht
  | @cons a b as bs hab hrest ih =>
    cases skip with
    | succ skip =>
      rw [collectFrom, collectFrom]
      exact ih skip depth ht
    | zero =>
      have hhead := HeadersAlike.header hlast (a :: as) (b :: bs) (.cons hab hrest)
      rw [collectFrom.eq_def, collectFrom.eq_def last']
      dsimp only
      rw [hab.kind]
      generalize a.kind = kind
      cases kind with
      | eof => exact atEnd_alike depth ht
      | lbrace => exact ih 0 (depth + 1) ht
      | rbrace =>
        cases depth with
        | zero => exact .error rfl
        | succ depth => exact ih 0 depth ht
      | kwPub =>
        dsimp only
        split
        · exact .error rfl
        · unfold StateT.run
          generalize HeaderReader.header last (a :: as) = x at hhead
          generalize HeaderReader.header last' (b :: bs) = y at hhead
          cases hhead with
          | error hkind => exact .error hkind
          | ok hxy =>
            refine (ht.addFunction hxy.1).bind fun _ _ t u ht => ?_
            rw [hrest.length_eq, hxy.2.length_eq]
            exact ih _ depth ht
      | _ => exact ih 0 depth ht

end

section

/-- The parser in twins of a source. What it has found unused comes behind what it had found when
the twins began. -/
structure ParserState.Twin (E : Prop) (noted noted' : Option Diagnostic) (m n c : Nat) (s t : ParserState) :
    Prop where
  rest : List.Forall₂ Token.Twin s.rest t.rest
  table : Table.Twin E m n c s.table t.table
  unused : ∃ found found', s.unused = noted.or found ∧ t.unused = noted'.or found' ∧
    (Table.Agree m n c → Table.FoundAlike E found found')

variable {α β γ δ : Type} {noted noted' : Option Diagnostic} {m n c : Nat} {last last' : Token}

/-- Parsers that end alike, started with `c` variables or more. What they return is related by all
pairs of variables that there are then or later. -/
def InStep (E : Prop) (m n c : Nat) (R : (VarRef → VarRef → Prop) → α → β → Prop) (p : Parser α)
    (q : Parser β) : Prop :=
  ∀ noted noted' d s t, c ≤ d → ParserState.Twin E noted noted' m n d s t →
    EndAlike (fun a b s t => ∃ e, d ≤ e ∧ (∀ k, e ≤ k → R (Paired m n k) a b) ∧
      ParserState.Twin E noted noted' m n e s t) (p s) (q t)

def Same : (VarRef → VarRef → Prop) → α → α → Prop := fun _ a b => a = b

namespace InStep

variable {R : (VarRef → VarRef → Prop) → α → β → Prop} {Q : (VarRef → VarRef → Prop) → γ → δ → Prop}
  {p : Parser α} {q : Parser β} {f : α → Parser γ} {g : β → Parser δ}

theorem pure (h : ∀ k, c ≤ k → R (Paired m n k) a b) :
    InStep E m n c R (Pure.pure a) (Pure.pure b) :=
  fun _ _ d _ _ hd hst => .ok ⟨d, Nat.le_refl d, fun k hk => h k (Nat.le_trans hd hk), hst⟩

theorem throw (h : SameKind d e) :
    InStep E m n c R (MonadExcept.throw d : Parser α) (MonadExcept.throw e : Parser β) :=
  fun _ _ _ _ _ _ _ => .error h

theorem bind (hp : InStep E m n c R p q)
    (hf : ∀ d a b, c ≤ d → (∀ k, d ≤ k → R (Paired m n k) a b) → InStep E m n d Q (f a) (g b)) :
    InStep E m n c Q (p >>= f) (q >>= g) := by
  intro noted noted' d s t hd hst
  refine (hp noted noted' d s t hd hst).bind ?_
  rintro a b s' t' ⟨e, he, hab, hst'⟩
  refine (hf e a b (Nat.le_trans hd he) hab noted noted' e s' t' (Nat.le_refl e) hst').mono ?_
  rintro _ _ _ _ ⟨k, hk, hres, hst''⟩
  exact ⟨k, Nat.le_trans he hk, hres, hst''⟩

theorem later (hp : InStep E m n c R p q) (hd : c ≤ d) : InStep E m n d R p q :=
  fun noted noted' e s t he hst => hp noted noted' e s t (Nat.le_trans hd he) hst

theorem bind_fixed (hp : InStep E m n c (fun _ => S) p q)
    (hf : ∀ a b, S a b → InStep E m n c Q (f a) (g b)) : InStep E m n c Q (p >>= f) (q >>= g) :=
  hp.bind fun d a b hd hab => (hf a b (hab d (Nat.le_refl d))).later hd

theorem bind_same {p q : Parser α} {g : α → Parser δ} (hp : InStep E m n c Same p q)
    (hf : ∀ a, InStep E m n c Q (f a) (g a)) : InStep E m n c Q (p >>= f) (q >>= g) := by
  refine hp.bind_fixed fun a b hab => ?_
  obtain rfl : a = b := hab
  exact hf a

theorem of_apply (h : ∀ noted noted' d s t, ParserState.Twin E noted noted' m n d s t →
      ∃ a b s' t', p s = .ok a s' ∧ q t = .ok b t' ∧ S a b ∧
        ParserState.Twin E noted noted' m n d s' t') : InStep E m n c (fun _ => S) p q := by
  intro noted noted' d s t _ hst
  obtain ⟨a, b, s', t', hp, hq, hab, hst'⟩ := h noted noted' d s t hst
  rw [hp, hq]
  exact .ok ⟨d, Nat.le_refl d, fun _ _ => hab, hst'⟩

theorem advance : InStep E m n c Same Parser.advance Parser.advance := by
  refine of_apply fun _ _ _ s t hst => ⟨(), (), _, _, rfl, rfl, rfl, ?_, hst.table, hst.unused⟩
  have hrest := hst.rest
  dsimp only
  generalize s.rest = as at hrest
  generalize t.rest = bs at hrest
  match hrest with
  | .nil => exact .nil
  | .cons hab .nil => exact .cons hab .nil
  | .cons _ (.cons hab hmore) => exact .cons hab hmore

theorem fuel : InStep E m n c Same Parser.fuel Parser.fuel :=
  of_apply fun _ _ _ s t hst => ⟨_, _, s, t, rfl, rfl, congrArg (· + 1) hst.rest.length_eq, hst⟩

theorem skipToBody : InStep E m n c Same Parser.skipToBody Parser.skipToBody := by
  refine of_apply fun _ _ _ s t hst => ⟨(), (), _, _, rfl, rfl, rfl, ?_, hst.table, hst.unused⟩
  have hrest := hst.rest
  dsimp only
  generalize s.rest = as at hrest
  generalize t.rest = bs at hrest
  induction hrest with
  | nil => exact .nil
  | cons hab hmore ih =>
    rw [List.dropWhile_cons, List.dropWhile_cons, hab.kind]
    split
    · exact ih
    · exact .cons hab hmore

theorem find (hab : Token.Twin a b) :
    InStep E m n c (fun ρ => ρ) (Parser.find a) (Parser.find b) := by
  intro _ _ d s t _ hst
  have hfind := hst.table.find? a.literal
  unfold Parser.find
  rw [bind_apply, bind_apply, get_apply, get_apply, hab.literal]
  dsimp only
  generalize s.table.find? a.literal = x at hfind
  generalize t.table.find? a.literal = y at hfind
  cases hfind with
  | none => exact .error rfl
  | some hxy =>
    exact .ok ⟨d, Nat.le_refl d, fun k hk => hxy.1.mono hk, hst.rest, hxy.2, hst.unused⟩

theorem declare {a b : Token} (hab : Token.Twin a b) (type : DataType) (mutable_ : Bool)
    (nullable : Nullability) :
    InStep E m n c Fresh (Parser.declare a type mutable_ nullable)
      (Parser.declare b type mutable_ nullable) := by
  intro _ _ d s t _ hst
  have hdeclare := hst.table.declare a.literal type mutable_ nullable a.pos b.pos
  unfold Parser.declare
  rw [bind_apply, bind_apply, get_apply, get_apply, hab.literal]
  dsimp only
  generalize s.table.declare a.literal type mutable_ nullable a.pos = x at hdeclare
  generalize t.table.declare a.literal type mutable_ nullable b.pos = y at hdeclare
  cases hdeclare with
  | error hkind => exact .error hkind
  | ok hxy =>
    obtain ⟨found, found', hfound, hfound', hrel⟩ := hst.unused
    refine .ok ⟨d + 1, Nat.le_succ d, fun k hk => hxy.1.mono fun _ _ hrs => hrs.mono hk, hst.rest,
      hxy.2, found, found', hfound, hfound', fun hagree => ?_⟩
    exact hrel fun i hi => hagree i (Nat.lt_succ_of_lt hi)

theorem modify (hrs : ∀ k, c ≤ k → Paired m n k r s) {f : Var → Var} (hf : ∀ v : Var, v.Alike (f v))
    (hmarks : ∀ v w : Var, w.marks = v.marks → (f w).marks = (f v).marks) :
    InStep E m n c Same (Parser.modifyTable (·.modify r f)) (Parser.modifyTable (·.modify s f)) :=
  fun _ _ d _ _ hd hst => .ok ⟨d, Nat.le_refl d, fun _ _ => rfl,
    hst.rest, hst.table.modify (hrs d hd) hf hmarks, hst.unused⟩

theorem enter (kind : ScopeKind) (comment : Bytes) :
    InStep E m n c Same (Parser.enter kind comment) (Parser.enter kind comment) :=
  of_apply fun _ _ _ _ _ hst =>
    ⟨(), (), _, _, rfl, rfl, rfl, hst.rest, hst.table.enter kind comment, hst.unused⟩

theorem exitScope : InStep E m n c (fun _ _ _ => True) Parser.exitScope Parser.exitScope :=
  of_apply fun _ _ _ s t hst => by
    obtain ⟨found, found', hfound, hfound', hrel⟩ := hst.unused
    refine ⟨_, _, _, _, rfl, rfl, trivial, hst.rest, hst.table.exit.1,
      found.or s.table.exit.unused, found'.or t.table.exit.unused, ?_, ?_, fun hagree => ?_⟩
    · rw [← Option.or_assoc, ← hfound]
    · rw [← Option.or_assoc, ← hfound']
    · exact (hrel hagree).or (hst.table.exit.2 hagree)

theorem analyze (hreader : ∀ d as bs t u, List.Forall₂ Token.Twin as bs → Table.Twin E m n d t u →
      AnalysisAlike E m n d (R (Paired m n d)) (reader as last t) (reader' bs last' u))
    (hR : ∀ d k a b, d ≤ k → R (Paired m n d) a b → R (Paired m n k) a b) :
    InStep E m n c R (Parser.analyze last reader) (Parser.analyze last' reader') := by
  intro _ _ d s t _ hst
  have hanalysis := hreader d s.rest t.rest s.table t.table hst.rest hst.table
  unfold Parser.analyze
  rw [bind_apply, bind_apply, get_apply, get_apply]
  dsimp only
  generalize reader s.rest last s.table = x at hanalysis
  generalize reader' t.rest last' t.table = y at hanalysis
  cases hanalysis with
  | error hkind => exact .error hkind
  | ok hxy hab =>
    exact .ok ⟨d, Nat.le_refl d, fun k hk => hR d k _ _ hk hxy, hab.pending, hab.table, hst.unused⟩

def OneTwin (ρ : VarRef → VarRef → Prop) (x y : Stmt) : Prop := StmtsTwin ρ [x] [y]

inductive BlockTwin (ρ : VarRef → VarRef → Prop) : Block → Block → Prop
  | mk {xs ys : List Stmt} (pos pos' : Pos) (stop stop' : BlockEnd) :
    StmtsTwin ρ xs ys → BlockTwin ρ ⟨pos, xs, stop⟩ ⟨pos', ys, stop'⟩

inductive ElseTwin (ρ : VarRef → VarRef → Prop) : Else → Else → Prop
  | mk {x y : Block} (pos pos' : Pos) : BlockTwin ρ x y → ElseTwin ρ ⟨pos, x⟩ ⟨pos', y⟩

theorem branchTwin {g : Guard}
     (pos pos' : Pos) (hguard : GuardTwin ρ g g') (hyes : BlockTwin ρ yes yes')
    (hno : Option.Rel (ElseTwin ρ) no no') :
    OneTwin ρ (.ifElse pos g yes no) (.ifElse pos' g' yes' no') := by
  cases hyes with
  | mk start start' stop stop' hyes =>
    cases hno with
    | none => exact .branch _ _ _ _ _ _ hguard hyes .nil
    | some helse =>
      cases helse with
      | mk otherwise otherwise' hblock =>
        cases hblock with
        | mk start₂ start₂' stop₂ stop₂' hno =>
          exact .branchElse _ _ _ _ _ _ _ _ _ _ _ _ hguard hyes hno .nil

theorem lookups : InStep E m n c
    (fun _ (s t : ParserState) => ∀ name,
      Option.Rel FuncDef.Twin (s.table.lookupFunction? name) (t.table.lookupFunction? name))
    (get : Parser ParserState) (get : Parser ParserState) :=
  of_apply fun _ _ _ s t hst => ⟨s, t, s, t, rfl, rfl, hst.table.funcs, hst⟩

variable (hlast : Token.Twin last last')

include hlast

theorem peek : InStep E m n c (fun _ => Token.Twin) (Parser.peek last) (Parser.peek last') :=
  of_apply fun _ _ _ s t hst => ⟨_, _, s, t, rfl, rfl, .headD hst.rest hlast, hst⟩

theorem peekKind (i : Nat) :
    InStep E m n c Same (Parser.peekKind last i) (Parser.peekKind last' i) := by
  refine of_apply fun _ _ _ s t hst => ⟨_, _, s, t, rfl, rfl, ?_, hst⟩
  have hkind (as bs : List Token) (hts : List.Forall₂ Token.Twin as bs) (i : Nat) :
      (as.getD i last).kind = (bs.getD i last').kind := by
    induction hts generalizing i with
    | nil => exact hlast.kind.symm
    | cons hab _ ih =>
      cases i with
      | zero => exact hab.kind.symm
      | succ i => exact ih i
  exact hkind _ _ hst.rest i

theorem got (kind : TokenKind) :
    InStep E m n c Same (Parser.got last kind) (Parser.got last' kind) := by
  refine (peek hlast).bind_fixed fun a b hab => ?_
  rw [hab.kind]
  split
  · exact advance.bind_same fun _ => pure fun _ _ => rfl
  · exact pure fun _ _ => rfl

theorem fail (what : Expectation) :
    InStep E m n c R (Parser.fail last what) (Parser.fail last' what) :=
  (peek hlast).bind_fixed fun _ _ _ => throw rfl

theorem fail_bind : InStep E m n c Q (Parser.fail last what >>= f) (Parser.fail last' what >>= g) :=
  bind_fixed (S := fun _ _ => False) (fail hlast what) fun _ _ h => h.elim

theorem want (kind : TokenKind) :
    InStep E m n c Same (Parser.want last kind) (Parser.want last' kind) := by
  refine (got hlast kind).bind_same fun found => ?_
  cases found with
  | true => exact pure fun _ _ => rfl
  | false => exact fail hlast _

theorem name : InStep E m n c (fun _ => Token.Twin) (Parser.name last) (Parser.name last') := by
  refine (peek hlast).bind_fixed fun a b hab => ?_
  rw [hab.kind]
  split
  · exact advance.bind_same fun _ => pure fun _ _ => hab
  · exact fail hlast _

theorem typeName : InStep E m n c Same (Parser.typeName last) (Parser.typeName last') := by
  refine (peek hlast).bind_fixed fun a b hab => ?_
  rw [hab.kind]
  split
  · exact advance.bind_same fun _ => pure fun _ _ => rfl
  · exact fail hlast _

theorem expression :
    InStep E m n c ExpressionTwin (Parser.analyze last analyzeExpression)
      (Parser.analyze last' analyzeExpression) :=
  analyze (fun _ _ _ _ _ hts ht => analyzeExpression_alike hts hlast ht)
    fun _ _ _ _ hk h => h.mono fun _ _ hrs => hrs.mono hk

theorem condition :
    InStep E m n c TruthTwin (Parser.analyze last analyzeCondition)
      (Parser.analyze last' analyzeCondition) :=
  analyze (fun _ _ _ _ _ hts ht => analyzeCondition_alike hts hlast ht)
    fun _ _ _ _ hk h => h.mono fun _ _ hrs => hrs.mono hk

theorem argument : InStep E m n c ItemTwin (Parser.argument last) (Parser.argument last') := by
  refine (peek hlast).bind_fixed fun a b hab => ?_
  rw [hab.kind]
  cases hab with
  | mk pos =>
    split
    · refine (find (.mk a pos)).bind fun d r s hd hrs => ?_
      exact advance.bind_same fun _ => pure fun k hk => .variable a.pos pos (hrs k hk)
    · exact advance.bind_same fun _ => pure fun _ _ => .value _ pos
    · exact advance.bind_same fun _ => pure fun _ _ => .value _ pos
    · exact advance.bind_same fun _ => pure fun _ _ => .value _ pos
    · exact advance.bind_same fun _ => pure fun _ _ => .value _ pos
    · exact fail hlast _

theorem arguments (fuel : Nat) :
    InStep E m n c ItemsTwin (Parser.arguments last fuel)
      (Parser.arguments last' fuel) := by
  induction fuel generalizing c with
  | zero => exact throw rfl
  | succ fuel ih =>
    refine (peek hlast).bind_fixed fun a b hab => ?_
    rw [hab.kind]
    split
    · exact pure fun _ _ => .nil
    · refine (argument hlast).bind fun d x y hd hxy => ?_
      refine (got hlast _).bind_same fun comma => ?_
      split
      · refine ih.bind fun e xs ys he hxs => ?_
        exact pure fun k hk => .cons (hxy k (Nat.le_trans he hk)) (hxs k hk)
      · exact pure fun k hk => .cons (hxy k hk) .nil

theorem calledName : InStep E m n c Same (Parser.calledName last) (Parser.calledName last') := by
  refine (got hlast _).bind_same fun builtin => ?_
  split
  · refine (want hlast _).bind_same fun _ => (name hlast).bind_fixed fun a b hab => ?_
    exact pure fun _ _ => congrArg (FuncDef.builtinStart ++ ·) hab.literal.symm
  · refine (name hlast).bind_fixed fun a b hab => ?_
    exact pure fun _ _ => hab.literal.symm

theorem call : InStep E m n c CallTwin (Parser.call last) (Parser.call last') := by
  refine (peek hlast).bind_fixed fun a b _ => (calledName hlast).bind_same fun name => ?_
  refine (want hlast _).bind_same fun _ => fuel.bind_same fun fuel => ?_
  refine (arguments hlast fuel).bind fun d xs ys hd hxs => (want hlast _).bind_same fun _ => ?_
  exact pure fun k hk => .mk a.pos b.pos (hxs k hk) .none

theorem rhs : InStep E m n c ValueTwin (Parser.rhs last) (Parser.rhs last') := by
  refine (peekKind hlast 0).bind_same fun first => (peekKind hlast 1).bind_same fun second => ?_
  split
  · exact (call hlast).bind fun d x y hd hxy => pure fun k hk => .call (hxy k hk)
  · exact (expression hlast).bind fun d x y hd hxy => pure fun k hk => .expression (hxy k hk)

theorem declaredType :
    InStep E m n c Same (Parser.declaredType last) (Parser.declaredType last') := by
  refine (got hlast _).bind_same fun colon => ?_
  split
  · refine (got hlast _).bind_same fun nullable => (typeName hlast).bind_same fun type => ?_
    exact pure fun _ _ => rfl
  · exact pure fun _ _ => rfl

theorem declaration :
    InStep E m n c OneTwin (Parser.declaration last) (Parser.declaration last') := by
  refine (peek hlast).bind_fixed fun start start' hstart => advance.bind_same fun _ => ?_
  refine (name hlast).bind_fixed fun a b hab => (declaredType hlast).bind_same fun type => ?_
  refine (want hlast _).bind_same fun _ => (rhs hlast).bind fun d x y hd hxy => ?_
  refine (want hlast _).bind_same fun _ => ?_
  rw [hstart.kind]
  refine (declare hab _ _ _).bind fun e r s he hrs => ?_
  exact pure fun k hk => .declare _ _ (hrs k hk).pair (hxy k (Nat.le_trans he hk)) .nil

theorem target : InStep E m n c (fun ρ => ρ) (Parser.target last) (Parser.target last') := by
  refine (got hlast _).bind_same fun discard => ?_
  split
  · exact pure fun _ _ => .discard
  · refine (name hlast).bind_fixed fun a b hab => (find hab).bind fun d r s hd hrs => ?_
    refine .bind_same (modify hrs (fun v => ⟨rfl, rfl, rfl, rfl, rfl, rfl, rfl⟩) ?_) fun _ => ?_
    · intro v w hvw
      simp only [Var.marks, Prod.mk.injEq] at hvw ⊢
      exact ⟨hvw.1, trivial, hvw.2.2⟩
    · exact pure hrs

theorem assignment : InStep E m n c OneTwin (Parser.assignment last) (Parser.assignment last') := by
  refine (peek hlast).bind_fixed fun a b _ => (target hlast).bind fun d r s hd hrs => ?_
  refine (want hlast _).bind_same fun _ => (rhs hlast).bind fun e x y he hxy => ?_
  refine (want hlast _).bind_same fun _ => ?_
  exact pure fun k hk => .assign _ _ (hrs k (Nat.le_trans he hk)) (hxy k hk) .nil

theorem callStmt : InStep E m n c OneTwin (Parser.callStmt last) (Parser.callStmt last') := by
  refine (call hlast).bind fun d x y hd hxy => (want hlast _).bind_same fun _ => ?_
  exact pure fun k hk => .call (hxy k hk) .nil

theorem returnStmt : InStep E m n c OneTwin (Parser.returnStmt last) (Parser.returnStmt last') := by
  refine (peek hlast).bind_fixed fun a b _ => advance.bind_same fun _ => ?_
  refine (peek hlast).bind_fixed fun next next' hnext => ?_
  rw [hnext.kind]
  split
  · exact (want hlast _).bind_same fun _ => pure fun _ _ => .returnNone _ _ .nil
  · refine (rhs hlast).bind fun d x y hd hxy => (want hlast _).bind_same fun _ => ?_
    exact pure fun k hk => .returnSome _ _ (hxy k hk) .nil

theorem guard (kind : ScopeKind) (comment : Bytes) :
    InStep E m n c GuardTwin (Parser.guard last kind comment) (Parser.guard last' kind comment) := by
  refine (peek hlast).bind_fixed fun a b hab => ?_
  rw [hab.kind]
  split
  · exact fail_bind hlast
  · refine (peekKind hlast 1).bind_same fun first => (peekKind hlast 2).bind_same fun second => ?_
    refine (peekKind hlast 3).bind_same fun third => ?_
    split
    · refine advance.bind_same fun _ => (name hlast).bind_fixed fun subject subject' hsubj => ?_
      refine (find hsubj).bind fun d r s hd hrs => ?_
      refine advance.bind_same fun _ => advance.bind_same fun _ => ?_
      refine (name hlast).bind_fixed fun bound bound' hbound => (want hlast _).bind_same fun _ => ?_
      refine (enter kind comment).bind_same fun _ => ?_
      refine (declare hbound _ _ _).bind fun e binding binding' he hbind => ?_
      exact pure fun k hk => .unwrap _ _ (hrs k (Nat.le_trans he hk)) (hbind k hk)
    · refine advance.bind_same fun _ => (condition hlast).bind fun d x y hd hxy => ?_
      refine (want hlast _).bind_same fun _ => (enter kind comment).bind_same fun _ => ?_
      exact pure fun k hk => .compare (hxy k hk)

structure Blocks (m n : Nat) (last last' : Token) (fuel : Nat) : Prop where
  stmt : ∀ c, InStep E m n c OneTwin (Parser.stmt last fuel) (Parser.stmt last' fuel)
  elseBranch : ∀ c, InStep E m n c (fun ρ => Option.Rel (ElseTwin ρ)) (Parser.elseBranch last fuel)
    (Parser.elseBranch last' fuel)
  block : ∀ c, InStep E m n c BlockTwin (Parser.block last fuel) (Parser.block last' fuel)
  stmts : ∀ c, InStep E m n c StmtsTwin (Parser.stmts last fuel) (Parser.stmts last' fuel)

variable {fuel : Nat}

theorem stmt (ih : Blocks m n last last' fuel) :
    InStep E m n c OneTwin (Parser.stmt last (fuel + 1)) (Parser.stmt last' (fuel + 1)) := by
  unfold Parser.stmt
  refine (peek hlast).bind_fixed fun a b hab => ?_
  rw [hab.kind]
  split
  case h_1 => exact declaration hlast
  case h_2 => exact declaration hlast
  case h_3 => exact assignment hlast
  case h_4 =>
    refine (peekKind hlast 1).bind_same fun next => ?_
    split
    · exact assignment hlast
    · exact callStmt hlast
  case h_5 => exact callStmt hlast
  case h_6 =>
    refine (peek hlast).bind_fixed fun a b _ => advance.bind_same fun _ => ?_
    refine (guard hlast _ _).bind fun d g g' hd hguard => ?_
    refine (ih.block d).bind fun e yes yes' he hyes => ?_
    refine (ih.elseBranch e).bind fun i no no' hi hno => pure fun k hk => ?_
    exact branchTwin _ _ (hguard k (by omega)) (hyes k (by omega)) (hno k hk)
  case h_7 =>
    refine (peek hlast).bind_fixed fun a b _ => advance.bind_same fun _ => ?_
    refine (guard hlast _ _).bind fun d g g' hd hguard => ?_
    refine (ih.block d).bind fun e body body' he hbody => pure fun k hk => ?_
    cases hbody k hk with
    | mk start start' stop stop' hstmts =>
      exact .loop _ _ _ _ _ _ (hguard k (by omega)) hstmts .nil
  case h_8 => exact returnStmt hlast
  case h_9 => exact fail hlast _

theorem elseBranch (ih : Blocks m n last last' fuel) :
    InStep E m n c (fun ρ => Option.Rel (ElseTwin ρ)) (Parser.elseBranch last (fuel + 1))
      (Parser.elseBranch last' (fuel + 1)) := by
  unfold Parser.elseBranch
  refine (peek hlast).bind_fixed fun a b _ => (got hlast _).bind_same fun otherwise => ?_
  split
  · refine (enter _ _).bind_same fun _ => (ih.block c).bind fun d x y hd hxy => ?_
    exact pure fun k hk => .some (.mk _ _ (hxy k hk))
  · exact pure fun _ _ => .none

theorem block (ih : Blocks m n last last' fuel) :
    InStep E m n c BlockTwin (Parser.block last (fuel + 1)) (Parser.block last' (fuel + 1)) := by
  unfold Parser.block
  refine (peek hlast).bind_fixed fun a b _ => (want hlast _).bind_same fun _ => ?_
  refine (ih.stmts c).bind fun d xs ys hd hxs => (peek hlast).bind_fixed fun stop stop' _ => ?_
  refine (want hlast _).bind_same fun _ => exitScope.bind_fixed fun scope scope' _ => ?_
  exact pure fun k hk => .mk _ _ _ _ (hxs k hk)

theorem stmts (ih : Blocks m n last last' fuel) :
    InStep E m n c StmtsTwin (Parser.stmts last (fuel + 1)) (Parser.stmts last' (fuel + 1)) := by
  unfold Parser.stmts
  refine (peek hlast).bind_fixed fun a b hab => ?_
  rw [hab.kind]
  dsimp only
  split
  · exact pure fun _ _ => .nil
  · refine (ih.stmt c).bind fun d x y hd hxy => (ih.stmts d).bind fun e xs ys he hxs => ?_
    exact pure fun k hk => (hxy k (Nat.le_trans he hk)).cons (hxs k hk)

theorem blocks (fuel : Nat) : Blocks m n last last' fuel := by
  induction fuel with
  | zero => exact ⟨fun _ => throw rfl, fun _ => throw rfl, fun _ => throw rfl, fun _ => throw rfl⟩
  | succ fuel ih =>
    exact ⟨fun _ => stmt hlast ih, fun _ => elseBranch hlast ih, fun _ => block hlast ih,
      fun _ => stmts hlast ih⟩

theorem params {f g : FuncDef} (fuel : Nat) (expected : List Param) :
    InStep E m n c List.Forall₂ (Parser.params last f fuel expected)
      (Parser.params last' g fuel expected) := by
  induction fuel generalizing c expected with
  | zero => exact throw rfl
  | succ fuel ih =>
    refine (peek hlast).bind_fixed fun a b hab => ?_
    rw [hab.kind]
    split
    · exact pure fun _ _ => .nil
    · refine (name hlast).bind_fixed fun a b hab => (want hlast _).bind_same fun _ => ?_
      refine (got hlast _).bind_same fun _ => (typeName hlast).bind_same fun _ => ?_
      cases expected with
      | nil => exact throw rfl
      | cons param more =>
        refine (declare hab _ _ _).bind fun d r s hd hrs => ?_
        have hpair (k : Nat) (hk : d ≤ k) : Paired m n k r s := (hrs k hk).pair
        refine .bind_same (modify hpair (fun v => ⟨rfl, rfl, rfl, rfl, rfl, rfl, rfl⟩) ?_) fun _ => ?_
        · intro v w hvw
          simp only [Var.marks, Prod.mk.injEq] at hvw ⊢
          exact ⟨hvw.1, hvw.2.1, trivial⟩
        · refine (got hlast _).bind_same fun comma => ?_
          split
          · refine (ih more).bind fun e rs ss he hrest => ?_
            exact pure fun k hk => .cons (hpair k (Nat.le_trans he hk)) (hrest k hk)
          · exact pure fun k hk => .cons (hpair k hk) .nil

theorem function : InStep E m n c FunctionTwin (Parser.function last) (Parser.function last') := by
  refine (peek hlast).bind_fixed fun start start' _ => (want hlast _).bind_same fun _ => ?_
  refine (want hlast _).bind_same fun _ => (name hlast).bind_fixed fun a b hab => ?_
  rw [hab.literal]
  refine lookups.bind_fixed fun s t hlookups => ?_
  have hlook := hlookups a.literal
  generalize s.table.lookupFunction? a.literal = x at hlook
  generalize t.table.lookupFunction? a.literal = y at hlook
  cases hlook with
  | none => exact throw rfl
  | @some f g hfg =>
    refine (enter _ _).bind_same fun _ => (want hlast _).bind_same fun _ => ?_
    refine fuel.bind_same fun fuel => ?_
    have hparams : g.params = f.params := by
      cases hfg
      rfl
    rw [hparams]
    refine (params hlast fuel f.params).bind fun d rs ss hd hrs => ?_
    refine (want hlast _).bind_same fun _ => skipToBody.bind_same fun _ => ?_
    refine InStep.fuel.bind_same fun fuel => ?_
    refine ((blocks hlast _).block d).bind fun e body body' he hbody => pure fun k hk => ?_
    cases hbody k hk with
    | mk start start' stop stop' hstmts =>
      exact .mk _ _ _ _ _ _ hfg (hrs k (Nat.le_trans he hk)) hstmts

theorem functions (fuel : Nat) :
    InStep E m n c (fun ρ => List.Forall₂ (FunctionTwin ρ)) (Parser.functions last fuel)
      (Parser.functions last' fuel) := by
  induction fuel generalizing c with
  | zero => exact throw rfl
  | succ fuel ih =>
    refine (peek hlast).bind_fixed fun a b hab => ?_
    rw [hab.kind]
    split
    · refine (function hlast).bind fun d x y hd hxy => ih.bind fun e xs ys he hxs => ?_
      exact pure fun k hk => .cons (hxy k (Nat.le_trans he hk)) (hxs k hk)
    · exact pure fun _ _ => .nil

theorem prolog : InStep E m n c Same (Parser.prolog last) (Parser.prolog last') := by
  unfold Parser.prolog
  simp only [List.forM_eq_forM, List.forM_cons, List.forM_nil, bind_assoc, pure_bind]
  refine (want hlast _).bind_same fun _ => (want hlast _).bind_same fun _ => ?_
  refine (want hlast _).bind_same fun _ => (want hlast _).bind_same fun _ => ?_
  refine (want hlast _).bind_same fun _ => (want hlast _).bind_same fun _ => ?_
  refine (peek hlast).bind_fixed fun path path' hpath => ?_
  rw [hpath.kind, hpath.literal]
  split
  · exact fail_bind hlast
  · split
    · exact throw rfl
    · refine advance.bind_same fun _ => (want hlast _).bind_same fun _ => ?_
      exact (want hlast _).bind_same fun _ => pure fun _ _ => rfl

/-- The second pass over twins. -/
theorem program :
    InStep E m n c (fun ρ p q => List.Forall₂ (FunctionTwin ρ) p.functions q.functions)
      (Parser.program last) (Parser.program last') := by
  refine (peek hlast).bind_fixed fun start start' _ => (prolog hlast).bind_same fun path => ?_
  refine fuel.bind_same fun fuel => (functions hlast fuel).bind fun d fs gs hd hfs => ?_
  refine (peek hlast).bind_fixed fun a b hab => ?_
  rw [hab.kind]
  split
  · exact fail_bind hlast
  · exact pure hfs

end InStep

structure BufferTwin (b b' : TokenBuffer) : Prop where
  items : List.Forall₂ Token.Twin b.items b'.items
  last : Token.Twin b.last b'.last

structure ParsedTwin (E : Prop) (m n c : Nat) (x y : Parsed) : Prop where
  functions : List.Forall₂ (FunctionTwin (Paired m n c)) x.program.functions y.program.functions
  unused : Table.Agree m n c → Table.FoundAlike E x.unused y.unused

/-- Parsing takes no notice of places: it fails alike, or gives twins. -/
theorem parse_alike {t u : Table} (hb : BufferTwin b b') (ht : Table.Twin E m n c t u) :
    EndAlike (fun x y t u => ∃ d, c ≤ d ∧ ParsedTwin E m n d x y ∧ Table.Twin E m n d t u) (parse b t)
      (parse b' u) := by
  unfold parse
  refine (collectFrom_alike hb.last hb.items 0 0 ht).bind fun _ _ t u ht => ?_
  have hprog := InStep.program hb.last none none c ⟨b.items, t, none⟩
    ⟨b'.items, u, none⟩ (Nat.le_refl c) ⟨hb.items, ht, none, none, rfl, rfl, fun _ => .none⟩
  rw [bind_apply, bind_apply, get_apply, get_apply]
  dsimp only [EStateM.run]
  generalize Parser.program b.last ⟨b.items, t, none⟩ = x at hprog
  generalize Parser.program b'.last ⟨b'.items, u, none⟩ = y at hprog
  cases hprog with
  | error hkind => exact .error hkind
  | ok h =>
    obtain ⟨d, hd, hfuncs, hst⟩ := h
    obtain ⟨found, found', hfound, hfound', hrel⟩ := hst.unused
    refine .ok ⟨d, hd, ⟨hfuncs d (Nat.le_refl d), fun hagree => ?_⟩, hst.table⟩
    rw [hfound, hfound']
    exact hrel hagree

end

end Ifj24.Tree
