import Ifj24.Proofs.Failures

/-!
What the second pass does with statements. Whenever a parser succeeds, the tokens it has
consumed are the leaves of a derivation tree. Whenever it fails, the reason lies in the
program: its fuel exceeds the tokens that are left, and a variable is declared only inside a
function. The rules follow a parser backwards from what is to hold of the tokens it leaves,
and through the number of open scopes.
-/

open List

namespace Ifj24.Grammar

open Ifj24.Tree

/-- The first end-of-input token of a sequence, and what stands behind it. No parser passes
it. -/
structure Ending where
  stop : Lexeme .eof
  behind : List Token

namespace Ending

def tokens (e : Ending) : List Token := e.stop.1 :: e.behind

variable {ending : Ending} {front : List Token}

theorem headD_append (last : Token) (front : List Token) :
    (front ++ ending.tokens).headD last = front.headD ending.stop.1 := by
  cases front <;> rfl

theorem exists_cons (hk : k ≠ .eof) (h : (front.headD ending.stop.1).kind = k) :
    ∃ (a : Lexeme k) (left : List Token), front = a.1 :: left := by
  cases front with
  | nil =>
    rw [headD_nil, ending.stop.2] at h
    exact absurd h.symm hk
  | cons a left => exact ⟨⟨a, h⟩, left, rfl⟩

theorem split_before_end
    (h : front ++ ending.tokens = xs ++ a :: rest) (hxs : ∀ x ∈ xs, x.kind ≠ .eof)
    (ha : a.kind ≠ .eof) :
    ∃ left, front = xs ++ a :: left ∧ a :: rest = a :: left ++ ending.tokens := by
  rcases append_eq_append_iff.mp h with ⟨ys, hxs', hend⟩ | ⟨ys, hfront, hrest⟩
  · cases ys with
    | nil =>
      obtain ⟨hstop, -⟩ := List.cons.inj hend
      exact absurd (hstop ▸ ending.stop.2) ha
    | cons y ys =>
      obtain ⟨hstop, -⟩ := List.cons.inj hend
      exact absurd ending.stop.2 (hxs _ (by simp [hxs', hstop]))
  · cases ys with
    | nil =>
      obtain ⟨hstop, -⟩ := List.cons.inj hrest
      exact absurd (hstop ▸ ending.stop.2) ha
    | cons y ys =>
      obtain ⟨rfl, hrest⟩ := List.cons.inj hrest
      exact ⟨ys, hfront, by rw [hrest, cons_append]⟩

end Ending

open Ending

/-- A table with the functions of another one and with `depth` scopes open. The broken rule
of use that is noted so far, if any, lies in the program. -/
structure Inside (known : Table) (depth : Nat) (t : Table) (noted : Option Diagnostic) :
    Prop where
  hash : t.hash = known.hash
  funcs : t.funcs = known.funcs
  scopes : t.inner.length = depth
  noted : ∀ d, noted = some d → d.Ordinary

theorem ordinary_unused (t : Table) (scope : Scope)
    (h : t.unused? scope = some d) : d.Ordinary := by
  obtain ⟨r, -, hr⟩ := exists_of_findSome?_eq_some h
  obtain ⟨fault, -, rfl⟩ := Option.map_eq_some_iff.mp hr
  exact ⟨rfl⟩

namespace Inside

variable {known t u : Table} {depth : Nat} {noted : Option Diagnostic}

section

variable (h : Inside known depth t noted)

include h

theorem lookup (name : Bytes) : t.lookupFunction? name = known.lookupFunction? name := by
  rw [Table.lookupFunction?, Table.lookupFunction?, h.hash, h.funcs]

theorem modify (r : VarRef) (f : Var → Var) :
    Inside known depth (t.modify r f) noted := ⟨h.hash, h.funcs, h.scopes, h.noted⟩

theorem find? (hfind : t.find? name = some (r, u)) : Inside known depth u noted := by
  simp only [Table.find?, Option.map_eq_some_iff] at hfind
  obtain ⟨pair, -, heq⟩ := hfind
  cases heq
  exact h.modify _ _

theorem useAll (huse : Tree.useAll ts t = .ok () u) : Inside known depth u noted :=
  useAll_preserves (P := fun t => Inside known depth t noted) (fun _ r h => h.modify r _) h huse

theorem enter (kind : ScopeKind) (comment : Bytes) :
    Inside known (depth + 1) (t.enter kind comment) noted :=
  ⟨h.hash, h.funcs, by simp [Table.enter, h.scopes], h.noted⟩

end

theorem exit (h : Inside known (depth + 1) t noted) :
    Inside known depth t.exit.table (noted.or t.exit.unused) := by
  have hscope := h.scopes
  unfold Table.exit
  cases hinner : t.inner with
  | nil => simp [hinner] at hscope
  | cons scope outer =>
    rw [hinner, length_cons] at hscope
    refine ⟨h.hash, h.funcs, Nat.succ.inj hscope, fun d hd => ?_⟩
    rcases Option.or_eq_some_iff.mp hd with hd | ⟨-, hd⟩
    · exact h.noted d hd
    · exact ordinary_unused t scope hd

theorem ends_declare (h : Inside known (depth + 1) t noted) (name : Bytes) (type : DataType)
    (mutable_ : Bool) (nullable : Nullability) (pos : Pos) :
    Ends (fun _ u => Inside known (depth + 1) u noted)
      (t.declare name type mutable_ nullable pos) := by
  have hscope := h.scopes
  unfold Table.declare
  cases hinner : t.inner with
  | nil => simp [hinner] at hscope
  | cons scope outer =>
    rw [hinner, length_cons] at hscope
    dsimp only
    split
    · exact .error ⟨rfl⟩
    · exact .ok ⟨h.hash, h.funcs, hscope, h.noted⟩

end Inside

variable {α β : Type} {last : Token} {ending : Ending} {known : Table}

/-- A parser on `front` before the end of the input, with `before` scopes open. It fails only
for reasons that lie in the program. If it succeeds, `after` scopes are open, and `Q` holds of
its result and of the tokens that it leaves before the end. -/
def Proper (known : Table) (ending : Ending) (p : Parser α) (front : List Token)
    (before after : Nat) (Q : α → List Token → Prop) : Prop :=
  ∀ t u, Inside known before t u →
    Ends (fun a s => Inside known after s.table s.unused ∧
      ∃ left, s.rest = left ++ ending.tokens ∧ Q a left) (p ⟨front ++ ending.tokens, t, u⟩)

namespace Proper

variable {p : Parser α} {f : α → Parser β} {front left : List Token}
  {before m after : Nat} {Q : α → List Token → Prop} {R : β → List Token → Prop}

theorem mono (h : Proper known ending p front before after Q)
    (hQ : ∀ a left, Q a left → Q' a left) :
    Proper known ending p front before after Q' := by
  intro t u ht
  refine (h t u ht).mono ?_
  rintro a s ⟨hins, left, hrest, hleft⟩
  exact ⟨hins, left, hrest, hQ a left hleft⟩

theorem pure (h : Q a front) :
    Proper known ending (Pure.pure a) front before before Q :=
  fun _ _ ht => .ok ⟨ht, front, rfl, h⟩

theorem fail {what : Expectation} :
    Proper known ending (Parser.fail last what) front before after Q :=
  fun _ _ _ => .error ⟨rfl⟩

theorem bind (h : Proper known ending p front before m fun a left =>
      Proper known ending (f a) left m after R) :
    Proper known ending (p >>= f) front before after R := by
  intro t u ht
  refine (h t u ht).bind ?_
  rintro a ⟨rest, t', u'⟩ ⟨hins, left, hrest, hf⟩
  obtain rfl : rest = left ++ ending.tokens := hrest
  exact hf t' u' hins

theorem of_step (h : ∀ t u, p ⟨front ++ ending.tokens, t, u⟩ = q ⟨left ++ ending.tokens, t, u⟩)
    (hq : Proper known ending q left before after Q) :
    Proper known ending p front before after Q := by
  intro t u ht
  rw [h]
  exact hq t u ht

theorem peek {f : Token → Parser β}
    (h : Proper known ending (f (front.headD ending.stop.1)) front before after R) :
    Proper known ending (Parser.peek last >>= f) front before after R := by
  refine of_step (fun t u => ?_) h
  rw [← headD_append last]
  rfl

theorem peekKind {f : TokenKind → Parser β}
    (h : Proper known ending (f ((front ++ ending.tokens).getD i last).kind) front before
      after R) :
    Proper known ending (Parser.peekKind last i >>= f) front before after R :=
  of_step (fun _ _ => rfl) h

theorem advance {f : Unit → Parser β} (h : Proper known ending (f ()) left before after R) :
    Proper known ending (Parser.advance >>= f) (a :: left) before after R := by
  refine of_step (fun t u => ?_) h
  cases left <;> rfl

theorem got {f : Bool → Parser β} (hk : k ≠ .eof)
    (hyes : ∀ (a : Lexeme k) left, front = a.1 :: left →
      Proper known ending (f true) left before after R)
    (hno : (front.headD ending.stop.1).kind ≠ k →
      Proper known ending (f false) front before after R) :
    Proper known ending (Parser.got last k >>= f) front before after R := by
  by_cases hkind : (front.headD ending.stop.1).kind = k
  · obtain ⟨a, left, rfl⟩ := exists_cons hk hkind
    refine of_step (fun t u => ?_) (hyes a left rfl)
    cases left <;> simp [Parser.got, Parser.peek, Parser.advance, a.2, tokens]
  · refine of_step (fun t u => ?_) (hno hkind)
    rw [← headD_append last] at hkind
    simp only [Parser.got, Parser.peek, bind_apply, get_apply, pure_apply, if_neg hkind]

theorem want {f : Unit → Parser β} (hk : k ≠ .eof)
    (h : ∀ (a : Lexeme k) left, front = a.1 :: left →
      Proper known ending (f ()) left before after R) :
    Proper known ending (Parser.want last k >>= f) front before after R := by
  refine bind (m := before) ?_
  apply got hk
  · intro a left hfront
    exact pure (h a left hfront)
  · intro _
    exact fail

theorem name {f : Token → Parser β}
    (h : ∀ (a : Lexeme .name) left, front = a.1 :: left →
      Proper known ending (f a.1) left before after R) :
    Proper known ending (Parser.name last >>= f) front before after R := by
  refine bind (m := before) ?_
  apply peek
  split
  · rename_i hkind
    obtain ⟨a, left, rfl⟩ := exists_cons (by decide) hkind
    exact advance (pure (h a left rfl))
  · exact fail

theorem typeName {f : DataType → Parser β}
    (h : ∀ a type left, dataType? a.kind = some type → front = a :: left →
      Proper known ending (f type) left before after R) :
    Proper known ending (Parser.typeName last >>= f) front before after R := by
  refine bind (m := before) ?_
  apply peek
  split
  · rename_i type htype
    cases front with
    | nil =>
      rw [headD_nil, ending.stop.2] at htype
      cases htype
    | cons a left => exact advance (pure (h a type left htype rfl))
  · exact fail

theorem find {f : VarRef → Parser β}
    (h : ∀ r, Proper known ending (f r) front before after R) :
    Proper known ending (Parser.find a >>= f) front before after R := by
  intro t u ht
  cases hfind : t.find? a.literal with
  | none =>
    simp only [Parser.find, bind_apply, get_apply, hfind]
    exact .error ⟨rfl⟩
  | some pair =>
    simp only [Parser.find, bind_apply, get_apply, hfind]
    exact h pair.1 pair.2 u (ht.find? hfind)

theorem declare {f : VarRef → Parser β} {a : Token} {type : DataType} {mutable_ : Bool}
    {nullable : Nullability}
    (h : ∀ r, Proper known ending (f r) front (before + 1) after R) :
    Proper known ending (Parser.declare a type mutable_ nullable >>= f) front (before + 1)
      after R := by
  intro t u ht
  have hdeclare := ht.ends_declare a.literal type mutable_ nullable a.pos
  simp only [Parser.declare, bind_apply, get_apply]
  generalize t.declare a.literal type mutable_ nullable a.pos = x at hdeclare
  cases hdeclare with
  | error hd => exact .error hd
  | ok hv => exact h _ _ u hv

theorem modify {f : Unit → Parser β} (h : Proper known ending (f ()) front before after R) :
    Proper known ending (Parser.modifyTable (·.modify r g) >>= f) front before after R :=
  fun t u ht => h (t.modify r g) u (ht.modify r g)

theorem enter {f : Unit → Parser β}
    (h : Proper known ending (f ()) front (before + 1) after R) :
    Proper known ending (Parser.enter kind comment >>= f) front before after R :=
  fun t u ht => h (t.enter kind comment) u (ht.enter kind comment)

theorem exitScope {f : Scope → Parser β}
    (h : ∀ scope, Proper known ending (f scope) front before after R) :
    Proper known ending (Parser.exitScope >>= f) front (before + 1) after R :=
  fun t u ht => h t.exit.scope t.exit.table (u.or t.exit.unused) ht.exit

theorem fuel {f : Nat → Parser β}
    (h : ∀ i, front.length < i → Proper known ending (f i) front before after R) :
    Proper known ending (Parser.fuel >>= f) front before after R := by
  refine of_step (fun t u => rfl) (h ((front ++ ending.tokens).length + 1) ?_)
  rw [length_append]
  omega

end Proper

open Proper

variable {front : List Token} {depth : Nat}

theorem proper_argument :
    Proper known ending (Parser.argument last) front depth depth fun _ left =>
      ∃ a : Term, front = a.1 :: left := by
  apply peek
  have operand (h : (front.headD ending.stop.1).kind.isOperand = true) :
      ∃ (a : Term) (left : List Token), front = a.1 :: left := by
    cases front with
    | nil =>
      rw [headD_nil, ending.stop.2] at h
      cases h
    | cons a left => exact ⟨⟨a, h⟩, left, rfl⟩
  have literal (x : Expr) (h : (front.headD ending.stop.1).kind.isOperand = true) :
      Proper known ending (do Parser.advance; return x) front depth depth fun _ left =>
        ∃ a : Term, front = a.1 :: left := by
    obtain ⟨a, left, rfl⟩ := operand h
    exact .advance (.pure ⟨a, rfl⟩)
  split
  · rename_i hk
    apply find
    intro r
    exact literal _ (by rw [hk]; rfl)
  · rename_i hk
    exact literal _ (by rw [hk]; rfl)
  · rename_i hk
    exact literal _ (by rw [hk]; rfl)
  · rename_i hk
    exact literal _ (by rw [hk]; rfl)
  · rename_i hk
    exact literal _ (by rw [hk]; rfl)
  · exact .fail

theorem proper_arguments {fuel : Nat} (hfuel : front.length < fuel) :
    Proper known ending (Parser.arguments last fuel) front depth depth fun _ left =>
      ∃ args : Listed Term, front = args.tokens (fun a => [a.1]) ++ left := by
  induction fuel generalizing front with
  | zero => exact absurd hfuel (Nat.not_lt_zero _)
  | succ fuel ih =>
    apply peek
    split
    · exact .pure ⟨.nil, rfl⟩
    · apply Proper.bind
      apply proper_argument.mono
      rintro x left ⟨a, rfl⟩
      apply got (by decide)
      · rintro comma left' rfl
        simp only [length_cons] at hfuel
        apply Proper.bind
        apply (ih (by omega)).mono
        rintro xs left'' ⟨args, rfl⟩
        exact .pure ⟨.cons a comma args, rfl⟩
      · intro _
        exact .pure ⟨.last a, rfl⟩

theorem proper_callee :
    Proper known ending (Parser.calledName last) front depth depth fun _ left =>
      ∃ c : Callee, front = c.tokens ++ left := by
  apply got (by decide)
  · rintro ifj left rfl
    apply want (by decide)
    rintro dot left' rfl
    apply name
    rintro name left'' rfl
    exact .pure ⟨.builtin ifj dot name, rfl⟩
  · intro _
    apply name
    rintro name left rfl
    exact .pure ⟨.user name, rfl⟩

theorem proper_call :
    Proper known ending (Parser.call last) front depth depth fun _ left =>
      ∃ c : Call, front = c.tokens ++ left := by
  apply peek
  apply Proper.bind
  apply proper_callee.mono
  rintro name _ ⟨callee, rfl⟩
  apply want (by decide)
  rintro opening _ rfl
  apply fuel
  intro fuel hfuel
  apply Proper.bind
  apply (proper_arguments hfuel).mono
  rintro xs _ ⟨args, rfl⟩
  apply want (by decide)
  rintro closing left rfl
  exact .pure ⟨⟨callee, opening, args, closing⟩, by simp [Call.tokens]⟩

theorem proper_expression :
    Proper known ending (Parser.analyze last analyzeExpression) front depth depth
      fun _ left => ∃ e : Arithmetic, front = e.1.tokens ++ left := by
  intro t u ht
  have hyields := analyzeExpression_yields (front ++ ending.tokens) last t
  cases hresult : (analyzeExpression (front ++ ending.tokens) last t).result with
  | error d =>
    simp only [Parser.analyze, bind_apply, get_apply, hresult]
    exact .error (hyields.ordinary hresult)
  | ok x =>
    simp only [Parser.analyze, bind_apply, get_apply, hresult]
    obtain ⟨tree, semi, rest, hg, hsemi, hpend, hseen⟩ := analyzeExpression_sound hresult
    obtain ⟨left, hfront, hleft⟩ :=
      split_before_end hpend (fun a ha => (inert_arithmetic tree a ha).1)
        (by simp [hsemi])
    obtain ⟨v, huse⟩ := (useAll_ok_iff tree.tokens t).mpr hseen
    have hread := analyzeExpression_tree tree hg hsemi rest last t
    rw [huse, ← hpend] at hread
    obtain ⟨a, hread, rfl, hrest, -⟩ := hread
    rw [hread]
    exact .ok ⟨ht.useAll huse, semi :: left, hrest.trans hleft, ⟨tree, hg⟩, hfront⟩

theorem proper_condition :
    Proper known ending (Parser.analyze last analyzeCondition) front depth depth
      fun _ left => ∃ (l : Arithmetic) (op : Relation) (r : Arithmetic),
        front = l.1.tokens ++ op.1 :: (r.1.tokens ++ left) := by
  intro t u ht
  have hyields := analyzeCondition_yields (front ++ ending.tokens) last t
  cases hresult : (analyzeCondition (front ++ ending.tokens) last t).result with
  | error d =>
    simp only [Parser.analyze, bind_apply, get_apply, hresult]
    exact .error (hyields.ordinary hresult)
  | ok x =>
    simp only [Parser.analyze, bind_apply, get_apply, hresult]
    obtain ⟨l, r, op, close, rest, hl, hr, hop, hclose, hpend, hseen⟩ :=
      analyzeCondition_sound hresult
    have hsplit : front ++ ending.tokens = (l.tokens ++ op :: r.tokens) ++ close :: rest := by
      rw [hpend]
      simp
    have hinert : ∀ a ∈ l.tokens ++ op :: r.tokens, a.kind ≠ .eof := by
      intro a ha
      rcases mem_append.mp ha with ha | ha
      · exact (inert_arithmetic l a ha).1
      · rcases mem_cons.mp ha with rfl | ha
        · intro hk
          simp [hk, TokenKind.isRelational] at hop
        · exact (inert_arithmetic r a ha).1
    obtain ⟨left, hfront, hleft⟩ := split_before_end hsplit hinert (by simp [hclose])
    obtain ⟨v, huse⟩ := (useAll_ok_iff (l.tokens ++ op :: r.tokens) t).mpr hseen
    have hread := analyzeCondition_trees l r hl hr hop hclose rest last t
    rw [huse, ← hpend] at hread
    obtain ⟨a, hread, rfl, hrest, -⟩ := hread
    rw [hread]
    refine .ok ⟨ht.useAll huse, close :: left, hrest.trans hleft, ⟨l, hl⟩, ⟨op, hop⟩, ⟨r, hr⟩, ?_⟩
    rw [hfront]
    simp

theorem proper_rhs :
    Proper known ending (Parser.rhs last) front depth depth fun _ left =>
      ∃ x : Rhs, front = x.tokens ++ left := by
  apply peekKind
  apply peekKind
  split
  · apply Proper.bind
    apply proper_call.mono
    rintro _ left ⟨c, rfl⟩
    exact .pure ⟨.call c, rfl⟩
  · apply Proper.bind
    apply proper_expression.mono
    rintro _ left ⟨e, rfl⟩
    exact .pure ⟨.arithmetic e, rfl⟩

theorem proper_declaredType :
    Proper known ending (Parser.declaredType last) front depth depth fun _ left =>
      ∃ a : Option TypeMark, front = Plain.optional TypeMark.tokens a ++ left := by
  apply got (by decide)
  · rintro colon _ rfl
    apply got (by decide)
    · rintro question _ rfl
      apply typeName
      rintro a type left htype rfl
      exact .pure ⟨some ⟨colon, some question, a, type, htype⟩, rfl⟩
    · intro _
      apply typeName
      rintro a type left htype rfl
      exact .pure ⟨some ⟨colon, none, a, type, htype⟩, rfl⟩
  · intro _
    exact .pure ⟨none, rfl⟩

theorem proper_declaration
    (hk : (front.headD ending.stop.1).kind = .kwConst ∨ (front.headD ending.stop.1).kind = .kwVar) :
    Proper known ending (Parser.declaration last) front (depth + 1) (depth + 1) fun _ left =>
      ∃ s : Plain, front = s.tokens ++ left := by
  obtain ⟨binder, left, rfl⟩ : ∃ (binder : Binder) (left : List Token), front = binder.1 :: left := by
    cases front with
    | nil =>
      rw [headD_nil, ending.stop.2] at hk
      rcases hk with h | h <;> cases h
    | cons a left => exact ⟨⟨a, hk⟩, left, rfl⟩
  apply peek
  apply advance
  apply name
  rintro name _ rfl
  apply Proper.bind
  apply proper_declaredType.mono
  rintro ⟨type, nullable⟩ _ ⟨mark, rfl⟩
  apply want (by decide)
  rintro eq _ rfl
  apply Proper.bind
  apply proper_rhs.mono
  rintro _ _ ⟨value, rfl⟩
  apply want (by decide)
  rintro semi left rfl
  apply declare
  intro r
  exact .pure ⟨.declare binder name mark eq value semi, by simp [Plain.tokens]⟩

theorem proper_assignment :
    Proper known ending (Parser.assignment last) front depth depth fun _ left =>
      ∃ s : Plain, front = s.tokens ++ left := by
  apply peek
  have value {start : List Token} {pos : Pos} {r : VarRef} :
      Proper known ending (do
        Parser.want last .assign
        let value ← Parser.rhs last
        Parser.want last .semi
        return Stmt.assign pos r value) start depth depth fun _ left =>
          ∃ (eq : Lexeme .assign) (x : Rhs) (semi : Lexeme .semi),
            start = eq.1 :: (x.tokens ++ semi.1 :: left) := by
    apply want (by decide)
    rintro eq _ rfl
    apply Proper.bind
    apply proper_rhs.mono
    rintro _ _ ⟨x, rfl⟩
    apply want (by decide)
    rintro semi left rfl
    exact .pure ⟨eq, x, semi, rfl⟩
  refine .bind (m := depth) ?_
  apply got (by decide)
  · rintro target left rfl
    apply Proper.pure
    apply value.mono
    rintro _ left ⟨eq, x, semi, rfl⟩
    exact ⟨.drop target eq x semi, by simp [Plain.tokens]⟩
  · intro _
    apply name
    rintro target left rfl
    apply find
    intro r
    apply Proper.modify
    apply Proper.pure
    apply value.mono
    rintro _ left ⟨eq, x, semi, rfl⟩
    exact ⟨.assign target eq x semi, by simp [Plain.tokens]⟩

theorem proper_callStmt :
    Proper known ending (Parser.callStmt last) front depth depth fun _ left =>
      ∃ s : Plain, front = s.tokens ++ left := by
  apply Proper.bind
  apply proper_call.mono
  rintro _ _ ⟨c, rfl⟩
  apply want (by decide)
  rintro semi left rfl
  exact .pure ⟨.call c semi, by simp [Plain.tokens]⟩

theorem proper_returnStmt (hk : (front.headD ending.stop.1).kind = .kwReturn) :
    Proper known ending (Parser.returnStmt last) front depth depth fun _ left =>
      ∃ s : Plain, front = s.tokens ++ left := by
  obtain ⟨keyword, left, rfl⟩ := exists_cons (by decide) hk
  apply peek
  apply advance
  apply peek
  split
  · apply want (by decide)
    rintro semi left rfl
    exact .pure ⟨.return keyword none semi, rfl⟩
  · apply Proper.bind
    apply proper_rhs.mono
    rintro _ _ ⟨x, rfl⟩
    apply want (by decide)
    rintro semi left rfl
    exact Proper.pure ⟨.return keyword (some x) semi, by simp [Plain.tokens, Plain.optional]⟩

theorem proper_guard (kind : ScopeKind) (comment : Bytes) :
    Proper known ending (Parser.guard last kind comment) front depth (depth + 1)
      fun _ left => ∃ g : Guard, front = g.tokens ++ left := by
  apply peek
  split
  · exact fun _ _ _ => .error ⟨rfl⟩
  · rename_i hopen
    obtain ⟨opening, left, rfl⟩ := exists_cons (by decide) (Classical.not_not.mp hopen)
    apply peekKind
    apply peekKind
    apply peekKind
    split
    · rename_i hunwrap
      obtain ⟨-, hclose, hbar⟩ := hunwrap
      apply advance
      apply name
      rintro subject behind rfl
      apply find
      intro r
      -- The parenthesis and the bar were seen from the start of the guard.
      have hclose' : (behind.headD ending.stop.1).kind = .rparen := by
        cases behind <;> exact hclose
      obtain ⟨closing, behind, rfl⟩ := exists_cons (by decide) hclose'
      have hbar' : (behind.headD ending.stop.1).kind = .pipe := by
        cases behind <;> exact hbar
      obtain ⟨bar, behind, rfl⟩ := exists_cons (by decide) hbar'
      apply advance
      apply advance
      apply name
      rintro bound _ rfl
      apply want (by decide)
      rintro bar' left rfl
      apply enter
      apply declare
      intro binding
      exact .pure ⟨.unwrap opening subject closing bar bound bar', rfl⟩
    · apply advance
      apply Proper.bind
      apply proper_condition.mono
      rintro _ _ ⟨l, op, r, rfl⟩
      apply want (by decide)
      rintro closing left rfl
      apply enter
      exact .pure ⟨.compare opening l op r closing, by simp [Guard.tokens]⟩

section

/-- Tokens of one statement, which any sequence of statements may follow. -/
def OneStatement (used : List Token) : Prop :=
  ∀ rest : Body, ∃ b : Body, b.tokens = used ++ rest.tokens

/-- What the parsers of blocks do with fuel for the tokens before the end. -/
structure ProperBlocks (known : Table) (last : Token) (ending : Ending) (fuel : Nat) :
    Prop where
  stmt : ∀ front depth, front ≠ [] → front.length ≤ fuel →
    Proper known ending (Parser.stmt last fuel) front (depth + 1) (depth + 1) fun _ left =>
      ∃ used, used ≠ [] ∧ OneStatement used ∧ front = used ++ left
  elseBranch : ∀ front depth, front.length < fuel →
    Proper known ending (Parser.elseBranch last fuel) front depth depth fun _ left =>
      front = left ∨ ∃ (otherwise : Lexeme .kwElse) (braces : Braces) (no : Body),
        front = otherwise.1 :: (braces.tokens no.tokens ++ left)
  block : ∀ front depth, front.length < fuel →
    Proper known ending (Parser.block last fuel) front (depth + 1) depth fun _ left =>
      ∃ (braces : Braces) (body : Body), front = braces.tokens body.tokens ++ left
  stmts : ∀ front depth, front.length < fuel →
    Proper known ending (Parser.stmts last fuel) front (depth + 1) (depth + 1) fun _ left =>
      ∃ body : Body, front = body.tokens ++ left

theorem Guard.tokens_pos (g : Guard) : 0 < g.tokens.length := by
  cases g <;> simp [Guard.tokens]

variable {fuel : Nat} (ih : ProperBlocks known last ending fuel) (front) (depth)

include ih

theorem proper_stmt (hfuel : front.length ≤ fuel + 1) :
    Proper known ending (Parser.stmt last (fuel + 1)) front (depth + 1) (depth + 1)
      fun _ left => ∃ used, used ≠ [] ∧ OneStatement used ∧ front = used ++ left := by
  have plain {p : Parser Stmt} (h : Proper known ending p front (depth + 1) (depth + 1)
      fun _ left => ∃ s : Plain, front = s.tokens ++ left) :
      Proper known ending p front (depth + 1) (depth + 1)
        fun _ left => ∃ used, used ≠ [] ∧ OneStatement used ∧ front = used ++ left := by
    apply h.mono
    rintro _ left ⟨s, hs⟩
    exact ⟨s.tokens, length_pos_iff.mp s.tokens_pos, fun rest => ⟨.plain s rest, rfl⟩, hs⟩
  unfold Parser.stmt
  apply peek
  split
  case h_1 hk => exact plain (proper_declaration (.inl hk))
  case h_2 hk => exact plain (proper_declaration (.inr hk))
  case h_3 => exact plain proper_assignment
  case h_4 =>
    apply peekKind
    split
    · exact plain proper_assignment
    · exact plain proper_callStmt
  case h_5 => exact plain proper_callStmt
  case h_6 hk =>
    obtain ⟨keyword, left, rfl⟩ := exists_cons (by decide) hk
    apply peek
    apply advance
    apply Proper.bind
    apply (proper_guard _ _).mono
    rintro _ _ ⟨guard, rfl⟩
    have hguard := guard.tokens_pos
    simp only [length_cons, length_append] at hfuel
    apply Proper.bind
    apply (ih.block _ _ (by omega)).mono
    rintro _ _ ⟨braces, yes, rfl⟩
    rw [length_append] at hfuel
    apply Proper.bind
    apply (ih.elseBranch _ _ (by omega)).mono
    rintro _ left (rfl | ⟨otherwise, braces', no, rfl⟩)
    · refine .pure ⟨keyword.1 :: (guard.tokens ++ braces.tokens yes.tokens), by simp, ?_,
        by simp⟩
      exact fun rest => ⟨.branch keyword guard braces yes rest, by simp [Body.tokens]⟩
    · refine .pure ⟨keyword.1 :: (guard.tokens ++ (braces.tokens yes.tokens ++
        otherwise.1 :: braces'.tokens no.tokens)), by simp, ?_, by simp⟩
      exact fun rest => ⟨.branchElse keyword guard braces yes otherwise braces' no rest,
        by simp [Body.tokens]⟩
  case h_7 hk =>
    obtain ⟨keyword, left, rfl⟩ := exists_cons (by decide) hk
    apply peek
    apply advance
    apply Proper.bind
    apply (proper_guard _ _).mono
    rintro _ _ ⟨guard, rfl⟩
    have hguard := guard.tokens_pos
    simp only [length_cons, length_append] at hfuel
    apply Proper.bind
    apply (ih.block _ _ (by omega)).mono
    rintro _ left ⟨braces, body, rfl⟩
    refine .pure ⟨keyword.1 :: (guard.tokens ++ braces.tokens body.tokens), by simp, ?_,
      by simp⟩
    exact fun rest => ⟨.loop keyword guard braces body rest, by simp [Body.tokens]⟩
  case h_8 hk => exact plain (proper_returnStmt hk)
  case h_9 => exact .fail

theorem proper_elseBranch (hfuel : front.length < fuel + 1) :
    Proper known ending (Parser.elseBranch last (fuel + 1)) front depth depth fun _ left =>
      front = left ∨ ∃ (otherwise : Lexeme .kwElse) (braces : Braces) (no : Body),
        front = otherwise.1 :: (braces.tokens no.tokens ++ left) := by
  unfold Parser.elseBranch
  apply peek
  apply got (by decide)
  · rintro otherwise _ rfl
    apply enter
    rw [length_cons] at hfuel
    apply Proper.bind
    apply (ih.block _ _ (by omega)).mono
    rintro _ left ⟨braces, no, rfl⟩
    exact .pure (.inr ⟨otherwise, braces, no, rfl⟩)
  · intro _
    exact .pure (.inl rfl)

theorem proper_block (hfuel : front.length < fuel + 1) :
    Proper known ending (Parser.block last (fuel + 1)) front (depth + 1) depth fun _ left =>
      ∃ (braces : Braces) (body : Body), front = braces.tokens body.tokens ++ left := by
  unfold Parser.block
  apply peek
  apply want (by decide)
  rintro opening _ rfl
  rw [length_cons] at hfuel
  apply Proper.bind
  apply (ih.stmts _ _ (by omega)).mono
  rintro _ _ ⟨body, rfl⟩
  apply peek
  apply want (by decide)
  rintro closing left rfl
  apply exitScope
  intro scope
  exact .pure ⟨⟨opening, closing⟩, body, by simp [Braces.tokens]⟩

/-- What statements are parsed from is a body. -/
theorem proper_stmts (hfuel : front.length < fuel + 1) :
    Proper known ending (Parser.stmts last (fuel + 1)) front (depth + 1) (depth + 1)
      fun _ left => ∃ body : Body, front = body.tokens ++ left := by
  unfold Parser.stmts
  apply peek
  dsimp only
  split
  · exact .pure ⟨.done, rfl⟩
  · rename_i hkind
    have hfront : front ≠ [] := by
      rintro rfl
      exact hkind (.inr ending.stop.2)
    apply Proper.bind
    apply (ih.stmt _ _ hfront (by omega)).mono
    rintro _ left ⟨used, hused, hone, rfl⟩
    -- A statement takes at least one token.
    have hpos := length_pos_iff.mpr hused
    rw [length_append] at hfuel
    apply Proper.bind
    apply (ih.stmts _ _ (by omega)).mono
    rintro _ left ⟨rest, rfl⟩
    obtain ⟨b, hb⟩ := hone rest
    exact .pure ⟨b, by rw [hb, append_assoc]⟩

omit ih

/-- Blocks that the second pass accepts are derivable, and fuel that exceeds the tokens before
the end is never used up. -/
theorem properBlocks (fuel : Nat) : ProperBlocks known last ending fuel := by
  induction fuel with
  | zero =>
    refine ⟨fun front depth hfront hfuel => ?_, fun _ _ hfuel => ?_, fun _ _ hfuel => ?_,
      fun _ _ hfuel => ?_⟩
    · exact absurd (length_eq_zero_iff.mp (Nat.le_zero.mp hfuel)) hfront
    all_goals exact absurd hfuel (Nat.not_lt_zero _)
  | succ fuel ih =>
    exact ⟨fun front depth _ => proper_stmt front depth ih, (proper_elseBranch · · ih),
      (proper_block · · ih), (proper_stmts · · ih)⟩

end

end Ifj24.Grammar
