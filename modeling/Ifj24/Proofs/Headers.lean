import Ifj24.Proofs.Descent

/-!
The first pass on derivable tokens. It reads the signature of every function at its
header, passes over the bodies and registers the signatures in their order. It also
says which token sequences it accepts at all: the result type that the second pass
passes over has been read here.
-/

open List

namespace Ifj24.Grammar

open Ifj24.Tree Parameter

variable {last : Token}

namespace HeaderReader

open Tree.HeaderReader

variable {after rest : List Token}

theorem run_bind_of_ok {α β : Type} {m : HeaderReader α} {f : α → HeaderReader β}
     {a : α} (h : m.run input = .ok (a, rest)) :
    (m >>= f).run input = (f a).run rest := by
  rw [StateT.run_bind, h]
  rfl

theorem want_cons (ha : a.kind = kind) (rest : List Token) :
    (want last kind).run (a :: rest) = .ok (a, rest) := by
  simp [want, peek, advance, ha]
  rfl

theorem peek_cons (a : Token) (rest : List Token) :
    (peek last).run (a :: rest) = .ok (a, a :: rest) := rfl

theorem peek_run (input : List Token) :
    (peek last).run input = .ok (input.headD last, input) := rfl

theorem advance_cons (a : Token) (rest : List Token) :
    advance.run (a :: rest) = .ok ((), rest) := rfl

theorem valueType_tokens (t : TypeName) (rest : List Token) :
    (valueType last).run (t.tokens ++ rest) = .ok ((t.type, t.nullable), rest) := by
  obtain ⟨question, name, type, htype⟩ := t
  have hname : name.kind ≠ .question := by
    intro h
    simp [h, dataType?] at htype
  cases question with
  | some q =>
    simp [valueType, peek, advance, TypeName.tokens, q.2, htype, TypeName.nullable]
    rfl
  | none =>
    simp [valueType, peek, advance, TypeName.tokens, hname, htype, TypeName.nullable]
    rfl

theorem params_tokens (ps : Listed Parameter) (closing : Lexeme .rparen) (rest : List Token)
    (fuel : Nat) (hfuel : (ps.tokens tokens).length < fuel) :
    (params last fuel).run (ps.tokens tokens ++ closing.1 :: rest) =
      .ok (ps.toList.map param, closing.1 :: rest) := by
  have notClosing (p : Parameter) : p.name.1.kind ≠ .rparen := by simp [p.name.2]
  induction ps generalizing fuel with
  | nil =>
    obtain ⟨fuel, rfl⟩ := Nat.exists_eq_add_of_lt hfuel
    simp [params, peek, Listed.tokens, Listed.toList, closing.2]
    rfl
  | last p =>
    obtain ⟨fuel, rfl⟩ := Nat.exists_eq_add_of_lt hfuel
    rw [params, Listed.tokens, tokens, cons_append, cons_append,
      run_bind_of_ok (peek_cons _ _), if_neg (notClosing p),
      run_bind_of_ok (want_cons p.name.2 _), run_bind_of_ok (want_cons p.colon.2 _),
      run_bind_of_ok (valueType_tokens p.type _)]
    rw [run_bind_of_ok (peek_cons _ _), if_neg (by simp [closing.2])]
    rfl
  | cons p comma more ih =>
    rw [Listed.tokens, length_append, length_cons] at hfuel
    obtain ⟨fuel, rfl⟩ : ∃ i, fuel = i + 1 := ⟨fuel - 1, by omega⟩
    have hmore := ih fuel (by omega)
    rw [params, Listed.tokens, tokens, append_assoc, cons_append,
      cons_append, cons_append, run_bind_of_ok (peek_cons _ _), if_neg (notClosing p),
      run_bind_of_ok (want_cons p.name.2 _), run_bind_of_ok (want_cons p.colon.2 _),
      run_bind_of_ok (valueType_tokens p.type _)]
    rw [run_bind_of_ok (peek_cons _ _), if_pos comma.2, run_bind_of_ok (advance_cons _ _),
      run_bind_of_ok hmore]
    rfl

def headerRest (last : Token) (name : Token) (params : List Param) : HeaderReader FuncDef := do
  let _ ← want last .rparen
  let (result, nullableResult) ← resultType last
  let found ← peek last
  if found.kind = .lbrace then
    return ⟨name.literal, params, result, nullableResult, false, name.pos⟩
  else throw ⟨found.pos, .headerEnd found⟩

theorem header_before (h : Heading) (rest : List Token) :
    (header last).run (h.before rest) =
      (headerRest last h.name.1 (h.params.toList.map param)).run (h.closing.1 :: rest) := by
  have hget (input : List Token) : (get : HeaderReader (List Token)).run input = .ok (input, input) :=
    rfl
  have hfuel : (h.params.tokens tokens).length <
      (h.params.tokens tokens ++ h.closing.1 :: rest).length + 1 := by
    rw [length_append]
    omega
  rw [header, Heading.before, run_bind_of_ok (want_cons h.pub.2 _),
    run_bind_of_ok (want_cons h.fn.2 _), run_bind_of_ok (want_cons h.name.2 _),
    run_bind_of_ok (want_cons h.opening.2 _), run_bind_of_ok (hget _),
    run_bind_of_ok (params_tokens h.params h.closing rest _ hfuel)]
  rfl

theorem resultType_tokens (r : ResultType) (rest : List Token) :
    (resultType last).run (r.tokens ++ rest) = .ok ((r.type, r.nullable), rest) := by
  cases r with
  | void a =>
    rw [resultType, ResultType.tokens, cons_append, run_bind_of_ok (peek_cons _ _),
      if_pos a.2]
    rfl
  | value t =>
    have hfirst : ((t.tokens ++ rest).headD last).kind ≠ .kwVoid := by
      obtain ⟨question, name, type, htype⟩ := t
      cases question with
      | some q => simp [TypeName.tokens, q.2]
      | none =>
        intro h
        change name.kind = .kwVoid at h
        simp [h, dataType?] at htype
    rw [resultType, ResultType.tokens, run_bind_of_ok (peek_run _), if_neg hfirst]
    exact valueType_tokens t rest

theorem header_tokens (f : Function) (rest : List Token) :
    (header last).run (f.tokens ++ rest) =
      .ok (f.signature, f.braces.tokens f.body.tokens ++ rest) := by
  have hsplit : f.tokens ++ rest =
      f.before (f.result.tokens ++ (f.braces.tokens f.body.tokens ++ rest)) := by
    simp [Function.tokens, Heading.before]
  rw [hsplit, header_before, headerRest, run_bind_of_ok (want_cons f.closing.2 _),
    run_bind_of_ok (resultType_tokens f.result _), Braces.tokens, cons_append,
    run_bind_of_ok (peek_cons _ _), if_pos f.braces.opening.2]
  rfl

theorem valueType_eq_ok (hlast : last.kind = .eof)
     (h : (valueType last).run input = .ok (x, after)) :
    ∃ t : TypeName, input = t.tokens ++ after := by
  have hnoType : dataType? last.kind = none := by rw [hlast]; rfl
  rw [valueType, run_bind_of_ok (peek_run _)] at h
  by_cases hq : (input.headD last).kind = .question
  · cases input with
    | nil =>
      rw [headD_nil, hlast] at hq
      cases hq
    | cons q rest =>
      rw [headD_cons] at hq
      simp only [headD_cons, hq, decide_true, if_true] at h
      rw [run_bind_of_ok (advance_cons _ _), run_bind_of_ok (peek_run _)] at h
      cases htype : dataType? (rest.headD last).kind with
      | none =>
        rw [htype] at h
        cases h
      | some type =>
        rw [htype] at h
        cases rest with
        | nil =>
          rw [headD_nil, hnoType] at htype
          cases htype
        | cons a rest =>
          cases h
          exact ⟨⟨some ⟨q, hq⟩, a, type, htype⟩, rfl⟩
  · simp only [hq, decide_false, if_false] at h
    rw [run_bind_of_ok (peek_run _)] at h
    cases htype : dataType? (input.headD last).kind with
    | none =>
      rw [htype] at h
      cases h
    | some type =>
      rw [htype] at h
      cases input with
      | nil =>
        rw [headD_nil, hnoType] at htype
        cases htype
      | cons a rest =>
        cases h
        exact ⟨⟨none, a, type, htype⟩, rfl⟩

theorem resultType_eq_ok (hlast : last.kind = .eof)
     (h : (resultType last).run input = .ok (x, after)) :
    ∃ r : ResultType, input = r.tokens ++ after := by
  rw [resultType, run_bind_of_ok (peek_run _)] at h
  by_cases hvoid : (input.headD last).kind = .kwVoid
  · cases input with
    | nil =>
      rw [headD_nil, hlast] at hvoid
      cases hvoid
    | cons a rest =>
      rw [if_pos hvoid] at h
      cases h
      exact ⟨.void ⟨a, hvoid⟩, rfl⟩
  · rw [if_neg hvoid] at h
    obtain ⟨t, rfl⟩ := valueType_eq_ok hlast h
    exact ⟨.value t, rfl⟩

theorem header_eq_ok (hlast : last.kind = .eof) {h : Heading}
    {definition : FuncDef} (hhead : (header last).run (h.before rest) = .ok (definition, after)) :
    ∃ r : ResultType, rest = r.tokens ++ after ∧ ∃ a more, after = a :: more ∧ a.kind = .lbrace := by
  rw [header_before, headerRest, run_bind_of_ok (want_cons h.closing.2 _)] at hhead
  cases hres : (resultType last).run rest with
  | error d =>
    rw [StateT.run_bind, hres] at hhead
    cases hhead
  | ok pair =>
    obtain ⟨x, middle⟩ := pair
    obtain ⟨r, rfl⟩ := resultType_eq_ok hlast hres
    rw [run_bind_of_ok hres, run_bind_of_ok (peek_run _)] at hhead
    by_cases hbrace : (middle.headD last).kind = .lbrace
    · rw [if_pos hbrace] at hhead
      cases hhead
      cases after with
      | nil =>
        rw [headD_nil, hlast] at hbrace
        cases hbrace
      | cons a more => exact ⟨r, rfl, a, more, rfl, hbrace⟩
    · rw [if_neg hbrace] at hhead
      cases hhead

end HeaderReader

def Inert (a : Token) : Prop :=
  a.kind ≠ .eof ∧ a.kind ≠ .lbrace ∧ a.kind ≠ .rbrace ∧ a.kind ≠ .kwPub

theorem Lexeme.inert (a : Lexeme k)
    (hk : k ≠ .eof ∧ k ≠ .lbrace ∧ k ≠ .rbrace ∧ k ≠ .kwPub) : Inert a.1 := by
  rw [Inert, a.2]
  exact hk

theorem inert_of_isOperand (h : a.kind.isOperand = true) : Inert a := by
  refine ⟨?_, ?_, ?_, ?_⟩ <;> intro hk <;> simp [hk, TokenKind.isOperand] at h

theorem inert_arithmetic (e : ArithTree) : ∀ a ∈ e.tokens, Inert a := by
  induction e with
  | operand a ha =>
    intro x hx
    obtain rfl : x = a := by simpa [ArithTree.tokens] using hx
    exact inert_of_isOperand ha
  | binary l op hop r ihl ihr =>
    intro x hx
    simp only [ArithTree.tokens, mem_append, mem_cons] at hx
    rcases hx with hx | rfl | hx
    · exact ihl x hx
    · refine ⟨?_, ?_, ?_, ?_⟩ <;> intro hk <;> simp [hk, TokenKind.isArith] at hop
    · exact ihr x hx
  | paren o ho inner c hc ih =>
    intro x hx
    simp only [ArithTree.tokens, cons_append, mem_cons, mem_append,
      not_mem_nil, or_false] at hx
    rcases hx with rfl | hx | rfl
    · simp [Inert, ho]
    · exact ih x hx
    · simp [Inert, hc]

theorem inert_terms (args : Listed Term) : ∀ a ∈ args.tokens (fun a => [a.1]), Inert a := by
  induction args with
  | nil => simp [Listed.tokens]
  | last a =>
    intro x hx
    obtain rfl : x = a.1 := by simpa [Listed.tokens] using hx
    exact inert_of_isOperand a.2
  | cons a comma rest ih =>
    intro x hx
    simp only [Listed.tokens, mem_append, mem_cons, not_mem_nil, or_false] at hx
    rcases hx with rfl | rfl | hx
    · exact inert_of_isOperand a.2
    · exact comma.inert (by decide)
    · exact ih x hx

theorem inert_call (c : Call) : ∀ a ∈ c.tokens, Inert a := by
  obtain ⟨callee, opening, args, closing⟩ := c
  intro x hx
  simp only [Call.tokens, mem_append, mem_cons, not_mem_nil, or_false] at hx
  rcases hx with hx | rfl | hx | rfl
  · cases callee with
    | user name =>
      obtain rfl : x = name.1 := by simpa [Callee.tokens] using hx
      exact name.inert (by decide)
    | builtin ifj dot name =>
      simp only [Callee.tokens, mem_cons, not_mem_nil, or_false] at hx
      rcases hx with rfl | rfl | rfl
      · exact ifj.inert (by decide)
      · exact dot.inert (by decide)
      · exact name.inert (by decide)
  · exact opening.inert (by decide)
  · exact inert_terms args x hx
  · exact closing.inert (by decide)

theorem inert_rhs (v : Rhs) : ∀ a ∈ v.tokens, Inert a := by
  cases v with
  | call c => exact inert_call c
  | arithmetic e => exact inert_arithmetic e.1

theorem inert_typeName (t : TypeName) : ∀ a ∈ t.tokens, Inert a := by
  intro a ha
  rcases t.token_kind a ha with h | h
  · simp [Inert, h]
  · refine ⟨?_, ?_, ?_, ?_⟩ <;> intro hk <;> simp [hk, TokenKind.isDataType] at h

theorem inert_plain (s : Plain) : ∀ a ∈ s.tokens, Inert a := by
  intro x hx
  cases s with
  | declare binder name mark eq value semi =>
    simp only [Plain.tokens, mem_append, mem_cons, not_mem_nil, or_false] at hx
    rcases hx with rfl | rfl | hx | rfl | hx | rfl
    · rcases binder.2 with h | h <;> simp [Inert, h]
    · exact name.inert (by decide)
    · cases mark with
      | none => simp [Plain.optional] at hx
      | some a =>
        rcases mem_cons.mp hx with rfl | hx
        · exact a.colon.inert (by decide)
        · exact inert_typeName a.type x hx
    · exact eq.inert (by decide)
    · exact inert_rhs value x hx
    · exact semi.inert (by decide)
  | drop target eq value semi | assign target eq value semi =>
    simp only [Plain.tokens, mem_append, mem_cons, not_mem_nil, or_false] at hx
    rcases hx with rfl | rfl | hx | rfl
    · exact target.inert (by decide)
    · exact eq.inert (by decide)
    · exact inert_rhs value x hx
    · exact semi.inert (by decide)
  | call c semi =>
    simp only [Plain.tokens, mem_append, mem_cons, not_mem_nil, or_false] at hx
    rcases hx with hx | rfl
    · exact inert_call c x hx
    · exact semi.inert (by decide)
  | «return» keyword value semi =>
    simp only [Plain.tokens, mem_append, mem_cons, not_mem_nil, or_false] at hx
    rcases hx with rfl | hx | rfl
    · exact keyword.inert (by decide)
    · cases value with
      | none => simp [Plain.optional] at hx
      | some value => exact inert_rhs value x hx
    · exact semi.inert (by decide)

theorem inert_guard (g : Guard) : ∀ a ∈ g.tokens, Inert a := by
  intro x hx
  cases g with
  | compare opening left op right closing =>
    simp only [Guard.tokens, mem_append, mem_cons, not_mem_nil, or_false] at hx
    rcases hx with rfl | hx | rfl | hx | rfl
    · exact opening.inert (by decide)
    · exact inert_arithmetic left.1 x hx
    · have hop := op.2
      refine ⟨?_, ?_, ?_, ?_⟩ <;> intro hk <;> simp [hk, TokenKind.isRelational] at hop
    · exact inert_arithmetic right.1 x hx
    · exact closing.inert (by decide)
  | unwrap opening subject closing bar bound bar' =>
    simp only [Guard.tokens, mem_cons, not_mem_nil, or_false] at hx
    rcases hx with rfl | rfl | rfl | rfl | rfl | rfl
    · exact opening.inert (by decide)
    · exact subject.inert (by decide)
    · exact closing.inert (by decide)
    · exact bar.inert (by decide)
    · exact bound.inert (by decide)
    · exact bar'.inert (by decide)

section

variable {h : Heading} {after rest : List Token}

theorem collectFrom_skip (xs rest : List Token) :
    collectFrom last xs.length depth (xs ++ rest) = collectFrom last 0 depth rest := by
  induction xs with
  | nil => rfl
  | cons x xs ih =>
    rw [cons_append, length_cons, collectFrom]
    exact ih

theorem collectFrom_inert (hts : ∀ a ∈ ts, Inert a) (rest : List Token) :
    collectFrom last 0 depth (ts ++ rest) = collectFrom last 0 depth rest := by
  induction ts with
  | nil => rfl
  | cons a ts ih =>
    obtain ⟨heof, hopen, hclose, hpub⟩ := hts a (by simp)
    have hstep : collectFrom last 0 depth (a :: (ts ++ rest)) =
        collectFrom last 0 depth (ts ++ rest) := by
      simp only [collectFrom]
    rw [cons_append, hstep]
    exact ih fun x hx => hts x (by simp [hx])

theorem collectFrom_braces (braces : Braces)
    (hts : ∀ rest, collectFrom last 0 (depth + 1) (ts ++ rest) =
      collectFrom last 0 (depth + 1) rest) (rest : List Token) :
    collectFrom last 0 depth (braces.tokens ts ++ rest) = collectFrom last 0 depth rest := by
  have hopen : collectFrom last 0 depth (braces.opening.1 :: (ts ++ (braces.closing.1 :: rest))) =
      collectFrom last 0 (depth + 1) (ts ++ (braces.closing.1 :: rest)) := by
    simp only [collectFrom, braces.opening.2]
  have hclose : collectFrom last 0 (depth + 1) (braces.closing.1 :: rest) =
      collectFrom last 0 depth rest := by
    simp only [collectFrom, braces.closing.2]
  have hsplit : braces.tokens ts ++ rest =
      braces.opening.1 :: (ts ++ (braces.closing.1 :: rest)) := by
    simp [Braces.tokens]
  rw [hsplit, hopen, hts, hclose]

/-- A body is passed over. -/
theorem collectFrom_body (body : Body) (rest : List Token) :
    collectFrom last 0 (depth + 1) (body.tokens ++ rest) =
      collectFrom last 0 (depth + 1) rest := by
  have keyword {k : TokenKind} (a : Lexeme k)
      (hk : k ≠ .eof ∧ k ≠ .lbrace ∧ k ≠ .rbrace ∧ k ≠ .kwPub) (ts : List Token) {depth : Nat} :
      collectFrom last 0 depth (a.1 :: ts) = collectFrom last 0 depth ts := by
    change collectFrom last 0 depth ([a.1] ++ ts) = _
    refine collectFrom_inert ?_ ts
    intro x hx
    obtain rfl : x = a.1 := by simpa using hx
    exact a.inert hk
  induction body generalizing depth rest with
  | done => rfl
  | plain s more ih =>
    rw [Body.tokens, append_assoc, collectFrom_inert (inert_plain s)]
    exact ih rest
  | branch k guard braces yes more ihYes ihRest =>
    rw [Body.tokens, cons_append, keyword k (by decide), append_assoc,
      collectFrom_inert (inert_guard guard), append_assoc,
      collectFrom_braces braces (fun rest => ihYes rest)]
    exact ihRest rest
  | branchElse k guard braces yes otherwise braces' no more ihYes ihNo ihRest =>
    rw [Body.tokens, cons_append, keyword k (by decide), append_assoc,
      collectFrom_inert (inert_guard guard), append_assoc,
      collectFrom_braces braces (fun rest => ihYes rest), cons_append,
      keyword otherwise (by decide), append_assoc,
      collectFrom_braces braces' (fun rest => ihNo rest)]
    exact ihRest rest
  | loop k guard braces inside more ihBody ihRest =>
    rw [Body.tokens, cons_append, keyword k (by decide), append_assoc,
      collectFrom_inert (inert_guard guard), append_assoc,
      collectFrom_braces braces (fun rest => ihBody rest)]
    exact ihRest rest

theorem collectFrom_of_header
    (hhead : (Tree.HeaderReader.header last).run (h.before rest) = .ok (definition, after))
    (hafter : ∃ xs, (h.before rest).tail = xs ++ after) :
    collectFrom last 0 0 (h.before rest) =
      (do
        Table.addFunction definition
        collectFrom last 0 0 after) := by
  obtain ⟨xs, hxs⟩ := hafter
  have hlen : (h.before rest).tail.length - after.length = xs.length := by simp [hxs]
  have hbef : h.before rest = h.pub.1 :: (h.before rest).tail := rfl
  rw [hbef] at hhead
  rw [hbef]
  simp only [collectFrom, h.pub.2, hhead, hlen, Nat.lt_irrefl, if_false]
  rw [hxs, collectFrom_skip]

theorem collectFrom_of_header_error
    (hhead : (Tree.HeaderReader.header last).run (h.before rest) = .error d) :
    collectFrom last 0 0 (h.before rest) = throw d := by
  have hbef : h.before rest = h.pub.1 :: (h.before rest).tail := rfl
  rw [hbef] at hhead
  rw [hbef]
  simp only [collectFrom, h.pub.2, hhead, Nat.lt_irrefl, if_false]

theorem collectFrom_function (f : Function) (rest : List Token) :
    collectFrom last 0 0 (f.tokens ++ rest) =
      (do
        Table.addFunction f.signature
        collectFrom last 0 0 rest) := by
  have hsplit : f.tokens ++ rest =
      f.before (f.result.tokens ++ (f.braces.tokens f.body.tokens ++ rest)) := by
    simp [Function.tokens, Heading.before]
  have hhead : (Tree.HeaderReader.header last).run (f.tokens ++ rest) =
      .ok (f.signature, f.braces.tokens f.body.tokens ++ rest) :=
    HeaderReader.header_tokens f rest
  rw [hsplit] at hhead ⊢
  rw [collectFrom_of_header hhead]
  · rw [collectFrom_braces f.braces (fun rest => collectFrom_body f.body rest)]
  · exact ⟨f.fn.1 :: f.name.1 :: f.opening.1 :: (f.params.tokens tokens ++
      f.closing.1 :: f.result.tokens), by simp [Heading.before]⟩

end

def register : List FuncDef → EStateM Diagnostic Table Unit
  | [] => pure ()
  | d :: rest => do
    Table.addFunction d
    register rest

theorem collectFrom_functions (fs : List Function) (rest : List Token) :
    collectFrom last 0 0 (fs.flatMap Function.tokens ++ rest) =
      (do
        register (fs.map Function.signature)
        collectFrom last 0 0 rest) := by
  induction fs with
  | nil => rfl
  | cons f more ih =>
    rw [flatMap_cons, append_assoc, collectFrom_function, ih]
    funext t
    simp only [map_cons, register, bind_apply]
    cases t.addFunction f.signature <;> rfl

theorem inert_prolog (p : Prolog) : ∀ a ∈ p.tokens, Inert a := by
  intro x hx
  simp only [Prolog.tokens, mem_cons, not_mem_nil, or_false] at hx
  rcases hx with rfl | rfl | rfl | rfl | rfl | rfl | rfl | rfl | rfl
  · exact p.const.inert (by decide)
  · exact p.ifj.inert (by decide)
  · exact p.eq.inert (by decide)
  · exact p.at_.inert (by decide)
  · exact p.import_.inert (by decide)
  · exact p.opening.inert (by decide)
  · exact p.path.inert (by decide)
  · exact p.closing.inert (by decide)
  · exact p.semi.inert (by decide)

/-- The first pass over a derivable program. -/
theorem collectFrom_program (p : Program) (behind : List Token) :
    collectFrom last 0 0 (p.tokens ++ behind) =
      (do
        register (p.functions.map Function.signature)
        checkMain last) := by
  have heof : collectFrom last 0 0 (p.eof.1 :: behind) = checkMain last := by
    simp [collectFrom, p.eof.2, collectFrom.atEnd]
  rw [Program.tokens, append_assoc, append_assoc,
    collectFrom_inert (inert_prolog p.prolog), collectFrom_functions, singleton_append, heof]

theorem register_eq_ok (h : register ds t = .ok () u) :
    u = { t with funcs := u.funcs } ∧ u.funcs.order = t.funcs.order ++ ds ∧
      (t.funcs.Faithful t.hash → u.funcs.Faithful t.hash) ∧
      (∀ name d, t.lookupFunction? name = some d → u.lookupFunction? name = some d) ∧
      (∀ d ∈ ds, t.lookupFunction? d.name = none ∧ u.lookupFunction? d.name = some d) ∧
      (ds.map FuncDef.name).Nodup := by
  induction ds generalizing t with
  | nil =>
    cases h
    simp
  | cons d rest ih =>
    rw [register, bind_apply] at h
    cases hadd : t.addFunction d with
    | error e => simp [hadd] at h
    | ok _ t' =>
      rw [hadd] at h
      obtain ⟨heq, hnone, horder, hfaith, hself, hother⟩ := Table.addFunction_eq_ok hadd
      obtain ⟨heq', horder', hfaith', hkeep, hnew, hnodup⟩ := ih h
      have hhash : t'.hash = t.hash := by rw [heq]
      rw [hhash] at hfaith'
      refine ⟨?_, ?_, fun h => hfaith' (hfaith h), ?_, ?_, ?_⟩
      · rw [heq', heq]
      · rw [horder', horder, append_assoc]
        rfl
      · intro name e he
        have hne : name ≠ d.name := by
          rintro rfl
          rw [hnone] at he
          cases he
        exact hkeep name e ((hother name hne).trans he)
      · intro e he
        rcases mem_cons.mp he with rfl | he
        · exact ⟨hnone, hkeep _ _ hself⟩
        · obtain ⟨hnone', hfound⟩ := hnew e he
          have hne : e.name ≠ d.name := by
            intro h
            rw [h, hself] at hnone'
            cases hnone'
          exact ⟨(hother _ hne).symm.trans hnone', hfound⟩
      · rw [map_cons, nodup_cons]
        refine ⟨?_, hnodup⟩
        intro hmem
        obtain ⟨e, he, hname⟩ := mem_map.mp hmem
        have hnone' := (hnew e he).1
        rw [hname, hself] at hnone'
        cases hnone'

theorem register_error_kind (h : register ds t = .error d u) : d.kind = .redefinition := by
  induction ds generalizing t with
  | nil => cases h
  | cons e rest ih =>
    rw [register, bind_apply] at h
    cases hadd : t.addFunction e with
    | error d' =>
      rw [hadd] at h
      cases h
      exact (Table.addFunction_eq_error hadd).1
    | ok _ t' =>
      rw [hadd] at h
      exact ih h

theorem checkMain_cases (last : Token) (t : Table) :
    checkMain last t = .ok () t ∨
      ∃ d, checkMain last t = .error d t ∧ (d.kind = .undefinedName ∨ d.kind = .badParameter) := by
  unfold checkMain
  rw [bind_apply, get_apply]
  dsimp only
  cases t.lookupFunction? (Bytes.ofString "main") with
  | none => exact .inr ⟨_, rfl, .inl rfl⟩
  | some main =>
    by_cases hmain : (!main.params.isEmpty || main.result != .void) = true
    · exact .inr ⟨⟨main.pos, .badMain⟩, by simp only [hmain, if_true]; rfl, .inr rfl⟩
    · exact .inl (by simp only [hmain]; rfl)

end Ifj24.Grammar
