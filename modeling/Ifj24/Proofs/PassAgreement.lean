import Mathlib.Data.List.Forall2
import Ifj24.Proofs.Parsing

/-!
The two passes over a source read the same headers in the same order. The tokens that the
second pass has left at a function are those at which the first pass has read a header, so it
finds the definition of that header, and it finds a parameter there for each that it reads.
This holds at every function it comes to, whether or not it comes to the end.
-/

open List

namespace Ifj24

structure Var.Fits (v : Var) (p : Param) : Prop where
  name : v.name = p.name
  type : v.type = p.type
  nullable : v.nullable = .ofBool p.nullable

/-- A failure for another reason than a function or a parameter that was not registered. -/
def Diagnostic.Registered (d : Diagnostic) : Prop :=
  ∀ name, d.cause ≠ .unregistered name ∧ d.cause ≠ .missingParameter name

theorem Diagnostic.Ordinary.registered {d : Diagnostic} (h : d.Ordinary) : d.Registered := by
  intro name
  constructor <;>
  · intro hcause
    exact h.ne (by rw [Diagnostic.kind, hcause]; rfl)

namespace Grammar

open Ifj24.Tree

variable {fns : List Tree.Function} {hash : NameHash} {n : Nat}
  {s s' s₀ : ParserState} {T t u : Table} {fn : Tree.Function}

variable {last : Token} {ending : Ending} {known : Table}

theorem filter_builtins (h : ∀ d ∈ ds, d.builtin = false) :
    (FuncDef.builtins ++ ds).filter (fun f => !f.builtin) = ds := by
  have hbuiltins : FuncDef.builtins.filter (fun f => !f.builtin) = [] := by decide +kernel
  rw [filter_append, hbuiltins, nil_append]
  exact filter_eq_self.mpr fun d hd => by simp [h d hd]

/-! ### The functions of an accepted source -/

structure Function.Agreed (last : Token) (t : Table) (f : Function) (fn : Tree.Function) :
    Prop where
  /-- The definition is what the first pass reads from the header of this function. -/
  header : ∀ rest, (HeaderReader.header last).run (f.tokens ++ rest) =
    .ok (fn.definition, f.braces.tokens f.body.tokens ++ rest)
  place : fn.pos = f.pub.1.pos ∧ fn.definition.pos = f.name.1.pos
  name : fn.name = f.name.1.literal ∧ fn.definition.name = fn.name
  params : List.Forall₂ (fun r p => (t.var r).Fits p) fn.params fn.definition.params
  /-- The second pass passes over the tokens of the result type and nothing else. -/
  skipped : ∀ rest u noted, Parser.skipToBody
      ⟨f.result.tokens ++ (f.braces.tokens f.body.tokens ++ rest), u, noted⟩ =
    .ok () ⟨f.braces.tokens f.body.tokens ++ rest, u, noted⟩
  result : ∀ rest, (HeaderReader.resultType last).run (f.result.tokens ++ rest) =
    .ok ((fn.definition.result, fn.definition.nullableResult), rest)

theorem ParametersDepict.fits (h : ParametersDepict T n ps rs) :
    List.Forall₂ (fun r p => (T.var r).Fits p) rs (ps.toList.map Parameter.param) := by
  have fits {n : Nat} {p : Parameter} (hp : p.Declares T n) : (T.var n).Fits p.param :=
    ⟨hp.name, hp.type, hp.nullable⟩
  induction h with
  | nil => exact .nil
  | last hp => exact .cons (fits hp) .nil
  | cons hp hrest ih => exact .cons (fits hp) ih

theorem skipToBody_result (f : Function) (rest : List Token) (u : Table)
    (noted : Option Diagnostic) :
    Parser.skipToBody ⟨f.result.tokens ++ (f.braces.tokens f.body.tokens ++ rest), u, noted⟩ =
      .ok () ⟨f.braces.tokens f.body.tokens ++ rest, u, noted⟩ := by
  have hres : ∀ a ∈ f.result.tokens, a.kind ≠ .lbrace ∧ a.kind ≠ .eof := by
    intro a ha
    rcases f.result.token_kind a ha with h | h | h
    · simp [h]
    · simp [h]
    · constructor <;> intro hk <;> simp [hk, TokenKind.isDataType] at h
  exact reads_skipToBody hres f.braces.opening.1 _ ⟨u, noted⟩ f.braces.opening.2

theorem Function.Depicts.agreed {f : Function} (h : f.Depicts T n fn) : f.Agreed last T fn := by
  cases h with
  | mk hparams hbody =>
    exact {
      header := HeaderReader.header_tokens f
      place := ⟨rfl, rfl⟩
      name := ⟨rfl, rfl⟩
      params := hparams.fits
      skipped := skipToBody_result f
      result := HeaderReader.resultType_tokens f.result }

theorem order_collected {b : TokenBuffer} {p : Program} {behind : List Token}
    (hp : p.tokens ++ behind = b.items) (h : collectFunctions b t = .ok () u) :
    u.funcs.order = t.funcs.order ++ p.functions.map Function.signature := by
  rw [collectFunctions, ← hp, collectFrom_program] at h
  obtain ⟨_, v, hreg, hmain⟩ := bind_eq_ok h
  obtain rfl : v = u := by
    rcases checkMain_cases b.last v with hcase | ⟨d, hcase, -⟩ <;> rw [hcase] at hmain <;>
      cases hmain
    rfl
  exact (register_eq_ok hreg).2.1

theorem FunctionsDepict.agreed {fs : List Function} (h : FunctionsDepict T n fs fns) :
    List.Forall₂ (Function.Agreed last T) fs fns ∧
      fns.map (·.definition) = fs.map Function.signature := by
  induction h with
  | nil => exact ⟨.nil, rfl⟩
  | cons hf hrest ih =>
    refine ⟨.cons hf.agreed ih.1, ?_⟩
    rw [map_cons, map_cons, ih.2]
    cases hf
    rfl

/-! ### The functions that the second pass comes to -/

/-- The states in which the second pass looks for one more function, with the functions that
it has parsed before. -/
inductive Meets (last : Token) (s₀ : ParserState) : List Tree.Function → ParserState → Prop where
  | start : Meets last s₀ [] s₀
  | next {fns : List Tree.Function} {fn : Tree.Function} {s s' : ParserState} :
      Meets last s₀ fns s → (s.rest.headD last).kind = .kwPub →
      Parser.function last s = .ok fn s' → Meets last s₀ (fns ++ [fn]) s'

theorem Meets.cons {fns : List Tree.Function} {fn : Tree.Function} {s s' s'' : ParserState}
    (hpub : (s.rest.headD last).kind = .kwPub) (hfn : Parser.function last s = .ok fn s')
    (h : Meets last s' fns s'') : Meets last s (fn :: fns) s'' := by
  induction h with
  | start => exact .next .start hpub hfn
  | next _ hpub' hfn' ih => exact .next ih hpub' hfn'

theorem meets_of_functions (last : Token) (fuel : Nat) (s : ParserState) :
    match Parser.functions last fuel s with
    | .ok fns s' => Meets last s fns s' ∧ (s'.rest.headD last).kind ≠ .kwPub
    | .error d s' => d.cause = .parserStuck ∨ ∃ fns s₁, Meets last s fns s₁ ∧
        (s₁.rest.headD last).kind = .kwPub ∧ Parser.function last s₁ = .error d s' := by
  induction fuel generalizing s with
  | zero => exact .inl rfl
  | succ fuel ih =>
    have hpeek : Parser.functions last (fuel + 1) s =
        if (s.rest.headD last).kind = .kwPub then
          match Parser.function last s with
          | .error d s' => .error d s'
          | .ok fn s' =>
            match Parser.functions last fuel s' with
            | .error d s'' => .error d s''
            | .ok fns s'' => .ok (fn :: fns) s''
        else .ok [] s := by
      rw [Parser.functions, Parser.peek]
      simp only [bind_apply, get_apply, pure_apply]
      split
      · rw [bind_apply]
        cases Parser.function last s with
        | error d s' => rfl
        | ok fn s' =>
          simp only [bind_apply]
          cases Parser.functions last fuel s' <;> rfl
      · rfl
    rw [hpeek]
    by_cases hpub : (s.rest.headD last).kind = .kwPub
    · rw [if_pos hpub]
      cases hfn : Parser.function last s with
      | error d s' => exact .inr ⟨[], s, .start, hpub, hfn⟩
      | ok fn s' =>
        have hrest := ih s'
        dsimp only
        generalize Parser.functions last fuel s' = r at hrest
        cases r with
        | ok fns s'' => exact ⟨hrest.1.cons hpub hfn, hrest.2⟩
        | error d s'' =>
          refine hrest.imp_right ?_
          rintro ⟨fns, s₁, hmeets, hpub₁, herror⟩
          exact ⟨fn :: fns, s₁, hmeets.cons hpub hfn, hpub₁, herror⟩
    · rw [if_neg hpub]
      exact ⟨.start, hpub⟩

/-- The first pass was at the tokens that the second pass has left, and it had registered
the functions that the second pass has parsed. -/
structure InStep (known : Table) (last : Token) (ending : Ending) (fns : List Tree.Function)
    (s : ParserState) : Prop where
  collected : ∃ front t, s.rest = front ++ ending.tokens ∧
    collectFrom last 0 0 (front ++ ending.tokens) t = .ok () known ∧
    t.funcs.order = FuncDef.builtins ++ fns.map (·.definition)
  inside : Inside known 0 s.table s.unused
  own : ∀ fn ∈ fns, fn.definition.builtin = false

/-- The second pass is at the function that the first pass has registered as `f`, behind those
of `fns`. -/
structure Arrives (known : Table) (last : Token) (fns : List Tree.Function)
    (s : ParserState) (f : FuncDef) : Prop where
  /-- The first pass has read `f` at the same tokens. -/
  read : ∃ after, (HeaderReader.header last).run s.rest = .ok (f, after)
  heading : ∃ (h : Heading) (left : List Token), s.rest = h.before left ∧ h.Heads f
  found : s.table.lookupFunction? f.name = some f
  order : fns.map (·.definition) ++ [f] <+: known.userFunctions
  parsed : ∀ fn s', Parser.function last s = .ok fn s' → fn.definition = f
  failed : ∀ d s', Parser.function last s = .error d s' → d.Registered

theorem definition_of_functionRest
     (h : functionRest last pos name f s = .ok fn s') : fn.definition = f := by
  obtain ⟨_, s₁, -, h⟩ := bind_eq_ok h
  obtain ⟨_, s₂, -, h⟩ := bind_eq_ok h
  obtain ⟨_, s₃, -, h⟩ := bind_eq_ok h
  obtain ⟨_, s₄, -, h⟩ := bind_eq_ok h
  obtain ⟨_, s₅, -, h⟩ := bind_eq_ok h
  obtain ⟨_, s₆, -, h⟩ := bind_eq_ok h
  obtain ⟨_, s₇, -, h⟩ := bind_eq_ok h
  obtain ⟨_, s₈, -, h⟩ := bind_eq_ok h
  cases h
  rfl

namespace InStep

variable {fns : List Tree.Function} {s : ParserState}

theorem ends_function (hlast : last.kind = .eof) (h : InStep known last ending fns s)
    (hpub : (s.rest.headD last).kind = .kwPub) :
    Ends (fun _ s' => Inside known 0 s'.table s'.unused ∧
      ∃ left, s'.rest = left ++ ending.tokens ∧ ∃ f : Skimmed, s.rest = f.tokens ++ s'.rest)
      (Parser.function last s) := by
  obtain ⟨front, t, hrest, hcoll, -⟩ := h.collected
  obtain ⟨rest, table, noted⟩ := s
  obtain rfl : rest = front ++ ending.tokens := hrest
  rw [Ending.headD_append] at hpub
  obtain ⟨head, left, f, rfl, hheads, hlook, -⟩ := exists_heading hlast hcoll hpub
  refine (proper_function hlook hheads.params left table noted h.inside).mono ?_
  rintro _ s' ⟨hins, left', hleft, f, hf⟩
  exact ⟨hins, left', hleft, f, by rw [hf, hleft, append_assoc]⟩

/-- At a function, both passes read one header. -/
theorem arrives (hlast : last.kind = .eof) (h : InStep known last ending fns s)
    (hpub : (s.rest.headD last).kind = .kwPub) : ∃ f, Arrives known last fns s f := by
  have hends := h.ends_function hlast hpub
  obtain ⟨front, t, hrest, hcoll, horder⟩ := h.collected
  obtain ⟨rest, table, noted⟩ := s
  obtain rfl : rest = front ++ ending.tokens := hrest
  rw [Ending.headD_append] at hpub
  obtain ⟨head, left, f, rfl, hheads, hlook, hread, hprefix⟩ :=
    exists_heading hlast hcoll hpub
  have hfound := (h.inside.lookup head.name.1.literal).trans hlook
  have hbef : head.before left ++ ending.tokens = head.before (left ++ ending.tokens) := by
    simp [Heading.before]
  refine ⟨f, hread, ⟨head, _, hbef, hheads⟩, hheads.name ▸ hfound, ?_, ?_, ?_⟩
  · have hown : ∀ d ∈ fns.map (·.definition) ++ [f], d.builtin = false := by
      intro d hd
      rcases mem_append.mp hd with hd | hd
      · obtain ⟨fn, hfn, rfl⟩ := mem_map.mp hd
        exact h.own fn hfn
      · exact mem_singleton.mp hd ▸ hheads.own
    rw [horder, append_assoc] at hprefix
    have hfilter := hprefix.filter fun f => !f.builtin
    rwa [filter_builtins hown] at hfilter
  · intro fn s' hparse
    rw [hbef, function_before _ _ hfound] at hparse
    exact definition_of_functionRest hparse
  · intro d s' herror
    rw [herror] at hends
    cases hends with
    | error hd => exact hd.registered

/-- Behind a function that both passes have read, they are in step again. -/
theorem next (hlast : last.kind = .eof) (h : InStep known last ending fns s)
    (hpub : (s.rest.headD last).kind = .kwPub) {fn : Tree.Function} {s' : ParserState}
    (hparse : Parser.function last s = .ok fn s') :
    InStep known last ending (fns ++ [fn]) s' := by
  obtain ⟨hins, left, hleft, skimmed, hskimmed⟩ := (h.ends_function hlast hpub).result hparse
  obtain ⟨f, harrives⟩ := h.arrives hlast hpub
  obtain rfl : fn.definition = f := harrives.parsed fn s' hparse
  obtain ⟨front, t, hrest, hcoll, horder⟩ := h.collected
  obtain ⟨rest, table, noted⟩ := s
  obtain rfl : rest = front ++ ending.tokens := hrest
  dsimp only at hskimmed
  rw [hskimmed, hleft] at hcoll
  obtain ⟨g, hg⟩ := exists_function hlast skimmed hcoll
  rw [← hg, collectFrom_function] at hcoll
  obtain ⟨_, u, hadd, hcoll⟩ := bind_eq_ok hcoll
  have hsignature : fn.definition = g.signature := by
    obtain ⟨after, hread⟩ := harrives.read
    have hhead : (HeaderReader.header last).run (g.tokens ++ (left ++ ending.tokens)) = _ :=
      HeaderReader.header_tokens g _
    rw [hg, ← hleft, ← hskimmed, hread, Except.ok.injEq, Prod.mk.injEq] at hhead
    exact hhead.1
  refine ⟨⟨left, u, hleft, hcoll, ?_⟩, hins, ?_⟩
  · rw [(Table.addFunction_eq_ok hadd).2.2.1, horder, map_append, ← append_assoc]
    simp [hsignature]
  · intro x hx
    rcases mem_append.mp hx with hx | hx
    · exact h.own x hx
    · rw [mem_singleton.mp hx, hsignature]
      rfl

end InStep

theorem Meets.inStep (hlast : last.kind = .eof)
    (h : Meets last s₀ fns s) (h₀ : InStep known last ending [] s₀) :
    InStep known last ending fns s := by
  induction h with
  | start => exact h₀
  | next _ hpub hparse ih => exact ih.next hlast hpub hparse

theorem inside_collected (hlast : last.kind = .eof)
     (h : collectFrom last 0 0 ts (.fresh hash strict) = .ok () known) :
    Inside known 0 known none := inside_of_collect hlast rfl h

theorem inStep_of_prolog (hlast : last.kind = .eof)
    (hcoll : collectFrom last 0 0 (front ++ ending.tokens) (.fresh hash strict) =
      .ok () known)
    (h : Parser.prolog last ⟨front ++ ending.tokens, known, none⟩ = .ok path s₀) :
    InStep known last ending [] s₀ := by
  have hins := inside_collected hlast hcoll
  obtain ⟨hafter, left, hleft, prolog, rfl⟩ := (proper_prolog known none hins).result h
  rw [append_assoc, collectFrom_inert (inert_prolog prolog)] at hcoll
  exact ⟨⟨left, _, hleft, hcoll, rfl⟩, hafter, fun fn hfn => by cases hfn⟩

/-- The passes agree on functions. In an accepted source, the functions of the tree are those
that the first pass has registered, in their order, and each has the definition, the
parameters and the result type of its own header. Whenever the first pass succeeds, the second
pass finds every function that it comes to, even if it fails later: it is at the header that
was registered next, with as many parameters as it will read. -/
theorem parse_agrees_on_functions (tokens : List Token) (hash : NameHash) (strict : Bool) :
    let b := TokenBuffer.ofTokens tokens
    let fresh := Table.fresh hash strict
    (∀ parsed t, parse b fresh = .ok parsed t →
      ∃ (u : Table) (p : Program) (behind : List Token),
        collectFunctions b fresh = .ok () u ∧ p.tokens ++ behind = b.items ∧
        u.userFunctions = parsed.program.functions.map (·.definition) ∧
        (u.userFunctions.map (·.name)).Nodup ∧
        List.Forall₂ (Function.Agreed b.last t) p.functions parsed.program.functions) ∧
    ∀ u, collectFunctions b fresh = .ok () u →
      (∀ d s, Parser.program b.last ⟨b.items, u, none⟩ = .error d s → d.Registered) ∧
      ∀ path s₀, Parser.prolog b.last ⟨b.items, u, none⟩ = .ok path s₀ →
        (∀ fuel, match Parser.functions b.last fuel s₀ with
          | .ok fns s => Meets b.last s₀ fns s ∧ (s.rest.headD b.last).kind ≠ .kwPub
          | .error d s => d.cause = .parserStuck ∨ ∃ fns s₁, Meets b.last s₀ fns s₁ ∧
              (s₁.rest.headD b.last).kind = .kwPub ∧ Parser.function b.last s₁ = .error d s) ∧
        ∀ fns s, Meets b.last s₀ fns s → (s.rest.headD b.last).kind = .kwPub →
          ∃ f, Arrives u b.last fns s f := by
  intro b fresh
  have hlast : b.last.kind = .eof := TokenBuffer.last_ofTokens tokens
  obtain ⟨front, ending, -, hitems⟩ := exists_ending hlast
  constructor
  · intro parsed t hparse
    obtain ⟨p, behind, hp, hacc⟩ := exists_accepted_tokens hlast hparse
    rw [parse] at hparse
    obtain ⟨_, u, hcoll, -⟩ := bind_eq_ok hparse
    obtain ⟨hagreed, hdefs⟩ :
        List.Forall₂ (Function.Agreed b.last t) p.functions parsed.program.functions ∧ _ :=
      hacc.depicts.functions.agreed
    have huser : u.userFunctions = p.functions.map Function.signature := by
      rw [Table.userFunctions, order_collected hp hcoll]
      refine filter_builtins ?_
      intro d hd
      obtain ⟨f, -, rfl⟩ := mem_map.mp hd
      rfl
    refine ⟨u, p, behind, hcoll, hp, huser.trans hdefs.symm, ?_, hagreed⟩
    rw [huser, map_map]
    exact hacc.names
  · intro u hcoll
    rw [collectFunctions, hitems] at hcoll
    rw [hitems]
    constructor
    · intro d s herror
      have hproper := proper_program hlast hcoll u none (inside_collected hlast hcoll)
      rw [herror] at hproper
      cases hproper with
      | error hd => exact hd.registered
    · intro path s₀ hprolog
      refine ⟨fun fuel => meets_of_functions b.last fuel s₀, ?_⟩
      intro fns s hmeets hpub
      exact (hmeets.inStep hlast (inStep_of_prolog hlast hcoll hprolog)).arrives hlast hpub

/-- `pub fn keep(n: ?i32) void { }` before another `main`. -/
def Program.keeping : Program :=
  .ofFunctions [{ Function.simple "keep" .done with
    params := .last ⟨lexeme .name "n", lexeme .colon ":",
      ⟨some (lexeme .question "?"), (lexeme .kwI32 "i32").1, .i32, rfl⟩⟩ }, .simple "main" .echo]

theorem parse_agrees_on_functions_keeping :
    let b := TokenBuffer.ofTokens Program.keeping.tokens
    let fresh := Table.fresh (fun _ => 0) true
    ∃ (parsed : Parsed) (t u : Table) (p : Program) (path : Bytes) (s₀ : ParserState) (f : FuncDef),
      parse b fresh = .ok parsed t ∧ collectFunctions b fresh = .ok () u ∧
      u.userFunctions = parsed.program.functions.map (·.definition) ∧
      List.Forall₂ (Function.Agreed b.last t) p.functions parsed.program.functions ∧
      Parser.prolog b.last ⟨b.items, u, none⟩ = .ok path s₀ ∧ Arrives u b.last [] s₀ f := by
  intro b fresh
  obtain ⟨hacc, hcollected⟩ :=
    parse_agrees_on_functions Program.keeping.tokens (fun _ => 0) true
  obtain ⟨parsed, t, hparse, -⟩ : ∃ parsed t, parse b fresh = .ok parsed t ∧ True := by
    decide +kernel
  obtain ⟨u, p, behind, hcoll, -, huser, -, hagreed⟩ := hacc parsed t hparse
  have hprolog : Parser.prolog b.last ⟨b.items, u, none⟩ =
      .ok Cause.importPath ⟨b.items.drop 9, u, none⟩ := rfl
  obtain ⟨f, harrives⟩ := ((hcollected u hcoll).2 _ _ hprolog).2 [] _ .start rfl
  exact ⟨parsed, t, u, p, _, _, f, hparse, hcoll, huser, hagreed, hprolog, harrives⟩

end Grammar

end Ifj24
