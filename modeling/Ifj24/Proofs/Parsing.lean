import Ifj24.Proofs.SecondPass

/-!
Parsing follows the grammar. A token sequence that is accepted is derivable, and the
tree of a program is the one that its derivation resolves to. On a derivable sequence
parsing can fail only for what names mean: a function or a variable that is unknown or
declared twice, or a `main` that does not fit.
-/

open List

namespace Ifj24

namespace TokenBuffer

theorem last_ofTokens (tokens : List Token) : (ofTokens tokens).last.kind = .eof := by
  unfold ofTokens
  split
  · split
    · assumption
    · rfl
  · rfl

theorem mem_of_mem_items (h : a ∈ (ofTokens ts).items) :
    a ∈ ts ∨ a.kind = .eof := by
  unfold ofTokens items at h
  split at h
  · rename_i t ht
    split at h
    · rcases mem_append.mp h with ha | ha
      · exact .inl (dropLast_subset ts ha)
      · rw [mem_singleton.mp ha]
        exact .inl (mem_of_getLast? ht)
    · rcases mem_append.mp h with ha | ha
      · exact .inl ha
      · rw [mem_singleton.mp ha]
        exact .inr rfl
  · rw [mem_singleton.mp h]
    exact .inr rfl

end TokenBuffer

namespace Grammar

open Ifj24.Tree

variable {strict : Bool} {hash : NameHash} {parsed : Parsed} {p : Program} {u : Table}

def Program.resolution (p : Program) : EStateM Diagnostic Table Parsed := fun t =>
  match p.resolve ⟨t, none⟩ with
  | .ok program s => .ok ⟨program, s.unused⟩ s.table
  | .error d s => .error d s.table

open Program

variable {t : Table}

/-- On a derivable token sequence both passes do what the derivation says. -/
theorem parse_tokens (hp : p.tokens ++ behind = b.items) (ht : Shows t [] 1) :
    parse b t = (do
      register (p.functions.map Function.signature)
      checkMain b.last
      p.resolution) t := by
  have hcoll : collectFunctions b = (do
      register (p.functions.map Function.signature)
      checkMain b.last) := by
    rw [collectFunctions, ← hp, collectFrom_program]
  rw [parse, hcoll, bind_apply, bind_apply, bind_apply]
  cases hreg : register (p.functions.map Function.signature) t with
  | error d u => rfl
  | ok _ u =>
    obtain ⟨hu, -, -, -, hlookups, -⟩ := register_eq_ok hreg
    have hshows : Shows u [] 1 := by
      rw [hu]
      exact ht.withFuncs _
    have hfs : ∀ f ∈ p.functions, u.lookupFunction? f.name.1.literal = some f.signature :=
      fun f hf => (hlookups f.signature (mem_map_of_mem hf)).2
    have hreads : Agrees p.resolve ⟨u, none⟩ (Parser.program b.last ⟨p.tokens ++ behind, u, none⟩)
        (p.eof.1 :: behind) := reads_program p behind ⟨u, none⟩ hshows hfs
    dsimp only
    rw [bind_apply]
    rcases checkMain_cases b.last u with hmain | ⟨d, hmain, -⟩
    · rw [hmain]
      dsimp only
      rw [bind_apply, get_apply]
      dsimp only [EStateM.run]
      rw [← hp]
      unfold Agrees at hreads
      unfold resolution
      cases hresolve : p.resolve ⟨u, none⟩ with
      | error d s =>
        rw [hresolve] at hreads
        obtain ⟨other, hother⟩ := hreads
        rw [hother]
        rfl
      | ok program s =>
        rw [hresolve] at hreads
        rw [hreads]
        rfl
    · rw [hmain]

/-- What parsing knows of a program that it accepts: the functions are registered, and the
tree is the one that the derivation resolves to. -/
structure Program.Accepted (p : Program) (hash : NameHash) (strict : Bool) (parsed : Parsed)
    (u : Table) : Prop where
  order : u.funcs.order = FuncDef.builtins ++ p.functions.map Function.signature
  faithful : u.funcs.Faithful u.hash
  lookups : ∀ f ∈ p.functions, u.lookupFunction? f.name.1.literal = some f.signature
  names : (p.functions.map fun f => f.name.1.literal).Nodup
  resolve : p.resolve ⟨{ Table.fresh hash strict with funcs := u.funcs }, none⟩ =
    .ok parsed.program ⟨u, parsed.unused⟩
  later : { Table.fresh hash strict with funcs := u.funcs }.Later u
  consistent : u.Consistent
  size : u.store.size = 1 + countAll p.functions
  depicts : p.Depicts u parsed.program

theorem accepted_of_parse (hp : p.tokens ++ behind = b.items)
    (h : parse b (.fresh hash strict) = .ok parsed u) : p.Accepted hash strict parsed u := by
  rw [parse_tokens hp (shows_fresh hash strict)] at h
  obtain ⟨_, v, hreg, hmain⟩ := bind_eq_ok h
  obtain ⟨hv, horder, hfaith, -, hlookups, hnodup⟩ := register_eq_ok hreg
  obtain ⟨_, w, hmain, hresolution⟩ := bind_eq_ok hmain
  obtain rfl : w = v := by
    rcases checkMain_cases b.last v with hcase | ⟨d, hcase, -⟩
    · rw [hcase] at hmain
      cases hmain
      rfl
    · rw [hcase] at hmain
      cases hmain
  unfold resolution at hresolution
  cases hresolve : p.resolve ⟨w, none⟩ with
  | error d s =>
    rw [hresolve] at hresolution
    cases hresolution
  | ok program s =>
    rw [hresolve] at hresolution
    cases hresolution
    have hshows : Shows w [] 1 := by
      rw [hv]
      exact (shows_fresh hash strict).withFuncs _
    have hhash : w.hash = hash := by rw [hv]; rfl
    have hbinds := p.binds ⟨w, none⟩ hshows
    rw [hresolve] at hbinds
    obtain ⟨hlater, -, -, hlast, hres⟩ := hbinds
    have hfuncs : s.table.funcs = w.funcs := hlater.funcs
    constructor
    case order =>
      rw [hfuncs, horder]
      rfl
    case faithful =>
      rw [hfuncs, hlater.hash, hhash]
      exact hfaith (Registry.faithful_ofList hash FuncDef.builtins)
    case lookups =>
      intro f hf
      rw [hlater.lookupFunction?]
      exact (hlookups f.signature (mem_map_of_mem hf)).2
    case names =>
      rw [map_map] at hnodup
      exact hnodup
    case resolve => rw [hfuncs, ← hv, hresolve]
    case later =>
      rw [hfuncs, ← hv]
      exact hlater
    case consistent => exact hlast.consistent
    case size => exact hlast.size
    case depicts => exact (hres s.table (.refl _)).1

theorem exists_accepted_tokens
    (hlast : b.last.kind = .eof) (h : parse b (.fresh hash strict) = .ok parsed u) :
    ∃ (p : Program) (behind : List Token),
      p.tokens ++ behind = b.items ∧ p.Accepted hash strict parsed u := by
  obtain ⟨front, ending, hfront, hitems⟩ := exists_ending hlast
  obtain ⟨p, hp⟩ := exists_program_of_parse hlast hfront hitems h
  have hp' : p.tokens ++ ending.behind = b.items := by
    rw [hp, hitems, append_assoc]
    rfl
  exact ⟨p, ending.behind, hp', accepted_of_parse hp' h⟩

theorem exists_accepted
    (hlast : b.last.kind = .eof) (h : parse b (.fresh hash strict) = .ok parsed u) :
    ∃ p : Program, p.Accepted hash strict parsed u := by
  obtain ⟨p, -, -, hacc⟩ := exists_accepted_tokens hlast h
  exact ⟨p, hacc⟩

theorem parse_error_kind (hp : p.tokens ++ behind = b.items)
    (ht : Shows t [] 1) (h : parse b t = .error d u) :
    d.kind = .undefinedName ∨ d.kind = .redefinition ∨ d.kind = .badParameter := by
  rw [parse_tokens hp ht, bind_apply] at h
  cases hreg : register (p.functions.map Function.signature) t with
  | error d' v =>
    rw [hreg] at h
    cases h
    exact .inr (.inl (register_error_kind hreg))
  | ok _ v =>
    obtain ⟨hv, -⟩ := register_eq_ok hreg
    rw [hreg] at h
    dsimp only at h
    rw [bind_apply] at h
    rcases checkMain_cases b.last v with hmain | ⟨d', hmain, hkind⟩
    · rw [hmain] at h
      dsimp only [resolution] at h
      have hshows : Shows v [] 1 := by
        rw [hv]
        exact ht.withFuncs _
      have hbinds := p.binds ⟨v, none⟩ hshows
      cases hresolve : p.resolve ⟨v, none⟩ with
      | ok program s =>
        rw [hresolve] at h
        cases h
      | error d' s =>
        rw [hresolve] at h hbinds
        cases h
        rcases hbinds with ⟨hkind, -⟩ | ⟨hkind, -⟩
        · exact .inl hkind
        · exact .inr (.inl hkind)
    · rw [hmain] at h
      cases h
      rcases hkind with hkind | hkind
      · exact .inl hkind
      · exact .inr (.inr hkind)

/-- Parsing follows the grammar: what is accepted is derivable, with the tree of the
derivation, and what is derivable does not fail for its syntax. -/
theorem parse_follows_grammar (b : TokenBuffer) (hash : NameHash) (strict : Bool)
    (hlast : b.last.kind = .eof) (hfront : ∀ a ∈ b.front, a.kind ≠ .eof) :
    (∀ parsed t, parse b (.fresh hash strict) = .ok parsed t →
      (∃ p : Program, p.tokens = b.items) ∧
      ∀ p : Program, p.tokens = b.items →
        p.Depicts t parsed.program ∧
        t.funcs.order = FuncDef.builtins ++ p.functions.map Function.signature ∧
        p.resolve ⟨{ Table.fresh hash strict with funcs := t.funcs }, none⟩ =
          .ok parsed.program ⟨t, parsed.unused⟩) ∧
    ∀ p : Program, p.tokens = b.items → ∀ d t, parse b (.fresh hash strict) = .error d t →
      d.kind ≠ .grammar ∧ d.kind ≠ .internal := by
  refine ⟨?_, ?_⟩
  · intro parsed t hparse
    have hitems : b.items = b.front ++ Ending.tokens ⟨⟨b.last, hlast⟩, []⟩ := rfl
    refine ⟨exists_program_of_parse hlast hfront hitems hparse, fun p hp => ?_⟩
    rw [← append_nil p.tokens] at hp
    have hacc := accepted_of_parse hp hparse
    exact ⟨hacc.depicts, hacc.order, hacc.resolve⟩
  · intro p hp d t hparse
    rw [← append_nil p.tokens] at hp
    have hkind := parse_error_kind hp (shows_fresh hash strict) hparse
    rcases hkind with hkind | hkind | hkind <;> simp [hkind]

section

def lexeme (kind : TokenKind) (text : String) : Lexeme kind := ⟨⟨kind, .ofString text, .none⟩, rfl⟩

/-- `const ifj = @import("ifj24.zig");` -/
def Prolog.sample : Prolog where
  const := lexeme .kwConst "const"
  ifj := lexeme .kwIfj "ifj"
  eq := lexeme .assign "="
  at_ := lexeme .at "@"
  import_ := lexeme .kwImport "import"
  opening := lexeme .lparen "("
  path := ⟨⟨.string, Cause.importPath, .none⟩, rfl⟩
  isPath := rfl
  closing := lexeme .rparen ")"
  semi := lexeme .semi ";"

/-- `ifj.name(args)` -/
def Call.ofBuiltin (name : String) (args : Listed Term) : Call :=
  ⟨.builtin (lexeme .kwIfj "ifj") (lexeme .dot ".") (lexeme .name name), lexeme .lparen "(", args,
    lexeme .rparen ")"⟩

def Braces.sample : Braces := ⟨lexeme .lbrace "\x7b", lexeme .rbrace "\x7d"⟩

/-- `const name: mark = value;` -/
def Plain.const (name : String) (mark : Option TypeMark) (value : Rhs) : Plain :=
  .declare ⟨(lexeme .kwConst "const").1, .inl rfl⟩ (lexeme .name name) mark (lexeme .assign "=")
    value (lexeme .semi ";")

/-- `const name = ifj.readi32();` -/
def Plain.reading (name : String) : Plain := .const name none (.call (.ofBuiltin "readi32" .nil))

def Rhs.null : Rhs := .arithmetic ⟨.operand (lexeme .kwNull "null").1 rfl, trivial⟩

/-- `(x) |name|` -/
def Guard.binding (name : String) : Guard :=
  .unwrap (lexeme .lparen "(") (lexeme .name "x") (lexeme .rparen ")") (lexeme .pipe "|")
    (lexeme .name name) (lexeme .pipe "|")

/-- `ifj.write(name,);` -/
def Body.writing (name : String) : Body :=
  .plain (.call (.ofBuiltin "write" (.cons ⟨(lexeme .name name).1, rfl⟩ (lexeme .comma ",") .nil))
    (lexeme .semi ";")) .done

/-- `const x = ifj.readi32(); if (x) |y| { ifj.write(y,); }` -/
def Body.echo : Body :=
  .plain (.reading "x") (.branch (lexeme .kwIf "if") (.binding "y") .sample (.writing "y") .done)

/-- `pub fn name() void { body }` -/
def Function.simple (name : String) (body : Body) : Function where
  pub := lexeme .kwPub "pub"
  fn := lexeme .kwFn "fn"
  name := lexeme .name name
  opening := lexeme .lparen "("
  params := .nil
  closing := lexeme .rparen ")"
  result := .void (lexeme .kwVoid "void")
  braces := .sample
  body := body

def Program.ofFunctions (functions : List Function) : Program where
  prolog := .sample
  functions := functions
  eof := lexeme .eof ""

def Program.sample : Program := .ofFunctions [.simple "main" .echo]

def Program.buffer (p : Program) : TokenBuffer :=
  ⟨p.prolog.tokens ++ p.functions.flatMap Function.tokens, p.eof.1⟩

end

theorem parse_sample :
    ∃ parsed t, parse sample.buffer (.fresh (fun _ => 0) false) = .ok parsed t ∧
      sample.Depicts t parsed.program := by
  obtain ⟨parsed, t, hparse, -⟩ : ∃ parsed t,
      parse sample.buffer (.fresh (fun _ => 0) false) = .ok parsed t ∧ True := by
    decide +kernel
  have hgrammar := parse_follows_grammar sample.buffer (fun _ => 0) false rfl (by decide)
  exact ⟨parsed, t, hparse, ((hgrammar.1 parsed t hparse).2 sample rfl).1⟩

end Grammar

end Ifj24
