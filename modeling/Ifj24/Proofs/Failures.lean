import Ifj24.Proofs.Headers

/-!
Whose fault a failure is. Reading headers, building expressions and running the precedence
automaton fail only for reasons that lie in the program: the states in which they would
blame the compiler are never reached.
-/

namespace Ifj24

/-- A failure that lies in the program and not in the compiler. -/
structure Diagnostic.Ordinary (d : Diagnostic) : Prop where
  beq : (d.kind == .internal) = false

namespace Diagnostic.Ordinary

variable {d : Diagnostic}

theorem ne (h : d.Ordinary) : d.kind ≠ .internal := beq_eq_false_iff_ne.mp h.beq

theorem of_kind (h : d.kind = k) (hk : k ≠ .internal) : d.Ordinary :=
  ⟨beq_eq_false_iff_ne.mpr (h ▸ hk)⟩

end Diagnostic.Ordinary

/-- A computation that either fails for such a reason or has a result with a property. -/
inductive Yields {α : Type} (P : α → Prop) : Except Diagnostic α → Prop where
  | ok {a : α} (h : P a) : Yields P (.ok a)
  | error {d : Diagnostic} (h : d.Ordinary) : Yields P (.error d)

namespace Yields

variable {α β : Type} {P : α → Prop} {Q : β → Prop}

theorem mono {R : α → Prop} (hx : Yields P x) (h : ∀ a, P a → R a) : Yields R x := by
  cases hx with
  | ok ha => exact .ok (h _ ha)
  | error hd => exact .error hd

theorem bind {f : α → Except Diagnostic β} (hx : Yields P x) (hf : ∀ a, P a → Yields Q (f a)) :
    Yields Q (x >>= f) := by
  cases hx with
  | ok ha => exact hf _ ha
  | error hd => exact .error hd

theorem ordinary {d : Diagnostic} (hx : Yields P x) (h : x = .error d) : d.Ordinary := by
  subst h
  cases hx with
  | error hd => exact hd

theorem result {a : α} (hx : Yields P x) (h : x = .ok a) : P a := by
  subst h
  cases hx with
  | ok ha => exact ha

end Yields

inductive Ends {σ α : Type} (Q : α → σ → Prop) : EStateM.Result Diagnostic σ α → Prop where
  | ok {a : α} {s : σ} (h : Q a s) : Ends Q (.ok a s)
  | error {d : Diagnostic} {s : σ} (h : d.Ordinary) : Ends Q (.error d s)

namespace Ends

variable {σ α β : Type} {P R : α → σ → Prop} {Q : β → σ → Prop}

theorem mono (hr : Ends P r) (h : ∀ a s, P a s → R a s) : Ends R r := by
  cases hr with
  | ok ha => exact .ok (h _ _ ha)
  | error hd => exact .error hd

theorem bind {m : EStateM Diagnostic σ α} {f : α → EStateM Diagnostic σ β}
    (hm : Ends P (m s)) (hf : ∀ a s', P a s' → Ends Q (f a s')) : Ends Q ((m >>= f) s) := by
  rw [bind_apply]
  generalize m s = r at hm
  cases hm with
  | ok ha => exact hf _ _ ha
  | error hd => exact .error hd

theorem result {a : α} (hr : Ends P r) (h : r = .ok a s) : P a s := by
  subst h
  cases hr with
  | ok ha => exact ha

end Ends

variable {rest : List Token}

namespace Tree

namespace Builder

theorem finish_yields (b : Builder) : Yields (fun c => c.finished = true) b.finish.toExcept := by
  unfold finish
  split
  · rename_i hfinished
    exact .ok hfinished
  dsimp only
  split
  · exact .error ⟨rfl⟩
  · split
    · exact .error ⟨rfl⟩
    · exact .ok rfl

theorem addTerm_open {b : Builder} (h : b.finished = false) {x : Expr}
    (hx : (∃ v, x = .value v) ∨ ∃ v, x = .variable v) :
    Yields (fun c => c.finished = false) (b.addTerm x).toExcept := by
  rcases hx with ⟨v, rfl⟩ | ⟨v, rfl⟩
  · rw [addTerm, if_neg (by simp [h])]
    exact .ok h
  · rw [addTerm, if_neg (by simp [h])]
    exact .ok h

theorem addOperator_open {b : Builder} (h : b.finished = false)
    (ho : o.op = .lparen ∨ o.op = .rparen ∨ o.op.isArith = true) :
    Yields (fun c => c.finished = false) (b.addOperator o).toExcept := by
  unfold addOperator
  rw [if_neg (by simp [h])]
  split
  · exact .ok h
  split
  · dsimp only
    split
    · exact .ok h
    · exact .error ⟨rfl⟩
  · rename_i hopen hclose
    rw [if_pos ((ho.resolve_left hopen).resolve_left hclose)]
    exact .ok h

end Builder

namespace Analyzer

open PrecedenceAction StackItem

variable {d : Diagnostic}

theorem kind_of_classify {truth : Bool} {depth : Nat} {a : Token}
    (h : classify truth depth a = .error d) : d.kind = .grammar := by
  unfold classify at h
  split at h
  case h_6 => split at h <;> cases h
  case h_12 =>
    split at h <;> cases h
    rfl
  case h_13 =>
    split at h
    · split at h <;> cases h
      rfl
    · cases h
      rfl
  all_goals cases h

theorem kind_of_look {a : Analyzer} (h : a.look = .error d) : d.kind = .grammar := by
  unfold look at h
  split at h
  · cases h
    rfl
  · rename_i token rest hp
    cases hclass : classify a.truth a.depth token with
    | ok pair => simp [hclass, Except.map] at h
    | error e =>
      simp only [hclass, Except.map, Except.error.injEq] at h
      exact h ▸ kind_of_classify hclass

theorem exists_active {stack : List StackItem} {ts : List Token} (h : Spells stack ts) :
    ∃ top, active? stack = some top := by
  induction h with
  | bottom => exact ⟨.stop, rfl⟩
  | terminal h hc ih => exact ⟨_, rfl⟩
  | marker h ih => exact ih
  | expr h hs ih => exact ih
  | relation h hs ih => exact ih

theorem leaf_yields {a : Token} (h : a.kind.isOperand = true) (t : Table) :
    Yields (fun pair => (∃ v, pair.1 = .value v) ∨ ∃ v, pair.1 = .variable v) (leaf t a) := by
  unfold leaf
  cases hk : a.kind <;> simp [hk, TokenKind.isOperand] at h
  case name =>
    cases t.find? a.literal with
    | none => exact .error ⟨rfl⟩
    | some pair => exact .ok (.inr ⟨_, rfl⟩)
  all_goals exact .ok (.inl ⟨_, rfl⟩)

theorem feed_open {a : Analyzer} (hp : a.pending = token :: rest)
    (hcovers : Covers a.cls token) (hopen : a.builder.finished = false) :
    Yields (fun fed => fed.builder.finished = false) a.feed := by
  have hinput : a.input = token := by simp [input, hp]
  unfold feed
  rw [hinput]
  split
  · rename_i hcls
    rw [hcls] at hcovers
    refine (leaf_yields hcovers a.table).bind ?_
    rintro ⟨x, u⟩ hx
    exact (Builder.addTerm_open hopen hx).bind fun builder hbuild => .ok hbuild
  · split
    · exact .error ⟨rfl⟩
    · exact (Builder.finish_yields _).bind fun builder _ => .ok rfl
  · rename_i hoperand hrel
    have hop : token.kind = .lparen ∨ token.kind = .rparen ∨ token.kind.isArith = true := by
      cases hcls : a.cls <;> rw [hcls] at hcovers
      case addSub => exact .inr (.inr hcovers)
      case mulDiv => exact .inr (.inr hcovers)
      case lparen => exact .inl hcovers
      case rparen => exact .inr (.inl hcovers)
      case operand => exact absurd hcls hoperand
      case rel => exact absurd hcls hrel
      case stop => exact absurd hcovers id
    exact (Builder.addOperator_open hopen hop).bind
      fun builder hbuild => .ok hbuild

/-- The automaton between two steps, with a builder that takes terms and operators. -/
structure Building (truth : Bool) (names : Table) (input : List Token) (a : Analyzer) : Prop
    extends Reading truth names input a where
  unfinished : a.builder.finished = false

namespace Building

variable {truth : Bool} {names : Table} {input : List Token} {a : Analyzer}

section

variable (h : Building truth names input a)

include h

theorem covers (hc : a.cls ≠ .stop) (hp : a.pending = token :: rest) : Covers a.cls token := by
  obtain ⟨first, more, depth, hfirst, hlooked⟩ := h.looked
  obtain ⟨rfl, rfl⟩ : first = token ∧ more = rest := by simpa [hfirst] using hp
  exact covers_of_classify hlooked hc

theorem next (hstep : a.step = .next b) : Building truth names input b := by
  refine ⟨h.toReading.next hstep, ?_⟩
  cases steps_of_step hstep with
  | reduce hreduce => exact h.unfinished
  | @shift _ stack hstack hc hshift =>
    obtain _ | _ | _ | ⟨hp, hfeed, hlook⟩ := hshift
    obtain ⟨token', rest', c, depth, hp', hclass, rfl⟩ := look_ok hlook
    have hfed := (feed_open (a := { a with stack }) hp (h.covers hc hp) h.unfinished).result hfeed
    exact hfed

theorem ordinary_of_step (hstep : a.step = .failed d b) : d.Ordinary := by
  cases steps_of_step hstep with
  | blocked hactive =>
    obtain ⟨ts, hspell, -⟩ := h.spells
    obtain ⟨top, hsome⟩ := exists_active hspell
    cases hactive.symm.trans hsome
  | @shift _ stack hstack hc hshift =>
    cases hshift with
    | exhausted => exact ⟨rfl⟩
    | refused hp hfeed =>
      exact (feed_open (a := { a with stack }) hp (h.covers hc hp) h.unfinished).ordinary hfeed
    | lost hlook => exact .of_kind (kind_of_look hlook) (by decide)
  | malformed => exact ⟨rfl⟩
  | reject haccept => exact .of_kind (kind_of_accept haccept) (by decide)
  | disordered => exact ⟨rfl⟩

/-- A run that fails does so for a reason that lies in the program. -/
theorem run_yields : Yields (fun _ => True) a.run.1 := by
  fun_induction run a with
  | case1 a final hstep => exact .ok trivial
  | case2 a d final hstep => exact .error (h.ordinary_of_step hstep)
  | case3 a next hstep ih => exact ih (h.next hstep)

end

end Building

theorem runFromStart_yields (truth : Bool) (pending : List Token) (last : Token) (table : Table) :
    Yields (fun _ => True) (start truth pending last table).runFromStart.1 := by
  unfold runFromStart
  split
  · rename_i d hlook
    exact .error (.of_kind (kind_of_look hlook) (by decide))
  · rename_i ready hlook
    refine Building.run_yields ⟨Reading.start hlook, ?_⟩
    obtain ⟨-, -, -, -, -, -, rfl⟩ := look_ok hlook
    rfl

end Analyzer

theorem analyzeExpression_yields (pending : List Token) (last : Token) (t : Table) :
    Yields (fun _ => True) (analyzeExpression pending last t).result := by
  refine (Analyzer.runFromStart_yields false pending last t).bind fun _ _ => ?_
  exact (Builder.finish_yields _).bind fun _ _ => .ok trivial

theorem analyzeCondition_yields (pending : List Token) (last : Token) (t : Table) :
    Yields (fun _ => True) (analyzeCondition pending last t).result := by
  refine (Analyzer.runFromStart_yields true pending last t).bind fun _ _ => ?_
  split
  · exact (Builder.finish_yields _).bind fun _ _ => .ok trivial
  · exact .error ⟨rfl⟩

end Tree

namespace Grammar

open Ifj24.Tree

variable {last : Token}

/-- A definition of the name and the parameters that stand in a heading. -/
structure Heading.Heads (h : Heading) (definition : FuncDef) : Prop where
  name : definition.name = h.name.1.literal
  pos : definition.pos = h.name.1.pos
  params : definition.params = h.params.toList.map Parameter.param
  own : definition.builtin = false

namespace HeaderReader

open Tree.HeaderReader

variable {α β : Type}

/-- A reader of headers that fails for no other reason, and that leaves a result and tokens
with a property. -/
def Reads (m : HeaderReader α) (input : List Token) (P : α → List Token → Prop) : Prop :=
  Yields (fun pair => P pair.1 pair.2) (m.run input)

namespace Reads

variable {m : HeaderReader α} {f : α → HeaderReader β} {input : List Token}
  {P : α → List Token → Prop} {Q : β → List Token → Prop}

theorem pure {a : α} (h : P a input) : Reads (Pure.pure a) input P := .ok h

theorem throw {d : Diagnostic} (h : d.Ordinary) : Reads (MonadExcept.throw d) input P := .error h

theorem bind (h : Reads m input fun a rest => Reads (f a) rest Q) : Reads (m >>= f) input Q := by
  unfold Reads
  exact .bind h fun _ hpair => hpair

theorem mono {R : α → List Token → Prop} (h : Reads m input P)
    (hPR : ∀ a rest, P a rest → R a rest) : Reads m input R :=
  Yields.mono h fun pair hpair => hPR pair.1 pair.2 hpair

theorem peek {f : Token → HeaderReader β} (h : Reads (f (input.headD last)) input Q) :
    Reads (peek last >>= f) input Q := h

theorem advance {a : Token} {f : Unit → HeaderReader β} (h : Reads (f ()) rest Q) :
    Reads (advance >>= f) (a :: rest) Q := h

theorem want {f : Token → HeaderReader β} (hlast : last.kind = .eof) (hk : k ≠ .eof)
    (h : ∀ (a : Lexeme k) rest, input = a.1 :: rest → Reads (f a.1) rest Q) :
    Reads (want last k >>= f) input Q := by
  apply bind
  apply peek
  split
  · rename_i hkind
    cases input with
    | nil =>
      rw [List.headD_nil, hlast] at hkind
      exact absurd hkind.symm hk
    | cons a rest => exact advance (pure (h ⟨a, hkind⟩ rest rfl))
  · exact throw ⟨rfl⟩

end Reads

theorem reads_valueType (hlast : last.kind = .eof) (input : List Token) :
    Reads (valueType last) input fun x rest =>
      ∃ t : TypeName, input = t.tokens ++ rest ∧ x = (t.type, t.nullable) := by
  unfold Reads
  cases hrun : (valueType last).run input with
  | ok pair =>
    obtain ⟨x, rest⟩ := pair
    obtain ⟨t, rfl⟩ := valueType_eq_ok hlast hrun
    rw [valueType_tokens] at hrun
    cases hrun
    exact .ok ⟨t, rfl, rfl⟩
  | error d =>
    have hord : Reads (valueType last) input fun _ _ => True := by
      apply Reads.peek
      dsimp only
      split
      · apply Reads.bind
        refine .ok ?_
        apply Reads.peek
        split
        · exact .ok trivial
        · exact .error ⟨rfl⟩
      · apply Reads.peek
        split
        · exact .ok trivial
        · exact .error ⟨rfl⟩
    exact .error (hord.ordinary hrun)

theorem reads_params (hlast : last.kind = .eof) (fuel : Nat) (input : List Token) :
    Reads (params last fuel) input fun ps rest =>
      ∃ l : Listed Parameter, input = l.tokens Parameter.tokens ++ rest ∧
        ps = l.toList.map Parameter.param := by
  induction fuel generalizing input with
  | zero => exact .pure ⟨.nil, rfl, rfl⟩
  | succ fuel ih =>
    apply Reads.peek
    split
    · exact .pure ⟨.nil, rfl, rfl⟩
    apply Reads.want hlast (by decide)
    rintro name _ rfl
    apply Reads.want hlast (by decide)
    rintro colon _ rfl
    apply Reads.bind
    apply (reads_valueType hlast _).mono
    rintro _ rest ⟨type, rfl, rfl⟩
    apply Reads.peek
    split
    · rename_i hcomma
      cases rest with
      | nil =>
        rw [List.headD_nil, hlast] at hcomma
        cases hcomma
      | cons comma rest =>
        apply Reads.advance
        apply Reads.bind
        apply (ih rest).mono
        rintro _ left ⟨more, rfl, rfl⟩
        exact .pure ⟨.cons ⟨name, colon, type⟩ ⟨comma, hcomma⟩ more,
          by simp [Listed.tokens, Parameter.tokens], rfl⟩
    · exact .pure ⟨.last ⟨name, colon, type⟩, rfl, rfl⟩

theorem reads_resultType (hlast : last.kind = .eof) (input : List Token) :
    Reads (resultType last) input fun _ _ => True := by
  apply Reads.peek
  split
  · exact .ok trivial
  · exact (reads_valueType hlast input).mono fun _ _ _ => trivial

theorem reads_header (hlast : last.kind = .eof) (input : List Token) :
    Reads (header last) input fun definition _ =>
      ∃ (h : Heading) (rest : List Token), input = h.before rest ∧ h.Heads definition := by
  apply Reads.want hlast (by decide)
  rintro pub _ rfl
  apply Reads.want hlast (by decide)
  rintro fn _ rfl
  apply Reads.want hlast (by decide)
  rintro name _ rfl
  apply Reads.want hlast (by decide)
  rintro opening input rfl
  apply Reads.bind
  refine .ok ?_
  apply Reads.bind
  apply (reads_params hlast _ input).mono
  rintro _ _ ⟨params, rfl, rfl⟩
  apply Reads.want hlast (by decide)
  rintro closing rest rfl
  apply Reads.bind
  apply (reads_resultType hlast rest).mono
  rintro ⟨result, nullable⟩ left -
  apply Reads.peek
  split
  · exact .pure
      ⟨⟨pub, fn, name, opening, params, closing⟩, rest, rfl, ⟨rfl, rfl, rfl, rfl⟩⟩
  · exact .throw ⟨rfl⟩

end HeaderReader

structure Grows (t u : Table) : Prop where
  rest : u = { t with funcs := u.funcs }
  kept : ∀ name d, t.lookupFunction? name = some d → u.lookupFunction? name = some d
  order : t.funcs.order <+: u.funcs.order

theorem Grows.refl (t : Table) : Grows t t := ⟨rfl, fun _ _ h => h, List.prefix_rfl⟩

theorem Grows.trans (h : Grows t u) (h' : Grows u v) : Grows t v :=
  ⟨by rw [h'.rest, h.rest], fun name d hd => h'.kept name d (h.kept name d hd),
    h.order.trans h'.order⟩

theorem ends_addFunction (definition : FuncDef) (t : Table) :
    Ends (fun _ u => Grows t u ∧ u.lookupFunction? definition.name = some definition)
      (t.addFunction definition) := by
  cases hadd : t.addFunction definition with
  | error d =>
    refine .error ?_
    exact .of_kind (Table.addFunction_eq_error hadd).1 (by decide)
  | ok _ u =>
    obtain ⟨hrest, hnone, horder, -, hself, hother⟩ := Table.addFunction_eq_ok hadd
    refine .ok ⟨⟨hrest, fun name d hd => ?_, horder ▸ List.prefix_append _ _⟩, hself⟩
    rw [hother name, hd]
    rintro rfl
    rw [hnone] at hd
    cases hd

theorem ends_atEnd (depth : Nat) (found : Token) (t : Table) :
    Ends (fun _ u => Grows t u) (collectFrom.atEnd last depth found t) := by
  unfold collectFrom.atEnd
  split
  · exact .error ⟨rfl⟩
  · rcases checkMain_cases last t with hmain | ⟨d, hmain, hkind⟩
    · rw [hmain]
      exact .ok (.refl t)
    · rw [hmain]
      refine .error ?_
      rcases hkind with hkind | hkind <;> exact .of_kind hkind (by decide)

/-- The first pass fails only for reasons that lie in the program, and it keeps the functions
that were registered before. -/
theorem ends_collectFrom (hlast : last.kind = .eof) (skip depth : Nat) (tokens : List Token)
    (t : Table) : Ends (fun _ u => Grows t u) (collectFrom last skip depth tokens t) := by
  fun_induction collectFrom last skip depth tokens generalizing t with
  | case1 skip depth => exact ends_atEnd depth last t
  | case2 depth skip token rest ih => exact ih t
  | case3 depth token rest hk => exact ends_atEnd depth token t
  | case4 depth token rest hk ih => exact ih t
  | case5 token rest hk => exact .error ⟨rfl⟩
  | case6 token rest hk depth ih => exact ih t
  | case7 depth token rest hk => exact .error ⟨rfl⟩
  | case8 depth token rest hk body hdepth ih =>
    have hhead := HeaderReader.reads_header hlast (token :: rest)
    dsimp only [body]
    cases hrun : (Tree.HeaderReader.header last).run (token :: rest) with
    | error d => exact .error (Yields.ordinary hhead hrun)
    | ok pair =>
      refine (ends_addFunction pair.1 t).bind fun _ u hu => ?_
      exact (ih pair.2 u).mono fun _ v hv => hu.1.trans hv
  | case9 depth token rest _ _ _ _ ih => exact ih t

end Grammar

end Ifj24
