import Ifj24.Compile
import Ifj24.Proofs.CheckerFailures
import Ifj24.Proofs.StackBalance

/-!
Compilation blames no compiler. Code is generated without a failure for every tree that is
ready, and the integers in it are no larger than the literals of the source allow. Together
with what is known of the earlier steps, a source is compiled or refused for a reason that
lies in it, as long as its literals can be represented.
-/

open List

namespace Ifj24.Code

open Ifj24.Tree

def Instr.sources : Instr → List Source
  | .jumpIfEq _ a b | .jumpIfNeq _ a b | .binary _ _ a b => [a, b]
  | .move _ a | .push a | .strLen _ a | .typeOf _ a | .write a | .exit a => [a]
  | .label _ | .jump _ | .jumpIfEqs _ | .call _ | .return | .createFrame | .pushFrame
  | .popFrame | .defVar _ | .pop _ | .stack _ | .read _ _ => []

def Source.Below (limit : Nat) : Source → Prop
  | .constant (.int n) => n < limit
  | .constant .nil | .constant (.bool _) | .constant (.float _) | .constant (.string _)
  | .place _ => True

instance (limit : Nat) (a : Source) : Decidable (a.Below limit) :=
  match a with
  | .constant (.int n) => inferInstanceAs (Decidable (n < limit))
  | .constant .nil | .constant (.bool _) | .constant (.float _) | .constant (.string _)
  | .place _ => .isTrue trivial

def AllBelow (limit : Nat) (code : List Instr) : Prop :=
  ∀ i ∈ code, ∀ a ∈ i.sources, a.Below limit

instance (limit : Nat) (code : List Instr) : Decidable (AllBelow limit code) :=
  inferInstanceAs (Decidable (∀ i ∈ code, ∀ a ∈ i.sources, a.Below limit))

namespace AllBelow

variable {limit : Nat} {code : List Instr}

theorem nil : AllBelow limit [] := fun _ hi => by cases hi

theorem cons {i : Instr} (hi : ∀ a ∈ i.sources, a.Below limit) (h : AllBelow limit code) :
    AllBelow limit (i :: code) :=
  forall_mem_cons.mpr ⟨hi, h⟩

theorem append (h : AllBelow limit code) (h' : AllBelow limit code') :
    AllBelow limit (code ++ code') :=
  forall_mem_append.mpr ⟨h, h'⟩

theorem mono (h : AllBelow limit code) (hle : limit ≤ limit') :
    AllBelow limit' code := by
  intro i hi a ha
  have hbelow := h i hi a ha
  unfold Source.Below at hbelow ⊢
  split at hbelow
  · omega
  all_goals trivial

end AllBelow

/-- Lowering without a failure, to code whose integers are below the limit. -/
def Lowers (limit : Nat) (m : Lower (List Instr)) : Prop :=
  ∀ σ, (m σ).2.failure = σ.failure ∧ AllBelow limit (m σ).1

namespace Lowers

variable {limit : Nat} {m : Lower (List Instr)} {f : List Instr → Lower (List Instr)}

theorem pure {code : List Instr} (h : AllBelow limit code) : Lowers limit (Pure.pure code) :=
  fun _ => ⟨rfl, h⟩

theorem bind (hm : Lowers limit m) (hf : ∀ code, AllBelow limit code → Lowers limit (f code)) :
    Lowers limit (m >>= f) := by
  intro σ
  obtain ⟨hfail, hcode⟩ := hm σ
  obtain ⟨hfail', hcode'⟩ := hf (m σ).1 hcode (m σ).2
  exact ⟨hfail'.trans hfail, hcode'⟩

theorem fresh {f : Nat → Lower (List Instr)} (hf : ∀ number, Lowers limit (f number)) :
    Lowers limit (Lower.freshNumber >>= f) :=
  fun σ => hf σ.labels σ.next

end Lowers

section

variable {limit : Nat} {t : Table}

section

variable (hlimit : Limit limit)

include hlimit

theorem lowers_push (hx : x.IsTerm limit) : Lowers limit (push t x) := by
  have hsound := hx.sound
  cases x with
  | value v =>
    obtain ⟨c, hc, hbelow⟩ := Value.exists_constant hlimit hsound
    rw [push, hc]
    refine .pure (.cons (fun a ha => ?_) .nil)
    rw [mem_singleton.mp ha]
    cases c with
    | int n => exact (hbelow n rfl).2
    | nil | bool | float | string => trivial
  | «variable» v =>
    rw [push]
    exact .pure (by simp [AllBelow, Instr.sources, Source.Below])
  | operand o => exact absurd rfl hx.shape
  | expression | truth | call => exact absurd hsound id

theorem lowers_pushAll (hxs : ∀ x ∈ xs, x.IsTerm limit) : Lowers limit (pushAll t xs) := by
  induction xs with
  | nil => exact .pure .nil
  | cons x rest ih =>
    obtain ⟨hx, hrest⟩ := forall_mem_cons.mp hxs
    rw [pushAll]
    refine (lowers_push hlimit hx).bind fun code hcode => ?_
    exact (ih hrest).bind fun code' hcode' => .pure (hcode.append hcode')

theorem lowers_items (hxs : ∀ x ∈ xs, x.Sound limit) : Lowers limit (lowerItems t xs) := by
  induction xs with
  | nil => exact .pure .nil
  | cons x rest ih =>
    obtain ⟨hx, hrest⟩ := forall_mem_cons.mp hxs
    have hterm (hshape : x.shape ≠ .operator) :
        Lowers limit (do return (← push t x) ++ (← lowerItems t rest)) :=
      (lowers_push hlimit ⟨hx, hshape⟩).bind fun code hcode =>
        (ih hrest).bind fun code' hcode' => .pure (hcode.append hcode')
    cases x with
    | value v => exact hterm nofun
    | «variable» v => exact hterm nofun
    | operand o =>
      obtain ⟨op, hop⟩ := hx
      rw [lowerItems, hop]
      exact (ih hrest).bind fun code hcode => .pure (.cons (fun a ha => by cases ha) hcode)
    | expression | truth | call => exact absurd hx id

theorem lowers_call (hc : c.Ready limit CallOf.Resolved) : Lowers limit (lowerCall t c) := by
  obtain ⟨f, htgt, hhelper⟩ := hc.target
  unfold lowerCall
  rw [htgt]
  refine (lowers_pushAll hlimit hc.args).bind fun args hargs => ?_
  split
  · rename_i hblt
    obtain ⟨b, hb⟩ := hhelper hblt
    rw [hb]
    exact .pure (hargs.append (by simp [AllBelow, Instr.sources]))
  · exact .pure (hargs.append (by simp [AllBelow, Instr.sources]))

theorem lowers_value (hx : x.Ready limit CallOf.Resolved) : Lowers limit (lowerValue t x) := by
  cases x with
  | expression e => exact lowers_items hlimit (ExpressionOf.Ready.items hx)
  | call c => exact lowers_call hlimit hx
  | value | «variable» | operand | truth => exact absurd hx id

theorem lowers_guard (target : Label) (hg : g.Ready limit) :
    Lowers limit (lowerGuard t target g) := by
  cases g with
  | unwrap subject binding =>
    rw [lowerGuard]
    exact .pure (by simp [AllBelow, Instr.sources, Source.Below])
  | compare c =>
    obtain ⟨hleft, hright, ops, hops⟩ := hg
    rw [lowerGuard]
    refine (lowers_items hlimit hleft.items).bind fun left hleft => ?_
    refine (lowers_items hlimit hright.items).bind fun right hright => ?_
    rw [hops]
    have hstack : AllBelow limit (ops.map .stack) := by
      intro i hi a ha
      obtain ⟨op, -, rfl⟩ := mem_map.mp hi
      cases ha
    refine .pure (((hleft.append hright).append hstack).append ?_)
    simp [AllBelow, Instr.sources, Source.Below]

end

mutual

theorem lowers_stmt (hlimit : Limit limit) (s : Stmt) (hs : s.Ready limit CallOf.Resolved) :
    Lowers limit (lowerStmt t owner s) := by
  cases s with
  | declare pos r x | assign pos r x =>
    rw [lowerStmt]
    refine (lowers_value hlimit hs).bind fun code hcode => .pure (hcode.append ?_)
    simp [AllBelow, Instr.sources]
  | call c =>
    rw [lowerStmt]
    exact lowers_call hlimit hs
  | ifElse pos g yes no =>
    unfold Stmt.Ready at hs
    obtain ⟨hg, hyes, hno⟩ := hs
    rw [lowerStmt]
    refine .fresh fun number => (lowers_guard hlimit _ hg).bind fun jump hjump => ?_
    refine (lowers_stmts hlimit yes.stmts hyes).bind fun yesCode hyesCode => ?_
    cases no with
    | none =>
      refine .pure ((hjump.append hyesCode).append ?_)
      simp [AllBelow, Instr.sources]
    | some e =>
      refine (lowers_stmts hlimit e.body.stmts hno).bind fun noCode hnoCode => .pure ?_
      refine (((hjump.append hyesCode).append ?_).append hnoCode).append ?_
      · simp [AllBelow, Instr.sources]
      · simp [AllBelow, Instr.sources]
  | «while» pos g body =>
    obtain ⟨hg, hbody⟩ := hs
    rw [lowerStmt]
    refine .fresh fun number => (lowers_guard hlimit _ hg).bind fun jump hjump => ?_
    refine (lowers_stmts hlimit body.stmts hbody).bind fun code hcode => .pure ?_
    refine ((AllBelow.append ?_ hjump).append hcode).append ?_
    · simp [AllBelow, Instr.sources]
    · simp [AllBelow, Instr.sources]
  | «return» pos x =>
    cases x with
    | none =>
      rw [lowerStmt]
      exact .pure (by simp [AllBelow, Instr.sources])
    | some x =>
      rw [lowerStmt]
      refine (lowers_value hlimit hs).bind fun code hcode => .pure (hcode.append ?_)
      simp [AllBelow, Instr.sources]
  | elseStart e => exact absurd hs id
  | blockEnd e =>
    rw [lowerStmt]
    exact .pure .nil
termination_by structural s

theorem lowers_stmts (hlimit : Limit limit) (ss : List Stmt)
    (hss : AllReady limit CallOf.Resolved ss) : Lowers limit (lowerStmts t owner ss) := by
  cases ss with
  | nil =>
    rw [lowerStmts]
    exact .pure .nil
  | cons s rest =>
    obtain ⟨hs, hrest⟩ := hss
    rw [lowerStmts]
    refine (lowers_stmt hlimit s hs).bind fun code hcode => ?_
    exact (lowers_stmts hlimit rest hrest).bind fun code' hcode' => .pure (hcode.append hcode')
termination_by structural ss

end

theorem lowers_function (hlimit : Limit limit)
    (hfn : AllReady limit CallOf.Resolved fn.body.stmts) : Lowers limit (lowerFunction t fn) := by
  have hentry : AllBelow limit (Machine.entryCode t fn) := by
    simp [AllBelow, Machine.entryCode, Instr.sources, or_imp, forall_and]
  have hexit : AllBelow limit [.popFrame, .return] := by simp [AllBelow, Instr.sources]
  unfold lowerFunction
  refine (lowers_stmts hlimit fn.body.stmts hfn).bind fun body hbody => ?_
  exact .pure ((hentry.append hbody).append hexit)

theorem lowers_functions (hlimit : Limit limit)
    (hfns : ∀ fn ∈ fns, AllReady limit CallOf.Resolved fn.body.stmts) (σ : LowerState) :
    (lowerFunctions t fns σ).2.failure = σ.failure ∧
      AllBelow limit (functionsCode (lowerFunctions t fns σ).1) := by
  induction fns generalizing σ with
  | nil => exact ⟨rfl, .nil⟩
  | cons fn rest ih =>
    obtain ⟨hfn, hrest⟩ := forall_mem_cons.mp hfns
    obtain ⟨hfail, hcode⟩ := lowers_function hlimit hfn σ
    obtain ⟨hfail', hcode'⟩ := ih hrest (lowerFunction t fn σ).2
    rw [lowerFunctions_cons, functionsCode, flatMap_cons]
    exact ⟨hfail'.trans hfail, hcode.append hcode'⟩

theorem generate_ready (hlimit : Limit limit) (comments : Bool)
    (hp : p.Ready limit CallOf.Resolved) :
    (generate comments t p).failure = none ∧ AllBelow limit (generate comments t p).code := by
  obtain ⟨hfail, huser⟩ := lowers_functions hlimit hp ⟨0, none⟩
  obtain ⟨keep, hcode⟩ := code_generate comments t p
  have hlower := hlimit.lower
  have hstart : AllBelow 2 startCode := by decide
  have hbuiltins : ∀ b ∈ Builtin.all, AllBelow 2 (builtinCode b) := by decide
  have hlibrary : AllBelow 2 ((Builtin.all.filter keep).flatMap builtinCode) := by
    intro i hi
    obtain ⟨b, hb, hi⟩ := mem_flatMap.mp hi
    exact hbuiltins b (mem_filter.mp hb).1 i hi
  have htwo : 2 ≤ limit := Nat.le_trans (by decide) hlower
  rw [hcode]
  exact ⟨hfail, ((hstart.mono htwo).append huser).append (hlibrary.mono htwo)⟩

end

end Ifj24.Code

namespace Ifj24

open Ifj24.Tree Typing Code

section

variable {limit : Nat} {file source : Bytes}

theorem Traced.result_bind (x : Traced α) (f : α → Traced β) :
    (x >>= f).result = x.result >>= fun a => (f a).result := by
  show (Traced.bind x f).result = _
  unfold Traced.bind
  cases x.result <;> rfl

theorem stocked_of_accepted {p : Grammar.Program} {hash : NameHash} {strict : Bool}
    {parsed : Parsed} {t : Table} (h : p.Accepted hash strict parsed t) : Stocked t := by
  intro name f hlook hblt
  obtain ⟨hname, hmem⟩ := Machine.known_of_accepted h hlook
  obtain ⟨b, hb, -⟩ := Machine.exists_builtin (hmem hblt)
  exact ⟨b, hname ▸ hb⟩

/-- The numbers in a source can be represented, the integers below the limit. -/
def Representable (limit : Nat) (file source : Bytes) : Prop :=
  ∀ ts, tokenize file source = .ok ts → ∀ a ∈ ts, a.Fits limit

instance (limit : Nat) (file source : Bytes) : Decidable (Representable limit file source) :=
  decidable_of_iff (∀ a ∈ (tokenize file source).toOption.getD [], a.Fits limit) <| by
    unfold Representable
    cases tokenize file source <;> simp [Except.toOption]

theorem readTokens_yields (h : Representable limit file source) :
    Yields (fun ts => ∀ a ∈ ts, a.Sound limit) (Compile.readTokens file source).result := by
  unfold Compile.readTokens
  cases htoks : tokenize file source with
  | error e => exact .error ⟨rfl⟩
  | ok ts => exact .ok (sound_of_tokenize htoks (h ts htoks))

theorem parseTokens_yields (h : ∀ a ∈ ts, a.Sound limit) (strict : Bool) :
    Yields (fun r => Stocked r.2 ∧ (r.1.program.Ready limit fun _ => True) ∧
      ∀ d, r.1.unused = some d → d.Ordinary) (Compile.parseTokens strict ts).result := by
  have hends := Grammar.ends_parse (t := .fresh .fnv1a strict) (TokenBuffer.last_ofTokens ts) rfl
  unfold Compile.parseTokens
  cases hparse : parse (.ofTokens ts) (.fresh .fnv1a strict) with
  | error d t =>
    rw [hparse] at hends
    rw [EStateM.run, hparse]
    cases hends with
    | error hd => exact .error hd
  | ok parsed t =>
    obtain ⟨⟨p, hacc⟩, hready⟩ := Grammar.exists_accepted_ready h hparse
    rw [EStateM.run, hparse]
    exact .ok ⟨stocked_of_accepted hacc, hready, hends.result hparse⟩

theorem checkTree_yields (hlimit : Limit limit) {t : Table}
    (ht : Stocked t) (hready : parsed.program.Ready limit C)
    (hunused : ∀ d, parsed.unused = some d → d.Ordinary) :
    Yields (fun c => c.program.Ready limit CallOf.Resolved) (Compile.checkTree parsed t).result := by
  obtain ⟨hord, hchecked⟩ := check_ready hlimit ht hready hunused
  unfold Compile.checkTree
  cases hfail : (check parsed t).failure with
  | some d =>
    simp only [hfail]
    exact .error (hord d hfail)
  | none =>
    simp only [hfail]
    exact .ok (hchecked hfail)

theorem frontEnd_yields (hlimit : Limit limit) (h : Representable limit file source)
    (strict : Bool) :
    Yields (fun c => c.program.Ready limit CallOf.Resolved)
      (Compile.frontEnd strict file source).result := by
  unfold Compile.frontEnd
  rw [Traced.result_bind]
  refine .bind (readTokens_yields h) fun ts hts => ?_
  rw [Traced.result_bind]
  refine .bind (parseTokens_yields hts strict) ?_
  rintro ⟨parsed, t⟩ ⟨ht, hready, hunused⟩
  exact checkTree_yields hlimit ht hready hunused

theorem code_yields (hlimit : Limit limit) (h : Representable limit file source) (o : Options) :
    Yields (fun _ => True) (Compile.code o file source).result := by
  unfold Compile.code
  rw [Traced.result_bind]
  refine .bind (frontEnd_yields hlimit h o.strict) fun c hc => ?_
  obtain ⟨hfail, -⟩ := generate_ready (t := c.table) hlimit o.comments hc
  unfold Compile.generateCode Traced.phase
  simp only [hfail]
  exact .ok trivial

end

/-- A source whose integers are below 2 ^ 63 and whose floats are rounded to finite doubles is
compiled, or refused for a reason that lies in it. States that a step takes for impossible are
internal errors too, so none of them is met. The tree that reaches the check is ready:
every postfix sequence leaves one operand, every operator has an instruction, and every literal
denotes a constant. The tree that reaches the generation is ready too, and its calls mean
functions, which have code if they are built in. On the way, every literal that may be
converted is in its place, whether in a sequence or among the arguments of a call. -/
theorem compile_never_internal (o : Options) (file source : Bytes)
    (h : Representable (Nat.pow 2 63) file source) :
    (∀ d, (compile { o with emit := .code } file source).result = .error d →
      d.kind ≠ .internal) ∧
    (∀ ts parsed t, tokenize file source = .ok ts →
      parse (.ofTokens ts) (.fresh .fnv1a o.strict) = .ok parsed t →
        (parsed.program.Ready (Nat.pow 2 63) fun _ => True) ∧
        ((check parsed t).failure = none →
          (check parsed t).program.Ready (Nat.pow 2 63) CallOf.Resolved ∧
          (generate o.comments (check parsed t).table (check parsed t).program).failure = none)) ∧
    (∀ (t : Table) (e : Expression), e.Ready (Nat.pow 2 63) → ∀ front back stack xs,
      e.items = front ++ back → evaluateItems t 0 front [] e.items = .ok stack xs →
        Placed stack xs) ∧
    ∀ (t : Table) (args : List Expr) i x y, args[i]? = some x → leaf t x (some i) = .ok y →
      Placed [y] args := by
  have hlimit : Limit (Nat.pow 2 63) := ⟨by decide, Nat.le_refl _⟩
  refine ⟨fun d hd => ((code_yields hlimit h _).ordinary hd).ne, ?_, ?_, ?_⟩
  · intro ts parsed t htoks hparse
    have hsound := sound_of_tokenize htoks (h ts htoks)
    obtain ⟨⟨p, hacc⟩, hready⟩ := Grammar.exists_accepted_ready hsound hparse
    have hends := Grammar.ends_parse (t := .fresh .fnv1a o.strict) (TokenBuffer.last_ofTokens ts) rfl
    have hunused := hends.result hparse
    refine ⟨hready, fun hfail => ?_⟩
    have hchecked := (check_ready hlimit (stocked_of_accepted hacc) hready hunused).2 hfail
    exact ⟨hchecked, (generate_ready hlimit o.comments hchecked).1⟩
  · intro t e he front back stack xs hitems hevaluate
    exact placed_of_evaluateItems hitems hevaluate
  · intro t args i x y hx hy
    exact placed_of_leaf hx hy

section

def writing (value : Bytes) : Bytes :=
  "const ifj = @import(\"ifj24.zig\");
pub fn main() void \x7b ifj.write(" ++ value ++ "); \x7d"

def largestSource : Bytes := writing "9223372036854775807); ifj.write(1.7e308"

def plainOptions : Options := ⟨.code, .text, false, false⟩

end

/-- Code is generated for the largest literals. -/
theorem generate_largest :
    Representable (Nat.pow 2 63) "t" largestSource ∧
      ∃ ts parsed t, tokenize "t" largestSource = .ok ts ∧
        parse (.ofTokens ts) (.fresh .fnv1a false) = .ok parsed t ∧
        (check parsed t).program.Ready (Nat.pow 2 63) CallOf.Resolved ∧
        (generate false (check parsed t).table (check parsed t).program).failure = none := by
  have hfits : Representable (Nat.pow 2 63) "t" largestSource := by decide +kernel
  obtain ⟨ts, htoks, parsed, t, hparse, hcheck⟩ : ∃ ts, tokenize "t" largestSource = .ok ts ∧
      ∃ parsed t, parse (.ofTokens ts) (.fresh .fnv1a false) = .ok parsed t ∧
        (check parsed t).failure = none := by decide +kernel
  obtain ⟨-, hsteps, -⟩ := compile_never_internal plainOptions "t" largestSource hfits
  obtain ⟨-, hchecked⟩ := hsteps ts parsed t htoks hparse
  exact ⟨hfits, ts, parsed, t, htoks, hparse, hchecked hcheck⟩

/-- Integers in the code are bounded by those in the source, and no larger than 32 bits if
those are: no step compares an integer literal with the range of its type. What is beyond 64
bits, or beyond the finite doubles, has no constant, and generation fails with an internal
error. -/
theorem compile_bounds_integers (limit : Nat) (hlimit : Limit limit) (o : Options)
    (file source : Bytes) (h : Representable limit file source) :
    (∀ d, (compile { o with emit := .code } file source).result = .error d →
      d.kind ≠ .internal) ∧
    (∀ c, (Compile.frontEnd o.strict file source).result = .ok c →
      AllBelow limit (generate o.comments c.table c.program).code) ∧
    (∀ pos literal, Number.Digits literal →
      constant (.ofLiteral pos .i32 literal) =
        if Number.value literal < Nat.pow 2 63 then .ok (.int (Number.value literal))
        else .error ⟨pos, .badInt literal⟩) ∧
    ∀ pos (n : Number.Numeral), ¬n.decimal.Below Double.overflow →
      constant (.ofLiteral pos .f64 n.text) = .error ⟨pos, .badFloat n.text⟩ := by
  refine ⟨fun d hd => ((code_yields hlimit h _).ordinary hd).ne, ?_, ?_, ?_⟩
  · intro c hc
    have hready := (frontEnd_yields hlimit h o.strict).result hc
    exact (generate_ready hlimit o.comments hready).2
  · intro pos literal hdig
    exact Value.constant_digits pos hdig
  · intro pos n hlarge
    have hconst := Value.constant_numeral pos n
    rwa [if_neg hlarge] at hconst

/-- The largest integer of 32 bits is in the code, and none larger. -/
theorem generate_largest_i32 :
    Representable (Nat.pow 2 31) "t" (writing "2147483647") ∧
      ∃ c, (Compile.frontEnd false "t" (writing "2147483647")).result = .ok c ∧
        .push (.constant (.int 2147483647)) ∈ (generate false c.table c.program).code ∧
        AllBelow (Nat.pow 2 31) (generate false c.table c.program).code := by
  have hfits : Representable (Nat.pow 2 31) "t" (writing "2147483647") := by decide +kernel
  have hlimit : Limit (Nat.pow 2 31) := ⟨Nat.le_refl _, by decide⟩
  obtain ⟨c, hc, hpush⟩ : ∃ c,
      (Compile.frontEnd false "t" (writing "2147483647")).result = .ok c ∧
        .push (.constant (.int 2147483647)) ∈ (generate false c.table c.program).code := by
    decide +kernel
  obtain ⟨-, hbelow, -⟩ := compile_bounds_integers _ hlimit plainOptions "t" _ hfits
  exact ⟨hfits, c, hc, hpush, hbelow c hc⟩

/-- An integer of more than 32 bits is in the code, where the type i32 allows none. One of more
than 64 bits, or a number too large for a double, is an internal error. -/
theorem compile_unrepresentable :
    (∃ c, (Compile.frontEnd false "t" (writing "3000000000")).result = .ok c ∧
      .push (.constant (.int 3000000000)) ∈ (generate false c.table c.program).code) ∧
    (∃ d, (compile plainOptions "t" (writing "9223372036854775808")).result = .error d ∧
      d.kind = .internal) ∧
    ∃ d, (compile plainOptions "t" (writing "1e999")).result = .error d ∧ d.kind = .internal := by
  refine ⟨?_, ?_, ?_⟩ <;> decide +kernel

end Ifj24
