import Ifj24.Proofs.LayoutIndependence
import Ifj24.Proofs.Robustness

/-!
Strict mutability only rejects. Whether a variable that may be modified is modified is asked when
its scope is closed, and what is found there is raised behind every other failure of the check. A
source is therefore parsed and checked alike with and without the question, and what passes it is
compiled to the same code.
-/

namespace Ifj24

open Compile Code

theorem result_code (o : Options) (file source : Bytes) :
    (code o file source).result =
      (frontEnd o.strict file source).result >>= fun c => (generateCode o.comments c).result := by
  unfold code
  rw [Traced.result_bind]
  rfl

/-- A program with representable literals that passes the check has code. -/
theorem exists_generateCode (h : Representable (Nat.pow 2 63) file source)
    (hfront : (frontEnd strict file source).result = .ok c) (comments : Bool) :
    ∃ output, (generateCode comments c).result = .ok output := by
  have hlimit : Limit (Nat.pow 2 63) := ⟨by decide, Nat.le_refl _⟩
  have hready := (frontEnd_yields hlimit h strict).result hfront
  obtain ⟨hfail, -⟩ := generate_ready (t := c.table) hlimit comments hready
  unfold generateCode
  simp only [hfail]
  exact ⟨_, rfl⟩

/-- What strict mutability accepts is compiled to the same code without it, and what is compiled
without it is compiled to the same code or refused for a broken rule of use. What is refused
without it is refused for a reason of the same kind; only where generation fails for a literal
that cannot be represented, a broken rule of use may be the reason instead. -/
theorem strict_mutability_only_rejects (o : Options) (file source : Bytes) :
    let lenient := (compile { o with emit := .code, strict := false } file source).result
    let strict := (compile { o with emit := .code, strict := true } file source).result
    (∀ output, strict = .ok output → lenient = .ok output) ∧
    (∀ output, lenient = .ok output →
      strict = .ok output ∨ ∃ d, strict = .error d ∧ d.kind = .unusedVariable) ∧
    ∀ d, lenient = .error d → ∃ e, strict = .error e ∧
      (e.kind = d.kind ∨
        e.kind = .unusedVariable ∧ ¬ Representable (Nat.pow 2 63) file source) := by
  intro lenient strict
  have hlenient : lenient = _ := result_code { o with emit := .code, strict := false } file source
  have hstrict : strict = _ := result_code { o with emit := .code, strict := true } file source
  have hfront : RefusedAlike False CheckedTwin (frontEnd false file source).result
      (frontEnd true file source).result := frontEnd_alike ⟨False.elim, fun _ => rfl⟩ rfl
  dsimp only at hlenient hstrict
  generalize hfalse : (frontEnd false file source).result = a at hlenient hfront
  generalize (frontEnd true file source).result = b at hstrict hfront
  rw [hlenient, hstrict]
  cases hfront with
  | error hkind =>
    refine ⟨fun _ h => (nomatch h), fun _ h => (nomatch h), fun _ h => ⟨_, rfl, .inl ?_⟩⟩
    cases h
    exact hkind
  | @ok c c' hc =>
    have hcode : ExceptAlike Eq ((Except.ok c : Except Diagnostic _) >>= fun c =>
        (generateCode o.comments c).result) (Except.ok c' >>= fun c =>
          (generateCode o.comments c).result) := generateCode_alike o.comments hc
    generalize (Except.ok c >>= fun c => (generateCode o.comments c).result) = x at hcode
    generalize (Except.ok c' >>= fun c => (generateCode o.comments c).result) = y at hcode
    cases hcode with
    | ok heq =>
      subst heq
      exact ⟨fun _ h => h, fun _ h => .inl h, fun _ h => nomatch h⟩
    | error hkind =>
      refine ⟨fun _ h => (nomatch h), fun _ h => (nomatch h), fun _ h => ⟨_, rfl, .inl ?_⟩⟩
      cases h
      exact hkind
  | second _ he =>
    refine ⟨fun _ h => (nomatch h), fun _ _ => .inr ⟨_, rfl, he⟩, fun d hd => ⟨_, rfl, .inr ⟨he, ?_⟩⟩⟩
    intro hfits
    obtain ⟨output, hcode⟩ := exists_generateCode hfits hfalse o.comments
    cases hcode.symm.trans hd

/-- A variable that is never modified and a literal of more than 64 bits: without strict mutability
the reason is the literal, with it the variable. -/
theorem strict_mutability_before_literals :
    let source : Bytes := "const ifj = @import(\"ifj24.zig\");
pub fn main() void \x7b
  var x = ifj.readi32();
  ifj.write(x);
  ifj.write(9223372036854775808);
\x7d
"
    (∃ d, (compile ⟨.code, .text, false, false⟩ "t" source).result = .error d ∧
      d.kind = .internal) ∧
    ∃ d, (compile ⟨.code, .text, true, false⟩ "t" source).result = .error d ∧
      d.kind = .unusedVariable := by
  constructor <;> decide +kernel

end Ifj24
