import Ifj24.Proofs.Parsing

/-!
Parsing scopes names lexically. What is known of the resolution of a derivation tree holds of the
parser, which resolves names as it reads.
-/

namespace Ifj24

namespace Grammar

open Ifj24.Tree Scoped

theorem parse_of_collected {b : TokenBuffer} {t u : Table} {p : Program}
    (hp : p.tokens = b.items) (ht : Shows t [] 1) (h : collectFunctions b t = .ok () u) :
    parse b t = p.resolution u ∧ u = { t with funcs := u.funcs } := by
  rw [← List.append_nil p.tokens] at hp
  rw [collectFunctions, ← hp, collectFrom_program] at h
  obtain ⟨_, v, hreg, hmain⟩ := bind_eq_ok h
  obtain ⟨hv, -⟩ := register_eq_ok hreg
  have hu : u = v := by
    rcases checkMain_cases b.last v with hcase | ⟨d, hcase, -⟩
    · rw [hcase] at hmain
      cases hmain
      rfl
    · rw [hcase] at hmain
      cases hmain
  subst hu
  refine ⟨?_, hv⟩
  rw [parse_tokens hp ht, bind_apply, hreg]
  dsimp only
  rw [bind_apply, hmain]

/-- Names are scoped lexically. On a derivable token sequence whose functions can be
registered, parsing succeeds exactly if every use refers to a declaration and no scope
declares a name twice; then each use is linked to the declaration that it refers to. -/
theorem parse_scopes_lexically (b : TokenBuffer) (hash : NameHash) (strict : Bool) (u : Table)
    (p : Program) (hp : p.tokens = b.items)
    (hcollect : collectFunctions b (.fresh hash strict) = .ok () u) :
    ((∃ parsed t, parse b (.fresh hash strict) = .ok parsed t) ↔
      Bound p.sites ∧ Distinct p.scopes) ∧
    (∀ parsed t, parse b (.fresh hash strict) = .ok parsed t →
      p.Depicts t parsed.program ∧ Linked parsed.program.uses p.sites) ∧
    ∀ d t, parse b (.fresh hash strict) = .error d t →
      d.kind = .undefinedName ∧ ¬ Bound p.sites ∨
        d.kind = .redefinition ∧ ¬ Distinct p.scopes := by
  obtain ⟨hparse, hu⟩ := parse_of_collected hp (shows_fresh hash strict) hcollect
  have hshows : Shows u [] 1 := by
    rw [hu]
    exact (shows_fresh hash strict).withFuncs u.funcs
  have hbinds := p.binds ⟨u, none⟩ hshows
  unfold Program.resolution at hparse
  cases hresolve : p.resolve ⟨u, none⟩ with
  | error d s =>
    rw [hresolve] at hparse hbinds
    refine ⟨iff_of_false ?_ ?_, ?_, ?_⟩
    · rintro ⟨parsed, t, hok⟩
      rw [hparse] at hok
      cases hok
    · rintro ⟨hbound, hdist⟩
      rcases hbinds with ⟨-, hnot⟩ | ⟨-, hnot⟩
      · exact hnot hbound
      · exact hnot hdist
    · intro parsed t hok
      rw [hparse] at hok
      cases hok
    · intro d' t herror
      rw [hparse] at herror
      cases herror
      exact hbinds
  | ok program s =>
    rw [hresolve] at hparse hbinds
    obtain ⟨-, hbound, hdist, -, hres⟩ := hbinds
    refine ⟨iff_of_true ⟨_, _, hparse⟩ ⟨hbound, hdist⟩, ?_, ?_⟩
    · intro parsed t hok
      rw [hparse] at hok
      cases hok
      obtain ⟨hdepicts, hlink, -⟩ := hres s.table (.refl _)
      exact ⟨hdepicts, hlink⟩
    · intro d t herror
      rw [hparse] at herror
      cases herror

/-- A program with `const x = ifj.readi32(); if (x) |x| { ifj.write(x,); } else
{ ifj.write(x,); }` as its `main`. The second `x` hides the first one in one branch only. -/
def Program.hiding : Program :=
  .ofFunctions [.simple "main" <| .plain (.reading "x") <|
    .branchElse (lexeme .kwIf "if") (.binding "x") .sample (.writing "x") (lexeme .kwElse "else")
      .sample (.writing "x") .done]

theorem parse_hiding :
    ∃ parsed t, parse Program.hiding.buffer (.fresh (fun _ => 0) false) = .ok parsed t ∧
      parsed.program.uses.map Variable.var = [1, 2, 1] := by
  obtain ⟨_, u, hcoll, -⟩ : ∃ a u, collectFunctions Program.hiding.buffer
      (.fresh (fun _ => 0) false) = .ok a u ∧ True := by decide +kernel
  obtain ⟨hiff, hlinks, -⟩ := parse_scopes_lexically Program.hiding.buffer (fun _ => 0) false u
    Program.hiding rfl hcoll
  obtain ⟨parsed, t, hparse⟩ := hiff.mpr ⟨by decide +kernel, by decide +kernel⟩
  refine ⟨parsed, t, hparse, ?_⟩
  have hreferents := congrArg (List.map fun link => link.2.getD Table.discard)
    (hlinks parsed t hparse).2
  rw [List.map_map, List.map_map] at hreferents
  exact hreferents.trans (by decide +kernel)

end Grammar

end Ifj24
