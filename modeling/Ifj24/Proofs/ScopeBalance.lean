import Ifj24.Proofs.Usage

/-!
Parsing leaves every scope that it enters. Scopes are numbered as they are opened and a block
takes the next number at its opening brace, so numbers tell whether the scope that closes a block
is the one that was opened for it.
-/

namespace Ifj24.Grammar

open Ifj24.Tree Construct

/-- Parsing a program on a fresh table ends in the global scope, which has no children left and is
as it was. Every block is closed by the scope that was opened for it: the scope has the kind and
the comment of the construct and the number that was the next one there, and no children. It
holds, in its list and in its buckets, the variables in front of the block and those that the
block itself declares, under names of their own; these are variables of the scope. No scope was
opened for anything else. -/
theorem parse_balances_scopes (tokens : List Token) (hash : NameHash) (strict : Bool)
    (parsed : Parsed) (t : Table)
    (h : parse (.ofTokens tokens) (.fresh hash strict) = .ok parsed t) :
    let blocks := parsed.program.constructs
    t.current = t.global ∧ t.inner = [] ∧ t.childrenOf t.global = [] ∧
    t.global = (Table.fresh hash strict).global ∧
    t.global.vars = [Table.discard] ∧ (t.var Table.discard).name = "_" ∧
    (∀ c ∈ blocks, c.block.stop.scope.face = c.scope ∧ c.block.stop.scope.Booked t ∧
      t.childrenOf c.block.stop.scope = []) ∧
    (blocks.map number).Perm (List.range' 1 blocks.length) ∧
    t.nextScope = blocks.length + 1 := by
  obtain ⟨p, hacc⟩ := exists_accepted (TokenBuffer.last_ofTokens tokens) h
  have hledger := hacc.ledger
  have hinner : t.inner = [] := List.map_eq_nil_iff.mp hledger.inner
  have hglobal : t.global = (Table.fresh hash strict).global := by
    have hsame := hledger.booked.global
    rwa [hacc.later.hash, hacc.later.strict] at hsame
  have hnext : t.nextScope = parsed.program.constructs.length + 1 := by
    have hnext := hledger.next
    rwa [List.length_nil, Nat.zero_add] at hnext
  have hchildren (s : Scope) : t.childrenOf s = [] := by
    have hpath : t.path = [t.global.number] := by simp [Table.path, hinner]
    rw [Table.childrenOf, hledger.booked.attached.children, hpath]
    rfl
  refine ⟨by simp [Table.current, hinner], hinner, hchildren _, hglobal, by rw [hglobal]; rfl,
    hledger.booked.discard_name, fun c hc => ⟨hledger.recorded c hc, ?_, hchildren _⟩, ?_, hnext⟩
  · exact hledger.booked.scopes _ (List.mem_append_left _ (List.mem_map_of_mem hc))
  · have hnumbers : (parsed.program.constructs.map fun c => c.block.stop.scope.number) =
        parsed.program.constructs.map number :=
      List.map_congr_left fun c hc => congrArg Scope.number (hledger.recorded c hc)
    -- All numbers are those of the blocks and the zero of the global scope.
    have hall := hledger.booked.numbers
    simp only [hinner, hglobal, hnext, List.nil_append, List.map_append, List.map_map] at hall
    have hzero := (List.perm_append_singleton 0 _).symm.trans hall
    rw [List.range_eq_range', List.range'_succ] at hzero
    exact hnumbers ▸ hzero.cons_inv

/-- The scope of `main` is opened first and closed last. -/
theorem parse_balances_scopes_idle :
    ∃ parsed t, parse (.ofTokens Program.idle.tokens) (.fresh (fun _ => 0) true) = .ok parsed t ∧
      parsed.program.constructs.map kind = [.branch, .function] ∧
      parsed.program.constructs.map number = [2, 1] ∧
      parsed.program.constructs.map vars = [[3], [1, 2]] ∧
      t.childrenOf t.global = [] ∧
      ∀ c ∈ parsed.program.constructs, c.block.stop.scope.face = c.scope := by
  obtain ⟨parsed, t, hparse, hkinds, hnumbers, hvars⟩ : ∃ parsed t,
      parse (.ofTokens Program.idle.tokens) (.fresh (fun _ => 0) true) = .ok parsed t ∧
        parsed.program.constructs.map kind = [.branch, .function] ∧
        parsed.program.constructs.map number = [2, 1] ∧
        parsed.program.constructs.map vars = [[3], [1, 2]] := by
    decide +kernel
  obtain ⟨-, -, hchildren, -, -, -, hblocks, -⟩ := parse_balances_scopes _ _ _ _ _ hparse
  exact ⟨parsed, t, hparse, hkinds, hnumbers, hvars, hchildren, fun c hc => (hblocks c hc).1⟩

end Ifj24.Grammar
