import Ifj24.Proofs.LexicalScope
import Ifj24.Proofs.TwinParsing

/-!
Between two functions. Where a function begins, only `_` and the functions of the program can be
seen, however many variables have been declared before. So a function is resolved alike wherever
it stands, and its variables differ by the number at which they start.
-/

namespace Ifj24.Grammar

open Ifj24.Tree

/-- A table between functions: names of functions mean what `defined` says, and `m` variables have
been declared, of which only `_` can still be seen. -/
structure Boundary (hash : NameHash) (strict : Bool) (defined : Bytes → Option FuncDef) (m : Nat)
    (t : Table) : Prop where
  hash : t.hash = hash
  strict : t.strict = strict
  defined : ∀ name, t.lookupFunction? name = defined name
  shows : Shows t [] m
  discard : Var.discard.Alike (t.var Table.discard)
  outermost : ∀ r ∈ t.global.vars, r = Table.discard

section

variable {hash : NameHash} {strict : Bool} {defined : Bytes → Option FuncDef} {m : Nat}
  {t u : Table} {f : Function} {fn fn' : Tree.Function} {noted noted' : Option Diagnostic}
  {s s' : Scoping}

namespace Boundary

theorem inner (h : Boundary hash strict defined m t) : t.inner = [] :=
  List.map_eq_nil_iff.mp h.shows.inner

theorem pos (h : Boundary hash strict defined m t) : 0 < m := by
  have hlook : t.global.lookup? t.hash Var.discard.name = some Table.discard := by
    rw [h.shows.global]
    rfl
  have hmem : t.global ∈ t.inner ++ [t.global] :=
    List.mem_append_right _ (List.mem_singleton.mpr rfl)
  rw [← h.shows.size]
  exact (h.shows.consistent.names t.global hmem _ _ hlook).1

theorem numbered (h : Boundary hash strict defined m t) : t.Numbered m 0 where
  pos := h.pos
  size := h.shows.size
  next := h.shows.consistent.next.trans (congrArg UInt32.ofNat h.shows.size)
  discard := h.discard
  ids i hi := absurd hi (Nat.not_lt_zero i)
  outermost := h.outermost

theorem twin (ht : Boundary hash strict defined m t) (hu : Boundary hash strict defined n u) :
    Table.Twin True m n 0 t u where
  hash := hu.hash.trans ht.hash.symm
  strict := by
    rw [hu.strict, ht.strict]
    exact ⟨fun _ => rfl, id⟩
  funcs name := by
    rw [ht.defined, hu.defined]
    cases defined name with
    | none => exact .none
    | some f => exact .some (.mk f f.pos)
  left := ht.numbered
  right := hu.numbered
  vars r s hrs := by
    cases hrs with
    | discard =>
      exact ⟨hu.discard.name.trans ht.discard.name.symm, hu.discard.type.trans ht.discard.type.symm,
        hu.discard.mutable_.trans ht.discard.mutable_.symm,
        hu.discard.nullable.trans ht.discard.nullable.symm⟩
    | own i hi => exact absurd hi (Nat.not_lt_zero i)
  marks i hi := absurd hi (Nat.not_lt_zero i)
  inner := by
    rw [ht.inner, hu.inner]
    exact .nil
  global name := by
    have hglobal : u.global.lookup? t.hash name = Grammar.outermost.referent? name := by
      rw [ht.hash, ← hu.hash, hu.shows.global]
    rw [ht.shows.global, hglobal, Grammar.outermost, Declarations.referent?, List.lookup_cons]
    split
    · exact .some .discard
    · exact .none

end Boundary

theorem resolve_alike (ht : Boundary hash strict defined m t)
    (hu : Boundary hash strict defined n u) (hf : defined f.name.1.literal = some f.signature)
    (noted noted' : Option Diagnostic) :
    EndAlike (fun fn fn' s s' => FunctionTwin (Paired m n f.count) fn fn' ∧
      Table.Twin True m n f.count s.table s'.table ∧
      ∃ found found', s.unused = noted.or found ∧ s'.unused = noted'.or found' ∧
        (Table.Agree m n f.count → Table.FoundAlike True found found'))
      (f.resolve ⟨t, noted⟩) (f.resolve ⟨u, noted'⟩) := by
  let last : Token := ⟨.eof, [], .none⟩
  have hlast : Token.Twin last last := .mk last last.pos
  have htoks : List.Forall₂ Token.Twin (f.tokens ++ [last]) (f.tokens ++ [last]) :=
    List.forall₂_same.mpr fun a _ => .mk a a.pos
  have hstep := InStep.function hlast noted noted' 0 ⟨f.tokens ++ [last], t, noted⟩
    ⟨f.tokens ++ [last], u, noted'⟩ (Nat.le_refl 0)
    ⟨htoks, ht.twin hu, none, none, Option.or_none.symm, Option.or_none.symm, fun _ => .none⟩
  have hreads : Agrees f.resolve ⟨t, noted⟩ (Parser.function last ⟨f.tokens ++ [last], t, noted⟩)
      [last] := reads_function f last [] ⟨t, noted⟩ ((ht.defined _).trans hf)
  have hreads' : Agrees f.resolve ⟨u, noted'⟩ (Parser.function last ⟨f.tokens ++ [last], u, noted'⟩)
      [last] := reads_function f last [] ⟨u, noted'⟩ ((hu.defined _).trans hf)
  have hbinds := Binds.function f ⟨t, noted⟩ ht.shows
  unfold Agrees at hreads hreads'
  cases hrun : f.resolve ⟨t, noted⟩ with
  | error d s =>
    rw [hrun] at hreads
    obtain ⟨other, hreads⟩ := hreads
    rw [hreads] at hstep
    cases hrun' : f.resolve ⟨u, noted'⟩ with
    | error d' s' =>
      rw [hrun'] at hreads'
      obtain ⟨other', hreads'⟩ := hreads'
      rw [hreads'] at hstep
      cases hstep with
      | error hkind => exact .error hkind
    | ok fn' s' =>
      rw [hrun'] at hreads'
      rw [hreads'] at hstep
      cases hstep
  | ok fn s =>
    rw [hrun] at hreads hbinds
    rw [hreads] at hstep
    cases hrun' : f.resolve ⟨u, noted'⟩ with
    | error d' s' =>
      rw [hrun'] at hreads'
      obtain ⟨other', hreads'⟩ := hreads'
      rw [hreads'] at hstep
      cases hstep
    | ok fn' s' =>
      rw [hrun'] at hreads'
      rw [hreads'] at hstep
      cases hstep with
      | ok hend =>
        obtain ⟨c, -, hfn, hst⟩ := hend
        obtain ⟨-, -, -, hshows, -⟩ := hbinds
        obtain rfl : c = f.count :=
          Nat.add_left_cancel (hst.table.left.size.symm.trans hshows.size)
        exact .ok ⟨hfn _ (Nat.le_refl _), hst.table, hst.unused⟩

/-- Behind a function there is a boundary again. -/
theorem Boundary.next (ht : Boundary hash strict defined m t)
    (hf : defined f.name.1.literal = some f.signature) (h : f.resolve ⟨t, noted⟩ = .ok fn s) :
    Boundary hash strict defined (m + f.count) s.table := by
  have hbinds := Binds.function f ⟨t, noted⟩ ht.shows
  have hself := resolve_alike ht ht hf noted noted
  rw [h] at hbinds hself
  obtain ⟨hlater, -, -, hshows, -⟩ := hbinds
  cases hself with
  | ok hself =>
    obtain ⟨-, htwin, -⟩ := hself
    exact {
      hash := hlater.hash.trans ht.hash
      strict := hlater.strict.trans ht.strict
      defined := fun name => (hlater.lookupFunction? name).trans (ht.defined name)
      shows := hshows
      discard := htwin.left.discard
      outermost := htwin.left.outermost }

/-- Behind `m` variables the function is resolved to `fn`, and no rule of use is broken. The table
`u` comes later. -/
def Function.Resolved (hash : NameHash) (strict : Bool) (defined : Bytes → Option FuncDef)
    (u : Table) (m : Nat) (f : Function) (fn : Tree.Function) : Prop :=
  ∃ t s, Boundary hash strict defined m t ∧ f.resolve ⟨t, none⟩ = .ok fn s ∧ s.unused = none ∧
    s.table.Later u

theorem Function.Resolved.depicts (h : f.Resolved hash strict defined u m fn) :
    f.Depicts u m fn := by
  obtain ⟨t, s, ht, hrun, -, hlater⟩ := h
  have hbinds := Binds.function f ⟨t, none⟩ ht.shows
  rw [hrun] at hbinds
  exact (hbinds.2.2.2.2 u hlater).1

theorem Function.Resolved.twin (h : f.Resolved hash strict defined t m fn)
    (h' : f.Resolved hash strict defined u n fn')
    (hf : defined f.name.1.literal = some f.signature) :
    FunctionTwin (Paired m n f.count) fn fn' ∧
      ∃ t' u', Table.Twin True m n f.count t' u' ∧ t'.Later t ∧ u'.Later u := by
  obtain ⟨v, s, hv, hrun, -, hlater⟩ := h
  obtain ⟨w, s', hw, hrun', -, hlater'⟩ := h'
  have halike := resolve_alike hv hw hf none none
  rw [hrun, hrun'] at halike
  cases halike with
  | ok halike => exact ⟨halike.1, s.table, s'.table, halike.2.1, hlater, hlater'⟩

theorem agree_of_le (hm : 0 < m) (hmc : m + c ≤ UInt32.size) (hn : 0 < n)
    (hnc : n + c ≤ UInt32.size) : Table.Agree m n c := by
  have hne (x : Nat) (hpos : 0 < x) (hlt : x < UInt32.size) : (UInt32.ofNat x == 0) = false := by
    rw [beq_eq_false_iff_ne, ne_eq, ← UInt32.toNat_inj, UInt32.toNat_ofNat', Nat.mod_eq_of_lt hlt]
    exact Nat.ne_of_gt hpos
  intro i hi
  rw [hne (m + i) (Nat.add_pos_left hm i) (Nat.lt_of_lt_of_le (Nat.add_lt_add_left hi m) hmc),
    hne (n + i) (Nat.add_pos_left hn i) (Nat.lt_of_lt_of_le (Nat.add_lt_add_left hi n) hnc)]

/-- What can be resolved at one boundary can be resolved at every other. -/
theorem Function.Resolved.anywhere (h : f.Resolved hash strict defined u n fn)
    (hn : n + f.count ≤ UInt32.size) (hf : defined f.name.1.literal = some f.signature)
    (ht : Boundary hash strict defined m t) (hm : m + f.count ≤ UInt32.size) :
    ∃ fn' s, f.resolve ⟨t, none⟩ = .ok fn' s ∧ s.unused = none := by
  obtain ⟨v, s, hv, hrun, hunused, -⟩ := h
  have halike := resolve_alike hv ht hf none none
  rw [hrun] at halike
  generalize f.resolve ⟨t, none⟩ = result at halike
  cases halike with
  | ok halike =>
    obtain ⟨-, -, found, found', hfound, hfound', hrel⟩ := halike
    rw [hunused, Option.none_or] at hfound
    have hnone := hrel (agree_of_le hv.pos hn ht.pos hm)
    rw [← hfound] at hnone
    cases hnone.rel
    exact ⟨_, _, rfl, hfound'⟩

inductive ResolvedAll (hash : NameHash) (strict : Bool) (defined : Bytes → Option FuncDef)
    (u : Table) : Nat → List Function → List Tree.Function → Prop
  | nil {m : Nat} : ResolvedAll hash strict defined u m [] []
  | cons {m : Nat} {f : Function} {fn : Tree.Function} {fs : List Function}
    {fns : List Tree.Function} : f.Resolved hash strict defined u m fn →
    ResolvedAll hash strict defined u (m + f.count) fs fns →
    ResolvedAll hash strict defined u m (f :: fs) (fn :: fns)

theorem resolvedAll_of_run (ht : Boundary hash strict defined m t)
    (hfs : ∀ f ∈ fs, defined f.name.1.literal = some f.signature)
    (h : resolveFunctions fs ⟨t, noted⟩ = .ok fns s) (hunused : s.unused = none) :
    noted = none ∧ ResolvedAll hash strict defined s.table m fs fns := by
  induction fs generalizing m t noted fns with
  | nil =>
    cases h
    exact ⟨hunused, .nil⟩
  | cons f rest ih =>
    have hf := hfs f List.mem_cons_self
    obtain ⟨fn, s₁, hfn, h⟩ := bind_eq_ok h
    obtain ⟨fns, s₂, hrest, h⟩ := bind_eq_ok h
    cases h
    have hnext := ht.next hf hfn
    obtain ⟨hnone, hall⟩ := ih hnext (fun g hg => hfs g (List.mem_cons_of_mem f hg)) hrest
    have hnoted : noted = none := by
      have hself := resolve_alike ht ht hf noted noted
      rw [hfn] at hself
      cases hself with
      | ok hself =>
        obtain ⟨-, -, found, -, hfound, -⟩ := hself
        exact (Option.or_eq_none_iff.mp (hfound.symm.trans hnone)).1
    subst hnoted
    have hbinds := Binds.functions rest s₁ hnext.shows
    rw [hrest] at hbinds
    exact ⟨rfl, .cons ⟨t, s₁, ht, hfn, hnone, hbinds.1⟩ hall⟩

theorem exists_run_of_resolved (ht : Boundary hash strict defined m t)
    (hfs : ∀ f ∈ fs, defined f.name.1.literal = some f.signature)
    (hcount : m + countAll fs ≤ UInt32.size)
    (h : ∀ f ∈ fs, ∃ u n fn, n + f.count ≤ UInt32.size ∧ f.Resolved hash strict defined u n fn) :
    ∃ fns s, resolveFunctions fs ⟨t, none⟩ = .ok fns s ∧ s.unused = none := by
  induction fs generalizing m t with
  | nil => exact ⟨[], _, rfl, rfl⟩
  | cons f rest ih =>
    have hf := hfs f List.mem_cons_self
    rw [countAll, ← Nat.add_assoc] at hcount
    obtain ⟨u, n, fn, hn, hres⟩ := h f List.mem_cons_self
    obtain ⟨fn', ⟨t₁, unused₁⟩, hfn, hunused⟩ :=
      hres.anywhere hn hf ht (Nat.le_trans (Nat.le_add_right _ _) hcount)
    obtain rfl : unused₁ = none := hunused
    obtain ⟨fns, s, hrest, hnone⟩ := ih (ht.next hf hfn)
      (fun g hg => hfs g (List.mem_cons_of_mem f hg)) hcount
      fun g hg => h g (List.mem_cons_of_mem f hg)
    refine ⟨fn' :: fns, s, ?_, hnone⟩
    rw [resolveFunctions, bind_apply, hfn]
    dsimp only
    rw [bind_apply, hrest]
    rfl

end

end Ifj24.Grammar
