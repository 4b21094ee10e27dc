import Ifj24.Proofs.Bookkeeping
import Ifj24.Proofs.Visibility

/-!
What is reported as unused. While names are resolved, a use marks the variable that it means,
and the marks are judged when the scope of the variable closes. A name means a variable of an
open scope, so a scope that is closed is marked no more, and the judgement is the one that all
mentions of the variable in the program give. The first fault that is found is kept.
-/

open List

namespace Ifj24

namespace Tree

section

inductive Mention where
  | declared (r : VarRef)
  | parameter (r : VarRef)
  | read (r : VarRef)
  | assigned (r : VarRef)
  deriving DecidableEq, Repr

def Mention.var : Mention → VarRef
  | .declared r | .parameter r | .read r | .assigned r => r

def readsOf (uses : List Variable) : List Mention := uses.map fun v => .read v.var

/-- The subject of an unwrapping is read before the name is bound. -/
def Guard.mentions (g : Guard) : List Mention := readsOf g.uses ++ g.binding?.toList.map .declared

mutual

/-- What a statement says of variables, in the order of the source. A declaration counts from
behind its value on. -/
def Stmt.mentions : Stmt → List Mention
  | .declare _ r x => readsOf x.uses ++ [.declared r]
  | .assign _ r x => .assigned r :: readsOf x.uses
  | .call c => readsOf (usesIn c.args)
  | .ifElse _ g yes no =>
    g.mentions ++ (stmtsMentions yes.stmts ++
      match no with
      | none => []
      | some e => stmtsMentions e.body.stmts)
  | .while _ g body => g.mentions ++ stmtsMentions body.stmts
  | .return _ none => []
  | .return _ (some x) => readsOf x.uses
  | .elseStart e => stmtsMentions e.body.stmts
  | .blockEnd _ => []
termination_by structural s => s

def stmtsMentions : List Stmt → List Mention
  | [] => []
  | s :: rest => s.mentions ++ stmtsMentions rest
termination_by structural ss => ss

end

def Function.mentions (f : Function) : List Mention :=
  f.params.flatMap (fun r => [.declared r, .parameter r]) ++ stmtsMentions f.body.stmts

def Program.mentions (p : Program) : List Mention := p.functions.flatMap Function.mentions

def Used (ms : List Mention) (r : VarRef) : Prop :=
  List.Sublist [.declared r, .read r] ms ∨ List.Sublist [.declared r, .assigned r] ms

end

section

/-- The variables that statements declare in the scope they stand in, in the order of their
declarations. -/
def declaredBy (xs : List Stmt) : List VarRef := xs.flatMap Stmt.reveals

mutual

/-- The variables of each scope inside a statement, in the order of the closing braces. -/
def Stmt.closings : Stmt → List (List VarRef)
  | .ifElse _ g yes no =>
    stmtsClosings yes.stmts ++ (g.binding?.toList ++ declaredBy yes.stmts) ::
      match no with
      | none => []
      | some e => stmtsClosings e.body.stmts ++ [declaredBy e.body.stmts]
  | .while _ g body => stmtsClosings body.stmts ++ [g.binding?.toList ++ declaredBy body.stmts]
  | .elseStart e => stmtsClosings e.body.stmts ++ [declaredBy e.body.stmts]
  | .declare .. | .assign .. | .call _ | .return .. | .blockEnd _ => []
termination_by structural s => s

def stmtsClosings : List Stmt → List (List VarRef)
  | [] => []
  | s :: rest => s.closings ++ stmtsClosings rest
termination_by structural ss => ss

end

def Function.closings (f : Function) : List (List VarRef) :=
  stmtsClosings f.body.stmts ++ [f.params ++ declaredBy f.body.stmts]

def Program.closings (p : Program) : List (List VarRef) := p.functions.flatMap Function.closings

/-- A block with what its scope is opened for: the kind and the comment, the number, and the
variables in front of the block. -/
structure Construct where
  kind : ScopeKind
  comment : Bytes
  number : Nat
  first : List VarRef
  block : Block

open Construct

def Construct.vars (c : Construct) : List VarRef := c.first ++ declaredBy c.block.stmts

def Construct.scope (c : Construct) : Scope := ⟨c.kind, c.comment, c.number, c.vars, .empty⟩

mutual

/-- The blocks in a statement, in the order of the closing braces. The first one that is opened
has the number `n`. -/
def Stmt.constructs (n : Nat) : Stmt → List Construct
  | .ifElse _ g yes no =>
    let inside := stmtsConstructs (n + 1) yes.stmts
    inside ++ ⟨.branch, "if", n, g.binding?.toList, yes⟩ ::
      match no with
      | none => []
      | some e =>
        stmtsConstructs (n + inside.length + 2) e.body.stmts ++
          [⟨.branch, "else", n + inside.length + 1, [], e.body⟩]
  | .while _ g body =>
    stmtsConstructs (n + 1) body.stmts ++ [⟨.loop, "while", n, g.binding?.toList, body⟩]
  | .elseStart e => stmtsConstructs (n + 1) e.body.stmts ++ [⟨.branch, "else", n, [], e.body⟩]
  | .declare .. | .assign .. | .call _ | .return .. | .blockEnd _ => []
termination_by structural s => s

def stmtsConstructs (n : Nat) : List Stmt → List Construct
  | [] => []
  | s :: rest => s.constructs n ++ stmtsConstructs (n + (s.constructs n).length) rest
termination_by structural ss => ss

end

def Function.constructs (n : Nat) (f : Function) : List Construct :=
  stmtsConstructs (n + 1) f.body.stmts ++ [⟨.function, f.name, n, f.params, f.body⟩]

def functionsConstructs (n : Nat) : List Function → List Construct
  | [] => []
  | f :: rest => f.constructs n ++ functionsConstructs (n + (f.constructs n).length) rest

/-- The blocks of a program. The global scope has the number zero. -/
def Program.constructs (p : Program) : List Construct := functionsConstructs 1 p.functions

mutual

theorem Stmt.vars_constructs (n : Nat) (s : Stmt) :
    (s.constructs n).map vars = s.closings := by
  cases s with
  | ifElse pos g yes no =>
    cases no with
    | none => simp [Stmt.constructs, Stmt.closings, vars, vars_stmtsConstructs _ yes.stmts]
    | some e =>
      simp [Stmt.constructs, Stmt.closings, vars, vars_stmtsConstructs _ yes.stmts,
        vars_stmtsConstructs _ e.body.stmts]
  | «while» pos g body =>
    simp [Stmt.constructs, Stmt.closings, vars, vars_stmtsConstructs _ body.stmts]
  | elseStart e =>
    simp [Stmt.constructs, Stmt.closings, vars, vars_stmtsConstructs _ e.body.stmts]
  | declare | assign | call | «return» | blockEnd => rfl
termination_by structural s

theorem vars_stmtsConstructs (n : Nat) (ss : List Stmt) :
    (stmtsConstructs n ss).map vars = stmtsClosings ss := by
  cases ss with
  | nil => rfl
  | cons s rest =>
    rw [stmtsConstructs, stmtsClosings, map_append, s.vars_constructs n,
      vars_stmtsConstructs _ rest]
termination_by structural ss

end

theorem vars_functionsConstructs (n : Nat) (fs : List Function) :
    (functionsConstructs n fs).map vars = fs.flatMap Function.closings := by
  induction fs generalizing n with
  | nil => rfl
  | cons f rest ih =>
    rw [functionsConstructs, map_append, ih, flatMap_cons, Function.constructs,
      map_append, vars_stmtsConstructs]
    rfl

end

end Tree

open Ifj24.Tree

section

variable {t : Table} {past : List Mention} {r : VarRef}

theorem pair_sublist_concat :
    List.Sublist [a, b] (l ++ [c]) ↔ List.Sublist [a, b] l ∨ a ∈ l ∧ b = c := by
  constructor
  · intro h
    obtain ⟨front, back, heq, hfront, hback⟩ := sublist_append_iff.mp h
    cases hback with
    | cons _ hback =>
      rw [sublist_nil.mp hback, append_nil] at heq
      exact .inl (heq ▸ hfront)
    | cons_cons _ hback =>
      rw [sublist_nil.mp hback] at heq
      have hsplit : [a] ++ [b] = front ++ [c] := heq
      obtain ⟨rfl, hlast⟩ := append_inj' hsplit rfl
      exact .inr ⟨singleton_sublist.mp hfront, singleton_inj.mp hlast⟩
  · rintro (h | ⟨ha, rfl⟩)
    · exact h.trans (sublist_append_left _ _)
    · exact (singleton_sublist.mpr ha).append (.refl [b])

theorem used_concat :
    Used (past ++ [m]) r ↔
      Used past r ∨ .declared r ∈ past ∧ (m = .read r ∨ m = .assigned r) := by
  simp only [Used, pair_sublist_concat]
  constructor
  · rintro ((h | ⟨hd, rfl⟩) | (h | ⟨hd, rfl⟩))
    · exact .inl (.inl h)
    · exact .inr ⟨hd, .inl rfl⟩
    · exact .inl (.inr h)
    · exact .inr ⟨hd, .inr rfl⟩
  · rintro ((h | h) | ⟨hd, rfl | rfl⟩)
    · exact .inl (.inl h)
    · exact .inr (.inl h)
    · exact .inl (.inr ⟨hd, rfl⟩)
    · exact .inr (.inr ⟨hd, rfl⟩)

theorem Tree.Used.declared (h : Used past r) : .declared r ∈ past := by
  rcases h with h | h
  · exact h.subset mem_cons_self
  · exact h.subset mem_cons_self

theorem Table.modify_modify (t : Table) (r : VarRef) (f g : Var → Var) :
    (t.modify r f).modify r g = t.modify r (g ∘ f) := by
  have hstore : (t.store.modify r f).modify r g = t.store.modify r (g ∘ f) := by
    apply Array.ext_getElem?
    intro i
    simp only [Array.getElem?_modify]
    split <;> simp
  rw [modify, modify, modify, hstore]

def Tree.Mention.mark : Mention → Var → Var
  | .declared _, v => v
  | .parameter _, v => { v with param := true }
  | .read _, v => { v with accessed := true }
  | .assigned _, v => { v with accessed := true, modified := true }

/-- The marks of the variables in a table are those of the mentions so far. The marks of `_`
do not count. -/
structure Marks (t : Table) (past : List Mention) : Prop where
  mentioned : ∀ m ∈ past, m.var < t.store.size
  declared : ∀ r, 0 < r → r < t.store.size → .declared r ∈ past
  accessed : ∀ r, 0 < r → r < t.store.size → ((t.var r).accessed = true ↔ Used past r)
  modified : ∀ r, 0 < r → r < t.store.size → ((t.var r).modified = true ↔ .assigned r ∈ past)
  param : ∀ r, 0 < r → r < t.store.size → ((t.var r).param = true ↔ .parameter r ∈ past)

namespace Marks

theorem mark (h : Marks t past) (m : Mention) (hm : m.var < t.store.size)
    (hnew : ∀ r, m ≠ .declared r) : Marks (t.modify m.var m.mark) (past ++ [m]) where
  mentioned m' hm' := by
    rw [Table.size_modify]
    rcases mem_append.mp hm' with hm' | hm'
    · exact h.mentioned m' hm'
    · rw [mem_singleton.mp hm']
      exact hm
  declared r hpos hr := by
    rw [Table.size_modify] at hr
    exact mem_append_left _ (h.declared r hpos hr)
  accessed r hpos hr := by
    rw [Table.size_modify] at hr
    rw [used_concat, ← h.accessed r hpos hr, Table.var_modify _ _ _ _ hr]
    have hdecl := h.declared r hpos hr
    cases m with
    | declared q => exact absurd rfl (hnew q)
    | parameter q => split <;> simp [Mention.mark]
    | read q | assigned q =>
      by_cases hrq : r = q
      · simp [Mention.var, Mention.mark, hrq, hrq ▸ hdecl]
      · simp [Mention.var, hrq, Ne.symm hrq]
  modified r hpos hr := by
    rw [Table.size_modify] at hr
    rw [mem_append, mem_singleton, ← h.modified r hpos hr, Table.var_modify _ _ _ _ hr]
    cases m with
    | declared q => exact absurd rfl (hnew q)
    | parameter q => split <;> simp [Mention.mark]
    | read q => split <;> simp [Mention.mark]
    | assigned q =>
      by_cases hrq : r = q
      · simp [Mention.var, Mention.mark, hrq]
      · simp [Mention.var, hrq]
  param r hpos hr := by
    rw [Table.size_modify] at hr
    rw [mem_append, mem_singleton, ← h.param r hpos hr, Table.var_modify _ _ _ _ hr]
    cases m with
    | declared q => exact absurd rfl (hnew q)
    | parameter q =>
      by_cases hrq : r = q
      · simp [Mention.var, Mention.mark, hrq]
      · simp [Mention.var, hrq]
    | read q => split <;> simp [Mention.mark]
    | assigned q => split <;> simp [Mention.mark]

theorem of_store (h : Marks t past) (hstore : u.store = t.store) : Marks u past := by
  have hvar (r : VarRef) : u.var r = t.var r := by rw [Table.var, Table.var, hstore]
  refine ⟨?_, ?_, fun r => ?_, fun r => ?_, fun r => ?_⟩
  all_goals simp only [hstore, hvar]
  · exact h.mentioned
  · exact h.declared
  · exact h.accessed r
  · exact h.modified r
  · exact h.param r

theorem declare (h : Marks t past) {name : Bytes} {type : DataType} {mutable_ : Bool}
    {nullable : Nullability} {pos : Pos}
    (hdeclare : t.declare name type mutable_ nullable pos = .ok r u) :
    Marks u (past ++ [.declared r]) := by
  obtain ⟨hr, hsize, number, hvar⟩ := Table.var_declare hdeclare
  have hold {q : VarRef} (hq : q < t.store.size) : u.var q = t.var q := by
    obtain ⟨scope, outer, -, -, -, rfl⟩ := Table.declare_eq_ok hdeclare
    exact t.var_push _ hq
  have hfresh {m : Mention} (hm : m.var = r) : m ∉ past := fun hmem => by
    have hlt := h.mentioned m hmem
    rw [hm, hr] at hlt
    exact Nat.lt_irrefl _ hlt
  have hcases {q : VarRef} (hq : q < u.store.size) : q < t.store.size ∨ q = r := by
    rw [hsize] at hq
    rw [hr]
    exact Nat.lt_or_eq_of_le (Nat.le_of_lt_succ hq)
  refine ⟨fun m hm => ?_, fun q hpos hq => ?_, fun q hpos hq => ?_, fun q hpos hq => ?_,
    fun q hpos hq => ?_⟩
  · rw [hsize]
    rcases mem_append.mp hm with hm | hm
    · exact Nat.lt_succ_of_lt (h.mentioned m hm)
    · rw [mem_singleton.mp hm, Mention.var, hr]
      exact Nat.lt_succ_self _
  · rcases hcases hq with hq | rfl
    · exact mem_append_left _ (h.declared q hpos hq)
    · exact mem_append_right _ (mem_singleton_self _)
  · have hsame : Used (past ++ [.declared r]) q ↔ Used past q := by simp [used_concat]
    rw [hsame]
    rcases hcases hq with hq | rfl
    · rw [hold hq]
      exact h.accessed q hpos hq
    · rw [hvar]
      exact iff_of_false nofun fun hused => hfresh rfl hused.declared
  · have hsame : Mention.assigned q ∈ past ++ [.declared r] ↔ .assigned q ∈ past := by simp
    rw [hsame]
    rcases hcases hq with hq | rfl
    · rw [hold hq]
      exact h.modified q hpos hq
    · rw [hvar]
      exact iff_of_false nofun (hfresh rfl)
  · have hsame : Mention.parameter q ∈ past ++ [.declared r] ↔ .parameter q ∈ past := by simp
    rw [hsame]
    rcases hcases hq with hq | rfl
    · rw [hold hq]
      exact h.param q hpos hq
    · rw [hvar]
      exact iff_of_false nofun (hfresh rfl)

theorem discard (h : Marks t past) (hsize : 0 < t.store.size) :
    Marks t (past ++ [.assigned Table.discard]) where
  mentioned m hm := by
    rcases mem_append.mp hm with hm | hm
    · exact h.mentioned m hm
    · rw [mem_singleton.mp hm]
      exact hsize
  declared r hpos hr := mem_append_left _ (h.declared r hpos hr)
  accessed r hpos hr := by
    have hne : Table.discard ≠ r := Nat.ne_of_lt hpos
    rw [h.accessed r hpos hr, used_concat]
    simp [hne]
  modified r hpos hr := by
    have hne : r ≠ Table.discard := Nat.ne_of_gt hpos
    rw [h.modified r hpos hr]
    simp [hne]
  param r hpos hr := by
    rw [h.param r hpos hr]
    simp

end Marks

end

namespace Grammar

open Scoped

theorem readsOf_append (us vs : List Variable) :
    readsOf (us ++ vs) = readsOf us ++ readsOf vs := map_append

theorem find_eq_ok {s s' : Scoping} {r : VarRef} (h : find name s = .ok r s') :
    ∃ found, s.table.resolve? name.1.literal = some (r, found) ∧
      s' = { s with table := s.table.modify r fun v => { v with accessed := true } } := by
  have hrun := naming_apply [name.1] (fun meaning => meaning name.1.literal) s
  unfold find at h
  rw [hrun, Scoped.useAll, onTable, useAll_cons, Tree.use, if_pos name.2, Table.find?] at h
  cases hresolve : s.table.resolve? name.1.literal with
  | none =>
    rw [hresolve] at h
    cases h
  | some pair =>
    obtain ⟨q, found⟩ := pair
    have hvisible : s.table.visible name.1.literal = q := by simp [Table.visible, hresolve]
    rw [hresolve, hvisible] at h
    cases h
    exact ⟨found, rfl, rfl⟩

section

variable {s s' : Scoping} {scope : Scope} {around opens : List Scope} {closed : List Construct}
  {past : List Mention} {r : VarRef}

def firstFault (t : Table) (rs : List VarRef) : Option Diagnostic :=
  rs.findSome? fun r =>
    ((t.var r).usageFault? t.strict).map fun fault => ⟨(t.var r).pos, .unused (t.var r).name fault⟩

theorem firstFault_congr {t u : Table} (hstrict : u.strict = t.strict)
    (h : ∀ r ∈ rs, u.var r = t.var r) : firstFault u rs = firstFault t rs := by
  induction rs with
  | nil => rfl
  | cons r rest ih =>
    obtain ⟨hr, hrest⟩ := forall_mem_cons.mp h
    rw [firstFault, firstFault, findSome?_cons, findSome?_cons, hr, hstrict]
    rw [firstFault, firstFault, hstrict] at ih
    rw [ih hrest]

/-- What is known while names are resolved: the scopes that are open, the blocks that are closed
and what has been said of variables. A name means a variable of an open scope. A block was closed
by the scope that was opened for it, and the first fault is the one among the closed blocks. -/
structure Ledger (s : Scoping) (opens : List Scope) (closed : List Construct)
    (past : List Mention) : Prop where
  inner : s.table.inner.map Scope.face = opens
  booked : s.table.Booked (closed.map fun c => c.block.stop.scope)
  recorded : ∀ c ∈ closed, c.block.stop.scope.face = c.scope
  shared : (Table.discard :: (opens.flatMap Scope.vars ++ (closed.map Construct.vars).flatten)).Perm
    (List.range s.table.store.size)
  sorted : ∀ vars ∈ opens.map Scope.vars ++ closed.map Construct.vars, vars.Pairwise (· < ·)
  marks : Marks s.table past
  unused : s.unused = firstFault s.table ((closed.map Construct.vars).flatten)

namespace Ledger

variable {n : Nat}

section

variable (h : Ledger s opens closed past)

include h

theorem pos : 0 < s.table.store.size :=
  mem_range.mp (h.shared.mem_iff.mp mem_cons_self)

theorem nodup :
    (Table.discard :: (opens.flatMap Scope.vars ++ (closed.map Construct.vars).flatten)).Nodup :=
  h.shared.nodup_iff.mpr nodup_range

theorem next : s.table.nextScope = opens.length + closed.length + 1 := by
  have hlen := h.booked.numbers.length_eq
  rw [length_range] at hlen
  rw [← hlen, ← h.inner]
  simp only [length_map, length_append, length_singleton]
  omega

theorem live (hr : s.table.resolve? name = some (r, found)) :
    r < s.table.store.size ∧ r ∉ (closed.map Construct.vars).flatten := by
  obtain ⟨hdisc, hnodup⟩ := nodup_cons.mp h.nodup
  obtain ⟨scope, hscope, hlook⟩ := exists_of_findSome?_eq_some hr
  obtain ⟨q, hq, hpair⟩ := Option.map_eq_some_iff.mp hlook
  obtain ⟨rfl, -⟩ := Prod.mk.inj hpair
  have hvars := (h.booked.scopes scope (mem_append_right _ hscope)).mem_vars hq
  rcases mem_append.mp hscope with hscope | hscope
  · have hmem : q ∈ opens.flatMap Scope.vars := by
      rw [← h.inner]
      exact mem_flatMap.mpr ⟨scope.face, mem_map_of_mem hscope, hvars⟩
    refine ⟨mem_range.mp (h.shared.mem_iff.mp ?_), fun hclosed => ?_⟩
    · exact mem_cons_of_mem _ (mem_append_left _ hmem)
    · exact (nodup_append.mp hnodup).2.2 _ hmem _ hclosed rfl
  · rw [mem_singleton.mp hscope, h.booked.global] at hvars
    rw [mem_singleton.mp hvars]
    exact ⟨h.pos, fun hclosed => hdisc (mem_append_right _ hclosed)⟩

theorem mark (m : Mention) (hm : m.var < s.table.store.size)
    (hnew : ∀ r, m ≠ .declared r) (hopen : m.var ∉ (closed.map Construct.vars).flatten) :
    Ledger { s with table := s.table.modify m.var m.mark } opens closed (past ++ [m]) where
  inner := h.inner
  booked := h.booked.modify _ fun v => by
    cases m <;> exact { Var.Alike.refl v with }
  recorded := h.recorded
  shared := by
    rw [Table.size_modify]
    exact h.shared
  sorted := h.sorted
  marks := h.marks.mark m hm hnew
  unused := by
    have hsame : firstFault (s.table.modify m.var m.mark) ((closed.map Construct.vars).flatten) =
        firstFault s.table ((closed.map Construct.vars).flatten) :=
      firstFault_congr rfl fun r hr => Table.var_modify_of_ne _ _ fun heq => hopen (heq ▸ hr)
    exact h.unused.trans hsame.symm

theorem discard : Ledger s opens closed (past ++ [.assigned Table.discard]) :=
  { h with marks := h.marks.discard h.pos }

theorem enter (kind : ScopeKind) (comment : Bytes) (hn : opens.length + closed.length + 1 = n) :
    Ledger { s with table := s.table.enter kind comment } (⟨kind, comment, n, [], .empty⟩ :: opens)
      closed past where
  inner := congrArg₂ (fun n => List.cons (Scope.opened kind comment n)) (h.next.trans hn) h.inner
  booked := h.booked.enter kind comment
  recorded := h.recorded
  shared := h.shared
  sorted := forall_mem_cons.mpr ⟨.nil, h.sorted⟩
  marks := h.marks.of_store rfl
  unused := h.unused

end

/-- The variables of a scope are judged where it closes a block. -/
theorem exit (h : Ledger s (c.scope :: around) closed past)
    (hc : c.block.stop.scope = s.table.exit.scope) :
    Ledger ⟨s.table.exit.table, s.unused.or s.table.exit.unused⟩ around (closed ++ [c]) past := by
  obtain ⟨top, outer, hinner, htop, houter⟩ := map_eq_cons_iff.mp h.inner
  have hvars : top.vars = c.vars := congrArg Scope.vars htop
  have hbooked := h.booked.exit hinner
  rw [← hc] at hbooked
  rw [Table.exit_eq hinner] at hc hbooked ⊢
  refine ⟨houter, ?_, forall_mem_append.mpr ⟨h.recorded, ?_⟩, ?_, ?_, h.marks.of_store rfl, ?_⟩
  · rw [map_append]
    exact hbooked
  · refine forall_mem_singleton.mpr ?_
    rw [hc]
    exact htop
  · refine .trans (.cons _ ?_) h.shared
    rw [map_append, flatten_append, map_singleton, flatten_singleton,
      ← append_assoc]
    exact perm_append_comm.trans (append_assoc c.vars _ _ ▸ .refl _)
  · intro vars hmem
    refine h.sorted vars ?_
    simp only [map_append, map_cons, map_nil, mem_append, mem_cons,
      not_mem_nil, or_false] at hmem ⊢
    rcases hmem with hmem | hmem | rfl
    · exact .inl (.inr hmem)
    · exact .inr hmem
    · exact .inl (.inl rfl)
  · rw [firstFault, map_append, flatten_append, findSome?_append, map_singleton,
      flatten_singleton, h.unused, ← hvars]
    rfl

theorem declare (h : Ledger s (scope :: around) closed past) {name : Lexeme .name} {type : DataType}
    {mutable_ : Bool} {nullable : Nullability}
    (hrun : Scoped.declare name type mutable_ nullable s = .ok r s') :
    Ledger s' (scope.plus [r] :: around) closed (past ++ [.declared r]) := by
  unfold Scoped.declare at hrun
  cases hdeclare : s.table.declare name.1.literal type mutable_ nullable name.1.pos with
  | error d =>
    rw [hdeclare] at hrun
    cases hrun
  | ok q u =>
    rw [hdeclare] at hrun
    cases hrun
    have hmarks := h.marks.declare hdeclare
    have hbooked := h.booked.declare hdeclare
    obtain ⟨hr, hsize, -⟩ := Table.var_declare hdeclare
    obtain ⟨top, outer, hinner, hnone, -, hu⟩ := Table.declare_eq_ok hdeclare
    have hsome := h.inner
    rw [hinner, map_cons, List.cons.injEq] at hsome
    obtain ⟨rfl, houter⟩ := hsome
    have hbelow : ∀ q ∈ top.vars, q < r := fun q hq => by
      rw [hr]
      refine mem_range.mp (h.shared.mem_iff.mp ?_)
      exact mem_cons_of_mem _ (mem_append_left _ (mem_append_left _ hq))
    refine ⟨?_, hbooked, h.recorded, ?_, forall_mem_cons.mpr ⟨?_, ?_⟩, hmarks, ?_⟩
    · rw [hu]
      exact congrArg _ houter
    · change (_ : List VarRef).Perm (List.range u.store.size)
      rw [hsize, range_succ, hr]
      refine .trans ?_ (h.shared.append_right [s.table.store.size])
      simp only [flatMap_cons, Scope.plus, Scope.face, append_assoc, cons_append,
        nil_append]
      refine .cons _ (.append_left _ ?_)
      rw [← append_assoc]
      exact (perm_append_singleton _ _).symm
    · refine pairwise_append.mpr ⟨h.sorted _ mem_cons_self, pairwise_singleton _ _, ?_⟩
      intro a ha b hb
      rw [mem_singleton.mp hb]
      exact hbelow a ha
    · exact fun vars hvars => h.sorted vars (mem_cons_of_mem _ hvars)
    · have hold : ∀ q ∈ (closed.map Construct.vars).flatten, u.var q = s.table.var q := fun q hq => by
        have hlt : q < s.table.store.size := mem_range.mp (h.shared.mem_iff.mp
          (mem_cons_of_mem _ (mem_append_right _ hq)))
        rw [hu]
        exact s.table.var_push _ hlt
      exact h.unused.trans (firstFault_congr (by rw [hu]) hold).symm

section

variable (h : Ledger s opens closed past)

include h

theorem useAll {u : Table} (hu : Tree.useAll ts s.table = .ok () u) :
    Ledger { s with table := u } opens closed
      (past ++ readsOf (usesAt s.table.visible ts)) := by
  induction ts generalizing s past with
  | nil =>
    cases hu
    rw [usesAt, filter_nil, map_nil, readsOf, map_nil, append_nil]
    exact h
  | cons a rest ih =>
    rw [useAll_cons] at hu
    unfold Tree.use at hu
    by_cases hname : a.kind = .name
    · cases hresolve : s.table.resolve? a.literal with
      | none => simp [hname, Table.find?, hresolve] at hu
      | some pair =>
        obtain ⟨q, found⟩ := pair
        simp only [hname, if_true, Table.find?, hresolve, Option.map_some] at hu
        obtain ⟨hlt, hopen⟩ := h.live hresolve
        have hmark := h.mark (.read q) hlt (by rintro _ ⟨⟩) hopen
        have hrest := ih hmark hu
        have hvisible : s.table.visible a.literal = q := by simp [Table.visible, hresolve]
        have huses : readsOf (usesAt s.table.visible (a :: rest)) =
            .read q :: readsOf (usesAt s.table.visible rest) := by
          simp [usesAt, readsOf, hname, hvisible]
        rw [huses, append_cons]
        exact hrest
    · simp only [hname, if_false] at hu
      have huses : usesAt s.table.visible (a :: rest) = usesAt s.table.visible rest := by
        simp [usesAt, hname]
      rw [huses]
      exact ih h hu

theorem naming {α : Type} {f : (Bytes → VarRef) → α} {a : α} (hrun : (do
      let meaning ← meaning
      Scoped.useAll ts
      return f meaning : Scoped α) s = .ok a s') :
    ∃ meaning, a = f meaning ∧ Ledger s' opens closed (past ++ readsOf (usesAt meaning ts)) := by
  rw [naming_apply, Scoped.useAll, onTable] at hrun
  cases hall : Tree.useAll ts s.table with
  | error d u =>
    rw [hall] at hrun
    cases hrun
  | ok _ u =>
    rw [hall] at hrun
    cases hrun
    exact ⟨s.table.visible, rfl, h.useAll hall⟩

theorem terms (hrun : resolveTerms args s = .ok xs s') :
    Ledger s' opens closed (past ++ readsOf (usesIn xs)) := by
  have term {s s' : Scoping} {past : List Mention} {a : Term} {x : Expr}
      (h : Ledger s opens closed past) (hrun : Term.resolve a s = .ok x s') :
      Ledger s' opens closed (past ++ readsOf x.leafUses) := by
    obtain ⟨meaning, rfl, h'⟩ := h.naming hrun
    rw [leafUses_leafExpr]
    exact h'
  induction args generalizing s past xs with
  | nil =>
    cases hrun
    exact (append_nil past).symm ▸ h
  | last a =>
    obtain ⟨x, s₁, hx, hrun⟩ := bind_eq_ok hrun
    cases hrun
    rw [usesIn, flatMap_singleton]
    exact term h hx
  | cons a comma rest ih =>
    obtain ⟨x, s₁, hx, hrun⟩ := bind_eq_ok hrun
    obtain ⟨ys, s₂, hys, hrun⟩ := bind_eq_ok hrun
    cases hrun
    rw [usesIn, flatMap_cons, readsOf_append, ← append_assoc]
    exact ih (term h hx) hys

theorem call {c : Call} {x : Tree.Call} (hrun : c.resolve s = .ok x s') :
    Ledger s' opens closed (past ++ readsOf (usesIn x.args)) := by
  obtain ⟨xs, s₁, hxs, hrun⟩ := bind_eq_ok hrun
  cases hrun
  exact h.terms hxs

theorem rhs {value : Rhs} {x : Expr}
    (hrun : value.resolve s = .ok x s') : Ledger s' opens closed (past ++ readsOf x.uses) := by
  cases value with
  | call c =>
    obtain ⟨y, s₁, hy, hrun⟩ := bind_eq_ok hrun
    cases hrun
    exact h.call hy
  | arithmetic e =>
    obtain ⟨y, s₁, hy, hrun⟩ := bind_eq_ok hrun
    cases hrun
    obtain ⟨meaning, rfl, h'⟩ := h.naming hy
    rw [Expr.uses, Arithmetic.expression, usesIn_postOrder]
    exact h'

theorem find {name : Lexeme .name} (hrun : find name s = .ok r s') :
    Ledger s' opens closed (past ++ [.read r]) := by
  obtain ⟨meaning, rfl, h'⟩ := h.naming hrun
  have huses : readsOf (usesAt meaning [name.1]) = [.read (meaning name.1.literal)] := by
    simp [usesAt, readsOf, name.2]
  rw [huses] at h'
  exact h'

theorem assignTo (hrun : assignTo name s = .ok r s') :
    Ledger s' opens closed (past ++ [.assigned r]) := by
  obtain ⟨q, s₁, hfind, hrun⟩ := bind_eq_ok hrun
  obtain ⟨_, s₂, hmodify, hrun⟩ := bind_eq_ok hrun
  cases hmodify
  cases hrun
  obtain ⟨found, hresolve, rfl⟩ := find_eq_ok hfind
  obtain ⟨hlt, hopen⟩ := h.live hresolve
  have hmark := h.mark (.assigned r) hlt (by rintro _ ⟨⟩) hopen
  dsimp only
  rw [Table.modify_modify]
  exact hmark

end

theorem plain {p : Plain} {x : Stmt} (h : Ledger s (scope :: around) closed past)
    (hrun : p.resolve s = .ok x s') :
    (∀ n, x.constructs n = []) ∧
      Ledger s' (scope.plus x.reveals :: around) closed (past ++ x.mentions) := by
  have hsame : scope.plus [] = scope := by rw [Scope.plus, append_nil]
  cases p with
  | declare binder name mark eq value semi =>
    obtain ⟨y, s₁, hy, hrun⟩ := bind_eq_ok hrun
    obtain ⟨r, s₂, hr, hrun⟩ := bind_eq_ok hrun
    cases hrun
    have hdecl := (h.rhs hy).declare hr
    rw [append_assoc] at hdecl
    exact ⟨fun _ => rfl, hdecl⟩
  | drop target eq value semi =>
    obtain ⟨y, s₁, hy, hrun⟩ := bind_eq_ok hrun
    cases hrun
    refine ⟨fun _ => rfl, ?_⟩
    simpa [Stmt.reveals, hsame, Stmt.mentions] using h.discard.rhs hy
  | assign target eq value semi =>
    obtain ⟨r, s₁, hr, hrun⟩ := bind_eq_ok hrun
    obtain ⟨y, s₂, hy, hrun⟩ := bind_eq_ok hrun
    cases hrun
    refine ⟨fun _ => rfl, ?_⟩
    simpa [Stmt.reveals, hsame, Stmt.mentions] using (h.assignTo hr).rhs hy
  | call c semi =>
    obtain ⟨y, s₁, hy, hrun⟩ := bind_eq_ok hrun
    cases hrun
    refine ⟨fun _ => rfl, ?_⟩
    simpa [Stmt.reveals, hsame, Stmt.mentions] using h.call hy
  | «return» keyword value semi =>
    cases value with
    | none =>
      cases hrun
      refine ⟨fun _ => rfl, ?_⟩
      simpa [Stmt.reveals, hsame, Stmt.mentions] using h
    | some value =>
      obtain ⟨y, s₁, hy, hrun⟩ := bind_eq_ok hrun
      cases hrun
      refine ⟨fun _ => rfl, ?_⟩
      simpa [Stmt.reveals, hsame, Stmt.mentions] using h.rhs hy

theorem next_inside (scope : Scope) (hn : opens.length + closed.length + 1 = n) :
    (scope :: opens).length + closed.length + 1 = n + 1 := by
  rw [length_cons]
  omega

theorem next_behind (more : List Construct) (hn : opens.length + closed.length + 1 = n) :
    opens.length + (closed ++ more).length + 1 = n + more.length := by
  rw [length_append]
  omega

theorem guard {g : Guard} {kind : ScopeKind} {comment : Bytes} {x : Tree.Guard}
    (h : Ledger s opens closed past) (hn : opens.length + closed.length + 1 = n)
    (hrun : g.resolve kind comment s = .ok x s') :
    Ledger s' (⟨kind, comment, n, x.binding?.toList, .empty⟩ :: opens) closed
      (past ++ x.mentions) := by
  cases g with
  | compare opening left op right closing =>
    obtain ⟨c, s₁, hc, hrun⟩ := bind_eq_ok hrun
    obtain ⟨_, s₂, henter, hrun⟩ := bind_eq_ok hrun
    cases henter
    cases hrun
    obtain ⟨meaning, rfl, h'⟩ := h.naming hc
    have hop : op.1.kind ≠ .name := by
      intro hname
      have hrel := op.2
      rw [hname] at hrel
      cases hrel
    rw [usesAt_append, usesAt_of_not_name hop] at h'
    have hentered := h'.enter kind comment hn
    simpa [Guard.mentions, Guard.uses, Guard.binding?, Arithmetic.expression, usesIn_postOrder]
      using hentered
  | unwrap opening subject closing bar bound bar' =>
    obtain ⟨r, s₁, hr, hrun⟩ := bind_eq_ok hrun
    obtain ⟨_, s₂, henter, hrun⟩ := bind_eq_ok hrun
    cases henter
    obtain ⟨q, s₃, hq, hrun⟩ := bind_eq_ok hrun
    cases hrun
    have hbound := ((h.find hr).enter kind comment hn).declare hq
    simpa [Guard.mentions, Guard.uses, Guard.binding?, readsOf, Scope.plus] using hbound

theorem block {braces : Braces} {inside : Scoped (List Stmt)} {b : Block}
    (hins : ∀ {xs : List Stmt} {s₁ : Scoping}, inside s = .ok xs s₁ →
      Ledger s₁ (scope.plus (declaredBy xs) :: around) (closed ++ stmtsConstructs n xs)
        (past ++ stmtsMentions xs))
    (hscope : scope.index = .empty) (hrun : braces.block inside s = .ok b s') :
    Ledger s' around
      (closed ++ (stmtsConstructs n b.stmts ++
        [⟨scope.kind, scope.comment, scope.number, scope.vars, b⟩]))
      (past ++ stmtsMentions b.stmts) := by
  obtain ⟨xs, s₁, hxs, hrun⟩ := bind_eq_ok hrun
  obtain ⟨last, s₂, hexit, hrun⟩ := bind_eq_ok hrun
  cases hexit
  cases hrun
  rw [← append_assoc]
  refine exit ?_ rfl
  have hclosed := hins hxs
  rw [Scope.plus, hscope] at hclosed
  exact hclosed

/-- A run over statements. The induction is on the derivation, which opens and closes scopes
as the source does. -/
theorem body {b : Body} {xs : List Stmt} {n : Nat} (h : Ledger s (scope :: around) closed past)
    (hn : (scope :: around).length + closed.length + 1 = n) (hrun : b.resolve s = .ok xs s') :
    Ledger s' (scope.plus (declaredBy xs) :: around) (closed ++ stmtsConstructs n xs)
      (past ++ stmtsMentions xs) := by
  induction b generalizing s s' scope around closed past xs n with
  | done =>
    cases hrun
    simpa [declaredBy, Scope.plus, stmtsConstructs, stmtsMentions] using h
  | plain p rest ih =>
    obtain ⟨x, s₁, hx, hrun⟩ := bind_eq_ok hrun
    obtain ⟨ys, s₂, hys, hrun⟩ := bind_eq_ok hrun
    cases hrun
    obtain ⟨hnone, hx⟩ := h.plain hx
    have hrest := ih hx hn hys
    simpa [declaredBy, Scope.plus, stmtsConstructs, stmtsMentions, hnone] using hrest
  | branch keyword g braces yes rest ihyes ih =>
    obtain ⟨x, s₁, hx, hrun⟩ := bind_eq_ok hrun
    obtain ⟨ys, s₂, hys, hrun⟩ := bind_eq_ok hrun
    cases hrun
    obtain ⟨g', s₃, hg, hx⟩ := bind_eq_ok hx
    obtain ⟨b, s₄, hb, hx⟩ := bind_eq_ok hx
    cases hx
    have hthen := block (ihyes (h.guard hn hg) (next_inside _ hn)) rfl hb
    have hrest := ih hthen (next_behind _ hn) hys
    simpa [declaredBy, stmtsConstructs, stmtsMentions, Stmt.constructs, Stmt.mentions, Stmt.reveals]
      using hrest
  | branchElse keyword g braces yes otherwise braces' no rest ihyes ihno ih =>
    obtain ⟨x, s₁, hx, hrun⟩ := bind_eq_ok hrun
    obtain ⟨ys, s₂, hys, hrun⟩ := bind_eq_ok hrun
    cases hrun
    obtain ⟨g', s₃, hg, hx⟩ := bind_eq_ok hx
    obtain ⟨b, s₄, hb, hx⟩ := bind_eq_ok hx
    obtain ⟨e, s₅, he, hx⟩ := bind_eq_ok hx
    cases hx
    obtain ⟨_, s₆, henter, he⟩ := bind_eq_ok he
    cases henter
    obtain ⟨c, s₇, hc, he⟩ := bind_eq_ok he
    cases he
    have hthen := block (ihyes (h.guard hn hg) (next_inside _ hn)) rfl hb
    have helse := block (ihno (hthen.enter .branch "else" (next_behind _ hn))
      (next_inside _ (next_behind _ hn))) rfl hc
    have hrest := ih helse (next_behind _ (next_behind _ hn)) hys
    simpa [declaredBy, stmtsConstructs, stmtsMentions, Stmt.constructs, Stmt.mentions, Stmt.reveals,
      Nat.add_assoc, Nat.add_comm 1] using hrest
  | loop keyword g braces body rest ihbody ih =>
    obtain ⟨x, s₁, hx, hrun⟩ := bind_eq_ok hrun
    obtain ⟨ys, s₂, hys, hrun⟩ := bind_eq_ok hrun
    cases hrun
    obtain ⟨g', s₃, hg, hx⟩ := bind_eq_ok hx
    obtain ⟨b, s₄, hb, hx⟩ := bind_eq_ok hx
    cases hx
    have hins := block (ihbody (h.guard hn hg) (next_inside _ hn)) rfl hb
    have hrest := ih hins (next_behind _ hn) hys
    simpa [declaredBy, stmtsConstructs, stmtsMentions, Stmt.constructs, Stmt.mentions, Stmt.reveals]
      using hrest

theorem parameters
    (h : Ledger s (scope :: around) closed past) (hrun : resolveParameters ps s = .ok rs s') :
    Ledger s' (scope.plus rs :: around) closed
      (past ++ rs.flatMap fun r => [.declared r, .parameter r]) := by
  have parameter {s s' : Scoping} {scope : Scope} {past : List Mention} {p : Parameter}
      {r : VarRef} (h : Ledger s (scope :: around) closed past) (hrun : p.resolve s = .ok r s') :
      Ledger s' (scope.plus [r] :: around) closed (past ++ [.declared r, .parameter r]) := by
    obtain ⟨q, s₁, hq, hrun⟩ := bind_eq_ok hrun
    obtain ⟨_, s₂, hmodify, hrun⟩ := bind_eq_ok hrun
    cases hmodify
    cases hrun
    have hdecl := h.declare hq
    obtain ⟨-, hnodup⟩ := nodup_cons.mp hdecl.nodup
    have hmem : r ∈ (scope.plus [r] :: around).flatMap Scope.vars :=
      mem_append_left _ (mem_append_right _ (mem_singleton_self r))
    have hlt : r < s₁.table.store.size := mem_range.mp (hdecl.shared.mem_iff.mp
      (mem_cons_of_mem _ (mem_append_left _ hmem)))
    have hopen : r ∉ (closed.map Construct.vars).flatten := fun hclosed =>
      (nodup_append.mp hnodup).2.2 r hmem r hclosed rfl
    have hmark := hdecl.mark (.parameter r) hlt (by rintro _ ⟨⟩) hopen
    rw [append_assoc] at hmark
    exact hmark
  induction ps generalizing s scope past rs with
  | nil =>
    cases hrun
    simpa [Scope.plus] using h
  | last p =>
    obtain ⟨r, s₁, hr, hrun⟩ := bind_eq_ok hrun
    cases hrun
    simpa using parameter h hr
  | cons p comma rest ih =>
    obtain ⟨r, s₁, hr, hrun⟩ := bind_eq_ok hrun
    obtain ⟨qs, s₂, hqs, hrun⟩ := bind_eq_ok hrun
    cases hrun
    simpa [Scope.plus] using ih (parameter h hr) hqs

theorem function {f : Function} {fn : Tree.Function} (h : Ledger s opens closed past)
    (hn : opens.length + closed.length + 1 = n) (hrun : f.resolve s = .ok fn s') :
    Ledger s' opens (closed ++ fn.constructs n) (past ++ fn.mentions) := by
  obtain ⟨_, s₁, henter, hrun⟩ := bind_eq_ok hrun
  cases henter
  obtain ⟨params, s₂, hparams, hrun⟩ := bind_eq_ok hrun
  obtain ⟨b, s₃, hb, hrun⟩ := bind_eq_ok hrun
  cases hrun
  have hstart := (h.enter .function f.name.1.literal hn).parameters hparams
  have hblock := block (hstart.body (next_inside _ hn)) rfl hb
  simpa [Function.constructs, Function.mentions, Scope.plus] using hblock

theorem functions {fs : List Function} {fns : List Tree.Function}
    (h : Ledger s opens closed past) (hn : opens.length + closed.length + 1 = n)
    (hrun : resolveFunctions fs s = .ok fns s') :
    Ledger s' opens (closed ++ functionsConstructs n fns)
      (past ++ fns.flatMap Tree.Function.mentions) := by
  induction fs generalizing s closed past fns n with
  | nil =>
    cases hrun
    simpa [functionsConstructs] using h
  | cons f rest ih =>
    obtain ⟨fn, s₁, hfn, hrun⟩ := bind_eq_ok hrun
    obtain ⟨fns', s₂, hfns, hrun⟩ := bind_eq_ok hrun
    cases hrun
    have hrest := ih (h.function hn hfn) (next_behind _ hn) hfns
    simpa [functionsConstructs] using hrest

theorem fresh (hash : NameHash) (strict : Bool) (funcs : Registry) :
    Ledger ⟨{ Table.fresh hash strict with funcs }, none⟩ [] [] [] where
  inner := rfl
  booked := (Table.Booked.fresh hash strict).withFuncs funcs
  recorded _ hc := nomatch hc
  shared := .refl _
  sorted _ hvars := nomatch hvars
  marks := by
    have hsize (r : VarRef) (hpos : 0 < r) (hr : r < 1) : False :=
      Nat.not_lt_of_le (Nat.le_of_lt_succ hr) hpos
    exact ⟨fun m hm => (by cases hm), fun r hpos hr => (hsize r hpos hr).elim, fun r hpos hr => (hsize r hpos hr).elim,
      fun r hpos hr => (hsize r hpos hr).elim, fun r hpos hr => (hsize r hpos hr).elim⟩
  unused := rfl

end Ledger

end

theorem Program.Accepted.ledger {p : Program} {hash : NameHash} {strict : Bool} {parsed : Parsed}
    {t : Table} (h : p.Accepted hash strict parsed t) :
    Ledger ⟨t, parsed.unused⟩ [] parsed.program.constructs parsed.program.mentions := by
  have hresolve := h.resolve
  obtain ⟨fns, s, hfns, hprog⟩ := bind_eq_ok hresolve
  obtain ⟨hfile, hs⟩ := EStateM.Result.ok.inj hprog
  rw [← hfile, ← hs]
  exact (Ledger.fresh hash strict t.funcs).functions rfl hfns

section

variable {t : Table} {ms : List Mention} {r : VarRef} {strict : Bool}

/-- A variable that rules of use are about: neither a parameter nor `_`. -/
structure Judged (t : Table) (ms : List Mention) (r : VarRef) : Prop where
  lt_size : r < t.store.size
  param : .parameter r ∉ ms
  discard : (t.var r).isDiscard = false

/-- The rules of use: a variable is mentioned behind its declaration, and, if the rules are
strict, a `var` is assigned. -/
def Obeys (strict : Bool) (v : Var) (ms : List Mention) (r : VarRef) : Prop :=
  Used ms r ∧ (strict = true → v.mutable_ = true → .assigned r ∈ ms)

inductive Breaks (strict : Bool) (v : Var) (ms : List Mention) (r : VarRef) : UsageFault → Prop where
  | neverRead (h : ¬ Used ms r) : Breaks strict v ms r .neverRead
  | neverModified (hused : Used ms r) (hstrict : strict = true) (hmutable : v.mutable_ = true)
      (h : .assigned r ∉ ms) : Breaks strict v ms r .neverModified

theorem not_obeys_iff :
    ¬ Obeys strict v ms r ↔ ∃ fault, Breaks strict v ms r fault := by
  constructor
  · intro h
    by_cases hused : Used ms r
    · refine ⟨.neverModified, ?_⟩
      refine Classical.byContradiction fun hbreaks => h ⟨hused, fun hstrict hmut => ?_⟩
      exact Classical.byContradiction fun hassigned =>
        hbreaks (.neverModified hused hstrict hmut hassigned)
    · exact ⟨.neverRead, .neverRead hused⟩
  · rintro ⟨fault, hbreaks⟩ ⟨hused, hassigned⟩
    cases hbreaks with
    | neverRead h => exact h hused
    | neverModified _ hstrict hmut h => exact h (hassigned hstrict hmut)

theorem Judged.pos (hcons : t.Consistent) (h : Judged t ms r) : 0 < r := by
  refine Nat.pos_of_ne_zero ?_
  rintro rfl
  have hdisc := (Typing.isDiscard_iff hcons h.lt_size).mpr rfl
  rw [h.discard] at hdisc
  cases hdisc

theorem usageFault?_eq_some_iff (hmarks : Marks t ms) (hpos : 0 < r) (hr : r < t.store.size) :
    (t.var r).usageFault? strict = some fault ↔
      Judged t ms r ∧ Breaks strict (t.var r) ms r fault := by
  have haccessed := hmarks.accessed r hpos hr
  have hmodified := hmarks.modified r hpos hr
  have hparam := hmarks.param r hpos hr
  unfold Var.usageFault?
  by_cases hexempt : ((t.var r).param || (t.var r).isDiscard) = true
  · rw [if_pos hexempt]
    refine iff_of_false (Option.some_ne_none fault).symm ?_
    rintro ⟨hjudged, -⟩
    rcases Bool.or_eq_true_iff.mp hexempt with h | h
    · exact hjudged.param (hparam.mp h)
    · exact Bool.false_ne_true (hjudged.discard.symm.trans h)
  · have hjudged : Judged t ms r := by
      rw [Bool.or_eq_true, not_or, Bool.not_eq_true, Bool.not_eq_true] at hexempt
      refine ⟨hr, fun h => ?_, hexempt.2⟩
      exact Bool.false_ne_true (hexempt.1.symm.trans (hparam.mpr h))
    rw [if_neg hexempt]
    by_cases hread : (t.var r).accessed = true
    · have hused := haccessed.mp hread
      simp only [hread, Bool.not_true, Bool.false_eq_true, if_false]
      by_cases hnever : (strict && (t.var r).mutable_ && !(t.var r).modified) = true
      · rw [if_pos hnever]
        simp only [Bool.and_eq_true, Bool.not_eq_true'] at hnever
        obtain ⟨⟨hstrict, hmut⟩, hunmod⟩ := hnever
        have hassigned : .assigned r ∉ ms := fun h =>
          Bool.false_ne_true (hunmod.symm.trans (hmodified.mpr h))
        constructor
        · intro h
          cases h
          exact ⟨hjudged, .neverModified hused hstrict hmut hassigned⟩
        · rintro ⟨-, hbreaks⟩
          cases hbreaks with
          | neverRead h => exact absurd hused h
          | neverModified => rfl
      · rw [if_neg hnever]
        refine iff_of_false (Option.some_ne_none fault).symm ?_
        rintro ⟨-, hbreaks⟩
        cases hbreaks with
        | neverRead h => exact h hused
        | neverModified _ hstrict hmut h =>
          have hunmod : (t.var r).modified = false :=
            Bool.eq_false_iff.mpr fun hmark => h (hmodified.mp hmark)
          exact hnever (by simp [hstrict, hmut, hunmod])
    · have hunused : ¬ Used ms r := fun h => hread (haccessed.mpr h)
      simp only [hread, Bool.not_false, if_true]
      constructor
      · intro h
        cases h
        exact ⟨hjudged, .neverRead hunused⟩
      · rintro ⟨-, hbreaks⟩
        cases hbreaks with
        | neverRead => rfl
        | neverModified hused => exact absurd hused hunused

theorem usageFault?_eq_none_iff (hmarks : Marks t ms) (hpos : 0 < r) (hr : r < t.store.size) :
    (t.var r).usageFault? strict = none ↔ (Judged t ms r → Obeys strict (t.var r) ms r) := by
  rw [Option.eq_none_iff_forall_ne_some]
  constructor
  · intro h hjudged
    refine Classical.byContradiction fun hobeys => ?_
    obtain ⟨fault, hbreaks⟩ := not_obeys_iff.mp hobeys
    exact h fault ((usageFault?_eq_some_iff hmarks hpos hr).mpr ⟨hjudged, hbreaks⟩)
  · intro h fault hfault
    obtain ⟨hjudged, hbreaks⟩ := (usageFault?_eq_some_iff hmarks hpos hr).mp hfault
    exact not_obeys_iff.mpr ⟨fault, hbreaks⟩ (h hjudged)

theorem exists_of_findSome?_flatten (h : ls.flatten.findSome? f = some b) :
    ∃ before l after front a back, ls = before ++ l :: after ∧ l = front ++ a :: back ∧
      (∀ x ∈ before.flatten ++ front, f x = none) ∧ f a = some b := by
  induction ls with
  | nil => cases h
  | cons l rest ih =>
    rw [flatten_cons, findSome?_append] at h
    cases hl : l.findSome? f with
    | some c =>
      rw [hl] at h
      cases h
      obtain ⟨front, a, back, rfl, ha, hfront⟩ := findSome?_eq_some_iff.mp hl
      exact ⟨[], _, rest, front, a, back, rfl, rfl, hfront, ha⟩
    | none =>
      rw [hl, Option.none_or] at h
      obtain ⟨before, l', after, front, a, back, rfl, hl', hfront, ha⟩ := ih h
      refine ⟨l :: before, l', after, front, a, back, rfl, hl', ?_, ha⟩
      rw [flatten_cons, append_assoc]
      exact forall_mem_append.mpr ⟨findSome?_eq_none_iff.mp hl, hfront⟩

namespace Ledger

variable {closed : List Construct}

theorem declared (h : Ledger ⟨t, d⟩ [] closed ms) (hr : r ∈ (closed.map Construct.vars).flatten) :
    0 < r ∧ r < t.store.size := by
  have hshared : (Table.discard :: (closed.map Construct.vars).flatten).Perm
      (List.range t.store.size) := h.shared
  refine ⟨Nat.pos_of_ne_zero ?_, mem_range.mp (hshared.mem_iff.mp (.tail _ hr))⟩
  rintro rfl
  exact (nodup_cons.mp h.nodup).1 hr

theorem unused_eq_none_iff (h : Ledger ⟨t, d⟩ [] closed ms) :
    d = none ↔ ∀ r ∈ (closed.map Construct.vars).flatten,
      Judged t ms r → Obeys t.strict (t.var r) ms r := by
  have hunused : d = firstFault t (closed.map Construct.vars).flatten := h.unused
  rw [hunused, firstFault, findSome?_eq_none_iff]
  refine forall₂_congr fun r hr => ?_
  rw [Option.map_eq_none_iff]
  exact usageFault?_eq_none_iff h.marks (h.declared hr).1 (h.declared hr).2

theorem exists_of_unused {d : Diagnostic} (h : Ledger ⟨t, some d⟩ [] closed ms) :
    ∃ before scope after front r back fault,
      closed.map Construct.vars = before ++ scope :: after ∧ scope = front ++ r :: back ∧
        (∀ q ∈ before.flatten ++ front, Judged t ms q → Obeys t.strict (t.var q) ms q) ∧
        Judged t ms r ∧ Breaks t.strict (t.var r) ms r fault ∧
        d = ⟨(t.var r).pos, .unused (t.var r).name fault⟩ := by
  have hunused : some d = firstFault t (closed.map Construct.vars).flatten := h.unused
  obtain ⟨before, scope, after, front, r, back, hclosed, rfl, hbef, hr⟩ :=
    exists_of_findSome?_flatten hunused.symm
  have hmem {q : VarRef} (hq : q ∈ before.flatten ++ (front ++ r :: back)) :
      q ∈ (closed.map Construct.vars).flatten := by
    rw [hclosed, flatten_append, flatten_cons, ← append_assoc]
    exact mem_append_left _ hq
  obtain ⟨hpos, hlt⟩ := h.declared (hmem (by simp : r ∈ _))
  obtain ⟨fault, hfault, rfl⟩ := Option.map_eq_some_iff.mp hr
  obtain ⟨hjudged, hbreaks⟩ := (usageFault?_eq_some_iff h.marks hpos hlt).mp hfault
  refine ⟨before, _, after, front, r, back, fault, hclosed, rfl, fun q hq => ?_, hjudged, hbreaks,
    rfl⟩
  have hq' : q ∈ before.flatten ++ (front ++ r :: back) := by
    rw [← append_assoc]
    exact mem_append_left _ hq
  obtain ⟨hpos, hlt⟩ := h.declared (hmem hq')
  exact (usageFault?_eq_none_iff h.marks hpos hlt).mp (Option.map_eq_none_iff.mp (hbef q hq))

end Ledger

end

/-- The report of unused variables is exact: there is none exactly if all variables but
parameters and `_` obey the rules of use, and otherwise it names the first variable that does
not in the scope that is closed first among those with such a variable. The mentions are those
of a derivation of the tokens, with each use linked to the declaration that it refers to. All
variables stand in the scopes, each in the order of the declarations. A variable is taken for
`_` only if its number is a multiple of 2³². -/
theorem parse_unused_exact (tokens : List Token) (hash : NameHash) (strict : Bool)
    (parsed : Parsed) (t : Table)
    (hparse : parse (.ofTokens tokens) (.fresh hash strict) = .ok parsed t) :
    (parsed.unused = none ↔ ∀ r, Judged t parsed.program.mentions r →
      Obeys strict (t.var r) parsed.program.mentions r) ∧
    (parsed.unused ≠ none → ∃ before scope after front r back fault,
      parsed.program.closings = before ++ scope :: after ∧ scope = front ++ r :: back ∧
        (∀ q ∈ before.flatten ++ front, Judged t parsed.program.mentions q →
          Obeys strict (t.var q) parsed.program.mentions q) ∧
        Judged t parsed.program.mentions r ∧
        Breaks strict (t.var r) parsed.program.mentions r fault ∧
        parsed.unused = some ⟨(t.var r).pos, .unused (t.var r).name fault⟩) ∧
    (∃ (p : Program) (behind : List Token),
      p.tokens ++ behind = (TokenBuffer.ofTokens tokens).items ∧ p.Depicts t parsed.program ∧
        Linked parsed.program.uses p.sites) ∧
    (Table.discard :: parsed.program.closings.flatten).Perm (List.range t.store.size) ∧
    (∀ scope ∈ parsed.program.closings, scope.Pairwise (· < ·)) ∧
    ∀ r < t.store.size, (t.var r).isDiscard = true ↔ r % UInt32.size = 0 := by
  obtain ⟨p, behind, htoks, hacc⟩ :=
    exists_accepted_tokens (TokenBuffer.last_ofTokens tokens) hparse
  have hledger := hacc.ledger
  have hclosings : parsed.program.closings = parsed.program.constructs.map Construct.vars :=
    (vars_functionsConstructs 1 parsed.program.functions).symm
  have hstrict : t.strict = strict := hacc.later.strict
  rw [hclosings]
  have hshared : (Table.discard :: (parsed.program.constructs.map Construct.vars).flatten).Perm
      (List.range t.store.size) := hledger.shared
  refine ⟨?_, fun hsome => ?_, ⟨p, behind, htoks, hacc.depicts, hacc.resolved.1⟩, hshared,
    hledger.sorted, fun r hr => Typing.isDiscard_iff hacc.consistent hr⟩
  · rw [hledger.unused_eq_none_iff, hstrict]
    constructor
    · intro h r hjudged
      have hr := hshared.mem_iff.mpr (mem_range.mpr hjudged.lt_size)
      have hpos := hjudged.pos hacc.consistent
      exact h r ((mem_cons.mp hr).resolve_left (Nat.ne_of_gt hpos)) hjudged
    · exact fun h r _ => h r
  · obtain ⟨d, hd⟩ := Option.ne_none_iff_exists'.mp hsome
    rw [hd] at hledger
    obtain ⟨before, scope, after, front, r, back, fault, hscopes, hscope, hbef, hjudged, hbreaks,
      rfl⟩ := hledger.exists_of_unused
    rw [hstrict] at hbef hbreaks
    exact ⟨before, scope, after, front, r, back, fault, hscopes, hscope, hbef, hjudged, hbreaks,
      hd⟩

/-- A program with `const a = ifj.readi32(); const x = ifj.readi32(); if (x) |y| { }` as its
`main`. -/
def Program.idle : Program :=
  .ofFunctions [.simple "main" <| .plain (.reading "a") <| .plain (.reading "x") <|
    .branch (lexeme .kwIf "if") (.binding "y") .sample .done .done]

/-- Neither `a` nor `y` is used. The scope of `y` is closed first. -/
theorem parse_unused_exact_idle :
    ∃ parsed t, parse (.ofTokens Program.idle.tokens) (.fresh (fun _ => 0) true) = .ok parsed t ∧
      parsed.program.closings = [[3], [1, 2]] ∧
      ∃ before scope after front r back fault,
        parsed.program.closings = before ++ scope :: after ∧ scope = front ++ r :: back ∧
          Judged t parsed.program.mentions r ∧
          Breaks true (t.var r) parsed.program.mentions r fault ∧
          (t.var r).name = Bytes.ofString "y" := by
  obtain ⟨parsed, t, hparse, hclosings, hcause⟩ : ∃ parsed t,
      parse (.ofTokens Program.idle.tokens) (.fresh (fun _ => 0) true) = .ok parsed t ∧
        parsed.program.closings = [[3], [1, 2]] ∧
        parsed.unused.map (·.cause) = some (.unused (Bytes.ofString "y") .neverRead) := by
    decide +kernel
  obtain ⟨-, hunused, -⟩ := parse_unused_exact _ _ _ _ _ hparse
  have hsome : parsed.unused ≠ none := by
    intro hnone
    rw [hnone] at hcause
    cases hcause
  obtain ⟨before, scope, after, front, r, back, fault, hscopes, hscope, -, hjudged, hbreaks, hr⟩ :=
    hunused hsome
  rw [hr] at hcause
  have hname : (t.var r).name = Bytes.ofString "y" :=
    (Cause.unused.inj (Option.some.inj hcause)).1
  exact ⟨parsed, t, hparse, hclosings, before, scope, after, front, r, back, fault, hscopes, hscope,
    hjudged, hbreaks, hname⟩

end Grammar

end Ifj24
