import Mathlib.Data.List.Nodup
import Ifj24.Proofs.Boundary
import Ifj24.Proofs.Closure
import Ifj24.Proofs.Renumbering
import Ifj24.Proofs.TwinChecking

/-!
The order of functions. What earlier functions leave behind, in the table of symbols, in the
registry or in the counters, decides nothing about a later one but its numbers. So a program passes
if its names fit together and each of its functions passes, wherever that stands.
-/

open List

namespace Ifj24.Grammar

open Ifj24.Tree Typing Code FuncDef

section

variable {strict : Bool} {ds : List FuncDef} {hash : NameHash} {t u : Table}

def definedBy (ds : List FuncDef) (name : Bytes) : Option FuncDef :=
  (builtins ++ ds).find? (·.name == name)

theorem find?_perm (hperm : ds.Perm es) (hnodup : (ds.map name).Nodup)
    (name : Bytes) : ds.find? (·.name == name) = es.find? (·.name == name) := by
  cases hds : ds.find? (·.name == name) with
  | none =>
    symm
    rw [find?_eq_none] at hds ⊢
    exact fun d hd => hds d (hperm.mem_iff.mpr hd)
  | some d =>
    have hd := mem_of_find?_eq_some hds
    have hname := find?_some hds
    cases hes : es.find? (·.name == name) with
    | none =>
      rw [find?_eq_none] at hes
      exact absurd hname (hes d (hperm.mem_iff.mp hd))
    | some e =>
      have he := hperm.mem_iff.mpr (mem_of_find?_eq_some hes)
      have hname' := find?_some hes
      have heq : d.name = e.name := (eq_of_beq hname).trans (eq_of_beq hname').symm
      rw [inj_on_of_nodup_map hnodup hd he heq]

theorem definedBy_perm (hperm : ds.Perm es)
    (hnodup : (ds.map name).Nodup) : definedBy ds = definedBy es := by
  funext name
  rw [definedBy, definedBy, find?_append, find?_append, find?_perm hperm hnodup]

theorem exists_register (hnodup : (ds.map name).Nodup)
    (hnew : ∀ d ∈ ds, t.lookupFunction? d.name = none) : ∃ u, register ds t = .ok () u := by
  induction ds generalizing t with
  | nil => exact ⟨t, rfl⟩
  | cons d rest ih =>
    rw [map_cons, nodup_cons] at hnodup
    have hadd : ∃ t', t.addFunction d = .ok () t' := by
      have hnone : t.funcs.lookup? t.hash d.name = none := hnew d mem_cons_self
      unfold Table.addFunction Registry.add
      rw [hnone]
      exact ⟨_, rfl⟩
    obtain ⟨t', ht'⟩ := hadd
    obtain ⟨-, -, -, -, -, hothers⟩ := Table.addFunction_eq_ok ht'
    obtain ⟨u, hu⟩ := ih hnodup.2 fun e he => by
      have hne : e.name ≠ d.name := fun heq => hnodup.1 (heq ▸ mem_map_of_mem he)
      rw [hothers e.name hne]
      exact hnew e (mem_cons_of_mem d he)
    refine ⟨u, ?_⟩
    rw [register, bind_apply, ht']
    exact hu

theorem boundary_of_register (h : register ds (.fresh hash strict) = .ok () u) :
    Boundary hash strict (definedBy ds) 1 u := by
  obtain ⟨hu, horder, hfaith, -⟩ := register_eq_ok h
  rw [hu]
  exact {
    hash := rfl
    strict := rfl
    defined := fun name => by
      have hlook := hfaith (Registry.faithful_ofList hash builtins) name
      rw [horder] at hlook
      exact hlook
    shows := (shows_fresh hash strict).withFuncs u.funcs
    discard := .refl _
    outermost := fun r hr => mem_singleton.mp hr }

theorem checkMain_congr
    (h : ∀ name, u.lookupFunction? name = t.lookupFunction? name) (ht : checkMain last t = .ok () t) :
    checkMain last u = .ok () u := by
  unfold checkMain at ht ⊢
  rw [bind_apply, get_apply] at ht ⊢
  dsimp only at ht ⊢
  rw [h]
  generalize t.lookupFunction? (Bytes.ofString "main") = main at ht ⊢
  cases main with
  | none => cases ht
  | some main =>
    dsimp only at ht ⊢
    split at ht
    · cases ht
    · rename_i hfits
      rw [if_neg hfits]
      rfl

theorem register_perm (hperm : ds.Perm es) (h : register ds (.fresh hash strict) = .ok () t)
    (hmain : checkMain last t = .ok () t) :
    ∃ u, register es (.fresh hash strict) = .ok () u ∧ checkMain last u = .ok () u ∧
      definedBy es = definedBy ds := by
  obtain ⟨-, -, -, -, hnew, hnodup⟩ := register_eq_ok h
  have hdef := definedBy_perm hperm hnodup
  obtain ⟨u, hu⟩ := exists_register
    ((hperm.map name).nodup_iff.mp hnodup) fun d hd => (hnew d (hperm.mem_iff.mpr hd)).1
  refine ⟨u, hu, checkMain_congr (fun name => ?_) hmain, hdef.symm⟩
  rw [(boundary_of_register hu).defined, (boundary_of_register h).defined, hdef]

end

section

variable {hash : NameHash} {strict : Bool} {defined : Bytes → Option FuncDef} {m n : Nat}
  {t u : Table} {f : Function} {fn fn' : Tree.Function} {c c' : CheckState}
  {message : Option Bytes}

/-- The check has come to the function behind `m` variables of a parsed program. -/
structure Reaches (defined : Bytes → Option FuncDef) (u : Table) (m : Nat) (c : CheckState) :
    Prop where
  front : Front u m c.table
  blank : Blank c.table
  defined : ∀ name, c.table.lookupFunction? name = defined name

theorem knownAlike_of_reaches (hfn : f.Resolved hash strict defined t m fn)
    (hfn' : f.Resolved hash strict defined u n fn')
    (hf : defined f.name.1.literal = some f.signature) (hc : Reaches defined t m c)
    (hc' : Reaches defined u n c') (hm : m + f.count ≤ UInt32.size)
    (hn : n + f.count ≤ UInt32.size) : KnownAlike (Paired m n f.count) c.table c'.table := by
  obtain ⟨-, t', u', htwin, ht, hu⟩ := hfn.twin hfn' hf
  have hknown := KnownAlike.of_twin htwin (agree_of_le htwin.left.pos hm htwin.right.pos hn)
  have hleft (i : Nat) (hi : i < f.count) : (t'.var (m + i)).Alike (c.table.var (m + i)) := by
    rw [hc.front.ahead _ (Nat.le_add_right m i)]
    exact ht.alike _ (htwin.left.size ▸ Nat.add_lt_add_left hi m)
  have hright (i : Nat) (hi : i < f.count) : (u'.var (n + i)).Alike (c'.table.var (n + i)) := by
    rw [hc'.front.ahead _ (Nat.le_add_right n i)]
    exact hu.alike _ (htwin.right.size ▸ Nat.add_lt_add_left hi n)
  exact {
    funcs := fun name => by
      rw [hc.defined, hc'.defined]
      cases defined name with
      | none => exact .none
      | some g => exact .some (.mk g g.pos)
    vars := fun r s hrs => by
      cases hrs with
      | discard =>
        have hv := hc.blank.declared
        have hw := hc'.blank.declared
        exact ⟨hw.name.trans hv.name.symm, hw.type.trans hv.type.symm,
          hw.mutable_.trans hv.mutable_.symm, hw.nullable.trans hv.nullable.symm⟩
      | own i hi =>
        have hvar := hknown.vars _ _ (.own i hi)
        have hv := hleft i hi
        have hw := hright i hi
        exact ⟨by rw [hw.name, hv.name, hvar.name], by rw [hw.type, hv.type, hvar.type],
          by rw [hw.mutable_, hv.mutable_, hvar.mutable_],
          by rw [hw.nullable, hv.nullable, hvar.nullable]⟩
    discards := fun r s hrs => by
      cases hrs with
      | discard => rw [hc.blank.isDiscard, hc'.blank.isDiscard]
      | own i hi =>
        have hdisc := hknown.discards _ _ (.own i hi)
        rw [Var.isDiscard, Var.isDiscard] at hdisc ⊢
        rw [(hleft i hi).id, (hright i hi).id, hdisc]
    left_blank := hc.blank
    right_blank := hc'.blank
    left_lt := fun r s hrs => by
      rw [hc.front.size]
      exact Nat.lt_of_lt_of_le (hknown.left_lt r s hrs) ht.size
    right_lt := fun r s hrs => by
      rw [hc'.front.size]
      exact Nat.lt_of_lt_of_le (hknown.right_lt r s hrs) hu.size }

/-- Where it stands in a program, the function passes the check and is annotated as `fn`. -/
def Function.Checked (hash : NameHash) (strict : Bool) (defined : Bytes → Option FuncDef)
    (u : Table) (m : Nat) (f : Function) (fn : Tree.Function) : Prop :=
  ∃ parsed c message c', f.Resolved hash strict defined u m parsed ∧ Reaches defined u m c ∧
    function parsed c = ((⟨fn, none⟩, message), c')

theorem function_alike_of_reaches (hfn : f.Resolved hash strict defined t m fn)
    (hfn' : f.Resolved hash strict defined u n fn')
    (hf : defined f.name.1.literal = some f.signature) (hc : Reaches defined t m c)
    (hc' : Reaches defined u n c') (hm : m + f.count ≤ UInt32.size)
    (hn : n + f.count ≤ UInt32.size) :
    JudgedAlike (Paired m n f.count) (FunctionTwin (Paired m n f.count))
      ((function fn c).1.1, (function fn c).2)
      ((function fn' c').1.1, (function fn' c').2) := by
  obtain ⟨htwin, t', u', htable, -, -⟩ := hfn.twin hfn' hf
  exact function_alike (oneToOne_paired htable) htwin
    (knownAlike_of_reaches hfn hfn' hf hc hc' hm hn)

theorem Function.Checked.twin (h : f.Checked hash strict defined t m fn)
    (h' : f.Checked hash strict defined u n fn')
    (hf : defined f.name.1.literal = some f.signature) (hm : m + f.count ≤ UInt32.size)
    (hn : n + f.count ≤ UInt32.size) : FunctionTwin (Paired m n f.count) fn fn' := by
  obtain ⟨_, c, message, c₁, hres, hc, hrun⟩ := h
  obtain ⟨_, c', message', c₁', hres', hc', hrun'⟩ := h'
  have halike := function_alike_of_reaches hres hres' hf hc hc' hm hn
  rw [hrun, hrun'] at halike
  cases halike with
  | passed htwin _ => exact htwin

/-- What passes in one place passes in every other. -/
theorem Function.Checked.anywhere (h : f.Checked hash strict defined t n fn')
    (hfn : f.Resolved hash strict defined u m fn)
    (hf : defined f.name.1.literal = some f.signature) (hc : Reaches defined u m c)
    (hn : n + f.count ≤ UInt32.size) (hm : m + f.count ≤ UInt32.size) :
    ∃ again message c', function fn c = ((⟨again, none⟩, message), c') := by
  obtain ⟨_, c₀, message₀, c₁, hres, hc₀, hrun⟩ := h
  have halike := function_alike_of_reaches hres hfn hf hc₀ hc hn hm
  rw [hrun] at halike
  generalize function fn c = result at halike
  obtain ⟨⟨⟨again, failure⟩, message⟩, c'⟩ := result
  cases halike with
  | passed _ _ => exact ⟨again, message, c', rfl⟩

theorem Reaches.next (hc : Reaches defined u m c) (hfn : f.Resolved hash strict defined u m fn)
    (hf : defined f.name.1.literal = some f.signature) (hm : m + f.count ≤ UInt32.size)
    (h : function fn c = ((⟨fn', none⟩, message), c')) :
    Reaches defined u (m + f.count) c' := by
  have hself := function_alike_of_reaches hfn hfn hf hc hc hm hm
  rw [h] at hself
  have hadvances := function_passes hfn.depicts hc.front h
  cases hself with
  | passed _ hstate =>
    refine ⟨hadvances.front, hstate.table.left_blank, fun name => ?_⟩
    rw [hadvances.refines.lookupFunction?, hc.defined]

inductive CheckedAll (hash : NameHash) (strict : Bool) (defined : Bytes → Option FuncDef)
    (u : Table) : Nat → List Function → List Tree.Function → Prop
  | nil {m : Nat} : CheckedAll hash strict defined u m [] []
  | cons {m : Nat} {f : Function} {fn : Tree.Function} {fs : List Function}
    {fns : List Tree.Function} : f.Checked hash strict defined u m fn →
    CheckedAll hash strict defined u (m + f.count) fs fns →
    CheckedAll hash strict defined u m (f :: fs) (fn :: fns)

variable {fs : List Function} {fns : List Tree.Function}

theorem checkedAll_of_run (hall : ResolvedAll hash strict defined u m fs fns)
    (hfs : ∀ f ∈ fs, defined f.name.1.literal = some f.signature)
    (hcount : m + countAll fs ≤ UInt32.size) (hc : Reaches defined u m c)
    (h : functions fns c = ((⟨fns', none⟩, messages), c')) :
    CheckedAll hash strict defined u m fs fns' := by
  induction hall generalizing c fns' messages with
  | nil =>
    cases h
    exact .nil
  | @cons m f fn fs fns hfn _ ih =>
    rw [countAll, ← Nat.add_assoc] at hcount
    obtain ⟨fn', message, c₁, rest, messages', hrun, hrest, rfl⟩ := functions_cons_passes h
    have hm := Nat.le_trans (Nat.le_add_right _ _) hcount
    have hnext := hc.next hfn (hfs f mem_cons_self) hm hrun
    refine .cons ⟨fn, c, message, c₁, hfn, hc, hrun⟩ (ih ?_ hcount hnext hrest)
    exact fun g hg => hfs g (mem_cons_of_mem f hg)

theorem exists_run_of_checked (hall : ResolvedAll hash strict defined u m fs fns)
    (hfs : ∀ f ∈ fs, defined f.name.1.literal = some f.signature)
    (hcount : m + countAll fs ≤ UInt32.size) (hc : Reaches defined u m c)
    (h : ∀ f ∈ fs, ∃ t n fn, n + f.count ≤ UInt32.size ∧ f.Checked hash strict defined t n fn) :
    ∃ fns' messages c', functions fns c = ((⟨fns', none⟩, messages), c') := by
  induction hall generalizing c with
  | nil => exact ⟨[], [], c, rfl⟩
  | @cons m f fn fs fns hfn _ ih =>
    rw [countAll, ← Nat.add_assoc] at hcount
    have hf := hfs f mem_cons_self
    have hm := Nat.le_trans (Nat.le_add_right _ _) hcount
    obtain ⟨t, n, _, hn, hchecked⟩ := h f mem_cons_self
    obtain ⟨fn', message, c₁, hrun⟩ := hchecked.anywhere hfn hf hc hn hm
    obtain ⟨fns', messages, c', hrest⟩ := ih (fun g hg => hfs g (mem_cons_of_mem f hg)) hcount
      (hc.next hfn hf hm hrun) fun g hg => h g (mem_cons_of_mem f hg)
    refine ⟨fn' :: fns', message.toList ++ messages, c', ?_⟩
    rw [functions, bind_run, hrun]
    simp only [Option.isSome_none, Bool.false_eq_true, if_false]
    rw [bind_run, hrest]
    rfl

end

section

variable {f : Function} {fs : List Function}

variable {hash : NameHash} {strict : Bool} {p : Program} {parsed : Parsed} {t : Table}

/-- Parsing and checking find nothing wrong, and nothing unused. -/
def Program.Passes (hash : NameHash) (strict : Bool) (p : Program) : Prop :=
  ∃ parsed t, parse p.buffer (.fresh hash strict) = .ok parsed t ∧ (check parsed t).failure = none

open Program

def Program.defined (p : Program) : Bytes → Option FuncDef :=
  definedBy (p.functions.map Function.signature)

theorem Program.items_buffer (p : Program) : p.tokens ++ [] = p.buffer.items :=
  append_nil _

theorem reaches_start (h : p.Accepted hash strict parsed t) : Reaches p.defined t 1 ⟨t, 0⟩ where
  front := Front.start h
  blank := by
    have hdisc : Var.discard.Alike (t.var Table.discard) := h.later.alike 0 Nat.one_pos
    refine ⟨?_, hdisc.name, hdisc.type, hdisc.mutable_, hdisc.nullable⟩
    rw [Var.isDiscard, hdisc.id]
    rfl
  defined name := by
    rw [Table.lookupFunction?, h.faithful, h.order]
    rfl

def Program.Registers (hash : NameHash) (strict : Bool) (p : Program) : Prop :=
  ∃ u, register (p.functions.map Function.signature) (.fresh hash strict) = .ok () u ∧
    checkMain p.eof.1 u = .ok () u

theorem Program.Registers.defined_eq (h : p.Registers hash strict)
    (hf : f ∈ p.functions) : p.defined f.name.1.literal = some f.signature := by
  obtain ⟨u, hu, -⟩ := h
  obtain ⟨-, -, -, -, hlookups, -⟩ := register_eq_ok hu
  rw [defined, ← (boundary_of_register hu).defined]
  exact (hlookups f.signature (mem_map_of_mem hf)).2

theorem exists_resolution (h : parse p.buffer (.fresh hash strict) = .ok parsed t) :
    ∃ u, register (p.functions.map Function.signature) (.fresh hash strict) = .ok () u ∧
      checkMain p.eof.1 u = .ok () u ∧
      resolveFunctions p.functions ⟨u, none⟩ = .ok parsed.program.functions ⟨t, parsed.unused⟩ := by
  rw [parse_tokens p.items_buffer (shows_fresh hash strict)] at h
  obtain ⟨_, u, hreg, hrest⟩ := bind_eq_ok h
  obtain ⟨_, v, hmain, hresolution⟩ := bind_eq_ok hrest
  obtain rfl : v = u := by
    rcases checkMain_cases p.buffer.last u with hcase | ⟨d, hcase, -⟩
    · rw [hcase] at hmain
      cases hmain
      rfl
    · rw [hcase] at hmain
      cases hmain
  refine ⟨v, hreg, hmain, ?_⟩
  unfold resolution at hresolution
  cases hresolve : p.resolve ⟨v, none⟩ with
  | error d s =>
    rw [hresolve] at hresolution
    cases hresolution
  | ok program s =>
    rw [hresolve] at hresolution
    cases hresolution
    obtain ⟨fns, s', hrun, hprog⟩ := bind_eq_ok hresolve
    cases hprog
    exact hrun

theorem checkedAll_of_passes (hcount : countAll p.functions < UInt32.size)
    (hparse : parse p.buffer (.fresh hash strict) = .ok parsed t)
    (hcheck : (check parsed t).failure = none) :
    p.Registers hash strict ∧
      CheckedAll hash strict p.defined t 1 p.functions (check parsed t).program.functions := by
  have hunused : parsed.unused = none := (Option.or_eq_none_iff.mp hcheck).2
  obtain ⟨u, hreg, hmain, hrun⟩ := exists_resolution hparse
  have hregs : p.Registers hash strict := ⟨u, hreg, hmain⟩
  have hdef (f : Function) (hf : f ∈ p.functions) := hregs.defined_eq hf
  obtain ⟨-, hall⟩ := resolvedAll_of_run (boundary_of_register hreg) hdef hrun hunused
  have hpassed : (check { parsed with unused := none } t).failure = none := hunused ▸ hcheck
  obtain ⟨fns, messages, c, hfuncs, -, hfns⟩ := exists_run_of_check hpassed
  have hle : 1 + countAll p.functions ≤ UInt32.size := by
    rw [Nat.add_comm]
    exact hcount
  rw [hfns]
  exact ⟨hregs, checkedAll_of_run hall hdef hle
    (reaches_start (accepted_of_parse p.items_buffer hparse)) hfuncs⟩

theorem passes_of_checked (hcount : countAll p.functions < UInt32.size)
    (hregs : p.Registers hash strict)
    (h : ∀ f ∈ p.functions, ∃ t n fn, n + f.count ≤ UInt32.size ∧
      f.Checked hash strict p.defined t n fn) : p.Passes hash strict := by
  have hdef (f : Function) (hf : f ∈ p.functions) := hregs.defined_eq hf
  have hle : 1 + countAll p.functions ≤ UInt32.size := by
    rw [Nat.add_comm]
    exact hcount
  obtain ⟨u, hreg, hmain⟩ := hregs
  have hboundary := boundary_of_register hreg
  obtain ⟨fns, ⟨t, unused⟩, hrun, hunused⟩ := exists_run_of_resolved hboundary hdef hle
    fun f hf => by
      obtain ⟨v, n, _, hn, fn, _, _, _, hres, -⟩ := h f hf
      exact ⟨v, n, fn, hn, hres⟩
  obtain rfl : unused = none := hunused
  obtain ⟨-, hall⟩ := resolvedAll_of_run hboundary hdef hrun rfl
  have hparse : parse p.buffer (.fresh hash strict) =
      .ok ⟨⟨p.prolog.const.1.pos, Cause.importPath, fns⟩, none⟩ t := by
    have hresolve : p.resolve ⟨u, none⟩ =
        .ok ⟨p.prolog.const.1.pos, Cause.importPath, fns⟩ ⟨t, none⟩ := by
      rw [resolve, bind_apply, hrun]
      rfl
    have hlast : checkMain p.buffer.last u = .ok () u := hmain
    rw [parse_tokens p.items_buffer (shows_fresh hash strict), bind_apply, hreg]
    dsimp only
    rw [bind_apply, hlast]
    dsimp only
    rw [resolution, hresolve]
  refine ⟨_, t, hparse, ?_⟩
  have hacc := accepted_of_parse p.items_buffer hparse
  obtain ⟨fns', messages, c, hfuncs⟩ :=
    exists_run_of_checked hall hdef hle (reaches_start hacc) h
  simp only [check, StateT.run, hfuncs, Option.or_none]

theorem countAll_perm (h : fs.Perm gs) : countAll fs = countAll gs := by
  induction h with
  | nil => rfl
  | cons f _ ih => rw [countAll, countAll, ih]
  | swap f g rest => simp only [countAll, Nat.add_left_comm]
  | trans _ _ ih ih' => exact ih.trans ih'

theorem CheckedAll.exists_of_mem {defined : Bytes → Option FuncDef} {m : Nat}
    {fns : List Tree.Function} (h : CheckedAll hash strict defined t m fs fns)
    (hcount : m + countAll fs ≤ UInt32.size) (hf : f ∈ fs) :
    ∃ n fn, n + f.count ≤ UInt32.size ∧ f.Checked hash strict defined t n fn := by
  induction h with
  | nil => exact absurd hf not_mem_nil
  | @cons m g fn fs fns hg _ ih =>
    rw [countAll, ← Nat.add_assoc] at hcount
    rcases mem_cons.mp hf with rfl | hf
    · exact ⟨m, fn, Nat.le_trans (Nat.le_add_right _ _) hcount, hg⟩
    · exact ih hcount hf

theorem Program.Registers.perm (h : p.Registers hash strict) (hperm : p.functions.Perm fs) :
    Program.Registers hash strict { p with functions := fs } ∧
      defined { p with functions := fs } = p.defined := by
  obtain ⟨u, hu, hmain⟩ := h
  obtain ⟨v, hv, hmain', hdef⟩ := register_perm (hperm.map Function.signature) hu hmain
  exact ⟨⟨v, hv, hmain'⟩, hdef⟩

theorem Program.Passes.perm (h : p.Passes hash strict)
    (hperm : p.functions.Perm fs) (hcount : countAll p.functions < UInt32.size) :
    Program.Passes hash strict { p with functions := fs } := by
  obtain ⟨parsed, t, hparse, hcheck⟩ := h
  obtain ⟨hregs, hall⟩ := checkedAll_of_passes hcount hparse hcheck
  obtain ⟨hregs', hdef⟩ := hregs.perm hperm
  refine passes_of_checked (countAll_perm hperm ▸ hcount) hregs' fun f hf => ?_
  rw [hdef]
  exact ⟨t, hall.exists_of_mem (by rwa [Nat.add_comm]) (hperm.mem_iff.mpr hf)⟩

end

section

variable {code code' : List (Function × List Instr)}

variable {hash : NameHash} {strict : Bool} {defined : Bytes → Option FuncDef} {m n : Nat}
  {t u t' u' : Table} {f : Function} {fn fn' : Tree.Function}

theorem Function.Checked.definition (h : f.Checked hash strict defined u m fn) :
    fn.definition = f.signature := by
  obtain ⟨parsed, c, message, c', hres, -, hrun⟩ := h
  obtain ⟨ys, -, rfl⟩ := stmts_of_function hrun
  cases hres.depicts
  rfl

theorem persists_of_later (h : t.Later u) (h' : Persists u t') : Persists t t' := by
  intro r hr
  obtain ⟨hid, hname⟩ := h' r (Nat.lt_of_lt_of_le hr h.size)
  have halike := h.alike r hr
  exact ⟨hid.trans halike.id, hname.trans halike.name⟩

/-- The numbers that a function is given behind `m` variables and from the label `low` on are
replaced by those that it is given behind `n` variables and from the label `high` on. -/
def shift (m n low high : Nat) : Renumbering where
  id x := x + (UInt32.ofNat n - UInt32.ofNat m)
  label l := l - low + high

theorem lowers_alike_of_checked (h : f.Checked hash strict defined t m fn)
    (h' : f.Checked hash strict defined u n fn')
    (hf : defined f.name.1.literal = some f.signature) (hm : m + f.count ≤ UInt32.size)
    (hn : n + f.count ≤ UInt32.size) (ht : Persists t t') (hu : Persists u u') (σ τ : LowerState) :
    let k := shift m n σ.labels τ.labels
    Copied k (lowerFunction t' fn σ).1 (lowerFunction u' fn' τ).1 ∧
      LowerState.Copy k σ.labels σ.failure τ.failure (lowerFunction t' fn σ).2
        (lowerFunction u' fn' τ).2 := by
  have htwin := h.twin h' hf hm hn
  obtain ⟨parsed, _, _, _, hres, -⟩ := h
  obtain ⟨parsed', _, _, _, hres', -⟩ := h'
  obtain ⟨-, v, w, htable, hv, hw⟩ := hres.twin hres' hf
  have hagree := agree_of_le htable.left.pos hm htable.right.pos hn
  have hplace : PlacesAlike (shift m n σ.labels τ.labels) (Paired m n f.count) t' u' := by
    refine placesAlike_of_twin htable hagree (persists_of_later hv ht) (persists_of_later hw hu) ?_
    intro i _
    rw [shift, UInt32.ofNat_add, UInt32.ofNat_add]
    grind
  have hcounts : (shift m n σ.labels τ.labels).CountsOn σ.labels := by
    intro l hl
    show l + 1 - σ.labels + τ.labels = l - σ.labels + τ.labels + 1
    omega
  refine lowerFunction_alike hcounts hplace htwin σ.failure τ.failure σ τ ⟨Nat.le_refl _, ?_, ?_⟩
  · show τ.labels = σ.labels - σ.labels + τ.labels
    omega
  · exact ⟨none, none, Option.or_none.symm, Option.or_none.symm, .none⟩

/-- Where it stands in a program, the function is lowered without a failure. -/
def Function.Lowered (hash : NameHash) (strict : Bool) (defined : Bytes → Option FuncDef)
    (f : Function) : Prop :=
  ∃ u u' n fn τ, n + f.count ≤ UInt32.size ∧ f.Checked hash strict defined u n fn ∧
    Persists u u' ∧ (lowerFunction u' fn τ).2.failure = none

theorem Function.Checked.failure_eq_none_iff (h : f.Checked hash strict defined t m fn)
    (hf : defined f.name.1.literal = some f.signature) (hm : m + f.count ≤ UInt32.size)
    (ht : Persists t t') (σ : LowerState) :
    (lowerFunction t' fn σ).2.failure = none ↔
      σ.failure = none ∧ f.Lowered hash strict defined := by
  constructor
  · intro hnone
    obtain ⟨-, hstate⟩ := lowers_alike_of_checked h h hf hm hm ht ht σ σ
    obtain ⟨found, -, hfound, -⟩ := hstate.failure
    exact ⟨(Option.or_eq_none_iff.mp (hfound.symm.trans hnone)).1, t, t', m, fn, σ, hm, h, ht, hnone⟩
  · rintro ⟨hσ, u, u', n, fn', τ, hn, h', hu, hnone⟩
    obtain ⟨-, hstate⟩ := lowers_alike_of_checked h' h hf hn hm hu ht τ σ
    obtain ⟨found, found', hfound, hfound', hrel⟩ := hstate.failure
    rw [hnone] at hfound
    rw [(Option.or_eq_none_iff.mp hfound.symm).2] at hrel
    cases hrel
    rw [hfound', hσ]
    rfl

variable {fs : List Function} {fns : List Tree.Function}

theorem CheckedAll.failure_eq_none_iff (h : CheckedAll hash strict defined t m fs fns)
    (hfs : ∀ f ∈ fs, defined f.name.1.literal = some f.signature)
    (hcount : m + countAll fs ≤ UInt32.size) (ht : Persists t t') (σ : LowerState) :
    (lowerFunctions t' fns σ).2.failure = none ↔
      σ.failure = none ∧ ∀ f ∈ fs, f.Lowered hash strict defined := by
  induction h generalizing σ with
  | nil => exact ⟨fun hσ => ⟨hσ, fun _ hf => absurd hf not_mem_nil⟩, fun hσ => hσ.1⟩
  | @cons m f fn fs fns hfn _ ih =>
    rw [countAll, ← Nat.add_assoc] at hcount
    rw [lowerFunctions_cons, forall_mem_cons, ← and_assoc,
      ← hfn.failure_eq_none_iff (hfs f mem_cons_self)
        (Nat.le_trans (Nat.le_add_right _ _) hcount) ht σ]
    exact ih (fun g hg => hfs g (mem_cons_of_mem f hg)) hcount _

theorem CheckedAll.exists_code (h : CheckedAll hash strict defined t m fs fns)
    (hcount : m + countAll fs ≤ UInt32.size) (t' : Table) (σ : LowerState) :
    ∃ code : List (Function × List Instr), code.map Prod.fst = fs ∧
      (lowerFunctions t' fns σ).1.map (fun fc => (fc.1.definition.signature, fc.2)) =
        code.map (fun fc => (fc.1.signature.signature, fc.2)) ∧
      ∀ fc ∈ code, ∃ n fn τ, n + fc.1.count ≤ UInt32.size ∧
        fc.1.Checked hash strict defined t n fn ∧ fc.2 = (lowerFunction t' fn τ).1 := by
  induction h generalizing σ with
  | nil => exact ⟨[], rfl, rfl, fun _ hfc => absurd hfc not_mem_nil⟩
  | @cons m f fn fs fns hfn _ ih =>
    rw [countAll, ← Nat.add_assoc] at hcount
    obtain ⟨code, hfst, hcode, hmem⟩ := ih hcount (lowerFunction t' fn σ).2
    refine ⟨(f, (lowerFunction t' fn σ).1) :: code, ?_, ?_, ?_⟩
    · rw [map_cons, hfst]
    · rw [lowerFunctions_cons, map_cons, map_cons, hcode, hfn.definition]
    · intro fc hfc
      rcases mem_cons.mp hfc with rfl | hfc
      · exact ⟨m, fn, σ, Nat.le_trans (Nat.le_add_right _ _) hcount, hfn, rfl⟩
      · exact hmem fc hfc

def programLines (comments : Bool) (code : List (Function × List Instr)) (helpers : List Builtin) :
    List Line :=
  prologue ++ code.flatMap (fun fc => section_ comments fc.1.signature.signature fc.2) ++
    helpers.flatMap (builtinSection comments)

theorem lines_eq_programLines {p : Tree.Program} (comments : Bool)
    (h : (lowerFunctions t p.functions ⟨0, none⟩).1.map
      (fun fc => (fc.1.definition.signature, fc.2)) =
        code.map (fun fc => (fc.1.signature.signature, fc.2))) :
    (generate comments t p).lines =
      programLines comments code (calledBuiltins (code.flatMap Prod.snd)) := by
  have hparts := congrArg (List.flatMap fun s => section_ comments s.1 s.2) h
  have hcode := congrArg (List.flatMap Prod.snd) h
  rw [flatMap_map, flatMap_map] at hparts hcode
  have huser : (lowerFunctions t p.functions ⟨0, none⟩).1.flatMap
      (fun fc => section_ comments fc.1.definition.signature fc.2) =
        code.flatMap (fun fc => section_ comments fc.1.signature.signature fc.2) := hparts
  have hcalled : (lowerFunctions t p.functions ⟨0, none⟩).1.flatMap Prod.snd =
      code.flatMap Prod.snd := hcode
  rw [programLines, ← huser, ← hcalled]
  rfl

theorem calledBuiltins_congr {code code' : List Instr}
    (h : ∀ b, .call (.builtin b) ∈ code ↔ .call (.builtin b) ∈ code') :
    calledBuiltins code = calledBuiltins code' := by
  refine filter_congr fun b _ => ?_
  rw [Bool.eq_iff_iff, contains_iff_mem, contains_iff_mem]
  exact h b

theorem callBuiltin_mem {b : Builtin} (hmem : ∀ f ∈ code.map Prod.fst, f ∈ code'.map Prod.fst)
    (h : ∀ f c c', (f, c) ∈ code → (f, c') ∈ code' → ∃ k, Copied k c c')
    (hb : .call (.builtin b) ∈ code.flatMap Prod.snd) :
    .call (.builtin b) ∈ code'.flatMap Prod.snd := by
  obtain ⟨⟨f, c⟩, hc, hb⟩ := mem_flatMap.mp hb
  obtain ⟨⟨_, c'⟩, hc', rfl⟩ := mem_map.mp (hmem f (mem_map_of_mem hc))
  obtain ⟨k, hcopied⟩ := h _ c c' hc hc'
  exact mem_flatMap.mpr ⟨_, hc', hcopied.mem_callBuiltin hb⟩

end

/-- The functions of a program are independent of their order. In one order the program passes, with
nothing unused, if and only if it does in any other. Then the code is generated for both or for
none, with the same built-in functions, and the code of each function differs in numbers only.
Numbers must not run out: variables have 32 bits of them. -/
theorem functions_in_any_order (p : Program) (fs : List Function) (hperm : p.functions.Perm fs)
    (hcount : countAll p.functions < UInt32.size) (hash : NameHash) (strict comments : Bool) :
    (p.Passes hash strict ↔ Program.Passes hash strict { p with functions := fs }) ∧
    ∀ parsed t parsed' t', parse p.buffer (.fresh hash strict) = .ok parsed t →
      (check parsed t).failure = none →
      parse (Program.buffer { p with functions := fs }) (.fresh hash strict) = .ok parsed' t' →
      (check parsed' t').failure = none →
      let g := generate comments (check parsed t).table (check parsed t).program
      let g' := generate comments (check parsed' t').table (check parsed' t').program
      (g.failure = none ↔ g'.failure = none) ∧
      ∃ code code' helpers, code.map Prod.fst = p.functions ∧ code'.map Prod.fst = fs ∧
        g.lines = programLines comments code helpers ∧
        g'.lines = programLines comments code' helpers ∧
        ∀ f c c', (f, c) ∈ code → (f, c') ∈ code' → Renumbered c c' := by
  have hcount' : countAll fs < UInt32.size := countAll_perm hperm ▸ hcount
  refine ⟨⟨fun h => h.perm hperm hcount, fun h => h.perm hperm.symm hcount'⟩, ?_⟩
  intro parsed t parsed' t' hparse hcheck hparse' hcheck'
  obtain ⟨hregs, hall⟩ := checkedAll_of_passes hcount hparse hcheck
  obtain ⟨-, hdef⟩ := hregs.perm hperm
  obtain ⟨-, hall'⟩ := checkedAll_of_passes hcount' hparse' hcheck'
  rw [hdef] at hall'
  have hle : 1 + countAll p.functions ≤ UInt32.size := by
    rw [Nat.add_comm]
    exact hcount
  have hle' : 1 + countAll fs ≤ UInt32.size := by
    rw [Nat.add_comm]
    exact hcount'
  have hfs (f : Function) (hf : f ∈ p.functions) := hregs.defined_eq hf
  have hfs' (f : Function) (hf : f ∈ fs) := hregs.defined_eq (hperm.mem_iff.mpr hf)
  have hpersists := persists_check parsed t
  have hpersists' := persists_check parsed' t'
  refine ⟨?_, ?_⟩
  · change (lowerFunctions _ _ ⟨0, none⟩).2.failure = none ↔
      (lowerFunctions _ _ ⟨0, none⟩).2.failure = none
    rw [hall.failure_eq_none_iff hfs hle hpersists, hall'.failure_eq_none_iff hfs' hle' hpersists']
    simp only [hperm.mem_iff]
  · obtain ⟨code, hfst, hcode, hmem⟩ := hall.exists_code hle (check parsed t).table ⟨0, none⟩
    obtain ⟨code', hfst', hcode', hmem'⟩ := hall'.exists_code hle' (check parsed' t').table ⟨0, none⟩
    have hrenum (f : Function) (c c' : List Instr) (hc : (f, c) ∈ code) (hc' : (f, c') ∈ code') :
        Renumbered c c' := by
      obtain ⟨m, fn, σ, hm, hchecked, hcodes⟩ := hmem _ hc
      obtain ⟨n, fn', τ, hn, hchecked', hcodes'⟩ := hmem' _ hc'
      have hf := hfs f (hfst ▸ mem_map_of_mem hc)
      dsimp only at hcodes hcodes'
      rw [hcodes, hcodes']
      exact ⟨⟨_, (lowers_alike_of_checked hchecked hchecked' hf hm hn hpersists hpersists' σ τ).1⟩,
        _, (lowers_alike_of_checked hchecked' hchecked hf hn hm hpersists' hpersists τ σ).1⟩
    have hhelpers : calledBuiltins (code.flatMap Prod.snd) = calledBuiltins (code'.flatMap Prod.snd) := by
      have hfns (f : Function) : f ∈ code.map Prod.fst ↔ f ∈ code'.map Prod.fst := by
        rw [hfst, hfst', hperm.mem_iff]
      refine calledBuiltins_congr fun b => ⟨?_, ?_⟩
      · exact callBuiltin_mem (fun f => (hfns f).mp) fun f c c' hc hc' => (hrenum f c c' hc hc').1
      · exact callBuiltin_mem (fun f => (hfns f).mpr) fun f c' c hc' hc =>
          (hrenum f c c' hc hc').2
    refine ⟨code, code', _, hfst, hfst', lines_eq_programLines comments hcode, ?_, hrenum⟩
    rw [hhelpers]
    exact lines_eq_programLines comments hcode'

/-- A `main` that calls a function behind it. -/
def Program.calling : Program :=
  .ofFunctions [.simple "main" (.plain (.call ⟨.user (lexeme .name "f"), lexeme .lparen "(", .nil,
    lexeme .rparen ")"⟩ (lexeme .semi ";")) .echo), .simple "f" .echo]

/-- With the called function before it, it passes too and has the same code up to numbers. -/
theorem functions_in_any_order_calling :
    let q : Program := { Program.calling with functions := Program.calling.functions.reverse }
    ∃ parsed t parsed' t', parse Program.calling.buffer (.fresh (fun _ => 0) true) = .ok parsed t ∧
      parse q.buffer (.fresh (fun _ => 0) true) = .ok parsed' t' ∧
      ∃ code code' helpers, code.map Prod.fst = Program.calling.functions ∧
        code'.map Prod.fst = q.functions ∧
        (generate true (check parsed t).table (check parsed t).program).lines =
          programLines true code helpers ∧
        (generate true (check parsed' t').table (check parsed' t').program).lines =
          programLines true code' helpers ∧
        ∀ f c c', (f, c) ∈ code → (f, c') ∈ code' → Renumbered c c' := by
  intro q
  obtain ⟨parsed, t, hparse, hcheck⟩ : ∃ parsed t,
      parse Program.calling.buffer (.fresh (fun _ => 0) true) = .ok parsed t ∧
        (check parsed t).failure = none := by decide +kernel
  obtain ⟨hpasses, hgenerates⟩ := functions_in_any_order Program.calling
    Program.calling.functions.reverse (reverse_perm _).symm (by decide) (fun _ => 0) true true
  obtain ⟨parsed', t', hparse', hcheck'⟩ := hpasses.mp ⟨parsed, t, hparse, hcheck⟩
  exact ⟨parsed, t, parsed', t', hparse, hparse',
    (hgenerates parsed t parsed' t' hparse hcheck hparse' hcheck').2⟩

end Ifj24.Grammar
