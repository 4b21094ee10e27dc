import Ifj24.Tree.Walk
import Ifj24.Proofs.LexicalScope
import Ifj24.Proofs.Naming

/-!
Jumps and calls in the code of functions. Every jump goes to a label of the function it stands
in, and the calls in the code are those that a walk over the tree meets.
-/

open List

namespace Ifj24.Code

open Ifj24.Tree Machine Typing Walk

section

variable {t : Table}

theorem Lowered.proper {owner : Bytes} (hplace : ∀ r, (place t r).Proper)
    (howner : Identifier owner) (h : Lowered t owner i) (hcall : i.call? = none) : i.Proper := by
  cases h with
  | constant c => exact forall_mem_singleton.mpr trivial
  | load r | store r => exact forall_mem_singleton.mpr (hplace r)
  | move r q =>
    exact forall_mem_cons.mpr ⟨hplace r, forall_mem_singleton.mpr (hplace q)⟩
  | call l => cases hcall
  | label tag n | jump tag n | fork tag n => exact forall_mem_singleton.mpr howner
  | stack op | popFrame | «return» => exact fun x hx => nomatch hx

theorem mem_entryCode (h : i ∈ entryCode t fn) :
    i = .label (.function fn.name) ∨ i = .createFrame ∨ i = .pushFrame ∨
      ∃ r, i = .defVar (place t r) ∨ i = .pop (place t r) := by
  simp only [entryCode, mem_append, mem_cons, not_mem_nil, or_false,
    mem_map] at h
  rcases h with ((h | h | h) | ⟨r, -, h⟩) | ⟨r, -, h⟩
  · exact .inl h
  · exact .inr (.inl h)
  · exact .inr (.inr (.inl h))
  · exact .inr (.inr (.inr ⟨r, .inl h.symm⟩))
  · exact .inr (.inr (.inr ⟨r, .inr h.symm⟩))

theorem proper_lowerFunction (hplace : ∀ r, (place t r).Proper)
    (hname : Identifier fn.name) (hi : i ∈ (lowerFunction t fn σ).1)
    (hcall : i.call? = none) : i.Proper := by
  rw [lowerFunction_eq] at hi
  rcases mem_append.mp hi with hi | hi
  · obtain rfl | rfl | rfl | ⟨r, rfl | rfl⟩ := mem_entryCode hi
    · exact forall_mem_singleton.mpr hname
    · exact fun x hx => nomatch hx
    · exact fun x hx => nomatch hx
    · exact forall_mem_singleton.mpr (hplace r)
    · exact forall_mem_singleton.mpr (hplace r)
  · exact ((laid_lowerStmts fn.body.stmts σ).return.wired.lowered i hi).proper hplace hname hcall

theorem jump_mem_labels (hi : i ∈ (lowerFunction t fn σ).1)
     (hl : i.jump? = some l) : l ∈ labels (lowerFunction t fn σ).1 := by
  rw [lowerFunction_eq] at hi ⊢
  rcases mem_append.mp hi with hi | hi
  · obtain rfl | rfl | rfl | ⟨r, rfl | rfl⟩ := mem_entryCode hi <;> cases hl
  · rw [labels_append]
    exact mem_append_right _
      (((laid_lowerStmts fn.body.stmts σ).return.wired.jumps i hi l hl).resolve_left nofun)

end

section

variable {name : Bytes} {c : Call}

def callees (code : List Instr) : List Label := code.filterMap Instr.call?

theorem callees_append (code code' : List Instr) :
    callees (code ++ code') = callees code ++ callees code' := filterMap_append

theorem callees_of_simple {t : Table} {code : List Instr}
    (h : AllSimple t uses code) : callees code = [] := by
  refine filterMap_eq_nil_iff.mpr fun i hi => ?_
  cases h i hi <;> rfl

def Builtin.qualified (b : Builtin) : Bytes := FuncDef.builtinStart ++ b.name

def entry (name : Bytes) : Label :=
  match Builtin.all.find? fun b => b.qualified == name with
  | some b => .builtin b
  | none => .function name

theorem entry_qualified (b : Builtin) : entry b.qualified = .builtin b := by
  cases b <;> decide

theorem entry_eq_builtin (h : entry name = .builtin b) :
    name = b.qualified := by
  unfold entry at h
  split at h
  · rename_i b' hfind
    cases h
    have hb := find?_some hfind
    exact (beq_iff_eq.mp hb).symm
  · cases h

theorem entry_of_ne (h : ∀ b : Builtin, name ≠ b.qualified) :
    entry name = .function name := by
  unfold entry
  rw [find?_eq_none.mpr fun b _ hb => h b (beq_iff_eq.mp hb).symm]

/-- Built-in functions are known by their full names, and no other function has one. -/
def Catalogued (t : Table) : Prop :=
  ∀ name f, t.lookupFunction? name = some f → (f.builtin = true ↔ ∃ b : Builtin, name = b.qualified)

def everywhere : NodeKind → Bool := fun _ => true

def call? : NodeRef → Option Call
  | .expr (.call c) => some c
  | _ => none

def callsAmong (nodes : List NodeRef) : List Call := nodes.filterMap call?

theorem callsAmong_append (ns ms : List NodeRef) :
    callsAmong (ns ++ ms) = callsAmong ns ++ callsAmong ms := filterMap_append

theorem callsAmong_visit (hn : call? n = none) (below : List NodeRef) :
    callsAmong (visit everywhere n below) = callsAmong below :=
  filterMap_cons_none hn

theorem callsAmong_block (b : Block) (inside : List NodeRef) :
    callsAmong (blockAround everywhere b inside) = callsAmong inside := by
  rw [blockAround, callsAmong_visit rfl, callsAmong_append, callsAmong_visit rfl]
  exact append_nil _

theorem callsAmong_else (e : Else) (inside : List NodeRef) :
    callsAmong (elseAround everywhere e inside) = callsAmong inside := by
  rw [elseAround, callsAmong_visit rfl, callsAmong_block]

variable {t : Table} {f : FuncDef}

theorem callsAmong_leaf (h : LeafHas t x u) :
    callsAmong (expr everywhere x) = [] := by
  cases h with
  | null => rfl
  | literal => rfl
  | var => rfl

theorem callsAmong_exprs_append (xs ys : List Expr) :
    callsAmong (exprs everywhere (xs ++ ys)) =
      callsAmong (exprs everywhere xs) ++ callsAmong (exprs everywhere ys) := by
  induction xs with
  | nil => rfl
  | cons x rest ih =>
    rw [cons_append, exprs, exprs, callsAmong_append, callsAmong_append, ih,
      append_assoc]

theorem callsAmong_leaves (h : ∀ x ∈ xs, ∃ u, LeafHas t x u) :
    callsAmong (exprs everywhere xs) = [] := by
  induction xs with
  | nil => rfl
  | cons x rest ih =>
    obtain ⟨⟨u, hx⟩, hrest⟩ := forall_mem_cons.mp h
    rw [exprs, callsAmong_append, callsAmong_leaf hx, ih hrest]
    rfl

theorem callsAmong_sequence (h : SequenceHas t xs u) :
    callsAmong (exprs everywhere xs) = [] := by
  induction h with
  | leaf hx =>
    rw [exprs, callsAmong_append, callsAmong_leaf hx]
    rfl
  | operator _ _ _ _ _ ihl ihr =>
    rw [callsAmong_exprs_append, callsAmong_exprs_append, ihl, ihr]
    rfl

theorem leaf_of_callHas (h : CallHas t c f) : ∀ x ∈ c.args, ∃ u, LeafHas t x u := by
  intro x hx
  obtain ⟨i, hi⟩ := mem_iff_getElem?.mp hx
  have hlt : i < f.params.length := by
    rw [← h.arity]
    exact (List.getElem?_eq_some_iff.mp hi).1
  obtain ⟨u, hleaf, -⟩ := h.args i x f.params[i] hi (getElem?_eq_getElem hlt)
  exact ⟨u, hleaf⟩

/-- The calls in the code are those of the nodes, in their order, and all of them are of known
functions. -/
structure Mirrors (t : Table) (nodes : List NodeRef) (code : List Instr) : Prop where
  callees : callees code = (callsAmong nodes).map fun c => entry c.name
  known : ∀ c ∈ callsAmong nodes, ∃ f, CallHas t c f

namespace Mirrors

variable {nodes : List NodeRef} {code : List Instr}

theorem quiet (hnodes : callsAmong nodes = []) (hcode : Code.callees code = []) :
    Mirrors t nodes code where
  callees := by rw [hnodes, hcode, map_nil]
  known c hc := by
    rw [hnodes] at hc
    cases hc

theorem append (h : Mirrors t nodes code) (h' : Mirrors t more code') :
    Mirrors t (nodes ++ more) (code ++ code') where
  callees := by rw [callees_append, callsAmong_append, map_append, h.callees, h'.callees]
  known := by
    rw [callsAmong_append]
    exact forall_mem_append.mpr ⟨h.known, h'.known⟩

theorem before (h : Mirrors t nodes code) (hcode : Code.callees code' = []) :
    Mirrors t nodes (code ++ code') := by
  have hquiet : Mirrors t [] code' := quiet rfl hcode
  simpa only [append_nil] using h.append hquiet

theorem of_nodes (h : Mirrors t nodes code) (hmore : callsAmong more = callsAmong nodes) :
    Mirrors t more code := by
  refine ⟨?_, ?_⟩
  · rw [hmore, h.callees]
  · rw [hmore]
    exact h.known

end Mirrors

theorem mirrors_lowerCall (ht : Catalogued t) (h : CallHas t c f) :
    Gives (lowerCall t c) (Mirrors t (expr everywhere (.call c))) := by
  have hcalls : callsAmong (expr everywhere (.call c)) = [c] := by
    have hargs := callsAmong_leaves (leaf_of_callHas h)
    exact congrArg (c :: ·) hargs
  have hmirrors {args : List Instr} (hargs : callees args = []) {l : Label} (hl : entry c.name = l) :
      Mirrors t (expr everywhere (.call c)) (args ++ [.call l]) := by
    constructor
    case callees =>
      rw [callees_append, hargs, hcalls, ← hl]
      rfl
    case known =>
      rw [hcalls]
      exact forall_mem_singleton.mpr ⟨f, h⟩
  unfold lowerCall
  rw [h.target]
  refine (simple_pushAll c.args).bind fun args hargs => ?_
  have hargs := callees_of_simple hargs
  cases hblt : f.builtin with
  | true =>
    obtain ⟨b, hb⟩ := (ht c.name f h.known).mp hblt
    have hname : Builtin.ofName? c.name = some b := by
      rw [hb]
      cases b <;> decide
    simp only [if_true, hname]
    refine .pure (hmirrors hargs ?_)
    rw [hb, entry_qualified]
  | false =>
    refine .pure (hmirrors hargs (entry_of_ne fun b hb => ?_))
    rw [(ht c.name f h.known).mpr ⟨b, hb⟩] at hblt
    cases hblt

theorem mirrors_lowerValue (ht : Catalogued t) (h : ValueHas t x u) :
    Gives (lowerValue t x) (Mirrors t (expr everywhere x)) := by
  cases h with
  | leaf h =>
    have hnodes := callsAmong_leaf h
    cases h with
    | null => exact (simple_push _).mono fun _ hcode => .quiet hnodes (callees_of_simple hcode)
    | literal => exact (simple_push _).mono fun _ hcode => .quiet hnodes (callees_of_simple hcode)
    | var => exact (simple_push _).mono fun _ hcode => .quiet hnodes (callees_of_simple hcode)
  | @expression e u h =>
    refine (simple_lowerItems e.items).mono fun code hcode => .quiet ?_ (callees_of_simple hcode)
    exact callsAmong_sequence h.items
  | call h => exact mirrors_lowerCall ht h

theorem mirrors_lowerGuard (target : Label) (h : GuardHas t g) :
    Gives (lowerGuard t target g) (Mirrors t (Walk.guard everywhere g)) := by
  have hnodes : callsAmong (Walk.guard everywhere g) = [] := by
    cases g with
    | unwrap subject binding => rfl
    | compare c =>
      obtain ⟨l, r, htruth⟩ := h
      rw [Walk.guard, expr, callsAmong_visit rfl, callsAmong_append, callsAmong_visit rfl,
        callsAmong_visit rfl, callsAmong_sequence htruth.left.items,
        callsAmong_sequence htruth.right.items]
      rfl
  have hentry : callees (Guard.entry t g) = [] := by cases g <;> rfl
  refine (guarding_lowerGuard target g).mono ?_
  rintro code ⟨front, hfront, ⟨rfl, -⟩ | rfl⟩
  · exact .quiet hnodes (callees_of_simple hfront)
  · refine .quiet hnodes ?_
    rw [callees_append, callees_of_simple hfront]
    exact hentry

theorem callsAmong_if (pos : Pos) (g : Guard) (b : Block) :
    callsAmong (Walk.stmt everywhere (.ifElse pos g b none)) =
      callsAmong (Walk.guard everywhere g) ++ callsAmong (stmts everywhere b.stmts) := by
  rw [Walk.stmt, callsAmong_visit rfl, callsAmong_append, callsAmong_append, callsAmong_block]
  exact append_nil _

theorem callsAmong_ifElse (pos : Pos) (g : Guard) (b : Block) (e : Else) :
    callsAmong (Walk.stmt everywhere (.ifElse pos g b (some e))) =
      callsAmong (Walk.guard everywhere g) ++ callsAmong (stmts everywhere b.stmts) ++
        callsAmong (stmts everywhere e.body.stmts) := by
  rw [Walk.stmt, callsAmong_visit rfl, callsAmong_append, callsAmong_append, callsAmong_block,
    callsAmong_else]

theorem callsAmong_while (pos : Pos) (g : Guard) (b : Block) :
    callsAmong (Walk.stmt everywhere (.while pos g b)) =
      callsAmong (Walk.guard everywhere g) ++ callsAmong (stmts everywhere b.stmts) := by
  rw [Walk.stmt, callsAmong_visit rfl, callsAmong_append, callsAmong_block]

theorem mirrors_composes (ht : Catalogued t) :
    Composes t f owner (fun s σ => Mirrors t (stmt everywhere s) (lowerStmt t owner s σ).1)
      (fun ss σ => Mirrors t (stmts everywhere ss) (lowerStmts t owner ss σ).1) where
  nil σ := by
    exact .quiet rfl rfl
  cons hs hrest := by
    exact hs.append hrest
  blockEnd e σ := by
    exact .quiet rfl rfl
  store hs hx _ := by
    rw [hs.lowerStmt_eq]
    refine ((mirrors_lowerValue ht hx _).1.before rfl).of_nodes ?_
    cases hs <;> exact callsAmong_visit rfl _
  call hc _ _ := by
    exact (mirrors_lowerCall ht hc _).1
  returned {_ x _} hx _ := by
    cases x with
    | none =>
      exact .quiet rfl rfl
    | some x =>
      obtain ⟨-, u, hx, -⟩ := hx
      exact ((mirrors_lowerValue ht hx _).1.before rfl).of_nodes (callsAmong_visit rfl _)
  branch hg _ hyes := by
    refine (((mirrors_lowerGuard _ hg _).1.append hyes).before rfl).of_nodes ?_
    rw [callsAmong_if, callsAmong_append]
  branchElse hg _ hyes hno := by
    refine (((((mirrors_lowerGuard _ hg _).1.append hyes).before rfl).append hno).before
      rfl).of_nodes ?_
    rw [callsAmong_ifElse, callsAmong_append, callsAmong_append]
  loop {_ _ _ σ} hg _ hbody := by
    have hlabel : Mirrors t [] [.label (.flow owner .loop σ.labels)] := .quiet rfl rfl
    refine (((hlabel.append (mirrors_lowerGuard _ hg _).1).append hbody).before rfl).of_nodes ?_
    rw [callsAmong_while, nil_append, callsAmong_append]

theorem mirrors_lowerFunction (ht : Catalogued t) (hknown : Known t) {fn : Function}
    (hfn : StmtsHave t f fn.body.stmts) :
    Emits (lowerFunction t fn) (Mirrors t (Walk.function everywhere fn)) := by
  intro σ hσ
  have hentry : Mirrors t [] (entryCode t fn) := by
    refine .quiet rfl (filterMap_eq_nil_iff.mpr fun i hi => ?_)
    obtain rfl | rfl | rfl | ⟨r, rfl | rfl⟩ := mem_entryCode hi <;> rfl
  obtain ⟨hbef, hbody⟩ := composed_stmts hknown (mirrors_composes ht) fn.body.stmts hfn σ hσ
  rw [lowerFunction_eq]
  refine ⟨hbef, (hentry.append (hbody.before rfl)).of_nodes ?_⟩
  rw [Walk.function, callsAmong_visit rfl, callsAmong_block]
  rfl

theorem mirrors_lowerFunctions (ht : Catalogued t) (hknown : Known t)
    (hfns : ∀ fn ∈ fns, StmtsHave t fn.definition fn.body.stmts) {σ : LowerState}
    (hσ : (lowerFunctions t fns σ).2.failure = none) :
    Mirrors t (fns.flatMap (function everywhere))
      (functionsCode (lowerFunctions t fns σ).1) := by
  induction fns generalizing σ with
  | nil => exact .quiet rfl rfl
  | cons fn rest ih =>
    obtain ⟨hfn, hrest⟩ := forall_mem_cons.mp hfns
    have hmid := (exists_of_lowerFunctions
      (fun g hg σ hσ => (mirrors_lowerFunction ht hknown (hrest g hg) σ hσ).1) hσ).1
    exact (mirrors_lowerFunction ht hknown hfn σ hmid).2.append (ih hrest hσ)

end

end Ifj24.Code
