import Ifj24.Proofs.Naming
import Ifj24.Proofs.TwinTrees

/-!
Code up to numbers. The numbers of variables and labels keep equal names and equal constructs
apart, and nothing else depends on them: twins of a function are lowered to the same instructions
with other numbers, wherever the count of labels starts.
-/

open List

namespace Ifj24.Code

open Ifj24.Tree

structure Renumbering where
  id : UInt32 → UInt32
  label : Nat → Nat

variable {a b code code' : List Instr} {k : Renumbering}

namespace Renumbering

def same : Renumbering := ⟨fun x => x, fun n => n⟩

/-- From `low` on, labels that follow one another are given numbers that do. -/
def CountsOn (k : Renumbering) (low : Nat) : Prop :=
  ∀ n, low ≤ n → k.label (n + 1) = k.label n + 1

end Renumbering

def Place.renumber (k : Renumbering) : Place → Place
  | .discard => .discard
  | .local name id => .local name (k.id id)
  | .temporary name => .temporary name

def Source.renumber (k : Renumbering) : Source → Source
  | .place p => .place (p.renumber k)
  | .constant c => .constant c

def Label.renumber (k : Renumbering) : Label → Label
  | .function name => .function name
  | .flow owner tag number => .flow owner tag (k.label number)
  | .builtin b => .builtin b
  | .inside b tag => .inside b tag

def Instr.renumber (k : Renumbering) : Instr → Instr
  | .label l => .label (l.renumber k)
  | .jump l => .jump (l.renumber k)
  | .jumpIfEq l a b => .jumpIfEq (l.renumber k) (a.renumber k) (b.renumber k)
  | .jumpIfNeq l a b => .jumpIfNeq (l.renumber k) (a.renumber k) (b.renumber k)
  | .jumpIfEqs l => .jumpIfEqs (l.renumber k)
  | .call l => .call (l.renumber k)
  | .return => .return
  | .createFrame => .createFrame
  | .pushFrame => .pushFrame
  | .popFrame => .popFrame
  | .defVar p => .defVar (p.renumber k)
  | .move p a => .move (p.renumber k) (a.renumber k)
  | .push a => .push (a.renumber k)
  | .pop p => .pop (p.renumber k)
  | .stack op => .stack op
  | .binary op p a b => .binary op (p.renumber k) (a.renumber k) (b.renumber k)
  | .strLen p a => .strLen (p.renumber k) (a.renumber k)
  | .typeOf p a => .typeOf (p.renumber k) (a.renumber k)
  | .read p type => .read (p.renumber k) type
  | .write a => .write (a.renumber k)
  | .exit a => .exit (a.renumber k)

@[simp]
theorem Place.renumber_same (p : Place) : p.renumber .same = p := by
  cases p <;> rfl

@[simp]
theorem Source.renumber_same (a : Source) : a.renumber .same = a := by
  cases a <;> simp [Source.renumber]

@[simp]
theorem Label.renumber_same (a : Label) : a.renumber .same = a := by
  cases a <;> rfl

@[simp]
theorem Instr.renumber_same (i : Instr) : i.renumber .same = i := by
  cases i <;> simp [Instr.renumber]

def Copied (k : Renumbering) (code code' : List Instr) : Prop := code' = code.map (Instr.renumber k)

/-- Either code is the other with other numbers, so numbers that differ in one differ in the
other. -/
def Renumbered (code code' : List Instr) : Prop := (∃ k, Copied k code code') ∧ ∃ k, Copied k code' code

theorem Copied.mem_callBuiltin (h : Copied k code code')
    {b : Builtin} (hb : .call (.builtin b) ∈ code) : .call (.builtin b) ∈ code' := by
  rw [h]
  exact mem_map.mpr ⟨_, hb, rfl⟩

theorem Copied.append (h : Copied k a a') (h' : Copied k b b') : Copied k (a ++ b) (a' ++ b') := by
  rw [Copied, h, h', map_append]

theorem Copied.eq_of_same (h : Copied .same code code') : code' = code := by
  rw [h, map_congr_left fun i _ => i.renumber_same, map_id']

/-- Two lowerings in progress, the first of which began to count labels at `low`. What has failed
comes behind what had failed when they began. -/
structure LowerState.Copy (k : Renumbering) (low : Nat) (noted noted' : Option Diagnostic)
    (σ τ : LowerState) : Prop where
  low_le : low ≤ σ.labels
  labels : τ.labels = k.label σ.labels
  failure : ∃ found found', σ.failure = noted.or found ∧ τ.failure = noted'.or found' ∧
    Option.Rel SameKind found found'

section

variable {α β γ δ : Type} {k : Renumbering} {low : Nat} {R : α → β → Prop} {Q : γ → δ → Prop}

def LowersAlike (k : Renumbering) (low : Nat) (R : α → β → Prop) (m : Lower α) (m' : Lower β) :
    Prop :=
  ∀ noted noted' σ τ, LowerState.Copy k low noted noted' σ τ →
    R (m σ).1 (m' τ).1 ∧ LowerState.Copy k low noted noted' (m σ).2 (m' τ).2

namespace LowersAlike

theorem pure {a : α} {b : β} (h : R a b) :
    LowersAlike k low R (Pure.pure a : Lower α) (Pure.pure b : Lower β) :=
  fun _ _ _ _ hστ => ⟨h, hστ⟩

theorem bind
    (hm : LowersAlike k low R m m') (hf : ∀ a b, R a b → LowersAlike k low Q (f a) (f' b)) :
    LowersAlike k low Q (m >>= f) (m' >>= f') := by
  intro noted noted' σ τ hστ
  obtain ⟨hab, hστ'⟩ := hm noted noted' σ τ hστ
  exact hf _ _ hab noted noted' _ _ hστ'

theorem fail {d e : Diagnostic} (h : SameKind d e) :
    LowersAlike k low (Copied k) (Lower.fail d) (Lower.fail e) := by
  intro noted noted' σ τ hστ
  obtain ⟨found, found', hfound, hfound', hrel⟩ := hστ.failure
  refine ⟨rfl, hστ.low_le, hστ.labels, found.or (some d), found'.or (some e), ?_, ?_, option_rel_or hrel (.some h)⟩
  · rw [← Option.or_assoc, ← hfound]
    rfl
  · rw [← Option.or_assoc, ← hfound']
    rfl

theorem freshNumber (hk : k.CountsOn low) :
    LowersAlike k low (fun a b => b = k.label a) Lower.freshNumber Lower.freshNumber := by
  intro noted noted' σ τ hστ
  refine ⟨hστ.labels, Nat.le_succ_of_le hστ.low_le, ?_, hστ.failure⟩
  exact (congrArg (· + 1) hστ.labels).trans (hk σ.labels hστ.low_le).symm

theorem append (hm : LowersAlike k low (Copied k) m m') (hn : LowersAlike k low (Copied k) n n') :
    LowersAlike k low (Copied k) (do return (← m) ++ (← n)) (do return (← m') ++ (← n')) :=
  hm.bind fun _ _ ha => hn.bind fun _ _ hb => pure (ha.append hb)

end LowersAlike

end

section

variable {x : Guard}

variable {k : Renumbering} {low : Nat} {ρ : VarRef → VarRef → Prop} {t u : Table}

theorem constant_alike (v : Value) (pos : Pos) :
    ExceptAlike Eq (constant v) (constant { v with pos }) := by
  unfold constant
  dsimp only
  split
  · exact .ok rfl
  split
  · split
    · exact .ok rfl
    · exact .error rfl
  · split
    · exact .ok rfl
    · exact .error rfl
  · exact .ok rfl
  · exact .error rfl

theorem arithmetic_alike (o : Operand) (pos : Pos) :
    ExceptAlike Eq (arithmetic o) (arithmetic { o with pos }) := by
  unfold arithmetic
  dsimp only
  split
  · exact .ok rfl
  · exact .ok rfl
  · exact .ok rfl
  · exact .ok rfl
  · exact .error rfl

/-- Variables that stand for each other are kept in places that differ in their number. -/
def PlacesAlike (k : Renumbering) (ρ : VarRef → VarRef → Prop) (t u : Table) : Prop :=
  ∀ r s, ρ r s → place u s = (place t r).renumber k

def Persists (t u : Table) : Prop :=
  ∀ r < t.store.size, (u.var r).id = (t.var r).id ∧ (u.var r).name = (t.var r).name

theorem persists_check (parsed : Parsed) (t : Table) : Persists t (Typing.check parsed t).table :=
  fun r _ => ⟨(Typing.retains_check parsed t).id r, (Typing.retains_check parsed t).name r⟩

theorem placesAlike_of_twin (h : Table.Twin E m n c t u)
    (hagree : Table.Agree m n c) (ht : Persists t t') (hu : Persists u u')
    (hk : ∀ i < c, k.id (UInt32.ofNat (m + i)) = UInt32.ofNat (n + i)) :
    PlacesAlike k (Paired m n c) t' u' := by
  intro r s hrs
  obtain ⟨hr, hs⟩ := hrs.lt h.left.pos h.right.pos
  obtain ⟨hid, hname⟩ := ht r (h.left.size ▸ hr)
  obtain ⟨hid', hname'⟩ := hu s (h.right.size ▸ hs)
  unfold place Var.isDiscard
  dsimp only
  rw [hid, hid', hname, hname', (h.vars r s hrs).name]
  cases hrs with
  | discard =>
    rw [h.left.discard.id, h.right.discard.id]
    rfl
  | own i hi =>
    rw [h.left.ids i hi, h.right.ids i hi, hagree i hi]
    split
    · rfl
    · rw [Place.renumber, hk i hi]

section

variable (hplace : PlacesAlike k ρ t u)

include hplace

theorem push_alike {x y : Expr} (h : ItemTwin ρ x y) :
    LowersAlike k low (Copied k) (push t x) (push u y) := by
  cases h with
  | value v pos =>
    have hconst := constant_alike v pos
    unfold push
    dsimp only
    generalize constant v = a at hconst
    generalize constant { v with pos } = b at hconst
    cases hconst with
    | error hkind => exact .fail hkind
    | ok hab =>
      obtain rfl := hab
      exact .pure rfl
  | «variable» pos pos' hrs =>
    refine .pure ?_
    rw [hplace _ _ hrs]
    rfl
  | operand o pos => exact .fail rfl

theorem pushAll_alike {xs ys : List Expr} (h : ItemsTwin ρ xs ys) :
    LowersAlike k low (Copied k) (pushAll t xs) (pushAll u ys) := by
  induction h with
  | nil => exact .pure rfl
  | cons hxy _ ih => exact (push_alike hplace hxy).append ih

theorem lowerItems_alike {xs ys : List Expr}
    (h : ItemsTwin ρ xs ys) : LowersAlike k low (Copied k) (lowerItems t xs) (lowerItems u ys) := by
  induction h with
  | nil => exact .pure rfl
  | @cons x y xs ys hxy _ ih =>
    cases hxy with
    | value v pos => exact (push_alike hplace (.value v pos)).append ih
    | «variable» pos pos' hrs => exact (push_alike hplace (.variable pos pos' hrs)).append ih
    | operand o pos =>
      have hop := arithmetic_alike o pos
      rw [lowerItems, lowerItems]
      generalize arithmetic o = a at hop
      generalize arithmetic { o with pos } = b at hop
      cases hop with
      | error hkind => exact .fail hkind
      | ok hab =>
        obtain rfl := hab
        exact ih.bind fun _ _ h => .pure (.append (a := [.stack _]) rfl h)

theorem lowerCall_alike (h : CallTwin ρ c c') :
    LowersAlike k low (Copied k) (lowerCall t c) (lowerCall u c') := by
  cases h with
  | mk pos pos' hargs htgt =>
    cases htgt with
    | none => exact .fail rfl
    | some hfg =>
      cases hfg
      refine (pushAll_alike hplace hargs).bind fun args args' hargs => ?_
      dsimp only
      split
      · split
        · exact .pure (hargs.append rfl)
        · refine .bind (.fail ?_) fun _ _ h => .pure (hargs.append h)
          rfl
      · exact .pure (hargs.append rfl)

theorem lowerValue_alike {x y : Expr} (h : ValueTwin ρ x y) :
    LowersAlike k low (Copied k) (lowerValue t x) (lowerValue u y) := by
  cases h with
  | expression h => exact lowerItems_alike hplace h.items
  | call h => exact lowerCall_alike hplace h

theorem lowerGuard_alike (target : Label) (h : GuardTwin ρ x y) :
    LowersAlike k low (Copied k) (lowerGuard t target x) (lowerGuard u (target.renumber k) y) := by
  cases h with
  | unwrap pos pos' hrs hbind =>
    refine .pure ?_
    rw [hplace _ _ hrs, hplace _ _ hbind.pair]
    rfl
  | compare h =>
    cases h with
    | mk pos pos' hleft hright =>
      refine (lowerItems_alike hplace hleft.items).bind fun _ _ hl => ?_
      refine (lowerItems_alike hplace hright.items).bind fun _ _ hr => ?_
      dsimp only
      split
      · refine .bind (.fail ?_) fun _ _ h => .pure ((hl.append hr).append h)
        rfl
      · refine .pure (((hl.append hr).append ?_).append rfl)
        rw [Copied, map_map]
        rfl

end

theorem lowerStmts_alike (hk : k.CountsOn low) (hplace : PlacesAlike k ρ t u) (owner : Bytes)
     (h : StmtsTwin ρ xs ys) :
    LowersAlike k low (Copied k) (lowerStmts t owner xs) (lowerStmts u owner ys) := by
  induction h with
  | nil => exact .pure rfl
  | declare pos pos' hr hx _ ih | assign pos pos' hr hx _ ih =>
    refine .append ?_ ih
    rw [lowerStmt, lowerStmt, hplace _ _ hr]
    exact (lowerValue_alike hplace hx).bind fun _ _ h => .pure (h.append rfl)
  | call hc _ ih =>
    refine .append ?_ ih
    exact lowerCall_alike hplace hc
  | branch pos pos' start start' stop stop' hg _ _ ihyes ih =>
    refine .append ?_ ih
    refine (LowersAlike.freshNumber hk).bind fun number _ hnumber => ?_
    obtain rfl := hnumber
    refine (lowerGuard_alike hplace (.flow owner .otherwise number) hg).bind fun _ _ hjump => ?_
    exact ihyes.bind fun _ _ hyes => .pure ((hjump.append hyes).append rfl)
  | branchElse pos pos' start start' stop stop' otherwise otherwise' start₂ start₂' stop₂ stop₂' hg _
      _ _ ihyes ihno ih =>
    refine .append ?_ ih
    refine (LowersAlike.freshNumber hk).bind fun number _ hnumber => ?_
    obtain rfl := hnumber
    refine (lowerGuard_alike hplace (.flow owner .otherwise number) hg).bind fun _ _ hjump => ?_
    refine ihyes.bind fun _ _ hyes => ihno.bind fun _ _ hno => .pure ?_
    exact (((hjump.append hyes).append rfl).append hno).append rfl
  | loop pos pos' start start' stop stop' hg _ _ ihbody ih =>
    refine .append ?_ ih
    refine (LowersAlike.freshNumber hk).bind fun number _ hnumber => ?_
    obtain rfl := hnumber
    refine (lowerGuard_alike hplace (.flow owner .endLoop number) hg).bind fun _ _ hjump => ?_
    refine ihbody.bind fun _ _ hbody => .pure ?_
    exact ((Copied.append rfl hjump).append hbody).append rfl
  | returnNone pos pos' _ ih =>
    refine .append ?_ ih
    exact .pure rfl
  | returnSome pos pos' hx _ ih =>
    refine .append ?_ ih
    exact (lowerValue_alike hplace hx).bind fun _ _ h => .pure (h.append rfl)

theorem binding?_alike (h : GuardTwin ρ x y) :
    List.Forall₂ ρ x.binding?.toList y.binding?.toList := by
  cases h with
  | compare _ => exact .nil
  | unwrap pos pos' _ hbind => exact .cons hbind.pair .nil

theorem declaredIn_alike (h : StmtsTwin ρ xs ys) :
    List.Forall₂ ρ (declaredIn xs) (declaredIn ys) := by
  induction h with
  | nil => exact .nil
  | declare pos pos' hr _ _ ih => exact .cons hr ih
  | assign pos pos' _ _ _ ih => exact ih
  | call _ _ ih => exact ih
  | branch pos pos' start start' stop stop' hg _ _ ihyes ih =>
    exact rel_append (rel_append (rel_append (binding?_alike hg) ihyes) .nil) ih
  | branchElse pos pos' start start' stop stop' otherwise otherwise' start₂ start₂' stop₂ stop₂' hg _
      _ _ ihyes ihno ih =>
    exact rel_append (rel_append (rel_append (binding?_alike hg) ihyes) ihno) ih
  | loop pos pos' start start' stop stop' hg _ _ ihbody ih =>
    exact rel_append (rel_append (binding?_alike hg) ihbody) ih
  | returnNone pos pos' _ ih => exact ih
  | returnSome pos pos' _ _ ih => exact ih

theorem copied_map (hplace : PlacesAlike k ρ t u) {f : Place → Instr}
    (hf : ∀ p, f (p.renumber k) = (f p).renumber k) {rs ss : List VarRef}
    (h : List.Forall₂ ρ rs ss) :
    Copied k (rs.map fun r => f (place t r)) (ss.map fun r => f (place u r)) := by
  induction h with
  | nil => rfl
  | @cons r s rs ss hrs _ ih =>
    have hfirst : Copied k [f (place t r)] [f (place u s)] := by
      rw [hplace _ _ hrs, hf]
      rfl
    exact hfirst.append ih

/-- Twins of a function have the same code up to numbers. -/
theorem lowerFunction_alike (hk : k.CountsOn low) (hplace : PlacesAlike k ρ t u) {fn fn' : Function}
    (h : FunctionTwin ρ fn fn') :
    LowersAlike k low (Copied k) (lowerFunction t fn) (lowerFunction u fn') := by
  cases h with
  | mk pos pos' start start' stop stop' hfg hparams hstmts =>
    refine (lowerStmts_alike hk hplace _ hstmts).bind fun _ _ hbody => .pure ?_
    refine .append (.append (.append (.append rfl ?_) ?_) hbody) rfl
    · exact copied_map hplace (fun _ => rfl) (rel_append hparams (declaredIn_alike hstmts))
    · exact copied_map hplace (fun _ => rfl) (rel_reverse hparams)

theorem lowerFunctions_alike (hk : k.CountsOn low) (hplace : PlacesAlike k ρ t u)
     (h : List.Forall₂ (FunctionTwin ρ) fns fns') :
    LowersAlike k low
      (List.Forall₂ fun a b => FunctionTwin ρ a.1 b.1 ∧ Copied k a.2 b.2)
      (lowerFunctions t fns) (lowerFunctions u fns') := by
  induction h with
  | nil => exact .pure .nil
  | cons hfn _ ih =>
    refine (lowerFunction_alike hk hplace hfn).bind fun _ _ hcode => ?_
    exact ih.bind fun _ _ hrest => .pure (.cons ⟨hfn, hcode⟩ hrest)

end

end Ifj24.Code
