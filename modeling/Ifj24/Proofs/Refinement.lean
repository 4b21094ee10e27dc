import Mathlib.Logic.Relation
import Ifj24.Proofs.Checking
import Ifj24.Proofs.Readiness

/-!
Checking only refines. What it writes are types, the functions that calls mean, and number
literals at another type; all else of a tree and of the table stays. A run of the check is a
sequence of single writes, whether it finds a fault or not: a type is written where there was
none, a nullability where it was not known, and a literal where the one of the source still
stands. So nothing that has been decided is decided again.
-/

open List

namespace Ifj24

theorem Table.var_modify_cases (t : Table) (r s : VarRef) (f : Var → Var) :
    (t.modify r f).var s = t.var s ∨ s = r ∧ (t.modify r f).var s = f (t.var s) := by
  by_cases hs : s < t.store.size
  · rw [Table.var_modify t r s f hs]
    split
    · exact .inr ⟨‹_›, rfl⟩
    · exact .inl rfl
  · left
    have hs' : ¬ s < (t.modify r f).store.size := by rwa [Table.size_modify]
    simp [Table.var, Array.getD_eq_getD_getElem?, hs, hs']

/-- The tables differ at most in the types and the nullability of variables. -/
structure Table.Retains (t u : Table) : Prop where
  /-- Scopes, the registry of functions, the log and the settings. -/
  rest : { u with store := t.store } = t
  size : u.store.size = t.store.size
  vars : ∀ r, { u.var r with type := (t.var r).type, nullable := (t.var r).nullable } = t.var r

namespace Table.Retains

variable {t u v : Table}

theorem refl (t : Table) : t.Retains t := ⟨rfl, rfl, fun _ => rfl⟩

theorem trans (h : t.Retains u) (h' : u.Retains v) : t.Retains v where
  rest := by
    rw [← h.rest, ← h'.rest]
  size := h'.size.trans h.size
  vars r := by
    rw [← h.vars r, ← h'.vars r]

theorem log (h : t.Retains u) : u.log = t.log := by
  rw [← h.rest]

theorem id (h : t.Retains u) (r : VarRef) : (u.var r).id = (t.var r).id := by
  rw [← h.vars r]

theorem name (h : t.Retains u) (r : VarRef) : (u.var r).name = (t.var r).name := by
  rw [← h.vars r]

end Table.Retains

end Ifj24

namespace Ifj24.Typing

open Ifj24.Tree

variable {xs : List Expr}

section

/-- Parts of a tree apart from what checking writes into them. -/
class Annotated (α : Type) where
  /-- The part without types, literals and what its calls mean. -/
  bare : α → α
  /-- The places of operands, each with the literal that stands there. -/
  slots : α → List (Option Value)

export Annotated (bare slots)

def bareItem : Expr → Expr
  | .value v => .value { v with type := .unresolved, literal := "" }
  | .operand o => .operand (.untyped o.pos o.op)
  | x => x

def literal? : Expr → Option Value
  | .value v => some v
  | _ => none

instance : Annotated (List Expr) where
  bare xs := xs.map bareItem
  slots xs := xs.map literal?

theorem bare_items (xs : List Expr) : bare xs = xs.map bareItem := rfl

theorem slots_items (xs : List Expr) : slots xs = xs.map literal? := rfl

theorem bare_set {x : Expr} (h : (bare xs)[k]? = some (bareItem x)) :
    bare (xs.set k x) = bare xs := by
  obtain ⟨hk, hx⟩ := List.getElem?_eq_some_iff.mp h
  rw [bare_items, map_set, ← hx]
  exact set_getElem_self hk

theorem slots_set (xs : List Expr) (k : Nat) (x : Expr) :
    slots (xs.set k x) = (slots xs).set k (literal? x) := map_set

theorem isSome_literal?_bareItem (x : Expr) :
    (literal? (bareItem x)).isSome = (literal? x).isSome := by
  cases x <;> rfl

theorem exists_literal_of_bare {k : Nat} {x : Expr} (h : (bare xs)[k]? = some (bareItem x))
    (hx : (literal? x).isSome = true) : ∃ v, (slots xs)[k]? = some (some v) := by
  rw [bare_items, getElem?_map, Option.map_eq_some_iff] at h
  obtain ⟨y, hy, hyx⟩ := h
  rw [← isSome_literal?_bareItem, ← hyx, isSome_literal?_bareItem] at hx
  obtain ⟨v, hv⟩ := Option.isSome_iff_exists.mp hx
  exact ⟨v, by rw [slots_items, getElem?_map, hy, Option.map_some, hv]⟩

theorem slots_set_of_none {x : Expr} (h : (bare xs)[k]? = some (bareItem x))
    (hx : literal? x = none) : slots (xs.set k x) = slots xs := by
  rw [bare_items, getElem?_map, Option.map_eq_some_iff] at h
  obtain ⟨y, hy, hyx⟩ := h
  have hnone : literal? y = none := by
    rw [← Option.not_isSome_iff_eq_none, ← isSome_literal?_bareItem, hyx,
      isSome_literal?_bareItem, hx]
    exact nofun
  obtain ⟨hk, rfl⟩ := List.getElem?_eq_some_iff.mp hy
  rw [slots_set, hx, ← hnone, slots_items, ← map_set, set_getElem_self]

instance : Annotated Expression where
  bare e := { e with items := bare e.items, type := .unresolved, nullable := false }
  slots e := slots e.items

instance : Annotated Truth where
  bare c := { c with left := bare c.left, right := bare c.right, type := .unresolved }
  slots c := slots c.left ++ slots c.right

instance : Annotated Call where
  bare c := { c with args := bare c.args, target := none }
  slots c := slots c.args

/-- Of right-hand sides only expressions and calls are written into. -/
instance : Annotated Expr where
  bare
    | .expression e => .expression (bare e)
    | .call c => .call (bare c)
    | x => x
  slots
    | .expression e => slots e
    | .call c => slots c
    | _ => []

instance : Annotated (Option Expr) where
  bare x := x.map bare
  slots x := x.elim [] slots

instance : Annotated Guard where
  bare
    | .compare c => .compare (bare c)
    | .unwrap subject binding => .unwrap subject binding
  slots
    | .compare c => slots c
    | .unwrap .. => []

mutual

def bareStmt : Stmt → Stmt
  | .declare pos r x => .declare pos r (bare x)
  | .assign pos r x => .assign pos r (bare x)
  | .call c => .call (bare c)
  | .ifElse pos g yes no =>
    .ifElse pos (bare g) { yes with stmts := bareStmts yes.stmts } <|
      match no with
      | none => none
      | some e => some ⟨e.pos, { e.body with stmts := bareStmts e.body.stmts }⟩
  | .while pos g body => .while pos (bare g) { body with stmts := bareStmts body.stmts }
  | .return pos x => .return pos (bare x)
  | .elseStart e => .elseStart ⟨e.pos, { e.body with stmts := bareStmts e.body.stmts }⟩
  | .blockEnd e => .blockEnd e
termination_by structural s => s

def bareStmts : List Stmt → List Stmt
  | [] => []
  | s :: rest => bareStmt s :: bareStmts rest
termination_by structural ss => ss

end

mutual

def stmtSlots : Stmt → List (Option Value)
  | .declare _ _ x | .assign _ _ x => slots x
  | .call c => slots c
  | .ifElse _ g yes no =>
    slots g ++ (stmtsSlots yes.stmts ++
      match no with
      | none => []
      | some e => stmtsSlots e.body.stmts)
  | .while _ g body => slots g ++ stmtsSlots body.stmts
  | .return _ x => slots x
  | .elseStart e => stmtsSlots e.body.stmts
  | .blockEnd _ => []
termination_by structural s => s

def stmtsSlots : List Stmt → List (Option Value)
  | [] => []
  | s :: rest => stmtSlots s ++ stmtsSlots rest
termination_by structural ss => ss

end

instance : Annotated Stmt := ⟨bareStmt, stmtSlots⟩

/-- Two parts, of which the first stands before the second. -/
instance {α β : Type} [Annotated α] [Annotated β] : Annotated (α × β) where
  bare p := (bare p.1, bare p.2)
  slots p := slots p.1 ++ slots p.2

instance : Annotated (List Stmt) := ⟨bareStmts, stmtsSlots⟩

instance : Annotated Function where
  bare fn := { fn with body := { fn.body with stmts := bare fn.body.stmts } }
  slots fn := slots fn.body.stmts

instance : Annotated (List Function) where
  bare fns := fns.map bare
  slots fns := fns.flatMap slots

instance : Annotated Program where
  bare p := { p with functions := bare p.functions }
  slots p := slots p.functions

structure Wraps {α β : Type} [Annotated α] [Annotated β] (g : α → β) : Prop where
  bare : ∀ x, bare (g x) = g (bare x) := by exact fun _ => rfl
  slots : ∀ x, slots (g x) = slots x := by exact fun _ => rfl

end

section

/-- How far a check has come: the literals of the tree and the table. -/
structure Stage where
  slots : List (Option Value)
  table : Table

variable {F : Table → VarRef → Prop} {orig vs : List (Option Value)} {t u : Table}

/-- What checking does at once. The literals of the source are `orig`, and `F` tells which
variables a guard may bind. -/
inductive Write (F : Table → VarRef → Prop) (orig : List (Option Value)) : Stage → Stage → Prop where
  | typed {vs : List (Option Value)} {t : Table} (type : DataType)
      (h : (t.var r).type.isResolved = false) :
    Write F orig ⟨vs, t⟩ ⟨vs, t.modify r fun v => { v with type }⟩
  | settled {vs : List (Option Value)} {t : Table} (nullable : Nullability)
      (h : (t.var r).nullable = .unknown) :
    Write F orig ⟨vs, t⟩ ⟨vs, t.modify r fun v => { v with nullable }⟩
  | bound {vs : List (Option Value)} {t : Table} (type : DataType) (h : F t r) :
    Write F orig ⟨vs, t⟩ ⟨vs, t.modify r fun v => { v with type, nullable := .no }⟩
  | converted {vs : List (Option Value)} {t : Table} {k : Nat} {v w : Value} {type : DataType}
      (hnow : vs[k]? = some (some v)) (hfirst : orig[k]? = some (some v))
      (h : v.coerce type = .ok w) : Write F orig ⟨vs, t⟩ ⟨vs.set k (some w), t⟩

abbrev Steps (F : Table → VarRef → Prop) (orig : List (Option Value)) : Stage → Stage → Prop :=
  Relation.ReflTransGen (Write F orig)

theorem Steps.length_eq {a b : Stage} (h : Steps F orig a b) : b.slots.length = a.slots.length := by
  induction h with
  | refl => rfl
  | tail _ h ih =>
    cases h with
    | converted => rw [← ih, length_set]
    | typed | settled | bound => exact ih

theorem Steps.inside {now : List (Option Value)} (hlen : now.length = first.length)
    (h : Steps F orig ⟨vs, t⟩ ⟨ws, u⟩) (behind next : List (Option Value)) :
    Steps F (first ++ (orig ++ behind)) ⟨now ++ (vs ++ next), t⟩ ⟨now ++ (ws ++ next), u⟩ := by
  refine .lift (p := Write F (first ++ (orig ++ behind)))
    (fun a => (⟨now ++ (a.slots ++ next), a.table⟩ : Stage)) (fun a b hab => ?_) _ _ h
  cases hab with
  | typed type h => exact .typed type h
  | settled nullable h => exact .settled nullable h
  | bound type h => exact .bound type h
  | @converted vs t k v w type hnow hfirst h =>
    have hk := (List.getElem?_eq_some_iff.mp hnow).1
    have hk' := (List.getElem?_eq_some_iff.mp hfirst).1
    have hset : now ++ (vs.set k (some w) ++ next) =
        (now ++ (vs ++ next)).set (now.length + k) (some w) := by
      rw [set_append_right _ _ (Nat.le_add_right _ _), Nat.add_sub_cancel_left,
        set_append_left _ _ hk]
    change Write F _ ⟨now ++ (vs ++ next), t⟩ ⟨now ++ (vs.set k (some w) ++ next), t⟩
    rw [hset]
    refine .converted ?_ ?_ h
    · rw [getElem?_append_right (Nat.le_add_right _ _), Nat.add_sub_cancel_left,
        getElem?_append_left hk, hnow]
    · rw [hlen, getElem?_append_right (Nat.le_add_right _ _), Nat.add_sub_cancel_left,
        getElem?_append_left hk', hfirst]

theorem Steps.append_right (h : Steps F orig ⟨vs, t⟩ ⟨ws, u⟩) (behind now : List (Option Value)) :
    Steps F (orig ++ behind) ⟨vs ++ now, t⟩ ⟨ws ++ now, u⟩ := by
  have hlen : ([] : List (Option Value)).length = ([] : List (Option Value)).length := rfl
  exact inside hlen h behind now

theorem Steps.append_left (hlen : now.length = first.length)
    (h : Steps F orig ⟨vs, t⟩ ⟨ws, u⟩) : Steps F (first ++ orig) ⟨now ++ vs, t⟩ ⟨now ++ ws, u⟩ := by
  simpa only [append_nil] using h.inside hlen [] []

theorem Write.retains {a b : Stage} (h : Write F orig a b) : a.table.Retains b.table := by
  have hmodify (t : Table) (r : VarRef) {f : Var → Var}
      (hf : ∀ v : Var, { f v with type := v.type, nullable := v.nullable } = v) :
      t.Retains (t.modify r f) := by
    refine ⟨rfl, t.size_modify r f, fun s => ?_⟩
    rcases t.var_modify_cases r s f with h | ⟨-, h⟩
    · rw [h]
    · rw [h, hf]
  cases h with
  | typed | settled | bound => exact hmodify _ _ fun _ => rfl
  | converted => exact .refl _

theorem Steps.retains {a b : Stage} (h : Steps F orig a b) : a.table.Retains b.table := by
  induction h with
  | refl => exact .refl _
  | tail _ h ih => exact ih.trans h.retains

/-- Writes that lead from one stage to another and go through the tables `C`. -/
structure Trail (F : Table → VarRef → Prop) (orig : List (Option Value)) (a b : Stage)
    (C : Table → Prop) : Prop where
  steps : Steps F orig a b
  passes : ∀ u, C u → ∃ vs, Steps F orig a ⟨vs, u⟩ ∧ Steps F orig ⟨vs, u⟩ b

namespace Trail

variable {a b : Stage} {C D : Table → Prop}

theorem mono (h : Trail F orig a b C) (hD : ∀ u, D u → C u) : Trail F orig a b D :=
  ⟨h.steps, fun u hu => h.passes u (hD u hu)⟩

theorem single (h : Steps F orig a b) : Trail F orig a b (· = a.table) := by
  refine ⟨h, ?_⟩
  rintro _ rfl
  exact ⟨a.slots, .refl, h⟩

theorem join {v : Table} (h : Trail F vs ⟨vs, t⟩ ⟨vs', u⟩ C) (h' : Trail F ws ⟨ws, u⟩ ⟨ws', v⟩ D) :
    Trail F (vs ++ ws) ⟨vs ++ ws, t⟩ ⟨vs' ++ ws', v⟩ fun w => C w ∨ D w := by
  have hlen : vs'.length = vs.length := h.steps.length_eq
  refine ⟨(h.steps.append_right ws ws).trans (h'.steps.append_left hlen), fun w hw => ?_⟩
  rcases hw with hw | hw
  · obtain ⟨xs, hbef, hafter⟩ := h.passes w hw
    exact ⟨xs ++ ws, hbef.append_right ws ws,
      (hafter.append_right ws ws).trans (h'.steps.append_left hlen)⟩
  · obtain ⟨xs, hbef, hafter⟩ := h'.passes w hw
    exact ⟨vs' ++ xs, (h.steps.append_right ws ws).trans (hbef.append_left hlen),
      hafter.append_left hlen⟩

end Trail

end

section

variable {α β γ : Type} [Annotated α] {R S : Prop} {F : Table → VarRef → Prop}
  {orig : List (Option Value)} {t : Table} {d : Diagnostic}

/-- A part of a tree has been written into, while the table stayed. -/
structure Refined (F : Table → VarRef → Prop) (orig : List (Option Value)) (t : Table) (x y : α) :
    Prop where
  same : bare y = bare x
  steps : Steps F orig ⟨slots x, t⟩ ⟨slots y, t⟩

theorem Refined.refl (x : α) : Refined F orig t x x := ⟨rfl, .refl⟩

theorem Refined.trans {x y : α} (h : Refined F orig t x y) (h' : Refined F orig t y z) :
    Refined F orig t x z :=
  ⟨h'.same.trans h.same, h.steps.trans h'.steps⟩

/-- What a fault is about: no type that is missing if `R` holds, and not the compiler if `S`
holds. -/
structure Blames (R S : Prop) (d : Diagnostic) : Prop where
  type : R → d.kind ≠ .unknownType
  program : S → d.Ordinary

theorem Blames.of_kind (h : (d.kind == .unknownType || d.kind == .internal) = false) :
    Blames R S d := by
  obtain ⟨htype, hinternal⟩ := Bool.or_eq_false_iff.mp h
  exact ⟨fun _ => beq_eq_false_iff_ne.mp htype, fun _ => ⟨hinternal⟩⟩

/-- The result of a check of `x`: also one that fails has written into it. `R` tells whether
the types of all variables in it are known, and `S` whether it is ready. -/
inductive Refining (R S : Prop) (F : Table → VarRef → Prop) (orig : List (Option Value))
    (t : Table) (x : α) (Q : β → α → Prop) : EStateM.Result Diagnostic α β → Prop where
  | ok {b : β} {y : α} (h : Refined F orig t x y) (hb : Q b y) : Refining R S F orig t x Q (.ok b y)
  | error {d : Diagnostic} {y : α} (h : Refined F orig t x y) (hd : Blames R S d) :
    Refining R S F orig t x Q (.error d y)

variable {ys : List Expr} {c : Truth} {i : Nat} {e : Expression}

namespace Refining

variable {x y : α} {Q : β → α → Prop} {Q' : γ → α → Prop}

theorem pure {b : β} (hb : Q b x) : Refining R S F orig t x Q (.ok b x) := .ok (.refl x) hb

theorem throw (hd : Blames R S d) : Refining R S F orig t x Q (.error d x) := .error (.refl x) hd

theorem after (h : Refined F orig t x y)
    (hr : Refining R S F orig t y Q r) : Refining R S F orig t x Q r := by
  cases hr with
  | ok h' hb => exact .ok (h.trans h') hb
  | error h' hd => exact .error (h.trans h') hd

theorem bind {m : Check α β} {k : β → Check α γ} (hm : Refining R S F orig t x Q (m x))
    (hk : ∀ b y, Refined F orig t x y → Q b y → Refining R S F orig t y Q' (k b y)) :
    Refining R S F orig t x Q' ((m >>= k) x) := by
  rw [bind_apply]
  generalize m x = r at hm
  cases hm with
  | ok h hb => exact (hk _ _ h hb).after h
  | error h hd => exact .error h hd

theorem ofExcept_bind {e : Except Diagnostic β} (he : ∀ d, e = .error d → Blames R S d)
    (hk : ∀ b, e = .ok b → Refining R S F orig t x Q' (k b x)) :
    Refining R S F orig t x Q' ((ofExcept e >>= k) x) := by
  cases e with
  | ok b => exact hk b rfl
  | error d => exact .throw (he d rfl)

theorem within {whole : Type} [Annotated whole] (get : whole → α) (put : whole → α → whole)
    {check : Check α β} {w : whole} {all : List (Option Value)}
    (h : Refining R S F orig t (get w) Q (check (get w)))
    (hput : ∀ y, Refined F orig t (get w) y → Refined F all t w (put w y)) :
    Refining R S F all t w (fun b w' => ∃ y, w' = put w y ∧ Refined F orig t (get w) y ∧ Q b y)
      (Check.within get put check w) := by
  unfold Check.within
  generalize check (get w) = r at h
  cases h with
  | ok h hb => exact .ok (hput _ h) ⟨_, rfl, h, hb⟩
  | error h hd => exact .error (hput _ h) hd

end Refining

theorem forall_of_map {α β : Type} {g : α → β} {P : α → Prop} {xs ys : List α}
    (hP : ∀ x y, g y = g x → P x → P y) (h : ys.map g = xs.map g) (hxs : ∀ x ∈ xs, P x) :
    ∀ y ∈ ys, P y := by
  intro y hy
  have hmem : g y ∈ xs.map g := h ▸ mem_map_of_mem hy
  obtain ⟨x, hx, hxy⟩ := mem_map.mp hmem
  exact hP x y hxy.symm (hxs x hx)

def Resolved (t : Table) (xs : List Expr) : Prop :=
  ∀ v : Variable, .variable v ∈ xs → (t.var v.var).type.isResolved = true

theorem Resolved.mono (h : Resolved t xs) (hys : ∀ y ∈ ys, y ∈ xs) : Resolved t ys :=
  fun v hv => h v (hys _ hv)

theorem Resolved.of_bare (h : Resolved t xs) (hys : bare ys = bare xs) : Resolved t ys := by
  refine fun v hv => forall_of_map (P := fun x => ∀ v : Variable, x = .variable v →
    (t.var v.var).type.isResolved = true) ?_ hys (fun x hx w hw => h w (hw ▸ hx)) _ hv v rfl
  rintro x _ hbare hx v rfl
  cases x with
  | «variable» w => exact hx v hbare.symm
  | value | operand | expression | truth | call => cases hbare

def Terms (xs : List Expr) : Prop := ∀ x ∈ xs, x.shape = .value ∨ x.shape = .variable

theorem shape_bareItem (x : Expr) : (bareItem x).shape = x.shape := by
  cases x <;> rfl

theorem shape_of_bareItem {x y : Expr} (h : bareItem y = bareItem x) : y.shape = x.shape := by
  rw [← shape_bareItem y, h, shape_bareItem]

theorem Terms.of_bare (h : Terms xs) (hys : bare ys = bare xs) : Terms ys :=
  forall_of_map (fun _ _ hbare hx => shape_of_bareItem hbare ▸ hx) hys h

def Literals (vs : List (Option Value)) : Prop :=
  ∃ limit, Limit limit ∧ ∀ v, some v ∈ vs → v.Sound limit

theorem blames_leaf {x : Expr} (h : leaf t x slot = .error d) (hR : R → Resolved t [x])
    (hS : S → Terms [x]) : Blames R S d := by
  unfold leaf at h
  split at h
  · split at h <;> cases h
  · rename_i v
    dsimp only at h
    split at h
    · cases h
    · rename_i hopen
      cases h
      exact ⟨fun hr => absurd (hR hr v (mem_singleton_self _)) hopen, fun _ => ⟨rfl⟩⟩
  · rename_i hvalue hvariable
    cases h
    refine ⟨fun _ => nofun, fun hs => ?_⟩
    cases x with
    | value v => exact absurd rfl (hvalue v)
    | «variable» v => exact absurd rfl (hvariable v)
    | operand | expression | truth | call => cases hS hs _ (mem_singleton_self _) <;> contradiction

theorem leaf_ok {x : Expr} {y : Evaluated} (h : leaf t x slot = .ok y) :
    y.slot = slot ∧ (y.isLiteral = true → (literal? x).isSome = true) := by
  unfold leaf at h
  split at h
  · split at h <;> cases h <;> exact ⟨rfl, fun _ => rfl⟩
  · dsimp only at h
    split at h
    · cases h
      exact ⟨rfl, nofun⟩
    · cases h
  · cases h

theorem blames_coerce {v : Value} (hv : some v ∈ orig) (h : v.coerce type = .error d)
    (hS : S → Literals orig) : Blames R S d := by
  refine ⟨fun _ => ?_, fun hs => ?_⟩
  · unfold Value.coerce at h
    repeat' split at h
    all_goals
      cases h
      try exact nofun
  · obtain ⟨limit, hlimit, hsound⟩ := hS hs
    rcases Value.coerce_cases hlimit (hsound v hv) type with ⟨w, hw, -⟩ | ⟨d', hd', hkind⟩
    · cases h.symm.trans hw
    · cases h.symm.trans hd'
      exact .of_kind rfl hkind

theorem Value.coerce_keeps {v : Value} (h : v.coerce type = .ok w) :
    w.pos = v.pos ∧ w.null = v.null := by
  unfold Value.coerce at h
  split at h
  · cases h
  rename_i hnull
  have hnull : v.null = false := by simpa using hnull
  repeat' split at h
  all_goals cases h
  all_goals exact ⟨rfl, by simp [Value.ofLiteral, hnull]⟩

theorem blames_arithmeticOperand {x : Evaluated} (h : arithmeticOperand o x = .error d) :
    Blames R S d := by
  unfold arithmeticOperand at h
  split at h
  · cases h
    exact .of_kind rfl
  split at h <;> cases h
  exact .of_kind rfl

theorem blames_orderedOperand {x : Evaluated} (h : orderedOperand c x = .error d) :
    Blames R S d := by
  unfold orderedOperand at h
  split at h
  · cases h
    exact .of_kind rfl
  split at h <;> cases h
  exact .of_kind rfl

structure Untouched (orig now : List (Option Value)) (x : Evaluated) : Prop where
  same : ∀ k, x.slot = some k → now[k]? = orig[k]?
  site : x.isLiteral = true → ∃ k v, x.slot = some k ∧ orig[k]? = some (some v)

theorem Untouched.keep {x : Evaluated} (h : Untouched orig now x)
    (hk : ∀ k, x.slot = some k → later[k]? = now[k]?) : Untouched orig later x :=
  ⟨fun k hslot => (hk k hslot).trans (h.same k hslot), h.site⟩

theorem refining_coerceSlot {x : Evaluated} (hx : Untouched orig (slots xs) x)
    (hmode : x.isLiteral = true) (hS : S → Literals orig) (type : DataType) :
    Refining R S F orig t xs
      (fun _ ys => ∀ k, x.slot ≠ some k → (slots ys)[k]? = (slots xs)[k]?)
      (coerceSlot x type xs) := by
  obtain ⟨k, v, hslot, hfirst⟩ := hx.site hmode
  have hnow := (hx.same k hslot).trans hfirst
  obtain ⟨y, hy, hv⟩ : ∃ y, xs[k]? = some y ∧ literal? y = some v := by
    rwa [slots_items, getElem?_map, Option.map_eq_some_iff] at hnow
  obtain rfl : y = .value v := by
    cases y <;> cases hv
    rfl
  simp only [coerceSlot, bind_apply, get_apply, hslot, hy]
  cases hw : v.coerce type with
  | error d => exact .throw (blames_coerce (mem_of_getElem? hfirst) hw hS)
  | ok w =>
    obtain ⟨hpos, hnull⟩ := Value.coerce_keeps hw
    have hbare : (bare xs)[k]? = some (bareItem (.value w)) := by
      rw [bare_items, getElem?_map, hy]
      simp [bareItem, hpos, hnull]
    refine .ok ⟨bare_set hbare, ?_⟩ fun i hi => ?_
    · rw [slots_set]
      exact .single (.converted hnow hfirst hw)
    · rw [slots_set, getElem?_set_ne]
      rintro rfl
      exact hi rfl

def Evaluated.Apart (x y : Evaluated) : Prop := ∀ k, x.slot = some k → y.slot ≠ some k

theorem refining_binary (o : Operand) {l r : Evaluated} (hl : Untouched orig (slots xs) l)
    (hr : Untouched orig (slots xs) r) (hlr : l.Apart r) (hS : S → Literals orig) :
    Refining R S F orig t xs
      (fun _ ys => ∀ k, l.slot ≠ some k → r.slot ≠ some k → (slots ys)[k]? = (slots xs)[k]?)
      (binary o l r xs) := by
  refine .ofExcept_bind (fun _ => blames_arithmeticOperand) fun _ _ => ?_
  refine .ofExcept_bind (fun _ => blames_arithmeticOperand) fun _ _ => ?_
  split
  · exact .pure fun _ _ _ => rfl
  split
  · rename_i hboth
    obtain ⟨hlmode, hrmode⟩ := Bool.and_eq_true_iff.mp hboth
    refine (refining_coerceSlot hl hlmode hS .f64).bind fun l' ys _ hys => ?_
    have hr' : Untouched orig (slots ys) r := hr.keep fun k hk => hys k fun hk' => hlr k hk' hk
    refine (refining_coerceSlot hr' hrmode hS .f64).bind fun _ zs _ hzs => ?_
    exact .pure fun k hk hk' => (hzs k hk').trans (hys k hk)
  split
  · rename_i hmode
    exact (refining_coerceSlot hl hmode hS r.type).bind fun _ _ _ hys => .pure fun k hk _ => hys k hk
  split
  · rename_i hmode
    exact (refining_coerceSlot hr hmode hS l.type).bind fun _ _ _ hys => .pure fun k _ hk => hys k hk
  · exact .throw (.of_kind rfl)

/-- The operands of a sequence that has been evaluated up to its `i`-th node. -/
structure Pending (orig : List (Option Value)) (i : Nat) (stack : List Evaluated)
    (xs : List Expr) : Prop where
  untouched : ∀ y ∈ stack, Untouched orig (slots xs) y
  earlier : ∀ y ∈ stack, ∀ k, y.slot = some k → k < i
  apart : stack.Pairwise Evaluated.Apart
  ahead : ∀ k, i ≤ k → (slots xs)[k]? = orig[k]?

theorem Pending.push {stack : List Evaluated} {y : Evaluated} (h : Pending orig i stack xs)
    (hy : y.slot = some i) (hlit : y.isLiteral = true → ∃ v, (slots xs)[i]? = some (some v)) :
    Pending orig (i + 1) (y :: stack) xs where
  untouched := by
    have hi := h.ahead i (Nat.le_refl i)
    refine forall_mem_cons.mpr ⟨⟨fun k hk => ?_, fun hmode => ?_⟩, h.untouched⟩
    · cases hy.symm.trans hk
      exact hi
    · obtain ⟨v, hv⟩ := hlit hmode
      exact ⟨i, v, hy, hi.symm.trans hv⟩
  earlier := forall_mem_cons.mpr ⟨fun k hk => by
    cases hy.symm.trans hk
    exact Nat.lt_succ_self i, fun z hz k hk => Nat.lt_succ_of_lt (h.earlier z hz k hk)⟩
  apart := pairwise_cons.mpr ⟨fun z hz k hk hk' => by
    cases hy.symm.trans hk
    exact Nat.lt_irrefl i (h.earlier z hz i hk'), h.apart⟩
  ahead k hk := h.ahead k (Nat.le_of_succ_le hk)

theorem Pending.compute (h : Pending orig i (r :: l :: below) xs)
    (hys : ∀ k, l.slot ≠ some k → r.slot ≠ some k → (slots ys)[k]? = (slots xs)[k]?) (pos : Pos)
    (type : DataType) : Pending orig (i + 1) (.computed pos type :: below) ys := by
  obtain ⟨hr, hlbelow⟩ := pairwise_cons.mp h.apart
  obtain ⟨hl, hbelow⟩ := pairwise_cons.mp hlbelow
  have hmem {y : Evaluated} (hy : y ∈ below) : y ∈ r :: l :: below :=
    mem_cons_of_mem _ (mem_cons_of_mem _ hy)
  refine ⟨forall_mem_cons.mpr ⟨⟨nofun, nofun⟩, fun y hy => ?_⟩,
    forall_mem_cons.mpr ⟨nofun, fun y hy k hk => ?_⟩,
    pairwise_cons.mpr ⟨fun _ _ => nofun, hbelow⟩, fun k hk => ?_⟩
  · refine (h.untouched y (hmem hy)).keep fun k hk => hys k ?_ ?_
    · exact fun hk' => hl y hy k hk' hk
    · exact fun hk' => hr y (mem_cons_of_mem _ hy) k hk' hk
  · exact Nat.lt_succ_of_lt (h.earlier y (hmem hy) k hk)
  · have hfar {y : Evaluated} (hy : y ∈ r :: l :: below) : y.slot ≠ some k := fun hk' =>
      Nat.not_le_of_lt (h.earlier y hy k hk') (Nat.le_of_succ_le hk)
    rw [hys k (hfar (by simp)) (hfar (by simp))]
    exact h.ahead k (Nat.le_of_succ_le hk)

/-- The height tells how many operands there will be, so none is missing. -/
theorem refining_evaluateItems (hR : R → Resolved t rest)
    (hS : S → Literals orig ∧ (height stack.length (rest.map Expr.shape)).isSome)
    (hrest : (bare xs).drop i = bare rest ++ back) (h : Pending orig i stack xs) :
    Refining R S F orig t xs
      (fun stack' ys => Pending orig (i + rest.length) stack' ys ∧
        ∀ n, height stack.length (rest.map Expr.shape) = some n → stack'.length = n)
      (evaluateItems t i rest stack xs) := by
  induction rest generalizing i xs stack with
  | nil => exact .pure ⟨h, fun _ => Option.some.inj⟩
  | cons x rest ih =>
    have hR' (hr : R) : Resolved t rest := (hR hr).mono fun y => mem_cons_of_mem x
    have hnext {ys : List Expr} (hys : bare ys = bare xs) :
        (bare ys).drop (i + 1) = bare rest ++ back := by
      rw [hys, ← tail_drop, hrest]
      rfl
    have hi : (bare xs)[i]? = some (bareItem x) := by
      rw [← head?_drop, hrest]
      rfl
    have hlen : i + (x :: rest).length = i + 1 + rest.length := by
      rw [length_cons, Nat.add_assoc, Nat.add_comm 1]
    rw [map_cons, height_cons] at hS ⊢
    rw [hlen]
    have hleaf (hx : Shape.step stack.length x.shape = some (stack.length + 1)) (hterm : Terms [x]) :
        Refining R S F orig t xs (fun stack' ys => Pending orig (i + 1 + rest.length) stack' ys ∧
          ∀ n, ((Shape.step stack.length x.shape).bind fun k => height k (rest.map Expr.shape)) =
            some n → stack'.length = n)
        ((ofExcept (leaf t x (some i)) >>= fun y =>
          evaluateItems t (i + 1) rest (y :: stack)) xs) := by
      rw [hx] at hS ⊢
      refine .ofExcept_bind (fun _ h => blames_leaf h (fun hr => (hR hr).mono (by simp))
        fun _ => hterm) fun y hy => ?_
      obtain ⟨hslot, hlit⟩ := leaf_ok hy
      have hpush := h.push hslot fun hmode => exists_literal_of_bare hi (hlit hmode)
      exact ih hR' (by exact hS) (hnext rfl) hpush
    cases x with
    | value | «variable» => exact hleaf rfl (by simp [Terms, Expr.shape])
    | operand o =>
      rcases stack with _ | ⟨r, _ | ⟨l, below⟩⟩
      · exact .throw ⟨fun _ => nofun, fun hs => nomatch (hS hs).2⟩
      · exact .throw ⟨fun _ => nofun, fun hs => nomatch (hS hs).2⟩
      · have hlr : l.Apart r := fun k hk hk' =>
          (pairwise_cons.mp h.apart).1 l (by simp) k hk' hk
        refine (refining_binary o (h.untouched l (by simp)) (h.untouched r (by simp)) hlr
          fun hs => (hS hs).1).bind fun type ys hys hslots => ?_
        -- the operator itself is annotated where it stands
        have hi : (bare ys)[i]? = some (bareItem (.operand { o with type })) := hys.same ▸ hi
        have hnone := slots_set_of_none hi rfl
        have hset : Refined F orig t ys (ys.set i (.operand { o with type })) :=
          ⟨bare_set hi, hnone ▸ .refl⟩
        have hcompute := h.compute (hnone ▸ hslots) o.pos type
        exact .after hset (ih hR' (by exact hS) (hnext (hset.same.trans hys.same)) hcompute)
    | expression | truth | call => exact .throw ⟨fun _ => nofun, fun hs => nomatch (hS hs).2⟩

theorem Refined.items (h : Refined F orig t e.items xs) (type : DataType) (nullable : Bool) :
    Refined F orig t e { e with items := xs, type, nullable } where
  same := by
    change ({ e with items := _, type := _, nullable := _ } : Expression) = _
    rw [h.same]
    rfl
  steps := h.steps

/-- An expression of which every literal denotes a constant, and that leaves one operand. -/
def Orderly (e : Expression) : Prop := ∃ limit, Limit limit ∧ e.Ready limit

theorem sound_slots (h : ∀ x ∈ xs, x.Sound limit) : ∀ v, some v ∈ slots xs → v.Sound limit := by
  intro v hv
  obtain ⟨x, hx, hlit⟩ := mem_map.mp hv
  obtain rfl : x = .value v := by
    cases x <;> cases hlit
    rfl
  exact h _ hx

theorem literals_of_sound (hlimit : Limit limit) (h : ∀ x ∈ xs, x.Sound limit) :
    Literals (slots xs) := ⟨limit, hlimit, sound_slots h⟩

theorem refining_expression (hR : R → Resolved t e.items) (hS : S → Orderly e) :
    Refining R S F (slots e) t e (fun x e' => Untouched (slots e) (slots e') x)
      (expression t e) := by
  have hstart : Pending (slots e) 0 [] e.items := ⟨nofun, nofun, .nil, fun _ _ => rfl⟩
  unfold expression
  rw [bind_apply, get_apply]
  dsimp only
  split
  · rename_i hopen
    refine .throw ⟨fun _ => nofun, fun hs => ?_⟩
    obtain ⟨limit, -, he⟩ := hS hs
    simp [he.finished] at hopen
  have hready (hs : S) : Literals (slots e.items) ∧
      (height 0 (e.items.map Expr.shape)).isSome := by
    obtain ⟨limit, hlimit, he⟩ := hS hs
    exact ⟨literals_of_sound hlimit he.items, by rw [he.single]; rfl⟩
  refine (Refining.within ExpressionOf.items (fun e items => { e with items })
    (refining_evaluateItems hR hready (append_nil _).symm hstart) fun xs hxs => ?_).bind ?_
  · exact hxs.items e.type e.nullable
  rintro stack _ - ⟨xs, rfl, hxs, hstack, hlen⟩
  split
  · rename_i x
    exact .ok ((Refined.refl _).items _ _) (hstack.untouched x (by simp))
  · rename_i hmany
    refine .throw ⟨fun _ => nofun, fun hs => ?_⟩
    obtain ⟨limit, -, he⟩ := hS hs
    obtain ⟨x, hx⟩ := length_eq_one_iff.mp (hlen 1 he.single)
    exact absurd hx (hmany x)

theorem refining_convertLiteral {x : Evaluated} (hx : Untouched orig (slots e) x)
    (hS : S → Literals orig) (type : DataType) :
    Refining R S F orig t e (fun _ _ => True) (convertLiteral x type e) := by
  unfold convertLiteral
  split
  · exact .pure trivial
  split
  · exact .pure trivial
  · rename_i hconvertible
    have hmode : x.isLiteral = true := by
      simp only [Bool.or_eq_true, not_or, Bool.not_eq_true] at hconvertible
      simpa using hconvertible.1.1
    refine (Refining.within ExpressionOf.items (fun e items => { e with items })
      (refining_coerceSlot hx hmode hS type) fun xs hxs => ?_).bind ?_
    · exact hxs.items e.type e.nullable
    rintro y _ - ⟨xs, rfl, -, -⟩
    exact .ok ((Refined.refl _).items _ _) trivial

theorem Refined.left (h : Refined F orig t c.left e) (behind : List (Option Value)) :
    Refined F (orig ++ behind) t c { c with left := e } where
  same := by
    change ({ c with left := _, right := _, type := _ } : Truth) = _
    rw [h.same]
    rfl
  steps := h.steps.append_right _ _

theorem Refined.right (h : Refined F orig t c.right e)
    (hlen : (slots c.left).length = first.length) :
    Refined F (first ++ orig) t c { c with right := e } where
  same := by
    change ({ c with left := _, right := _, type := _ } : Truth) = _
    rw [h.same]
    rfl
  steps := h.steps.append_left hlen

theorem Refined.compared (c : Truth) (type : DataType) : Refined F orig t c { c with type } :=
  ⟨rfl, .refl⟩

theorem Refining.onLeft {Q : β → Expression → Prop}
    (h : Refining R S F orig t c.left Q (m c.left)) (behind : List (Option Value)) :
    Refining R S F (orig ++ behind) t c
      (fun b c' => ∃ left, c' = { c with left } ∧ Refined F orig t c.left left ∧ Q b left)
      (onLeft m c) := by
  unfold Typing.onLeft
  exact .within TruthOf.left (fun c left => { c with left }) h fun e he => he.left behind

theorem Refining.onRight {Q : β → Expression → Prop}
    (h : Refining R S F orig t c.right Q (m c.right)) (hlen : (slots c.left).length = first.length) :
    Refining R S F (first ++ orig) t c
      (fun b c' => ∃ right, c' = { c with right } ∧ Refined F orig t c.right right ∧ Q b right)
      (onRight m c) := by
  unfold Typing.onRight
  exact .within TruthOf.right (fun c right => { c with right }) h fun e he => he.right hlen

theorem refining_balance
    (hl : Untouched first (slots c.left) l) (hr : Untouched behind (slots c.right) r)
    (hlen : (slots c.left).length = first.length) (hfirst : S → Literals first)
    (hbehind : S → Literals behind) :
    Refining R S F (first ++ behind) t c (fun _ _ => True) (balance l r c) := by
  unfold balance
  split
  · exact .pure trivial
  split
  · refine ((refining_convertLiteral hl hfirst .f64).onLeft behind).bind ?_
    rintro _ _ - ⟨left, rfl, hleft, -⟩
    exact ((refining_convertLiteral hr hbehind .f64).onRight (c := { c with left })
      (hleft.steps.length_eq.trans hlen)).bind fun _ _ _ _ => .pure trivial
  split
  · exact ((refining_convertLiteral hl hfirst r.type).onLeft behind).bind
      fun _ _ _ _ => .pure trivial
  split
  · exact ((refining_convertLiteral hr hbehind l.type).onRight hlen).bind
      fun _ _ _ _ => .pure trivial
  · exact .pure trivial

theorem Orderly.literals (h : Orderly e) : Literals (slots e) := by
  obtain ⟨limit, hlimit, he⟩ := h
  exact literals_of_sound hlimit he.items

theorem refining_truth (hleft : R → Resolved t c.left.items)
    (hright : R → Resolved t c.right.items) (hS : S → Orderly c.left ∧ Orderly c.right) :
    Refining R S F (slots c) t c (fun _ _ => True) (truth t c) := by
  refine ((refining_expression hleft fun hs => (hS hs).1).onLeft (slots c.right)).bind ?_
  rintro l _ - ⟨left, rfl, hleft, hl⟩
  have hlen : (slots left).length = (slots c.left).length := hleft.steps.length_eq
  refine ((refining_expression hright fun hs => (hS hs).2).onRight
    (c := { c with left }) hlen).bind ?_
  rintro r _ - ⟨right, rfl, -, hr⟩
  rw [bind_apply, get_apply]
  dsimp only
  split
  case' isTrue =>
    refine .ofExcept_bind (fun _ => blames_orderedOperand) fun _ _ => ?_
    refine .ofExcept_bind (fun _ => blames_orderedOperand) fun _ _ => ?_
  -- What follows is the same for an ordering and for an equality.
  all_goals
    split
    · exact .ok (.compared _ _) trivial
    split
    · exact .ok (.compared _ _) trivial
    split
    · exact .ok (.compared _ _) trivial
    · refine (refining_balance hl hr hlen
        (fun hs => (hS hs).1.literals) fun hs => (hS hs).2.literals).bind fun types c' _ _ => ?_
      split
      · exact .throw (.of_kind rfl)
      · exact .ok (.compared _ _) trivial

theorem refining_argument (hR : R → Resolved t xs) (hS : S → Terms xs)
    (hi : (slots xs)[i]? = orig[i]?) (name : Bytes) (param : Param) :
    Refining R S F orig t xs (fun _ ys => ∀ k, k ≠ i → (slots ys)[k]? = (slots xs)[k]?)
      (argument t name i param xs) := by
  unfold argument
  rw [bind_apply, get_apply]
  dsimp only
  cases hx : xs[i]? with
  | none => exact .pure fun _ _ => rfl
  | some x =>
    have hmem := mem_of_getElem? hx
    refine .ofExcept_bind (fun _ h => blames_leaf h (fun hr => (hR hr).mono (by simpa using hmem))
      fun hs y hy => hS hs y (mem_singleton.mp hy ▸ hmem)) fun y hy => ?_
    obtain ⟨hslot, hlit⟩ := leaf_ok hy
    split
    · exact .throw (.of_kind rfl)
    split
    · exact .pure fun _ _ => rfl
    split
    · rename_i hmode
      have hbare : (bare xs)[i]? = some (bareItem x) := by rw [bare_items, getElem?_map, hx]; rfl
      obtain ⟨v, hv⟩ := exists_literal_of_bare hbare (hlit hmode)
      have huntouched : Untouched orig (slots xs) y := by
        refine ⟨fun k hk => ?_, fun _ => ⟨i, v, hslot, hi.symm.trans hv⟩⟩
        cases hslot.symm.trans hk
        exact hi
      have hcoerce := refining_coerceSlot (R := R) (S := False) (F := F) (t := t) huntouched hmode
        False.elim param.type
      rw [bind_apply, get_apply]
      dsimp only
      generalize coerceSlot y param.type xs = result at hcoerce
      cases hcoerce with
      | ok h hys => exact .ok h fun k hk => hys k (by rw [hslot]; simpa using Ne.symm hk)
      | error h hd => exact .throw (.of_kind rfl)
    · exact .throw (.of_kind rfl)

theorem refining_arguments (hR : R → Resolved t xs) (hS : S → Terms xs)
    (hi : ∀ k, i ≤ k → (slots xs)[k]? = orig[k]?) (name : Bytes) (params : List Param) :
    Refining R S F orig t xs (fun _ _ => True) (arguments t name i params xs) := by
  induction params generalizing i xs with
  | nil => exact .pure trivial
  | cons param rest ih =>
    refine (refining_argument hR hS (hi i (Nat.le_refl i)) name param).bind fun _ ys h hys => ?_
    refine ih (fun hr => (hR hr).of_bare h.same) (fun hs => (hS hs).of_bare h.same) fun k hk => ?_
    rw [hys k (Nat.ne_of_gt hk)]
    exact hi k (Nat.le_of_succ_le hk)

theorem Refined.args {c : Call} (h : Refined F orig t c.args xs) (target : Option FuncDef) :
    Refined F orig t c { c with args := xs, target } where
  same := by
    change ({ c with args := _, target := _ } : Call) = _
    rw [h.same]
    rfl
  steps := h.steps

theorem refining_call {c : Call} (hR : R → Resolved t c.args) (hS : S → Terms c.args) :
    Refining R S F (slots c) t c (fun _ _ => True) (call t c) := by
  unfold call
  rw [bind_apply, get_apply]
  dsimp only
  cases t.lookupFunction? c.name with
  | none =>
    split <;> exact .throw (.of_kind rfl)
  | some f =>
    dsimp only
    rw [bind_apply, modify_apply]
    dsimp only
    refine .after ((Refined.refl c.args).args (some f)) ?_
    split
    · exact .throw (.of_kind rfl)
    have hargs := refining_arguments (F := F) (i := 0) hR hS (fun _ _ => rfl) c.name f.params
    refine (Refining.within CallOf.args (fun c args => { c with args })
      (w := { c with target := some f }) hargs fun xs hxs => ?_).bind fun _ _ _ _ => .pure trivial
    exact .args hxs (some f)

theorem Refined.wrap {g : α → β} [Annotated β] {x y : α} (h : Refined F orig t x y)
    (hg : Wraps g := by exact {}) : Refined F orig t (g x) (g y) where
  same := by rw [hg.bare, hg.bare, h.same]
  steps := by
    rw [hg.slots, hg.slots]
    exact h.steps

def Prepared (x : Expr) : Prop := ∃ limit C, Limit limit ∧ x.Ready limit C

theorem terms_of_isTerm (h : ∀ x ∈ xs, x.IsTerm limit) : Terms xs := by
  intro x hx
  obtain ⟨hsound, hshape⟩ := h x hx
  cases x with
  | value => exact .inl rfl
  | «variable» => exact .inr rfl
  | operand => exact absurd rfl hshape
  | expression | truth | call => exact hsound.elim

/-- An operand tells of the literal that a right-hand side is, if it is a sequence. -/
def Tells (orig : List (Option Value)) (y : Evaluated) (x : Expr) : Prop :=
  ∀ e, x = .expression e → Untouched orig (slots e) y

theorem refining_value {x : Expr} (hR : R → Resolved t (leaves x)) (hS : S → Prepared x) :
    Refining R S F (slots x) t x (Tells (slots x)) (value t x) := by
  have hleaf (hx : leaves x = [x]) (hterm : Terms [x]) (hnot : ∀ e, x ≠ .expression e)
      (hok : ∀ y, leaf t x none = .ok y → value t x = .ok y x)
      (herror : ∀ d, leaf t x none = .error d → value t x = .error d x) :
      Refining R S F (slots x) t x (Tells (slots x)) (value t x) := by
    cases hrun : leaf t x none with
    | ok y =>
      rw [hok y hrun]
      exact .pure fun e he => absurd he (hnot e)
    | error d =>
      rw [herror d hrun]
      exact .throw (blames_leaf hrun (fun hr => hx ▸ hR hr) fun _ => hterm)
  cases x with
  | expression e =>
    have he := refining_expression (F := F) (e := e) hR fun hs => by
      obtain ⟨limit, C, hlimit, he⟩ := hS hs
      exact ⟨limit, hlimit, he⟩
    unfold value
    dsimp only
    generalize expression t e = r at he
    cases he with
    | ok h hy => exact .ok h.wrap fun _ he => Expr.expression.inj he ▸ hy
    | error h hd => exact .error h.wrap hd
  | call c =>
    have hc := refining_call (F := F) (c := c) hR fun hs => by
      obtain ⟨limit, C, -, hc⟩ := hS hs
      exact terms_of_isTerm hc.args
    unfold value
    dsimp only
    generalize call t c = r at hc
    cases hc with
    | ok h => exact .ok h.wrap nofun
    | error h hd => exact .error h.wrap hd
  | value | «variable» =>
    exact hleaf rfl (by simp [Terms, Expr.shape]) nofun (fun y hy => by simp only [value, hy])
      fun d hd => by simp only [value, hd]
  | operand | truth =>
    refine .throw ⟨fun _ => nofun, fun hs => ?_⟩
    obtain ⟨limit, C, -, hready⟩ := hS hs
    exact hready.elim

theorem refining_convertValue {x : Expr} {y : Evaluated} (hy : Tells orig y x)
    (hS : S → Literals orig) (type : DataType) :
    Refining R S F orig t x (fun _ _ => True) (convertValue y type x) := by
  cases x with
  | expression e =>
    have he := refining_convertLiteral (R := R) (F := F) (t := t) (hy e rfl) hS type
    unfold convertValue
    dsimp only
    generalize convertLiteral y type e = r at he
    cases he with
    | ok h _ => exact .ok h.wrap trivial
    | error h hd => exact .error h.wrap hd
  | value | «variable» | operand | truth | call => exact .pure trivial

end

section

variable {α β : Type} [Annotated α] [Annotated β] {F : Table → VarRef → Prop} {f : FuncDef}
  {s : CheckState} {t : Table} {C D : Table → Prop}

/-- The check of `x`, begun with the table `t`, has ended after going through the tables `C`. -/
structure Walked (F : Table → VarRef → Prop) (t : Table) (x : α) (C : Table → Prop)
    (out : Checked α × CheckState) : Prop where
  same : bare out.1.node = bare x
  trail : Trail F (slots x) ⟨slots x, t⟩ ⟨slots out.1.node, out.2.table⟩ C

variable {out : Checked α × CheckState} {failure : Option Diagnostic}

theorem Walked.single {x : α} (hbare : bare out.1.node = bare x)
    (h : Steps F (slots x) ⟨slots x, t⟩ ⟨slots out.1.node, out.2.table⟩) :
    Walked F t x (· = t) out := ⟨hbare, .single h⟩

theorem Walked.of_refined {x y : α} (h : Refined F (slots x) s.table x y) :
    Walked F s.table x (· = s.table) (⟨y, failure⟩, s) :=
  .single h.same h.steps

theorem storeNullability_steps (F : Table → VarRef → Prop) (orig : List (Option Value)) (r : VarRef)
    (y : Evaluated) (x : Expr) (s : CheckState) :
    ∃ failure s', storeNullability r y x s = (⟨x, failure⟩, s') ∧
      Steps F orig ⟨slots x, s.table⟩ ⟨slots x, s'.table⟩ := by
  unfold storeNullability
  rw [get_bind_apply]
  cases hnullable : (s.table.var r).nullable with
  | unknown => exact ⟨_, _, rfl, .single (.settled _ hnullable)⟩
  | no =>
    split <;> exact ⟨_, _, rfl, .refl⟩
  | yes => exact ⟨_, _, rfl, .refl⟩

theorem walked_assignment (r : VarRef) (x : Expr) (s : CheckState) :
    Walked F s.table x (· = s.table) (assignment r x s) := by
  have hvalue := refining_value (R := False) (S := False) (F := F) (t := s.table) (x := x)
    False.elim False.elim
  -- whatever is converted before, the variable is written to last
  have hstore {z : Expr} {s₁ : CheckState} (hbare : bare z = bare x) (y : Evaluated)
      (h : Steps F (slots x) ⟨slots x, s.table⟩ ⟨slots z, s₁.table⟩) :
      Walked F s.table x (· = s.table) (storeNullability r y z s₁) := by
    obtain ⟨failure, s', hrun, hsteps⟩ := storeNullability_steps F (slots x) r y z s₁
    rw [hrun]
    exact .single hbare (h.trans hsteps)
  unfold assignment
  rw [get_bind_apply]
  generalize value s.table x = result at hvalue
  cases hvalue with
  | error h => exact .of_refined h
  | @ok y z h hy =>
    dsimp only
    split
    · exact .of_refined h
    split
    · exact .of_refined h
    split
    · rename_i hopen
      split
      · exact .of_refined h
      · exact hstore h.same y (h.steps.tail (.typed y.type (by simpa using hopen)))
    split
    · exact hstore h.same y h.steps
    have hconv := refining_convertValue (R := False) (S := False) (F := F) (t := s.table) hy
      False.elim (s.table.var r).type
    generalize convertValue y (s.table.var r).type z = result at hconv
    cases hconv with
    | error h' => exact .of_refined (h.trans h')
    | @ok y' z' h' =>
      cases y' with
      | none => exact .of_refined (h.trans h')
      | some y' => exact hstore (h.trans h').same y' (h.trans h').steps

theorem walked_callStmt (c : Call) (s : CheckState) :
    Walked F s.table c (· = s.table) (callStmt c s) := by
  have hcall := refining_call (R := False) (S := False) (F := F) (t := s.table) (c := c)
    False.elim False.elim
  unfold callStmt
  rw [get_bind_apply]
  generalize call s.table c = result at hcall
  cases hcall with
  | error h => exact .of_refined h
  | ok h =>
    dsimp only
    split <;> exact .of_refined h

theorem walked_returned (x : Expr) (s : CheckState) :
    Walked F s.table x (· = s.table) (returned f x s) := by
  have hvalue := refining_value (R := False) (S := False) (F := F) (t := s.table) (x := x)
    False.elim False.elim
  unfold returned
  rw [get_bind_apply]
  generalize value s.table x = result at hvalue
  cases hvalue with
  | error h => exact .of_refined h
  | @ok y z h hy =>
    dsimp only
    split
    · exact .of_refined h
    split
    · exact .of_refined h
    split
    · exact .of_refined h
    have hconv := refining_convertValue (R := False) (S := False) (F := F) (t := s.table) hy
      False.elim f.result
    generalize convertValue y f.result z = result at hconv
    cases hconv with
    | error h' => exact .of_refined (h.trans h')
    | @ok y' z' h' =>
      cases y' with
      | none => exact .of_refined h
      | some y' => exact .of_refined (h.trans h')

theorem walked_guard {g : Guard} (hF : ∀ r, g.binding? = some r → F s.table r) :
    Walked F s.table g (· = s.table) (guard g s) := by
  unfold guard
  rw [get_bind_apply]
  cases g with
  | compare c =>
    have htruth := refining_truth (R := False) (S := False) (F := F) (t := s.table) (c := c)
      False.elim False.elim False.elim
    dsimp only
    generalize truth s.table c = result at htruth
    cases htruth with
    | error h => exact .of_refined h.wrap
    | ok h => exact .of_refined h.wrap
  | unwrap subject binding =>
    dsimp only
    cases leaf s.table (.variable subject) none with
    | error d => exact .of_refined (.refl _)
    | ok y =>
      dsimp only
      split
      · exact .single rfl (.single (.bound _ (hF binding rfl)))
      · exact .of_refined (.refl _)

theorem Walked.mono {x : α} (h : Walked F t x C out) (hD : ∀ u, D u → C u) : Walked F t x D out :=
  ⟨h.same, h.trail.mono hD⟩

theorem Walked.start {x : α} (h : Walked F t x C out) :
    Walked F t x (fun u => u = t ∨ C u) out where
  same := h.same
  trail := ⟨h.trail.steps, fun u hu => hu.elim ((Trail.single h.trail.steps).passes u) (h.trail.passes u)⟩

theorem Walked.idle (x : α) (failure : Option Diagnostic) (s : CheckState) :
    Walked F s.table x (fun _ => False) (⟨x, failure⟩, s) :=
  ⟨rfl, .refl, fun _ hu => nomatch hu⟩

theorem Walked.pair {x : α} {y : β} {s' : CheckState}
    (hx : Walked F t x C (⟨x', failure⟩, s)) (hy : Walked F s.table y D (⟨y', failure'⟩, s')) :
    Walked F t (x, y) (fun u => C u ∨ D u) (⟨(x', y'), failure'⟩, s') :=
  ⟨Prod.ext hx.same hy.same, hx.trail.join hy.trail⟩

theorem Walked.wrap {g : α → β} {x y : α} (h : Walked F t x C (⟨y, failure⟩, s))
    (failure' : Option Diagnostic) (hg : Wraps g := by exact {}) :
    Walked F t (g x) C (⟨g y, failure'⟩, s) := by
  refine ⟨?_, ?_⟩
  · rw [hg.bare x, hg.bare y, h.same]
  · rw [hg.slots x, hg.slots y]
    exact h.trail

theorem Walked.map {g : α → β} {m : Checker (Checked α)} {x : α} (h : Walked F t x C (m s))
    (hg : Wraps g := by exact {}) : Walked F t (g x) C ((do return (← m).map g) s) :=
  h.wrap _ hg

theorem walked_returnStmt (pos : Pos) (x : Option Expr) (s : CheckState) :
    Walked F s.table x (· = s.table) (returnStmt f pos x s) := by
  unfold returnStmt
  rw [modify_bind_apply]
  cases x with
  | none =>
    split <;> exact .single rfl .refl
  | some x =>
    split
    · exact .single rfl .refl
    · exact (walked_returned x { s with returns := s.returns + 1 }).map

/-- The check of some statements of the function `f`, begun in the state `s`, comes to the
statement `x` in the state `s'`. Whatever it has gone through before has passed. -/
inductive Reaches (f : FuncDef) : CheckState → List Stmt → CheckState → Stmt → Prop where
  | here {s : CheckState} {x : Stmt} {xs : List Stmt} : Reaches f s (x :: xs) s x
  | later {s s' : CheckState} {x y : Stmt} {xs : List Stmt}
      (hx : Passes (stmt f x) s y s₁) (h : Reaches f s₁ xs s' z) : Reaches f s (x :: xs) s' z
  | yes {s s' : CheckState} {xs : List Stmt} (hg : Passes (guard g) s g' s₁)
      (h : Reaches f s₁ yes.stmts s' z) : Reaches f s (.ifElse pos g yes no :: xs) s' z
  | no {s s' : CheckState} {e : Else} {xs ys : List Stmt} (hg : Passes (guard g) s g' s₁)
      (hyes : Passes (stmts f yes.stmts) s₁ ys s₂) (h : Reaches f s₂ e.body.stmts s' z) :
    Reaches f s (.ifElse pos g yes (some e) :: xs) s' z
  | body {s s₁ s' : CheckState} {pos : Pos} {g g' : Guard} {body : Block} {z : Stmt}
      {xs : List Stmt} (hg : Passes (guard g) s g' s₁) (h : Reaches f s₁ body.stmts s' z) :
    Reaches f s (.while pos g body :: xs) s' z
  | alone {s s' : CheckState} {e : Else} {xs : List Stmt}
      (h : Reaches f s e.body.stmts s' z) : Reaches f s (.elseStart e :: xs) s' z

theorem Reaches.weaken {x : Stmt} {xs : List Stmt} {s' : CheckState} (h : Reaches f s [x] s' z) :
    Reaches f s (x :: xs) s' z := by
  cases h with
  | here => exact .here
  | later _ h => cases h
  | yes hg h => exact .yes hg h
  | no hg hyes h => exact .no hg hyes h
  | body hg h => exact .body hg h
  | alone h => exact .alone h

theorem Reaches.split {x : Stmt} {xs : List Stmt} {s' : CheckState}
    (h : Reaches f s (x :: xs) s' z) :
    Reaches f s [x] s' z ∨ ∃ y s₁, Passes (stmt f x) s y s₁ ∧ Reaches f s₁ xs s' z := by
  cases h with
  | here => exact .inl .here
  | later hx h => exact .inr ⟨_, _, hx, h⟩
  | yes hg h => exact .inl (.yes hg h)
  | no hg hyes h => exact .inl (.no hg hyes h)
  | body hg h => exact .inl (.body hg h)
  | alone h => exact .inl (.alone h)

/-- The tables with which the check of some statements comes to one of them. -/
def Met (f : FuncDef) (s : CheckState) (xs : List Stmt) (u : Table) : Prop :=
  ∃ s' x, Reaches f s xs s' x ∧ s'.table = u

def bound? : Stmt → Option VarRef
  | .ifElse _ g _ _ | .while _ g _ => g.binding?
  | _ => none

/-- Whenever the check comes to a guard, the name it binds is such. -/
def GuardsBind (F : Table → VarRef → Prop) (f : FuncDef) (s : CheckState) (xs : List Stmt) : Prop :=
  ∀ s' x r, Reaches f s xs s' x → bound? x = some r → F s'.table r

def isPlain : Stmt → Bool
  | .ifElse .. | .while .. | .elseStart _ => false
  | _ => true

theorem Met.eq_of_isPlain {x : Stmt} (hx : isPlain x = true) (u : Table) (h : Met f s [x] u) :
    u = s.table := by
  obtain ⟨s', z, h, rfl⟩ := h
  cases h with
  | here => rfl
  | later _ h => cases h
  | yes | no | body | alone => cases hx

theorem map_run {α β : Type} {g : α → β} {m : Checker α} :
    (g <$> m) s = (g (m s).1, (m s).2) := rfl

def inTurn {α β : Type} (m : Checker (Checked α)) (y : β) (n : Checker (Checked β)) :
    Checker (Checked (α × β)) := do
  let ⟨x, failure⟩ ← m
  if failure.isSome then return ⟨(x, y), failure⟩
  return (← n).map (x, ·)

theorem while_eq (pos : Pos) (g : Guard) (body : Block) :
    stmt f (.while pos g body) = do
      return (← inTurn (guard g) body.stmts (stmts f body.stmts)).map fun p =>
        .while pos p.1 { body with stmts := p.2 } := by
  funext s
  rw [stmt, inTurn]
  simp only [bind_run]
  split <;> rfl

theorem if_eq (pos : Pos) (g : Guard) (yes : Block) :
    stmt f (.ifElse pos g yes none) = do
      return (← inTurn (guard g) yes.stmts (stmts f yes.stmts)).map fun p =>
        .ifElse pos p.1 { yes with stmts := p.2 } none := by
  funext s
  rw [stmt, inTurn]
  simp only [bind_run]
  split
  · rfl
  · rw [bind_run, bind_run]
    generalize stmts f yes.stmts (guard g s).2 = out
    rcases out with ⟨⟨ys, _ | d⟩, s₁⟩ <;> rfl

theorem ifElse_eq (pos : Pos) (g : Guard) (yes : Block) (e : Else) :
    stmt f (.ifElse pos g yes (some e)) = do
      let inside := inTurn (stmts f yes.stmts) e.body.stmts (stmts f e.body.stmts)
      return (← inTurn (guard g) (yes.stmts, e.body.stmts) inside).map fun p =>
        .ifElse pos p.1 { yes with stmts := p.2.1 }
          (some ⟨e.pos, { e.body with stmts := p.2.2 }⟩) := by
  funext s
  rw [stmt]
  simp only [inTurn, bind_run]
  split
  · rfl
  · simp only [bind_run]
    split <;> rfl

theorem stmts_cons_eq (x : Stmt) (xs : List Stmt) :
    stmts f (x :: xs) = do return (← inTurn (stmt f x) xs (stmts f xs)).map fun p => p.1 :: p.2 := by
  funext s
  rw [stmts, inTurn]
  simp only [bind_run]
  split <;> rfl

theorem walked_inTurn {m : Checker (Checked α)} {n : Checker (Checked β)} {x : α} {y : β}
    {E : CheckState → Table → Prop} (hm : Walked F t x C (m s))
    (hn : ∀ x' s₁, Passes m s x' s₁ → Walked F s₁.table y (E s₁) (n s₁)) :
    Walked F t (x, y) (fun u => C u ∨ ∃ x' s₁, Passes m s x' s₁ ∧ E s₁ u) (inTurn m y n s) := by
  rw [inTurn, bind_run]
  cases hrun : m s with
  | mk c s₁ =>
    obtain ⟨x', failure⟩ := c
    rw [hrun] at hm
    cases failure with
    | some d =>
      refine (hm.pair (.idle y (some d) s₁)).mono fun u hu => ?_
      rcases hu with hu | ⟨z, s₂, hz, -⟩
      · exact .inl hu
      · cases hrun.symm.trans hz
    | none =>
      refine .mono (hm.pair (hn x' s₁ hrun)) fun u hu => ?_
      rcases hu with hu | ⟨z, s₂, hz, hu⟩
      · exact .inl hu
      · cases hrun.symm.trans hz
        exact .inr hu

mutual

/-- The check of one statement is a walk: the cases are those of the statement. -/
theorem walked_stmt (x : Stmt) {s : CheckState} (hF : GuardsBind F f s [x]) :
    Walked F s.table x (Met f s [x]) (stmt f x s) := by
  cases x with
  | declare pos r x =>
    exact .mono (.map (walked_assignment r x s)) (Met.eq_of_isPlain rfl)
  | assign pos r x =>
    rw [stmt, get_bind_apply]
    refine .mono ?_ (Met.eq_of_isPlain rfl)
    split
    · exact .map (walked_assignment r x s)
    · exact .of_refined (.refl _)
  | call c =>
    exact .mono (.map (walked_callStmt c s)) (Met.eq_of_isPlain rfl)
  | ifElse pos g yes no =>
    have hguard := walked_guard (F := F) fun r hr => hF s _ r .here hr
    have hyes (g' : Guard) (s₁ : CheckState) (hg : Passes (guard g) s g' s₁) :=
      walked_stmts yes.stmts fun s' x r hx hr => hF s' x r (.yes hg hx) hr
    cases no with
    | none =>
      rw [if_eq]
      refine .mono (.map (g := fun p => Stmt.ifElse pos p.1 { yes with stmts := p.2 } none)
        (walked_inTurn hguard hyes) ⟨fun _ => rfl, fun p => ?_⟩) ?_
      · exact congrArg (slots p.1 ++ ·) (append_nil _)
      rintro u ⟨s', z, h, rfl⟩
      cases h with
      | here => exact .inl rfl
      | later _ h => cases h
      | yes hg h => exact .inr ⟨_, _, hg, s', z, h, rfl⟩
    | some e =>
      have hins (g' : Guard) (s₁ : CheckState) (hg : Passes (guard g) s g' s₁) :=
        walked_inTurn (hyes g' s₁ hg) fun ys s₂ hys =>
          walked_stmts e.body.stmts fun s' x r hx hr => hF s' x r (.no hg hys hx) hr
      rw [ifElse_eq]
      refine .mono (.map (g := fun p => Stmt.ifElse pos p.1 { yes with stmts := p.2.1 }
        (some ⟨e.pos, { e.body with stmts := p.2.2 }⟩)) (walked_inTurn hguard hins)) ?_
      rintro u ⟨s', z, h, rfl⟩
      cases h with
      | here => exact .inl rfl
      | later _ h => cases h
      | yes hg h => exact .inr ⟨_, _, hg, .inl ⟨s', z, h, rfl⟩⟩
      | no hg hys h => exact .inr ⟨_, _, hg, .inr ⟨_, _, hys, s', z, h, rfl⟩⟩
  | «while» pos g body =>
    have hguard := walked_guard (F := F) fun r hr => hF s _ r .here hr
    have hbody (g' : Guard) (s₁ : CheckState) (hg : Passes (guard g) s g' s₁) :=
      walked_stmts body.stmts fun s' x r hx hr => hF s' x r (.body hg hx) hr
    rw [while_eq]
    refine .mono (.map (g := fun p => Stmt.while pos p.1 { body with stmts := p.2 })
      (walked_inTurn hguard hbody)) ?_
    rintro u ⟨s', z, h, rfl⟩
    cases h with
    | here => exact .inl rfl
    | later _ h => cases h
    | body hg h => exact .inr ⟨_, _, hg, s', z, h, rfl⟩
  | «return» pos x =>
    exact .mono (.map (walked_returnStmt pos x s)) (Met.eq_of_isPlain rfl)
  | elseStart e =>
    have hbody := walked_stmts e.body.stmts fun s' x r hx hr => hF s' x r (.alone hx) hr
    refine .mono (.map (g := fun xs => Stmt.elseStart ⟨e.pos, { e.body with stmts := xs }⟩)
      hbody.start) ?_
    rintro u ⟨s', z, h, rfl⟩
    cases h with
    | here => exact .inl rfl
    | later _ h => cases h
    | alone h => exact .inr ⟨s', z, h, rfl⟩
  | blockEnd e =>
    rw [stmt]
    exact .mono (.of_refined (.refl _)) (Met.eq_of_isPlain rfl)
termination_by structural x

/-- Whatever it finds, the check of statements is a walk through their states. -/
theorem walked_stmts (xs : List Stmt) {s : CheckState} (hF : GuardsBind F f s xs) :
    Walked F s.table xs (Met f s xs) (stmts f xs s) := by
  cases xs with
  | nil => exact .mono (.idle _ _ _) fun u ⟨s', x, h, _⟩ => nomatch h
  | cons x rest =>
    have hx := walked_stmt x fun s' z r hz hr => hF s' z r hz.weaken hr
    have hrest (y : Stmt) (s₁ : CheckState) (hy : Passes (stmt f x) s y s₁) :=
      walked_stmts rest fun s' z r hz hr => hF s' z r (.later hy hz) hr
    rw [stmts_cons_eq]
    refine .mono (.map (g := fun p => p.1 :: p.2) (walked_inTurn hx hrest)) ?_
    rintro u ⟨s', z, h, rfl⟩
    rcases h.split with h | ⟨y, s₁, hy, h⟩
    · exact .inl ⟨s', z, h, rfl⟩
    · exact .inr ⟨y, s₁, hy, s', z, h, rfl⟩
termination_by structural xs

end

/-- The check of some functions comes to the statement `x` in the state `s'`. -/
inductive Comes : CheckState → List Function → CheckState → Stmt → Prop where
  | here {s s' : CheckState} {fns : List Function} {x : Stmt}
      (h : Reaches fn.definition { s with returns := 0 } fn.body.stmts s' x) :
    Comes s (fn :: fns) s' x
  | later {s s' : CheckState} {fns : List Function} {x : Stmt}
       (hfn : function fn s = ((⟨fn', none⟩, message), s₁))
      (h : Comes s₁ fns s' x) : Comes s (fn :: fns) s' x

theorem walked_function (fn : Function) {s : CheckState}
    (hF : GuardsBind F fn.definition { s with returns := 0 } fn.body.stmts) :
    Walked F s.table fn (Met fn.definition { s with returns := 0 } fn.body.stmts)
      ((Prod.fst <$> function fn) s) := by
  have hbody := walked_stmts fn.body.stmts hF
  have hfn (failure : Option Diagnostic) :=
    hbody.wrap (g := fun xs => { fn with body := { fn.body with stmts := xs } }) failure
  rw [map_run, function, modify_bind_apply, bind_run]
  dsimp only
  split
  · exact hfn _
  rw [get_bind_apply]
  split <;> exact hfn _

theorem functions_cons_eq (fn : Function) (fns : List Function) :
    (Prod.fst <$> functions (fn :: fns) : Checker (Checked (List Function))) = do
      return (← inTurn (Prod.fst <$> function fn) fns (Prod.fst <$> functions fns)).map fun p =>
        p.1 :: p.2 := by
  funext s
  rw [functions, inTurn]
  cases hfn : function fn s with
  | mk c s₁ =>
    obtain ⟨⟨fn', failure⟩, message⟩ := c
    cases failure <;> simp only [map_run, bind_run, hfn] <;> rfl

/-- Whatever functions are checked and whether they pass or not, the check is a sequence of
writes, and every state in which it comes to a statement is on the way. -/
theorem walked_functions (fns : List Function) {s : CheckState}
    (hF : ∀ s' x r, Comes s fns s' x → bound? x = some r → F s'.table r) :
    Walked F s.table fns (fun u => ∃ s' x, Comes s fns s' x ∧ s'.table = u)
      ((Prod.fst <$> functions fns) s) := by
  induction fns generalizing s with
  | nil => exact .mono (.idle _ _ _) fun u ⟨s', x, h, _⟩ => nomatch h
  | cons fn fns ih =>
    have hfn := walked_function fn fun s' x r hx hr => hF s' x r (.here hx) hr
    rw [functions_cons_eq]
    refine .mono (.map (g := fun p => p.1 :: p.2) (walked_inTurn
      hfn
      fun fn' s₁ hpass => ih fun s' x r hx hr => ?_)) ?_
    · have hpass : ((function fn s).1.1, (function fn s).2) = (⟨fn', none⟩, s₁) := hpass
      obtain ⟨hnode, rfl⟩ := Prod.mk.inj hpass
      exact hF s' x r (.later (Prod.ext (Prod.ext hnode rfl) rfl) hx) hr
    · rintro u ⟨s', x, h, rfl⟩
      cases h with
      | here h => exact .inl ⟨s', x, h, rfl⟩
      | later hfn h => exact .inr ⟨_, _, by rw [Passes, map_run, hfn], s', x, h, rfl⟩

theorem retains_check (parsed : Parsed) (t : Table) : t.Retains (check parsed t).table :=
  (walked_functions (F := fun _ _ => True) (s := ⟨t, 0⟩) parsed.program.functions
    fun _ _ _ _ _ => trivial).trail.steps.retains

variable {p : Grammar.Program} {hash : NameHash} {q : Tree.Program} {fns : List Function}

theorem Passed.bare (h : Passed p hash strict parsed t q u) :
    bare q.functions = bare parsed.program.functions := by
  obtain ⟨messages, s, hrun, -⟩ := h.run
  have hsame := (walked_functions (F := fun _ _ => True) (s := ⟨t, 0⟩) parsed.program.functions
    fun _ _ _ _ _ => trivial).same
  rwa [map_run, hrun] at hsame

theorem Passed.retains (h : Passed p hash strict parsed t q u) : t.Retains u := by
  obtain ⟨messages, s, hrun, rfl⟩ := h.run
  have hsteps := (walked_functions (F := fun _ _ => True) (s := ⟨t, 0⟩) parsed.program.functions
    fun _ _ _ _ _ => trivial).trail.steps
  rw [map_run, hrun] at hsteps
  exact hsteps.retains

theorem forall_of_bare {P : Function → Prop} (hP : ∀ fn, P (bare fn) ↔ P fn)
    (h : bare fns' = bare fns) (hfns : ∀ fn ∈ fns, P fn) : ∀ fn ∈ fns', P fn :=
  forall_of_map (g := bare) (fun x y hxy hx => (hP y).mp (hxy ▸ (hP x).mpr hx)) h hfns

theorem map_of_bare {γ : Type} {g : Function → γ} (hg : ∀ fn, g (bare fn) = g fn)
    (h : bare fns' = bare fns) : fns'.map g = fns.map g := by
  have hmap (fns : List Function) : fns.map g = (bare fns).map g := by
    change fns.map g = (fns.map bare).map g
    rw [map_map]
    exact map_congr_left fun fn _ => (hg fn).symm
  rw [hmap fns', h, ← hmap]

end

section

variable {P : Bytes → Prop} {f : FuncDef} {s s' : CheckState} {t₀ t : Table} {n : Nat} {x : Stmt}

/-- A statement as it stands where the variable `n` would be declared next, with names of a
kind. -/
inductive Stands (P : Bytes → Prop) (t₀ : Table) (n : Nat) : Stmt → Prop where
  | plain {p : Grammar.Plain} {x : Stmt} (hp : p.Depicts t₀ n x)
      (hnames : Grammar.NamesIn P p.tokens) : Stands P t₀ n x
  | branch {d : Grammar.Guard} (hd : d.Depicts t₀ n g) (hnames : Grammar.NamesIn P d.tokens) :
    Stands P t₀ n (.ifElse pos g yes no)
  | loop {d : Grammar.Guard} (hd : d.Depicts t₀ n g) (hnames : Grammar.NamesIn P d.tokens) :
    Stands P t₀ n (.while pos g body)

/-- Whatever statement the check comes to, all is known of the earlier variables. -/
theorem Front.reaches {body : Grammar.Body} {xs : List Stmt} (hbody : body.Depicts t₀ n xs)
    (hnames : Grammar.NamesIn P body.tokens) (h : Front t₀ n s.table)
    (hreach : Reaches f s xs s' x) : ∃ m, Front t₀ m s'.table ∧ Stands P t₀ m x := by
  unfold Grammar.NamesIn at hnames
  induction hbody generalizing s with
  | done => cases hreach
  | plain hp _ ih =>
    simp only [Grammar.Body.tokens, forall_mem_append] at hnames
    cases hreach with
    | here => exact ⟨_, h, .plain hp hnames.1⟩
    | later hy hlater => exact ih hnames.2 (plain_passes h hp hy).front hlater
    | yes | no | body | alone => cases hp
  | branch hguard hyes _ ihyes ih =>
    simp only [Grammar.Body.tokens, Grammar.Braces.tokens, forall_mem_append,
      forall_mem_cons] at hnames
    obtain ⟨-, hgnames, ⟨-, hyesNames, -⟩, hrestNames⟩ := hnames
    cases hreach with
    | here => exact ⟨_, h, .branch hguard hgnames⟩
    | yes hg hins => exact ihyes hyesNames (guard_passes h hguard hg).front hins
    | later hy hlater =>
      obtain ⟨g', s₂, zs, s₃, hg, hzs, -, rfl⟩ := ifElse_passes hy
      have hthen := body_passes hyes (guard_passes h hguard hg).front hzs
      exact ih hrestNames hthen.front hlater
  | branchElse hguard hyes hno _ ihyes ihno ih =>
    simp only [Grammar.Body.tokens, Grammar.Braces.tokens, forall_mem_append,
      forall_mem_cons] at hnames
    obtain ⟨-, hgnames, ⟨-, hyesNames, -⟩, -, ⟨-, hnoNames, -⟩, hrestNames⟩ := hnames
    cases hreach with
    | here => exact ⟨_, h, .branch hguard hgnames⟩
    | yes hg hins => exact ihyes hyesNames (guard_passes h hguard hg).front hins
    | no hg hzs hins =>
      have hthen := body_passes hyes (guard_passes h hguard hg).front hzs
      exact ihno hnoNames hthen.front hins
    | later hy hlater =>
      obtain ⟨g', s₂, zs, s₃, hg, hzs, ws, hws, -⟩ := ifElse_passes hy
      have hthen := body_passes hyes (guard_passes h hguard hg).front hzs
      exact ih hrestNames (body_passes hno hthen.front hws).front hlater
  | loop hguard hbody _ ihbody ih =>
    simp only [Grammar.Body.tokens, Grammar.Braces.tokens, forall_mem_append,
      forall_mem_cons] at hnames
    obtain ⟨-, hgnames, ⟨-, hbodyNames, -⟩, hrestNames⟩ := hnames
    cases hreach with
    | here => exact ⟨_, h, .loop hguard hgnames⟩
    | body hg hins => exact ihbody hbodyNames (guard_passes h hguard hg).front hins
    | later hy hlater =>
      obtain ⟨g', s₂, zs, hg, hzs, -⟩ := while_passes hy
      have hins := body_passes hbody (guard_passes h hguard hg).front hzs
      exact ih hrestNames hins.front hlater

theorem Front.comes {ds : List Grammar.Function} {fns : List Function}
    (hds : Grammar.FunctionsDepict t₀ n ds fns)
    (hnames : Grammar.NamesIn P (ds.flatMap Grammar.Function.tokens))
    (h : Front t₀ n s.table) (hcomes : Comes s fns s' x) :
    ∃ m, Front t₀ m s'.table ∧ Stands P t₀ m x := by
  induction hds generalizing s with
  | nil => cases hcomes
  | @cons n d rest fn fns hd _ ih =>
    cases hcomes with
    | here hx =>
      cases hd with
      | mk hparams hbody =>
        have hins : Front t₀ _ ({ s with returns := 0 } : CheckState).table :=
          h.parameters hparams
        refine hins.reaches hbody (fun a ha => hnames a ?_) hx
        simp [Grammar.Function.tokens, Grammar.Heading.before, Grammar.Braces.tokens, ha]
    | later hfn hx =>
      exact ih (fun a ha => hnames a (mem_append_right _ ha)) (function_passes hd h hfn).front hx

/-- A variable that a guard is about to bind: it is declared as not null, without a type. -/
def Unset (t : Table) (r : VarRef) : Prop :=
  (t.var r).type.isResolved = false ∧ (t.var r).nullable = .no

theorem Stands.unset (h : Stands P t₀ n x) (hfront : Front t₀ n t)
    (hr : bound? x = some r) : Unset t r := by
  have hguard {d : Grammar.Guard} {g : Guard} (hd : d.Depicts t₀ n g) (hr : g.binding? = some r) :
      Unset t r := by
    cases hd with
    | compare => cases hr
    | unwrap _ hbound =>
      cases hr
      rw [Unset, hfront.ahead n (Nat.le_refl n), hbound.type, hbound.nullable]
      exact ⟨rfl, rfl⟩
  cases h with
  | plain hp => cases hp <;> cases hr
  | branch hd => exact hguard hd hr
  | loop hd => exact hguard hd hr

/-- Between the stages nothing is decided again. The literals of the source are `orig`. -/
structure Stage.Refines (orig : List (Option Value)) (a b : Stage) : Prop where
  retains : a.table.Retains b.table
  types : ∀ r, (a.table.var r).type.isResolved = true →
    (b.table.var r).type = (a.table.var r).type
  nullability : ∀ r, (a.table.var r).nullable ≠ .unknown →
    (b.table.var r).nullable = (a.table.var r).nullable
  literals : ∀ k : Nat, b.slots[k]? = a.slots[k]? ∨
    ∃ (v w : Value) (type : DataType), orig[k]? = some (some v) ∧ a.slots[k]? = some (some v) ∧
      v.coerce type = .ok w ∧ w.pos = v.pos ∧ b.slots[k]? = some (some w)

variable {orig : List (Option Value)} {a b c : Stage}

theorem Stage.Refines.refl (a : Stage) : a.Refines orig a :=
  ⟨.refl _, fun _ _ => rfl, fun _ _ => rfl, fun _ => .inl rfl⟩

theorem Stage.Refines.trans (h : a.Refines orig b) (h' : b.Refines orig c) : a.Refines orig c where
  retains := h.retains.trans h'.retains
  types r hr := (h'.types r (h.types r hr ▸ hr)).trans (h.types r hr)
  nullability r hr := (h'.nullability r (h.nullability r hr ▸ hr)).trans (h.nullability r hr)
  literals k := by
    rcases h'.literals k with hk' | ⟨v, w, type, hv, hb, hw, hpos, hc⟩
    · rw [hk']
      exact h.literals k
    · rcases h.literals k with hk | ⟨v', w', type', hv', ha, -⟩
      · exact .inr ⟨v, w, type, hv, hk ▸ hb, hw, hpos, hc⟩
      · -- what stood there when it was converted first is what is converted now
        cases hv.symm.trans hv'
        exact .inr ⟨v, w, type, hv, ha, hw, hpos, hc⟩

theorem Write.refines (h : Write Unset orig a b) : a.Refines orig b := by
  have hretains := h.retains
  have hmodify {vs : List (Option Value)} {t : Table} {r : VarRef} {g : Var → Var}
      (hretains : t.Retains (t.modify r g))
      (htype : (t.var r).type.isResolved = true → (g (t.var r)).type = (t.var r).type)
      (hnullable : (t.var r).nullable ≠ .unknown → (g (t.var r)).nullable = (t.var r).nullable) :
      Stage.Refines orig ⟨vs, t⟩ ⟨vs, t.modify r g⟩ := by
    refine ⟨hretains, fun s hs => ?_, fun s hs => ?_, fun _ => .inl rfl⟩
    · rcases t.var_modify_cases r s g with h | ⟨rfl, h⟩
      · exact congrArg Var.type h
      · exact (congrArg Var.type h).trans (htype hs)
    · rcases t.var_modify_cases r s g with h | ⟨rfl, h⟩
      · exact congrArg Var.nullable h
      · exact (congrArg Var.nullable h).trans (hnullable hs)
  cases h with
  | typed type h => exact hmodify hretains (fun hr => nomatch h.symm.trans hr) fun _ => rfl
  | settled nullable h => exact hmodify hretains (fun _ => rfl) fun hr => absurd h hr
  | bound type h =>
    exact hmodify hretains (fun hr => nomatch h.1.symm.trans hr) fun _ => h.2.symm
  | @converted vs t k v w type hnow hfirst h =>
    refine ⟨hretains, fun _ _ => rfl, fun _ _ => rfl, fun i => ?_⟩
    by_cases hi : k = i
    · subst hi
      refine .inr ⟨v, w, type, hfirst, hnow, h, (Value.coerce_keeps h).1, ?_⟩
      exact getElem?_set_self (List.getElem?_eq_some_iff.mp hnow).1
    · exact .inl (getElem?_set_ne hi)

theorem Steps.refines (h : Steps Unset orig a b) : a.Refines orig b := by
  induction h with
  | refl => exact .refl a
  | tail _ h ih => exact ih.trans h.refines

end

/-- Checking only refines. A run of the check over a program that parsing accepts is a sequence
of single writes, also if it ends with a fault: every state in which it comes to a statement is
on the way, and between any two stages, types and nullabilities that are known stay, nothing
else of the table changes, and a literal is at most converted once, where it stands. What is no
literal and no annotation is the same in the tree afterwards. -/
theorem check_only_refines (tokens : List Token) (hash : NameHash) (strict : Bool) (parsed : Parsed)
    (t : Table) (hparse : parse (.ofTokens tokens) (.fresh hash strict) = .ok parsed t) :
    let orig := slots parsed.program
    let last : Stage := ⟨slots (check parsed t).program, (check parsed t).table⟩
    bare (check parsed t).program = bare parsed.program ∧
      Steps Unset orig ⟨orig, t⟩ last ∧
      (∀ s x, Comes ⟨t, 0⟩ parsed.program.functions s x →
        ∃ vs, Steps Unset orig ⟨orig, t⟩ ⟨vs, s.table⟩ ∧ Steps Unset orig ⟨vs, s.table⟩ last) ∧
      ∀ a b, Steps Unset orig ⟨orig, t⟩ a → Steps Unset orig a b → a.Refines orig b := by
  obtain ⟨p, hacc⟩ := Grammar.exists_accepted (TokenBuffer.last_ofTokens tokens) hparse
  have hwalked := walked_functions (F := Unset) (s := ⟨t, 0⟩) parsed.program.functions
    fun s x r hcomes hr => by
      obtain ⟨m, hfront, hstands⟩ := Front.comes (P := fun _ => True) hacc.depicts.functions
        (fun _ _ _ => trivial) (Front.start hacc) hcomes
      exact hstands.unset hfront hr
  refine ⟨?_, hwalked.trail.steps, fun s x hcomes => ?_, fun a b _ h => h.refines⟩
  · exact congrArg (fun fns => { parsed.program with functions := fns }) hwalked.same
  · exact hwalked.trail.passes s.table ⟨s, x, hcomes, rfl⟩

open Grammar in
/-- A program with `const x: f64 = 1; const y = null;` as its `main`. -/
def converting : Grammar.Program :=
  let float : TypeMark := ⟨lexeme .colon ":", none, (lexeme .kwF64 "f64").1, .f64, rfl⟩
  .ofFunctions [.simple "main" <|
    .plain (.const "x" (some float) (.arithmetic ⟨.operand (lexeme .int "1").1 rfl, trivial⟩)) <|
    .plain (.const "y" none .null) .done]

/-- The literal is converted before the check fails for want of a type. -/
theorem check_only_refines_converting :
    ∃ parsed t, parse (.ofTokens converting.tokens) (.fresh (fun _ => 0) true) = .ok parsed t ∧
      (check parsed t).failure.isSome = true ∧
      (slots parsed.program)[0]? = some (some ⟨.none, .i32, "1", false⟩) ∧
      (slots (check parsed t).program)[0]? = some (some ⟨.none, .f64, "1.0", false⟩) ∧
      bare (check parsed t).program = bare parsed.program ∧
      Stage.Refines (slots parsed.program) ⟨slots parsed.program, t⟩
        ⟨slots (check parsed t).program, (check parsed t).table⟩ := by
  let b := TokenBuffer.ofTokens converting.tokens
  have hitems : converting.tokens ++ [] = b.items := by decide +kernel
  obtain ⟨parsed, t, hparse, hfail, hbef, hafter⟩ : ∃ parsed t,
      parse b (.fresh (fun _ => 0) true) = .ok parsed t ∧ (check parsed t).failure.isSome = true ∧
        (slots parsed.program)[0]? = some (some ⟨.none, .i32, "1", false⟩) ∧
        (slots (check parsed t).program)[0]? = some (some ⟨.none, .f64, "1.0", false⟩) := by
    rw [Grammar.parse_tokens hitems (Grammar.shows_fresh _ _)]
    decide +kernel
  obtain ⟨hbare, hsteps, -, href⟩ := check_only_refines _ _ _ parsed t hparse
  exact ⟨parsed, t, hparse, hfail, hbef, hafter, hbare, href _ _ .refl hsteps⟩

end Ifj24.Typing
