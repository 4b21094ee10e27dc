import Mathlib.Data.List.Forall2
import Ifj24.Proofs.Steps
import Ifj24.Proofs.Tables
import Ifj24.Token.Buffer

/-!
Twin runs. Two runs of the compiler are twins if they differ only in what must not matter: the
places of tokens, and the numbers at which the variables of a function start. They are followed
side by side; both succeed, with results that are twins again, or both fail with errors of one
kind. Twins of symbol tables stay twins under all operations of the parser.
-/

namespace Ifj24

variable {hash : NameHash} {a b : Scope} {r s : VarRef} {ρ ρ' : VarRef → VarRef → Prop}

def SameKind (d e : Diagnostic) : Prop := e.kind = d.kind

/-- Two runs that end alike: with results and states that are related, or with errors of one
kind. -/
inductive EndAlike {σ τ α β : Type} (Q : α → β → σ → τ → Prop) :
    EStateM.Result Diagnostic σ α → EStateM.Result Diagnostic τ β → Prop
  | ok {a : α} {b : β} {s : σ} {t : τ} : Q a b s t → EndAlike Q (.ok a s) (.ok b t)
  | error {d e : Diagnostic} {s : σ} {t : τ} : SameKind d e → EndAlike Q (.error d s) (.error e t)

namespace EndAlike

variable {σ τ α β γ δ : Type} {Q : α → β → σ → τ → Prop} {R : γ → δ → σ → τ → Prop}

theorem bind {m : EStateM Diagnostic σ α} {m' : EStateM Diagnostic τ β}
    {f : α → EStateM Diagnostic σ γ} {f' : β → EStateM Diagnostic τ δ} {s : σ} {t : τ}
    (hm : EndAlike Q (m s) (m' t)) (hf : ∀ a b s t, Q a b s t → EndAlike R (f a s) (f' b t)) :
    EndAlike R ((m >>= f) s) ((m' >>= f') t) := by
  rw [bind_apply, bind_apply]
  generalize m s = x at hm ⊢
  generalize m' t = y at hm ⊢
  cases hm with
  | ok h => exact hf _ _ _ _ h
  | error h => exact .error h

theorem mono (h : EndAlike Q x y) (hQ : ∀ a b s t, Q a b s t → Q' a b s t) :
    EndAlike Q' x y := by
  cases h with
  | ok h => exact .ok (hQ _ _ _ _ h)
  | error h => exact .error h

end EndAlike

inductive ExceptAlike {α β : Type} (R : α → β → Prop) :
    Except Diagnostic α → Except Diagnostic β → Prop
  | ok {a : α} {b : β} : R a b → ExceptAlike R (.ok a) (.ok b)
  | error {d e : Diagnostic} : SameKind d e → ExceptAlike R (.error d) (.error e)

namespace ExceptAlike

variable {α β γ δ : Type} {R : α → β → Prop} {Q : γ → δ → Prop}

theorem bind {x : Except Diagnostic α} {y : Except Diagnostic β} {f : α → Except Diagnostic γ}
    {g : β → Except Diagnostic δ} (h : ExceptAlike R x y)
    (hf : ∀ a b, R a b → ExceptAlike Q (f a) (g b)) : ExceptAlike Q (x >>= f) (y >>= g) := by
  cases h with
  | ok h => exact hf _ _ h
  | error h => exact .error h

end ExceptAlike

theorem rel_ite {α β : Type} {R : α → β → Prop} {p q : Prop} [Decidable p] [Decidable q] {x y : α}
    {x' y' : β} (h : p ↔ q) (hx : p → R x x') (hy : ¬ p → R y y') :
    R (if p then x else y) (if q then x' else y') := by
  by_cases hp : p
  · rw [if_pos hp, if_pos (h.mp hp)]
    exact hx hp
  · rw [if_neg hp, if_neg fun hq => hp (h.mpr hq)]
    exact hy hp

section

variable {α β γ δ : Type} {R : α → β → Prop} {Q : γ → δ → Prop}

theorem option_rel_isSome {a : Option α} {b : Option β} (h : Option.Rel R a b) :
    b.isSome = a.isSome := by
  cases h <;> rfl

theorem option_rel_mono {a : Option α} {b : Option β} (h : Option.Rel R a b)
    (hR : ∀ x y, R x y → R' x y) : Option.Rel R' a b := by
  cases h with
  | some h => exact .some (hR _ _ h)
  | none => exact .none

theorem option_rel_map {a : Option α} {b : Option β}
    (h : Option.Rel R a b) (hf : ∀ x y, R x y → Q (f x) (g y)) :
    Option.Rel Q (a.map f) (b.map g) := by
  cases h with
  | some h => exact .some (hf _ _ h)
  | none => exact .none

theorem option_rel_or {a c : Option α} {b d : Option β} (h : Option.Rel R a b)
    (h' : Option.Rel R c d) : Option.Rel R (a.or c) (b.or d) := by
  cases h with
  | some h => exact .some h
  | none => exact h'

theorem option_rel_findSome?
    (h : List.Forall₂ R xs ys) (hf : ∀ x y, R x y → Option.Rel Q (f x) (g y)) :
    Option.Rel Q (xs.findSome? f) (ys.findSome? g) := by
  induction h with
  | nil => exact .none
  | @cons x y xs ys hxy _ ih =>
    have hfirst := hf x y hxy
    rw [List.findSome?_cons, List.findSome?_cons]
    generalize f x = a at hfirst
    generalize g y = b at hfirst
    cases hfirst with
    | some h => exact .some h
    | none => exact ih

end

inductive Token.Twin : Token → Token → Prop
  | mk (a : Token) (pos : Pos) : Token.Twin a { a with pos }

namespace Token.Twin

variable {a b : Token}

theorem kind (h : Token.Twin a b) : b.kind = a.kind := by
  cases h
  rfl

theorem literal (h : Token.Twin a b) : b.literal = a.literal := by
  cases h
  rfl

theorem headD (h : List.Forall₂ Token.Twin as bs) (hlast : Token.Twin last last') :
    Token.Twin (as.headD last) (bs.headD last') := by
  cases h with
  | nil => exact hlast
  | cons h _ => exact h

theorem tail (h : List.Forall₂ Token.Twin as bs) : List.Forall₂ Token.Twin as.tail bs.tail := by
  cases h with
  | nil => exact .nil
  | cons _ h => exact h

end Token.Twin

inductive FuncDef.Twin : FuncDef → FuncDef → Prop
  | mk (f : FuncDef) (pos : Pos) : FuncDef.Twin f { f with pos }

structure Var.Twin (v w : Var) : Prop where
  name : w.name = v.name
  type : w.type = v.type
  mutable_ : w.mutable_ = v.mutable_
  nullable : w.nullable = v.nullable

def Var.marks (v : Var) : Bool × Bool × Bool := (v.accessed, v.modified, v.param)

/-- Variables of two tables that stand for each other: both are `_`, or they are equally far
behind `m` and `n`. Of these there are `c` each. -/
inductive Paired (m n c : Nat) : VarRef → VarRef → Prop
  | discard : Paired m n c Table.discard Table.discard
  | own (i : Nat) : i < c → Paired m n c (m + i) (n + i)

namespace Paired

variable {m n c d : Nat} {r s : VarRef}

theorem mono (h : Paired m n c r s) (hle : c ≤ d) : Paired m n d r s := by
  cases h with
  | discard => exact .discard
  | own i hi => exact .own i (Nat.lt_of_lt_of_le hi hle)

theorem lt (h : Paired m n c r s) (hm : 0 < m) (hn : 0 < n) : r < m + c ∧ s < n + c := by
  cases h with
  | discard => exact ⟨Nat.add_pos_left hm c, Nat.add_pos_left hn c⟩
  | own i hi => exact ⟨Nat.add_lt_add_left hi m, Nat.add_lt_add_left hi n⟩

theorem eq_iff (h : Paired m n c r s) (h' : Paired m n c r' s') (hm : 0 < m) (hn : 0 < n) :
    r' = r ↔ s' = s := by
  cases h with
  | discard =>
    cases h' with
    | discard => exact ⟨fun _ => rfl, fun _ => rfl⟩
    | own j _ =>
      refine ⟨fun heq => ?_, fun heq => ?_⟩
      · exact absurd heq (Nat.ne_of_gt (Nat.add_pos_left hm j))
      · exact absurd heq (Nat.ne_of_gt (Nat.add_pos_left hn j))
  | own i _ =>
    cases h' with
    | discard =>
      refine ⟨fun heq => ?_, fun heq => ?_⟩
      · exact absurd heq (Nat.ne_of_lt (Nat.add_pos_left hm i))
      · exact absurd heq (Nat.ne_of_lt (Nat.add_pos_left hn i))
    | own j _ => rw [Nat.add_left_cancel_iff, Nat.add_left_cancel_iff]

theorem eq (h : Paired m m c r s) : s = r := by
  cases h <;> rfl

end Paired

/-- A pair of variables that were declared, so that neither is `_`. -/
structure Fresh (ρ : VarRef → VarRef → Prop) (r s : VarRef) : Prop where
  pair : ρ r s
  left_ne : r ≠ Table.discard
  right_ne : s ≠ Table.discard

theorem Fresh.mono (h : Fresh ρ r s) (hρ : ∀ r s, ρ r s → ρ' r s) : Fresh ρ' r s :=
  ⟨hρ r s h.pair, h.left_ne, h.right_ne⟩

/-- Scopes with the same names, which mean variables that stand for each other. -/
structure Scope.Twin (hash : NameHash) (ρ : VarRef → VarRef → Prop) (a b : Scope) : Prop where
  vars : List.Forall₂ ρ a.vars b.vars
  lookup : ∀ name, Option.Rel ρ (a.lookup? hash name) (b.lookup? hash name)

theorem Scope.Twin.mono
    (h : Scope.Twin hash ρ a b) (hρ : ∀ r s, ρ r s → ρ' r s) : Scope.Twin hash ρ' a b where
  vars := h.vars.imp hρ
  lookup name := option_rel_mono (h.lookup name) hρ

theorem Scope.Twin.insert (h : Scope.Twin hash ρ a b) (hrs : ρ r s) :
    Scope.Twin hash ρ (a.insert hash name r) (b.insert hash name s) where
  vars := List.rel_append h.vars (.cons hrs .nil)
  lookup other := by
    show Option.Rel ρ ((a.index.insert hash name r).find? hash other)
      ((b.index.insert hash name s).find? hash other)
    rw [NameIndex.find?_insert, NameIndex.find?_insert]
    refine option_rel_or (h.lookup other) ?_
    split
    · exact .some hrs
    · exact .none

namespace Table

theorem var_push_eq (t : Table) (v : Var) (r : VarRef) :
    (t.store.push v).getD r .discard = if r = t.store.size then v else t.var r := by
  simp only [var, Array.getD_eq_getD_getElem?, Array.getElem?_push]
  split <;> rfl

/-- The last `c` variables of a table are those from `m` on, and are numbered so. Outside all
functions there is none but `_`. -/
structure Numbered (m c : Nat) (t : Table) : Prop where
  pos : 0 < m
  size : t.store.size = m + c
  next : t.nextId = UInt32.ofNat (m + c)
  discard : Var.discard.Alike (t.var Table.discard)
  ids : ∀ i < c, (t.var (m + i)).id = UInt32.ofNat (m + i)
  outermost : ∀ r ∈ t.global.vars, r = Table.discard

namespace Numbered

variable {m c : Nat} {t : Table}

theorem isDiscard (h : t.Numbered m c) : (t.var Table.discard).isDiscard = true := by
  rw [Var.isDiscard, h.discard.id]
  rfl

theorem modify (h : t.Numbered m c) (r : VarRef) (hf : ∀ v : Var, v.Alike (f v)) :
    (t.modify r f).Numbered m c := by
  have halike (s : VarRef) (hs : s < m + c) : (t.var s).Alike ((t.modify r f).var s) := by
    rw [var_modify t r s f (h.size ▸ hs)]
    split
    · exact hf _
    · exact .refl _
  refine ⟨h.pos, by rw [size_modify, h.size], h.next, ?_, ?_, h.outermost⟩
  · exact h.discard.trans (halike Table.discard (Nat.add_pos_left h.pos c))
  · intro i hi
    rw [(halike _ (Nat.add_lt_add_left hi m)).id, h.ids i hi]

theorem push (h : t.Numbered m c) {v : Var} (hv : v.id = t.nextId) (log : Array VarRef)
    (inner : List Scope) :
    Numbered m (c + 1)
      { t with store := t.store.push v, log, inner, nextId := t.nextId + 1 } := by
  have hid (s : VarRef) : (t.store.push v).getD s .discard = if s = m + c then v else t.var s := by
    rw [var_push_eq, h.size]
  refine ⟨h.pos, ?_, ?_, ?_, ?_, h.outermost⟩
  · exact (Array.size_push v).trans (congrArg (· + 1) h.size)
  · show t.nextId + 1 = UInt32.ofNat (m + c + 1)
    rw [h.next, UInt32.ofNat_add (m + c) 1]
    rfl
  · show Var.discard.Alike ((t.store.push v).getD _ .discard)
    have hne : Table.discard ≠ m + c := Nat.ne_of_lt (Nat.add_pos_left h.pos c)
    rw [hid, if_neg hne]
    exact h.discard
  · intro i hi
    show ((t.store.push v).getD _ .discard).id = _
    rw [hid]
    split
    · rename_i heq
      rw [hv, h.next, heq]
    · rename_i hne
      exact h.ids i (Nat.lt_of_le_of_ne (Nat.le_of_lt_succ hi) fun heq => hne (by rw [heq]))

theorem unused?_global (h : t.Numbered m c) : t.unused? t.global = none := by
  refine List.findSome?_eq_none_iff.mpr fun r hr => ?_
  obtain rfl := h.outermost r hr
  simp [Var.usageFault?, h.isDiscard]

end Numbered

/-- The second side is at least as strict as the first, and just as strict if `E`. -/
structure AsStrict (E : Prop) (b b' : Bool) : Prop where
  same : E → b' = b
  le : b = true → b' = true

/-- Tables that have the same functions, and `c` variables each besides those before `m` and
before `n`. The variables before, other than `_`, can no longer be seen. -/
structure Twin (E : Prop) (m n c : Nat) (t u : Table) : Prop where
  hash : u.hash = t.hash
  strict : AsStrict E t.strict u.strict
  funcs : ∀ name, Option.Rel FuncDef.Twin (t.lookupFunction? name) (u.lookupFunction? name)
  left : t.Numbered m c
  right : u.Numbered n c
  vars : ∀ r s, Paired m n c r s → (t.var r).Twin (u.var s)
  marks : ∀ i < c, (u.var (n + i)).marks = (t.var (m + i)).marks
  inner : List.Forall₂ (Scope.Twin t.hash (Paired m n c)) t.inner u.inner
  global : ∀ name,
    Option.Rel (Paired m n c) (t.global.lookup? t.hash name) (u.global.lookup? t.hash name)

/-- What two tables find unused: a rule of use is broken in both, or in neither, or in the second
one only. The latter is not so if `E`. -/
inductive FoundAlike (E : Prop) : Option Diagnostic → Option Diagnostic → Prop
  | none : FoundAlike E none none
  | both {d e : Diagnostic} (hd : d.kind = .unusedVariable) (he : e.kind = .unusedVariable) :
      FoundAlike E (some d) (some e)
  | second {e : Diagnostic} (hE : ¬ E) (he : e.kind = .unusedVariable) : FoundAlike E none (some e)

namespace FoundAlike

theorem or (h : FoundAlike E x y) (h' : FoundAlike E x' y') :
    FoundAlike E (x.or x') (y.or y') := by
  cases h with
  | none => exact h'
  | both hd he => exact .both hd he
  | second hE he =>
    cases h' with
    | none => exact .second hE he
    | both hd _ => exact .both hd he
    | second _ _ => exact .second hE he

theorem rel (h : FoundAlike True x y) : Option.Rel SameKind x y := by
  cases h with
  | none => exact .none
  | both hd he => exact .some (he.trans hd.symm)
  | second hE _ => exact absurd trivial hE

theorem findSome? {R : VarRef → VarRef → Prop} (h : List.Forall₂ R rs ss)
    (hfg : ∀ r s, R r s → FoundAlike E (f r) (g s)) :
    FoundAlike E (rs.findSome? f) (ss.findSome? g) := by
  induction h with
  | nil => exact .none
  | @cons r s rs ss hrs _ ih =>
    have hor (f : VarRef → Option Diagnostic) (x : VarRef) (xs : List VarRef) :
        (x :: xs).findSome? f = (f x).or (xs.findSome? f) := by
      rw [List.findSome?_cons]
      cases f x <;> rfl
    rw [hor, hor]
    exact (hfg r s hrs).or ih

/-- Strictness only adds to the faults of a variable. -/
theorem usageFault? {v : Var} {b b' : Bool} {f g : UsageFault → Diagnostic}
    (hb : AsStrict E b b') (hf : ∀ x, (f x).kind = .unusedVariable)
    (hg : ∀ x, (g x).kind = .unusedVariable) :
    FoundAlike E ((v.usageFault? b).map f) ((v.usageFault? b').map g) := by
  by_cases hsame : b' = b
  · subst hsame
    cases v.usageFault? b' with
    | none => exact .none
    | some fault => exact .both (hf fault) (hg fault)
  · obtain ⟨rfl, rfl⟩ : b = false ∧ b' = true := by
      have hle := hb.le
      cases b <;> cases b' <;> simp_all
    unfold Var.usageFault?
    split
    · exact .none
    · split
      · exact .both (hf _) (hg _)
      · simp only [Bool.false_and, Bool.false_eq_true, if_false, Option.map_none]
        split
        · exact .second (fun hE => hsame (hb.same hE)) (hg _)
        · exact .none

end FoundAlike

/-- Numbers of variables are taken for that of `_` on both sides or on none. -/
def Agree (m n c : Nat) : Prop :=
  ∀ i < c, (UInt32.ofNat (m + i) == 0) = (UInt32.ofNat (n + i) == 0)

namespace Twin

variable {m n c : Nat} {t u : Table} {r s : VarRef}

section

variable (h : Twin E m n c t u)

include h

theorem resolve? (name : Bytes) :
    Option.Rel (fun a b => Paired m n c a.1 b.1) (t.resolve? name) (u.resolve? name) := by
  have hscopes : List.Forall₂ (fun a b : Scope => ∀ name,
      Option.Rel (Paired m n c) (a.lookup? t.hash name) (b.lookup? t.hash name))
      (t.inner ++ [t.global]) (u.inner ++ [u.global]) :=
    List.rel_append (h.inner.imp fun _ _ hab => hab.lookup) (.cons h.global .nil)
  refine option_rel_findSome? hscopes fun a b hab => ?_
  rw [h.hash]
  exact option_rel_map (hab name) fun _ _ hrs => hrs

theorem modify (hrs : Paired m n c r s) (hf : ∀ v : Var, v.Alike (f v))
    (hmarks : ∀ v w : Var, w.marks = v.marks → (f w).marks = (f v).marks) :
    Twin E m n c (t.modify r f) (u.modify s f) := by
  have hleft {r' s' : VarRef} (hp : Paired m n c r' s') :
      (t.modify r f).var r' = if r' = r then f (t.var r') else t.var r' :=
    var_modify t r r' f (h.left.size ▸ (hp.lt h.left.pos h.right.pos).1)
  have hright {r' s' : VarRef} (hp : Paired m n c r' s') :
      (u.modify s f).var s' = if r' = r then f (u.var s') else u.var s' := by
    rw [var_modify u s s' f (h.right.size ▸ (hp.lt h.left.pos h.right.pos).2)]
    simp only [hrs.eq_iff hp h.left.pos h.right.pos]
  refine ⟨h.hash, h.strict, h.funcs, h.left.modify r hf, h.right.modify s hf, ?_, ?_,
    h.inner, h.global⟩
  · intro r' s' hp
    rw [hleft hp, hright hp]
    have hvars := h.vars r' s' hp
    split
    · have hv := hf (t.var r')
      have hw := hf (u.var s')
      exact ⟨by rw [hw.name, hv.name, hvars.name], by rw [hw.type, hv.type, hvars.type],
        by rw [hw.mutable_, hv.mutable_, hvars.mutable_],
        by rw [hw.nullable, hv.nullable, hvars.nullable]⟩
    · exact hvars
  · intro i hi
    rw [hleft (.own i hi), hright (.own i hi)]
    split
    · exact hmarks _ _ (h.marks i hi)
    · exact h.marks i hi

theorem find? (name : Bytes) :
    Option.Rel (fun a b => Paired m n c a.1 b.1 ∧ Twin E m n c a.2 b.2) (t.find? name)
      (u.find? name) := by
  refine option_rel_map (h.resolve? name) fun a b hab => ⟨hab, ?_⟩
  refine h.modify hab (fun v => ⟨rfl, rfl, rfl, rfl, rfl, rfl, rfl⟩) fun v w hvw => ?_
  simp only [Var.marks, Prod.mk.injEq] at hvw ⊢
  exact ⟨trivial, hvw.2⟩

theorem enter (kind : ScopeKind) (comment : Bytes) :
    Twin E m n c (t.enter kind comment) (u.enter kind comment) :=
  { h with
    left := ⟨h.left.pos, h.left.size, h.left.next, h.left.discard, h.left.ids, h.left.outermost⟩
    right :=
      ⟨h.right.pos, h.right.size, h.right.next, h.right.discard, h.right.ids, h.right.outermost⟩
    inner := .cons ⟨.nil, fun _ => .none⟩ h.inner }

theorem push {v w : Var} {inner inner' : List Scope} {log log' : Array VarRef}
    (hv : v.id = t.nextId) (hw : w.id = u.nextId) (hvw : v.Twin w) (hmarks : w.marks = v.marks)
    (hinner : List.Forall₂ (Scope.Twin t.hash (Paired m n (c + 1))) inner inner') :
    Twin E m n (c + 1)
      { t with store := t.store.push v, log, inner, nextId := t.nextId + 1 }
      { u with store := u.store.push w, log := log', inner := inner', nextId := u.nextId + 1 } := by
  have hleft (r : VarRef) : (t.store.push v).getD r .discard = if r = m + c then v else t.var r := by
    rw [var_push_eq, h.left.size]
  have hright (r : VarRef) : (u.store.push w).getD r .discard = if r = n + c then w else u.var r := by
    rw [var_push_eq, h.right.size]
  have hnew : (Array.getD (t.store.push v) (m + c) .discard).Twin
      (Array.getD (u.store.push w) (n + c) .discard) := by
    rw [hleft, hright, if_pos rfl, if_pos rfl]
    exact hvw
  have hold {r s : VarRef} (hrs : Paired m n c r s) :
      (t.store.push v).getD r .discard = t.var r ∧ (u.store.push w).getD s .discard = u.var s := by
    obtain ⟨hr, hs⟩ := hrs.lt h.left.pos h.right.pos
    exact ⟨var_push t v (h.left.size ▸ hr), var_push u w (h.right.size ▸ hs)⟩
  refine ⟨h.hash, h.strict, h.funcs, h.left.push hv log inner, h.right.push hw log' inner', ?_, ?_,
    hinner, fun name => option_rel_mono (h.global name) fun r s hrs => hrs.mono (Nat.le_succ c)⟩
  · intro r s hrs
    show ((t.store.push v).getD r .discard).Twin ((u.store.push w).getD s .discard)
    cases hrs with
    | discard =>
      rw [(hold .discard).1, (hold .discard).2]
      exact h.vars _ _ .discard
    | own i hi =>
      rcases Nat.lt_succ_iff_lt_or_eq.mp hi with hi | rfl
      · rw [(hold (.own i hi)).1, (hold (.own i hi)).2]
        exact h.vars _ _ (.own i hi)
      · exact hnew
  · intro i hi
    show ((u.store.push w).getD (n + i) .discard).marks = ((t.store.push v).getD (m + i) .discard).marks
    rcases Nat.lt_succ_iff_lt_or_eq.mp hi with hi | rfl
    · rw [(hold (.own i hi)).1, (hold (.own i hi)).2]
      exact h.marks i hi
    · rw [hleft, hright, if_pos rfl, if_pos rfl]
      exact hmarks

theorem declare (name : Bytes) (type : DataType) (mutable_ : Bool)
    (nullable : Nullability) (pos pos' : Pos) :
    EndAlike (fun a b t u => Fresh (Paired m n (c + 1)) a b ∧ Twin E m n (c + 1) t u)
      (t.declare name type mutable_ nullable pos) (u.declare name type mutable_ nullable pos') := by
  have hinner := h.inner
  unfold Table.declare
  generalize t.inner = inner at hinner
  generalize u.inner = inner' at hinner
  cases hinner with
  | nil => exact .error rfl
  | @cons scope scope' outer outer' hscope houter =>
    have hlook : Option.Rel (Paired m n c) (scope.lookup? t.hash name)
        (scope'.lookup? u.hash name) := h.hash ▸ hscope.lookup name
    dsimp only
    generalize scope.lookup? t.hash name = found at hlook
    generalize scope'.lookup? u.hash name = found' at hlook
    cases hlook with
    | some _ => exact .error rfl
    | none =>
      have hnew : Paired m n (c + 1) t.store.size u.store.size := by
        rw [h.left.size, h.right.size]
        exact .own c (Nat.lt_succ_self c)
      have hmono (a b : Scope) (hab : Scope.Twin t.hash (Paired m n c) a b) :
          Scope.Twin t.hash (Paired m n (c + 1)) a b := hab.mono fun _ _ hrs => hrs.mono (Nat.le_succ c)
      have hpos : 0 < t.store.size ∧ 0 < u.store.size := by
        rw [h.left.size, h.right.size]
        exact ⟨Nat.add_pos_left h.left.pos c, Nat.add_pos_left h.right.pos c⟩
      refine .ok ⟨⟨hnew, Nat.ne_of_gt hpos.1, Nat.ne_of_gt hpos.2⟩, h.push ?_ ?_ ?_ ?_ ?_⟩
      · rfl
      · rfl
      · exact ⟨rfl, rfl, rfl, rfl⟩
      · rfl
      · rw [h.hash]
        exact .cons ((hmono _ _ hscope).insert hnew) (houter.imp hmono)

theorem usageFault?_eq (hagree : Agree m n c) (hrs : Paired m n c r s) (strict : Bool) :
    (u.var s).usageFault? strict = (t.var r).usageFault? strict := by
  cases hrs with
  | discard => simp [Var.usageFault?, h.left.isDiscard, h.right.isDiscard]
  | own i hi =>
    have hmarks := h.marks i hi
    simp only [Var.marks, Prod.mk.injEq] at hmarks
    obtain ⟨haccessed, hmodified, hparam⟩ := hmarks
    rw [Var.usageFault?, Var.usageFault?, haccessed, hmodified, hparam, Var.isDiscard,
      Var.isDiscard, h.left.ids i hi, h.right.ids i hi, hagree i hi, (h.vars _ _ (.own i hi)).mutable_]

theorem unused? (hagree : Agree m n c) {a b : Scope} (hab : Scope.Twin t.hash (Paired m n c) a b) :
    FoundAlike E (t.unused? a) (u.unused? b) := by
  refine .findSome? hab.vars fun r s hrs => ?_
  dsimp only
  rw [h.usageFault?_eq hagree hrs]
  exact .usageFault? h.strict (fun _ => rfl) fun _ => rfl

/-- Closing a scope finds the same broken rules, unless one side asks for more. -/
theorem exit : Twin E m n c t.exit.table u.exit.table ∧
      (Agree m n c → FoundAlike E t.exit.unused u.exit.unused) := by
  have hinner := h.inner
  have hleft := h.left
  have hright := h.right
  unfold Table.exit
  generalize t.inner = inner at hinner
  generalize u.inner = inner' at hinner
  cases hinner with
  | nil =>
    refine ⟨⟨h.hash, h.strict, fun _ => .none, ?_, ?_, h.vars, h.marks, .nil, fun _ => .none⟩,
      fun _ => ?_⟩
    · exact ⟨hleft.pos, hleft.size, hleft.next, hleft.discard, hleft.ids, fun _ hr => absurd hr List.not_mem_nil⟩
    · exact ⟨hright.pos, hright.size, hright.next, hright.discard, hright.ids, fun _ hr => absurd hr List.not_mem_nil⟩
    · rw [hleft.unused?_global, hright.unused?_global]
      exact .none
  | cons hscope houter =>
    refine ⟨⟨h.hash, h.strict, h.funcs, ?_, ?_, h.vars, h.marks, houter, h.global⟩,
      fun hagree => h.unused? hagree hscope⟩
    · exact ⟨hleft.pos, hleft.size, hleft.next, hleft.discard, hleft.ids, hleft.outermost⟩
    · exact ⟨hright.pos, hright.size, hright.next, hright.discard, hright.ids, hright.outermost⟩

theorem addFunction (hfg : FuncDef.Twin f g) :
    EndAlike (fun _ _ => Twin E m n c) (t.addFunction f) (u.addFunction g) := by
  cases hfg with
  | mk pos =>
    have hlook : Option.Rel FuncDef.Twin (t.funcs.lookup? t.hash f.name)
        (u.funcs.lookup? u.hash f.name) := h.funcs f.name
    unfold Table.addFunction Registry.add
    generalize t.funcs.lookup? t.hash f.name = found at hlook
    generalize u.funcs.lookup? u.hash f.name = found' at hlook
    cases hlook with
    | some _ => exact .error rfl
    | none =>
      refine .ok ⟨h.hash, h.strict, ?_, ?_, ?_, h.vars, h.marks, h.inner, h.global⟩
      · intro name
        show Option.Rel FuncDef.Twin ((t.funcs.index.insert t.hash f.name f).find? t.hash name)
          ((u.funcs.index.insert u.hash f.name { f with pos }).find? u.hash name)
        rw [NameIndex.find?_insert, NameIndex.find?_insert]
        refine option_rel_or (h.funcs name) ?_
        split
        · exact .some (.mk f pos)
        · exact .none
      · exact ⟨h.left.pos, h.left.size, h.left.next, h.left.discard, h.left.ids, h.left.outermost⟩
      · exact
          ⟨h.right.pos, h.right.size, h.right.next, h.right.discard, h.right.ids, h.right.outermost⟩

end

end Twin

end Table

end Ifj24
