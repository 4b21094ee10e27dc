import Ifj24.Proofs.Evaluation
import Ifj24.Proofs.Parsing

/-!
A program that passes the check is well typed. The check goes through the statements
once and in their order. Types that are known are never changed: a type is inferred only
for a variable that has none, and the name that a guard binds is declared right there, so
nothing has used it before. What was well typed when it was checked is thus well typed in
the table that the check ends with.
-/

open List

namespace Ifj24.Typing

open Ifj24.Tree

variable {t : Table}

variable {pos : Pos}

section

variable {g : Guard} {x y : Stmt}

variable {α β : Type} {s s' : CheckState}

/-- The check finds no fault and leaves the node `a`. -/
def Passes (m : Checker (Checked α)) (s : CheckState) (a : α) (s' : CheckState) : Prop :=
  m s = (⟨a, none⟩, s')

theorem bind_run {m : Checker α} : (m >>= k) s = k (m s).1 (m s).2 := rfl

theorem passes_bind {m : Checker (Checked α)}
    (h : Passes (m >>= k) s b s') (hk : ∀ a d s₁, ¬ Passes (k ⟨a, some d⟩) s₁ b s') :
    ∃ a s₁, Passes m s a s₁ ∧ Passes (k ⟨a, none⟩) s₁ b s' := by
  cases hm : m s with
  | mk c s₁ =>
    obtain ⟨a, failure⟩ := c
    have hrun : k ⟨a, failure⟩ s₁ = (⟨b, none⟩, s') := by
      rw [Passes, bind_run, hm] at h
      exact h
    cases failure with
    | some d => exact absurd hrun (hk a d s₁)
    | none => exact ⟨a, s₁, hm, hrun⟩

theorem passes_map {m : Checker (Checked α)} {g : α → β}
    (h : Passes (do return (← m).map g) s b s') : ∃ a, Passes m s a s' ∧ b = g a := by
  obtain ⟨a, s₁, hm, h⟩ := passes_bind h fun a d s₁ h => nomatch h
  cases h
  exact ⟨a, hm, rfl⟩

theorem stmts_cons_passes {xs ys : List Stmt} (h : Passes (stmts f (x :: xs)) s ys s') :
    ∃ y s₁ ys', Passes (stmt f x) s y s₁ ∧ Passes (stmts f xs) s₁ ys' s' ∧ ys = y :: ys' := by
  obtain ⟨y, s₁, hx, h⟩ := passes_bind h fun a d s₁ h => nomatch h
  obtain ⟨ys', hxs, hys⟩ := passes_map h
  exact ⟨y, s₁, ys', hx, hxs, hys⟩

theorem while_passes (h : Passes (stmt f (.while pos g body)) s y s') :
    ∃ g' s₁ ys, Passes (guard g) s g' s₁ ∧ Passes (stmts f body.stmts) s₁ ys s' ∧
      y = .while pos g' { body with stmts := ys } := by
  obtain ⟨g', s₁, hg, h⟩ := passes_bind h fun a d s₁ h => nomatch h
  obtain ⟨ys, s₂, hys, h⟩ := passes_bind h fun a d s₁ h => nomatch h
  cases h
  exact ⟨g', s₁, ys, hg, hys, rfl⟩

theorem ifElse_passes (h : Passes (stmt f (.ifElse pos g yes no)) s y s') :
    ∃ g' s₁ ys s₂, Passes (guard g) s g' s₁ ∧ Passes (stmts f yes.stmts) s₁ ys s₂ ∧
      match no with
      | none => y = .ifElse pos g' { yes with stmts := ys } none ∧ s' = s₂
      | some e => ∃ zs, Passes (stmts f e.body.stmts) s₂ zs s' ∧
        y = .ifElse pos g' { yes with stmts := ys } (some ⟨e.pos, { e.body with stmts := zs }⟩) := by
  rw [stmt] at h
  obtain ⟨g', s₁, hg, h⟩ := passes_bind h fun a d s₁ h => nomatch h
  obtain ⟨ys, s₂, hys, h⟩ := passes_bind h fun a d s₁ h => nomatch h
  refine ⟨g', s₁, ys, s₂, hg, hys, ?_⟩
  cases no with
  | none =>
    cases h
    exact ⟨rfl, rfl⟩
  | some e =>
    obtain ⟨zs, s₃, hzs, h⟩ := passes_bind h fun a d s₁ h => nomatch h
    cases h
    exact ⟨zs, hzs, rfl⟩

end

section

variable {y : Evaluated} {β : Type}

variable {s s' : CheckState} {t u v : Table} {r : VarRef}

theorem get_bind_apply (k : CheckState → Checker β) : (get >>= k) s = k s s := rfl

theorem modify_bind_apply (g : CheckState → CheckState) (k : Unit → Checker β) :
    (modify g >>= k) s = k () (g s) := rfl

structure Touches (r : VarRef) (t u : Table) : Prop where
  hash : u.hash = t.hash
  funcs : u.funcs = t.funcs
  size : u.store.size = t.store.size
  others : ∀ q, q ≠ r → u.var q = t.var q

namespace Touches

theorem refl (r : VarRef) (t : Table) : Touches r t t := ⟨rfl, rfl, rfl, fun _ _ => rfl⟩

theorem trans (h : Touches r t u) (h' : Touches r u v) : Touches r t v where
  hash := h'.hash.trans h.hash
  funcs := h'.funcs.trans h.funcs
  size := h'.size.trans h.size
  others q hq := (h'.others q hq).trans (h.others q hq)

theorem modify (r : VarRef) (t : Table) (g : Var → Var) : Touches r t (t.modify r g) where
  hash := rfl
  funcs := rfl
  size := t.size_modify r g
  others _ hq := t.var_modify_of_ne g hq

theorem refines (h : Touches r t u) (hid : (u.var r).id = (t.var r).id)
    (hmut : (u.var r).mutable_ = (t.var r).mutable_)
    (hopen : (t.var r).type.isResolved = false) : t.Refines u := by
  have heq (q : VarRef) (hq : (t.var q).type.isResolved = true) : u.var q = t.var q := by
    refine h.others q ?_
    rintro rfl
    rw [hopen] at hq
    cases hq
  refine ⟨h.hash, h.funcs, fun q => ?_, fun q => ?_, fun q hq => ?_, fun q hq => ?_⟩
  · by_cases hq : q = r
    · rw [hq, hid]
    · rw [h.others q hq]
  · by_cases hq : q = r
    · rw [hq, hmut]
    · rw [h.others q hq]
  · rw [heq q hq]
  · rw [heq q hq]

end Touches

/-- Between the tables the variable `r` at most gets a type. Only `_` may be left without. -/
structure Settles (r : VarRef) (t u : Table) : Prop extends Touches r t u where
  refines : t.Refines u
  known : Known (u.var r)
  typed : (u.var r).isDiscard = false → (u.var r).type.isResolved = true

theorem Settles.refl (h : Known (t.var r))
    (htyped : (t.var r).isDiscard = false → (t.var r).type.isResolved = true) : Settles r t t :=
  ⟨.refl r t, .refl t, h, htyped⟩

variable {x : Expr}

theorem Stores.of_known (hx : ValueHas t x k) (htu : t.Refines u)
    (huv : u.Refines v) (hres : (u.var r).type.isResolved = true)
    (htype : k.mode = .null ∨ k.type.type = (u.var r).type)
    (hnull : k.type.nullable = true → (u.var r).nullable = .yes) : Stores v r x := by
  refine ⟨k, hx.refine (htu.trans huv), fun _ => ?_⟩
  rw [huv.type r hres, huv.nullable r hres]
  exact ⟨htype, hnull⟩

theorem storeNullability_passes (h : Passes (storeNullability r y x) s x' s') :
    x' = x ∧
      ((s.table.var r).nullable = .unknown ∧
          s'.table = s.table.modify r (fun v => { v with nullable := .ofBool y.nullable }) ∨
        (s.table.var r).nullable ≠ .unknown ∧ s'.table = s.table ∧
          (y.nullable = true → (s.table.var r).nullable = .yes)) := by
  rw [Passes, storeNullability, get_bind_apply] at h
  cases hnullable : (s.table.var r).nullable with
  | unknown =>
    simp only [hnullable] at h
    cases h
    exact ⟨rfl, .inl ⟨rfl, rfl⟩⟩
  | no =>
    simp only [hnullable] at h
    cases hy : y.nullable with
    | true =>
      rw [hy] at h
      cases h
    | false =>
      rw [hy] at h
      cases h
      exact ⟨rfl, .inr ⟨nofun, rfl, nofun⟩⟩
  | yes =>
    simp only [hnullable] at h
    cases h
    exact ⟨rfl, .inr ⟨nofun, rfl, fun _ => rfl⟩⟩

theorem lt_size_of_not_discard (h : (t.var r).isDiscard = false) : r < t.store.size := by
  refine Nat.lt_of_not_le fun hr => ?_
  have hvar : t.var r = .discard := by simp [Table.var, Array.getD_eq_getD_getElem?, hr]
  rw [hvar] at h
  cases h

theorem takeType_passes (hx : ValueHas s.table x y.use)
    (hdisc : (s.table.var r).isDiscard = false) (hopen : (s.table.var r).type.isResolved = false)
    (hbasic : y.type.IsBasic) (h : Passes (storeNullability r y x)
      { s with table := s.table.modify r fun v => { v with type := y.type } } x' s') :
    Settles r s.table s'.table ∧ ∀ u, s'.table.Refines u → Stores u r x' := by
  have hr := lt_size_of_not_discard hdisc
  have htyped : (s.table.modify r fun v => { v with type := y.type }).var r =
      { s.table.var r with type := y.type } := by
    rw [Table.var_modify _ _ _ _ hr, if_pos rfl]
  have hfirst := Touches.modify r s.table fun v => { v with type := y.type }
  obtain ⟨rfl, ⟨hnullable, htable⟩ | ⟨hnullable, htable, hyes⟩⟩ := storeNullability_passes h
  · have hvar : s'.table.var r =
        { s.table.var r with type := y.type, nullable := .ofBool y.nullable } := by
      rw [htable, Table.var_modify _ _ _ _ (hfirst.size ▸ hr), if_pos rfl, htyped]
    have htouches : Touches r s.table s'.table := by
      rw [htable]
      exact hfirst.trans (.modify r _ _)
    have href : s.table.Refines s'.table :=
      htouches.refines (by rw [hvar]) (by rw [hvar]) hopen
    have hinf : (s'.table.var r).Inferred := by
      rw [hvar]
      exact ⟨hbasic, by cases y.nullable <;> exact nofun⟩
    have hres := hinf.type.isResolved
    refine ⟨⟨htouches, href, fun _ => hinf, fun _ => hres⟩,
      fun u hu => .of_known hx href hu hres ?_ ?_⟩
    · rw [hvar]
      exact .inr rfl
    · intro hy
      have hy' : y.nullable = true := hy
      rw [hvar, hy']
      rfl
  · dsimp only at hnullable htable hyes
    rw [htyped] at hnullable hyes
    have hvar : s'.table.var r = { s.table.var r with type := y.type } := by
      rw [htable, htyped]
    have htouches : Touches r s.table s'.table := htable ▸ hfirst
    have href : s.table.Refines s'.table :=
      htouches.refines (by rw [hvar]) (by rw [hvar]) hopen
    have hinf : (s'.table.var r).Inferred := by
      rw [hvar]
      exact ⟨hbasic, hnullable⟩
    have hres := hinf.type.isResolved
    refine ⟨⟨htouches, href, fun _ => hinf, fun _ => hres⟩,
      fun u hu => .of_known hx href hu hres ?_ ?_⟩
    · rw [hvar]
      exact .inr rfl
    · rw [hvar]
      exact hyes

theorem keepType_passes (hx : ValueHas s.table x y.use)
    (hres : (s.table.var r).type.isResolved = true) (hknown : Known (s.table.var r))
    (htype : y.mode = .null ∨ y.type = (s.table.var r).type)
    (h : Passes (storeNullability r y x) s x' s') :
    Settles r s.table s'.table ∧ ∀ u, s'.table.Refines u → Stores u r x' := by
  obtain ⟨rfl, ⟨hnullable, -⟩ | ⟨-, htable, hyes⟩⟩ := storeNullability_passes h
  · exact absurd hnullable (hknown hres).nullable
  · rw [htable]
    exact ⟨.refl hknown fun _ => hres, fun u hu => .of_known hx (.refl _) hu hres htype hyes⟩

/-- What storing a value comes to: `_` takes everything, a variable without a type everything
but null, and any other what can be converted to its type. -/
theorem assignment_cases (h : Passes (assignment r x) s x' s') :
    ∃ y z, value s.table x = .ok y z ∧ y.mode ≠ .noValue ∧
      ((s.table.var r).isDiscard = true ∧ x' = z ∧ s' = s ∨
        (s.table.var r).isDiscard = false ∧
          ((s.table.var r).type.isResolved = false ∧ y.mode ≠ .null ∧
              Passes (storeNullability r y z)
                { s with table := s.table.modify r fun v => { v with type := y.type } } x' s' ∨
            (s.table.var r).type.isResolved = true ∧
              (y.mode = .null ∧ Passes (storeNullability r y z) s x' s' ∨
                ∃ y' z', convertValue y (s.table.var r).type z = .ok (some y') z' ∧
                  Passes (storeNullability r y' z') s x' s'))) := by
  rw [Passes, assignment, get_bind_apply] at h
  cases hvalue : value s.table x with
  | error d z =>
    rw [hvalue] at h
    cases h
  | ok y z =>
    rw [hvalue] at h
    dsimp only at h
    by_cases hmode : y.mode = .noValue
    · rw [if_pos hmode] at h
      cases h
    rw [if_neg hmode] at h
    refine ⟨y, z, rfl, hmode, ?_⟩
    cases hdisc : (s.table.var r).isDiscard with
    | true =>
      rw [hdisc] at h
      cases h
      exact .inl ⟨rfl, rfl, rfl⟩
    | false =>
      rw [hdisc] at h
      refine .inr ⟨rfl, ?_⟩
      by_cases hnull : y.mode = .null
      · cases hres : (s.table.var r).type.isResolved with
        | false =>
          simp only [hres, hnull, if_true] at h
          cases h
        | true =>
          simp only [hres, hnull, if_true] at h
          exact .inr ⟨rfl, .inl ⟨hnull, h⟩⟩
      · cases hres : (s.table.var r).type.isResolved with
        | false =>
          simp only [hres, hnull, if_false] at h
          exact .inl ⟨rfl, hnull, h⟩
        | true =>
          simp only [hres, hnull, if_false] at h
          cases hconv : convertValue y (s.table.var r).type z with
          | error d z' =>
            rw [hconv] at h
            cases h
          | ok y' z' =>
            rw [hconv] at h
            cases y' with
            | none => cases h
            | some y' => exact .inr ⟨rfl, .inr ⟨y', z', rfl, h⟩⟩

theorem assignment_passes (hresults : Results s.table) (hx : Concrete s.table (leaves x))
    (hknown : Known (s.table.var r)) (h : Passes (assignment r x) s x' s') :
    Settles r s.table s'.table ∧ ∀ u, s'.table.Refines u → Stores u r x' := by
  obtain ⟨y, z, hvalue, hmode, h⟩ := assignment_cases h
  have hz := value_eq_ok hx hvalue
  have hhas := hz.has hmode
  obtain ⟨hdisc, rfl, rfl⟩ | ⟨hdisc, ⟨hres, hnull, h⟩ | ⟨hres, h⟩⟩ := h
  · refine ⟨.refl hknown fun hfalse => ?_, fun u hu => ⟨y.use, hhas.refine hu, fun hfalse => ?_⟩⟩
    · rw [hdisc] at hfalse
      cases hfalse
    · rw [hu.isDiscard, hdisc] at hfalse
      cases hfalse
  · exact takeType_passes hhas hdisc hres (hz.isBasic hresults hmode hnull) h
  · obtain ⟨hnull, h⟩ | ⟨y', z', hconv, h⟩ := h
    · exact keepType_passes hhas hres hknown (.inl hnull) h
    · obtain ⟨hz', rfl⟩ := convertValue_eq_ok hz hconv
      exact keepType_passes (hz'.has hmode) hres hknown (.inr rfl) h

end


section

variable {g : Guard}
  {fns' : List Function} {ds : List Grammar.Function} {message : Option Bytes} {y : Stmt}
  {Q : Table → Prop} {a : Token}

variable {s s' : CheckState} {t₀ t u v : Table} {n m : Nat} {r : VarRef}

theorem Results.touch (h : Results t) (ht : Touches r t u) : Results u := by
  intro name g hg
  refine h name g ?_
  rw [Table.lookupFunction?, ht.hash, ht.funcs] at hg
  exact hg

/-- The check has come to the variable `n`: the later ones are as they were declared, and all
is known of the earlier ones but `_`. -/
structure Front (t₀ : Table) (n : Nat) (t : Table) : Prop where
  results : Results t
  pos : 0 < n
  size : t.store.size = t₀.store.size
  id : ∀ r, (t.var r).id = (t₀.var r).id
  ahead : ∀ r, n ≤ r → t.var r = t₀.var r
  known : ∀ r, r < n → Known (t.var r)
  typed : ∀ r, r < n → (t.var r).isDiscard = false → (t.var r).type.isResolved = true

theorem Front.settle (h : Front t₀ n t) (ht : Settles r t u) (hm : n ≤ m) (hr : r < m)
    (honly : ∀ q, n ≤ q → q < m → q = r) : Front t₀ m u where
  results := h.results.touch ht.toTouches
  pos := Nat.lt_of_lt_of_le h.pos hm
  size := ht.size.trans h.size
  id q := (ht.refines.id q).trans (h.id q)
  ahead q hq :=
    (ht.others q (Nat.ne_of_gt (Nat.lt_of_lt_of_le hr hq))).trans (h.ahead q (Nat.le_trans hm hq))
  known q hq := by
    by_cases hqr : q = r
    · rw [hqr]
      exact ht.known
    · rw [ht.others q hqr]
      exact h.known q (Nat.lt_of_not_le fun hle => hqr (honly q hle hq))
  typed q hq := by
    by_cases hqr : q = r
    · rw [hqr]
      exact ht.typed
    · rw [ht.others q hqr]
      exact h.typed q (Nat.lt_of_not_le fun hle => hqr (honly q hle hq))

theorem Front.settle_earlier (h : Front t₀ n t) (ht : Settles r t u) (hr : r < n) :
    Front t₀ n u :=
  h.settle ht (Nat.le_refl n) hr fun _ hq hq' => absurd hq' (Nat.not_lt_of_le hq)

theorem Front.settle_next (h : Front t₀ n t) (ht : Settles n t u) : Front t₀ (n + 1) u :=
  h.settle ht (Nat.le_succ n) (Nat.lt_succ_self n) fun _ hq hq' =>
    Nat.le_antisymm (Nat.le_of_lt_succ hq') hq

/-- Between the tables the check comes to the variable `n`, and whatever else comes to be
known, `P` holds. -/
structure Advances (t₀ : Table) (n : Nat) (t u : Table) (P : Table → Prop) : Prop where
  front : Front t₀ n u
  refines : t.Refines u
  holds : ∀ v, u.Refines v → P v

variable {P : Table → Prop}

theorem Advances.mono (h : Advances t₀ n t u P) (hPQ : ∀ v, P v → Q v) :
    Advances t₀ n t u Q :=
  ⟨h.front, h.refines, fun v hv => hPQ v (h.holds v hv)⟩

theorem Advances.trans (h : Advances t₀ n t u P) (h' : Advances t₀ m u v Q) :
    Advances t₀ m t v fun w => P w ∧ Q w :=
  ⟨h'.front, h.refines.trans h'.refines,
    fun w hw => ⟨h.holds w (h'.refines.trans hw), h'.holds w hw⟩⟩

section

open Grammar

/-- Nodes that were made of some tokens where `n` variables were declared: their literals have
basic types, and names among the tokens mean their variables. -/
structure Sourced (t₀ : Table) (n : Nat) (ts : List Token) (xs : List Expr) : Prop where
  literals : ∀ v : Value, .value v ∈ xs → v.null = false → v.type.IsBasic
  vars : ∀ v : Variable, .variable v ∈ xs → ∃ a ∈ ts, a.kind = .name ∧ Named t₀ n a v.var

variable {meaning : Bytes → VarRef} {ts : List Token} {xs : List Expr}

theorem Sourced.mono (h : Sourced t₀ n as xs) (has : ∀ a ∈ as, a ∈ bs) : Sourced t₀ n bs xs where
  literals := h.literals
  vars v hv := by
    obtain ⟨a, ha, hnamed⟩ := h.vars v hv
    exact ⟨a, has a ha, hnamed⟩

theorem Sourced.append (hxs : Sourced t₀ n ts xs) (hys : Sourced t₀ n ts ys) :
    Sourced t₀ n ts (xs ++ ys) where
  literals v hv := (mem_append.mp hv).elim (hxs.literals v) (hys.literals v)
  vars v hv := (mem_append.mp hv).elim (hxs.vars v) (hys.vars v)

theorem Sourced.concrete (h : Sourced t₀ n ts xs) (hfront : Front t₀ n t) : Concrete t xs where
  literals := h.literals
  vars v hv := by
    obtain ⟨a, -, -, hlt, -⟩ := h.vars v hv
    exact hfront.known v.var hlt

theorem sourced_leafExpr {a : Token} (hspell : Spells t₀ n meaning [a]) :
    Sourced t₀ n [a] [leafExpr meaning a] := by
  constructor
  · intro v hv hnull
    have hleaf := mem_singleton.mp hv
    unfold leafExpr at hleaf
    split at hleaf <;> cases hleaf
    · exact .inl rfl
    · exact .inr (.inl rfl)
    · exact .inr (.inr rfl)
    · cases hnull
  · intro v hv
    have hleaf := mem_singleton.mp hv
    unfold leafExpr at hleaf
    split at hleaf <;> cases hleaf
    rename_i hkind
    have ha := mem_singleton_self a
    exact ⟨a, ha, hkind, hspell a ha hkind⟩

theorem sourced_postOrder {e : ArithTree} (hspell : Spells t₀ n meaning e.tokens) :
    Sourced t₀ n e.tokens (e.postOrder meaning) := by
  induction e with
  | operand a ha => exact sourced_leafExpr hspell
  | binary l op hop r ihl ihr =>
    have hl : ∀ a ∈ l.tokens, a ∈ (ArithTree.binary l op hop r).tokens :=
      fun a ha => by simp [ArithTree.tokens, ha]
    have hr : ∀ a ∈ r.tokens, a ∈ (ArithTree.binary l op hop r).tokens :=
      fun a ha => by simp [ArithTree.tokens, ha]
    have hleft := (ihl fun a ha => hspell a (hl a ha)).mono hl
    have hright := (ihr fun a ha => hspell a (hr a ha)).mono hr
    refine (hleft.append hright).append ⟨fun v hv => ?_, fun v hv => ?_⟩
    · cases mem_singleton.mp hv
    · cases mem_singleton.mp hv
  | paren o ho inner c hc ih =>
    have hinner : ∀ a ∈ inner.tokens, a ∈ (ArithTree.paren o ho inner c hc).tokens :=
      fun a ha => by simp [ArithTree.tokens, ha]
    exact (ih fun a ha => hspell a (hinner a ha)).mono hinner

theorem sourced_terms (h : TermsDepict t₀ n terms xs) :
    Sourced t₀ n (terms.tokens fun a => [a.1]) xs := by
  induction h with
  | nil => constructor <;> intro v hv <;> cases hv
  | last ha => exact sourced_leafExpr ha
  | cons ha _ ih =>
    refine ((sourced_leafExpr ha).mono fun _ => mem_append_left _).append (ih.mono ?_)
    exact fun _ hb => mem_append_right _ (mem_cons_of_mem _ hb)

theorem sourced_call {c : Grammar.Call} {x : Tree.Call} (h : c.Depicts t₀ n x) :
    Sourced t₀ n c.tokens x.args := by
  cases h with
  | mk hargs => exact (sourced_terms hargs).mono fun a ha => by simp [Grammar.Call.tokens, ha]

theorem sourced_rhs {rhs : Rhs} {x : Expr} (h : rhs.Depicts t₀ n x) :
    Sourced t₀ n rhs.tokens (leaves x) := by
  cases h with
  | call hc => exact sourced_call hc
  | arithmetic he => exact sourced_postOrder he

theorem sourced_compare {left right : Arithmetic} {op : Relation}
    (h : Spells t₀ n meaning (left.1.tokens ++ op.1 :: right.1.tokens)) :
    Sourced t₀ n left.1.tokens (left.1.postOrder meaning) ∧
      Sourced t₀ n right.1.tokens (right.1.postOrder meaning) :=
  ⟨sourced_postOrder fun a ha => h a (mem_append_left _ ha),
    sourced_postOrder fun a ha => h a (mem_append_right _ (mem_cons_of_mem _ ha))⟩

end

theorem callStmt_cases (h : Passes (callStmt c) s c' s') :
    ∃ y, call s.table c = .ok y c' ∧ y.mode = .noValue ∧ s' = s := by
  rw [Passes, callStmt, get_bind_apply] at h
  cases hcall : call s.table c with
  | error d c₁ =>
    rw [hcall] at h
    cases h
  | ok y c₁ =>
    rw [hcall] at h
    dsimp only at h
    by_cases hmode : y.mode = .noValue
    · rw [if_pos hmode] at h
      cases h
      exact ⟨y, rfl, hmode, rfl⟩
    · rw [if_neg hmode] at h
      cases h

theorem callStmt_passes (hc : Concrete s.table c.args) (h : Passes (callStmt c) s c' s') :
    s' = s ∧ ∃ g, CallHas s.table c' g ∧ g.result = .void := by
  obtain ⟨y, hcall, hmode, rfl⟩ := callStmt_cases h
  obtain ⟨g, hg, rfl⟩ := call_eq_ok hc hcall
  refine ⟨rfl, g, hg, ?_⟩
  by_cases hvoid : g.result = .void
  · exact hvoid
  · rw [if_neg hvoid] at hmode
    cases hmode

theorem returned_cases (h : Passes (returned f x) s x' s') :
    ∃ y z, value s.table x = .ok y z ∧ y.mode ≠ .noValue ∧
      (y.nullable = true → f.nullableResult = true) ∧ s' = s ∧
      (y.mode = .null ∧ x' = z ∨ ∃ y', convertValue y f.result z = .ok (some y') x') := by
  rw [Passes, returned, get_bind_apply] at h
  cases hvalue : value s.table x with
  | error d z =>
    rw [hvalue] at h
    cases h
  | ok y z =>
    rw [hvalue] at h
    dsimp only at h
    by_cases hmode : y.mode = .noValue
    · rw [if_pos hmode] at h
      cases h
    rw [if_neg hmode] at h
    cases hrefused : (y.nullable && !f.nullableResult) with
    | true =>
      rw [hrefused] at h
      cases h
    | false =>
      rw [hrefused] at h
      have hnullable : y.nullable = true → f.nullableResult = true := by
        simpa using hrefused
      by_cases hnull : y.mode = .null
      · simp only [hnull, if_true] at h
        cases h
        exact ⟨y, _, rfl, hmode, hnullable, rfl, .inl ⟨hnull, rfl⟩⟩
      · simp only [hnull, if_false] at h
        cases hconv : convertValue y f.result z with
        | error d z' =>
          rw [hconv] at h
          cases h
        | ok y' z' =>
          rw [hconv] at h
          cases y' with
          | none => cases h
          | some y' =>
            cases h
            exact ⟨y, z, rfl, hmode, hnullable, rfl, .inr ⟨y', hconv⟩⟩

theorem returned_passes (hx : Concrete s.table (leaves x)) (hresult : f.result ≠ .void)
    (h : Passes (returned f x) s x' s') : s' = s ∧ Returns s.table f (some x') := by
  obtain ⟨y, z, hvalue, hmode, hnullable, rfl, hsettled⟩ := returned_cases h
  have hz := value_eq_ok hx hvalue
  obtain ⟨hnull, rfl⟩ | ⟨y', hconv⟩ := hsettled
  · exact ⟨rfl, hresult, y.use, hz.has hmode, .inl hnull, hnullable⟩
  · obtain ⟨hz', rfl⟩ := convertValue_eq_ok hz hconv
    exact ⟨rfl, hresult, _, hz'.has hmode, .inr rfl, hnullable⟩

theorem returnStmt_passes {x x' : Option Expr} (hx : ∀ e, x = some e → Concrete s.table (leaves e))
    (h : Passes (returnStmt f pos x) s x' s') : s'.table = s.table ∧ Returns s.table f x' := by
  unfold Passes returnStmt at h
  by_cases hvoid : f.result = .void
  · cases x with
    | none =>
      simp only [hvoid, if_true] at h
      cases h
      exact ⟨rfl, hvoid⟩
    | some e =>
      simp only [hvoid, if_true] at h
      cases h
  · cases x with
    | none =>
      simp only [hvoid, if_false] at h
      cases h
    | some e =>
      simp only [hvoid, if_false] at h
      obtain ⟨e', he, rfl⟩ := passes_map h
      obtain ⟨rfl, hret⟩ := returned_passes (s := { s with returns := s.returns + 1 }) (hx e rfl) hvoid he
      exact ⟨rfl, hret⟩

theorem Advances.refl (h : Front t₀ n t) (hP : ∀ v, t.Refines v → P v) : Advances t₀ n t t P :=
  ⟨h, .refl t, hP⟩

theorem unwrap_passes (hfront : Front t₀ n s.table)
    (hsubj : subject.var < n) (hsize : n < t₀.store.size)
    (hopen : (t₀.var n).type.isResolved = false)
    (h : Passes (guard (.unwrap subject n)) s g' s') :
    Advances t₀ (n + 1) s.table s'.table fun u => GuardHas u g' := by
  unfold Passes guard at h
  rw [get_bind_apply] at h
  dsimp only at h
  cases hleaf : leaf s.table (.variable subject) none with
  | error d =>
    rw [hleaf] at h
    cases h
  | ok y =>
    rw [hleaf] at h
    dsimp only at h
    have hconcrete : Concrete s.table [.variable subject] := by
      refine ⟨fun v hv => ?_, fun v hv => ?_⟩
      · cases mem_singleton.mp hv
      · cases mem_singleton.mp hv
        exact hfront.known _ hsubj
    have hhas := (leaf_eq_ok hconcrete hleaf).1
    obtain ⟨hres, htype, hnull⟩ : (s.table.var subject.var).type.isResolved = true ∧
        y.type = (s.table.var subject.var).type ∧
        y.nullable = (s.table.var subject.var).nullable.toBool := by
      generalize huse : y.use = k at hhas
      cases hhas with
      | var hres =>
        injection huse with _ huse
        injection huse with htype hnull
        exact ⟨hres, htype, hnull⟩
    cases hyes : y.nullable with
    | false =>
      rw [hyes] at h
      cases h
    | true =>
      rw [hyes] at h
      cases h
      have hn : n < s.table.store.size := hfront.size ▸ hsize
      have hvar : (s.table.modify n fun v => { v with type := y.type, nullable := .no }).var n =
          { s.table.var n with type := y.type, nullable := .no } := by
        rw [Table.var_modify _ _ _ _ hn, if_pos rfl]
      have htouches := Touches.modify n s.table fun v => { v with type := y.type, nullable := .no }
      have hopen' : (s.table.var n).type.isResolved = false := by
        rw [hfront.ahead n (Nat.le_refl n)]
        exact hopen
      have href := htouches.refines (by rw [hvar]) (by rw [hvar]) hopen'
      have hsettles : Settles n s.table
          (s.table.modify n fun v => { v with type := y.type, nullable := .no }) := by
        have hinf : Var.Inferred { s.table.var n with type := y.type, nullable := .no } :=
          ⟨htype ▸ (hfront.known _ hsubj hres).type, nofun⟩
        rw [← hvar] at hinf
        exact ⟨htouches, href, fun _ => hinf, fun _ => hinf.type.isResolved⟩
      refine ⟨hfront.settle_next hsettles, href, fun u hu => ?_⟩
      have hsubjectType := (href.trans hu).type subject.var hres
      have hbound : (u.var n).type = y.type := by
        have hn' := hu.type n (by rw [hvar, htype]; exact hres)
        rw [hn', hvar]
      have hbound' : (u.var n).nullable = .no := by
        have hn' := hu.nullable n (by rw [hvar, htype]; exact hres)
        rw [hn', hvar]
      refine ⟨?_, ?_, ?_, hbound'⟩
      · rw [hsubjectType]
        exact hres
      · rw [(href.trans hu).nullable subject.var hres]
        rw [hyes] at hnull
        revert hnull
        cases (s.table.var subject.var).nullable <;> decide
      · rw [hbound, htype, hsubjectType]

theorem compare_passes {c : Truth} (hleft : Concrete s.table c.left.items)
    (hright : Concrete s.table c.right.items) (h : Passes (guard (.compare c)) s g' s') :
    s' = s ∧ ∀ u, s.table.Refines u → GuardHas u g' := by
  unfold Passes guard at h
  rw [get_bind_apply] at h
  dsimp only at h
  cases htruth : truth s.table c with
  | error d c' =>
    rw [htruth] at h
    cases h
  | ok _ c' =>
    rw [htruth] at h
    cases h
    obtain ⟨-, l, r, hc⟩ := truth_eq_ok hleft hright htruth
    exact ⟨rfl, fun u hu => ⟨l, r, hc.refine hu⟩⟩

theorem guard_passes {d : Grammar.Guard} (hfront : Front t₀ n s.table)
    (hd : d.Depicts t₀ n g) (h : Passes (guard g) s g' s') :
    Advances t₀ (n + d.count) s.table s'.table fun u => GuardHas u g' := by
  cases hd with
  | compare hspell =>
    obtain ⟨hleft, hright⟩ := sourced_compare hspell
    obtain ⟨rfl, hg⟩ := compare_passes (hleft.concrete hfront) (hright.concrete hfront) h
    exact .refl hfront hg
  | unwrap hsubj hbound =>
    have hopen : (t₀.var n).type.isResolved = false := by
      rw [hbound.type]
      rfl
    exact unwrap_passes hfront hsubj.1 hbound.lt_size hopen h

theorem isBasic_of_dataType? (h : dataType? kind = some type) :
    type.IsBasic := by
  unfold dataType? at h
  split at h <;> cases h
  · exact .inl rfl
  · exact .inr (.inl rfl)
  · exact .inr (.inr rfl)

theorem Declared.inferred (type : Grammar.TypeName)
    (h : Grammar.Declared t₀ n a type.type mutable_ (.ofBool type.nullable)) :
    (t₀.var n).Inferred where
  type := by
    rw [h.type]
    exact isBasic_of_dataType? type.isType
  nullable := by
    rw [h.nullable]
    cases type.nullable <;> exact nofun

theorem Declared.known
    (h : Grammar.Declared t₀ n a (Grammar.annotated mark).1 mutable_ (Grammar.annotated mark).2) :
    Known (t₀.var n) := by
  cases mark with
  | none =>
    intro hres
    rw [h.type] at hres
    cases hres
  | some mark => exact fun _ => Declared.inferred mark.type h

theorem assign_eq_passes (h : Passes (stmt f (.assign pos r x)) s y s') :
    Table.canMutate (s.table.var r) = true ∧
      ∃ x', Passes (assignment r x) s x' s' ∧ y = .assign pos r x' := by
  unfold Passes stmt at h
  rw [get_bind_apply] at h
  cases hmut : Table.canMutate (s.table.var r) with
  | false =>
    rw [hmut] at h
    cases h
  | true =>
    rw [hmut] at h
    exact ⟨rfl, passes_map h⟩

theorem assign_passes (hfront : Front t₀ n s.table) (hr : r < n)
    (hx : Concrete s.table (leaves x)) (h : Passes (stmt f (.assign pos r x)) s y s') :
    Advances t₀ n s.table s'.table fun u => StmtHas u f y := by
  obtain ⟨hmut, x', hx', rfl⟩ := assign_eq_passes h
  obtain ⟨hsettles, hstores⟩ := assignment_passes hfront.results hx (hfront.known r hr) hx'
  refine ⟨hfront.settle_earlier hsettles hr, hsettles.refines, fun u hu => ⟨?_, hstores u hu⟩⟩
  have href := hsettles.refines.trans hu
  rw [Table.canMutate, href.isDiscard, href.mutable_]
  exact hmut

theorem plain_passes {p : Grammar.Plain} {x : Stmt} (hfront : Front t₀ n s.table)
    (hp : p.Depicts t₀ n x) (h : Passes (stmt f x) s y s') :
    Advances t₀ (n + p.count) s.table s'.table fun u => StmtHas u f y := by
  cases hp with
  | @declare binder name mark eq rhs semi x hvalue hvar =>
    obtain ⟨x', hx', rfl⟩ := passes_map h
    have hknown : Known (s.table.var n) := by
      rw [hfront.ahead n (Nat.le_refl n)]
      exact Declared.known hvar
    obtain ⟨hsettles, hstores⟩ :=
      assignment_passes hfront.results ((sourced_rhs hvalue).concrete hfront) hknown hx'
    exact ⟨hfront.settle_next hsettles, hsettles.refines, hstores⟩
  | drop hvalue => exact assign_passes hfront hfront.pos ((sourced_rhs hvalue).concrete hfront) h
  | assign htgt hvalue =>
    exact assign_passes hfront htgt.1 ((sourced_rhs hvalue).concrete hfront) h
  | call hc =>
    obtain ⟨c', hc', rfl⟩ := passes_map h
    obtain ⟨rfl, g, hg, hvoid⟩ := callStmt_passes ((sourced_call hc).concrete hfront) hc'
    exact .refl hfront fun u hu => ⟨g, hg.refine hu, hvoid⟩
  | returnNone =>
    obtain ⟨x', hx', rfl⟩ := passes_map h
    obtain ⟨htable, hret⟩ := returnStmt_passes (x := none) nofun hx'
    rw [htable]
    exact .refl hfront fun u hu => hret.refine hu
  | returnSome hvalue =>
    obtain ⟨x', hx', rfl⟩ := passes_map h
    obtain ⟨htable, hret⟩ :=
      returnStmt_passes
        (fun e he => Option.some.inj he ▸ (sourced_rhs hvalue).concrete hfront) hx'
    rw [htable]
    exact .refl hfront fun u hu => hret.refine hu

/-- A sequence of statements that passes is well typed in whatever table comes out in the
end. The induction is on the derivation, which numbers the variables. -/
theorem body_passes {body : Grammar.Body} {xs ys : List Stmt} (hbody : body.Depicts t₀ n xs)
    (hfront : Front t₀ n s.table) (h : Passes (stmts f xs) s ys s') :
    Advances t₀ (n + body.count) s.table s'.table fun u => StmtsHave u f ys := by
  induction hbody generalizing s s' ys with
  | done =>
    cases h
    exact .refl hfront fun _ _ => trivial
  | plain hp _ ih =>
    obtain ⟨y, s₁, ys', hy, hys, rfl⟩ := stmts_cons_passes h
    have hfirst := plain_passes hfront hp hy
    have hrest := ih hfirst.front hys
    rw [Grammar.Body.count, ← Nat.add_assoc]
    exact hfirst.trans hrest
  | branch hguard _ _ ihyes ih =>
    obtain ⟨y, s₁, ys', hy, hys, rfl⟩ := stmts_cons_passes h
    obtain ⟨g', s₂, zs, s₃, hg, hzs, rfl, rfl⟩ := ifElse_passes hy
    have hguards := guard_passes hfront hguard hg
    have hthen := ihyes hguards.front hzs
    have hrest := ih hthen.front hys
    rw [Grammar.Body.count, ← Nat.add_assoc, ← Nat.add_assoc]
    refine ((hguards.trans hthen).trans hrest).mono fun v hv => ?_
    exact ⟨⟨hv.1.1, hv.1.2, trivial⟩, hv.2⟩
  | branchElse hguard _ _ _ ihyes ihno ih =>
    obtain ⟨y, s₁, ys', hy, hys, rfl⟩ := stmts_cons_passes h
    obtain ⟨g', s₂, zs, s₃, hg, hzs, ws, hws, rfl⟩ := ifElse_passes hy
    have hguards := guard_passes hfront hguard hg
    have hthen := ihyes hguards.front hzs
    have helse := ihno hthen.front hws
    have hrest := ih helse.front hys
    rw [Grammar.Body.count, ← Nat.add_assoc, ← Nat.add_assoc, ← Nat.add_assoc]
    refine (((hguards.trans hthen).trans helse).trans hrest).mono fun v hv => ?_
    exact ⟨⟨hv.1.1.1, hv.1.1.2, hv.1.2⟩, hv.2⟩
  | loop hguard _ _ ihbody ih =>
    obtain ⟨y, s₁, ys', hy, hys, rfl⟩ := stmts_cons_passes h
    obtain ⟨g', s₂, zs, hg, hzs, rfl⟩ := while_passes hy
    have hguards := guard_passes hfront hguard hg
    have hins := ihbody hguards.front hzs
    have hrest := ih hins.front hys
    rw [Grammar.Body.count, ← Nat.add_assoc, ← Nat.add_assoc]
    exact (hguards.trans hins).trans hrest

theorem Front.parameters (hparams : Grammar.ParametersDepict t₀ n params rs) (h : Front t₀ n t) :
    Front t₀ (n + params.toList.length) t := by
  have next {n : Nat} {p : Grammar.Parameter} (hp : p.Declares t₀ n) (h : Front t₀ n t) :
      Front t₀ (n + 1) t := by
    have hinf : (t.var n).Inferred := by
      rw [h.ahead n (Nat.le_refl n)]
      exact Declared.inferred p.type hp
    exact h.settle_next (.refl (fun _ => hinf) fun _ => hinf.type.isResolved)
  induction hparams with
  | nil => exact h
  | last hp => exact next hp h
  | @cons n p comma rest rs hp _ ih =>
    have hrest := ih (next hp h)
    rw [Nat.add_assoc, Nat.add_comm 1] at hrest
    exact hrest

theorem stmts_of_function (h : function fn s = ((⟨fn', none⟩, message), s')) :
    ∃ ys, Passes (stmts fn.definition fn.body.stmts) { s with returns := 0 } ys s' ∧
      fn' = { fn with body := { fn.body with stmts := ys } } := by
  unfold function at h
  rw [modify_bind_apply, bind_run] at h
  cases hstmts : stmts fn.definition fn.body.stmts { s with returns := 0 } with
  | mk c s₁ =>
    obtain ⟨ys, failure⟩ := c
    rw [hstmts] at h
    cases failure with
    | some d => cases h
    | none =>
      simp only [Option.isSome_none, Bool.false_eq_true, if_false] at h
      rw [get_bind_apply] at h
      split at h
      · cases h
      · cases h
        exact ⟨ys, hstmts, rfl⟩

theorem function_passes {d : Grammar.Function}
    (hd : d.Depicts t₀ n fn) (hfront : Front t₀ n s.table)
    (h : function fn s = ((⟨fn', none⟩, message), s')) :
    Advances t₀ (n + d.count) s.table s'.table fun u =>
      StmtsHave u fn'.definition fn'.body.stmts := by
  obtain ⟨ys, hys, rfl⟩ := stmts_of_function h
  cases hd with
  | mk hparams hbody =>
    have hfront' := hfront.parameters hparams
    have hbodies := body_passes (s := { s with returns := 0 }) hbody hfront' hys
    rw [Nat.add_assoc] at hbodies
    exact hbodies

theorem functions_cons_passes (h : functions (fn :: fns) s = ((⟨fns', none⟩, messages), s')) :
    ∃ fn' message s₁ rest messages', function fn s = ((⟨fn', none⟩, message), s₁) ∧
      functions fns s₁ = ((⟨rest, none⟩, messages'), s') ∧ fns' = fn' :: rest := by
  rw [functions, bind_run] at h
  cases hfn : function fn s with
  | mk c s₁ =>
    obtain ⟨⟨fn', failure⟩, message⟩ := c
    rw [hfn] at h
    cases failure with
    | some d => cases h
    | none =>
      simp only [Option.isSome_none, Bool.false_eq_true, if_false] at h
      rw [bind_run] at h
      cases hfns : functions fns s₁ with
      | mk c s₂ =>
        obtain ⟨⟨rest, failure⟩, messages'⟩ := c
        rw [hfns] at h
        cases failure with
        | some d => cases h
        | none =>
          cases h
          exact ⟨fn', message, s₁, rest, messages', rfl, hfns, rfl⟩

theorem functions_pass (hds : Grammar.FunctionsDepict t₀ n ds fns) (hfront : Front t₀ n s.table)
    (h : functions fns s = ((⟨fns', none⟩, messages), s')) :
    Advances t₀ (n + Grammar.countAll ds) s.table s'.table fun u =>
      ∀ fn ∈ fns', StmtsHave u fn.definition fn.body.stmts := by
  induction hds generalizing s fns' messages with
  | nil =>
    cases h
    exact .refl hfront fun _ _ _ hfn => nomatch hfn
  | cons hd _ ih =>
    obtain ⟨fn', message, s₁, rest, messages', hfn, hfns, rfl⟩ := functions_cons_passes h
    have hfirst := function_passes hd hfront hfn
    have hrest := ih hfirst.front hfns
    rw [Grammar.countAll, ← Nat.add_assoc]
    refine (hfirst.trans hrest).mono fun u hu fn hfn => ?_
    rcases mem_cons.mp hfn with rfl | hfn
    · exact hu.1
    · exact hu.2 fn hfn

theorem results_of_order (hfaith : t.funcs.Faithful t.hash)
    (horder : t.funcs.order = FuncDef.builtins ++ ds.map Grammar.Function.signature) :
    Results t := by
  intro name g hg
  rw [Table.lookupFunction?, hfaith, horder] at hg
  rcases mem_append.mp (mem_of_find?_eq_some hg) with hmem | hmem
  · have hbuiltins : ∀ g ∈ FuncDef.builtins, g.result ≠ .void →
        g.result = .i32 ∨ g.result = .f64 ∨ g.result = .u8 := by decide
    exact hbuiltins g hmem
  · obtain ⟨d, -, rfl⟩ := mem_map.mp hmem
    change d.result.type ≠ .void → d.result.type.IsBasic
    cases d.result with
    | void => exact fun h => absurd rfl h
    | value a => exact fun _ => isBasic_of_dataType? a.isType

theorem Front.start {p : Grammar.Program} {hash : NameHash}
    (h : p.Accepted hash strict parsed t) : Front t 1 t where
  results := results_of_order h.faithful h.order
  pos := Nat.one_pos
  size := rfl
  id _ := rfl
  ahead _ _ := rfl
  known r hr := by
    obtain rfl : r = 0 := Nat.lt_one_iff.mp hr
    have htype : (t.var 0).type = .unresolved := (h.later.alike 0 Nat.one_pos).type
    intro hres
    rw [htype] at hres
    cases hres
  typed r hr := by
    obtain rfl : r = 0 := Nat.lt_one_iff.mp hr
    have hid : (t.var 0).id = 0 := (h.later.alike 0 Nat.one_pos).id
    rw [Var.isDiscard, hid]
    rintro ⟨⟩

end

theorem isDiscard_iff (h : t.Consistent) {r : VarRef} (hr : r < t.store.size) :
    (t.var r).isDiscard = true ↔ r % UInt32.size = 0 := by
  rw [Var.isDiscard, h.ids r hr, beq_iff_eq, ← UInt32.toNat_inj, UInt32.toNat_ofNat']
  rfl

/-- A check that finds no fault is a run over all functions. -/
theorem exists_run_of_check (h : (check { parsed with unused := none } t).failure = none) :
    ∃ fns messages s, functions parsed.program.functions ⟨t, 0⟩ = ((⟨fns, none⟩, messages), s) ∧
      (check parsed t).table = s.table ∧ (check parsed t).program.functions = fns := by
  cases hrun : functions parsed.program.functions ⟨t, 0⟩ with
  | mk c s =>
    obtain ⟨⟨fns, failure⟩, messages⟩ := c
    have hfail : failure = none := by
      simp only [check, StateT.run, hrun] at h
      simpa using h
    subst hfail
    exact ⟨fns, messages, s, rfl, by simp only [check, StateT.run, hrun],
      by simp only [check, StateT.run, hrun]⟩

/-- A program that parsing accepts and in which checking finds no fault, once it is checked. -/
structure Passed (p : Grammar.Program) (hash : NameHash) (strict : Bool) (parsed : Parsed)
    (t : Table) (q : Tree.Program) (u : Table) : Prop extends p.Accepted hash strict parsed t where
  run : ∃ messages s,
    functions parsed.program.functions ⟨t, 0⟩ = ((⟨q.functions, none⟩, messages), s) ∧ s.table = u

section

variable {p : Grammar.Program} {hash : NameHash}

theorem Passed.of_check (hacc : p.Accepted hash strict parsed t)
    (h : (check { parsed with unused := none } t).failure = none) :
    Passed p hash strict parsed t (check parsed t).program (check parsed t).table := by
  obtain ⟨fns, messages, s, hrun, htable, rfl⟩ := exists_run_of_check h
  exact ⟨hacc, messages, s, hrun, htable.symm⟩

theorem exists_passed (hparse : parse (.ofTokens tokens) (.fresh hash strict) = .ok parsed t)
    (h : (check { parsed with unused := none } t).failure = none) :
    ∃ p, Passed p hash strict parsed t (check parsed t).program (check parsed t).table :=
  (Grammar.exists_accepted (TokenBuffer.last_ofTokens tokens) hparse).imp fun _ hacc =>
    .of_check hacc h

theorem Passed.advances (h : Passed p hash strict parsed t q u) :
    Advances t (1 + Grammar.countAll p.functions) t u fun u =>
      ∀ fn ∈ q.functions, StmtsHave u fn.definition fn.body.stmts := by
  obtain ⟨messages, s, hrun, rfl⟩ := h.run
  exact functions_pass h.depicts.functions (.start h.toAccepted) hrun

end

/-- A program that parsing accepts and in which checking finds no fault is well typed once
it has been checked. A variable is taken for `_` only if its number is a multiple of 2³². -/
theorem check_wellTyped (tokens : List Token) (hash : NameHash) (strict : Bool) (parsed : Parsed)
    (t : Table) (hparse : parse (.ofTokens tokens) (.fresh hash strict) = .ok parsed t)
    (hcheck : (check { parsed with unused := none } t).failure = none) :
    ProgramHas (check parsed t).table (check parsed t).program ∧
      ∀ r < (check parsed t).table.store.size,
        ((check parsed t).table.var r).isDiscard = true ↔ r % UInt32.size = 0 := by
  obtain ⟨p, hpass⟩ := exists_passed hparse hcheck
  obtain ⟨hfront, href, hholds⟩ := hpass.advances
  refine ⟨hholds _ (.refl _), fun r hr => ?_⟩
  rw [href.isDiscard]
  exact isDiscard_iff hpass.consistent (hfront.size ▸ hr)

theorem check_sample :
    ∃ parsed t, parse (.ofTokens Grammar.Program.sample.tokens) (.fresh (fun _ => 0) false) =
        .ok parsed t ∧
      (check { parsed with unused := none } t).failure = none ∧
      ProgramHas (check parsed t).table (check parsed t).program := by
  obtain ⟨parsed, t, hparse, hcheck⟩ : ∃ parsed t,
      parse (.ofTokens Grammar.Program.sample.tokens) (.fresh (fun _ => 0) false) = .ok parsed t ∧
        (check { parsed with unused := none } t).failure = none := by
    decide +kernel
  exact ⟨parsed, t, hparse, hcheck, (check_wellTyped _ _ _ parsed t hparse hcheck).1⟩

end Ifj24.Typing
