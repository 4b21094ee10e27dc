import Ifj24.Proofs.Checking
import Ifj24.Proofs.TwinParsing

/-!
Checking twins. What a check decides rests on names, types and nullabilities, and on the functions
that names mean. So twins of a tree are both refused, for reasons of one kind, or are both accepted
and annotated as twins.
-/

namespace Ifj24

open Table

variable {α β : Type}

theorem forall₂_getElem? {R : α → β → Prop} {xs : List α} {ys : List β}
    (h : List.Forall₂ R xs ys) (i : Nat) : Option.Rel R xs[i]? ys[i]? := by
  induction h generalizing i with
  | nil => exact .none
  | cons hxy _ ih =>
    cases i with
    | zero => exact .some hxy
    | succ i => exact ih i

theorem forall₂_set {R : α → β → Prop} {xs : List α} {ys : List β}
    (h : List.Forall₂ R xs ys) (i : Nat) {x : α} {y : β} (hxy : R x y) :
    List.Forall₂ R (xs.set i x) (ys.set i y) := by
  induction h generalizing i with
  | nil => exact .nil
  | cons hhead hrest ih =>
    cases i with
    | zero => exact .cons hxy hrest
    | succ i => exact .cons hhead (ih i)

namespace Typing

open Ifj24.Tree

variable {m : Nat} {r s : VarRef}

/-- Nothing has become known of `_`. -/
structure Blank (t : Table) : Prop where
  isDiscard : (t.var discard).isDiscard = true
  declared : Var.discard.Twin (t.var discard)

theorem Blank.modify {t : Table} (h : Blank t) (hr : r ≠ discard)
    (f : Var → Var) : Blank (t.modify r f) := by
  have hvar : (t.modify r f).var discard = t.var discard := t.var_modify_of_ne f hr.symm
  exact ⟨hvar ▸ h.isDiscard, hvar ▸ h.declared⟩

/-- Tables in which the variables that stand for each other are declared alike and have the same
type by now, and names mean twins of functions. -/
structure KnownAlike (ρ : VarRef → VarRef → Prop) (t u : Table) : Prop where
  funcs : ∀ name, Option.Rel FuncDef.Twin (t.lookupFunction? name) (u.lookupFunction? name)
  vars : ∀ r s, ρ r s → (t.var r).Twin (u.var s)
  discards : ∀ r s, ρ r s → (u.var s).isDiscard = (t.var r).isDiscard
  left_blank : Blank t
  right_blank : Blank u
  left_lt : ∀ r s, ρ r s → r < t.store.size
  right_lt : ∀ r s, ρ r s → s < u.store.size

variable {ρ : VarRef → VarRef → Prop} {t u : Table}

def OneToOne (ρ : VarRef → VarRef → Prop) : Prop :=
  ∀ r s r' s', ρ r s → ρ r' s' → (r' = r ↔ s' = s)

theorem Blank.of_numbered (h : t.Numbered m c) : Blank t :=
  ⟨h.isDiscard, h.discard.name, h.discard.type, h.discard.mutable_, h.discard.nullable⟩

theorem oneToOne_paired (h : Table.Twin E m n c t u) : OneToOne (Paired m n c) :=
  fun _ _ _ _ hrs hrs' => hrs.eq_iff hrs' h.left.pos h.right.pos

theorem KnownAlike.of_twin (h : Table.Twin E m n c t u) (hagree : Table.Agree m n c) :
    KnownAlike (Paired m n c) t u where
  funcs := h.funcs
  vars := h.vars
  discards r s hrs := by
    cases hrs with
    | discard => rw [h.left.isDiscard, h.right.isDiscard]
    | own i hi => rw [Var.isDiscard, Var.isDiscard, h.left.ids i hi, h.right.ids i hi, hagree i hi]
  left_blank := .of_numbered h.left
  right_blank := .of_numbered h.right
  left_lt _ _ hrs := h.left.size ▸ (hrs.lt h.left.pos h.right.pos).1
  right_lt _ _ hrs := h.right.size ▸ (hrs.lt h.left.pos h.right.pos).2

theorem KnownAlike.fresh (h : KnownAlike ρ t u) (hrs : ρ r s)
    (hr : (t.var r).isDiscard ≠ true) : Fresh ρ r s := by
  refine ⟨hrs, ?_, ?_⟩
  · rintro rfl
    exact hr h.left_blank.isDiscard
  · rintro rfl
    exact hr ((h.discards _ _ hrs).symm.trans h.right_blank.isDiscard)

theorem KnownAlike.modify (h : KnownAlike ρ t u) (hrs : Fresh ρ r s) (hρ : OneToOne ρ)
    {f g : Var → Var} (hid : ∀ v : Var, (f v).id = v.id ∧ (g v).id = v.id)
    (hfg : ∀ v w : Var, v.Twin w → (f v).Twin (g w)) :
    KnownAlike ρ (t.modify r f) (u.modify s g) := by
  have hleft {r' s' : VarRef} (hp : ρ r' s') :
      (t.modify r f).var r' = if r' = r then f (t.var r') else t.var r' :=
    var_modify t r r' f (h.left_lt r' s' hp)
  have hright {r' s' : VarRef} (hp : ρ r' s') :
      (u.modify s g).var s' = if r' = r then g (u.var s') else u.var s' := by
    rw [var_modify u s s' g (h.right_lt r' s' hp)]
    simp only [hρ r s r' s' hrs.pair hp]
  refine ⟨h.funcs, ?_, ?_, h.left_blank.modify hrs.left_ne f, h.right_blank.modify hrs.right_ne g,
    ?_, ?_⟩
  · intro r' s' hp
    rw [hleft hp, hright hp]
    split
    · exact hfg _ _ (h.vars r' s' hp)
    · exact h.vars r' s' hp
  · intro r' s' hp
    rw [hleft hp, hright hp]
    split
    · rw [Var.isDiscard, Var.isDiscard, (hid _).1, (hid _).2]
      exact h.discards r' s' hp
    · exact h.discards r' s' hp
  · intro r' s' hp
    rw [size_modify]
    exact h.left_lt r' s' hp
  · intro r' s' hp
    rw [size_modify]
    exact h.right_lt r' s' hp

inductive EvaluatedTwin : Evaluated → Evaluated → Prop
  | mk (x : Evaluated) (pos : Pos) : EvaluatedTwin x { x with pos }

section

variable {α β γ δ node node' part part' : Type}

def ChecksAlike (S : node → node' → Prop) (R : α → β → Prop) (m : Check node α)
    (m' : Check node' β) : Prop :=
  ∀ x y, S x y → EndAlike (fun a b x y => R a b ∧ S x y) (m x) (m' y)

namespace ChecksAlike

variable {S : node → node' → Prop} {R : α → β → Prop} {Q : γ → δ → Prop} {m : Check node α}
  {m' : Check node' β} {f : α → Check node γ} {g : β → Check node' δ}

theorem pure (h : R a b) :
    ChecksAlike S R (Pure.pure a : Check node α) (Pure.pure b : Check node' β) :=
  fun _ _ hxy => .ok ⟨h, hxy⟩

theorem throw (h : SameKind d e) :
    ChecksAlike S R (MonadExcept.throw d : Check node α) (MonadExcept.throw e : Check node' β) :=
  fun _ _ _ => .error h

theorem bind (hm : ChecksAlike S R m m') (hf : ∀ a b, R a b → ChecksAlike S Q (f a) (g b)) :
    ChecksAlike S Q (m >>= f) (m' >>= g) :=
  fun x y hxy => (hm x y hxy).bind fun a b _ _ h => hf a b h.1 _ _ h.2

theorem bind_same {m' : Check node' α} {g : α → Check node' δ} (hm : ChecksAlike S Eq m m')
    (hf : ∀ a, ChecksAlike S Q (f a) (g a)) : ChecksAlike S Q (m >>= f) (m' >>= g) := by
  refine hm.bind fun a b hab => ?_
  obtain rfl := hab
  exact hf a

theorem state : ChecksAlike S S (get : Check node node) (get : Check node' node') :=
  fun _ _ hxy => .ok ⟨hxy, hxy⟩

theorem put {x : node} {y : node'} (h : S x y) :
    ChecksAlike S Eq (set x : Check node PUnit) (set y : Check node' PUnit) :=
  fun _ _ _ => .ok ⟨rfl, h⟩

theorem update {f : node → node} {g : node' → node'} (h : ∀ x y, S x y → S (f x) (g y)) :
    ChecksAlike S Eq (modify f : Check node PUnit) (modify g : Check node' PUnit) :=
  fun x y hxy => .ok ⟨rfl, h x y hxy⟩

theorem ofExcept {x : Except Diagnostic α} {y : Except Diagnostic β} (h : ExceptAlike R x y) :
    ChecksAlike S R (Typing.ofExcept x : Check node α) (Typing.ofExcept y : Check node' β) := by
  cases h with
  | ok h => exact pure h
  | error h => exact throw h

theorem within {P : part → part' → Prop} {get : node → part} {put : node → part → node}
    {get' : node' → part'} {put' : node' → part' → node'} {m : Check part α} {m' : Check part' β}
    (hget : ∀ x y, S x y → P (get x) (get' y))
    (hput : ∀ x y p q, S x y → P p q → S (put x p) (put' y q)) (hm : ChecksAlike P R m m') :
    ChecksAlike S R (Check.within get put m) (Check.within get' put' m') := by
  intro x y hxy
  have hpart := hm (get x) (get' y) (hget x y hxy)
  unfold Check.within
  generalize m (get x) = a at hpart
  generalize m' (get' y) = b at hpart
  cases hpart with
  | ok h => exact .ok ⟨h.1, hput x y _ _ hxy h.2⟩
  | error h => exact .error h

end ChecksAlike

end

section

variable {r r' x y : Evaluated} {α β : Type}

theorem leaf_alike (ht : KnownAlike ρ t u) {x y : Expr} (hxy : ItemTwin ρ x y) (slot : Option Nat) :
    ExceptAlike EvaluatedTwin (leaf t x slot) (leaf u y slot) := by
  cases hxy with
  | value v pos =>
    unfold leaf
    dsimp only
    split
    · exact .ok (.mk _ pos)
    · exact .ok (.mk _ pos)
  | @«variable» r s pos pos' hrs =>
    have hvar := ht.vars r s hrs
    unfold leaf
    dsimp only
    rw [hvar.type, hvar.nullable]
    split
    · exact .ok (.mk _ pos')
    · exact .error rfl
  | operand o pos => exact .error rfl

theorem coerce_alike (v : Value) (pos : Pos) (type : DataType) :
    ExceptAlike (fun x y => ∃ pos, y = { x with pos }) (v.coerce type)
      (Value.coerce { v with pos } type) := by
  unfold Value.coerce
  dsimp only
  split
  · exact .error rfl
  split
  · exact .ok ⟨pos, rfl⟩
  split
  · exact .ok ⟨pos, rfl⟩
  split
  · split
    · exact .error rfl
    · split
      · exact .error rfl
      · split
        · exact .ok ⟨pos, rfl⟩
        · exact .error rfl
  · exact .error rfl

theorem coerceSlot_alike (hxy : EvaluatedTwin x y) (type : DataType) :
    ChecksAlike (ItemsTwin ρ) EvaluatedTwin (coerceSlot x type) (coerceSlot y type) := by
  cases hxy with
  | mk pos =>
    refine ChecksAlike.state.bind fun xs ys hxs => ?_
    cases x.slot with
    | none => exact .throw rfl
    | some slot =>
      have hitem := forall₂_getElem? hxs slot
      dsimp only
      generalize xs[slot]? = a at hitem
      generalize ys[slot]? = b at hitem
      cases hitem with
      | none => exact .throw rfl
      | some h =>
        cases h with
        | value v pos' =>
          have hcoerce := coerce_alike v pos' type
          dsimp only
          generalize v.coerce type = a at hcoerce
          generalize Value.coerce { v with pos := pos' } type = b at hcoerce
          cases hcoerce with
          | error h => exact .throw h
          | ok h =>
            obtain ⟨pos'', rfl⟩ := h
            refine (ChecksAlike.put (forall₂_set hxs slot (.value _ pos''))).bind_same fun _ => ?_
            exact .pure (.mk _ pos)
        | «variable» pos' pos'' hrs => exact .throw rfl
        | operand o pos' => exact .throw rfl

theorem arithmeticOperand_alike (o : Operand) (pos : Pos) (hxy : EvaluatedTwin x y) :
    ExceptAlike Eq (arithmeticOperand o x) (arithmeticOperand { o with pos } y) := by
  cases hxy with
  | mk pos' =>
    unfold arithmeticOperand
    split
    · exact .error rfl
    split
    · exact .error rfl
    · exact .ok rfl

theorem EvaluatedTwin.type (h : EvaluatedTwin x y) : y.type = x.type := by
  cases h
  rfl

theorem EvaluatedTwin.mode (h : EvaluatedTwin x y) : y.mode = x.mode := by
  cases h
  rfl

theorem EvaluatedTwin.nullable (h : EvaluatedTwin x y) :
    y.nullable = x.nullable := by
  cases h
  rfl

theorem EvaluatedTwin.isLiteral (h : EvaluatedTwin x y) :
    y.isLiteral = x.isLiteral := by
  cases h
  rfl

theorem binary_alike (o : Operand) (pos : Pos) (hl : EvaluatedTwin l l') (hr : EvaluatedTwin r r') :
    ChecksAlike (ItemsTwin ρ) Eq (binary o l r) (binary { o with pos } l' r') := by
  refine (ChecksAlike.ofExcept (arithmeticOperand_alike o pos hl)).bind_same fun _ => ?_
  refine (ChecksAlike.ofExcept (arithmeticOperand_alike o pos hr)).bind_same fun _ => ?_
  rw [hl.type, hr.type, hl.isLiteral, hr.isLiteral]
  split
  · exact .pure rfl
  split
  · refine (coerceSlot_alike hl .f64).bind fun a b hab => ?_
    exact (coerceSlot_alike hr .f64).bind fun _ _ _ => .pure hab.type.symm
  split
  · exact (coerceSlot_alike hl r.type).bind fun a b hab => .pure hab.type.symm
  split
  · exact (coerceSlot_alike hr l.type).bind fun _ _ _ => .pure rfl
  · exact .throw rfl

theorem evaluateItems_alike (ht : KnownAlike ρ t u) {xs ys : List Expr} (hxs : ItemsTwin ρ xs ys)
    (i : Nat) (hstack : List.Forall₂ EvaluatedTwin stack stack') :
    ChecksAlike (ItemsTwin ρ) (List.Forall₂ EvaluatedTwin) (evaluateItems t i xs stack)
      (evaluateItems u i ys stack') := by
  induction hxs generalizing i stack stack' with
  | nil => exact .pure hstack
  | cons hxy hrest ih =>
    have hleaf := leaf_alike ht hxy (some i)
    cases hxy with
    | value v pos | «variable» pos pos' hrs =>
      exact (ChecksAlike.ofExcept hleaf).bind fun a b hab => ih (i + 1) (.cons hab hstack)
    | operand o pos =>
      cases hstack with
      | nil => exact .throw rfl
      | cons hr hbelow =>
        cases hbelow with
        | nil => exact .throw rfl
        | cons hl hbelow =>
          refine (binary_alike o pos hl hr).bind_same fun type => ?_
          refine (ChecksAlike.update ?_).bind_same fun _ => ih (i + 1) (.cons (.mk _ pos) hbelow)
          exact fun zs zs' hzs => forall₂_set hzs i (.operand _ pos)

theorem expression_alike (ht : KnownAlike ρ t u) :
    ChecksAlike (ExpressionTwin ρ) EvaluatedTwin (expression t) (expression u) := by
  refine ChecksAlike.state.bind fun e e' he => ?_
  cases he with
  | @mk xs ys finished nullable type pos pos' hitems =>
    split
    · exact .throw rfl
    · refine ChecksAlike.bind (ChecksAlike.within (fun _ _ h => ExpressionTwin.items h)
        (fun _ _ _ _ h hp => .withItems h hp)
        (evaluateItems_alike ht hitems 0 .nil)) fun stack stack' hstack => ?_
      match hstack with
      | .cons hxy .nil =>
        refine (ChecksAlike.update ?_).bind_same fun _ => .pure hxy
        intro e e' he
        cases he with
        | mk pos pos' hitems =>
          rw [hxy.type, hxy.nullable]
          exact .mk pos pos' hitems
      | .nil => exact ChecksAlike.state.bind fun _ _ _ => .throw rfl
      | .cons _ (.cons _ _) => exact ChecksAlike.state.bind fun _ _ _ => .throw rfl

theorem convertLiteral_alike (hxy : EvaluatedTwin x y) (type : DataType) :
    ChecksAlike (ExpressionTwin ρ) (Option.Rel EvaluatedTwin) (convertLiteral x type)
      (convertLiteral y type) := by
  unfold convertLiteral
  rw [hxy.type, hxy.isLiteral]
  split
  · exact .pure (.some hxy)
  split
  · exact .pure .none
  · refine ChecksAlike.bind (ChecksAlike.within (fun _ _ h => ExpressionTwin.items h)
      (fun _ _ _ _ h hp => .withItems h hp) (coerceSlot_alike hxy type)) fun a b hab => ?_
    refine (ChecksAlike.update ?_).bind_same fun _ => .pure (.some hab)
    intro e e' he
    cases he with
    | mk pos pos' hitems => exact .mk pos pos' hitems

theorem convertValue_alike (hxy : EvaluatedTwin x y) (type : DataType) :
    ChecksAlike (ValueTwin ρ) (Option.Rel EvaluatedTwin) (convertValue x type)
      (convertValue y type) := by
  intro z z' hz
  cases hz with
  | expression he =>
    have hconv := convertLiteral_alike hxy type _ _ he
    unfold convertValue
    dsimp only
    generalize convertLiteral x type _ = a at hconv
    generalize convertLiteral y type _ = b at hconv
    cases hconv with
    | error h => exact .error h
    | ok h => exact .ok ⟨h.1, .expression h.2⟩
  | call hc =>
    refine .ok ⟨?_, .call hc⟩
    rw [hxy.type]
    split
    · exact .some hxy
    · exact .none

theorem onLeft_alike {R : α → β → Prop} {m : Check Expression α}
    {m' : Check Expression β} (h : ChecksAlike (ExpressionTwin ρ) R m m') :
    ChecksAlike (TruthTwin ρ) R (onLeft m) (onLeft m') := by
  refine .within (fun _ _ h => h.left) (fun c c' left left' hc hleft => ?_) h
  cases hc with
  | mk pos pos' _ hright => exact .mk pos pos' hleft hright

theorem onRight_alike {R : α → β → Prop} {m : Check Expression α}
    {m' : Check Expression β} (h : ChecksAlike (ExpressionTwin ρ) R m m') :
    ChecksAlike (TruthTwin ρ) R (onRight m) (onRight m') := by
  refine .within (fun _ _ h => h.right) (fun c c' right right' hc hright => ?_) h
  cases hc with
  | mk pos pos' hleft _ => exact .mk pos pos' hleft hright

theorem type_getD {y : Option Evaluated} (hx : EvaluatedTwin x x')
    (hy : Option.Rel EvaluatedTwin y y') : (y'.getD x').type = (y.getD x).type := by
  cases hy with
  | none => exact hx.type
  | some h => exact h.type

theorem balance_alike (hl : EvaluatedTwin l l') (hr : EvaluatedTwin r r') :
    ChecksAlike (TruthTwin ρ) Eq (balance l r) (balance l' r') := by
  unfold balance
  dsimp only
  rw [hl.type, hr.type, hl.isLiteral, hr.isLiteral]
  split
  · exact .pure rfl
  split
  · refine (onLeft_alike (convertLiteral_alike hl .f64)).bind fun a b hab => ?_
    refine (onRight_alike (convertLiteral_alike hr .f64)).bind fun c d hcd => ?_
    rw [type_getD hl hab, type_getD hr hcd]
    exact .pure rfl
  split
  · refine (onLeft_alike (convertLiteral_alike hl r.type)).bind fun a b hab => ?_
    rw [type_getD hl hab]
    exact .pure rfl
  split
  · refine (onRight_alike (convertLiteral_alike hr l.type)).bind fun c d hcd => ?_
    rw [type_getD hr hcd]
    exact .pure rfl
  · exact .pure rfl

theorem orderedOperand_alike {c : Truth} (hxy : EvaluatedTwin x y) :
    ExceptAlike Eq (orderedOperand c x) (orderedOperand c' y) := by
  unfold orderedOperand
  rw [hxy.mode, hxy.nullable, hxy.type]
  split
  · exact .error rfl
  split
  · exact .error rfl
  · exact .ok rfl

theorem annotated_alike (type : DataType) :
    ChecksAlike (TruthTwin ρ) Eq (modify fun c => { c with type } : Check Truth PUnit)
      (modify fun c => { c with type } : Check Truth PUnit) := by
  refine .update fun c c' hc => ?_
  cases hc with
  | mk pos pos' hleft hright => exact .mk pos pos' hleft hright

theorem guarded_alike {b : Bool} {x x' y y' : Except Diagnostic Unit}
    {k k' : Unit → Check Truth Unit} (hx : ExceptAlike Eq x x') (hy : ExceptAlike Eq y y')
    (hk : ChecksAlike (TruthTwin ρ) Eq (k ()) (k' ())) :
    ChecksAlike (TruthTwin ρ) Eq
      (if b = true then do
        ofExcept x
        let u ← ofExcept y
        k u
      else k ())
      (if b = true then do
        ofExcept x'
        let u ← ofExcept y'
        k' u
      else k' ()) := by
  split
  · refine (ChecksAlike.ofExcept hx).bind_same fun _ => ?_
    exact (ChecksAlike.ofExcept hy).bind_same fun _ => hk
  · exact hk

section

variable (ht : KnownAlike ρ t u)

include ht

theorem truth_alike : ChecksAlike (TruthTwin ρ) Eq (truth t) (truth u) := by
  refine (onLeft_alike (expression_alike ht)).bind fun l l' hl => ?_
  refine (onRight_alike (expression_alike ht)).bind fun r r' hr => ?_
  refine ChecksAlike.state.bind fun c c' hc => ?_
  have hop : c'.op = c.op := by
    cases hc
    rfl
  rw [hop]
  refine guarded_alike (orderedOperand_alike hl) (orderedOperand_alike hr) ?_
  rw [hl.mode, hr.mode, hl.type, hr.type]
  split
  · exact annotated_alike _
  split
  · exact annotated_alike _
  split
  · exact annotated_alike _
  · refine (balance_alike hl hr).bind_same fun sides => ?_
    dsimp only
    split
    · exact .throw rfl
    · exact annotated_alike _

theorem argument_alike (name : Bytes) (i : Nat) (param : Param) :
    ChecksAlike (ItemsTwin ρ) Eq (argument t name i param) (argument u name i param) := by
  refine ChecksAlike.state.bind fun xs ys hxs => ?_
  have hitem := forall₂_getElem? hxs i
  generalize xs[i]? = a at hitem
  generalize ys[i]? = b at hitem
  cases hitem with
  | none => exact .pure rfl
  | some hxy =>
    refine (ChecksAlike.ofExcept (leaf_alike ht hxy (some i))).bind fun y y' hy => ?_
    rw [hy.nullable, hy.mode, hy.type, hy.isLiteral]
    split
    · exact .throw rfl
    split
    · exact .pure rfl
    split
    · refine ChecksAlike.state.bind fun zs zs' hzs => ?_
      have hslot := coerceSlot_alike hy param.type zs zs' hzs
      generalize coerceSlot y param.type zs = a at hslot
      generalize coerceSlot y' param.type zs' = b at hslot
      cases hslot with
      | ok h => exact .put h.2
      | error h => exact .throw rfl
    · exact .throw rfl

theorem arguments_alike (name : Bytes) (i : Nat) (params : List Param) :
    ChecksAlike (ItemsTwin ρ) Eq (arguments t name i params) (arguments u name i params) := by
  induction params generalizing i with
  | nil => exact .pure rfl
  | cons param rest ih => exact (argument_alike ht name i param).bind_same fun _ => ih (i + 1)

theorem call_alike : ChecksAlike (CallTwin ρ) EvaluatedTwin (call t) (call u) := by
  refine ChecksAlike.state.bind fun c c' hc => ?_
  cases hc with
  | @mk name xs ys target target' pos pos' hargs htgt =>
    have hlook := ht.funcs name
    generalize t.lookupFunction? name = a at hlook
    generalize u.lookupFunction? name = b at hlook
    cases hlook with
    | none =>
      dsimp only
      split
      · exact .throw rfl
      · exact .throw rfl
    | @some f g hfg =>
      cases hfg with
      | mk pos'' =>
        refine (ChecksAlike.update ?_).bind_same fun _ => ?_
        · intro c c' hc
          cases hc with
          | mk pos pos' hargs htgt => exact .mk pos pos' hargs (.some (.mk f pos''))
        · dsimp only
          rw [hargs.length_eq]
          split
          · exact .throw rfl
          · refine .bind_same (.within ?_ ?_ (arguments_alike ht name 0 f.params))
              fun _ => .pure (.mk _ pos')
            · intro c c' hc
              cases hc with
              | mk pos pos' hargs htgt => exact hargs
            · intro c c' args args' hc hargs
              cases hc with
              | mk pos pos' _ htgt => exact .mk pos pos' hargs htgt

theorem value_alike : ChecksAlike (ValueTwin ρ) EvaluatedTwin (value t) (value u) := by
  intro z z' hz
  cases hz with
  | expression he =>
    have hexpr := expression_alike ht _ _ he
    unfold value
    dsimp only
    generalize expression t _ = a at hexpr
    generalize expression u _ = b at hexpr
    cases hexpr with
    | error h => exact .error h
    | ok h => exact .ok ⟨h.1, .expression h.2⟩
  | call hc =>
    have hcall := call_alike ht _ _ hc
    unfold value
    dsimp only
    generalize call t _ = a at hcall
    generalize call u _ = b at hcall
    cases hcall with
    | error h => exact .error h
    | ok h => exact .ok ⟨h.1, .call h.2⟩

end

end

section

variable {s : CheckState} {x : Expr} {r : VarRef}

structure StateAlike (ρ : VarRef → VarRef → Prop) (s t : CheckState) : Prop where
  table : KnownAlike ρ s.table t.table
  returns : t.returns = s.returns

/-- Checks that both pass, with related nodes, or that both fail for reasons of one kind. -/
inductive JudgedAlike {α β : Type} (ρ : VarRef → VarRef → Prop) (R : α → β → Prop) :
    Checked α × CheckState → Checked β × CheckState → Prop
  | passed {a : α} {b : β} {s t : CheckState} :
    R a b → StateAlike ρ s t → JudgedAlike ρ R (⟨a, none⟩, s) (⟨b, none⟩, t)
  | failed {a : α} {b : β} {d e : Diagnostic} {s t : CheckState} :
    SameKind d e → JudgedAlike ρ R (⟨a, some d⟩, s) (⟨b, some e⟩, t)

def CheckersAlike {α β : Type} (ρ : VarRef → VarRef → Prop) (R : α → β → Prop)
    (m : Checker (Checked α)) (m' : Checker (Checked β)) : Prop :=
  ∀ s t, StateAlike ρ s t → JudgedAlike ρ R (m s) (m' t)

def Stops {α β : Type} (k : Checked α → Checker (Checked β)) : Prop :=
  ∀ a d s, ∃ b, k ⟨a, some d⟩ s = (⟨b, some d⟩, s)

namespace CheckersAlike

variable {α β γ δ : Type} {R : α → β → Prop} {Q : γ → δ → Prop} {m : Checker (Checked α)}
  {m' : Checker (Checked β)}

theorem bind (hm : CheckersAlike ρ R m m') (hstops : Stops k) (hstops' : Stops k')
    (hk : ∀ a b, R a b → CheckersAlike ρ Q (k ⟨a, none⟩) (k' ⟨b, none⟩)) :
    CheckersAlike ρ Q (m >>= k) (m' >>= k') := by
  intro s t hst
  have hfirst := hm s t hst
  rw [bind_run, bind_run]
  generalize m s = x at hfirst
  generalize m' t = y at hfirst
  cases hfirst with
  | passed hab hst' => exact hk _ _ hab _ _ hst'
  | @failed a b d e s' t' hkind =>
    obtain ⟨c, hc⟩ := hstops a d s'
    obtain ⟨c', hc'⟩ := hstops' b e t'
    rw [hc, hc']
    exact .failed hkind

theorem map {g : α → γ} (hm : CheckersAlike ρ R m m') (hg : ∀ a b, R a b → Q (g a) (g' b)) :
    CheckersAlike ρ Q (do return (← m).map g) (do return (← m').map g') :=
  hm.bind (fun _ _ _ => ⟨_, rfl⟩) (fun _ _ _ => ⟨_, rfl⟩) fun a b hab _ _ hst => .passed (hg a b hab) hst

end CheckersAlike

theorem storeNullability_alike (hρ : OneToOne ρ) {s : VarRef} (hrs : Fresh ρ r s) {y : Evaluated}
    (hy : EvaluatedTwin y y') (hx : ValueTwin ρ x x') :
    CheckersAlike ρ (ValueTwin ρ) (storeNullability r y x) (storeNullability s y' x') := by
  intro a b hab
  unfold storeNullability
  rw [get_bind_apply, get_bind_apply, (hab.table.vars r s hrs.pair).nullable, hy.nullable]
  cases (a.table.var r).nullable with
  | unknown =>
    refine .passed hx ⟨hab.table.modify hrs hρ (fun _ => ⟨rfl, rfl⟩) ?_, hab.returns⟩
    exact fun v w hvw => ⟨hvw.name, hvw.type, hvw.mutable_, rfl⟩
  | no =>
    split
    · exact .failed rfl
    · exact .passed hx hab
  | yes => exact .passed hx hab

theorem assignment_alike (hρ : OneToOne ρ) {s : VarRef} (hrs : ρ r s) (hx : ValueTwin ρ x x') :
    CheckersAlike ρ (ValueTwin ρ) (assignment r x) (assignment s x') := by
  intro a b hab
  have hvalue := value_alike hab.table x x' hx
  have hvar := hab.table.vars r s hrs
  unfold assignment
  rw [get_bind_apply, get_bind_apply]
  generalize value a.table x = v at hvalue
  generalize value b.table x' = w at hvalue
  cases hvalue with
  | error hkind => exact .failed hkind
  | ok h =>
    obtain ⟨hy, hx'⟩ := h
    dsimp only
    rw [hy.mode, hab.table.discards r s hrs, hvar.type]
    split
    · exact .failed rfl
    split
    · exact .passed hx' hab
    have hrs := hab.table.fresh hrs ‹_›
    split
    · split
      · exact .failed rfl
      · refine storeNullability_alike hρ hrs hy hx' _ _ ⟨hab.table.modify hrs hρ ?_ ?_, hab.returns⟩
        · exact fun _ => ⟨rfl, rfl⟩
        · exact fun v w hvw => ⟨hvw.name, hy.type, hvw.mutable_, hvw.nullable⟩
    split
    · exact storeNullability_alike hρ hrs hy hx' a b hab
    · have hconv := convertValue_alike hy (a.table.var r).type _ _ hx'
      generalize convertValue _ (a.table.var r).type _ = v at hconv
      generalize convertValue _ (a.table.var r).type _ = w at hconv
      cases hconv with
      | error hkind => exact .failed hkind
      | ok h =>
        obtain ⟨hz, hx''⟩ := h
        cases hz with
        | none => exact .failed rfl
        | some hz => exact storeNullability_alike hρ hrs hz hx'' a b hab

theorem callStmt_alike {c : Call} (hc : CallTwin ρ c c') :
    CheckersAlike ρ (CallTwin ρ) (callStmt c) (callStmt c') := by
  intro a b hab
  have hcall := call_alike hab.table c c' hc
  unfold callStmt
  rw [get_bind_apply, get_bind_apply]
  generalize call a.table c = v at hcall
  generalize call b.table c' = w at hcall
  cases hcall with
  | error hkind => exact .failed hkind
  | ok h =>
    dsimp only
    rw [h.1.mode]
    split
    · exact .passed h.2 hab
    · exact .failed rfl

theorem guard_alike (hρ : OneToOne ρ) {x x' : Guard} (hx : GuardTwin ρ x x') :
    CheckersAlike ρ (GuardTwin ρ) (guard x) (guard x') := by
  intro a b hab
  unfold guard
  rw [get_bind_apply, get_bind_apply]
  cases hx with
  | @compare c c' hc =>
    have htruth := truth_alike hab.table c c' hc
    dsimp only
    generalize truth a.table c = v at htruth
    generalize truth b.table c' = w at htruth
    cases htruth with
    | error hkind => exact .failed hkind
    | ok h => exact .passed (.compare h.2) hab
  | unwrap pos pos' hr hbind =>
    have hleaf := leaf_alike hab.table (.variable pos pos' hr) none
    dsimp only
    generalize leaf a.table _ none = v at hleaf
    generalize leaf b.table _ none = w at hleaf
    cases hleaf with
    | error hkind => exact .failed hkind
    | ok hy =>
      dsimp only
      rw [hy.nullable]
      split
      · refine .passed (.unwrap pos pos' hr hbind)
          ⟨hab.table.modify hbind hρ (fun _ => ⟨rfl, rfl⟩) ?_, hab.returns⟩
        exact fun v w hvw => ⟨hvw.name, hy.type, hvw.mutable_, rfl⟩
      · exact .failed rfl

theorem returned_alike (hfg : FuncDef.Twin f g) (hx : ValueTwin ρ x x') :
    CheckersAlike ρ (ValueTwin ρ) (returned f x) (returned g x') := by
  cases hfg with
  | mk pos =>
    intro a b hab
    have hvalue := value_alike hab.table x x' hx
    unfold returned
    rw [get_bind_apply, get_bind_apply]
    generalize value a.table x = v at hvalue
    generalize value b.table x' = w at hvalue
    cases hvalue with
    | error hkind => exact .failed hkind
    | ok h =>
      obtain ⟨hy, hx'⟩ := h
      dsimp only
      rw [hy.mode, hy.nullable]
      split
      · exact .failed rfl
      split
      · exact .failed rfl
      split
      · exact .passed hx' hab
      · have hconv := convertValue_alike hy f.result _ _ hx'
        generalize convertValue _ f.result _ = v at hconv
        generalize convertValue _ f.result _ = w at hconv
        cases hconv with
        | error hkind => exact .failed hkind
        | ok h =>
          obtain ⟨hz, hx''⟩ := h
          cases hz with
          | none => exact .failed rfl
          | some hz => exact .passed hx'' hab

theorem StateAlike.returned {t : CheckState} (h : StateAlike ρ s t) :
    StateAlike ρ { s with returns := s.returns + 1 } { t with returns := t.returns + 1 } :=
  ⟨h.table, congrArg (· + 1) h.returns⟩

theorem returnStmt_alike (hfg : FuncDef.Twin f g) (pos pos' : Pos) {x x' : Option Expr}
    (hx : Option.Rel (ValueTwin ρ) x x') :
    CheckersAlike ρ (Option.Rel (ValueTwin ρ)) (returnStmt f pos x) (returnStmt g pos' x') := by
  intro a b hab
  have hres : g.result = f.result := by
    cases hfg
    rfl
  unfold returnStmt
  rw [modify_bind_apply, modify_bind_apply]
  cases hx with
  | none =>
    rw [hres]
    split
    · exact .passed .none hab.returned
    · exact .failed rfl
  | some hx =>
    rw [hres]
    split
    · exact .failed rfl
    · exact (returned_alike hfg hx).map (fun _ _ h => .some h) _ _ hab.returned

theorem cons_alike {x y : Stmt}
    (hx : CheckersAlike ρ (fun x y => StmtsTwin ρ [x] [y]) (stmt f x) (stmt g y))
    (hxs : CheckersAlike ρ (StmtsTwin ρ) (stmts f xs) (stmts g ys)) :
    CheckersAlike ρ (StmtsTwin ρ) (stmts f (x :: xs)) (stmts g (y :: ys)) := by
  refine hx.bind (fun _ _ _ => ⟨_, rfl⟩) (fun _ _ _ => ⟨_, rfl⟩) fun x' y' hxy => ?_
  exact hxs.map fun _ _ h => hxy.cons h

/-- Statements are checked alike, by induction on the pairs of statements. -/
theorem stmts_alike (hρ : OneToOne ρ) (hfg : FuncDef.Twin f g)
    (h : StmtsTwin ρ xs ys) : CheckersAlike ρ (StmtsTwin ρ) (stmts f xs) (stmts g ys) := by
  induction h with
  | nil => exact fun _ _ hab => .passed .nil hab
  | declare pos pos' hr hx _ ih =>
    refine cons_alike ?_ ih
    exact (assignment_alike hρ hr hx).map fun _ _ h => .declare pos pos' hr h .nil
  | @assign r s x y _ _ pos pos' hr hx _ ih =>
    refine cons_alike (fun a b hab => ?_) ih
    have hvar := hab.table.vars r s hr
    have hmutate : canMutate (b.table.var s) = canMutate (a.table.var r) := by
      rw [canMutate, canMutate, hab.table.discards r s hr, hvar.mutable_]
    rw [stmt, stmt, get_bind_apply, get_bind_apply, hmutate]
    split
    · exact (assignment_alike hρ hr hx).map (fun _ _ h => .assign pos pos' hr h .nil) a b hab
    · exact .failed rfl
  | call hc _ ih =>
    refine cons_alike ?_ ih
    exact (callStmt_alike hc).map fun _ _ h => .call h .nil
  | branch pos pos' start start' stop stop' hg _ _ ihyes ih =>
    refine cons_alike ?_ ih
    refine (guard_alike hρ hg).bind (fun _ _ _ => ⟨_, rfl⟩) (fun _ _ _ => ⟨_, rfl⟩) fun x x' hx => ?_
    refine ihyes.bind (fun _ _ _ => ⟨_, rfl⟩) (fun _ _ _ => ⟨_, rfl⟩) fun yes yes' hyes a b hab => ?_
    exact .passed (.branch pos pos' start start' stop stop' hx hyes .nil) hab
  | branchElse pos pos' start start' stop stop' otherwise otherwise' start₂ start₂' stop₂ stop₂' hg _
      _ _ ihyes ihno ih =>
    refine cons_alike ?_ ih
    refine (guard_alike hρ hg).bind (fun _ _ _ => ⟨_, rfl⟩) (fun _ _ _ => ⟨_, rfl⟩) fun x x' hx => ?_
    refine ihyes.bind (fun _ _ _ => ⟨_, rfl⟩) (fun _ _ _ => ⟨_, rfl⟩) fun yes yes' hyes => ?_
    refine ihno.bind (fun _ _ _ => ⟨_, rfl⟩) (fun _ _ _ => ⟨_, rfl⟩) fun no no' hno a b hab => ?_
    exact .passed (.branchElse pos pos' start start' stop stop' otherwise otherwise' start₂ start₂'
      stop₂ stop₂' hx hyes hno .nil) hab
  | loop pos pos' start start' stop stop' hg _ _ ihbody ih =>
    refine cons_alike ?_ ih
    refine (guard_alike hρ hg).bind (fun _ _ _ => ⟨_, rfl⟩) (fun _ _ _ => ⟨_, rfl⟩) fun x x' hx => ?_
    refine ihbody.bind (fun _ _ _ => ⟨_, rfl⟩) (fun _ _ _ => ⟨_, rfl⟩) fun body body' hbody a b hab => ?_
    exact .passed (.loop pos pos' start start' stop stop' hx hbody .nil) hab
  | returnNone pos pos' _ ih =>
    refine cons_alike ?_ ih
    refine (returnStmt_alike hfg pos pos' .none).map fun x x' h => ?_
    cases h with
    | none => exact .returnNone pos pos' .nil
    | some h => exact .returnSome pos pos' h .nil
  | returnSome pos pos' hx _ ih =>
    refine cons_alike ?_ ih
    refine (returnStmt_alike hfg pos pos' (.some hx)).map fun x x' h => ?_
    cases h with
    | none => exact .returnNone pos pos' .nil
    | some h => exact .returnSome pos pos' h .nil

theorem function_alike (hρ : OneToOne ρ) (h : FunctionTwin ρ fn fn')
    {t : CheckState} (hst : KnownAlike ρ s.table t.table) :
    JudgedAlike ρ (FunctionTwin ρ) ((function fn s).1.1, (function fn s).2)
      ((function fn' t).1.1, (function fn' t).2) := by
  cases h with
  | @mk name f g rs rs' xs ys pos pos' start start' stop stop' hfg hparams hxs =>
    have hstmts := stmts_alike hρ hfg hxs { s with returns := 0 } { t with returns := 0 } ⟨hst, rfl⟩
    unfold function
    rw [modify_bind_apply, modify_bind_apply, bind_run, bind_run]
    generalize stmts f xs { s with returns := 0 } = a at hstmts
    generalize stmts g ys { t with returns := 0 } = b at hstmts
    cases hstmts with
    | failed hkind => exact .failed hkind
    | @passed zs zs' s' t' hzs hst' =>
      have hpassed : JudgedAlike ρ (FunctionTwin ρ)
          (⟨⟨pos, name, f, rs, ⟨start, zs, stop⟩⟩, none⟩, s')
          (⟨⟨pos', name, g, rs', ⟨start', zs', stop'⟩⟩, none⟩, t') :=
        .passed (.mk _ _ _ _ _ _ hfg hparams hzs) hst'
      cases hfg with
      | mk pos'' =>
        simp only [Option.isSome_none, Bool.false_eq_true, if_false]
        rw [get_bind_apply, get_bind_apply, hst'.returns]
        split
        · exact .failed rfl
        · exact hpassed

theorem functions_alike (hρ : OneToOne ρ)
    (h : List.Forall₂ (FunctionTwin ρ) fns fns') {t : CheckState} (hst : StateAlike ρ s t) :
    JudgedAlike ρ (List.Forall₂ (FunctionTwin ρ)) ((functions fns s).1.1, (functions fns s).2)
      ((functions fns' t).1.1, (functions fns' t).2) := by
  induction h generalizing s t with
  | nil => exact .passed .nil hst
  | @cons fn fn' fns fns' hfn _ ih =>
    have hfirst := function_alike hρ hfn hst.table
    rw [functions, functions, bind_run, bind_run]
    generalize function fn s = a at hfirst
    generalize function fn' t = b at hfirst
    obtain ⟨⟨⟨first, failure⟩, message⟩, s₁⟩ := a
    obtain ⟨⟨⟨first', failure'⟩, message'⟩, t₁⟩ := b
    cases hfirst with
    | failed hkind => exact .failed hkind
    | passed hfn hst₁ =>
      have hrest := ih hst₁
      simp only [Option.isSome_none, Bool.false_eq_true, if_false]
      rw [bind_run, bind_run]
      generalize functions fns s₁ = a at hrest
      generalize functions fns' t₁ = b at hrest
      obtain ⟨⟨⟨rest, failure⟩, messages⟩, s₂⟩ := a
      obtain ⟨⟨⟨rest', failure'⟩, messages'⟩, t₂⟩ := b
      cases hrest with
      | failed hkind => exact .failed hkind
      | passed hfns hst₂ => exact .passed (.cons hfn hfns) hst₂

/-- Twins fail for reasons of one kind, or pass and are twins again. -/
theorem check_alike (hρ : OneToOne ρ) {x y : Parsed}
    (hfns : List.Forall₂ (FunctionTwin ρ) x.program.functions y.program.functions)
    (hunused : Option.Rel SameKind x.unused y.unused) (ht : KnownAlike ρ t u) :
    Option.Rel SameKind (check x t).failure (check y u).failure ∧
      ((check x t).failure = none →
        List.Forall₂ (FunctionTwin ρ) (check x t).program.functions (check y u).program.functions ∧
          KnownAlike ρ (check x t).table (check y u).table) := by
  have hrun := functions_alike hρ hfns (s := ⟨t, 0⟩) (t := ⟨u, 0⟩) ⟨ht, rfl⟩
  simp only [check, StateT.run]
  generalize functions x.program.functions ⟨t, 0⟩ = a at hrun
  generalize functions y.program.functions ⟨u, 0⟩ = b at hrun
  obtain ⟨⟨⟨fns, failure⟩, messages⟩, s⟩ := a
  obtain ⟨⟨⟨fns', failure'⟩, messages'⟩, s'⟩ := b
  cases hrun with
  | failed hkind => exact ⟨.some hkind, fun h => absurd h (Option.some_ne_none _)⟩
  | passed hfns hst => exact ⟨hunused, fun _ => ⟨hfns, hst.table⟩⟩

end

end Typing

end Ifj24
