import Ifj24.Proofs.Steps
import Ifj24.Proofs.WellTyped

/-!
Checking an expression leaves it well typed. A postfix sequence is evaluated on a stack,
and each entry of the stack stands for a segment of the items read so far. A literal that
is converted is alone in its segment, so the conversion changes the type of that segment
and of no other.
-/

open List

namespace Ifj24

variable {type : DataType}

theorem DataType.eq_of_isNumeric (h : type.isNumeric = true) : type = .i32 ∨ type = .f64 := by
  cases type <;> simp [DataType.isNumeric] at h <;> simp

def DataType.IsBasic (type : DataType) : Prop := type = .i32 ∨ type = .f64 ∨ type = .u8

open DataType

theorem DataType.IsBasic.isResolved (h : type.IsBasic) : type.isResolved = true := by
  rcases h with rfl | rfl | rfl <;> rfl

theorem DataType.isBasic_of_isNumeric (h : type.isNumeric = true) : type.IsBasic := by
  rcases eq_of_isNumeric h with rfl | rfl
  · exact .inl rfl
  · exact .inr (.inl rfl)

structure Var.Inferred (v : Var) : Prop where
  type : v.type.IsBasic
  nullable : v.nullable ≠ .unknown

theorem Tree.Value.coerce_eq_ok {v w : Tree.Value} (h : v.coerce type = .ok w) :
    w.null = false ∧ w.type = type ∧ (type = v.type ∨ type.isNumeric = true) := by
  unfold Tree.Value.coerce at h
  split at h
  · cases h
  · rename_i hnull
    split at h
    · rename_i htype
      cases h
      exact ⟨Bool.eq_false_iff.mpr hnull, htype, .inl htype.symm⟩
    · split at h
      · rename_i htypes
        cases h
        exact ⟨rfl, htypes.2.symm, .inr (by rw [htypes.2]; rfl)⟩
      · split at h
        · rename_i htypes
          split at h
          · cases h
          · split at h
            · cases h
            · split at h
              · cases h
                exact ⟨rfl, htypes.2.symm, .inr (by rw [htypes.2]; rfl)⟩
              · cases h
        · cases h

namespace Typing

open Ifj24.Tree

variable {name : Bytes} {x : Evaluated} {c : Truth}
  {node part whole α β : Type}

variable {t : Table}

def Known (v : Var) : Prop := v.type.isResolved = true → v.Inferred

structure Concrete (t : Table) (xs : List Expr) : Prop where
  literals : ∀ v : Value, .value v ∈ xs → v.null = false → v.type.IsBasic
  vars : ∀ v : Variable, .variable v ∈ xs → Known (t.var v.var)

variable {xs before after items : List Expr} {y : Evaluated} {e : Expression}
  {stack : List Evaluated}

theorem Concrete.mono (h : Concrete t xs) (hys : ∀ y ∈ ys, y ∈ xs) : Concrete t ys :=
  ⟨fun v hv => h.literals v (hys _ hv), fun v hv => h.vars v (hys _ hv)⟩

theorem leaf_eq_ok {x : Expr} (hx : Concrete t [x]) (h : leaf t x slot = .ok y) :
    LeafHas t x y.use ∧ y.slot = slot ∧ (y.mode ≠ .null → y.type.IsBasic) ∧
      (y.mode = .literal → y.nullable = false ∧
        ∃ v : Value, x = .value v ∧ v.null = false ∧ v.type = y.type) := by
  unfold leaf at h
  split at h
  · rename_i v
    split at h
    · rename_i hnull
      cases h
      exact ⟨.null hnull, rfl, fun hmode => absurd rfl hmode, fun hmode => by cases hmode⟩
    · rename_i hnull
      cases h
      have hnull : v.null = false := Bool.eq_false_iff.mpr hnull
      have htype := hx.literals v (by simp) hnull
      exact ⟨.literal hnull htype.isResolved, rfl, fun _ => htype, fun _ => ⟨rfl, v, rfl, hnull, rfl⟩⟩
  · dsimp only at h
    split at h
    · rename_i v hres
      cases h
      have htype := (hx.vars v (by simp) hres).type
      exact ⟨.var hres, rfl, fun _ => htype, fun hmode => by cases hmode⟩
    · cases h
  · cases h

@[simp] theorem Evaluated.isLiteral_iff (x : Evaluated) :
    x.isLiteral = true ↔ x.mode = .literal := by
  simp [Evaluated.isLiteral]

theorem ofExcept_bind_eq_ok {e : Except Diagnostic α} (h : (ofExcept e >>= f) n = .ok b n') :
    ∃ a, e = .ok a ∧ f a n = .ok b n' := by
  cases e with
  | error d => cases h
  | ok a => exact ⟨a, rfl, h⟩

theorem within_eq_ok {get : whole → part} {put : whole → part → whole}
    {check : Check part α} {w w' : whole} {a : α} (h : Check.within get put check w = .ok a w') :
    ∃ p, check (get w) = .ok a p ∧ w' = put w p := by
  unfold Check.within at h
  cases hcheck : check (get w) with
  | error d p =>
    rw [hcheck] at h
    cases h
  | ok b p =>
    rw [hcheck] at h
    cases h
    exact ⟨p, rfl, rfl⟩

/-! What a check that succeeds has done, for each function. -/

section

variable {x : Expr}

theorem expression_cases (h : expression t e = .ok y e') :
    ∃ xs, evaluateItems t 0 e.items [] e.items = .ok [y] xs ∧
      e' = { e with items := xs, type := y.type, nullable := y.nullable } := by
  obtain ⟨_, _, hget, h⟩ := bind_eq_ok h
  cases hget
  cases hfinished : e.finished with
  | false =>
    rw [hfinished] at h
    cases h
  | true =>
    simp only [hfinished] at h
    obtain ⟨stack, _, hwithin, h⟩ := bind_eq_ok h
    obtain ⟨xs, hitems, rfl⟩ := within_eq_ok hwithin
    rcases stack with _ | ⟨x, _ | ⟨z, rest⟩⟩
    · cases h
    · cases h
      exact ⟨xs, hitems, by rw [← hfinished]⟩
    · cases h

theorem convertLiteral_cases {x : Evaluated} {y : Option Evaluated}
    (h : convertLiteral x type e = .ok y e') :
    (e' = e ∧ (y = none ∨ x.type = type ∧ y = some x)) ∨
      x.mode = .literal ∧ type.isNumeric = true ∧
        ∃ z xs, coerceSlot x type e.items = .ok z xs ∧ y = some z ∧
          e' = { e with items := xs, type } := by
  unfold convertLiteral at h
  split at h
  · rename_i htype
    cases h
    exact .inl ⟨rfl, .inr ⟨htype, rfl⟩⟩
  split at h
  · cases h
    exact .inl ⟨rfl, .inl rfl⟩
  · rename_i hconvertible
    obtain ⟨⟨hmode, -⟩, hnum⟩ :
        (x.mode = .literal ∧ x.type.isNumeric = true) ∧ type.isNumeric = true := by
      simpa using hconvertible
    obtain ⟨z, _, hwithin, h⟩ := bind_eq_ok h
    obtain ⟨xs, hslot, rfl⟩ := within_eq_ok hwithin
    cases h
    exact .inr ⟨hmode, hnum, z, xs, hslot, rfl, rfl⟩

theorem argument_cases {name : Bytes} {i : Nat} (h : argument t name i param xs = .ok () ys) :
    (xs[i]? = none ∧ ys = xs) ∨
      ∃ x y, xs[i]? = some x ∧ leaf t x (some i) = .ok y ∧
        (y.nullable = true → param.nullable = true) ∧
        ((param.type = .any ∨ y.mode = .null ∨ y.type = param.type) ∧ ys = xs ∨
          y.mode = .literal ∧ ∃ z, coerceSlot y param.type xs = .ok z ys) := by
  rw [argument, bind_apply, get_apply] at h
  cases hx : xs[i]? with
  | none =>
    simp only [hx] at h
    cases h
    exact .inl ⟨rfl, rfl⟩
  | some x =>
    simp only [hx] at h
    obtain ⟨y, hy, h⟩ := ofExcept_bind_eq_ok h
    split at h
    · cases h
    rename_i hnullable
    have hnull : y.nullable = true → param.nullable = true := by simpa using hnullable
    refine .inr ⟨x, y, rfl, hy, hnull, ?_⟩
    split at h
    · rename_i hfits
      cases h
      exact .inl ⟨hfits, rfl⟩
    split at h
    · rename_i hlit
      rw [bind_apply, get_apply] at h
      dsimp only at h
      cases hslot : coerceSlot y param.type xs with
      | error d zs =>
        rw [hslot] at h
        cases h
      | ok z zs =>
        rw [hslot] at h
        cases h
        exact .inr ⟨y.isLiteral_iff.mp hlit, z, rfl⟩
    · cases h

theorem call_cases {c c' : Call} (h : call t c = .ok y c') :
    ∃ f args, t.lookupFunction? c.name = some f ∧ c.args.length = f.params.length ∧
      arguments t c.name 0 f.params c.args = .ok () args ∧
      c' = { c with target := some f, args } ∧
      y = ⟨if f.result = .void then .noValue else .value, c.pos, f.result, f.nullableResult,
        none⟩ := by
  obtain ⟨_, _, hget, h⟩ := bind_eq_ok h
  cases hget
  cases hlook : t.lookupFunction? c.name with
  | none =>
    simp only [hlook] at h
    split at h <;> cases h
  | some f =>
    simp only [hlook] at h
    obtain ⟨_, _, hmodify, h⟩ := bind_eq_ok h
    cases hmodify
    by_cases harity : c.args.length = f.params.length
    · simp only [harity, ne_eq, not_true_eq_false, if_false] at h
      obtain ⟨_, _, hwithin, h⟩ := bind_eq_ok h
      obtain ⟨args, hargs, rfl⟩ := within_eq_ok hwithin
      cases h
      exact ⟨f, args, rfl, harity, hargs, rfl, rfl⟩
    · rw [if_pos harity] at h
      cases h

theorem value_cases (h : value t x = .ok y x') :
    (leaf t x none = .ok y ∧ x' = x) ∨
      (∃ e e', x = .expression e ∧ expression t e = .ok y e' ∧ x' = .expression e') ∨
      ∃ c c', x = .call c ∧ call t c = .ok y c' ∧ x' = .call c' := by
  unfold value at h
  split at h
  case h_1 | h_2 =>
    split at h
    · rename_i hleaf
      cases h
      exact .inl ⟨hleaf, rfl⟩
    · cases h
  case h_3 c =>
    split at h
    · rename_i c' hcall
      cases h
      exact .inr (.inr ⟨c, c', rfl, hcall, rfl⟩)
    · cases h
  case h_4 e =>
    split at h
    · rename_i e' hexpr
      cases h
      exact .inr (.inl ⟨e, e', rfl, hexpr, rfl⟩)
    · cases h
  · cases h

theorem convertValue_cases (h : convertValue y type x = .ok z x') :
    (x' = x ∧ (z = none ∨ y.type = type ∧ z = some y)) ∨
      ∃ e e', x = .expression e ∧ convertLiteral y type e = .ok z e' ∧ x' = .expression e' := by
  unfold convertValue at h
  split at h
  · rename_i e
    split at h
    · rename_i e' hconv
      cases h
      exact .inr ⟨e, e', rfl, hconv, rfl⟩
    · cases h
  · split at h
    · rename_i htype
      cases h
      exact .inl ⟨rfl, .inr ⟨htype, rfl⟩⟩
    · cases h
      exact .inl ⟨rfl, .inl rfl⟩

end

/-- The items from `start` on that evaluate to `y`. A literal is alone there. -/
structure Segment (t : Table) (start : Nat) (xs : List Expr) (y : Evaluated) : Prop where
  has : SequenceHas t xs y.use
  basic : y.mode ≠ .null → y.type.IsBasic
  literal : y.mode = .literal → y.slot = some start ∧ y.nullable = false ∧
    ∃ v : Value, xs = [.value v] ∧ v.null = false

theorem coerceSlot_eq_ok {x' : Evaluated} (hx : Segment t before.length xs x)
    (hmode : x.mode = .literal) (hnum : type.isNumeric = true)
    (h : coerceSlot x type (before ++ (xs ++ after)) = .ok x' items) :
    x' = { x with type } ∧
      ∃ ys, ys.length = xs.length ∧ items = before ++ (ys ++ after) ∧
        Segment t before.length ys x' := by
  obtain ⟨hslot, hnullable, v, rfl, -⟩ := hx.literal hmode
  have hget : (before ++ ([Expr.value v] ++ after))[before.length]? = some (.value v) := by simp
  simp only [coerceSlot, bind_apply, get_apply, hslot, hget] at h
  cases hcoerce : v.coerce type with
  | error d =>
    rw [hcoerce] at h
    cases h
  | ok w =>
    rw [hcoerce, ← hslot] at h
    obtain ⟨rfl, hitems⟩ := EStateM.Result.ok.inj h
    obtain ⟨hnull, htype, -⟩ := Value.coerce_eq_ok hcoerce
    have hbasic := isBasic_of_isNumeric hnum
    refine ⟨rfl, [.value w], rfl, ?_, ?_, fun _ => hbasic,
      fun _ => ⟨hslot, hnullable, w, rfl, hnull⟩⟩
    · rw [← hitems]
      simp
    · have huse : Evaluated.use { x with type } = ⟨.literal, w.type, false⟩ := by
        simp only [Evaluated.use, hmode, hnullable, htype]
      rw [huse]
      exact .leaf (.literal hnull (htype ▸ hbasic.isResolved))

theorem isPlain_of_numeric (hmode : x.mode ≠ .null)
    (h : ¬ (x.nullable || !x.type.isNumeric) = true) :
    x.use.IsPlain x.type ∧ x.type.isNumeric = true := by
  obtain ⟨hnullable, hnum⟩ : x.nullable = false ∧ x.type.isNumeric = true := by simpa using h
  exact ⟨⟨hmode, by simp [Evaluated.use, hnullable]⟩, hnum⟩

theorem arithmeticOperand_eq_ok (h : arithmeticOperand o x = .ok ()) :
    x.use.IsPlain x.type ∧ x.type.isNumeric = true := by
  unfold arithmeticOperand at h
  split at h
  · cases h
  split at h
  · cases h
  · exact isPlain_of_numeric ‹_› ‹_›

theorem Evaluated.isPlain_withType (h : x.use.IsPlain x.type) :
    (Evaluated.use { x with type }).IsPlain type := by
  obtain ⟨hmode, htype⟩ := h
  have hnullable : x.nullable = false := congrArg TypeUse.nullable htype
  exact ⟨hmode, by simp [Evaluated.use, hnullable]⟩

/-- Both operands come to have one numeric type, each in its own place. -/
theorem binary_eq_ok (hl : Segment t before.length ls l) (hr : Segment t (before ++ ls).length rs r)
    (h : binary o l r (before ++ (ls ++ (rs ++ after))) = .ok type items) :
    type.isNumeric = true ∧
      ∃ ls' rs' ul ur, ls'.length = ls.length ∧ rs'.length = rs.length ∧
        items = before ++ (ls' ++ (rs' ++ after)) ∧ SequenceHas t ls' ul ∧ ul.IsPlain type ∧
        SequenceHas t rs' ur ∧ ur.IsPlain type := by
  -- The right operand is converted in the items that follow the left one.
  have hright {ls' rest items' : List Expr} {r' : Evaluated} {type : DataType}
      (hlen : ls'.length = ls.length) (hmode : r.mode = .literal)
      (hnum : type.isNumeric = true)
      (h : coerceSlot r type (before ++ (ls' ++ (rs ++ rest))) = .ok r' items') :
      r' = { r with type } ∧ ∃ rs', rs'.length = rs.length ∧
        items' = before ++ (ls' ++ (rs' ++ rest)) ∧ SequenceHas t rs' r'.use := by
    have hr' : Segment t (before ++ ls').length rs r := by
      rw [length_append, hlen, ← length_append]
      exact hr
    rw [← append_assoc] at h
    obtain ⟨hr', rs', hrs', hitems, hsegment⟩ := coerceSlot_eq_ok hr' hmode hnum h
    exact ⟨hr', rs', hrs', by rw [hitems, append_assoc], hsegment.has⟩
  obtain ⟨_, hlOk, h⟩ := ofExcept_bind_eq_ok h
  obtain ⟨_, hrOk, h⟩ := ofExcept_bind_eq_ok h
  obtain ⟨hlPlain, hlNumeric⟩ := arithmeticOperand_eq_ok hlOk
  obtain ⟨hrPlain, hrNumeric⟩ := arithmeticOperand_eq_ok hrOk
  by_cases hsame : l.type = r.type
  · rw [if_pos hsame] at h
    cases h
    refine ⟨hlNumeric, ls, rs, l.use, r.use, rfl, rfl, rfl, hl.has, hlPlain, hr.has, ?_⟩
    rw [hsame]
    exact hrPlain
  rw [if_neg hsame] at h
  by_cases hboth : l.isLiteral && r.isLiteral
  · rw [if_pos hboth] at h
    obtain ⟨hlMode, hrMode⟩ := Bool.and_eq_true_iff.mp hboth
    obtain ⟨l', _, hcl, h⟩ := bind_eq_ok h
    obtain ⟨r', _, hcr, h⟩ := bind_eq_ok h
    cases h
    obtain ⟨rfl, ls', hls', rfl, hl'⟩ := coerceSlot_eq_ok hl (by simpa using hlMode) rfl hcl
    obtain ⟨rfl, rs', hrs', rfl, hr'⟩ := hright hls' (by simpa using hrMode) rfl hcr
    exact ⟨rfl, ls', rs', _, _, hls', hrs', rfl, hl'.has, Evaluated.isPlain_withType hlPlain, hr',
      Evaluated.isPlain_withType hrPlain⟩
  rw [if_neg hboth] at h
  by_cases hlMode : l.isLiteral
  · rw [if_pos hlMode] at h
    obtain ⟨l', _, hcl, h⟩ := bind_eq_ok h
    cases h
    obtain ⟨rfl, ls', hls', rfl, hl'⟩ :=
      coerceSlot_eq_ok hl (by simpa using hlMode) hrNumeric hcl
    exact ⟨hrNumeric, ls', rs, _, _, hls', rfl, rfl, hl'.has, Evaluated.isPlain_withType hlPlain,
      hr.has, hrPlain⟩
  rw [if_neg hlMode] at h
  by_cases hrMode : r.isLiteral
  · rw [if_pos hrMode] at h
    obtain ⟨r', _, hcr, h⟩ := bind_eq_ok h
    cases h
    obtain ⟨rfl, rs', hrs', rfl, hr'⟩ :=
      hright rfl (by simpa using hrMode) hlNumeric hcr
    exact ⟨hlNumeric, ls, rs', _, _, rfl, hrs', rfl, hl.has, hlPlain, hr',
      Evaluated.isPlain_withType hrPlain⟩
  · rw [if_neg hrMode] at h
    cases h

/-- A stack of operands and the items that they are the values of, the top last. -/
inductive Stacked (t : Table) : List Evaluated → List Expr → Prop
  | nil : Stacked t [] []
  | push {stack : List Evaluated} {before xs : List Expr} {y : Evaluated}
      (hstack : Stacked t stack before) (hy : Segment t before.length xs y) :
    Stacked t (y :: stack) (before ++ xs)

theorem Stacked.leaf {x : Expr} (hstack : Stacked t stack before) (hx : Concrete t [x])
    (hy : Typing.leaf t x (some before.length) = .ok y) :
    Stacked t (y :: stack) (before ++ [x]) := by
  obtain ⟨hhas, hslot, hbasic, hlit⟩ := leaf_eq_ok hx hy
  refine .push hstack ⟨.leaf hhas, hbasic, fun hmode => ?_⟩
  obtain ⟨hnullable, v, rfl, hnull, -⟩ := hlit hmode
  exact ⟨hslot, hnullable, v, rfl, hnull⟩

/-- An operator takes two entries and puts the one of their segments there. -/
theorem Stacked.operator {l r : Evaluated} {o : Operand}
    (hstack : Stacked t (r :: l :: stack) before)
    (h : binary o l r (before ++ .operand o :: after) = .ok type items) :
    ∃ before', before'.length = before.length + 1 ∧
      items.set before.length (.operand { o with type }) = before' ++ after ∧
      Stacked t (.computed o.pos type :: stack) before' := by
  cases hstack with
  | push hstack hr =>
    cases hstack with
    | @push _ bottom ls _ hstack hl =>
      rename_i rs
      have hsplit : bottom ++ ls ++ rs ++ .operand o :: after =
          bottom ++ (ls ++ (rs ++ .operand o :: after)) := by
        simp only [append_assoc]
      rw [hsplit] at h
      obtain ⟨hnum, ls', rs', ul, ur, hls, hrs, rfl, hl', hul, hr', hur⟩ :=
        binary_eq_ok hl hr h
      have hlen : (bottom ++ ls ++ rs).length = (bottom ++ (ls' ++ rs')).length := by
        simp only [length_append, hls, hrs]
        omega
      refine ⟨bottom ++ (ls' ++ (rs' ++ [.operand { o with type }])), ?_, ?_, .push hstack ⟨?_, ?_, ?_⟩⟩
      · rw [hlen]
        simp only [length_append, length_singleton]
        omega
      · rw [hlen, ← append_assoc ls', ← append_assoc bottom,
          set_append_right _ _ (Nat.le_refl _), Nat.sub_self, set_cons_zero]
        simp only [append_assoc, singleton_append]
      · exact SequenceHas.operator (eq_of_isNumeric hnum)
          hl' hul hr' hur
      · exact fun _ => isBasic_of_isNumeric hnum
      · intro hmode
        cases hmode

theorem evaluateItems_eq_ok (hstack : Stacked t stack before) (hrest : Concrete t rest)
    (h : evaluateItems t before.length rest stack (before ++ rest) = .ok stack' items) :
    Stacked t stack' items := by
  induction rest generalizing stack before with
  | nil =>
    rw [append_nil] at h
    cases h
    exact hstack
  | cons x rest ih =>
    have hx : Concrete t [x] := hrest.mono (by simp)
    have hrest' : Concrete t rest := hrest.mono fun y => mem_cons_of_mem x
    have hcons : before ++ x :: rest = (before ++ [x]) ++ rest := by simp
    have hlen : before.length + 1 = (before ++ [x]).length := by simp
    have hleaf {y : Evaluated} (hy : leaf t x (some before.length) = .ok y)
        (h : evaluateItems t (before.length + 1) rest (y :: stack) (before ++ x :: rest) =
          .ok stack' items) : Stacked t stack' items := by
      rw [hcons, hlen] at h
      exact ih (hstack.leaf hx hy) hrest' h
    cases x with
    | value v | «variable» v =>
      obtain ⟨y, hy, h⟩ := ofExcept_bind_eq_ok h
      exact hleaf hy h
    | operand o =>
      cases stack with
      | nil => cases h
      | cons r stack =>
        cases stack with
        | nil => cases h
        | cons l stack =>
          obtain ⟨type, items', hbinary, h⟩ := bind_eq_ok h
          obtain ⟨_, _, hset, h⟩ := bind_eq_ok h
          cases hset
          obtain ⟨before', hbefore', hitems, hstack'⟩ := hstack.operator hbinary
          dsimp only at h
          rw [hitems, ← hbefore'] at h
          exact ih hstack' hrest' h
    | expression e => cases h
    | truth c => cases h
    | call c => cases h

structure Valued (t : Table) (e : Expression) (x : Evaluated) : Prop where
  items : Segment t 0 e.items x
  type : e.type = x.type
  nullable : e.nullable = x.nullable

theorem Valued.has (h : Valued t e x) : ExpressionHas t e x.use :=
  ⟨h.items.has, h.type, h.nullable⟩

theorem expression_eq_ok (he : Concrete t e.items) (h : expression t e = .ok x e') :
    Valued t e' x := by
  obtain ⟨xs, hitems, rfl⟩ := expression_cases h
  have hstack : Stacked t [x] xs := evaluateItems_eq_ok .nil he hitems
  cases hstack with
  | push hstack hx =>
    cases hstack with
    | nil => exact ⟨hx, rfl, rfl⟩

theorem convertLiteral_eq_ok {x' : Evaluated} (hx : Valued t e x)
    (h : convertLiteral x type e = .ok (some x') e') : Valued t e' x' ∧ x' = { x with type } := by
  obtain ⟨rfl, hsame | ⟨rfl, hsame⟩⟩ | ⟨hmode, hnum, z, xs, hslot, hz, rfl⟩ :=
    convertLiteral_cases h
  · cases hsame
  · cases hsame
    exact ⟨hx, rfl⟩
  · cases hz
    have hitems : Segment t ([] : List Expr).length e.items x := hx.items
    rw [← append_nil e.items] at hslot
    obtain ⟨rfl, ys, -, rfl, hsegment⟩ := coerceSlot_eq_ok hitems hmode hnum hslot
    rw [append_nil]
    exact ⟨⟨hsegment, rfl, hx.nullable⟩, rfl⟩

theorem convertLiteral_eq_none (h : convertLiteral x type e = .ok none e') :
    e' = e := by
  obtain ⟨heq, -⟩ | ⟨-, -, z, xs, -, hz, -⟩ := convertLiteral_cases h
  · exact heq
  · cases hz

theorem convertLiteral_valued {y : Option Evaluated} (hx : Valued t e x)
    (h : convertLiteral x type e = .ok y e') :
    Valued t e' { x with type := (y.getD x).type } ∧
      ((y.getD x).type = x.type ∨ (y.getD x).type = type) := by
  cases y with
  | none =>
    obtain rfl := convertLiteral_eq_none h
    exact ⟨hx, .inl rfl⟩
  | some x' =>
    obtain ⟨hx', rfl⟩ := convertLiteral_eq_ok hx h
    exact ⟨hx', .inr rfl⟩

theorem balance_eq_ok {types : DataType × DataType}
    (hl : Valued t c.left l) (hr : Valued t c.right r) (h : balance l r c = .ok types c') :
    c'.op = c.op ∧ Valued t c'.left { l with type := types.1 } ∧
      Valued t c'.right { r with type := types.2 } ∧
      (l.type.isNumeric = true → r.type.isNumeric = true →
        types.1.isNumeric = true ∧ types.2.isNumeric = true) := by
  have numeric {type type' other : DataType} (h : type = type' ∨ type = other)
      (htype : type'.isNumeric = true) (hother : other.isNumeric = true) :
      type.isNumeric = true := by
    rcases h with rfl | rfl
    · exact htype
    · exact hother
  unfold balance at h
  split at h
  · cases h
    exact ⟨rfl, hl, hr, fun hl hr => ⟨hl, hr⟩⟩
  · split at h
    · obtain ⟨l', _, hwithin, h⟩ := bind_eq_ok h
      obtain ⟨e, hleft, rfl⟩ := within_eq_ok hwithin
      obtain ⟨r', _, hwithin', h⟩ := bind_eq_ok h
      obtain ⟨e', hright, rfl⟩ := within_eq_ok hwithin'
      cases h
      obtain ⟨hl', hltype⟩ := convertLiteral_valued hl hleft
      obtain ⟨hr', hrtype⟩ := convertLiteral_valued hr hright
      exact ⟨rfl, hl', hr', fun hl hr => ⟨numeric hltype hl rfl, numeric hrtype hr rfl⟩⟩
    · split at h
      · obtain ⟨l', _, hwithin, h⟩ := bind_eq_ok h
        obtain ⟨e, hleft, rfl⟩ := within_eq_ok hwithin
        cases h
        obtain ⟨hl', hltype⟩ := convertLiteral_valued hl hleft
        exact ⟨rfl, hl', hr, fun hl hr => ⟨numeric hltype hl hr, hr⟩⟩
      · split at h
        · obtain ⟨r', _, hwithin', h⟩ := bind_eq_ok h
          obtain ⟨e', hright, rfl⟩ := within_eq_ok hwithin'
          cases h
          obtain ⟨hr', hrtype⟩ := convertLiteral_valued hr hright
          exact ⟨rfl, hl, hr', fun hl hr => ⟨hl, numeric hrtype hr hl⟩⟩
        · cases h
          exact ⟨rfl, hl, hr, fun hl hr => ⟨hl, hr⟩⟩

theorem orderedOperand_eq_ok (h : orderedOperand c x = .ok ()) :
    x.use.IsPlain x.type ∧ x.type.isNumeric = true := by
  unfold orderedOperand at h
  split at h
  · cases h
  split at h
  · cases h
  · exact isPlain_of_numeric ‹_› ‹_›

theorem guarded_eq_ok {b : Bool} {x y : Except Diagnostic Unit}
    {next : Unit → Check node Unit} {n n' : node}
    (h : (if b = true then do
      ofExcept x
      let r ← ofExcept y
      next r
    else next ()) n = .ok () n') :
    (b = true → x = .ok () ∧ y = .ok ()) ∧ next () n = .ok () n' := by
  cases b with
  | false => exact ⟨fun hb => absurd hb Bool.false_ne_true, h⟩
  | true =>
    obtain ⟨_, hx, h⟩ := ofExcept_bind_eq_ok h
    obtain ⟨_, hy, h⟩ := ofExcept_bind_eq_ok h
    exact ⟨fun _ => ⟨hx, hy⟩, h⟩

theorem truth_eq_ok (hcLeft : Concrete t c.left.items)
    (hcRight : Concrete t c.right.items) (h : truth t c = .ok () c') :
    c'.op = c.op ∧ ∃ l r, TruthHas t c' l r := by
  obtain ⟨l, _, hwithin, h⟩ := bind_eq_ok h
  obtain ⟨left, hleft, rfl⟩ := within_eq_ok hwithin
  obtain ⟨r, _, hwithin', h⟩ := bind_eq_ok h
  obtain ⟨right, hright, rfl⟩ := within_eq_ok hwithin'
  have hl := expression_eq_ok hcLeft hleft
  have hr := expression_eq_ok hcRight hright
  obtain ⟨_, _, hget, h⟩ := bind_eq_ok h
  cases hget
  obtain ⟨hordered, h⟩ := guarded_eq_ok h
  have hplain (hop : c.op.isEquality = false) :
      (l.use.IsPlain l.type ∧ l.type.isNumeric = true) ∧
        r.use.IsPlain r.type ∧ r.type.isNumeric = true := by
    obtain ⟨hlOk, hrOk⟩ := hordered (by simp [hop])
    exact ⟨orderedOperand_eq_ok hlOk, orderedOperand_eq_ok hrOk⟩
  -- With null on one side nothing is converted.
  have unbalanced (hnull : l.mode = .null ∨ r.mode = .null) (type : DataType) :
      TruthHas t { c with left, right, type } l.use r.use := by
    refine ⟨hl.has, hr.has, ?_, fun hop => ?_⟩
    · rcases hnull with hnull | hnull
      · exact .inl hnull
      · exact .inr (.inl hnull)
    · obtain ⟨⟨hlPlain, hlNumeric⟩, hrPlain, hrNumeric⟩ := hplain hop
      exact ⟨⟨_, hlNumeric, hlPlain⟩, _, hrNumeric, hrPlain⟩
  split at h
  · rename_i hnull
    cases h
    have hnull : l.mode = .null ∧ r.mode = .null := by simpa using hnull
    exact ⟨rfl, _, _, unbalanced (.inl hnull.1) _⟩
  split at h
  · rename_i hnull
    cases h
    exact ⟨rfl, _, _, unbalanced (.inl hnull) _⟩
  split at h
  · rename_i hnull
    cases h
    exact ⟨rfl, _, _, unbalanced (.inr hnull) _⟩
  obtain ⟨⟨lt, rt⟩, c₁, hbalance, h⟩ := bind_eq_ok h
  obtain ⟨hop, hl', hr', hnum⟩ := balance_eq_ok hl hr hbalance
  dsimp only at h hop hl' hr' hnum
  by_cases hsame : lt = rt
  · subst hsame
    simp only [ne_eq, not_true_eq_false, if_false] at h
    cases h
    refine ⟨hop, _, _, hl'.has, hr'.has, .inr (.inr rfl), fun hordering => ?_⟩
    rw [show c₁.op = c.op from hop] at hordering
    obtain ⟨⟨hlPlain, hlNumeric⟩, hrPlain, hrNumeric⟩ := hplain hordering
    obtain ⟨htype, -⟩ := hnum hlNumeric hrNumeric
    exact ⟨⟨_, htype, Evaluated.isPlain_withType hlPlain⟩, _, htype,
      Evaluated.isPlain_withType hrPlain⟩
  · rw [if_pos hsame] at h
    cases h

theorem argument_eq_ok {param : Param}
    (hxs : ∀ x, xs[i]? = some x → Concrete t [x]) (h : argument t name i param xs = .ok () ys) :
    ys.length = xs.length ∧ (∀ j, j ≠ i → ys[j]? = xs[j]?) ∧
      ∀ x, ys[i]? = some x → ArgumentFits t x param := by
  obtain ⟨hx, rfl⟩ | ⟨x, y, hx, hy, hnull, h⟩ := argument_cases h
  · refine ⟨rfl, fun _ _ => rfl, fun x hx' => ?_⟩
    rw [hx] at hx'
    cases hx'
  obtain ⟨hhas, hslot, -, hlit⟩ := leaf_eq_ok (hxs x hx) hy
  obtain ⟨hfits, rfl⟩ | ⟨hmode, z, hz⟩ := h
  · refine ⟨rfl, fun _ _ => rfl, fun x' hx' => ?_⟩
    obtain rfl : x = x' := Option.some.inj (hx.symm.trans hx')
    exact ⟨y.use, hhas, hfits, hnull⟩
  · obtain ⟨-, v, rfl, hv, hvType⟩ := hlit hmode
    simp only [coerceSlot, bind_apply, get_apply, hslot, hx] at hz
    cases hw : v.coerce param.type with
    | error d =>
      rw [hw] at hz
      cases hz
    | ok w =>
      rw [hw] at hz
      cases hz
      obtain ⟨hwNull, hwType, hfrom⟩ := Value.coerce_eq_ok hw
      have hbasic : w.type.IsBasic := by
        rw [hwType]
        rcases hfrom with hfrom | hfrom
        · rw [hfrom]
          exact (hxs _ hx).literals v (by simp) hv
        · exact isBasic_of_isNumeric hfrom
      refine ⟨length_set, fun j hj => getElem?_set_ne hj.symm, fun x' hx' => ?_⟩
      obtain ⟨hlt, -⟩ := List.getElem?_eq_some_iff.mp hx
      rw [getElem?_set_self hlt] at hx'
      cases hx'
      exact ⟨_, .literal hwNull hbasic.isResolved, .inr (.inr hwType),
        fun hfalse => nomatch hfalse⟩

theorem arguments_eq_ok (hxs : ∀ (j : Nat) x, i ≤ j → xs[j]? = some x → Concrete t [x])
    (h : arguments t name i params xs = .ok () ys) :
    ys.length = xs.length ∧ (∀ j < i, ys[j]? = xs[j]?) ∧
      ∀ (j : Nat) x p, ys[i + j]? = some x → params[j]? = some p → ArgumentFits t x p := by
  induction params generalizing i xs with
  | nil =>
    cases h
    exact ⟨rfl, fun _ _ => rfl, fun _ _ _ _ hp => nomatch hp⟩
  | cons param rest ih =>
    obtain ⟨_, zs, hargument, h⟩ := bind_eq_ok h
    obtain ⟨hlen, hkept, hfits⟩ :=
      argument_eq_ok (fun x => hxs i x (Nat.le_refl i)) hargument
    have hzs (j : Nat) (x : Expr) (hj : i + 1 ≤ j) (hx : zs[j]? = some x) : Concrete t [x] := by
      rw [hkept j (by omega)] at hx
      exact hxs j x (by omega) hx
    obtain ⟨hlen', hkept', hfits'⟩ := ih hzs h
    refine ⟨hlen'.trans hlen, fun j hj => ?_, fun j x p hx hp => ?_⟩
    · rw [hkept' j (Nat.lt_succ_of_lt hj), hkept j (Nat.ne_of_lt hj)]
    · cases j with
      | zero =>
        cases hp
        refine hfits x ?_
        rw [← hkept' i (Nat.lt_succ_self i)]
        exact hx
      | succ j =>
        refine hfits' j x p ?_ hp
        rw [← hx]
        congr 1
        omega

theorem call_eq_ok {c c' : Call} (hc : Concrete t c.args) (h : call t c = .ok y c') :
    ∃ f, CallHas t c' f ∧ y = ⟨if f.result = .void then .noValue else .value, c.pos, f.result,
      f.nullableResult, none⟩ := by
  obtain ⟨f, args, hlook, harity, hargs, rfl, hy⟩ := call_cases h
  have hxs (j : Nat) (x : Expr) (_ : 0 ≤ j) (hx : c.args[j]? = some x) : Concrete t [x] :=
    hc.mono (forall_mem_singleton.mpr (mem_of_getElem? hx))
  obtain ⟨hlen, -, hfits⟩ := arguments_eq_ok hxs hargs
  refine ⟨f, ⟨rfl, hlook, hlen.trans harity, fun i x p hx hp => ?_⟩, hy⟩
  refine hfits i x p ?_ hp
  rw [Nat.zero_add]
  exact hx

inductive Computes (t : Table) : Expr → Evaluated → Prop
  | leaf {x : Expr} {y : Evaluated} (h : LeafHas t x y.use)
      (hbasic : y.mode ≠ .null → y.type.IsBasic) : Computes t x y
  | expression {e : Expression} {y : Evaluated} (h : Valued t e y) : Computes t (.expression e) y
  | call {c : Call} {f : FuncDef} {pos : Pos} (h : CallHas t c f) :
    Computes t (.call c) ⟨if f.result = .void then .noValue else .value, pos, f.result,
      f.nullableResult, none⟩

theorem Computes.has {x : Expr} (h : Computes t x y) (hmode : y.mode ≠ .noValue) :
    ValueHas t x y.use := by
  cases h with
  | leaf h => exact .leaf h
  | expression h => exact .expression h.has
  | @call c f pos h =>
    by_cases hvoid : f.result = .void
    · exact absurd (if_pos hvoid) hmode
    · have huse : Evaluated.use ⟨if f.result = .void then .noValue else .value, pos, f.result,
          f.nullableResult, none⟩ = ⟨.value, f.result, f.nullableResult⟩ := by
        simp only [Evaluated.use, if_neg hvoid]
      rw [huse]
      exact .call h hvoid

def Results (t : Table) : Prop :=
  ∀ name f, t.lookupFunction? name = some f → f.result ≠ .void → f.result.IsBasic

theorem Computes.isBasic {x : Expr} (h : Computes t x y) (hresults : Results t)
    (hmode : y.mode ≠ .noValue) (hnull : y.mode ≠ .null) : y.type.IsBasic := by
  cases h with
  | leaf _ hbasic => exact hbasic hnull
  | expression h => exact h.items.basic hnull
  | call h => exact hresults _ _ h.known fun hvoid => hmode (if_pos hvoid)

def leaves : Expr → List Expr
  | .expression e => e.items
  | .call c => c.args
  | x => [x]

theorem value_eq_ok {x : Expr} (hx : Concrete t (leaves x)) (h : value t x = .ok y x') :
    Computes t x' y := by
  obtain ⟨hleaf, rfl⟩ | ⟨e, e', rfl, hexpr, rfl⟩ | ⟨c, c', rfl, hcall, rfl⟩ := value_cases h
  · have hconcrete : Concrete t [x'] := by
      cases x' with
      | value | «variable» => exact hx
      | _ => cases hleaf
    obtain ⟨hhas, -, hbasic, -⟩ := leaf_eq_ok hconcrete hleaf
    exact .leaf hhas hbasic
  · exact .expression (expression_eq_ok hx hexpr)
  · obtain ⟨f, hf, rfl⟩ := call_eq_ok hx hcall
    exact .call hf

theorem convertValue_eq_ok {x : Expr} (hx : Computes t x y)
    (h : convertValue y type x = .ok (some y') x') : Computes t x' y' ∧ y' = { y with type } := by
  obtain ⟨rfl, hsame | ⟨rfl, hsame⟩⟩ | ⟨e, e', rfl, hconv, rfl⟩ := convertValue_cases h
  · cases hsame
  · cases hsame
    exact ⟨hx, rfl⟩
  · cases hx with
    | leaf hleaf =>
      generalize y.use = u at hleaf
      cases hleaf
    | expression hvalued =>
      obtain ⟨hvalued', hy'⟩ := convertLiteral_eq_ok hvalued hconv
      exact ⟨.expression hvalued', hy'⟩

end Typing

end Ifj24
