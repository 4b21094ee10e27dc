import Ifj24.Proofs.Refinement

/-!
The check blames no compiler. A fault is found at a statement that the check comes to, and the
check of a statement that is ready fails only for reasons that lie in the program. What passes
is ready to be lowered: the check leaves what each node is, converts literals to ones that
denote constants too, and finds out what calls mean.
-/

open List

namespace Ifj24.Typing

open Ifj24.Tree

variable {limit : Nat} {t : Table} {R S : Prop}

section

variable {x : Expr} {g : Guard} {pos : Pos}

variable {α β : Type} {f : FuncDef} {s : CheckState} {r : VarRef} {d : Diagnostic}

def Fails (m : Checker (Checked α)) (s : CheckState) (d : Diagnostic) : Prop :=
  (m s).1.failure = some d

theorem fails_bind {m : Checker (Checked α)} {k : Checked α → Checker (Checked β)}
    (h : Fails (m >>= k) s d) (hk : ∀ a d s₁, (k ⟨a, some d⟩ s₁).1.failure = some d) :
    Fails m s d ∨ ∃ a s₁, Passes m s a s₁ ∧ Fails (k ⟨a, none⟩) s₁ d := by
  unfold Fails at h ⊢
  rw [bind_run] at h
  cases hm : m s with
  | mk c s₁ =>
    obtain ⟨a, failure⟩ := c
    rw [hm] at h
    cases failure with
    | some d' =>
      rw [hk] at h
      exact .inl h
    | none => exact .inr ⟨a, s₁, hm, h⟩

theorem fails_map {m : Checker (Checked α)} {g : α → β}
    (h : Fails (do return (← m).map g) s d) : Fails m s d := by
  rcases fails_bind h fun _ _ _ => rfl with h | ⟨a, s₁, -, h⟩
  · exact h
  · cases h

theorem stmts_cons_fails {x : Stmt} {xs : List Stmt} (h : Fails (stmts f (x :: xs)) s d) :
    Fails (stmt f x) s d ∨ ∃ y s₁, Passes (stmt f x) s y s₁ ∧ Fails (stmts f xs) s₁ d := by
  rw [stmts] at h
  rcases fails_bind h fun _ _ _ => rfl with h | ⟨y, s₁, hy, h⟩
  · exact .inl h
  · exact .inr ⟨y, s₁, hy, fails_map h⟩

theorem while_fails {body : Block} (h : Fails (stmt f (.while pos g body)) s d) :
    Fails (guard g) s d ∨ ∃ g' s₁, Passes (guard g) s g' s₁ ∧ Fails (stmts f body.stmts) s₁ d := by
  rw [stmt] at h
  rcases fails_bind h fun _ _ _ => rfl with h | ⟨g', s₁, hg, h⟩
  · exact .inl h
  · rcases fails_bind h fun _ _ _ => rfl with h | ⟨ys, s₂, -, h⟩
    · exact .inr ⟨g', s₁, hg, h⟩
    · cases h

theorem ifElse_fails {yes : Block} {no : Option Else}
    (h : Fails (stmt f (.ifElse pos g yes no)) s d) :
    Fails (guard g) s d ∨ ∃ g' s₁, Passes (guard g) s g' s₁ ∧
      (Fails (stmts f yes.stmts) s₁ d ∨ ∃ ys s₂ e, Passes (stmts f yes.stmts) s₁ ys s₂ ∧
        no = some e ∧ Fails (stmts f e.body.stmts) s₂ d) := by
  rw [stmt] at h
  rcases fails_bind h fun _ _ _ => rfl with h | ⟨g', s₁, hg, h⟩
  · exact .inl h
  refine .inr ⟨g', s₁, hg, ?_⟩
  rcases fails_bind h fun _ _ _ => rfl with h | ⟨ys, s₂, hys, h⟩
  · exact .inl h
  cases no with
  | none => cases h
  | some e =>
    rcases fails_bind h fun _ _ _ => rfl with h | ⟨zs, s₃, -, h⟩
    · exact .inr ⟨ys, s₂, e, hys, rfl, h⟩
    · cases h

theorem storeNullability_fails (h : Fails (storeNullability r y x) s d) : Blames R S d := by
  rw [Fails, storeNullability, get_bind_apply] at h
  cases hnullable : (s.table.var r).nullable with
  | no =>
    simp only [hnullable] at h
    cases hy : y.nullable with
    | true =>
      rw [hy] at h
      cases h
      exact .of_kind rfl
    | false =>
      rw [hy] at h
      cases h
  | unknown | yes =>
    simp only [hnullable] at h
    cases h

def IsNull : Expr → Prop
  | .value v => v.null = true
  | .expression e => ∃ v : Value, e.items = [.value v] ∧ v.null = true
  | .variable _ | .operand _ | .truth _ | .call _ => False

theorem null_of_leaf (h : leaf t x slot = .ok y)
    (hy : y.mode = .null) : ∃ v : Value, x = .value v ∧ v.null = true := by
  unfold leaf at h
  split at h
  · rename_i v
    cases hnull : v.null with
    | true => exact ⟨v, rfl, hnull⟩
    | false =>
      rw [hnull] at h
      cases h
      cases hy
  · dsimp only at h
    split at h
    · cases h
      cases hy
    · cases h
  · cases h

/-- An operator computes something that is not null. So null is the only operand that
is left at the end only if it was the only one all along. -/
theorem null_of_evaluateItems
    (h : evaluateItems t i rest stack xs = .ok [y] ys) (hy : y.mode = .null) :
    (rest = [] ∧ stack = [y]) ∨
      ∃ v : Value, rest = [.value v] ∧ v.null = true ∧ stack = [] := by
  induction rest generalizing i stack xs with
  | nil =>
    cases h
    exact .inl ⟨rfl, rfl⟩
  | cons x rest ih =>
    have hleaf (h : (ofExcept (leaf t x (some i)) >>= fun z =>
          evaluateItems t (i + 1) rest (z :: stack)) xs = .ok [y] ys) :
        ∃ v : Value, x :: rest = [.value v] ∧ v.null = true ∧ stack = [] := by
      obtain ⟨z, hz, h⟩ := ofExcept_bind_eq_ok h
      rcases ih h with ⟨rfl, hstack⟩ | ⟨v, -, -, hstack⟩
      · cases hstack
        obtain ⟨v, rfl, hnull⟩ := null_of_leaf hz hy
        exact ⟨v, rfl, hnull, rfl⟩
      · cases hstack
    cases x with
    | value | «variable» => exact .inr (hleaf h)
    | operand o =>
      rcases stack with _ | ⟨r, _ | ⟨l, below⟩⟩
      · cases h
      · cases h
      · obtain ⟨type, items, -, h⟩ := bind_eq_ok h
        obtain ⟨_, _, -, h⟩ := bind_eq_ok h
        rcases ih h with ⟨-, hstack⟩ | ⟨v, -, -, hstack⟩
        · cases hstack
          cases hy
        · cases hstack
    | expression | truth | call => cases h

theorem null_of_expression (h : expression t e = .ok y e') (hy : y.mode = .null) :
    IsNull (.expression e) ∧ e'.pos = e.pos := by
  obtain ⟨xs, hitems, rfl⟩ := expression_cases h
  rcases null_of_evaluateItems hitems hy with ⟨-, hstack⟩ | ⟨v, hv, hnull, -⟩
  · cases hstack
  · exact ⟨⟨v, hv, hnull⟩, rfl⟩

theorem isNull_of_value (h : value t x = .ok y x') (hy : y.mode = .null) :
    IsNull x ∧ x'.pos = x.pos := by
  obtain ⟨hleaf, rfl⟩ | ⟨e, e', rfl, hexpr, rfl⟩ | ⟨c, c', rfl, hcall, rfl⟩ := value_cases h
  · obtain ⟨v, rfl, hnull⟩ := null_of_leaf hleaf hy
    exact ⟨hnull, rfl⟩
  · exact null_of_expression hexpr hy
  · obtain ⟨f, args, -, -, -, -, rfl⟩ := call_cases hcall
    by_cases hvoid : f.result = .void <;> simp [hvoid] at hy

theorem sound_slots_of_ready (hx : x.Ready limit C) : ∀ v, some v ∈ slots x → v.Sound limit := by
  cases x with
  | expression e => exact sound_slots hx.items
  | call c => exact sound_slots fun x hx' => (hx.args x hx').sound
  | value | «variable» | operand | truth => exact hx.elim

theorem Prepared.literals (h : Prepared x) : Literals (slots x) := by
  obtain ⟨limit, C, hlimit, hx⟩ := h
  exact ⟨limit, hlimit, sound_slots_of_ready hx⟩

theorem assignment_fails (hR : R → Resolved s.table (leaves x)) (hS : S → Prepared x)
    (h : Fails (assignment r x) s d) :
    Blames R S d ∨ (s.table.var r).isDiscard = false ∧ (s.table.var r).type.isResolved = false ∧
      IsNull x ∧ d = ⟨x.pos, .untypedNull (s.table.var r).name⟩ := by
  have hvalue := refining_value (F := fun _ _ => True) hR hS
  rw [Fails, assignment, get_bind_apply] at h
  dsimp only at h
  cases hrun : value s.table x with
  | error d' z =>
    rw [hrun] at h hvalue
    cases h
    cases hvalue with
    | error _ hd => exact .inl hd
  | ok y z =>
    rw [hrun] at h hvalue
    dsimp only at h
    split at h
    · cases h
      exact .inl (.of_kind rfl)
    cases hdisc : (s.table.var r).isDiscard with
    | true =>
      simp only [hdisc, if_true] at h
      cases h
    | false =>
      simp only [hdisc, Bool.false_eq_true, if_false] at h
      cases hres : (s.table.var r).type.isResolved with
      | false =>
        simp only [hres, Bool.not_false, if_true] at h
        by_cases hnull : y.mode = .null
        · simp only [hnull, if_true] at h
          obtain ⟨hx', hpos⟩ := isNull_of_value hrun hnull
          cases h
          exact .inr ⟨rfl, rfl, hx', by rw [hpos]⟩
        · simp only [hnull, if_false] at h
          exact .inl (storeNullability_fails h)
      | true =>
        simp only [hres, Bool.not_true, Bool.false_eq_true, if_false] at h
        left
        split at h
        · exact storeNullability_fails h
        · cases hvalue with
          | ok _ hy =>
            have hconv := refining_convertValue (R := R) (F := fun _ _ => True) (t := s.table)
              hy (fun hs => (hS hs).literals) (s.table.var r).type
            generalize convertValue y (s.table.var r).type z = result at h hconv
            cases hconv with
            | error _ hd =>
              cases h
              exact hd
            | @ok y' z' =>
              cases y' with
              | none =>
                cases h
                exact .of_kind rfl
              | some y' => exact storeNullability_fails h

theorem assign_fails (h : Fails (stmt f (.assign pos r x)) s d) :
    Blames R S d ∨ Fails (assignment r x) s d := by
  unfold Fails stmt at h
  rw [get_bind_apply] at h
  cases hmut : Table.canMutate (s.table.var r) with
  | false =>
    rw [hmut] at h
    cases h
    exact .inl (.of_kind rfl)
  | true =>
    rw [hmut] at h
    exact .inr (fails_map h)

theorem callStmt_fails (hR : R → Resolved s.table c.args) (hS : S → Terms c.args)
    (h : Fails (callStmt c) s d) : Blames R S d := by
  have hcall := refining_call (F := fun _ _ => True) hR hS
  rw [Fails, callStmt, get_bind_apply] at h
  generalize call s.table c = result at h hcall
  cases hcall with
  | error _ hd =>
    cases h
    exact hd
  | ok =>
    dsimp only at h
    split at h <;> cases h
    exact .of_kind rfl

theorem returned_fails (hR : R → Resolved s.table (leaves x)) (hS : S → Prepared x)
    (h : Fails (returned f x) s d) : Blames R S d := by
  have hvalue := refining_value (F := fun _ _ => True) hR hS
  rw [Fails, returned, get_bind_apply] at h
  generalize value s.table x = result at h hvalue
  cases hvalue with
  | error _ hd =>
    cases h
    exact hd
  | @ok y z _ hy =>
    dsimp only at h
    split at h
    · cases h
      exact .of_kind rfl
    split at h
    · cases h
      exact .of_kind rfl
    split at h
    · cases h
    · have hconv := refining_convertValue (R := R) (F := fun _ _ => True) (t := s.table)
        hy (fun hs => (hS hs).literals) f.result
      generalize convertValue y f.result z = result at h hconv
      cases hconv with
      | error _ hd =>
        cases h
        exact hd
      | @ok y' z' =>
        cases y' with
        | none =>
          cases h
          exact .of_kind rfl
        | some y' => cases h

theorem returnStmt_fails {x : Option Expr} (hR : R → ∀ e, x = some e → Resolved s.table (leaves e))
    (hS : S → ∀ e, x = some e → Prepared e) (h : Fails (returnStmt f pos x) s d) :
    Blames R S d := by
  unfold Fails returnStmt at h
  rw [modify_bind_apply] at h
  cases x with
  | none =>
    dsimp only at h
    split at h <;> cases h
    exact .of_kind rfl
  | some e =>
    dsimp only at h
    split at h
    · cases h
      exact .of_kind rfl
    · exact returned_fails (s := { s with returns := s.returns + 1 }) (fun hr => hR hr e rfl)
        (fun hs => hS hs e rfl) (fails_map h)

def guardLeaves : Guard → List Expr
  | .compare c => c.left.items ++ c.right.items
  | .unwrap subject _ => [.variable subject]

theorem guard_fails (hR : R → Resolved s.table (guardLeaves g))
    (hS : S → ∃ limit, Limit limit ∧ g.Ready limit) (h : Fails (guard g) s d) : Blames R S d := by
  unfold Fails guard at h
  rw [get_bind_apply] at h
  cases g with
  | compare c =>
    have htruth := refining_truth (S := S) (F := fun _ _ => True)
      (fun hr => (hR hr).mono fun _ => mem_append_left _)
      (fun hr => (hR hr).mono fun _ => mem_append_right _) fun hs => by
        obtain ⟨limit, hlimit, hg⟩ := hS hs
        exact ⟨⟨limit, hlimit, hg.left⟩, limit, hlimit, hg.right⟩
    dsimp only at h
    generalize truth s.table c = result at h htruth
    cases htruth with
    | ok => cases h
    | error _ hd =>
      cases h
      exact hd
  | unwrap subject n =>
    dsimp only at h
    cases hleaf : leaf s.table (.variable subject) none with
    | error d' =>
      rw [hleaf] at h
      cases h
      exact blames_leaf hleaf hR fun _ => by simp [Terms, Expr.shape]
    | ok y =>
      rw [hleaf] at h
      dsimp only at h
      split at h <;> cases h
      exact .of_kind rfl

/-- The nodes of the expressions of a statement, without those of the statements inside it. -/
def ownLeaves : Stmt → List Expr
  | .declare _ _ x | .assign _ _ x => leaves x
  | .call c => c.args
  | .ifElse _ g _ _ | .while _ g _ => guardLeaves g
  | .return _ none => []
  | .return _ (some x) => leaves x
  | .elseStart _ | .blockEnd _ => []

/-- What the check finds at a statement itself, before the statements inside it. -/
def FailsAt (f : FuncDef) (s : CheckState) (d : Diagnostic) : Stmt → Prop
  | .ifElse _ g _ _ | .while _ g _ => Fails (guard g) s d
  | .elseStart _ => False
  | x => Fails (stmt f x) s d

end

section

variable {C : Call → Prop} {f : FuncDef} {s s' : CheckState} {d : Diagnostic} {x : Stmt}

mutual

theorem exists_reaches_of_stmt (x : Stmt) {s : CheckState} (h : Fails (stmt f x) s d) :
    ∃ s' z, Reaches f s [x] s' z ∧ FailsAt f s' d z := by
  cases x with
  | ifElse pos g yes no =>
    rcases ifElse_fails h with hfails | ⟨g', s₁, hg, hfails | ⟨ys, s₂, e, hys, hno, hfails⟩⟩
    · exact ⟨s, _, .here, hfails⟩
    · obtain ⟨s', z, hz, hd⟩ := exists_reaches_of_fails yes.stmts hfails
      exact ⟨s', z, .yes hg hz, hd⟩
    · cases no with
      | none => cases hno
      | some e' =>
        rw [← Option.some.inj hno] at hfails
        obtain ⟨s', z, hz, hd⟩ := exists_reaches_of_fails e'.body.stmts hfails
        exact ⟨s', z, .no hg hys hz, hd⟩
  | «while» pos g body =>
    rcases while_fails h with h | ⟨g', s₁, hg, h⟩
    · exact ⟨s, _, .here, h⟩
    · obtain ⟨s', z, hz, hd⟩ := exists_reaches_of_fails body.stmts h
      exact ⟨s', z, .body hg hz, hd⟩
  | elseStart e =>
    rw [stmt] at h
    rcases fails_bind h fun a d s₁ => rfl with h | ⟨ys, s₁, hys, h⟩
    · obtain ⟨s', z, hz, hd⟩ := exists_reaches_of_fails e.body.stmts h
      exact ⟨s', z, .alone hz, hd⟩
    · cases h
  | declare | assign | call | «return» | blockEnd => exact ⟨s, _, .here, h⟩
termination_by structural x

/-- A fault is found at a statement that the check comes to. -/
theorem exists_reaches_of_fails (xs : List Stmt) {s : CheckState} (h : Fails (stmts f xs) s d) :
    ∃ s' x, Reaches f s xs s' x ∧ FailsAt f s' d x := by
  cases xs with
  | nil => cases h
  | cons x rest =>
    rcases stmts_cons_fails h with h | ⟨y, s₁, hy, h⟩
    · obtain ⟨s', z, hz, hd⟩ := exists_reaches_of_stmt x h
      exact ⟨s', z, hz.weaken, hd⟩
    · obtain ⟨s', z, hz, hd⟩ := exists_reaches_of_fails rest h
      exact ⟨s', z, .later hy hz, hd⟩
termination_by structural xs

end

theorem function_fails (h : (function fn s).1.1.failure = some d) :
    Blames R S d ∨ Fails (stmts fn.definition fn.body.stmts) { s with returns := 0 } d := by
  unfold function at h
  rw [modify_bind_apply, bind_run] at h
  unfold Fails
  cases hstmts : stmts fn.definition fn.body.stmts { s with returns := 0 } with
  | mk c s₁ =>
    obtain ⟨ys, failure⟩ := c
    rw [hstmts] at h
    cases failure with
    | some d' => exact .inr h
    | none =>
      simp only [Option.isSome_none, Bool.false_eq_true, if_false] at h
      rw [get_bind_apply] at h
      split at h
      · cases h
        exact .inl (.of_kind rfl)
      · cases h

theorem exists_comes_of_fails {fns : List Function} (h : (functions fns s).1.1.failure = some d) :
    Blames R S d ∨ ∃ s' x f, Comes s fns s' x ∧ FailsAt f s' d x := by
  induction fns generalizing s with
  | nil => cases h
  | cons fn fns ih =>
    rw [functions, bind_run] at h
    cases hfn : function fn s with
    | mk c s₁ =>
      obtain ⟨⟨fn', failure⟩, message⟩ := c
      rw [hfn] at h
      cases failure with
      | some d' =>
        rcases function_fails (R := R) (S := S) (s := s) (d := d) (by rw [hfn]; exact h) with
          hd | hstmts
        · exact .inl hd
        · obtain ⟨s', x, hx, hfails⟩ := exists_reaches_of_fails _ hstmts
          exact .inr ⟨s', x, _, .here hx, hfails⟩
      | none =>
        rcases ih h with hd | ⟨s', x, f, hx, hfails⟩
        · exact .inl hd
        · exact .inr ⟨s', x, f, .later hfn hx, hfails⟩

theorem Reaches.ready {xs : List Stmt} (h : Reaches f s xs s' x) (hxs : AllReady limit C xs) :
    x.Ready limit C := by
  induction h with
  | here => exact hxs.1
  | later _ _ ih => exact ih hxs.2
  | yes _ _ ih | no _ _ _ ih =>
    have hx := hxs.1
    unfold Stmt.Ready at hx
    first | exact ih hx.2.1 | exact ih hx.2.2
  | body _ _ ih => exact ih hxs.1.2
  | alone _ _ => exact hxs.1.elim

theorem Comes.ready {fns : List Function} (h : Comes s fns s' x)
    (hfns : ∀ fn ∈ fns, AllReady limit C fn.body.stmts) : x.Ready limit C := by
  induction h with
  | here h => exact h.ready (hfns _ mem_cons_self)
  | later _ _ ih => exact ih fun fn hfn => hfns fn (mem_cons_of_mem _ hfn)

/-- The check blames a statement for what the walk over its expressions may say, or for a null
that is stored where no type is known. -/
theorem failsAt_cases (hR : R → Resolved s.table (ownLeaves x))
    (hS : S → ∃ limit C, Limit limit ∧ x.Ready limit C) (h : FailsAt f s d x) :
    Blames R S d ∨ ∃ pos r value, (x = .declare pos r value ∨ x = .assign pos r value) ∧
      (s.table.var r).isDiscard = false ∧ (s.table.var r).type.isResolved = false ∧
      IsNull value ∧ d = ⟨value.pos, .untypedNull (s.table.var r).name⟩ := by
  cases x with
  | declare pos r value =>
    have h : Fails (stmt f (.declare pos r value)) s d := h
    rw [stmt] at h
    exact (assignment_fails hR hS (fails_map h)).imp id fun h => ⟨pos, r, value, .inl rfl, h⟩
  | assign pos r value =>
    rcases assign_fails h with hd | h
    · exact .inl hd
    · exact (assignment_fails hR hS h).imp id fun h => ⟨pos, r, value, .inr rfl, h⟩
  | call c =>
    have h : Fails (stmt f (.call c)) s d := h
    rw [stmt] at h
    refine .inl (callStmt_fails hR (fun hs => ?_) (fails_map h))
    obtain ⟨limit, C, -, hc⟩ := hS hs
    exact terms_of_isTerm hc.args
  | ifElse | «while» =>
    refine .inl (guard_fails hR (fun hs => ?_) h)
    obtain ⟨limit, C, hlimit, hx⟩ := hS hs
    unfold Stmt.Ready at hx
    exact ⟨limit, hlimit, hx.1⟩
  | «return» pos value =>
    have h : Fails (stmt f (.return pos value)) s d := h
    rw [stmt] at h
    refine .inl (returnStmt_fails (fun hr e he => ?_) (fun hs e he => ?_) (fails_map h))
    all_goals subst he
    · exact hR hr
    · exact hS hs
  | elseStart | blockEnd => cases h

end

section

variable {xs ys : List Expr} {e e' : Expression} {C : Call → Prop} {orig : List (Option Value)}

theorem Steps.sound (hlimit : Limit limit) {a b : Stage} (h : Steps F orig a b)
    (ha : ∀ v, some v ∈ a.slots → v.Sound limit) : ∀ v, some v ∈ b.slots → v.Sound limit := by
  induction h with
  | refl => exact ha
  | tail _ h ih =>
    cases h with
    | typed | settled | bound => exact ih
    | @converted vs t k v w type hnow _ hw =>
      intro u hu
      rcases mem_or_eq_of_mem_set hu with hu | heq
      · exact ih u hu
      · cases heq
        rcases Value.coerce_cases hlimit (ih v (mem_of_getElem? hnow)) type with
          ⟨w', hw', hsound⟩ | ⟨d, hd, -⟩
        · cases hw.symm.trans hw'
          exact hsound
        · cases hw.symm.trans hd

theorem exists_arithmetic_annotated {o o' : Operand} (hop : o'.op = o.op)
    (h : ∃ op, Code.arithmetic o = .ok op) : ∃ op, Code.arithmetic o' = .ok op := by
  unfold Code.arithmetic at h ⊢
  rw [hop]
  cases ho : o.op <;> simp [ho] at h ⊢

theorem sound_of_bare (hbare : bare ys = bare xs) (hlit : ∀ v, some v ∈ slots ys → v.Sound limit)
    (h : ∀ x ∈ xs, x.Sound limit) : ∀ y ∈ ys, y.Sound limit := by
  have hother : ∀ y ∈ ys, literal? y = none → y.Sound limit := by
    refine forall_of_map (fun x y hxy hx hy => ?_) hbare fun x hx _ => h x hx
    cases y with
    | value => cases hy
    | «variable» => trivial
    | operand o =>
      cases x with
      | operand o' =>
        have hop := congrArg Operand.op (Expr.operand.inj hxy)
        change o.op = o'.op at hop
        exact exists_arithmetic_annotated hop (hx rfl)
      | _ => cases hxy
    | expression | truth | call =>
      cases x <;> cases hxy
      exact hx rfl
  intro y hy
  cases hv : literal? y with
  | none => exact hother y hy hv
  | some v =>
    have hsound := hlit v (mem_map.mpr ⟨y, hy, hv⟩)
    cases y <;> cases hv
    exact hsound

theorem ready_of_bare (hbare : bare e' = bare e) (hlit : ∀ v, some v ∈ slots e' → v.Sound limit)
    (he : e.Ready limit) : e'.Ready limit where
  finished := (congrArg ExpressionOf.finished hbare).trans he.finished
  items := sound_of_bare (congrArg ExpressionOf.items hbare) hlit he.items
  single := by
    have hitems : e'.items.map bareItem = e.items.map bareItem := congrArg ExpressionOf.items hbare
    have hshape : Expr.shape = Expr.shape ∘ bareItem := funext fun x => (shape_bareItem x).symm
    rw [hshape, ← map_map, hitems, map_map, ← hshape]
    exact he.single

theorem call_ready_of_bare {c c' : Call} (hbare : bare c' = bare c)
    (hlit : ∀ v, some v ∈ slots c' → v.Sound limit) (hc' : c'.Resolved) (hc : c.Ready limit C) :
    c'.Ready limit CallOf.Resolved := by
  have hargs : bare c'.args = bare c.args := congrArg CallOf.args hbare
  refine ⟨fun x hx => ⟨?_, ?_⟩, hc'⟩
  · exact sound_of_bare hargs hlit (fun y hy => (hc.args y hy).sound) x hx
  · exact forall_of_map (fun y z hyz hy => shape_of_bareItem hyz ▸ hy) hargs
      (fun y hy => (hc.args y hy).shape) x hx

theorem guard_ready_of_bare {g g' : Guard} (hbare : bare g' = bare g)
    (hlit : ∀ v, some v ∈ slots g' → v.Sound limit) (hg : g.Ready limit) : g'.Ready limit := by
  cases g' with
  | unwrap => trivial
  | compare c' =>
    cases g with
    | unwrap => cases hbare
    | compare c =>
      have hc : bare c' = bare c := Guard.compare.inj hbare
      have hop : (bare c').op = (bare c).op := congrArg TruthOf.op hc
      refine ⟨ready_of_bare (congrArg TruthOf.left hc) (fun v hv => ?_) hg.left,
        ready_of_bare (congrArg TruthOf.right hc) (fun v hv => ?_) hg.right, ?_⟩
      · exact hlit v (mem_append_left _ hv)
      · exact hlit v (mem_append_right _ hv)
      · rw [show c'.op = c.op from hop]
        exact hg.op

theorem sound_slots_of_guard {g : Guard} (hg : g.Ready limit) :
    ∀ v, some v ∈ slots g → v.Sound limit := by
  cases g with
  | unwrap => exact nofun
  | compare c =>
    intro v hv
    rcases mem_append.mp hv with hv | hv
    · exact sound_slots hg.left.items v hv
    · exact sound_slots hg.right.items v hv

/-- Every built-in function that the table knows has code. -/
def Stocked (t : Table) : Prop :=
  ∀ name f, t.lookupFunction? name = some f → f.builtin = true →
    ∃ b, Code.Builtin.ofName? name = some b

theorem resolved_of_call {c c' : Call} (ht : Stocked t) (h : call t c = .ok y c') :
    c'.Resolved := by
  obtain ⟨f, args, hf, -, -, rfl, -⟩ := call_cases h
  exact ⟨f, rfl, ht c.name f hf⟩

theorem resolved_of_value {x z : Expr} (ht : Stocked t) (h : value t x = .ok y z) :
    ∀ c, z = .call c → c.Resolved := by
  rintro c rfl
  obtain ⟨hleaf, rfl⟩ | ⟨e, e', rfl, -, he⟩ | ⟨c₁, c', rfl, hcall, hc⟩ := value_cases h
  · cases hleaf
  · cases he
  · cases hc
    exact resolved_of_call ht hcall

theorem resolved_of_convertValue {x x' : Expr} (hx : ∀ c, x = .call c → c.Resolved)
    (h : convertValue y type x = .ok z x') : ∀ c, x' = .call c → c.Resolved := by
  obtain ⟨rfl, -⟩ | ⟨e, e', -, -, rfl⟩ := convertValue_cases h
  · exact hx
  · exact nofun

variable {f : FuncDef} {s s' : CheckState} {x x' : Expr}

theorem resolved_of_assignment (ht : Stocked s.table) (h : Passes (assignment r x) s x' s') :
    ∀ c, x' = .call c → c.Resolved := by
  obtain ⟨y, z, hvalue, -, h⟩ := assignment_cases h
  have hz := resolved_of_value ht hvalue
  obtain ⟨-, rfl, -⟩ | ⟨-, ⟨-, -, h⟩ | ⟨-, ⟨-, h⟩ | ⟨y', z', hconv, h⟩⟩⟩ := h
  · exact hz
  · exact (storeNullability_passes h).1 ▸ hz
  · exact (storeNullability_passes h).1 ▸ hz
  · exact (storeNullability_passes h).1 ▸ resolved_of_convertValue hz hconv

theorem resolved_of_returned (ht : Stocked s.table) (h : Passes (returned f x) s x' s') :
    ∀ c, x' = .call c → c.Resolved := by
  obtain ⟨y, z, hvalue, -, -, -, ⟨-, rfl⟩ | ⟨y', hconv⟩⟩ := returned_cases h
  · exact resolved_of_value ht hvalue
  · exact resolved_of_convertValue (resolved_of_value ht hvalue) hconv

theorem Walked.value_ready (hlimit : Limit limit)
    (hw : Walked (fun _ _ => True) t x D (⟨x', none⟩, s'))
    (hcall : ∀ c, x' = .call c → c.Resolved) (hx : x.Ready limit C) :
    x'.Ready limit CallOf.Resolved := by
  have hlit := hw.trail.steps.sound hlimit (sound_slots_of_ready hx)
  have hbare := hw.same
  cases x with
  | expression e =>
    cases x' with
    | expression e' => exact ready_of_bare (Expr.expression.inj hbare) hlit hx
    | _ => cases hbare
  | call c =>
    cases x' with
    | call c' => exact call_ready_of_bare (Expr.call.inj hbare) hlit (hcall c' rfl) hx
    | _ => cases hbare
  | value | «variable» | operand | truth => exact hx.elim

theorem Stocked.retains {u : Table} (ht : Stocked t) (h : t.Retains u) : Stocked u := by
  intro name f hf
  rw [← h.rest] at ht
  exact ht name f hf

theorem Stocked.stmts {xs ys : List Stmt} (ht : Stocked s.table) (h : Passes (stmts f xs) s ys s') :
    Stocked s'.table := by
  have hw := walked_stmts (F := fun _ _ => True) (f := f) (s := s) xs fun _ _ _ _ _ => trivial
  rw [h] at hw
  exact ht.retains hw.trail.steps.retains

theorem guard_ready {g g' : Guard} (hlimit : Limit limit) (hg : g.Ready limit)
    (ht : Stocked s.table) (h : Passes (guard g) s g' s') : g'.Ready limit ∧ Stocked s'.table := by
  have hw := walked_guard (F := fun _ _ => True) (s := s) (g := g) fun _ _ => trivial
  rw [h] at hw
  have hsteps := hw.trail.steps
  exact ⟨guard_ready_of_bare hw.same (hsteps.sound hlimit (sound_slots_of_guard hg)) hg,
    ht.retains hsteps.retains⟩

mutual

theorem stmt_ready (hlimit : Limit limit) (x : Stmt) {y : Stmt} {s s' : CheckState}
    (hx : x.Ready limit C) (ht : Stocked s.table) (h : Passes (stmt f x) s y s') :
    y.Ready limit CallOf.Resolved := by
  cases x with
  | declare pos r x =>
    rw [stmt] at h
    obtain ⟨x', hrun, rfl⟩ := passes_map h
    have hw := walked_assignment (F := fun _ _ => True) r x s
    rw [hrun] at hw
    exact hw.value_ready hlimit (resolved_of_assignment ht hrun) hx
  | assign pos r x =>
    rw [stmt, Passes, get_bind_apply] at h
    split at h
    · obtain ⟨x', hrun, rfl⟩ := passes_map h
      have hw := walked_assignment (F := fun _ _ => True) r x s
      rw [hrun] at hw
      exact hw.value_ready hlimit (resolved_of_assignment ht hrun) hx
    · cases h
  | call c =>
    rw [stmt] at h
    obtain ⟨c', hrun, rfl⟩ := passes_map h
    have hw := walked_callStmt (F := fun _ _ => True) c s
    rw [hrun] at hw
    obtain ⟨y, hcall, -⟩ := callStmt_cases hrun
    refine call_ready_of_bare hw.same (hw.trail.steps.sound hlimit ?_) (resolved_of_call ht hcall) hx
    exact sound_slots fun x hx' => (hx.args x hx').sound
  | ifElse pos g yes no =>
    unfold Stmt.Ready at hx
    obtain ⟨hg, hyes, hno⟩ := hx
    obtain ⟨g', s₁, ys, s₂, hguard, hys, h⟩ := ifElse_passes h
    obtain ⟨hg', ht₁⟩ := guard_ready hlimit hg ht hguard
    have hys' := stmts_ready hlimit yes.stmts hyes ht₁ hys
    cases no with
    | none =>
      obtain ⟨rfl, -⟩ := h
      exact ⟨hg', hys', trivial⟩
    | some e =>
      obtain ⟨zs, hzs, rfl⟩ := h
      exact ⟨hg', hys', stmts_ready hlimit e.body.stmts hno (ht₁.stmts hys) hzs⟩
  | «while» pos g body =>
    obtain ⟨g', s₁, ys, hguard, hys, rfl⟩ := while_passes h
    obtain ⟨hg', ht₁⟩ := guard_ready hlimit hx.1 ht hguard
    exact ⟨hg', stmts_ready hlimit body.stmts hx.2 ht₁ hys⟩
  | «return» pos x =>
    rw [stmt] at h
    obtain ⟨x', hrun, rfl⟩ := passes_map h
    unfold Passes returnStmt at hrun
    rw [modify_bind_apply] at hrun
    cases x with
    | none =>
      dsimp only at hrun
      split at hrun <;> cases hrun
      trivial
    | some x =>
      dsimp only at hrun
      split at hrun
      · cases hrun
      · obtain ⟨x', hreturned, rfl⟩ := passes_map hrun
        have hw := walked_returned (F := fun _ _ => True) (f := f) x
          { s with returns := s.returns + 1 }
        rw [hreturned] at hw
        exact hw.value_ready hlimit
          (resolved_of_returned (s := { s with returns := s.returns + 1 }) ht hreturned) hx
  | elseStart => exact hx.elim
  | blockEnd e =>
    rw [stmt] at h
    cases h
    trivial
termination_by structural x

/-- What passes the check can be lowered. -/
theorem stmts_ready (hlimit : Limit limit) (xs : List Stmt) {ys : List Stmt} {s s' : CheckState}
    (hxs : AllReady limit C xs) (ht : Stocked s.table) (h : Passes (stmts f xs) s ys s') :
    AllReady limit CallOf.Resolved ys := by
  cases xs with
  | nil =>
    cases h
    trivial
  | cons x rest =>
    obtain ⟨y, s₁, ys', hy, hys, rfl⟩ := stmts_cons_passes h
    have hw := walked_stmt (F := fun _ _ => True) (f := f) (s := s) x fun _ _ _ _ _ => trivial
    rw [hy] at hw
    exact ⟨stmt_ready hlimit x hxs.1 ht hy,
      stmts_ready hlimit rest hxs.2 (ht.retains hw.trail.steps.retains) hys⟩
termination_by structural xs

end

theorem functions_ready {fns fns' : List Function} (hlimit : Limit limit)
    (hfns : ∀ fn ∈ fns, AllReady limit C fn.body.stmts) (ht : Stocked s.table)
    (h : functions fns s = ((⟨fns', none⟩, messages), s')) :
    ∀ fn ∈ fns', AllReady limit CallOf.Resolved fn.body.stmts := by
  induction fns generalizing s fns' messages with
  | nil =>
    cases h
    exact nofun
  | cons fn fns ih =>
    obtain ⟨fn', message, s₁, rest, messages', hfn, hrest, rfl⟩ := functions_cons_passes h
    obtain ⟨ys, hys, rfl⟩ := stmts_of_function hfn
    have ht₀ : Stocked ({ s with returns := 0 } : CheckState).table := ht
    obtain ⟨hfirst, hothers⟩ := forall_mem_cons.mp hfns
    exact forall_mem_cons.mpr ⟨stmts_ready hlimit fn.body.stmts hfirst ht₀ hys,
      ih hothers (ht₀.stmts hys) hrest⟩

/-- A check of a program that is ready fails only for reasons that lie in the program. What
passes is ready to be lowered. -/
theorem check_ready (hlimit : Limit limit) (ht : Stocked t) (hready : parsed.program.Ready limit C)
    (hunused : ∀ d, parsed.unused = some d → d.Ordinary) :
    (∀ d, (check parsed t).failure = some d → d.Ordinary) ∧
      ((check parsed t).failure = none →
        (check parsed t).program.Ready limit CallOf.Resolved) := by
  cases hrun : functions parsed.program.functions ⟨t, 0⟩ with
  | mk pair s =>
    obtain ⟨⟨fns, failure⟩, messages⟩ := pair
    simp only [check, StateT.run, hrun]
    cases failure with
    | some d =>
      refine ⟨fun d' h => ?_, fun h => by cases h⟩
      cases h
      rcases exists_comes_of_fails (R := False) (S := True) (d := d) (by rw [hrun]) with
        hd | ⟨s', x, f, hx, hfails⟩
      · exact hd.program trivial
      · rcases failsAt_cases (R := False) (S := True) False.elim
          (fun _ => ⟨limit, C, hlimit, hx.ready hready⟩) hfails with
          hd | ⟨pos, r, value, -, -, -, -, rfl⟩
        · exact hd.program trivial
        · exact ⟨rfl⟩
    | none => exact ⟨hunused, fun _ => functions_ready hlimit hready ht hrun⟩

/-- The literals among some operands are found in the items, each in its place. -/
def Placed (stack : List Evaluated) (xs : List Expr) : Prop :=
  ∀ y ∈ stack, y.isLiteral = true → ∃ k v, y.slot = some k ∧ xs[k]? = some (.value v)

theorem placed_of_evaluateItems (hitems : e.items = front ++ back)
    (h : evaluateItems t 0 front [] e.items = .ok stack xs) : Placed stack xs := by
  have hstart : Pending (slots e) 0 [] e.items := ⟨nofun, nofun, .nil, fun _ _ => rfl⟩
  have hfront : (bare e.items).drop 0 = bare front ++ bare back := by
    rw [hitems]
    exact map_append
  have hrun := refining_evaluateItems (R := False) (S := False) (F := fun _ _ => True) (t := t)
    False.elim False.elim hfront hstart
  rw [h] at hrun
  cases hrun with
  | ok _ hstack =>
    intro y hy hlit
    have hy := hstack.1.untouched y hy
    obtain ⟨k, v, hk, hv⟩ := hy.site hlit
    rw [← hy.same k hk, slots_items, getElem?_map, Option.map_eq_some_iff] at hv
    obtain ⟨x, hx, hv⟩ := hv
    cases x <;> cases hv
    exact ⟨k, v, hk, hx⟩

theorem placed_of_leaf {y : Evaluated} (hx : xs[i]? = some x)
    (h : leaf t x (some i) = .ok y) : Placed [y] xs := by
  obtain ⟨hslot, hlit⟩ := leaf_ok h
  intro z hz hmode
  obtain rfl := mem_singleton.mp hz
  obtain ⟨v, hv⟩ := Option.isSome_iff_exists.mp (hlit hmode)
  cases x <;> cases hv
  exact ⟨i, v, hslot, hx⟩

end
end Ifj24.Typing
