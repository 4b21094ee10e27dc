import Ifj24.Proofs.Layout
import Ifj24.Proofs.WellTyped

/-!
The machine does what a program means. An expression leaves its value on the data stack, a
guard that does not hold jumps, and statements either come to the code behind them or to a
return, with the frame of the function closed. The induction is on the evaluation; the
frame on top always holds what the environment says, and the frames below never change.
-/

open List

namespace Ifj24.Machine

open Ifj24.Tree Code Meaning Typing State

section

variable {t : Table} {fn : Function} {env : Env} {rest : List Frame} {s : State} {r : VarRef}
  {c : Constant}

theorem place_of_discard (h : (t.var r).isDiscard = true) : place t r = .discard := by
  simp [place, h]

theorem place_of_local (h : (t.var r).isDiscard = false) :
    place t r = .local (t.var r).name (t.var r).id := by
  simp [place, h]

/-- The frame of a function holds the values of its variables, all of which are defined. -/
structure Covers (t : Table) (fn : Function) (env : Env) (f : Frame) : Prop where
  values : ∀ name id c, env name id = some c → f (.local name id) = some (some c)
  defined : ∀ r ∈ frameVars fn, (t.var r).isDiscard = false → (f (place t r)).isSome = true

structure Runs (t : Table) (fn : Function) (env : Env) (rest : List Frame) (s : State) :
    Prop where
  frame : ∃ f, s.frames = f :: rest ∧ Covers t fn env f
  discard : s.ready = true

theorem Runs.withCode (h : Runs t fn env rest s) (code : List Instr) :
    Runs t fn env rest { s with code } := ⟨h.frame, h.discard⟩

theorem Runs.of_frames (h : Runs t fn env rest s) (hframes : s'.frames = s.frames)
    (hdisc : s'.ready = true) : Runs t fn env rest s' := ⟨hframes ▸ h.frame, hdisc⟩

theorem Covers.set (h : Covers t fn env f) (hr : (t.var r).isDiscard = false) :
    Covers t fn (env.set t r c) (f.set (place t r) (some c)) where
  values name id d hd := by
    rw [place_of_local hr]
    simp only [Env.set, hr, Bool.false_eq_true, if_false] at hd
    by_cases hname : name = (t.var r).name ∧ id = (t.var r).id
    · rw [if_pos hname] at hd
      rw [hname.1, hname.2, Frame.set_self, hd]
    · rw [if_neg hname] at hd
      rw [Frame.set_of_ne]
      · exact h.values name id d hd
      · intro heq
        injection heq with hname' hid
        exact hname ⟨hname', hid⟩
  defined q hq hdisc := by
    by_cases hplace : place t q = place t r
    · rw [hplace, Frame.set_self]
      rfl
    · rw [Frame.set_of_ne _ _ hplace]
      exact h.defined q hq hdisc

theorem Runs.load (h : Runs t fn env rest s) (hr : env.get t r = some c) :
    s.load (place t r) = some c := by
  obtain ⟨f, hf, hcovers⟩ := h.frame
  unfold Env.get at hr
  cases hdisc : (t.var r).isDiscard with
  | true =>
    rw [hdisc] at hr
    cases hr
  | false =>
    rw [hdisc] at hr
    have hvalue := hcovers.values _ _ _ hr
    rw [place_of_local hdisc]
    simp only [State.load, hf, hvalue]
    rfl

structure Keeps (s s' : State) : Prop where
  code : s'.code = s.code
  calls : s'.calls = s.calls
  data : s'.data = s.data
  history : s'.history = s.history

theorem Keeps.trans {s₁ : State} (h : Keeps { s with code := k, data := d } s₁)
    (h' : Keeps { s₁ with code := k', data := d' } s') :
    Keeps { s with code := k', data := d' } s' :=
  ⟨h'.code, h'.calls.trans h.calls, h'.data, h'.history.trans h.history⟩

theorem Runs.store (h : Runs t fn env rest s) (hr : r ∈ frameVars fn ∨ Assignable t env r)
    (c : Constant) :
    ∃ s', s.store (place t r) c = some s' ∧ Keeps s s' ∧ Runs t fn (env.set t r c) rest s' := by
  obtain ⟨f, hf, hcovers⟩ := h.frame
  cases hdisc : (t.var r).isDiscard with
  | true =>
    have henv : env.set t r c = env := by simp [Env.set, hdisc]
    refine ⟨{ s with globals := s.globals.set .discard (some c) }, ?_, ⟨rfl, rfl, rfl, rfl⟩, ?_⟩
    · rw [place_of_discard hdisc]
      simp only [State.store, h.discard, if_true]
    · rw [henv]
      exact ⟨⟨f, hf, hcovers⟩, by simp [State.ready]⟩
  | false =>
    have hdef : (f (place t r)).isSome = true := by
      rcases hr with hr | hr | hr
      · exact hcovers.defined r hr hdisc
      · rw [hdisc] at hr
        cases hr
      · obtain ⟨d, hd⟩ := Option.isSome_iff_exists.mp hr
        unfold Env.get at hd
        rw [hdisc] at hd
        rw [place_of_local hdisc, hcovers.values _ _ _ hd]
        rfl
    refine ⟨{ s with frames := f.set (place t r) (some c) :: rest }, ?_, ⟨rfl, rfl, rfl, rfl⟩,
      ⟨_, rfl, hcovers.set hdisc⟩, h.discard⟩
    rw [place_of_local hdisc] at hdef ⊢
    simp only [State.store, hf, hdef, if_true]

end

variable {x : Expr} {data args : List Constant} {xs : List Expr}
  {σ : LowerState} {g : Guard} {env' : Env}

section

variable {I : Interp} {program : List Instr} {t : Table} {fn : Function} {env : Env}
  {rest : List Frame} {s : State} {c : Constant} {k : List Instr}

theorem constant_of_literal (h : literal v = some c) : constant v = .ok c := by
  unfold literal at h
  unfold constant
  cases hnull : v.null with
  | true =>
    rw [hnull] at h
    cases h
    rfl
  | false =>
    rw [hnull] at h
    cases htype : v.type with
    | i32 =>
      simp only [htype, Bool.false_eq_true, if_false] at h ⊢
      obtain ⟨n, hn, rfl⟩ := Option.map_eq_some_iff.mp h
      rw [hn]
    | f64 =>
      simp only [htype, Bool.false_eq_true, if_false] at h ⊢
      obtain ⟨x, hx, rfl⟩ := Option.map_eq_some_iff.mp h
      rw [hx]
    | u8 =>
      simp only [htype, Bool.false_eq_true, if_false] at h ⊢
      cases h
      rfl
    | any | unresolved | void | bool =>
      simp [htype] at h

theorem push_of_leafValue (h : leafValue t env x = some c) :
    ∃ a, push t x = pure [.push a] ∧
      ∀ fn rest s, Runs t fn env rest s → s.read a = some c := by
  cases x with
  | value v => exact ⟨.constant c, push_literal (constant_of_literal h), fun _ _ _ _ => rfl⟩
  | «variable» v => exact ⟨.place (place t v.var), rfl, fun _ _ _ hs => hs.load h⟩
  | operand | expression | truth | call => cases h

theorem reaches_push {a : Source} (hcode : s.code = .push a :: k) (ha : s.read a = some c) :
    Reaches I program s { s with code := k, data := c :: s.data } := by
  refine .one hcode ?_
  have hread : ({ s with code := k } : State).read a = some c := by
    cases a with
    | constant d => exact ha
    | place p => exact ha
  simp only [execute, hread, Option.map_some]

theorem reaches_stack (hcode : s.code = .stack op :: k)
    (hop : operate I op s.data = some data) : Reaches I program s { s with code := k, data } := by
  refine .one hcode ?_
  simp only [execute, hop, Option.map_some]

theorem operate_of_apply {b : Constant} (h : I.apply o a b = some c) :
    ∃ op, Code.arithmetic o = .ok op ∧
      ∀ data, operate I op (b :: a :: data) = some (c :: data) := by
  unfold Interp.apply at h
  split at h
  · rename_i op x y hop htype
    obtain ⟨n, hn, rfl⟩ := Option.map_eq_some_iff.mp h
    unfold Arith.ofKind? at hop
    split at hop <;> cases hop
    all_goals
      rename_i hkind
      simp only [Code.arithmetic, hkind, htype, if_true]
      exact ⟨_, rfl, fun data => by simp [operate, numeric, hn]⟩
  · rename_i op x y hop htype
    obtain ⟨z, hz, rfl⟩ := Option.map_eq_some_iff.mp h
    unfold Arith.ofKind? at hop
    split at hop <;> cases hop
    all_goals
      rename_i hkind
      simp only [Code.arithmetic, hkind, htype]
      exact ⟨_, rfl, fun data => by simp [operate, numeric, hz]⟩
  · cases h

/-- A sequence in postfix order leaves its value on the data stack. -/
theorem reaches_items (program : List Instr) (h : SequenceEval I t env xs c) :
    ∃ code, (∀ more σ, lowerItems t (xs ++ more) σ =
        (code ++ (lowerItems t more σ).1, (lowerItems t more σ).2)) ∧
      ∀ fn rest s k, Runs t fn env rest s → s.code = code ++ k →
        Reaches I program s { s with code := k, data := c :: s.data } := by
  induction h with
  | @leaf x c hx =>
    obtain ⟨a, hpush, hread⟩ := push_of_leafValue hx
    refine ⟨[.push a], fun more σ => ?_, fun fn rest s k hs hcode => ?_⟩
    · have hitems : lowerItems t (x :: more) =
          (push t x >>= fun code => lowerItems t more >>= fun code' => pure (code ++ code')) := by
        cases x with
        | operand o => cases hx
        | _ => rfl
      rw [singleton_append, hitems, hpush]
      rfl
    · exact reaches_push hcode (hread fn rest s hs)
  | @operator o ls rs a b c _ _ ho ihl ihr =>
    obtain ⟨left, hleft, hl⟩ := ihl
    obtain ⟨right, hright, hr⟩ := ihr
    obtain ⟨op, hop, hoperate⟩ := operate_of_apply ho
    refine ⟨left ++ (right ++ [.stack op]), fun more σ => ?_, fun fn rest s k hs hcode => ?_⟩
    · have hlast : lowerItems t ([.operand o] ++ more) σ =
          (.stack op :: (lowerItems t more σ).1, (lowerItems t more σ).2) := by
        simp only [singleton_append, lowerItems, hop]
        rfl
      rw [append_assoc, hleft, append_assoc, hright, hlast]
      simp only [append_assoc, singleton_append]
    · rw [append_assoc, append_assoc] at hcode
      let s₁ : State := { s with code := right ++ ([.stack op] ++ k), data := a :: s.data }
      have hs₁ : Runs t fn env rest s₁ := ⟨hs.frame, hs.discard⟩
      refine (hl fn rest s _ hs hcode).trans ?_
      refine (hr fn rest s₁ _ hs₁ rfl).trans ?_
      exact reaches_stack rfl (hoperate s.data)

theorem reaches_sequence (program : List Instr) (h : SequenceEval I t env xs c) :
    ∃ code, (∀ σ, lowerItems t xs σ = (code, σ)) ∧
      ∀ fn rest s k, Runs t fn env rest s → s.code = code ++ k →
        Reaches I program s { s with code := k, data := c :: s.data } := by
  obtain ⟨code, hcode, hreaches⟩ := reaches_items program h
  refine ⟨code, fun σ => ?_, hreaches⟩
  have hall := hcode [] σ
  rw [append_nil] at hall
  rw [hall, lowerItems, lower_pure, append_nil]

end

section

variable {c : Constant}

variable {I : Interp} {program : List Instr} {t : Table} {fn : Function} {env : Env}
  {rest : List Frame} {s : State} {k : List Instr}

theorem reaches_jump (hcode : s.code = .jump l :: k) (hl : codeAt l program = some k') :
    Reaches I program s { s with code := k' } := by
  refine .one hcode ?_
  simp only [execute, jump, hl, Option.map_some]

theorem reaches_jumpIfEqs (hcode : s.code = .jumpIfEqs l :: k)
    (hdata : s.data = b :: a :: data) (hsame : same I a b = some equal)
    (hl : codeAt l program = some k') :
    Reaches I program s { s with code := if equal then k' else k, data } := by
  refine .one hcode ?_
  simp only [execute, hdata, hsame, Option.bind_eq_bind, Option.bind_some]
  cases equal with
  | true => simp only [jump, hl, Option.map_some, if_true]
  | false => simp only [Bool.false_eq_true, if_false]

theorem reaches_comparison (program : List Instr) (h : I.compare op a b = some holds) :
    ∃ ops, comparison? op.negate = some ops ∧
      ∀ s k data, s.code = ops.map .stack ++ k → s.data = b :: a :: data →
        Reaches I program s { s with code := k, data := .bool (!holds) :: data } := by
  have one {o : StackOp} {outcome : Bool}
      (ho : ∀ data, operate I o (b :: a :: data) = some (.bool outcome :: data)) (s : State)
      (k : List Instr) (data : List Constant) (hcode : s.code = .stack o :: k)
      (hdata : s.data = b :: a :: data) :
      Reaches I program s { s with code := k, data := .bool outcome :: data } :=
    reaches_stack hcode (by rw [hdata, ho])
  have negated {o : StackOp} {outcome : Bool}
      (ho : ∀ data, operate I o (b :: a :: data) = some (.bool outcome :: data)) (s : State)
      (k : List Instr) (data : List Constant) (hcode : s.code = .stack o :: .stack .not :: k)
      (hdata : s.data = b :: a :: data) :
      Reaches I program s { s with code := k, data := .bool (!outcome) :: data } :=
    (one ho s _ data hcode hdata).trans (reaches_stack rfl rfl)
  unfold Interp.compare at h
  split at h
  · refine ⟨[.eq, .not], rfl, negated fun data => ?_⟩
    simp [operate, h]
  · obtain ⟨w, hw, rfl⟩ := Option.map_eq_some_iff.mp h
    refine ⟨[.eq], rfl, one fun data => ?_⟩
    simp [operate, hw]
  · refine ⟨[.lt, .not], rfl, negated fun data => ?_⟩
    simp [operate, h]
  · refine ⟨[.gt, .not], rfl, negated fun data => ?_⟩
    simp [operate, h]
  · obtain ⟨w, hw, rfl⟩ := Option.map_eq_some_iff.mp h
    refine ⟨[.gt], rfl, one fun data => ?_⟩
    simp [operate, hw]
  · obtain ⟨w, hw, rfl⟩ := Option.map_eq_some_iff.mp h
    rw [Bool.not_not]
    refine ⟨[.lt], rfl, one fun data => ?_⟩
    simp [operate, hw]
  · cases h

theorem reaches_compare {c : Truth}
    (hl : SequenceEval I t env c.left.items a) (hr : SequenceEval I t env c.right.items b)
    (hc : I.compare c.op a b = some holds) (hs : Runs t fn env rest s)
    (hcode : s.code = (lowerGuard t target (.compare c) σ).1 ++ k)
    (htgt : codeAt target program = some k') :
    Reaches I program s { s with code := if holds then k else k' } := by
  obtain ⟨left, hleft, hl⟩ := reaches_sequence program hl
  obtain ⟨right, hright, hr⟩ := reaches_sequence program hr
  obtain ⟨ops, hops, hcompare⟩ := reaches_comparison program hc
  have hguard : (lowerGuard t target (.compare c) σ).1 =
      left ++ (right ++ (ops.map .stack ++ [.push (.constant (.bool true)), .jumpIfEqs target])) := by
    simp only [lowerGuard, lower_bind, lower_pure, hleft, hright, hops, append_assoc]
  rw [hguard, append_assoc, append_assoc, append_assoc] at hcode
  let s₁ : State := { s with
    code := right ++ (ops.map .stack ++ ([.push (.constant (.bool true)), .jumpIfEqs target] ++ k))
    data := a :: s.data }
  have hs₁ : Runs t fn env rest s₁ := ⟨hs.frame, hs.discard⟩
  refine (hl fn rest s _ hs hcode).trans ?_
  refine (hr fn rest s₁ _ hs₁ rfl).trans ?_
  refine (hcompare _ _ s.data rfl rfl).trans ?_
  refine (reaches_push rfl rfl).trans ?_
  have hsame : same I (.bool (!holds)) (.bool true) = some (!holds) := by
    cases holds <;> rfl
  have hjump := reaches_jumpIfEqs (s := { s with
    code := .jumpIfEqs target :: k
    data := .bool true :: .bool (!holds) :: s.data }) rfl rfl hsame htgt
  cases holds with
  | true => exact hjump
  | false => exact hjump

theorem reaches_absent (hsubj : env.get t subject.var = some .nil) (hs : Runs t fn env rest s)
    (hcode : s.code = (lowerGuard t target (.unwrap subject binding) σ).1 ++ k)
    (htgt : codeAt target program = some k') : Reaches I program s { s with code := k' } := by
  have hsame : same I .nil .nil = some true := rfl
  refine (reaches_push hcode (hs.load hsubj)).trans ?_
  refine (reaches_push rfl rfl).trans ?_
  exact reaches_jumpIfEqs rfl rfl hsame htgt

theorem reaches_present
    (hsubj : env.get t subject.var = some c) (hc : c ≠ .nil) (hbind : binding ∈ frameVars fn)
    (hs : Runs t fn env rest s)
    (hcode : s.code = (lowerGuard t target (.unwrap subject binding) σ).1 ++ k)
    (htgt : codeAt target program = some k') :
    ∃ s', Reaches I program s s' ∧ Keeps { s with code := k } s' ∧
      Runs t fn (env.set t binding c) rest s' := by
  have hsame : same I c .nil = some false := by
    cases c <;> first | exact absurd rfl hc | rfl
  have hs₁ : Runs t fn env rest { s with code := k } := ⟨hs.frame, hs.discard⟩
  obtain ⟨s', hstore, hkeeps, hs'⟩ := hs₁.store (.inl hbind) c
  refine ⟨s', ?_, hkeeps, hs'⟩
  have hcode : s.code = .push (.place (place t subject.var)) :: .push (.constant .nil) ::
      .jumpIfEqs target :: .move (place t binding) (.place (place t subject.var)) :: k := hcode
  refine (reaches_push hcode (hs.load hsubj)).trans ?_
  refine (reaches_push rfl rfl).trans ?_
  refine (reaches_jumpIfEqs rfl rfl hsame htgt).trans ?_
  refine .one rfl ?_
  have hload : State.load { s with code := k } (place t subject.var) = some c := hs₁.load hsubj
  simp only [execute, State.read, hload, Option.bind_eq_bind, Option.bind_some]
  exact hstore

theorem reaches_body (hg : GuardEval I t env g (some env'))
    (hbind : ∀ r, g.binding? = some r → r ∈ frameVars fn) (hs : Runs t fn env rest s)
    (hcode : s.code = (lowerGuard t target g σ).1 ++ k)
    (htgt : codeAt target program = some k') :
    ∃ s', Reaches I program s s' ∧ Keeps { s with code := k } s' ∧ Runs t fn env' rest s' := by
  cases hg with
  | holds hl hr hc =>
    exact ⟨_, reaches_compare hl hr hc hs hcode htgt, ⟨rfl, rfl, rfl, rfl⟩,
      hs.frame, hs.discard⟩
  | present hsubj hc =>
    exact reaches_present hsubj hc (hbind _ rfl) hs hcode htgt

theorem reaches_target (hg : GuardEval I t env g none) (hs : Runs t fn env rest s)
    (hcode : s.code = (lowerGuard t target g σ).1 ++ k)
    (htgt : codeAt target program = some k') :
    Reaches I program s { s with code := k' } := by
  cases hg with
  | fails hl hr hc => exact reaches_compare hl hr hc hs hcode htgt
  | absent hsubj => exact reaches_absent hsubj hs hcode htgt

end

section

variable {I : Interp} {t : Table} {fn : Function} {env : Env} {rest : List Frame} {s : State}
  {k : List Instr}

theorem reaches_args (program : List Instr) (h : leafValues t env xs = some args) :
    ∃ code, (∀ σ, pushAll t xs σ = (code, σ)) ∧
      ∀ fn rest s k, Runs t fn env rest s → s.code = code ++ k →
        Reaches I program s { s with code := k, data := args.reverse ++ s.data } := by
  induction xs generalizing args with
  | nil =>
    cases h
    refine ⟨[], fun σ => rfl, fun fn rest s k hs hcode => ?_⟩
    rw [nil_append] at hcode
    rw [← hcode]
    exact .refl
  | cons x xs ih =>
    simp only [leafValues, Option.bind_eq_bind, Option.bind_eq_some_iff] at h
    obtain ⟨c, hx, cs, hxs, hargs⟩ := h
    cases hargs
    obtain ⟨a, hpush, hread⟩ := push_of_leafValue hx
    obtain ⟨code, hcode, hreaches⟩ := ih hxs
    refine ⟨.push a :: code, fun σ => ?_, fun fn rest s k hs hs' => ?_⟩
    · simp only [pushAll, hpush, lower_bind, hcode]
      rfl
    · let s₁ : State := { s with code := code ++ k, data := c :: s.data }
      have hs₁ : Runs t fn env rest s₁ := ⟨hs.frame, hs.discard⟩
      have hdata : (c :: cs).reverse ++ s.data = cs.reverse ++ s₁.data := by
        simp [s₁]
      rw [hdata]
      exact (reaches_push hs' (hread fn rest s hs)).trans (hreaches fn rest s₁ k hs₁ rfl)

theorem length_leafValues (h : leafValues t env xs = some args) : args.length = xs.length := by
  induction xs generalizing args with
  | nil =>
    cases h
    rfl
  | cons x xs ih =>
    simp only [leafValues, Option.bind_eq_bind, Option.bind_eq_some_iff] at h
    obtain ⟨c, -, cs, hxs, hargs⟩ := h
    cases hargs
    simp [ih hxs]

theorem builtin_facts (f : FuncDef) (hf : f ∈ FuncDef.builtins) (b : Builtin)
    (hname : f.name = FuncDef.builtinStart ++ b.name) :
    f.params.length = b.params ∧ (f.result = .void ↔ b.hasResult = false) := by
  have hall : ∀ f ∈ FuncDef.builtins, ∀ b ∈ Builtin.all,
      f.name = FuncDef.builtinStart ++ b.name →
        f.params.length = b.params ∧ (f.result = .void ↔ b.hasResult = false) := by
    decide
  exact hall f hf b (by cases b <;> decide) hname

theorem ofName?_builtinStart (b : Builtin) :
    Builtin.ofName? (FuncDef.builtinStart ++ b.name) = some b := by
  cases b <;> rfl

end

section

variable {env : Env}

variable {I : Interp} {program : List Instr} {t : Table} {fn : Function} {rest : List Frame}
  {s : State} {k : List Instr}

theorem reaches_pop {r : VarRef} {c : Constant} (hs : Runs t fn env rest s)
    (hr : r ∈ frameVars fn ∨ Assignable t env r) (hcode : s.code = .pop (place t r) :: k)
    (hdata : s.data = c :: data) :
    ∃ s', Reaches I program s s' ∧ Keeps { s with code := k, data } s' ∧
      Runs t fn (env.set t r c) rest s' := by
  have hs₁ : Runs t fn env rest { s with code := k, data } := ⟨hs.frame, hs.discard⟩
  obtain ⟨s', hstore, hkeeps, hs'⟩ := hs₁.store hr c
  refine ⟨s', .one hcode ?_, hkeeps, hs'⟩
  simp only [execute, hdata]
  exact hstore

theorem exists_define (I : Interp) (program : List Instr) (t : Table) (r : VarRef)
    (hframes : s.frames = f :: rest) (hdisc : s.ready = true) (k : List Instr) :
    ∃ s' f', execute I program (.defVar (place t r)) { s with code := k } = some s' ∧
      Keeps { s with code := k } s' ∧ s'.frames = f' :: rest ∧ s'.ready = true ∧
      (∀ p, (f p).isSome = true → (f' p).isSome = true) ∧
      ((t.var r).isDiscard = false → (f' (place t r)).isSome = true) := by
  cases hlocal : (t.var r).isDiscard with
  | true =>
    refine ⟨{ s with code := k, globals := s.globals.set .discard none }, f, ?_,
      ⟨rfl, rfl, rfl, rfl⟩, hframes, by simp [ready], fun _ h => h, fun h => by cases h⟩
    rw [place_of_discard hlocal]
    rfl
  | false =>
    refine ⟨{ s with code := k, frames := f.set (place t r) none :: rest },
      f.set (place t r) none, ?_, ⟨rfl, rfl, rfl, rfl⟩, rfl, hdisc, fun p hp => ?_, by simp⟩
    · simp only [place_of_local hlocal, execute, define, hframes]
    · unfold Frame.set
      split
      · rfl
      · exact hp

theorem reaches_define (rs : List VarRef) (hframes : s.frames = f :: rest)
    (hdisc : s.ready = true)
    (hcode : s.code = rs.map (fun r => .defVar (place t r)) ++ k) :
    ∃ s' f', Reaches I program s s' ∧ Keeps { s with code := k } s' ∧ s'.frames = f' :: rest ∧
      s'.ready = true ∧ (∀ p, (f p).isSome = true → (f' p).isSome = true) ∧
      ∀ r ∈ rs, (t.var r).isDiscard = false → (f' (place t r)).isSome = true := by
  induction rs generalizing s f with
  | nil =>
    rw [map_nil, nil_append] at hcode
    refine ⟨s, f, .refl, ?_, hframes, hdisc, fun _ h => h, fun r hr => nomatch hr⟩
    rw [← hcode]
    exact ⟨rfl, rfl, rfl, rfl⟩
  | cons r rs ih =>
    obtain ⟨s₁, f₁, hstep, hkeeps₁, hframes₁, hdisc₁, hold₁, hnew₁⟩ :=
      exists_define I program t r hframes hdisc (rs.map (fun r => .defVar (place t r)) ++ k)
    obtain ⟨s', f', hreach, hkeeps, hframes', hdisc', hold, hnew⟩ :=
      ih hframes₁ hdisc₁ hkeeps₁.code
    refine ⟨s', f', (Reaches.one hcode hstep).trans hreach, ?_, hframes', hdisc',
      fun p hp => hold p (hold₁ p hp), fun q hq hq' => ?_⟩
    · exact ⟨hkeeps.code, hkeeps.calls.trans hkeeps₁.calls, hkeeps.data.trans hkeeps₁.data,
        hkeeps.history.trans hkeeps₁.history⟩
    · rcases mem_cons.mp hq with rfl | hq
      · exact hold _ (hnew₁ hq')
      · exact hnew q hq hq'

theorem reaches_params
    (henv : Env.ofArgs t params args = some env) (hparams : ∀ r ∈ params, r ∈ frameVars fn)
    (hs : Runs t fn .empty rest s)
    (hcode : s.code = params.reverse.map (fun r => .pop (place t r)) ++ k)
    (hdata : s.data = args.reverse ++ data) :
    ∃ s', Reaches I program s s' ∧ Keeps { s with code := k, data } s' ∧
      Runs t fn env rest s' := by
  induction params generalizing args env data k with
  | nil =>
    cases args with
    | nil =>
      cases henv
      exact ⟨s, .refl, ⟨hcode, rfl, hdata, rfl⟩, hs⟩
    | cons c cs => cases henv
  | cons r rs ih =>
    cases args with
    | nil => cases henv
    | cons c cs =>
      obtain ⟨env₁, henv₁, rfl⟩ := Option.map_eq_some_iff.mp henv
      rw [reverse_cons, map_append, append_assoc] at hcode
      rw [reverse_cons, append_assoc] at hdata
      obtain ⟨s₁, hreach, hkeeps, hs₁⟩ :=
        ih henv₁ (fun q hq => hparams q (mem_cons_of_mem r hq)) hcode hdata
      obtain ⟨s', hreach', hkeeps', hs'⟩ := reaches_pop hs₁
        (.inl (hparams r mem_cons_self)) hkeeps.code hkeeps.data
      exact ⟨s', hreach.trans hreach', hkeeps.trans hkeeps', hs'⟩

def entryCode (t : Table) (fn : Function) : List Instr :=
  [.label (.function fn.name), .createFrame, .pushFrame] ++
    (frameVars fn).map (fun r => .defVar (place t r)) ++
    fn.params.reverse.map fun r => .pop (place t r)

theorem lowerFunction_eq (fn : Function) (σ : LowerState) :
    (lowerFunction t fn σ).1 =
      entryCode t fn ++ ((lowerStmts t fn.name fn.body.stmts σ).1 ++ [.popFrame, .return]) := by
  change entryCode t fn ++ _ ++ [.popFrame, .return] = _
  rw [append_assoc]

theorem reaches_entry (henv : Env.ofArgs t fn.params args = some env)
    (hdisc : s.ready = true) (hcode : s.code = entryCode t fn ++ k)
    (hdata : s.data = args.reverse ++ data) :
    ∃ s', Reaches I program s s' ∧ Keeps { s with code := k, data } s' ∧
      Runs t fn env s.frames s' := by
  let pops := fn.params.reverse.map (fun r => .pop (place t r)) ++ k
  let s₁ : State := { s with
    code := (frameVars fn).map (fun r => .defVar (place t r)) ++ pops
    temporary := none
    frames := .empty :: s.frames }
  have hframe : Reaches I program s s₁ := by
    rw [entryCode, append_assoc, append_assoc] at hcode
    exact .execute hcode rfl (.execute rfl rfl (.execute rfl rfl .refl))
  obtain ⟨s₂, f, hdefine, hkeeps, hframes, hdisc', -, hdef⟩ :=
    reaches_define (I := I) (s := s₁) (k := pops) (frameVars fn) rfl hdisc rfl
  have hs₂ : Runs t fn .empty s.frames s₂ :=
    ⟨⟨f, hframes, fun _ _ _ h => (nomatch h), hdef⟩, hdisc'⟩
  have hparams : ∀ r ∈ fn.params, r ∈ frameVars fn :=
    fun r hr => mem_append_left _ hr
  obtain ⟨s', hpops, hkeeps', hs'⟩ := reaches_params henv hparams hs₂ hkeeps.code
    (hkeeps.data.trans hdata)
  have hkeeps₂ := hkeeps.trans hkeeps'
  exact ⟨s', hframe.trans (hdefine.trans hpops),
    ⟨hkeeps₂.code, hkeeps₂.calls, hkeeps₂.data, hkeeps₂.history⟩, hs'⟩

end

section

variable {env : Env} {r : Option Constant}

variable {I : Interp} {t : Table} {fns : List Function} {out : Result}
  {h h' : History}

/-- Statements of a well-typed function return a value if and only if it has a result. -/
def Conforms (t : Table) : Job → Result → Prop
  | .stmt _ s, .returned r => ∀ f, StmtHas t f s → (r = none ↔ f.result = .void)
  | .stmts _ ss, .returned r => ∀ f, StmtsHave t f ss → (r = none ↔ f.result = .void)
  | _, _ => True

theorem conforms (he : Evaluates I t fns job h out h') : Conforms t job out := by
  induction he with
  | leaf | expression | builtin | user | declare | assign | call | ifSkip | whileDone | nil =>
    trivial
  | @ifTrue _ _ _ _ _ _ out _ _ _ _ ih =>
    cases out with
    | returned r =>
      intro f hf
      unfold StmtHas at hf
      exact ih f hf.2.1
    | value | next => trivial
  | @ifFalse _ _ _ _ _ out _ _ _ _ ih =>
    cases out with
    | returned r => exact fun f hf => ih f hf.2.2
    | value | next => trivial
  | @whileNext _ _ _ _ _ _ out _ _ _ _ _ _ _ ih =>
    cases out with
    | returned r => exact ih
    | value | next => trivial
  | whileReturn _ _ ih => exact fun f hf => ih f hf.2
  | returnNone => exact fun f hf => ⟨fun _ => hf, fun _ => rfl⟩
  | returnSome => exact fun f hf => ⟨nofun, fun hr => absurd hr hf.1⟩
  | @cons _ _ _ _ out _ _ _ _ _ _ ih =>
    cases out with
    | returned r => exact fun f hf => ih f hf.2
    | value | next => trivial
  | stop _ ih => exact fun f hf => ih f hf.1

/-- What a program has to be for its functions to be found when they are called. -/
structure Linked (t : Table) (fns : List Function) (program : List Instr) : Prop where
  nodup : (labels program).Nodup
  placed : ∀ fn ∈ fns, ∃ pre k σ, program = pre ++ ((lowerFunction t fn σ).1 ++ k)
  typed : ∀ fn ∈ fns, StmtsHave t fn.definition fn.body.stmts
  names : ∀ fn ∈ fns, fn.definition.name = fn.name
  known : ∀ name f, t.lookupFunction? name = some f →
    f.name = name ∧ (f.builtin = true → f ∈ FuncDef.builtins)

variable {program : List Instr}

theorem Linked.ofBody?_eq_none {fn : Function} (hlink : Linked t fns program) (hfn : fn ∈ fns)
    (hbody : Evaluates I t fns (.stmts env fn.body.stmts) h out h')
    (hr : out.ofBody? fn.definition = some r) : r = none ↔ fn.definition.result = .void := by
  cases out with
  | returned r' =>
    cases hr
    exact conforms hbody fn.definition (hlink.typed fn hfn)
  | next env' =>
    unfold Result.ofBody? at hr
    by_cases hvoid : fn.definition.result = .void
    · simp only [hvoid, if_true] at hr
      cases hr
      simp [hvoid]
    · simp [hvoid] at hr
  | value r' => cases hr

theorem Linked.call_eq_none {c : Call} (hlink : Linked t fns program) (hc : CallHas t c f)
    (he : Evaluates I t fns (.value env (.call c)) h (.value r) h') :
    r = none ↔ f.result = .void := by
  cases he with
  | leaf hx => cases hx
  | builtin htgt hblt hname hargs hr =>
    rw [hc.target] at htgt
    cases htgt
    obtain ⟨-, hcatalog⟩ := hlink.known c.name f hc.known
    have hsome := I.isSome_builtin _ _ _ _ hr
    rw [(builtin_facts f (hcatalog hblt) _ hname).2, ← hsome]
    cases r <;> simp
  | user htgt hblt hfn hargs henv hbody hr =>
    rw [hc.target] at htgt
    cases htgt
    exact hlink.ofBody?_eq_none hfn hbody hr

end

section

variable {c : Constant} {fn : Function} {h : History}
  {rest : List Frame} {front jump k k' : List Instr} {vars : List VarRef} {no : Option Else}
  {out : Result} {s : State}

variable {I : Interp} {t : Table} {fns : List Function} {program : List Instr}

/-- The machine is about to return: the frame of the function is closed, and the data stack
holds what it had without the arguments, and the result. -/
structure Returning (calls : List (List Instr)) (data : List Constant) (frames : List Frame)
    (h : History) (s : State) : Prop where
  code : ∃ k, s.code = .return :: k
  calls : s.calls = calls
  data : s.data = data
  frames : s.frames = frames
  history : s.history = h
  discard : s.ready = true

/-- Started at the label of a function with the arguments on the data stack, the last one on
top, the machine comes to the return of that call: it has opened and closed frames and called
functions since, but what was on the stacks below is as before. -/
def Performs (I : Interp) (program : List Instr) (fn : Function) (args : List Constant)
    (h : History) (r : Option Constant) (h' : History) : Prop :=
  ∃ code, codeAt (.function fn.name) program = some code ∧
    ∀ s data, s.code = code → s.data = args.reverse ++ data → s.history = h → s.ready = true →
      ∃ s', Reaches I program s s' ∧ Returning s.calls (r.toList ++ data) s.frames h' s'

/-- The machine runs statements to their end: it comes to the code behind them or is about
to return. -/
def Arrives (I : Interp) (t : Table) (program : List Instr) (fn : Function) (rest : List Frame)
    (s : State) (k : List Instr) (h : History) : Result → Prop
  | .next env => ∃ s', Reaches I program s s' ∧ Runs t fn env rest s' ∧ s'.code = k ∧
    s'.calls = s.calls ∧ s'.data = s.data ∧ s'.history = h
  | .returned r => ∃ s', Reaches I program s s' ∧
    Returning s.calls (r.toList ++ s.data) rest h s'
  | .value _ => False

namespace Arrives

variable {fn : Function} {rest : List Frame} {s : State} {k : List Instr} {h : History}
  {out : Result}

theorem after (hreach : Reaches I program s s₁) (hcalls : s₁.calls = s.calls)
    (hdata : s₁.data = s.data) (ha : Arrives I t program fn rest s₁ k h out) :
    Arrives I t program fn rest s k h out := by
  cases out with
  | next env =>
    obtain ⟨s', hreach', hs', hcode, hcalls', hdata', hh⟩ := ha
    exact ⟨s', hreach.trans hreach', hs', hcode, hcalls'.trans hcalls, hdata'.trans hdata, hh⟩
  | returned r =>
    obtain ⟨s', hreach', hs'⟩ := ha
    rw [hcalls, hdata] at hs'
    exact ⟨s', hreach.trans hreach', hs'⟩
  | value r => exact ha

theorem go (ha : Arrives I t program fn rest s k h out)
    (hgo : ∀ s', s'.code = k → Reaches I program s' { s' with code := k' }) :
    Arrives I t program fn rest s k' h out := by
  cases out with
  | next env =>
    obtain ⟨s', hreach, hs', hcode, hcalls, hdata, hh⟩ := ha
    exact ⟨_, hreach.trans (hgo s' hcode), ⟨hs'.frame, hs'.discard⟩, rfl, hcalls, hdata, hh⟩
  | returned r => exact ha
  | value r => exact ha

end Arrives

def Simulates (I : Interp) (t : Table) (program : List Instr) :
    Job → History → Result → History → Prop
  | .value env x, h, .value r, h' => ∀ fn rest s k σ,
    (∀ c, x = .call c → ∃ f, CallHas t c f) → Runs t fn env rest s → s.history = h →
    s.code = (lowerValue t x σ).1 ++ k →
    ∃ s', Reaches I program s s' ∧ s'.code = k ∧ s'.calls = s.calls ∧
      s'.data = r.toList ++ s.data ∧ s'.frames = s.frames ∧ s'.history = h' ∧
      s'.ready = true
  | .stmt env x, h, out, h' => ∀ fn rest s k σ, StmtHas t fn.definition x →
    (∀ r ∈ declared x, r ∈ frameVars fn) → Runs t fn env rest s → s.history = h →
    s.code = (lowerStmt t fn.name x σ).1 ++ k → s.code <:+ program →
    Arrives I t program fn rest s k h' out
  | .stmts env xs, h, out, h' => ∀ fn rest s k σ, StmtsHave t fn.definition xs →
    (∀ r ∈ declaredIn xs, r ∈ frameVars fn) → Runs t fn env rest s → s.history = h →
    s.code = (lowerStmts t fn.name xs σ).1 ++ k → s.code <:+ program →
    Arrives I t program fn rest s k h' out
  | .value .., _, .next _, _ | .value .., _, .returned _, _ => True

variable {env : Env} {r : Option Constant} {h' : History} {code : List Instr}
  {pos : Pos}

theorem reaches_popFrame (hs : Runs t fn env rest s) (hcode : s.code = .popFrame :: .return :: k) :
    ∃ s', Reaches I program s s' ∧ Returning s.calls s.data rest s.history s' := by
  obtain ⟨f, hframes, -⟩ := hs.frame
  refine ⟨{ s with code := .return :: k, temporary := some f, frames := rest }, .one hcode ?_,
    ⟨k, rfl⟩, rfl, rfl, rfl, rfl, hs.discard⟩
  simp only [execute, hframes]

theorem Linked.reaches_return {fn : Function} {out : Result} {h : History}
    (hlink : Linked t fns program) (hfn : fn ∈ fns)
    (henv : Env.ofArgs t fn.params args = some env)
    (hbody : Simulates I t program (.stmts env fn.body.stmts) h out h')
    (hr : out.ofBody? fn.definition = some r) : Performs I program fn args h r h' := by
  obtain ⟨pre, k, σ, hprog⟩ := hlink.placed fn hfn
  rw [lowerFunction_eq, append_assoc, append_assoc] at hprog
  let behind : List Instr := [.popFrame, .return] ++ k
  let code := entryCode t fn ++ ((lowerStmts t fn.name fn.body.stmts σ).1 ++ behind)
  have hcodeAt : codeAt (.function fn.name) program = some code := by
    have hnodup := hlink.nodup
    rw [hprog] at hnodup ⊢
    exact codeAt_of_nodup hnodup
  refine ⟨code, hcodeAt, fun s data hcode hdata hh hdisc => ?_⟩
  obtain ⟨s₁, hentry, hkeeps, hs₁⟩ := reaches_entry henv hdisc hcode hdata
  have hsuf : s₁.code <:+ program := by
    rw [hprog, hkeeps.code]
    exact (suffix_append _ _).trans (suffix_append _ _)
  have hdecl : ∀ r ∈ declaredIn fn.body.stmts, r ∈ frameVars fn :=
    fun r hr => mem_append_right _ hr
  have harrives := hbody fn s.frames s₁ behind σ (hlink.typed fn hfn) hdecl hs₁
    (hkeeps.history.trans hh) hkeeps.code hsuf
  cases out with
  | next env' =>
    obtain ⟨s₂, hreach, hs₂, hcode₂, hcalls, hdata₂, hh₂⟩ := harrives
    have hnone : r = none := by
      simp only [Result.ofBody?] at hr
      split at hr
      · exact (Option.some.inj hr).symm
      · cases hr
    have hpop : ∃ s', Reaches I program s₂ s' ∧
        Returning s₂.calls s₂.data s.frames s₂.history s' := reaches_popFrame hs₂ hcode₂
    rw [hcalls, hdata₂, hh₂, hkeeps.calls, hkeeps.data] at hpop
    obtain ⟨s', hpop, hs'⟩ := hpop
    rw [hnone]
    exact ⟨s', hentry.trans (hreach.trans hpop), hs'⟩
  | returned r' =>
    cases hr
    obtain ⟨s', hreach, hs'⟩ := harrives
    rw [hkeeps.calls, hkeeps.data] at hs'
    exact ⟨s', hentry.trans hreach, hs'⟩
  | value r' => cases hr

theorem simulates_leaf (hx : leafValue t env x = some c) :
    Simulates I t program (.value env x) h (.value (some c)) h := by
  intro fn rest s k σ _ hs hh hcode
  obtain ⟨a, hpush, hread⟩ := push_of_leafValue hx
  have hlower : lowerValue t x = push t x := by
    cases x with
    | value | «variable» => rfl
    | operand | expression | truth | call => cases hx
  rw [hlower, hpush] at hcode
  exact ⟨_, reaches_push hcode (hread fn rest s hs), rfl, rfl, rfl, rfl, hh, hs.discard⟩

theorem simulates_expression (he : SequenceEval I t env e.items c) :
    Simulates I t program (.value env (.expression e)) h (.value (some c)) h := by
  intro fn rest s k σ _ hs hh hcode
  obtain ⟨code, hlower, hreaches⟩ := reaches_sequence program he
  rw [lowerValue, hlower] at hcode
  exact ⟨_, hreaches fn rest s k hs hcode, rfl, rfl, rfl, rfl, hh, hs.discard⟩

theorem callBuiltin_eq (hparams : args.length = b.params)
    (hdata : s.data = args.reverse ++ data) (hr : I.builtin s.history b args = some r) :
    s.callBuiltin I b =
      some { s with data := r.toList ++ data, history := ⟨b, args⟩ :: s.history } := by
  have hlen : args.reverse.length = b.params := by rw [length_reverse, hparams]
  have henough : ¬ s.data.length < b.params := by
    rw [hdata, length_append, hlen]
    omega
  have htake : (s.data.take b.params).reverse = args := by
    rw [hdata, ← hlen, take_left, reverse_reverse]
  have hdrop : s.data.drop b.params = data := by
    rw [hdata, ← hlen, drop_left]
  simp only [callBuiltin, henough, if_false, htake, hdrop, hr, Option.map_some]

theorem Linked.simulates_builtin {c : Call}
    (hlink : Linked t fns program) (htgt : c.target = some f) (hblt : f.builtin = true)
    (hname : f.name = FuncDef.builtinStart ++ b.name) (hargs : leafValues t env c.args = some args)
    (hr : I.builtin h b args = some r) :
    Simulates I t program (.value env (.call c)) h (.value r) (⟨b, args⟩ :: h) := by
  intro fn rest s k σ htyped hs hh hcode
  obtain ⟨g, hcall⟩ := htyped c rfl
  obtain rfl : g = f := Option.some.inj (hcall.target.symm.trans htgt)
  obtain ⟨hnamed, hcatalog⟩ := hlink.known c.name g hcall.known
  have hparams : args.length = b.params := by
    rw [length_leafValues hargs, hcall.arity]
    exact (builtin_facts g (hcatalog hblt) b hname).1
  have hofName : Builtin.ofName? c.name = some b := by
    rw [← hnamed, hname, ofName?_builtinStart]
  obtain ⟨code, hpush, hreaches⟩ := reaches_args program hargs
  have hlower : (lowerCall t c σ).1 = code ++ [.call (.builtin b)] := by
    simp only [lowerCall, htgt, lower_bind, hpush, hblt, if_true, hofName]
    rfl
  rw [lowerValue, hlower, append_assoc] at hcode
  let s' : State := { s with
    code := k, data := r.toList ++ s.data, history := ⟨b, args⟩ :: s.history }
  refine ⟨s', (hreaches fn rest s _ hs hcode).trans (.one rfl ?_), rfl, rfl, rfl, rfl, ?_,
    hs.discard⟩
  · exact callBuiltin_eq hparams rfl (hh ▸ hr)
  · simp only [s', hh]

theorem Linked.simulates_user {c : Call}
    (hlink : Linked t fns program) (htgt : c.target = some fn.definition)
    (hblt : fn.definition.builtin = false) (hfn : fn ∈ fns)
    (hargs : leafValues t env c.args = some args) (henv : Env.ofArgs t fn.params args = some env')
    (hbody : Simulates I t program (.stmts env' fn.body.stmts) h out h')
    (hr : out.ofBody? fn.definition = some r) :
    Simulates I t program (.value env (.call c)) h (.value r) h' := by
  intro caller rest s k σ htyped hs hh hcode
  obtain ⟨g, hcall⟩ := htyped c rfl
  obtain rfl : g = fn.definition := Option.some.inj (hcall.target.symm.trans htgt)
  have hname : c.name = fn.name :=
    (hlink.known c.name _ hcall.known).1.symm.trans (hlink.names fn hfn)
  obtain ⟨code, hpush, hreaches⟩ := reaches_args program hargs
  have hlower : (lowerCall t c σ).1 = code ++ [.call (.function fn.name)] := by
    simp only [lowerCall, htgt, lower_bind, hpush, hblt, Bool.false_eq_true, if_false, hname]
    rfl
  rw [lowerValue, hlower, append_assoc] at hcode
  obtain ⟨body, hcodeAt, hreturn⟩ := hlink.reaches_return hfn henv hbody hr
  let s₁ : State := { s with
    code := body, calls := k :: s.calls, data := args.reverse ++ s.data }
  obtain ⟨s₂, hreach, hs₂⟩ := hreturn s₁ s.data rfl rfl hh hs.discard
  obtain ⟨k', hcode₂⟩ := hs₂.code
  let s' : State := { s₂ with code := k, calls := s.calls }
  have hcalled : Reaches I program s s₁ := by
    refine (hreaches caller rest s _ hs hcode).trans (.one rfl ?_)
    simp only [execute, jump, hcodeAt, Option.map_some]
    rfl
  have hreturned : Reaches I program s₂ s' := by
    refine .one hcode₂ ?_
    simp only [execute, hs₂.calls]
    rfl
  exact ⟨s', hcalled.trans (hreach.trans hreturned), rfl, rfl, hs₂.data, hs₂.frames, hs₂.history,
    hs₂.discard⟩

theorem callHas_of_valueHas (h : ValueHas t x u) :
    ∀ c, x = .call c → ∃ f, CallHas t c f := by
  rintro c rfl
  cases h with
  | leaf h => cases h
  | call h => exact ⟨_, h⟩

theorem arrives_store {r : VarRef}
      (hx : Simulates I t program (.value env x) h (.value (some c)) h')
    (htyped : ∀ c, x = .call c → ∃ f, CallHas t c f) (hr : r ∈ frameVars fn ∨ Assignable t env r)
    (hs : Runs t fn env rest s) (hh : s.history = h)
    (hcode : s.code = ((lowerValue t x σ).1 ++ [.pop (place t r)]) ++ k) :
    Arrives I t program fn rest s k h' (.next (env.set t r c)) := by
  rw [append_assoc] at hcode
  obtain ⟨s₁, hreach, hcode₁, hcalls, hdata, hframes, hh₁, hdisc⟩ :=
    hx fn rest s _ σ htyped hs hh hcode
  have hs₁ := hs.of_frames hframes hdisc
  obtain ⟨s', hpop, hkeeps, hs'⟩ := reaches_pop hs₁ hr hcode₁ hdata
  exact ⟨s', hreach.trans hpop, hs', hkeeps.code, hkeeps.calls.trans hcalls, hkeeps.data,
    hkeeps.history.trans hh₁⟩

theorem Linked.leads (hlink : Linked t fns program)
    (hsuf : code <:+ program) (hcode : code = front ++ .label l :: k) :
    codeAt l program = some (.label l :: k) := by
  obtain ⟨pre, hprog⟩ := hsuf
  have hnodup := hlink.nodup
  rw [← hprog, hcode, ← append_assoc] at hnodup ⊢
  exact codeAt_of_nodup hnodup

theorem Linked.leads_branch {yes no : List Instr}
    (hlink : Linked t fns program) (hsuf : code <:+ program)
    (hcode : code = jump ++ (yes ++ i :: .label l :: (no ++ .label l' :: k))) :
    codeAt l program = some (.label l :: (no ++ .label l' :: k)) ∧
      codeAt l' program = some (.label l' :: k) := by
  have hfirst : code = (jump ++ (yes ++ [i])) ++ .label l :: (no ++ .label l' :: k) := by
    rw [hcode]
    simp
  have hsecond : code = (jump ++ (yes ++ i :: .label l :: no)) ++ .label l' :: k := by
    rw [hcode]
    simp
  exact ⟨hlink.leads hsuf hfirst, hlink.leads hsuf hsecond⟩

theorem reaches_label (hcode : s.code = .label l :: k) :
    Reaches I program s { s with code := k } := .one hcode rfl

theorem Linked.simulates_call {c : Call} (hlink : Linked t fns program)
    (he : Evaluates I t fns (.value env (.call c)) h (.value r) h')
    (hc : Simulates I t program (.value env (.call c)) h (.value r) h') :
    Simulates I t program (.stmt env (.call c)) h (.next env) h' := by
  intro fn rest s k σ htyped _ hs hh hcode _
  obtain ⟨g, hg, hvoid⟩ := htyped
  have hnone : r = none := (hlink.call_eq_none hg he).mpr hvoid
  obtain ⟨s', hreach, hcode', hcalls, hdata, hframes, hh', hdisc⟩ :=
    hc fn rest s k σ (fun d hd => Expr.call.inj hd ▸ ⟨g, hg⟩) hs hh hcode
  rw [hnone] at hdata
  have hs' := hs.of_frames hframes hdisc
  exact ⟨s', hreach, hs', hcode', hcalls, hdata, hh'⟩

theorem arrives_body {xs : List Stmt}
    (hg : GuardEval I t env g (some env')) (hbody : Simulates I t program (.stmts env' xs) h out h')
    (htyped : StmtsHave t fn.definition xs) (hbind : ∀ r, g.binding? = some r → r ∈ frameVars fn)
    (hdecl : ∀ r ∈ declaredIn xs, r ∈ frameVars fn) (hs : Runs t fn env rest s)
    (hh : s.history = h)
    (hcode : s.code = (lowerGuard t target g σ).1 ++ ((lowerStmts t fn.name xs σ').1 ++ k))
    (hsuf : s.code <:+ program) (htgt : codeAt target program = some k') :
    Arrives I t program fn rest s k h' out := by
  obtain ⟨s₁, hreach, hkeeps, hs₁⟩ := reaches_body hg hbind hs hcode htgt
  refine .after hreach hkeeps.calls hkeeps.data ?_
  have hsuf₁ : s₁.code <:+ program := by
    rw [hcode] at hsuf
    rw [hkeeps.code]
    exact (suffix_append _ _).trans hsuf
  exact hbody fn rest s₁ k σ' htyped hdecl hs₁ (hkeeps.history.trans hh) hkeeps.code hsuf₁

theorem declared_branch (h : ∀ r ∈ declared (.ifElse pos g yes no), r ∈ vars) :
    (∀ r, g.binding? = some r → r ∈ vars) ∧ (∀ r ∈ declaredIn yes.stmts, r ∈ vars) ∧
      ∀ e, no = some e → ∀ r ∈ declaredIn e.body.stmts, r ∈ vars := by
  unfold declared at h
  refine ⟨fun r hr => h r ?_, fun r hr => h r ?_, ?_⟩
  · exact mem_append_left _ (mem_append_left _ (by simp [hr]))
  · exact mem_append_left _ (mem_append_right _ hr)
  · rintro e rfl r hr
    exact h r (mem_append_right _ hr)

theorem declared_loop (h : ∀ r ∈ declared (.while pos g body), r ∈ vars) :
    (∀ r, g.binding? = some r → r ∈ vars) ∧ ∀ r ∈ declaredIn body.stmts, r ∈ vars := by
  unfold declared at h
  refine ⟨fun r hr => h r ?_, fun r hr => h r ?_⟩
  · exact mem_append_left _ (by simp [hr])
  · exact mem_append_right _ hr

section

variable (hlink : Linked t fns program)

include hlink

theorem Linked.simulates_ifTrue (hg : GuardEval I t env g (some env'))
    (hyes : Simulates I t program (.stmts env' yes.stmts) h out h') :
    Simulates I t program (.stmt env (.ifElse pos g yes no)) h out h' := by
  intro fn rest s k σ htyped hdecl hs hh hcode hsuf
  obtain ⟨hbind, hdeclaredYes, -⟩ := declared_branch hdecl
  cases no with
  | none =>
    rw [lowerStmt_if, branchCode_none] at hcode
    have htgt := hlink.leads hsuf (hcode.trans (append_assoc ..).symm)
    refine (arrives_body hg hyes htyped.2.1 hbind hdeclaredYes hs hh hcode hsuf
      htgt).go fun s' hs' => ?_
    exact reaches_label hs'
  | some e =>
    rw [lowerStmt_ifElse, branchCode_some] at hcode
    obtain ⟨htgt, hdone⟩ := hlink.leads_branch hsuf hcode
    refine (arrives_body hg hyes htyped.2.1 hbind hdeclaredYes hs hh hcode hsuf
      htgt).go fun s' hs' => ?_
    exact (reaches_jump hs' hdone).trans (reaches_label rfl)

theorem Linked.simulates_ifFalse (hg : GuardEval I t env g none)
    (hno : Simulates I t program (.stmts env e.body.stmts) h out h') :
    Simulates I t program (.stmt env (.ifElse pos g yes (some e))) h out h' := by
  intro fn rest s k σ htyped hdecl hs hh hcode hsuf
  obtain ⟨-, -, hdeclaredNo⟩ := declared_branch hdecl
  rw [lowerStmt_ifElse, branchCode_some] at hcode
  obtain ⟨htgt, -⟩ := hlink.leads_branch hsuf hcode
  let noCode := (lowerStmts t fn.name e.body.stmts (lowerStmts t fn.name yes.stmts
    (lowerGuard t (.flow fn.name .otherwise σ.labels) g σ.next).2).2).1
  let s₁ : State := { s with code := noCode ++ .label (.flow fn.name .endIf σ.labels) :: k }
  have hjump : Reaches I program s s₁ :=
    (reaches_target hg hs hcode htgt).trans (reaches_label rfl)
  have hs₁ : Runs t fn env rest s₁ := ⟨hs.frame, hs.discard⟩
  have hsuf₁ : s₁.code <:+ program := (suffix_cons _ _).trans (suffix_of_codeAt htgt)
  have harrives := hno fn rest s₁ _ _ htyped.2.2 (hdeclaredNo e rfl) hs₁ hh rfl hsuf₁
  exact .after hjump rfl rfl (harrives.go fun s' hs' => reaches_label hs')

theorem Linked.simulates_ifSkip (hg : GuardEval I t env g none) :
    Simulates I t program (.stmt env (.ifElse pos g yes none)) h (.next env) h := by
  intro fn rest s k σ htyped hdecl hs hh hcode hsuf
  rw [lowerStmt_if, branchCode_none] at hcode
  have htgt := hlink.leads hsuf (hcode.trans (append_assoc ..).symm)
  have hjump : Reaches I program s { s with code := k } :=
    (reaches_target hg hs hcode htgt).trans (reaches_label rfl)
  exact ⟨_, hjump, ⟨hs.frame, hs.discard⟩, rfl, rfl, rfl, hh⟩

theorem Linked.leads_loop {body : List Instr} (hsuf : code <:+ program)
    (hcode : code = .label l :: (jump ++ (body ++ i :: .label l' :: k))) :
    codeAt l program = some code ∧ codeAt l' program = some (.label l' :: k) := by
  have hfirst : code = [] ++ .label l :: (jump ++ (body ++ i :: .label l' :: k)) := hcode
  have hsecond : code = (.label l :: (jump ++ (body ++ [i]))) ++ .label l' :: k := by
    rw [hcode]
    simp
  refine ⟨?_, hlink.leads hsuf hsecond⟩
  rw [hcode]
  exact hlink.leads hsuf hfirst

theorem Linked.simulates_whileDone (hg : GuardEval I t env g none) :
    Simulates I t program (.stmt env (.while pos g body)) h (.next env) h := by
  intro fn rest s k σ htyped hdecl hs hh hcode hsuf
  rw [lowerStmt_while, loopCode_append] at hcode
  obtain ⟨-, hdone⟩ := hlink.leads_loop hsuf hcode
  have hreach : Reaches I program s { s with code := k } := by
    refine (reaches_label hcode).trans ?_
    exact (reaches_target hg (hs.withCode _) rfl hdone).trans (reaches_label rfl)
  exact ⟨_, hreach, ⟨hs.frame, hs.discard⟩, rfl, rfl, rfl, hh⟩

/-- One round of a loop, up to the jump back to its start. -/
theorem Linked.arrives_round (hg : GuardEval I t env g (some env'))
    (hbody : Simulates I t program (.stmts env' body.stmts) h out h')
    (htyped : StmtHas t fn.definition (.while pos g body))
    (hdecl : ∀ r ∈ declared (.while pos g body), r ∈ frameVars fn) (hs : Runs t fn env rest s)
    (hh : s.history = h) (hcode : s.code = (lowerStmt t fn.name (.while pos g body) σ).1 ++ k)
    (hsuf : s.code <:+ program) :
    codeAt (.flow fn.name .loop σ.labels) program = some s.code ∧
      Arrives I t program fn rest s
        (.jump (.flow fn.name .loop σ.labels) :: .label (.flow fn.name .endLoop σ.labels) :: k)
        h' out := by
  obtain ⟨hbind, hdeclaredBody⟩ := declared_loop hdecl
  rw [lowerStmt_while, loopCode_append] at hcode
  obtain ⟨hloop, hdone⟩ := hlink.leads_loop hsuf hcode
  refine ⟨hloop, .after (reaches_label hcode) rfl rfl ?_⟩
  refine arrives_body hg hbody htyped.2 hbind hdeclaredBody (hs.withCode _) hh rfl ?_ hdone
  rw [hcode] at hsuf
  exact (suffix_cons _ _).trans hsuf

theorem Linked.simulates_whileNext (hg : GuardEval I t env g (some env₁))
    (hbody : Simulates I t program (.stmts env₁ body.stmts) h (.next env₂) h₁)
    (hagain : Simulates I t program (.stmt env₂ (.while pos g body)) h₁ out h₂) :
    Simulates I t program (.stmt env (.while pos g body)) h out h₂ := by
  intro fn rest s k σ htyped hdecl hs hh hcode hsuf
  obtain ⟨hloop, s₁, hround, hs₁, hcode₁, hcalls, hdata, hh₁⟩ :=
    hlink.arrives_round hg hbody htyped hdecl hs hh hcode hsuf
  have hback : Reaches I program s { s₁ with code := s.code } :=
    hround.trans (reaches_jump hcode₁ hloop)
  refine .after hback hcalls hdata ?_
  exact hagain fn rest _ k σ htyped hdecl (hs₁.withCode _) hh₁ hcode hsuf

theorem Linked.simulates_whileReturn (hg : GuardEval I t env g (some env'))
    (hbody : Simulates I t program (.stmts env' body.stmts) h (.returned r) h') :
    Simulates I t program (.stmt env (.while pos g body)) h (.returned r) h' := by
  intro fn rest s k σ htyped hdecl hs hh hcode hsuf
  exact (hlink.arrives_round hg hbody htyped hdecl hs hh hcode hsuf).2

end

theorem simulates_returnNone :
    Simulates I t program (.stmt env (.return pos none)) h (.returned none) h := by
  intro fn rest s k σ _ _ hs hh hcode _
  rw [← hh]
  exact reaches_popFrame hs hcode

theorem simulates_returnSome (hx : Simulates I t program (.value env x) h (.value (some c)) h') :
    Simulates I t program (.stmt env (.return pos (some x))) h (.returned (some c)) h' := by
  intro fn rest s k σ htyped _ hs hh hcode _
  obtain ⟨-, u, hu, -⟩ := htyped
  rw [lowerStmt_returnSome, append_assoc] at hcode
  obtain ⟨s₁, hreach, hcode₁, hcalls, hdata, hframes, hh₁, hdisc⟩ :=
    hx fn rest s _ σ (callHas_of_valueHas hu) hs hh hcode
  have hs₁ := hs.of_frames hframes hdisc
  have hpop : ∃ s', Reaches I program s₁ s' ∧ Returning s₁.calls s₁.data rest s₁.history s' :=
    reaches_popFrame hs₁ hcode₁
  rw [hcalls, hdata, hh₁] at hpop
  obtain ⟨s', hpop, hs'⟩ := hpop
  exact ⟨s', hreach.trans hpop, hs'⟩

/-- The machine does what evaluation says. -/
theorem Linked.simulates {job : Job} (hlink : Linked t fns program)
    (he : Evaluates I t fns job h out h') : Simulates I t program job h out h' := by
  induction he with
  | leaf hx => exact simulates_leaf hx
  | expression he => exact simulates_expression he
  | builtin htgt hblt hname hargs hr =>
    exact hlink.simulates_builtin htgt hblt hname hargs hr
  | user htgt hblt hfn hargs henv _ hr ih =>
    exact hlink.simulates_user htgt hblt hfn hargs henv ih hr
  | declare _ ih =>
    intro fn rest s k σ htyped hdecl hs hh hcode _
    obtain ⟨u, hu, -⟩ := htyped
    refine arrives_store ih (callHas_of_valueHas hu) (.inl (hdecl _ ?_)) hs hh hcode
    exact mem_cons_self
  | assign _ hr ih =>
    intro fn rest s k σ htyped hdecl hs hh hcode _
    obtain ⟨-, u, hu, -⟩ := htyped
    exact arrives_store ih (callHas_of_valueHas hu) (.inr hr) hs hh hcode
  | call hc ih => exact hlink.simulates_call hc ih
  | ifTrue hg _ ih => exact hlink.simulates_ifTrue hg ih
  | ifFalse hg _ ih => exact hlink.simulates_ifFalse hg ih
  | ifSkip hg => exact hlink.simulates_ifSkip hg
  | whileDone hg => exact hlink.simulates_whileDone hg
  | whileNext hg _ _ ih ihAgain => exact hlink.simulates_whileNext hg ih ihAgain
  | whileReturn hg _ ih => exact hlink.simulates_whileReturn hg ih
  | returnNone => exact simulates_returnNone
  | returnSome _ ih => exact simulates_returnSome ih
  | nil =>
    intro fn rest s k σ _ _ hs hh hcode _
    exact ⟨s, .refl, hs, hcode, rfl, rfl, hh⟩
  | cons _ _ ih ihRest =>
    intro fn rest s k σ htyped hdecl hs hh hcode hsuf
    obtain ⟨hfirst, hrest⟩ := htyped
    rw [lowerStmts_cons, append_assoc] at hcode
    obtain ⟨s₁, hreach, hs₁, hcode₁, hcalls, hdata, hh₁⟩ :=
      ih fn rest s _ σ hfirst (fun r hr => hdecl r (mem_append_left _ hr)) hs hh hcode
        hsuf
    refine .after hreach hcalls hdata ?_
    refine ihRest fn rest s₁ k _ hrest (fun r hr => hdecl r (mem_append_right _ hr)) hs₁
      hh₁ hcode₁ ?_
    rw [hcode] at hsuf
    rw [hcode₁]
    exact (suffix_append _ _).trans hsuf
  | stop _ ih =>
    intro fn rest s k σ htyped hdecl hs hh hcode hsuf
    rw [lowerStmts_cons, append_assoc] at hcode
    have hreturn := ih fn rest s _ σ htyped.1
      (fun r hr => hdecl r (mem_append_left _ hr)) hs hh hcode hsuf
    exact hreturn

end

end Ifj24.Machine
