import Ifj24.Proofs.Usage

/-!
Type inference leaves nothing open. The check comes to the statements in the order of the
source, and a name means a variable whose declaration stands before it; so the type of a
variable is known wherever the check reads it. Only a declaration can ask for a type that
nothing gives, if it has no type and stores null.
-/

open List

namespace Ifj24.Typing

open Ifj24.Tree Var

variable {v : Variable}

section

variable {body : Grammar.Body} {p : Grammar.Plain} {fns : List Function}
  {ds : List Grammar.Function}

variable {f : FuncDef} {s : CheckState} {t₀ t : Table} {n : Nat} {x : Stmt}
  {d : Diagnostic}

abbrev Apart (ts : List Token) : Prop := Grammar.NamesIn (· ≠ discard.name) ts

/-- A use of a variable in a statement, apart from the statements inside it. -/
def Uses (x : Stmt) (v : Variable) : Prop :=
  .variable v ∈ ownLeaves x ∨ ∃ value, x = .assign v.pos v.var value

theorem mem_of_mem_usesIn {xs : List Expr} (h : v ∈ usesIn xs) : .variable v ∈ xs := by
  obtain ⟨x, hx, hv⟩ := mem_flatMap.mp h
  cases x with
  | «variable» w =>
    cases mem_singleton.mp hv
    exact hx
  | _ => cases hv

theorem mem_leaves_of_mem_uses {x : Expr} (h : v ∈ x.uses) : .variable v ∈ leaves x := by
  cases x with
  | «variable» w =>
    cases mem_singleton.mp h
    exact mem_singleton_self _
  | expression e => exact mem_of_mem_usesIn h
  | call c => exact mem_of_mem_usesIn h
  | value | operand | truth => cases h

theorem mem_guardLeaves_of_mem_uses {g : Guard} (h : v ∈ g.uses) : .variable v ∈ guardLeaves g := by
  cases g with
  | compare c =>
    rcases mem_append.mp h with h | h
    · exact mem_append_left _ (mem_of_mem_usesIn h)
    · exact mem_append_right _ (mem_of_mem_usesIn h)
  | unwrap subject r =>
    cases mem_singleton.mp h
    exact mem_singleton_self _

theorem uses_plain (hp : p.Depicts t₀ n x) (h : v ∈ x.uses) : Uses x v := by
  cases hp with
  | declare hvalue | returnSome hvalue => exact .inl (mem_leaves_of_mem_uses h)
  | drop hvalue | assign _ hvalue =>
    rcases mem_cons.mp h with rfl | h
    · exact .inr ⟨_, rfl⟩
    · exact .inl (mem_leaves_of_mem_uses h)
  | call hc => exact .inl (mem_of_mem_usesIn h)
  | returnNone => cases h

theorem exists_reaches_of_passes (hbody : body.Depicts t₀ n xs)
    {ys : List Stmt} (h : Passes (stmts f xs) s ys s') (hv : v ∈ stmtsUses xs) :
    ∃ s₁ x, Reaches f s xs s₁ x ∧ Uses x v := by
  induction hbody generalizing s s' ys with
  | done => cases hv
  | plain hp _ ih =>
    obtain ⟨y, s₁, ys', hy, hys, -⟩ := stmts_cons_passes h
    rcases mem_append.mp hv with hv | hv
    · exact ⟨s, _, .here, uses_plain hp hv⟩
    · obtain ⟨s₂, x, hx, huses⟩ := ih hys hv
      exact ⟨s₂, x, .later hy hx, huses⟩
  | branch _ _ _ ihyes ih =>
    obtain ⟨y, s₁, ys', hy, hys, -⟩ := stmts_cons_passes h
    obtain ⟨g', s₂, zs, s₃, hg, hzs, -⟩ := ifElse_passes hy
    simp only [stmtsUses, Stmt.uses, append_nil, mem_append] at hv
    rcases hv with (hv | hv) | hv
    · exact ⟨s, _, .here, .inl (mem_guardLeaves_of_mem_uses hv)⟩
    · obtain ⟨s₄, x, hx, huses⟩ := ihyes hzs hv
      exact ⟨s₄, x, .yes hg hx, huses⟩
    · obtain ⟨s₄, x, hx, huses⟩ := ih hys hv
      exact ⟨s₄, x, .later hy hx, huses⟩
  | branchElse _ _ _ _ ihyes ihno ih =>
    obtain ⟨y, s₁, ys', hy, hys, -⟩ := stmts_cons_passes h
    obtain ⟨g', s₂, zs, s₃, hg, hzs, ws, hws, -⟩ := ifElse_passes hy
    simp only [stmtsUses, Stmt.uses, mem_append] at hv
    rcases hv with (hv | hv | hv) | hv
    · exact ⟨s, _, .here, .inl (mem_guardLeaves_of_mem_uses hv)⟩
    · obtain ⟨s₄, x, hx, huses⟩ := ihyes hzs hv
      exact ⟨s₄, x, .yes hg hx, huses⟩
    · obtain ⟨s₄, x, hx, huses⟩ := ihno hws hv
      exact ⟨s₄, x, .no hg hzs hx, huses⟩
    · obtain ⟨s₄, x, hx, huses⟩ := ih hys hv
      exact ⟨s₄, x, .later hy hx, huses⟩
  | loop _ _ _ ihbody ih =>
    obtain ⟨y, s₁, ys', hy, hys, -⟩ := stmts_cons_passes h
    obtain ⟨g', s₂, zs, hg, hzs, -⟩ := while_passes hy
    simp only [stmtsUses, Stmt.uses, mem_append] at hv
    rcases hv with (hv | hv) | hv
    · exact ⟨s, _, .here, .inl (mem_guardLeaves_of_mem_uses hv)⟩
    · obtain ⟨s₄, x, hx, huses⟩ := ihbody hzs hv
      exact ⟨s₄, x, .body hg hx, huses⟩
    · obtain ⟨s₄, x, hx, huses⟩ := ih hys hv
      exact ⟨s₄, x, .later hy hx, huses⟩

theorem exists_comes_of_passes (hds : Grammar.FunctionsDepict t₀ n ds fns)
    (h : functions fns s = ((⟨fns', none⟩, messages), s'))
    (hv : v ∈ fns.flatMap fun fn => stmtsUses fn.body.stmts) :
    ∃ s₁ x, Comes s fns s₁ x ∧ Uses x v := by
  induction hds generalizing s fns' messages with
  | nil => cases hv
  | cons hd _ ih =>
    obtain ⟨fn', message, s₁, rest, messages', hfn, hfns, -⟩ := functions_cons_passes h
    obtain ⟨ys, hys, -⟩ := stmts_of_function hfn
    rcases mem_append.mp hv with hv | hv
    · cases hd with
      | mk _ hbody =>
        obtain ⟨s₂, x, hx, huses⟩ := exists_reaches_of_passes hbody hys hv
        exact ⟨s₂, x, .here hx, huses⟩
    · obtain ⟨s₂, x, hx, huses⟩ := ih hfns hv
      exact ⟨s₂, x, .later hfn hx, huses⟩

end

section

open Grammar

variable {r : VarRef}

variable {f : FuncDef} {s : CheckState} {t₀ t : Table} {x : Stmt} {d : Diagnostic}

structure Laid (t₀ : Table) : Prop where
  name : (t₀.var Table.discard).name = discard.name
  others : ∀ r, 0 < r → r < t₀.store.size → (t₀.var r).isDiscard = false

theorem Laid.not_discard (h : Laid t₀) (ha : Named t₀ n a r)
    (hname : a.literal ≠ discard.name) : (t₀.var r).isDiscard = false := by
  have hdisc (hr : (t₀.var r).name = discard.name) : False := hname (ha.2.symm.trans hr)
  by_cases hsize : r < t₀.store.size
  · refine h.others r (Nat.pos_of_ne_zero ?_) hsize
    rintro rfl
    exact hdisc h.name
  · refine (hdisc ?_).elim
    simp [Table.var, Array.getD_eq_getD_getElem?, hsize]

theorem Laid.inferred (h : Laid t₀) (hfront : Front t₀ n t)
    (ha : Named t₀ n a r) (hname : a.literal ≠ discard.name) : (t.var r).Inferred := by
  refine hfront.known r ha.1 (hfront.typed r ha.1 ?_)
  rw [isDiscard, hfront.id]
  exact h.not_discard ha hname

theorem sourced_guard {d : Grammar.Guard} {g : Tree.Guard} (hd : d.Depicts t₀ n g) :
    Sourced t₀ n d.tokens (guardLeaves g) := by
  cases hd with
  | compare hspell =>
    obtain ⟨hleft, hright⟩ := sourced_compare hspell
    refine (hleft.mono fun a ha => ?_).append (hright.mono fun a ha => ?_) <;>
      simp [Grammar.Guard.tokens, ha]
  | @unwrap opening subject bound closing bar bar' r hsubj hbound =>
    refine ⟨fun v hv => ?_, fun v hv => ?_⟩
    · cases mem_singleton.mp hv
    · cases mem_singleton.mp hv
      exact ⟨subject.1, by simp [Grammar.Guard.tokens], subject.2, hsubj⟩

theorem sourced_plain {p : Plain} (hp : p.Depicts t₀ n x) : Sourced t₀ n p.tokens (ownLeaves x) := by
  cases hp with
  | declare hvalue | drop hvalue | assign _ hvalue =>
    exact (sourced_rhs hvalue).mono fun a ha => by simp [Plain.tokens, ha]
  | call hc => exact (sourced_call hc).mono fun a => mem_append_left _
  | returnNone => constructor <;> intro v hv <;> cases hv
  | returnSome hvalue =>
    exact (sourced_rhs hvalue).mono fun a ha => by simp [Plain.tokens, Plain.optional, ha]

theorem Stands.sourced (h : Stands (· ≠ discard.name) t₀ n x) : ∃ ts, Apart ts ∧ Sourced t₀ n ts (ownLeaves x) := by
  cases h with
  | plain hp hnames => exact ⟨_, hnames, sourced_plain hp⟩
  | branch hd hnames | loop hd hnames => exact ⟨_, hnames, sourced_guard hd⟩

theorem Stands.inferred (h : Stands (· ≠ discard.name) t₀ n x) (ht₀ : Laid t₀)
    (hfront : Front t₀ n t) (hv : .variable v ∈ ownLeaves x) : (t.var v.var).Inferred := by
  obtain ⟨ts, hnames, hsourced⟩ := h.sourced
  obtain ⟨a, ha, hkind, hnamed⟩ := hsourced.vars v hv
  exact ht₀.inferred hfront hnamed (hnames a ha hkind)

/-- A declaration without a type that stores null, and what is said about it. -/
def DeclaresNull (t : Table) (d : Diagnostic) (x : Stmt) : Prop :=
  ∃ pos r value, x = .declare pos r value ∧ (t.var r).type = .unresolved ∧ IsNull value ∧
    d = ⟨value.pos, .untypedNull (t.var r).name⟩

theorem Stands.declaresNull (h : Stands (· ≠ discard.name) t₀ n x) (ht₀ : Laid t₀) (hfront : Front t₀ n s.table)
    (hd : d.kind = .unknownType) (hfails : FailsAt f s d x) : DeclaresNull t₀ d x := by
  have hres : Resolved s.table (ownLeaves x) := fun v hv =>
    (h.inferred ht₀ hfront hv).type.isResolved
  rcases failsAt_cases (fun _ => hres) False.elim hfails with
    hblames | ⟨pos, r, value, hx, hdisc, hopen, hnull, rfl⟩
  · exact absurd hd (hblames.type trivial)
  cases h with
  | branch | loop => rcases hx with hx | hx <;> cases hx
  | plain hp =>
    cases hp with
    | @declare _ _ mark _ _ _ _ _ hvar =>
      rcases hx with hx | hx <;> cases hx
      rw [hfront.ahead n (Nat.le_refl n)] at hopen ⊢
      refine ⟨_, _, _, rfl, ?_, hnull, rfl⟩
      cases mark with
      | none => exact hvar.type
      | some mark =>
        rw [(Declared.inferred mark.type hvar).type.isResolved] at hopen
        cases hopen
    | drop =>
      rcases hx with hx | hx <;> cases hx
      rw [hfront.typed Table.discard hfront.pos hdisc] at hopen
      cases hopen
    | assign htgt =>
      rcases hx with hx | hx <;> cases hx
      rw [hfront.typed _ htgt.1 hdisc] at hopen
      cases hopen
    | call | returnNone | returnSome => rcases hx with hx | hx <;> cases hx

end

section

variable {p : Grammar.Program} {hash : NameHash} {strict : Bool} {parsed : Parsed} {t : Table}

theorem apart_of_tokenize (h : tokenize file source = .ok tokens) : Apart tokens := by
  intro a ha hkind hdisc
  obtain ⟨chars, hname, hlit⟩ := exists_isName_of_tokenize h ha hkind
  apply hname.discard
  rw [← Scanner.characters_ofChars chars, ← hlit, hdisc]
  decide

theorem Laid.of_accepted (h : p.Accepted hash strict parsed t)
    (hsize : t.vars.length ≤ UInt32.size) : Laid t where
  name := (h.later.alike Table.discard Nat.one_pos).name
  others r hpos hr := by
    rw [Table.vars, length_map, h.consistent.log, length_range] at hsize
    rw [← Bool.not_eq_true, isDiscard_iff h.consistent hr,
      Nat.mod_eq_of_lt (Nat.lt_of_lt_of_le hr hsize)]
    exact Nat.ne_of_gt hpos

theorem fails_of_unknownType (h : p.Accepted hash strict parsed t) {d : Diagnostic}
    (hcheck : (check parsed t).failure = some d) (hd : d.kind = .unknownType) :
    (functions parsed.program.functions ⟨t, 0⟩).1.1.failure = some d := by
  rcases Option.or_eq_some_iff.mp hcheck with hfails | ⟨-, hunused⟩
  · exact hfails
  · have hledger := h.ledger
    rw [hunused] at hledger
    obtain ⟨_, _, _, _, _, _, _, _, _, _, _, _, rfl⟩ := hledger.exists_of_unused
    cases hd

theorem exists_vars_inferred (h : p.Accepted hash strict parsed t) (ht : Laid t)
    (hcheck : (check { parsed with unused := none } t).failure = none) :
    ∃ first rest, (check parsed t).table.vars = first :: rest ∧
      first.name = discard.name ∧ ∀ v ∈ rest, v.Inferred := by
  have hpass := Passed.of_check h hcheck
  have hfront := hpass.advances.front
  have hretains := hpass.retains
  have hvars : (check parsed t).table.vars =
      (List.range (1 + Grammar.countAll p.functions)).map (check parsed t).table.var := by
    rw [Table.vars, hretains.log, h.consistent.log, h.size]
  rw [range_eq_range', Nat.add_comm, range'_succ] at hvars
  refine ⟨_, _, hvars, (hretains.name 0).trans ht.name, ?_⟩
  intro v hv
  obtain ⟨r, hr, rfl⟩ := mem_map.mp hv
  obtain ⟨hpos, hlt⟩ := mem_range'_1.mp hr
  have hbound : r < 1 + Grammar.countAll p.functions := by omega
  refine hfront.known r hbound (hfront.typed r hbound ?_)
  rw [isDiscard, hfront.id]
  exact ht.others r (by omega) (h.size ▸ hbound)

end

/-- Type inference is complete on programs that parsing accepts. Wherever the check comes to,
the variables in the expressions of the statement have a type of values and a known
nullability; a type is found wanting only at a declaration without one that stores null; and a
check without a fault has come to every use of a variable and leaves all this known of every
variable but `_`. No name is to be `_`, which the names of a source never are, and there are to
be no more variables than numbers. -/
theorem inference_complete (tokens : List Token) (hash : NameHash) (strict : Bool) :
    (∀ file source, tokenize file source = .ok tokens → Apart tokens) ∧
    ∀ parsed t, Apart tokens → parse (.ofTokens tokens) (.fresh hash strict) = .ok parsed t →
      t.vars.length ≤ UInt32.size →
      (∀ s x, Comes ⟨t, 0⟩ parsed.program.functions s x →
        ∀ v, .variable v ∈ ownLeaves x → (s.table.var v.var).Inferred) ∧
      (∀ d, (check parsed t).failure = some d → d.kind = .unknownType →
        ∃ s x, Comes ⟨t, 0⟩ parsed.program.functions s x ∧ DeclaresNull t d x) ∧
      ((check { parsed with unused := none } t).failure = none →
        (∀ v ∈ parsed.program.uses,
          ∃ s x, Comes ⟨t, 0⟩ parsed.program.functions s x ∧ Uses x v) ∧
        ∃ first rest, (check parsed t).table.vars = first :: rest ∧
          first.name = discard.name ∧ ∀ v ∈ rest, v.Inferred) := by
  refine ⟨fun file source => apart_of_tokenize, fun parsed t hapart hparse hsize => ?_⟩
  obtain ⟨p, hacc, htoks, -⟩ := Grammar.exists_derivation hparse
  have hlaid := Laid.of_accepted hacc hsize
  have hnames : Apart (p.functions.flatMap Grammar.Function.tokens) := by
    intro a ha hkind
    rcases htoks a (p.mem_tokens ha) with htoken | heof
    · exact hapart a htoken hkind
    · rw [hkind] at heof
      cases heof
  have hstands {s : CheckState} {x : Stmt} (hcomes : Comes ⟨t, 0⟩ parsed.program.functions s x) :
      ∃ m, Front t m s.table ∧ Stands (· ≠ discard.name) t m x :=
    Front.comes hacc.depicts.functions hnames (Front.start hacc) hcomes
  refine ⟨fun s x hcomes v hv => ?_, fun d hd hkind => ?_, fun hcheck => ⟨fun v hv => ?_,
    exists_vars_inferred hacc hlaid hcheck⟩⟩
  · obtain ⟨m, hfront, hx⟩ := hstands hcomes
    exact hx.inferred hlaid hfront hv
  · obtain hblames | ⟨s, x, f, hcomes, hfails⟩ := exists_comes_of_fails (R := True) (S := False)
      (fails_of_unknownType hacc hd hkind)
    · exact absurd hkind (hblames.type trivial)
    obtain ⟨m, hfront, hx⟩ := hstands hcomes
    exact ⟨s, x, hcomes, hx.declaresNull hlaid hfront hkind hfails⟩
  · obtain ⟨fns, messages, s, hrun, -⟩ := exists_run_of_check hcheck
    exact exists_comes_of_passes hacc.depicts.functions hrun hv

/-- A program with `const x = null;` as its `main`. -/
def declaringNull : Grammar.Program :=
  .ofFunctions [.simple "main" (.plain (.const "x" none .null) .done)]

/-- In the one program, the types of `x` and `y` are found from that of a call. In the other,
there is no type for `x`. -/
theorem inference_complete_sample :
    (∃ parsed t,
      parse (.ofTokens Grammar.Program.sample.tokens) (.fresh (fun _ => 0) true) = .ok parsed t ∧
        (check { parsed with unused := none } t).failure = none ∧
        ∃ first rest, (check parsed t).table.vars = first :: rest ∧ rest.length = 2 ∧
          ∀ v ∈ rest, v.Inferred) ∧
    ∃ parsed t d,
      parse (.ofTokens declaringNull.tokens) (.fresh (fun _ => 0) true) = .ok parsed t ∧
        (check parsed t).failure = some d ∧ d.kind = .unknownType ∧
        ∃ s x, Comes ⟨t, 0⟩ parsed.program.functions s x ∧ DeclaresNull t d x := by
  constructor
  · have hapart : ∀ a ∈ Grammar.Program.sample.tokens, a.kind = .name →
        a.literal ≠ discard.name := by
      decide +kernel
    obtain ⟨parsed, t, hparse, hsize, hcheck, hlen⟩ : ∃ parsed t,
        parse (.ofTokens Grammar.Program.sample.tokens) (.fresh (fun _ => 0) true) = .ok parsed t ∧
          t.vars.length ≤ UInt32.size ∧ (check { parsed with unused := none } t).failure = none ∧
          (check parsed t).table.vars.length = 3 := by
      decide +kernel
    obtain ⟨-, -, hpasses⟩ := (inference_complete _ _ _).2 parsed t hapart hparse hsize
    obtain ⟨-, first, rest, hvars, -, hrest⟩ := hpasses hcheck
    rw [hvars, length_cons] at hlen
    exact ⟨parsed, t, hparse, hcheck, first, rest, hvars, Nat.succ.inj hlen, hrest⟩
  · have hapart : ∀ a ∈ declaringNull.tokens, a.kind = .name → a.literal ≠ discard.name := by
      decide +kernel
    let b := TokenBuffer.ofTokens declaringNull.tokens
    have hitems : declaringNull.tokens ++ [] = b.items := by decide +kernel
    obtain ⟨parsed, t, hparse, hsize, hfail⟩ : ∃ parsed t,
        parse b (.fresh (fun _ => 0) true) = .ok parsed t ∧ t.vars.length ≤ UInt32.size ∧
          (check parsed t).failure.map (·.kind) = some .unknownType := by
      rw [Grammar.parse_tokens hitems (Grammar.shows_fresh _ _)]
      decide +kernel
    obtain ⟨d, hd, hkind⟩ := Option.map_eq_some_iff.mp hfail
    obtain ⟨-, hwants, -⟩ := (inference_complete _ _ _).2 parsed t hapart hparse hsize
    exact ⟨parsed, t, d, hparse, hd, hkind, hwants d hd hkind⟩

end Ifj24.Typing
