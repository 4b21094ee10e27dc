import Ifj24.Proofs.StackEffects

/-!
Functions keep the data stack in order. Between two statements of a function there is
nothing on the data stack but what its caller has left there; a value is put on it once, a
return statement leaves it there, and at the end of the body there is none. So a function
gives its result on every path if its body cannot be left without a return statement. The
checker asks for less: one return statement anywhere in the body.
-/

open List

namespace Ifj24

namespace Machine

open Ifj24.Tree Code Meaning Typing

variable {code k : List Instr} {calls : Calls}

namespace Activation

section

variable {A : Activation} {t : Table}

theorem turns_one (hcalls : A.calls = Signed t)
    (h : i.turn? t = some (taken, left)) : A.Turns [i] taken left := by
  unfold Instr.turn? at h
  split at h
  · cases h
    exact turns_push A _
  · cases h
    exact turns_pop A _
  · obtain ⟨m, hm, heq⟩ := Option.map_eq_some_iff.mp h
    cases heq
    exact turns_stack A hm
  · cases h
    exact turns_builtin A _
  · obtain ⟨f, hf, heq⟩ := Option.map_eq_some_iff.mp h
    cases heq
    exact turns_call hcalls hf
  · cases h
    exact turns_silent A .defVar
  · cases h
    exact turns_silent A .move
  · cases h

theorem turns_of_straight (hcalls : A.calls = Signed t) (h : Straight t code l m) :
    A.Turns code l m := by
  induction h with
  | nil m => exact turns_nil A m
  | cons hi _ ih => exact ((turns_one hcalls hi).above _).append ih

theorem safe_of_forks {n : Nat} (hcalls : A.calls = Signed t)
    (h : Forks t target code) (hl : codeAt target A.program = some k') (hk : A.Safe n ⟨k, A.base⟩)
    (hk' : A.Safe n ⟨k', A.base⟩) : A.Safe n ⟨code ++ k, A.base⟩ := by
  obtain ⟨front, back, rfl, hfront, hback⟩ := h
  rw [append_assoc]
  refine (turns_of_straight hcalls hfront).safe fun left hleft => ?_
  exact safe_jumpIfEqs hleft hl ((turns_of_straight hcalls hback).safe_zero hk) hk'

end

section

/-- Code of statements, wherever it stands. Between statements the function has nothing on
the data stack; the way behind them is not looked at if they all return. -/
def Carries (A : Activation) (returns : Bool) (code : List Instr) : Prop :=
  ∀ n k, code ++ k <:+ A.program → A.after.length < k.length →
    (returns = false → A.Safe n ⟨k, A.base⟩) → A.Safe n ⟨code ++ k, A.base⟩

variable {A : Activation} {t : Table} {fns : List Function} {f : FuncDef}

theorem Turns.carries (h : A.Turns code 0 0) : A.Carries false code :=
  fun _ _ _ _ hk => h.safe_zero (hk rfl)

theorem Carries.append {r r' : Bool} (h : A.Carries r code)
    (h' : A.Carries r' code') : A.Carries (r || r') (code ++ code') := by
  intro n k hsuf hlong hk
  rw [append_assoc] at hsuf ⊢
  refine h n _ hsuf ?_ fun hr => ?_
  · rw [length_append]
    omega
  · refine h' n k ((suffix_append _ _).trans hsuf) hlong fun hr' => hk ?_
    rw [hr, hr']
    rfl

theorem carries_return (h : A.Turns code 0 A.hasResult.toNat) :
    A.Carries true (code ++ [.popFrame, .return]) := by
  intro n k hsuf hlong _
  have hcode : code ++ [.popFrame, .return] ++ k = code ++ [.popFrame] ++ .return :: k := by simp
  have hframe : A.Turns (code ++ [.popFrame]) 0 A.hasResult.toNat := by
    have hpop := (turns_silent A .popFrame).above A.hasResult.toNat
    rw [Nat.zero_add] at hpop
    exact h.append hpop
  rw [hcode]
  refine hframe.safe fun left hleft => safe_return ?_ ?_
  · rintro rfl
    omega
  · exact leaves_iff.mpr ⟨left, hleft, rfl⟩

structure Fits (A : Activation) (t : Table) (fns : List Function) (f : FuncDef) : Prop where
  linked : Linked t fns A.program
  calls : A.calls = Signed t
  result : A.hasResult = f.hasResult

section

variable {no : List Instr}

theorem carries_branch (hA : A.Fits t fns f)
    (hjump : Forks t (.flow owner .otherwise number) jump) (hyes : A.Carries r yes) :
    A.Carries false (branchCode owner number jump yes none) := by
  intro n k hsuf hlong hk
  rw [branchCode_none] at hsuf ⊢
  have htgt := hA.linked.leads hsuf (append_assoc ..).symm
  have hlabel := (turns_silent A (.label (.flow owner .otherwise number))).safe_zero (hk rfl)
  refine safe_of_forks hA.calls hjump htgt ?_ hlabel
  refine hyes n _ ((suffix_append _ _).trans hsuf) ?_ fun _ => hlabel
  rw [length_cons]
  omega

theorem carries_branchElse (hA : A.Fits t fns f)
    (hjump : Forks t (.flow owner .otherwise number) jump) (hyes : A.Carries r yes)
    (hno : A.Carries r' no) :
    A.Carries (r && r') (branchCode owner number jump yes (some no)) := by
  intro n k hsuf hlong hk
  rw [branchCode_some] at hsuf ⊢
  obtain ⟨htgt, hdone⟩ := hA.linked.leads_branch hsuf rfl
  have hlabel (hends : (r && r') = false) :
      A.Safe n ⟨.label (.flow owner .endIf number) :: k, A.base⟩ :=
    (turns_silent A (.label _)).safe_zero (hk hends)
  refine safe_of_forks hA.calls hjump htgt ?_ ((turns_silent A (.label _)).safe_zero ?_)
  · refine hyes n _ ((suffix_append jump _).trans hsuf) ?_ fun hr => ?_
    · simp only [length_cons, length_append]
      omega
    · have hend := hlabel (by rw [hr, Bool.false_and])
      exact safe_jump hdone fun m hm => (hm ▸ hend).of_succ
  · refine hno n _ ((suffix_cons _ _).trans (suffix_of_codeAt htgt)) ?_ fun hr' => ?_
    · rw [length_cons]
      omega
    · exact hlabel (by rw [hr', Bool.and_false])

/-- The code of a loop. The induction is on the steps that are left: a round takes some. -/
theorem carries_loop (hA : A.Fits t fns f)
    (hjump : Forks t (.flow owner .endLoop number) jump) (hbody : A.Carries r body) :
    A.Carries false (loopCode owner number jump body) := by
  intro n k hsuf hlong hk
  rw [loopCode_append] at hsuf ⊢
  obtain ⟨hloop, hdone⟩ := hA.linked.leads_loop hsuf rfl
  have hbodySuffix := ((suffix_append jump _).trans (suffix_cons _ _)).trans hsuf
  let again : List Instr := .label (.flow owner .loop number) :: (jump ++ (body ++
    .jump (.flow owner .loop number) :: .label (.flow owner .endLoop number) :: k))
  have round {n : Nat} (hk : A.Safe n ⟨k, A.base⟩)
      (hagain : ∀ m, n = m + 1 → A.Safe m ⟨again, A.base⟩) : A.Safe n ⟨again, A.base⟩ := by
    have hlabel : A.Safe n ⟨.label (.flow owner .endLoop number) :: k, A.base⟩ :=
      (turns_silent A (.label _)).safe_zero hk
    refine (turns_silent A (.label _)).safe_zero (safe_of_forks hA.calls hjump hdone ?_ hlabel)
    refine hbody _ _ hbodySuffix ?_ fun _ => safe_jump hloop hagain
    simp only [length_cons]
    omega
  replace hk := hk rfl
  induction n with
  | zero => exact round hk nofun
  | succ n ih =>
    have hagain := ih hk.of_succ
    exact round hk fun m hm => Nat.succ.inj hm ▸ hagain

end

theorem carries_composes (hA : A.Fits t fns f) :
    Composes t f owner (fun s σ => A.Carries s.returns (lowerStmt t owner s σ).1)
      (fun ss σ => A.Carries (stmtsReturn ss) (lowerStmts t owner ss σ).1) where
  nil σ := by
    rw [lowerStmts]
    exact (turns_nil A 0).carries
  cons hs hrest := by
    rw [lowerStmts_cons, stmtsReturn]
    exact hs.append hrest
  blockEnd e σ := by
    rw [lowerStmt]
    exact (turns_nil A 0).carries
  store {_ r _ _ _} hs hx hσ := by
    have hcode := (emits_value hA.linked.known hx _ hσ).2.append (.popped t (place t r))
    rw [hs.lowerStmt_eq]
    cases hs <;> exact (turns_of_straight hA.calls hcode).carries
  call {_ g _} hc hvoid hσ := by
    have hnone : g.hasResult.toNat = 0 := by simp [FuncDef.hasResult, hvoid]
    have hcode := (emits_call hA.linked.known hc _ hσ).2
    rw [hnone] at hcode
    rw [lowerStmt]
    exact (turns_of_straight hA.calls hcode).carries
  returned hx hσ := by
    obtain ⟨-, -, value, hvalue, hcode⟩ := emits_return hA.linked.known _ hx _ hσ
    rw [hcode]
    exact carries_return (hA.result ▸ turns_of_straight hA.calls hvalue)
  branch hg hσ hyes := by
    rw [lowerStmt_if, Stmt.returns, Bool.and_false]
    exact carries_branch hA (emits_guard _ hg _ hσ).2 hyes
  branchElse hg hσ hyes hno := by
    rw [lowerStmt_ifElse, Stmt.returns]
    exact carries_branchElse hA (emits_guard _ hg _ hσ).2 hyes hno
  loop hg hσ hbody := by
    rw [lowerStmt_while]
    exact carries_loop hA (emits_guard _ hg _ hσ).2 hbody

end

section

variable {t : Table} {fns : List Function} {program : List Instr} {fn : Function}

/-- A call of a function, with what its body says about the end. -/
def ofCall (t : Table) (program : List Instr) (fn : Function) (base : List Constant)
    (after : List Instr) : Activation where
  program
  calls := Signed t
  hasResult := fn.definition.hasResult
  base
  after
  ends := stmtsReturn fn.body.stmts = false

theorem turns_entry {A : Activation} (hcalls : A.calls = Signed t) (fn : Function) :
    A.Turns (entryCode t fn) fn.params.length 0 := by
  have hframe : A.Turns [.label (.function fn.name), .createFrame, .pushFrame] 0 0 :=
    (turns_silent A (.label _)).append ((turns_silent A .createFrame).append (turns_silent A .pushFrame))
  have hstart := hframe.above fn.params.length
  have hlocals := straight_entry t (frameVars fn) fn.params.reverse
  rw [Nat.zero_add] at hstart
  rw [length_reverse] at hlocals
  rw [entryCode, append_assoc]
  exact hstart.append (turns_of_straight hcalls hlocals)

theorem emits_function (hlink : Linked t fns program) (hfn : fn ∈ fns) :
    Emits (lowerFunction t fn) fun code => ∀ args base after n, code ++ after <:+ program →
      args.length = fn.params.length →
      (ofCall t program fn base after).Safe n ⟨code ++ after, args ++ base⟩ := by
  intro σ hσ
  have hbody (base : List Constant) (after : List Instr) :=
    composed_stmts hlink.known (carries_composes (A := ofCall t program fn base after)
      ⟨hlink, rfl, rfl⟩) fn.body.stmts (hlink.typed fn hfn) σ hσ
  refine ⟨(hbody [] []).1, fun args base after n hsuf hargs => ?_⟩
  rw [lowerFunction_eq, append_assoc, append_assoc] at hsuf ⊢
  refine turns_entry rfl fn n _ args [] hargs fun left hleft => ?_
  obtain rfl := eq_nil_of_length_eq_zero hleft
  refine (hbody base after).2 n _ ((suffix_append _ _).trans hsuf) ?_ fun hends => ?_
  · rw [length_append]
    exact Nat.lt_add_of_pos_left Nat.two_pos
  · exact (turns_silent _ .popFrame).safe_zero (safe_closing hends)

end

end Activation

open Activation

section

variable {name : Bytes} {args d : List Constant} {p q : Point}

variable {t : Table} {fns : List Function} {program : List Instr}

theorem exists_of_lowerFunctions
    (h : ∀ fn ∈ fns, ∀ σ, (lowerFunction t fn σ).2.failure = none → σ.failure = none)
    (hσ : (lowerFunctions t fns σ).2.failure = none) :
    σ.failure = none ∧ ∀ fn ∈ fns, ∃ pre σ' k,
      functionsCode (lowerFunctions t fns σ).1 = pre ++ ((lowerFunction t fn σ').1 ++ k) ∧
        (lowerFunction t fn σ').2.failure = none := by
  induction fns generalizing σ with
  | nil => exact ⟨hσ, fun _ hfn => nomatch hfn⟩
  | cons g rest ih =>
    rw [lowerFunctions_cons] at hσ ⊢
    rw [functionsCode, flatMap_cons]
    obtain ⟨hmid, hrest⟩ := ih (fun fn hfn => h fn (mem_cons_of_mem g hfn)) hσ
    refine ⟨h g mem_cons_self σ hmid, fun fn hfn => ?_⟩
    rcases mem_cons.mp hfn with rfl | hfn
    · exact ⟨[], σ, _, rfl, hmid⟩
    · obtain ⟨pre, σ', k, hsplit, hσ'⟩ := hrest fn hfn
      refine ⟨(lowerFunction t g σ).1 ++ pre, σ', k, ?_, hσ'⟩
      rw [functionsCode] at hsplit
      rw [hsplit, append_assoc]

/-- What is known of a program whose functions keep to the rule. -/
structure Balanced (t : Table) (fns : List Function) (program : List Instr) : Prop where
  safe : ∀ fn ∈ fns, ∃ σ after,
    codeAt (.function fn.name) program = some ((lowerFunction t fn σ).1 ++ after) ∧
      ∀ args base n, args.length = fn.params.length →
        (ofCall t program fn base after).Safe n
          ⟨(lowerFunction t fn σ).1 ++ after, args ++ base⟩
  signed : ∀ fn ∈ fns, t.lookupFunction? fn.name = some fn.definition ∧
    fn.definition.params.length = fn.params.length
  found : ∀ name code, codeAt (.function name) program = some code → ∃ fn ∈ fns, fn.name = name

theorem mem_labels_of_codeAt (h : codeAt l program = some code) :
    l ∈ labels program := by
  induction program with
  | nil => cases h
  | cons i rest ih =>
    rw [codeAt] at h
    split at h
    · rename_i hi
      rw [hi]
      exact mem_cons_self
    · have hmem := ih h
      cases i <;> first | exact hmem | exact mem_cons_of_mem _ hmem

variable {comments : Bool} {fn : Function} {base : List Constant} {after : List Instr}

theorem exists_of_codeAt_generate {q : Tree.Program} (hnames : (q.functions.map (·.name)).Nodup)
    (h : codeAt (.function name) (generate comments t q).code = some code) :
    ∃ fn ∈ q.functions, fn.name = name := by
  obtain ⟨keep, hcode⟩ := code_generate comments t q
  have hmem := mem_labels_of_codeAt h
  rw [hcode, labels_append, labels_append, mem_append, mem_append] at hmem
  rcases hmem with (hstart | huser) | hblt
  · cases hstart
  · rcases (labelled_lowerFunctions t q.functions ⟨0, none⟩ hnames).range _ huser with
      ⟨_, hname, heq⟩ | ⟨owner, tag, n, heq, -⟩
    · cases heq
      exact mem_map.mp hname
    · cases heq
  · cases (builtinLabels keep).2 _ hblt

section

variable {q : Tree.Program}

variable {p : Grammar.Program} {hash : NameHash} {strict : Bool} {parsed : Parsed} {u : Table}

theorem placed_of_passed (h : Passed p hash strict parsed t q u)
    (hfail : (generate comments u q).failure = none) (hfn : fn ∈ q.functions) :
    ∃ σ after, (lowerFunction u fn σ).2.failure = none ∧
      (lowerFunction u fn σ).1 ++ after <:+ (generate comments u q).code ∧
      codeAt (.function fn.name) (generate comments u q).code =
        some ((lowerFunction u fn σ).1 ++ after) := by
  have hlink := linked_of_passed h comments
  obtain ⟨keep, hcode⟩ := code_generate comments u q
  obtain ⟨-, hall⟩ := exists_of_lowerFunctions
    (fun fn hfn σ hσ => (emits_function hlink hfn σ hσ).1) hfail
  obtain ⟨pre, σ, k, hsplit, hσ⟩ := hall fn hfn
  let after := k ++ (Builtin.all.filter keep).flatMap builtinCode
  have hprog : (generate comments u q).code =
      startCode ++ pre ++ ((lowerFunction u fn σ).1 ++ after) := by
    rw [hcode, hsplit]
    simp only [after, append_assoc]
  have hnodup := hlink.nodup
  rw [hprog] at hnodup ⊢
  exact ⟨σ, after, hσ, suffix_append _ _, codeAt_of_nodup hnodup⟩

theorem balanced_of_passed (h : Passed p hash strict parsed t q u)
    (hfail : (generate comments u q).failure = none) :
    Balanced u q.functions (generate comments u q).code := by
  have hlink := linked_of_passed h comments
  obtain ⟨-, href, -⟩ := h.advances
  obtain ⟨hnames, hshows⟩ := shows_of_passed h
  constructor
  case safe =>
    intro fn hfn
    obtain ⟨σ, after, hσ, hsuf, hcode⟩ := placed_of_passed h hfail hfn
    refine ⟨σ, after, hcode, fun args base n hargs => ?_⟩
    exact (emits_function hlink hfn σ hσ).2 args base after n hsuf hargs
  case signed =>
    intro fn hfn
    obtain ⟨d, hd, m, -, -, hfn⟩ := hshows fn hfn
    rw [href.lookupFunction?, hfn.name, hfn.definition, hfn.params, length_range']
    refine ⟨h.lookups d hd, ?_⟩
    exact length_map _
  case found =>
    intro name code hcode
    exact exists_of_codeAt_generate (hnames ▸ h.names) hcode

end

/-- Calls that run the code of the called function, with no more than so many calls inside
one another. -/
def Nested (program : List Instr) : Nat → Calls
  | 0 => fun _ _ _ => False
  | depth + 1 => fun name d d' => ∃ code k, codeAt (.function name) program = some code ∧
    Path program (Nested program depth) ⟨code, d⟩ ⟨.return :: k, d'⟩

theorem Edge.of_calls (h : Edge program calls p q)
    (hcalls : ∀ name k d d', p = ⟨.call (.function name) :: k, d⟩ → calls name d d' →
      calls' name d d') : Edge program calls' p q := by
  cases h with
  | label => exact .label
  | jump h => exact .jump h
  | skip => exact .skip
  | branch h => exact .branch h
  | builtin hargs hd => exact .builtin hargs hd
  | call h => exact .call (hcalls _ _ _ _ rfl h)
  | createFrame => exact .createFrame
  | pushFrame => exact .pushFrame
  | popFrame => exact .popFrame
  | defVar => exact .defVar
  | move => exact .move
  | push => exact .push
  | pop => exact .pop
  | stack hop => exact .stack hop

/-- Where all points keep to the rule, it is enough that calls do what they should at such
points. -/
theorem Activation.orderly_of_path_of_calls {A : Activation}
    (hcalls : ∀ name k d d', A.Orderly ⟨.call (.function name) :: k, d⟩ → calls name d d' →
      A.calls name d d') (hsafe : ∀ n, A.Safe n p) (hpath : Path A.program calls p q) :
    A.Orderly q := by
  induction hpath with
  | refl => exact (hsafe 0).orderly
  | step hedge _ ih =>
    refine ih fun n => (hsafe (n + 1)).2 _ (hedge.of_calls ?_)
    rintro name k d d' rfl hcall
    exact hcalls name k d d' (hsafe 0).orderly hcall

theorem Activation.Orderly.exists_args
    (h : (ofCall t program fn base after).Orderly ⟨.call (.function name) :: k, d⟩) :
    ∃ f args rest, t.lookupFunction? name = some f ∧ d = args ++ rest ∧
      args.length = f.params.length := by
  obtain ⟨own, hd, q, hedge⟩ := h.going (fun _ hcode => nomatch hcode)
  cases hedge with
  | call hsigned =>
    obtain ⟨f, args, rest, hf, rfl, hargs, -⟩ := hsigned
    exact ⟨f, args, rest ++ base, hf, hd.trans (append_assoc ..), hargs⟩

theorem Activation.Orderly.leaves (h : (ofCall t program fn base after).Orderly ⟨.return :: k, d⟩)
    (hret : fn.definition.hasResult = true → stmtsReturn fn.body.stmts = true) :
    Leaves fn.definition.hasResult base d := by
  by_cases hk : k = after
  · obtain ⟨hends, hd⟩ := h.closing (by rw [hk]; rfl)
    cases hres : fn.definition.hasResult with
    | false => exact hd
    | true => cases hends.symm.trans (hret hres)
  · exact h.returning k rfl hk

/-- If no function with a result can be left at the end of its body, the calls of the program
keep to the signatures. The induction is on how deep they are nested. -/
theorem Balanced.orderly_of_nested (h : Balanced t fns program)
    (hret : ∀ fn ∈ fns, fn.definition.hasResult = true → stmtsReturn fn.body.stmts = true)
    (hsafe : ∀ n, (ofCall t program fn base after).Safe n ⟨code, args ++ base⟩)
     (hpath : Path program (Nested program depth) ⟨code, args ++ base⟩ q) :
    (ofCall t program fn base after).Orderly q := by
  induction depth generalizing fn code after args base q with
  | zero =>
    exact orderly_of_path_of_calls (fun _ _ _ _ _ hcall => hcall.elim) hsafe hpath
  | succ depth ih =>
    refine orderly_of_path_of_calls (fun name k d d' horderly hcall => ?_) hsafe hpath
    obtain ⟨code', k', hcode', hinner⟩ := hcall
    obtain ⟨g, hg, rfl⟩ := h.found name code' hcode'
    obtain ⟨f, args', rest, hf, rfl, hargs⟩ := horderly.exists_args
    obtain ⟨hlook, hparams⟩ := h.signed g hg
    obtain rfl := Option.some.inj (hlook.symm.trans hf)
    obtain ⟨σ, after', hat, hsafe'⟩ := h.safe g hg
    obtain rfl := Option.some.inj (hat.symm.trans hcode')
    have hreturn := ih (fun n => hsafe' args' rest n (hargs.trans hparams)) hinner
    exact ⟨g.definition, args', rest, hlook, rfl, hargs, hreturn.leaves (hret g hg)⟩

end

/-- Functions keep the data stack in order. On every path from the label of a function, which
takes either way at a conditional jump, each return that stands for a return statement finds
exactly the result of the function on top of what was below the arguments. The return at the
end of the code is reached only if the body can be left at its end, and finds no value there.
Every other instruction gets along with what the function itself has put on the data stack.

A call is taken to leave a result if and only if the called function has one. No such
assumption is needed if no function with a result can be left at the end of its body: then
the same holds with calls that run the code of the called function. -/
theorem generate_balances_stack (tokens : List Token) (hash : NameHash) (strict : Bool)
    (parsed : Parsed) (t : Table)
    (hparse : parse (.ofTokens tokens) (.fresh hash strict) = .ok parsed t)
    (hcheck : (check { parsed with unused := none } t).failure = none) (comments : Bool)
    (hgenerate : (generate comments (check parsed t).table (check parsed t).program).failure =
      none) :
    let table := (check parsed t).table
    let functions := (check parsed t).program.functions
    let program := (generate comments table (check parsed t).program).code
    ∀ fn ∈ functions, ∃ σ after,
      codeAt (.function fn.name) program = some ((lowerFunction table fn σ).1 ++ after) ∧
        ∀ args base, args.length = fn.params.length →
          let start : Point := ⟨(lowerFunction table fn σ).1 ++ after, args ++ base⟩
          let call := ofCall table program fn base after
          (∀ q, Path program (Signed table) start q → call.Orderly q) ∧
            ((∀ g ∈ functions, g.definition.hasResult = true →
                stmtsReturn g.body.stmts = true) →
              ∀ depth q, Path program (Nested program depth) start q → call.Orderly q) := by
  obtain ⟨p, hpass⟩ := exists_passed hparse hcheck
  have hbalanced := balanced_of_passed hpass hgenerate
  intro table functions program fn hfn
  obtain ⟨σ, after, hcode, hsafe⟩ := hbalanced.safe fn hfn
  refine ⟨σ, after, hcode, fun args base hargs => ?_⟩
  have hsafe (n : Nat) := hsafe args base n hargs
  exact ⟨fun q hpath => orderly_of_path hsafe hpath,
    fun hret depth q hpath => hbalanced.orderly_of_nested hret hsafe hpath⟩

section

variable {program : List Instr} {n : Nat}

def choiceSource : Bytes := "const ifj = @import(\"ifj24.zig\");
pub fn f() ?i32 \x7b
  const x = ifj.readi32();
  if (x) |y| \x7b
    ifj.write(y);
    return f();
  \x7d else \x7b
    return ifj.readi32();
  \x7d
\x7d
pub fn main() void \x7b
  _ = f();
\x7d
"

def choiceTokens : List Token := (tokenize "choice" choiceSource).toOption.getD []

/-- A function without a result if there is nothing to read. -/
def partialSource : Bytes := "const ifj = @import(\"ifj24.zig\");
pub fn f() ?i32 \x7b
  const x = ifj.readi32();
  if (x) |y| \x7b
    ifj.write(y);
    return f();
  \x7d
\x7d
pub fn main() void \x7b
  _ = f();
\x7d
"

def partialTokens : List Token := (tokenize "partial" partialSource).toOption.getD []

def walk (I : Interp) (program : List Instr) : Nat → State → Option State
  | 0, s => some s
  | n + 1, s => (step I program s).bind fun s' =>
    if s'.calls = s.calls then walk I program n s' else none

theorem path_of_walk {s : State} (h : walk I program n s = some s') :
    Path program calls ⟨s.code, s.data⟩ ⟨s'.code, s'.data⟩ := by
  induction n generalizing s with
  | zero =>
    cases h
    exact .refl
  | succ n ih =>
    obtain ⟨s₁, hstep, h⟩ := Option.bind_eq_some_iff.mp h
    split at h
    · rename_i hcalls
      exact .step (edge_of_step hstep hcalls) (ih h)
    · cases h

/-- Whether a function, started with nothing on the data stack and nothing left to read, is
at a return after so many steps with still nothing there. -/
def leavesNothing (program : List Instr) (fn : Function) (n : Nat) : Bool :=
  match codeAt (.function fn.name) program with
  | none => false
  | some code =>
    match walk Interp.sample program n ⟨code, [], [], none, [], .empty, sampleHistory⟩ with
    | some ⟨.return :: _, _, [], _, _, _, _⟩ => true
    | _ => false

theorem path_of_leavesNothing {fn : Function} (h : leavesNothing program fn n = true) :
    ∃ code k, codeAt (.function fn.name) program = some code ∧
      Path program calls ⟨code, []⟩ ⟨.return :: k, []⟩ := by
  unfold leavesNothing at h
  split at h
  · cases h
  · rename_i code hcode
    split at h
    · rename_i k _ _ _ _ _ hwalk
      exact ⟨code, k, hcode, path_of_walk hwalk⟩
    · cases h

end

/-- However deep the calls, a function that returns in both branches leaves one value. -/
theorem generate_choice :
    ∃ parsed t, parse (.ofTokens choiceTokens) (.fresh (fun _ => 0) false) = .ok parsed t ∧
      (check { parsed with unused := none } t).failure = none ∧
      (generate false (check parsed t).table (check parsed t).program).failure = none ∧
      ∃ fn ∈ (check parsed t).program.functions, fn.name = "f" ∧
        let program := (generate false (check parsed t).table (check parsed t).program).code
        ∃ code, codeAt (.function fn.name) program = some code ∧
          ∀ base depth k d, Path program (Nested program depth) ⟨code, base⟩ ⟨.return :: k, d⟩ →
              ∃ r, d = r :: base := by
  obtain ⟨parsed, t, hparse, hcheck, hgen, ⟨fn, hfn, hname, hres, hparams⟩, hret⟩ : ∃ parsed t,
      parse (.ofTokens choiceTokens) (.fresh (fun _ => 0) false) = .ok parsed t ∧
        (check { parsed with unused := none } t).failure = none ∧
        (generate false (check parsed t).table (check parsed t).program).failure = none ∧
        (∃ fn ∈ (check parsed t).program.functions, fn.name = "f" ∧
          fn.definition.hasResult = true ∧ fn.params.length = 0) ∧
        ∀ g ∈ (check parsed t).program.functions, g.definition.hasResult = true →
          stmtsReturn g.body.stmts = true := by
    decide +kernel
  obtain ⟨σ, after, hcode, hpaths⟩ :=
    generate_balances_stack _ _ _ parsed t hparse hcheck false hgen fn hfn
  refine ⟨parsed, t, hparse, hcheck, hgen, fn, hfn, hname, _, hcode, ?_⟩
  intro base depth k d hpath
  have horderly := (hpaths [] base hparams.symm).2 hret depth _ hpath
  have hleaves := horderly.leaves (hret fn hfn)
  rwa [hres] at hleaves

/-- A return statement somewhere in the body is enough for the checker, but not for a result:
this function comes to its last return with nothing but what its caller had left there. -/
theorem generate_partial :
    ∃ parsed t, parse (.ofTokens partialTokens) (.fresh (fun _ => 0) false) = .ok parsed t ∧
      (check parsed t).failure = none ∧
      (generate false (check parsed t).table (check parsed t).program).failure = none ∧
      ∃ fn ∈ (check parsed t).program.functions, fn.definition.hasResult = true ∧
        let program := (generate false (check parsed t).table (check parsed t).program).code
        ∃ code k, codeAt (.function fn.name) program = some code ∧
          Path program (Signed (check parsed t).table) ⟨code, []⟩ ⟨.return :: k, []⟩ := by
  obtain ⟨parsed, t, hparse, hcheck, hgen, fn, hfn, hres, hleaves⟩ : ∃ parsed t,
      parse (.ofTokens partialTokens) (.fresh (fun _ => 0) false) = .ok parsed t ∧
        (check parsed t).failure = none ∧
        (generate false (check parsed t).table (check parsed t).program).failure = none ∧
        ∃ fn ∈ (check parsed t).program.functions, fn.definition.hasResult = true ∧
          leavesNothing (generate false (check parsed t).table (check parsed t).program).code
            fn 12 = true := by
    decide +kernel
  exact ⟨parsed, t, hparse, hcheck, hgen, fn, hfn, hres, path_of_leavesNothing hleaves⟩

end Machine

end Ifj24
