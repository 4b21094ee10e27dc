import Ifj24.Proofs.Meaning

/-!
An interpreter of checked programs. It follows jobs to a given depth, and gives each answer with
the proof that evaluation says the same.
-/

namespace Ifj24.Meaning

open Ifj24.Tree
open Code (Constant Builtin)

instance (t : Table) (env : Env) (r : VarRef) : Decidable (Assignable t env r) :=
  inferInstanceAs (Decidable (_ ∨ _))

section

variable (I : Interp) (t : Table) (fns : List Function)

inductive Stacked (env : Env) : List Expr → List Constant → Prop
  | nil : Stacked env [] []
  | cons {xs ys : List Expr} {c : Constant} {stack : List Constant} (hxs : Stacked env xs stack)
      (hys : SequenceEval I t env ys c) : Stacked env (xs ++ ys) (c :: stack)

def runItems (env : Env) : List Expr → List Constant → Option (List Constant)
  | [], stack => some stack
  | .operand o :: xs, b :: a :: stack => do runItems env xs ((← I.apply o a b) :: stack)
  | x :: xs, stack => do runItems env xs ((← leafValue t env x) :: stack)

theorem stacked_of_runItems {env : Env}
    (hxs : Stacked I t env xs stack) (h : runItems I t env ys stack = some stack') :
    Stacked I t env (xs ++ ys) stack' := by
  fun_induction runItems I t env ys stack generalizing xs with
  | case1 stack =>
    cases h
    rwa [List.append_nil]
  | case2 o ys b a stack ih =>
    obtain ⟨c, hc, h⟩ := Option.bind_eq_some_iff.mp h
    cases hxs with
    | cons hls hr =>
      cases hls with
      | @cons xs ls _ _ hxs hl =>
        have happlied := ih c (hxs.cons (.operator hl hr hc)) h
        simpa only [List.append_assoc, List.singleton_append] using happlied
  | case3 x ys stack _ ih =>
    obtain ⟨c, hc, h⟩ := Option.bind_eq_some_iff.mp h
    have hpushed := ih c (hxs.cons (.leaf hc)) h
    simpa only [List.append_assoc, List.singleton_append] using hpushed

theorem Stacked.sequence {env : Env} (h : Stacked I t env xs [c]) : SequenceEval I t env xs c := by
  cases h with
  | cons hnil hxs =>
    cases hnil
    exact hxs

def sequenceValue (env : Env) (xs : List Expr) : Option { c // SequenceEval I t env xs c } := do
  match ← (runItems I t env xs []).attach with
  | ⟨[c], hc⟩ => return ⟨c, (stacked_of_runItems I t .nil hc).sequence⟩
  | _ => none

def guardValue (env : Env) : (g : Guard) → Option { r // GuardEval I t env g r }
  | .compare c => do
    let ⟨a, ha⟩ ← sequenceValue I t env c.left.items
    let ⟨b, hb⟩ ← sequenceValue I t env c.right.items
    match ← (I.compare c.op a b).attach with
    | ⟨true, hc⟩ => return ⟨some env, .holds ha hb hc⟩
    | ⟨false, hc⟩ => return ⟨none, .fails ha hb hc⟩
  | .unwrap subject binding => do
    let ⟨c, hc⟩ ← (env.get t subject.var).attach
    if hnil : c = .nil then return ⟨none, .absent (hnil ▸ hc)⟩
    else return ⟨some (env.set t binding c), .present hc hnil⟩

abbrev Answer (job : Job) (h : History) : Type :=
  { out : Result × History // Evaluates I t fns job h out.1 out.2 }

variable (again : ∀ job h, Option (Answer I t fns job h))

def runCall (env : Env) (c : Call) (h : History) :
    Option (Answer I t fns (.value env (.call c)) h) := do
  let ⟨f, hf⟩ ← c.target.attach
  let ⟨args, hargs⟩ ← (leafValues t env c.args).attach
  if hbuiltin : f.builtin = true then
    let ⟨b, hb⟩ ← (Builtin.all.find? fun b => f.name = FuncDef.builtinStart ++ b.name).attach
    let ⟨r, hr⟩ ← (I.builtin h b args).attach
    have hname : f.name = FuncDef.builtinStart ++ b.name := by simpa using List.find?_some hb
    return ⟨(.value r, ⟨b, args⟩ :: h), .builtin hf hbuiltin hname hargs hr⟩
  else
    let ⟨fn, hfn⟩ ← (fns.find? fun fn => fn.definition = f).attach
    let ⟨env', henv⟩ ← (Env.ofArgs t fn.params args).attach
    let ⟨(_, h'), hbody⟩ ← again (.stmts env' fn.body.stmts) h
    let ⟨r, hr⟩ ← (Result.ofBody? fn.definition _).attach
    have hdef : fn.definition = f := by simpa using List.find?_some hfn
    return ⟨(.value r, h'), .user (hdef ▸ hf) (hdef ▸ Bool.eq_false_iff.mpr hbuiltin)
      (List.mem_of_find?_eq_some hfn) hargs henv hbody hr⟩

def runValue (env : Env) (h : History) : (x : Expr) → Option (Answer I t fns (.value env x) h)
  | .expression e => do
    let ⟨c, hc⟩ ← sequenceValue I t env e.items
    return ⟨(.value c, h), .expression hc⟩
  | .call c => runCall I t fns again env c h
  | x => do
    let ⟨c, hc⟩ ← (leafValue t env x).attach
    return ⟨(.value c, h), .leaf hc⟩

def runStmt (env : Env) (h : History) : (s : Stmt) → Option (Answer I t fns (.stmt env s) h)
  | .declare _ r x => do
    match ← again (.value env x) h with
    | ⟨(.value (some c), h'), hx⟩ => return ⟨(.next (env.set t r c), h'), .declare hx⟩
    | _ => none
  | .assign _ r x => do
    match ← again (.value env x) h with
    | ⟨(.value (some c), h'), hx⟩ =>
      if hr : Assignable t env r then return ⟨(.next (env.set t r c), h'), .assign hx hr⟩
      else none
    | _ => none
  | .call c => do
    match ← again (.value env (.call c)) h with
    | ⟨(.value _, h'), hc⟩ => return ⟨(.next env, h'), .call hc⟩
    | _ => none
  | .ifElse _ g yes none => do
    match ← guardValue I t env g with
    | ⟨some env', hg⟩ =>
      let ⟨out, hyes⟩ ← again (.stmts env' yes.stmts) h
      return ⟨out, .ifTrue hg hyes⟩
    | ⟨none, hg⟩ => return ⟨(.next env, h), .ifSkip hg⟩
  | .ifElse _ g yes (some e) => do
    match ← guardValue I t env g with
    | ⟨some env', hg⟩ =>
      let ⟨out, hyes⟩ ← again (.stmts env' yes.stmts) h
      return ⟨out, .ifTrue hg hyes⟩
    | ⟨none, hg⟩ =>
      let ⟨out, hno⟩ ← again (.stmts env e.body.stmts) h
      return ⟨out, .ifFalse hg hno⟩
  | .while pos g body => do
    match ← guardValue I t env g with
    | ⟨none, hg⟩ => return ⟨(.next env, h), .whileDone hg⟩
    | ⟨some env', hg⟩ =>
      match ← again (.stmts env' body.stmts) h with
      | ⟨(.next env'', h'), hbody⟩ =>
        let ⟨out, hagain⟩ ← again (.stmt env'' (.while pos g body)) h'
        return ⟨out, .whileNext hg hbody hagain⟩
      | ⟨(.returned r, h'), hbody⟩ => return ⟨(.returned r, h'), .whileReturn hg hbody⟩
      | _ => none
  | .return _ none => some ⟨(.returned none, h), .returnNone⟩
  | .return _ (some x) => do
    match ← again (.value env x) h with
    | ⟨(.value (some c), h'), hx⟩ => return ⟨(.returned (some c), h'), .returnSome hx⟩
    | _ => none
  | .elseStart _ | .blockEnd _ => none

def runJob : (job : Job) → (h : History) → Option (Answer I t fns job h)
  | .value env x, h => runValue I t fns again env h x
  | .stmt env s, h => runStmt I t fns again env h s
  | .stmts env [], h => some ⟨(.next env, h), .nil⟩
  | .stmts env (s :: rest), h => do
    match ← again (.stmt env s) h with
    | ⟨(.next env', h'), hs⟩ =>
      let ⟨out, hrest⟩ ← again (.stmts env' rest) h'
      return ⟨out, .cons hs hrest⟩
    | ⟨(.returned r, h'), hs⟩ => return ⟨(.returned r, h'), .stop hs⟩
    | _ => none

def run : Nat → (job : Job) → (h : History) → Option (Answer I t fns job h)
  | 0, _, _ => none
  | depth + 1, job, h => runJob I t fns (run depth) job h

def runFunction (depth : Nat) (fn : Function) (args : List Constant) (h : History) :
    Option (Option Constant × History) := do
  let env ← Env.ofArgs t fn.params args
  let ⟨(out, h'), _⟩ ← run I t fns depth (.stmts env fn.body.stmts) h
  return (← out.ofBody? fn.definition, h')

end

/-- What the interpreter gives is what evaluation says. -/
theorem evaluates_of_runFunction {I : Interp} {t : Table} {fns : List Function} {h h' : History}
    (hrun : runFunction I t fns depth fn args h = some (r, h')) :
    ∃ env out, Env.ofArgs t fn.params args = some env ∧
      Evaluates I t fns (.stmts env fn.body.stmts) h out h' ∧
      out.ofBody? fn.definition = some r := by
  simp only [runFunction, Option.bind_eq_bind, Option.bind_eq_some_iff] at hrun
  obtain ⟨env, henv, ⟨⟨out, h₁⟩, hbody⟩, -, r', hr, hrun⟩ := hrun
  cases hrun
  exact ⟨env, out, henv, hbody, hr⟩

end Ifj24.Meaning
