import Ifj24.Proofs.Tables

/-!
A symbol table is a stack of environments. An environment is a partial map from names to
variables; a stack of them knows nothing of hashes, buckets and stores. Every operation of a
table does to the stack that the table stands for what the same operation of the stack does,
and both answer alike. What a closed scope has declared is therefore never found again.
-/

open List

namespace Ifj24

structure Declaration where
  name : Bytes
  type : DataType
  mutable_ : Bool
  nullable : Nullability
  pos : Pos
  /-- The number of the scope. -/
  scope : Nat
  deriving DecidableEq, Repr

def Var.declaration (v : Var) : Declaration :=
  ⟨v.name, v.type, v.mutable_, v.nullable, v.pos, v.scope⟩

namespace Table

inductive Op where
  | enter (kind : ScopeKind) (comment : Bytes)
  | exit
  | declare (name : Bytes) (type : DataType) (mutable_ : Bool) (nullable : Nullability) (pos : Pos)
  /-- Looks in all open scopes. -/
  | find (name : Bytes)
  /-- Looks in the innermost scope. -/
  | lookup (name : Bytes)
  | addFunction (f : FuncDef)
  | lookupFunction (name : Bytes)
  deriving DecidableEq, Repr

inductive Answer where
  | done
  /-- The scope of the number is closed. -/
  | exited (number : Nat)
  | declared (r : VarRef)
  | refused (kind : Kind)
  | found (r : Option VarRef)
  | function (f : Option FuncDef)
  deriving DecidableEq, Repr

def perform (t : Table) : Op → Answer × Table
  | .enter kind comment => (.done, t.enter kind comment)
  | .exit => (.exited t.exit.scope.number, t.exit.table)
  | .declare name type mutable_ nullable pos =>
    match t.declare name type mutable_ nullable pos with
    | .ok r u => (.declared r, u)
    | .error d u => (.refused d.kind, u)
  | .find name =>
    match t.find? name with
    | some (r, u) => (.found (some r), u)
    | none => (.found none, t)
  | .lookup name => (.found (t.lookup? name), t)
  | .addFunction f =>
    match t.addFunction f with
    | .ok () u => (.done, u)
    | .error d u => (.refused d.kind, u)
  | .lookupFunction name => (.function (t.lookupFunction? name), t)

/-- The answers to a sequence of operations, and the state after it. -/
def Op.run {σ : Type} (perform : σ → Op → Answer × σ) (s : σ) : List Op → List Answer × σ
  | [] => ([], s)
  | op :: ops =>
    let now := perform s op
    let later := Op.run perform now.2 ops
    (now.1 :: later.1, later.2)

theorem Op.run_append (perform : σ → Op → Answer × σ) (s : σ) (before after : List Op) :
    Op.run perform s (before ++ after) =
      ((Op.run perform s before).1 ++ (Op.run perform (Op.run perform s before).2 after).1,
        (Op.run perform (Op.run perform s before).2 after).2) := by
  induction before generalizing s with
  | nil => rfl
  | cons op before ih => simp only [cons_append, Op.run, ih]

def run (t : Table) (ops : List Op) : List Answer × Table := Op.run perform t ops

/-- Whether no operation closes the global scope, if `depth` scopes are open inside it. -/
def nested : Nat → List Op → Bool
  | _, [] => true
  | depth, .enter .. :: ops => nested (depth + 1) ops
  | 0, .exit :: _ => false
  | depth + 1, .exit :: ops => nested depth ops
  | depth, _ :: ops => nested depth ops

end Table

open Table (Op Answer)

abbrev Environment := Bytes → Option VarRef

def Environment.set (env : Environment) (name : Bytes) (r : VarRef) : Environment :=
  fun other => if other = name then some r else env other

structure OpenScope where
  number : Nat
  declares : Environment

structure Environments where
  /-- The open scopes inside the global one, the innermost first. -/
  inner : List OpenScope
  global : OpenScope
  /-- What was declared, in its order. A variable is its place here. -/
  vars : List Declaration
  /-- How many scopes were opened. -/
  opened : Nat
  functions : Bytes → Option FuncDef

namespace Environments

def initial : Environments where
  inner := []
  global := ⟨0, fun name => if name = "_" then some Table.discard else none⟩
  vars := [Var.discard.declaration]
  opened := 1
  functions name := FuncDef.builtins.find? (·.name == name)

def scopes (e : Environments) : List OpenScope := e.inner ++ [e.global]

def current (e : Environments) : OpenScope := e.inner.headD e.global

def meaning (e : Environments) (name : Bytes) : Option VarRef :=
  e.scopes.findSome? fun s => s.declares name

def declare (e : Environments) (name : Bytes) (type : DataType) (mutable_ : Bool)
    (nullable : Nullability) (pos : Pos) : Answer × Environments :=
  match e.inner with
  | [] => (.refused .internal, e)
  | scope :: outer =>
    if (scope.declares name).isSome then (.refused .redefinition, e)
    else
      (.declared e.vars.length, { e with
        inner := { scope with declares := scope.declares.set name e.vars.length } :: outer
        vars := e.vars ++ [⟨name, type, mutable_, nullable, pos, scope.number⟩] })

def addFunction (e : Environments) (f : FuncDef) : Answer × Environments :=
  if (e.functions f.name).isSome then (.refused .redefinition, e)
  else
    (.done, { e with functions := fun name => if name = f.name then some f else e.functions name })

def perform (e : Environments) : Op → Answer × Environments
  | .enter _ _ =>
    (.done, { e with inner := ⟨e.opened, fun _ => none⟩ :: e.inner, opened := e.opened + 1 })
  | .exit => (.exited e.current.number, { e with inner := e.inner.tail })
  | .declare name type mutable_ nullable pos => e.declare name type mutable_ nullable pos
  | .find name => (.found (e.meaning name), e)
  | .lookup name => (.found (e.current.declares name), e)
  | .addFunction f => e.addFunction f
  | .lookupFunction name => (.function (e.functions name), e)

def run (e : Environments) (ops : List Op) : List Answer × Environments := Op.run perform e ops

end Environments

open Environments

/-! What a table stands for -/

def Scope.view (hash : NameHash) (s : Scope) : OpenScope := ⟨s.number, s.lookup? hash⟩

open Scope

theorem Scope.lookup?_insert {hash : NameHash} {s : Scope} {name : Bytes} (r : VarRef)
    (h : s.lookup? hash name = none) :
    (s.insert hash name r).lookup? hash = Environment.set (s.lookup? hash) name r := by
  funext other
  by_cases hother : other = name
  · subst hother
    rw [lookup?_insert_self r h, Environment.set, if_pos rfl]
  · rw [lookup?_insert_of_ne r hother, Environment.set, if_neg hother]

namespace Table

variable {t u : Table}

def environments (t : Table) : Environments where
  inner := t.inner.map (view t.hash)
  global := t.global.view t.hash
  vars := t.store.toList.map Var.declaration
  opened := t.nextScope
  functions := t.lookupFunction?

theorem environments_fresh (hash : NameHash) (strict : Bool) :
    (fresh hash strict).environments = .initial := by
  have hglobal : (fresh hash strict).global.view hash = initial.global := by
    change OpenScope.mk 0
      (((opened .global "global" 0).insert hash Var.discard.name discard).lookup? hash) = _
    rw [lookup?_insert _ (lookup?_opened _ _ _)]
    rfl
  have hfuncs : (fresh hash strict).lookupFunction? = initial.functions :=
    funext (Registry.faithful_ofList hash FuncDef.builtins)
  simp only [environments, hfuncs]
  rw [show (fresh hash strict).hash = hash from rfl, hglobal]
  rfl

theorem scopes_environments (t : Table) :
    t.environments.scopes = (t.inner ++ [t.global]).map (view t.hash) := by
  simp [scopes, environments]

theorem current_environments (t : Table) : t.environments.current = t.current.view t.hash := by
  unfold Environments.current current environments
  cases t.inner <;> rfl

theorem meaning_environments (t : Table) (name : Bytes) :
    t.environments.meaning name = (t.resolve? name).map Prod.fst := by
  rw [meaning, scopes_environments, findSome?_map, resolve?, map_findSome?]
  congr 1
  funext s
  simp [view, Function.comp_def]

theorem environments_modify (t : Table) (r : VarRef) (hf : ∀ v, (f v).declaration = v.declaration) :
    (t.modify r f).environments = t.environments := by
  have hvars : (t.store.modify r f).toList.map Var.declaration =
      t.store.toList.map Var.declaration := by
    refine ext_getElem? fun i => ?_
    rw [getElem?_map, getElem?_map, Array.getElem?_toList, Array.getElem?_toList,
      Array.getElem?_modify]
    split
    · rw [Option.map_map]
      congr 1
      exact funext hf
    · rfl
  simp only [environments, modify, hvars]
  rfl

def observed (x : Answer × Table) : Answer × Environments := (x.1, x.2.environments)

theorem observed_find (t : Table) (name : Bytes) :
    observed (t.perform (.find name)) = t.environments.perform (.find name) := by
  simp only [perform, Environments.perform, meaning_environments, find?]
  cases t.resolve? name with
  | none => rfl
  | some pair => exact congrArg (Prod.mk _) (environments_modify t pair.1 fun _ => rfl)

theorem observed_declare (t : Table) (name : Bytes) (type : DataType) (mutable_ : Bool)
    (nullable : Nullability) (pos : Pos) :
    observed (t.perform (.declare name type mutable_ nullable pos)) =
      t.environments.declare name type mutable_ nullable pos := by
  unfold Environments.declare perform Table.declare
  cases hinner : t.inner with
  | nil =>
    have hscopes : t.environments.inner = [] := by simp [environments, hinner]
    simp only [hscopes]
    rfl
  | cons scope outer =>
    have hscopes : t.environments.inner = scope.view t.hash :: outer.map (view t.hash) := by
      simp [environments, hinner]
    have hdeclares : (scope.view t.hash).declares = scope.lookup? t.hash := rfl
    simp only [hscopes, hdeclares]
    cases hlook : scope.lookup? t.hash name with
    | some r =>
      simp only [Option.isSome_some, if_true]
      rfl
    | none =>
      simp only [Option.isSome_none, Bool.false_eq_true, if_false]
      simp only [observed, environments, map_cons, view, lookup?_insert _ hlook,
        Array.toList_push, map_append, map_nil, length_map, Array.length_toList]
      rfl

theorem observed_addFunction (t : Table) (f : FuncDef) :
    observed (t.perform (.addFunction f)) = t.environments.addFunction f := by
  unfold Environments.addFunction perform
  cases hadd : t.addFunction f with
  | ok _ u =>
    obtain ⟨hrest, hnone, -, -, hself, hother⟩ := addFunction_eq_ok hadd
    have hlook : u.lookupFunction? =
        fun name => if name = f.name then some f else t.lookupFunction? name := by
      funext name
      by_cases hname : name = f.name
      · rw [if_pos hname, hname, hself]
      · rw [if_neg hname, hother name hname]
    have hfree : ¬ (t.environments.functions f.name).isSome = true := by
      simp [environments, hnone]
    rw [if_neg hfree]
    simp only [hadd, observed, environments, hlook]
    rw [hrest]
  | error d u =>
    obtain ⟨hkind, hsame⟩ := addFunction_eq_error hadd
    have htaken : (t.environments.functions f.name).isSome = true := by
      cases hlook : t.lookupFunction? f.name with
      | some _ => simp [environments, hlook]
      | none =>
        have hnone : t.funcs.lookup? t.hash f.name = none := hlook
        simp [addFunction, Registry.add, hnone] at hadd
    rw [if_pos htaken]
    simp only [hadd, hkind, hsame]
    rfl

/-- One step: a table does what the stack does that it stands for, unless the global scope is
closed. -/
theorem observed_perform (t : Table) (op : Op) (h : op = .exit → t.inner ≠ []) :
    observed (t.perform op) = t.environments.perform op := by
  cases op with
  | enter kind comment => rfl
  | exit =>
    obtain ⟨scope, outer, hinner⟩ := exists_cons_of_ne_nil (h rfl)
    have hcurrent : t.current = scope := by simp [current, hinner]
    simp only [perform, Environments.perform, Table.exit, observed, current_environments, hcurrent]
    simp only [environments, hinner]
    rfl
  | declare name type mutable_ nullable pos =>
    exact observed_declare t name type mutable_ nullable pos
  | find name => exact observed_find t name
  | lookup name =>
    simp only [perform, Environments.perform, current_environments]
    rfl
  | addFunction f => exact observed_addFunction t f
  | lookupFunction name => rfl

/-- Every operation keeps the tree of the scopes the path of the open ones. -/
theorem Attached.perform (h : t.Attached) (op : Op) : (t.perform op).2.Attached := by
  cases op with
  | enter kind comment => exact h.enter kind comment
  | exit => exact h.exit
  | declare name type mutable_ nullable pos =>
    simp only [Table.perform]
    split
    · rename_i hdeclare
      exact h.declare hdeclare
    · rename_i hdeclare
      exact eq_of_declare_error hdeclare ▸ h
  | find name =>
    simp only [Table.perform, find?]
    cases t.resolve? name with
    | none => exact h
    | some pair => exact h.of_path rfl rfl rfl
  | addFunction f =>
    simp only [Table.perform]
    split
    · rename_i hadd
      rw [(addFunction_eq_ok hadd).1]
      exact h.of_path rfl rfl rfl
    · rename_i hadd
      exact (addFunction_eq_error hadd).2 ▸ h
  | lookup | lookupFunction => exact h

theorem Attached.run (h : t.Attached) (ops : List Op) : (t.run ops).2.Attached := by
  induction ops generalizing t with
  | nil => exact h
  | cons op ops ih => exact ih (h.perform op)

end Table

namespace Environments

variable {e : Environments} {op : Op} {ops : List Op}

theorem inner_ne_nil (h : Table.nested e.inner.length (.exit :: ops) = true) : e.inner ≠ [] := by
  intro hinner
  rw [hinner] at h
  cases h

theorem nested_perform (h : Table.nested e.inner.length (op :: ops) = true) :
    Table.nested (e.perform op).2.inner.length ops = true := by
  cases op with
  | exit =>
    obtain ⟨scope, outer, hinner⟩ := exists_cons_of_ne_nil (inner_ne_nil h)
    rw [hinner] at h
    simp only [perform, hinner]
    exact h
  | declare name type mutable_ nullable pos =>
    simp only [perform, declare]
    split
    · exact h
    · rename_i scope outer hinner
      split
      · exact h
      · rw [hinner] at h
        exact h
  | addFunction f =>
    simp only [perform, addFunction]
    split <;> exact h
  | enter | find | lookup | lookupFunction => exact h

theorem nested_run {before after : List Op}
    (h : Table.nested e.inner.length (before ++ after) = true) :
    Table.nested (e.run before).2.inner.length after = true := by
  induction before generalizing e with
  | nil => exact h
  | cons op before ih => exact ih (nested_perform h)

/-- Every name that a scope declares means a variable of that name and that scope. -/
structure WellScoped (e : Environments) : Prop where
  bottom : e.global.number = 0
  below : ∀ s ∈ e.scopes, s.number < e.opened
  distinct : (e.scopes.map OpenScope.number).Nodup
  names : ∀ s ∈ e.scopes, ∀ name r, s.declares name = some r →
    ∃ d, e.vars[r]? = some d ∧ d.name = name ∧ d.scope = s.number

namespace WellScoped

theorem initial : Environments.initial.WellScoped where
  bottom := rfl
  below s hs := by
    obtain rfl := mem_singleton.mp hs
    decide
  distinct := by simp [scopes, Environments.initial]
  names s hs name r hr := by
    obtain rfl := mem_singleton.mp hs
    obtain ⟨rfl, hr⟩ := Option.ite_none_right_eq_some.mp hr
    cases hr
    exact ⟨Var.discard.declaration, rfl, rfl, rfl⟩

section

variable (h : e.WellScoped)

include h

theorem enter (kind : ScopeKind) (comment : Bytes) :
    (e.perform (.enter kind comment)).2.WellScoped where
  bottom := h.bottom
  below s hs := by
    rcases mem_cons.mp hs with rfl | hs
    · exact Nat.lt_succ_self _
    · exact Nat.lt_succ_of_lt (h.below s hs)
  distinct := by
    refine nodup_cons.mpr ⟨fun hmem => ?_, h.distinct⟩
    obtain ⟨s, hs, hnumber⟩ := mem_map.mp hmem
    exact absurd (h.below s hs) (by simp [hnumber])
  names s hs name r hr := by
    rcases mem_cons.mp hs with rfl | hs
    · cases hr
    · exact h.names s hs name r hr

theorem exit : (e.perform .exit).2.WellScoped := by
  have hsub : (e.perform .exit).2.scopes.Sublist e.scopes :=
    (tail_sublist e.inner).append (.refl _)
  exact ⟨h.bottom, fun s hs => h.below s (hsub.subset hs), h.distinct.sublist (hsub.map _),
    fun s hs => h.names s (hsub.subset hs)⟩

theorem declare (name : Bytes) (type : DataType) (mutable_ : Bool)
    (nullable : Nullability) (pos : Pos) :
    (e.declare name type mutable_ nullable pos).2.WellScoped := by
  unfold Environments.declare
  split
  · exact h
  rename_i scope outer hinner
  split
  · exact h
  have hscopes : e.scopes = scope :: (outer ++ [e.global]) := by simp [scopes, hinner]
  have hbelow := h.below
  have hdist := h.distinct
  have hnames := h.names
  rw [hscopes] at hbelow hdist hnames
  -- What was declared before keeps its place.
  have hold {r : VarRef} {d d' : Declaration} (hr : e.vars[r]? = some d) :
      (e.vars ++ [d'])[r]? = some d := by
    have hlt := (List.getElem?_eq_some_iff.mp hr).1
    rw [getElem?_append_left hlt, hr]
  refine ⟨h.bottom, ?_, hdist, ?_⟩
  · intro s hs
    rcases mem_cons.mp hs with rfl | hs
    · exact hbelow scope mem_cons_self
    · exact hbelow s (mem_cons_of_mem _ hs)
  · intro s hs other r hr
    rcases mem_cons.mp hs with rfl | hs
    · by_cases hother : other = name
      · simp only [Environment.set, if_pos hother, Option.some.injEq] at hr
        subst hr
        exact ⟨_, getElem?_concat_length, hother.symm, rfl⟩
      · simp only [Environment.set, if_neg hother] at hr
        obtain ⟨d, hd, hname, hscope⟩ := hnames scope mem_cons_self other r hr
        exact ⟨d, hold hd, hname, hscope⟩
    · obtain ⟨d, hd, hname, hscope⟩ := hnames s (mem_cons_of_mem _ hs) other r hr
      exact ⟨d, hold hd, hname, hscope⟩

theorem addFunction (f : FuncDef) : (e.addFunction f).2.WellScoped := by
  unfold Environments.addFunction
  split
  · exact h
  · exact ⟨h.bottom, h.below, h.distinct, h.names⟩

theorem perform (op : Op) : (e.perform op).2.WellScoped := by
  cases op with
  | enter kind comment => exact h.enter kind comment
  | exit => exact h.exit
  | declare name type mutable_ nullable pos => exact h.declare name type mutable_ nullable pos
  | addFunction f => exact h.addFunction f
  | find | lookup | lookupFunction => exact h

theorem run (ops : List Op) : (e.run ops).2.WellScoped := by
  induction ops generalizing e with
  | nil => exact h
  | cons op ops ih => exact ih (h.perform op)

theorem current_ne_zero (hinner : e.inner ≠ []) : e.current.number ≠ 0 := by
  obtain ⟨scope, outer, hinner⟩ := exists_cons_of_ne_nil hinner
  have hcurrent : e.current = scope := by simp [current, hinner]
  have hdist := h.distinct
  rw [scopes, hinner, cons_append, map_cons, nodup_cons] at hdist
  intro hzero
  refine hdist.1 (mem_map.mpr ⟨e.global, by simp, ?_⟩)
  rw [h.bottom, ← hcurrent, hzero]

theorem found (hfound : (e.perform op).1 = .found (some r)) :
    ∃ s ∈ e.scopes, ∃ d, e.vars[r]? = some d ∧ d.scope = s.number := by
  have hdecl {s : OpenScope} {name : Bytes} (hs : s ∈ e.scopes)
      (hr : s.declares name = some r) :
      ∃ s ∈ e.scopes, ∃ d, e.vars[r]? = some d ∧ d.scope = s.number := by
    obtain ⟨d, hd, -, hscope⟩ := h.names s hs name r hr
    exact ⟨s, hs, d, hd, hscope⟩
  cases op with
  | find name =>
    obtain ⟨s, hs, hr⟩ := exists_of_findSome?_eq_some (Answer.found.inj hfound)
    exact hdecl hs hr
  | lookup name =>
    refine hdecl ?_ (Answer.found.inj hfound)
    unfold current scopes
    cases e.inner <;> simp
  | declare name type mutable_ nullable pos =>
    simp only [Environments.perform, Environments.declare] at hfound
    split at hfound
    · cases hfound
    · split at hfound <;> cases hfound
  | addFunction f =>
    simp only [Environments.perform, Environments.addFunction] at hfound
    split at hfound <;> cases hfound
  | enter | exit | lookupFunction => cases hfound

end

end WellScoped

structure Closed (number : Nat) (e : Environments) : Prop where
  opened : number < e.opened
  absent : ∀ s ∈ e.scopes, s.number ≠ number

namespace Closed

variable {number : Nat}

theorem exit (h : e.WellScoped) (hinner : e.inner ≠ []) :
    Closed e.current.number (e.perform .exit).2 := by
  obtain ⟨scope, outer, hinner⟩ := exists_cons_of_ne_nil hinner
  have hcurrent : e.current = scope := by simp [current, hinner]
  have hscopes : e.scopes = scope :: (e.perform .exit).2.scopes := by
    simp [scopes, perform, hinner]
  have hdist := h.distinct
  rw [hscopes, map_cons, nodup_cons] at hdist
  rw [hcurrent]
  refine ⟨h.below scope (by simp [hscopes]), fun s hs hnumber => hdist.1 ?_⟩
  exact mem_map.mpr ⟨s, hs, hnumber⟩

theorem perform (h : Closed number e) (op : Op) : Closed number (e.perform op).2 := by
  cases op with
  | enter kind comment =>
    refine ⟨Nat.lt_succ_of_lt h.opened, fun s hs => ?_⟩
    rcases mem_cons.mp hs with rfl | hs
    · exact Nat.ne_of_gt h.opened
    · exact h.absent s hs
  | exit =>
    refine ⟨h.opened, fun s hs => h.absent s ?_⟩
    exact ((tail_sublist e.inner).append (.refl _)).subset hs
  | declare name type mutable_ nullable pos =>
    simp only [Environments.perform, Environments.declare]
    split
    · exact h
    rename_i scope outer hinner
    split
    · exact h
    refine ⟨h.opened, fun s hs => ?_⟩
    have habsent := h.absent
    rw [scopes, hinner] at habsent
    rcases mem_cons.mp hs with rfl | hs
    · exact habsent scope mem_cons_self
    · exact habsent s (mem_cons_of_mem _ hs)
  | addFunction f =>
    simp only [Environments.perform, Environments.addFunction]
    split
    · exact h
    · exact ⟨h.opened, h.absent⟩
  | find | lookup | lookupFunction => exact h

end Closed

theorem vars_perform (e : Environments) (op : Op) : e.vars <+: (e.perform op).2.vars := by
  cases op with
  | declare name type mutable_ nullable pos =>
    simp only [perform, declare]
    split
    · exact prefix_refl _
    · split
      · exact prefix_refl _
      · exact prefix_append _ _
  | addFunction f =>
    simp only [perform, addFunction]
    split <;> exact prefix_refl _
  | enter | exit | find | lookup | lookupFunction => exact prefix_refl _

/-- A variable of a closed scope is never found again. -/
theorem closed_run {number : Nat} (h : e.WellScoped) (hclosed : Closed number e) (ops : List Op) :
    (∀ r d, e.vars[r]? = some d → d.scope = number → .found (some r) ∉ (e.run ops).1) ∧
      Closed number (e.run ops).2 := by
  induction ops generalizing e with
  | nil => exact ⟨fun _ _ _ _ => not_mem_nil, hclosed⟩
  | cons op ops ih =>
    obtain ⟨hnever, hlater⟩ := ih (h.perform op) (hclosed.perform op)
    refine ⟨fun r d hd hscope hmem => ?_, hlater⟩
    rcases mem_cons.mp hmem with hnow | hmem
    · obtain ⟨s, hs, d', hd', hnumber⟩ := h.found hnow.symm
      obtain rfl : d = d' := Option.some.inj (hd.symm.trans hd')
      exact hclosed.absent s hs (hnumber.symm.trans hscope)
    · obtain ⟨hlt, -⟩ := List.getElem?_eq_some_iff.mp hd
      have hkept : (e.perform op).2.vars[r]? = some d := by
        obtain ⟨more, hmore⟩ := vars_perform e op
        rw [← hmore, getElem?_append_left hlt, hd]
      exact hnever r d hkept hscope hmem

end Environments

namespace Table

variable {after ops : List Op} {t : Table}

theorem nested_step {op : Op} (h : nested t.environments.inner.length (op :: ops) = true) :
    (op = .exit → t.inner ≠ []) ∧
      nested (t.perform op).2.environments.inner.length ops = true := by
  have hop : op = .exit → t.inner ≠ [] := by
    rintro rfl hinner
    exact inner_ne_nil h (by simp [environments, hinner])
  have hrest := nested_perform h
  rw [← observed_perform t op hop] at hrest
  exact ⟨hop, hrest⟩

/-- A table and its environments answer alike, and stay together. -/
theorem run_environments (t : Table) (h : nested t.environments.inner.length ops = true) :
    (t.run ops).1 = (t.environments.run ops).1 ∧
      (t.run ops).2.environments = (t.environments.run ops).2 := by
  induction ops generalizing t with
  | nil => exact ⟨rfl, rfl⟩
  | cons op ops ih =>
    obtain ⟨hop, hrest⟩ := nested_step h
    have hstep := observed_perform t op hop
    obtain ⟨hanswers, hlater⟩ := ih (t.perform op).2 hrest
    simp only [run, Environments.run, Op.run, ← hstep]
    exact ⟨congrArg (List.cons _) hanswers, hlater⟩

theorem run_append (t : Table) (before after : List Op) :
    t.run (before ++ after) =
      ((t.run before).1 ++ ((t.run before).2.run after).1, ((t.run before).2.run after).2) :=
  Op.run_append perform t before after

theorem nested_of_append
    (h : nested depth (before ++ after) = true) : nested depth before = true := by
  induction before generalizing depth with
  | nil => cases depth <;> rfl
  | cons op before ih =>
    cases op with
    | enter kind comment =>
      have hins : nested (depth + 1) (before ++ after) = true := h
      exact ih hins
    | exit =>
      cases depth with
      | zero => cases h
      | succ depth =>
        have houtside : nested depth (before ++ after) = true := h
        exact ih houtside
    | declare | find | lookup | addFunction | lookupFunction =>
      cases depth <;> exact ih h

theorem vars_environments (t : Table) (h : (t.var r).scope ≠ 0) :
    t.environments.vars[r]? = some (t.var r).declaration := by
  have hlt : r < t.store.size := by
    apply Nat.lt_of_not_le
    intro hle
    have hdisc : t.var r = .discard := by simp [var, hle]
    rw [hdisc] at h
    exact h rfl
  simp [environments, var, hlt]

/-- After a scope is closed, its variables are not found by any later operation, and no open scope
has its number. -/
theorem run_after_exit (ht : t.environments.WellScoped)
    (h : nested t.environments.inner.length (.exit :: after) = true) :
    (∀ r, (t.exit.table.var r).scope = t.exit.scope.number →
      .found (some r) ∉ (t.exit.table.run after).1) ∧
    ∀ s ∈ (t.exit.table.run after).2.inner ++ [(t.exit.table.run after).2.global],
      s.number ≠ t.exit.scope.number := by
  have hinner := inner_ne_nil h
  have hexit : observed (t.perform .exit) = t.environments.perform .exit :=
    observed_perform t .exit fun _ hnil => hinner (by simp [environments, hnil])
  have hscope : t.exit.scope.number = t.environments.current.number :=
    Answer.exited.inj (congrArg Prod.fst hexit)
  have htable : t.exit.table.environments = (t.environments.perform .exit).2 :=
    congrArg Prod.snd hexit
  have hscoped : t.exit.table.environments.WellScoped := htable ▸ ht.exit
  have hclosed : Environments.Closed t.exit.scope.number t.exit.table.environments := by
    rw [hscope, htable]
    exact .exit ht hinner
  have hrest := nested_perform h
  rw [← htable] at hrest
  obtain ⟨hanswers, hrun⟩ := run_environments t.exit.table hrest
  obtain ⟨hnever, hlater⟩ := closed_run hscoped hclosed after
  rw [← hanswers] at hnever
  rw [← hrun] at hlater
  refine ⟨fun r hr => hnever r _ (vars_environments _ ?_) hr, fun s hs => ?_⟩
  · rw [hr, hscope]
    exact ht.current_ne_zero hinner
  · refine hlater.absent (s.view (t.exit.table.run after).2.hash) ?_
    rw [scopes_environments]
    exact mem_map_of_mem hs

/-- Operations on a fresh table answer as a stack of environments does, whatever the hash. After
them, every name that an open scope declares means a variable that was declared there under
that name, and the children of every scope are the open scopes directly inside it, so that the
innermost scope has none. A variable of a scope that was closed on the way has not been found
since; the scope is neither among the open ones nor the child of any scope. -/
theorem fresh_refines_environments (hash : NameHash) (strict : Bool) (ops : List Op)
    (h : nested 0 ops = true) :
    let u := ((fresh hash strict).run ops).2
    ((fresh hash strict).run ops).1 = (initial.run ops).1 ∧
    u.environments = (initial.run ops).2 ∧
    u.environments.WellScoped ∧
    (∀ n, u.children.getD n [] = insideOf n u.path) ∧ u.childrenOf u.current = [] ∧
    ∀ before after, ops = before ++ .exit :: after →
      let closed := ((fresh hash strict).run before).2.exit
      (∀ r, (closed.table.var r).scope = closed.scope.number →
        .found (some r) ∉ (closed.table.run after).1) ∧
      (∀ s ∈ u.inner ++ [u.global], s.number ≠ closed.scope.number) ∧
      ∀ n, closed.scope.number ∉ u.children.getD n [] := by
  have hrun (ops : List Op) (h : nested 0 ops = true) :
      ((fresh hash strict).run ops).1 = (initial.run ops).1 ∧
        ((fresh hash strict).run ops).2.environments = (initial.run ops).2 := by
    rw [← environments_fresh hash strict]
    exact run_environments _ h
  have hscoped (ops : List Op) (h : nested 0 ops = true) :
      ((fresh hash strict).run ops).2.environments.WellScoped := by
    rw [(hrun ops h).2]
    exact Environments.WellScoped.initial.run ops
  have hattached := (Attached.fresh hash strict).run ops
  refine ⟨(hrun ops h).1, (hrun ops h).2, hscoped ops h, hattached.children,
    hattached.childrenOf_current, ?_⟩
  rintro before after rfl
  have hbef := nested_of_append h
  have hexit : nested ((fresh hash strict).run before).2.environments.inner.length
      (.exit :: after) = true := by
    rw [(hrun before hbef).2]
    exact nested_run h
  obtain ⟨hnever, hgone⟩ := run_after_exit (hscoped before hbef) hexit
  rw [run_append] at hattached ⊢
  refine ⟨hnever, hgone, hattached.not_mem_children fun hmem => ?_⟩
  obtain ⟨s, hs, hnumber⟩ := mem_map.mp hmem
  exact hgone s hs hnumber

/-- Two variables of one name in nested scopes, a name that is refused, and names that share a
bucket with another. -/
def shadowing : List Op :=
  [.enter .function "f", .declare "x" .i32 false .no .none, .declare "y" .i32 false .no .none,
    .enter .branch "if", .declare "x" .f64 true .yes .none, .declare "x" .u8 false .no .none,
    .find "x", .lookup "y", .find "y", .exit, .find "x", .find "z", .exit, .find "x",
    .declare "x" .i32 false .no .none, .addFunction ⟨"ifj.write", [], .void, false, false, .none⟩,
    .lookupFunction "write"]

/-- With all names in one bucket, the table answers as the environments do: the inner `x` hides the
outer one until its scope is closed. In the end no scope is left in the tree. -/
theorem shadowing_refines_environments :
    nested 0 shadowing = true ∧
    ((fresh (fun _ => 0) true).run shadowing).1 =
      [.done, .declared 1, .declared 2, .done, .declared 3, .refused .redefinition,
        .found (some 3), .found none, .found (some 2), .exited 2, .found (some 1), .found none,
        .exited 1, .found none, .refused .internal, .refused .redefinition, .function none] ∧
    ∀ n, ((fresh (fun _ => 0) true).run shadowing).2.children.getD n [] = [] := by
  have hnested : nested 0 shadowing = true := by decide
  obtain ⟨hanswers, -, -, hchildren, -⟩ :=
    fresh_refines_environments (fun _ => 0) true shadowing hnested
  have hpath : ((fresh (fun _ => 0) true).run shadowing).2.path = [0] := by decide
  refine ⟨hnested, ?_, fun n => ?_⟩
  · rw [hanswers]
    decide
  · rw [hchildren, hpath]
    rfl

end Table

end Ifj24
