import Ifj24.Proofs.Depiction
import Ifj24.Proofs.Uses

/-!
Name resolution binds every use of a name to the declaration in the innermost enclosing scope
that declares it before. A function is one scope with its parameters, and so is each body of a
branch or a loop; what an unwrapping guard binds belongs to the body behind it. Resolution
succeeds exactly if every use refers to something and no scope declares a name twice. Then the
tree shows the derivation, every use is linked to what it refers to, and only what is visible
is used.

Variables are numbered in the order of their declarations, from one on.
-/

open List

namespace Ifj24

open Table

namespace Grammar

open Ifj24.Tree Scoped

section

abbrev Declarations := List (Bytes × VarRef)

abbrev Enclosing := List Declarations

def outermost : Declarations := [(Var.discard.name, discard)]

def Declarations.referent? (scope : Declarations) (name : Bytes) : Option VarRef :=
  scope.lookup name

/-- What a name refers to: the innermost scope that declares it counts. -/
def Enclosing.referent? (around : Enclosing) (name : Bytes) : Option VarRef :=
  (around ++ [outermost]).findSome? (·.referent? name)

structure Site where
  token : Token
  referent : Option VarRef

def sitesAt (around : Enclosing) (ts : List Token) : List Site :=
  (ts.filter (·.kind = .name)).map fun a => ⟨a, around.referent? a.literal⟩

def Call.arguments (c : Call) : List Token := c.args.toList.map Subtype.val

def Rhs.operands : Rhs → List Token
  | .call c => c.arguments
  | .arithmetic e => e.1.tokens

def Plain.declared : Plain → List Bytes
  | .declare _ name .. => [name.1.literal]
  | .drop .. | .assign .. | .call .. | .return .. => []

def Plain.sites (around : Enclosing) : Plain → List Site
  | .declare _ _ _ _ value _ => sitesAt around value.operands
  | .drop target _ value _ => ⟨target.1, some discard⟩ :: sitesAt around value.operands
  | .assign target _ value _ => sitesAt around (target.1 :: value.operands)
  | .call c _ => sitesAt around c.arguments
  | .return _ none _ => []
  | .return _ (some value) _ => sitesAt around value.operands

def Guard.declared : Guard → List Bytes
  | .compare .. => []
  | .unwrap _ _ _ _ bound _ => [bound.1.literal]

def Guard.sites (around : Enclosing) : Guard → List Site
  | .compare _ left _ right _ => sitesAt around left.1.tokens ++ sitesAt around right.1.tokens
  | .unwrap _ subject .. => sitesAt around [subject.1]

def Body.declared : Body → List Bytes
  | .done => []
  | .plain s rest => s.declared ++ rest.declared
  | .branch _ _ _ _ rest | .branchElse _ _ _ _ _ _ _ rest | .loop _ _ _ _ rest => rest.declared

def Body.scopes : Body → List (List Bytes)
  | .done => []
  | .plain _ rest => rest.scopes
  | .branch _ g _ yes rest => (g.declared ++ yes.declared) :: (yes.scopes ++ rest.scopes)
  | .branchElse _ g _ yes _ _ no rest =>
    (g.declared ++ yes.declared) :: (yes.scopes ++ no.declared :: (no.scopes ++ rest.scopes))
  | .loop _ g _ body rest => (g.declared ++ body.declared) :: (body.scopes ++ rest.scopes)

/-- The uses in a body whose scope declares `scope` before it. The next variable is the
`n`-th one. -/
def Body.sites (around : Enclosing) (scope : Declarations) (n : Nat) : Body → List Site
  | .done => []
  | .plain s rest =>
    s.sites (scope :: around) ++
      rest.sites around (scope ++ s.declared.zipIdx n) (n + s.count)
  | .branch _ g _ yes rest =>
    g.sites (scope :: around) ++
      (yes.sites (scope :: around) (g.declared.zipIdx n) (n + g.count) ++
        rest.sites around scope (n + g.count + yes.count))
  | .branchElse _ g _ yes _ _ no rest =>
    g.sites (scope :: around) ++
      (yes.sites (scope :: around) (g.declared.zipIdx n) (n + g.count) ++
        (no.sites (scope :: around) [] (n + g.count + yes.count) ++
          rest.sites around scope (n + g.count + yes.count + no.count)))
  | .loop _ g _ body rest =>
    g.sites (scope :: around) ++
      (body.sites (scope :: around) (g.declared.zipIdx n) (n + g.count) ++
        rest.sites around scope (n + g.count + body.count))

def Function.parameters (f : Function) : List Bytes :=
  f.params.toList.map fun p => p.name.1.literal

def Function.scopes (f : Function) : List (List Bytes) :=
  (f.parameters ++ f.body.declared) :: f.body.scopes

def Function.sites (n : Nat) (f : Function) : List Site :=
  f.body.sites [] (f.parameters.zipIdx n) (n + f.params.toList.length)

def sitesOf (n : Nat) : List Function → List Site
  | [] => []
  | f :: rest => f.sites n ++ sitesOf (n + f.count) rest

def Program.sites (p : Program) : List Site := sitesOf 1 p.functions

def Program.scopes (p : Program) : List (List Bytes) := p.functions.flatMap Function.scopes

def Bound (sites : List Site) : Prop := ∀ s ∈ sites, s.referent.isSome = true

def Distinct (scopes : List (List Bytes)) : Prop := ∀ names ∈ scopes, names.Nodup

instance (sites : List Site) : Decidable (Bound sites) :=
  inferInstanceAs (Decidable (∀ s ∈ sites, s.referent.isSome = true))

instance (scopes : List (List Bytes)) : Decidable (Distinct scopes) :=
  inferInstanceAs (Decidable (∀ names ∈ scopes, names.Nodup))

/-- Variables are used at the given places, and each use is of what it refers to. -/
def Linked (uses : List Variable) (sites : List Site) : Prop :=
  uses.map (fun v => (v.pos, some v.var)) = sites.map fun s => (s.token.pos, s.referent)

end

section

theorem Declarations.referent?_eq_none_iff (scope : Declarations) :
    scope.referent? name = none ↔ name ∉ scope.map Prod.fst := by
  rw [referent?, lookup_eq_none_iff, mem_map]
  refine ⟨fun h ⟨p, hp, hname⟩ => ?_, fun h p hp => ?_⟩
  · simpa [hname] using h p hp
  · exact bne_iff_ne.mpr fun hname => h ⟨p, hp, hname.symm⟩

theorem Declarations.referent?_append_singleton (scope : Declarations) (name other : Bytes)
    (r : VarRef) :
    Declarations.referent? (scope ++ [(name, r)]) other =
      (scope.referent? other).or (if name == other then some r else none) := by
  have hlast : List.lookup other [(name, r)] = if name == other then some r else none := by
    by_cases hname : name = other
    · simp [hname]
    · have hne : (other == name) = false := beq_eq_false_iff_ne.mpr (.symm hname)
      simp [hname, lookup_cons, hne]
  rw [referent?, lookup_append, hlast, ← referent?]

/-- A consistent table whose open scopes are those around a place. The next variable is the
`n`-th one. -/
structure Shows (t : Table) (around : Enclosing) (n : Nat) : Prop where
  consistent : t.Consistent
  inner : t.inner.map (Scope.lookup? t.hash) = around.map Declarations.referent?
  global : t.global.lookup? t.hash = outermost.referent?
  nodup : ∀ scope ∈ around, (scope.map Prod.fst).Nodup
  size : t.store.size = n

namespace Shows

variable {t T : Table} {around : Enclosing} {scope : Declarations} {n : Nat}

section

variable (h : Shows t around n)

include h

theorem resolve? (name : Bytes) : (t.resolve? name).map Prod.fst = around.referent? name := by
  have hscopes (ss : List Scope) :
      (ss.findSome? fun s => (s.lookup? t.hash name).map (·, s)).map Prod.fst =
        (ss.map (Scope.lookup? t.hash)).findSome? (· name) := by
    induction ss with
    | nil => rfl
    | cons s rest ih =>
      rw [findSome?_cons, map_cons, findSome?_cons]
      cases s.lookup? t.hash name with
      | none => exact ih
      | some r => rfl
  have hall : (t.inner ++ [t.global]).map (Scope.lookup? t.hash) =
      (around ++ [outermost]).map Declarations.referent? := by
    rw [map_append, map_append, h.inner, map_singleton, map_singleton, h.global]
  rw [Table.resolve?, hscopes, hall, findSome?_map]
  rfl

theorem sees_iff (name : Bytes) : t.Sees name ↔ (around.referent? name).isSome = true := by
  rw [Table.Sees, ← h.resolve?, Option.isSome_map]

theorem visible (ha : t.Sees a.literal) (hT : t.Later T) :
    around.referent? a.literal = some (t.visible a.literal) ∧
      Named T n a (t.visible a.literal) := by
  obtain ⟨⟨r, s⟩, hr⟩ := Option.isSome_iff_exists.mp ha
  obtain ⟨hlt, hname⟩ := h.consistent.resolve? hr
  rw [← h.resolve?, Table.visible, hr, ← h.size]
  exact ⟨rfl, hlt, (hT.alike r hlt).name.trans hname⟩

theorem withFuncs (funcs : Registry) : Shows { t with funcs } around n :=
  ⟨h.consistent.withFuncs funcs, h.inner, h.global, h.nodup, h.size⟩

theorem modify (r : VarRef) {f : Var → Var} (hf : ∀ v : Var, v.Alike (f v)) :
    Shows (t.modify r f) around n :=
  ⟨h.consistent.modify r hf, h.inner, h.global, h.nodup, (size_modify t r f).trans h.size⟩

theorem useAll {ts : List Token} (hu : Tree.useAll ts t = .ok () u) :
    t.Later u ∧ Shows u around n := by
  have hmark (v : Var) : v.Alike { v with accessed := true } := { Var.Alike.refl v with }
  exact useAll_preserves (P := fun u => t.Later u ∧ Shows u around n)
    (fun u r h => ⟨h.1.trans (later_modify u r hmark), h.2.modify r hmark⟩) ⟨.refl t, h⟩ hu

theorem enter (kind : ScopeKind) (comment : Bytes) :
    Shows (t.enter kind comment) ([] :: around) n where
  consistent := h.consistent.enter kind comment
  inner := by
    rw [map_cons, ← h.inner]
    rfl
  global := h.global
  nodup := forall_mem_cons.mpr ⟨nodup_nil, h.nodup⟩
  size := h.size

end

theorem inner_cons (h : Shows t (scope :: around) n) :
    ∃ s outer, t.inner = s :: outer ∧ (∀ name, s.lookup? t.hash name = scope.referent? name) ∧
      outer.map (Scope.lookup? t.hash) = around.map Declarations.referent? := by
  obtain ⟨s, outer, hinner, hs, houter⟩ := map_eq_cons_iff.mp h.inner
  exact ⟨s, outer, hinner, congrFun hs, houter⟩

theorem exit (h : Shows t (scope :: around) n) :
    t.Later t.exit.table ∧ Shows t.exit.table around n := by
  obtain ⟨s, outer, hinner, -, houter⟩ := h.inner_cons
  have hcons := h.consistent.exit hinner
  rw [Table.exit_eq hinner] at hcons ⊢
  exact ⟨⟨rfl, rfl, rfl, Nat.le_refl _, fun _ _ => .refl _⟩, hcons, houter, h.global,
    fun ds hds => h.nodup ds (mem_cons_of_mem _ hds), h.size⟩

theorem declare_cases (h : Shows t (scope :: around) n) (a : Token) (type : DataType)
    (mutable_ : Bool) (nullable : Nullability) :
    (∃ u, t.declare a.literal type mutable_ nullable a.pos = .ok n u ∧
      a.literal ∉ scope.map Prod.fst ∧ Shows u ((scope ++ [(a.literal, n)]) :: around) (n + 1)) ∨
    ∃ d, t.declare a.literal type mutable_ nullable a.pos = .error d t ∧ d.kind = .redefinition ∧
      a.literal ∈ scope.map Prod.fst := by
  obtain ⟨s, outer, hinner, hlook, houter⟩ := h.inner_cons
  cases hname : s.lookup? t.hash a.literal with
  | some r =>
    refine .inr ⟨_, by simp only [Table.declare, hinner, hname]; rfl, rfl, ?_⟩
    refine Classical.byContradiction fun hnew => ?_
    rw [hlook, scope.referent?_eq_none_iff.mpr hnew] at hname
    cases hname
  | none =>
    have hnew : a.literal ∉ scope.map Prod.fst := by
      rw [hlook] at hname
      exact scope.referent?_eq_none_iff.mp hname
    obtain ⟨u, hu⟩ : ∃ u, t.declare a.literal type mutable_ nullable a.pos = .ok n u :=
      ⟨_, by simp only [Table.declare, hinner, hname, ← h.size]; rfl⟩
    have hcons := h.consistent.declare hu
    obtain ⟨s', outer', hinner', -, -, rfl⟩ := Table.declare_eq_ok hu
    cases hinner.symm.trans hinner'
    refine .inl ⟨_, hu, hnew, hcons, ?_, h.global, ?_, by simp [h.size]⟩
    · rw [map_cons, map_cons, ← houter, List.cons.injEq]
      refine ⟨funext fun other => ?_, rfl⟩
      rw [Declarations.referent?_append_singleton, ← hlook]
      exact NameIndex.find?_insert s.index a.literal other n
    · refine forall_mem_cons.mpr ⟨?_, fun ds hds => h.nodup ds (mem_cons_of_mem _ hds)⟩
      rw [map_append, map_singleton]
      exact (perm_append_singleton _ _).nodup_iff.mpr
        (nodup_cons.mpr ⟨hnew, h.nodup scope mem_cons_self⟩)

end Shows

theorem shows_fresh (hash : NameHash) (strict : Bool) : Shows (.fresh hash strict) [] 1 where
  consistent := fresh_consistent hash strict
  inner := rfl
  global := by
    funext name
    rw [outermost, ← nil_append [_], Declarations.referent?_append_singleton]
    exact NameIndex.find?_insert NameIndex.empty Var.discard.name name discard
  nodup := fun _ h => nomatch h
  size := rfl

theorem declared_of_declare {t u T : Table} (hc : t.Consistent)
    (h : t.declare a.literal type mutable_ nullable a.pos = .ok r u) (hT : u.Later T) :
    Declared T r a type mutable_ nullable := by
  obtain ⟨hr, hsize, number, hvar⟩ := var_declare h
  have hlt : r < u.store.size := by
    rw [hr, hsize]
    exact Nat.lt_succ_self _
  have halike := hT.alike r hlt
  refine ⟨Nat.lt_of_lt_of_le hlt hT.size, ?_, halike.name.trans ?_, halike.pos.trans ?_,
    halike.type.trans ?_, halike.mutable_.trans ?_, halike.nullable.trans ?_⟩
  · rw [halike.id, (hc.declare h).ids r hlt]
  all_goals simp only [hvar]

end

section

variable {meaning : Bytes → VarRef}

/-- The uses of variables in some tokens, if names have a meaning. -/
def usesAt (meaning : Bytes → VarRef) (ts : List Token) : List Variable :=
  (ts.filter (·.kind = .name)).map fun a => ⟨a.pos, meaning a.literal⟩

theorem usesAt_append (as bs : List Token) :
    usesAt meaning (as ++ bs) = usesAt meaning as ++ usesAt meaning bs := by
  simp [usesAt]

theorem usesAt_of_not_name (h : a.kind ≠ .name) (ts : List Token) :
    usesAt meaning (a :: ts) = usesAt meaning ts := by
  simp [usesAt, h]

theorem leafUses_leafExpr (a : Token) : (leafExpr meaning a).leafUses = usesAt meaning [a] := by
  by_cases hname : a.kind = .name
  · simp [leafExpr, usesAt, hname, Expr.leafUses]
  · rw [usesAt_of_not_name hname]
    unfold leafExpr
    split
    · contradiction
    all_goals rfl

theorem usesIn_postOrder (e : ArithTree) :
    usesIn (e.postOrder meaning) = usesAt meaning e.tokens := by
  induction e with
  | operand a ha =>
    rw [ArithTree.postOrder, usesIn, flatMap_singleton]
    exact leafUses_leafExpr a
  | binary l op hop r ihl ihr =>
    have hop' : op.kind ≠ .name := by
      intro hname
      rw [hname] at hop
      cases hop
    have huses : usesIn ((ArithTree.binary l op hop r).postOrder meaning) =
        usesIn (l.postOrder meaning) ++ usesIn (r.postOrder meaning) := by
      simp [ArithTree.postOrder, usesIn, Expr.leafUses]
    rw [huses, ihl, ihr, ArithTree.tokens, usesAt_append, usesAt_of_not_name hop']
  | paren o ho inner c hc ih =>
    have hclosing : usesAt meaning [c] = [] := by simp [usesAt, hc]
    rw [ArithTree.postOrder, ih, ArithTree.tokens, usesAt_append, hclosing, append_nil,
      usesAt_of_not_name (by rw [ho]; decide)]

end

section

variable {ts : List Token}

variable {around : Enclosing} {vs : List Variable} {xs : List Site}

theorem sitesAt_append (as bs : List Token) :
    sitesAt around (as ++ bs) = sitesAt around as ++ sitesAt around bs := by
  simp [sitesAt]

theorem sitesAt_cons (a : Token) (ts : List Token) :
    sitesAt around (a :: ts) = sitesAt around [a] ++ sitesAt around ts :=
  sitesAt_append [a] ts

theorem bound_sitesAt :
    Bound (sitesAt around ts) ↔
      ∀ a ∈ ts, a.kind = .name → (around.referent? a.literal).isSome = true := by
  rw [Bound, sitesAt, forall_mem_map]
  simp only [mem_filter, decide_eq_true_eq, and_imp]

theorem bound_nil : Bound [] := fun _ h => nomatch h

theorem bound_append : Bound (xs ++ ys) ↔ Bound xs ∧ Bound ys := forall_mem_append

theorem distinct_nil : Distinct [] := fun _ h => nomatch h

theorem distinct_cons :
    Distinct (names :: scopes) ↔ names.Nodup ∧ Distinct scopes := forall_mem_cons

theorem distinct_append :
    Distinct (as ++ bs) ↔ Distinct as ∧ Distinct bs := forall_mem_append

theorem Linked.nil : Linked [] [] := rfl

theorem Linked.append (h : Linked us xs) (h' : Linked vs ys) : Linked (us ++ vs) (xs ++ ys) := by
  unfold Linked at *
  rw [map_append, map_append, h, h']

def Means (around : Enclosing) (meaning : Bytes → VarRef) (ts : List Token) : Prop :=
  ∀ a ∈ ts, a.kind = .name → around.referent? a.literal = some (meaning a.literal)

theorem linked_usesAt {meaning : Bytes → VarRef} (h : Means around meaning ts) :
    Linked (usesAt meaning ts) (sitesAt around ts) := by
  rw [Linked, usesAt, sitesAt, map_map, map_map]
  refine map_congr_left fun a ha => ?_
  obtain ⟨ha, hname⟩ := mem_filter.mp ha
  exact congrArg (a.pos, ·) (h a ha (of_decide_eq_true hname)).symm

theorem linked_name (a : Lexeme .name) (h : around.referent? a.1.literal = some r) :
    Linked [⟨a.1.pos, r⟩] (sitesAt around [a.1]) := by
  simp [Linked, sitesAt, a.2, h]

end

section

variable {g : Guard} {s : Plain} {x : Tree.Guard}

variable {T : Table} {n : Nat} {around : Enclosing} {scope : Declarations} {vs : List VarRef}

/-- Whatever a name can refer to is visible, and `_` is. -/
structure Covers (around : Enclosing) (vs : List VarRef) : Prop where
  discard : discard ∈ vs
  names : ∀ name r, around.referent? name = some r → r ∈ vs

theorem referent?_cons (scope : Declarations) (around : Enclosing) (name : Bytes) :
    Enclosing.referent? (scope :: around) name =
      (scope.referent? name).or (around.referent? name) := by
  rw [Enclosing.referent?, cons_append, findSome?_cons]
  cases scope.referent? name <;> rfl

theorem covers_nil : Covers [] [discard] where
  discard := mem_cons_self
  names name r hr := by
    rw [Enclosing.referent?, nil_append, findSome?_singleton, outermost,
      Declarations.referent?, lookup_cons] at hr
    split at hr
    · cases hr
      exact mem_cons_self
    · cases hr

theorem Covers.extend (h : Covers (scope :: around) vs) (more : Declarations) :
    Covers ((scope ++ more) :: around) (more.map Prod.snd ++ vs) where
  discard := mem_append_right _ h.discard
  names name r hr := by
    have hscope : Declarations.referent? (scope ++ more) name =
        (scope.referent? name).or (more.referent? name) := lookup_append
    have hmore (hr : more.referent? name = some r) : r ∈ more.map Prod.snd := by
      obtain ⟨front, back, hsplit, -⟩ := lookup_eq_some_iff.mp hr
      rw [hsplit]
      simp
    have hold := h.names name r
    rw [referent?_cons] at hr hold
    rw [hscope] at hr
    cases hs : scope.referent? name with
    | some q =>
      rw [hs] at hr hold
      exact mem_append_right _ (hold hr)
    | none =>
      rw [hs] at hr hold
      cases hm : more.referent? name with
      | some q =>
        rw [hm] at hr
        cases hr
        exact mem_append_left _ (hmore hm)
      | none =>
        rw [hm] at hr
        exact mem_append_right _ (hold hr)

theorem Covers.inside (h : Covers around vs) (first : Declarations) :
    Covers (first :: around) (first.map Prod.snd ++ vs) := by
  have hempty : Covers ([] :: around) vs := by
    refine ⟨h.discard, fun name r hr => h.names name r ?_⟩
    rwa [referent?_cons] at hr
  exact hempty.extend first

def Reached (vs : List VarRef) (sites : List Site) : Prop :=
  ∀ s ∈ sites, ∀ r, s.referent = some r → r ∈ vs

theorem visible_of_linked {us : List Variable} (h : Linked us sites)
    (hsites : Reached vs sites) : Visible vs us := by
  intro v hv
  have hmem : (v.pos, some v.var) ∈ sites.map fun s => (s.token.pos, s.referent) := by
    rw [← h]
    exact mem_map_of_mem hv
  obtain ⟨s, hs, heq⟩ := mem_map.mp hmem
  exact hsites s hs v.var (Prod.mk.inj heq).2

theorem Covers.reached (h : Covers around vs) (ts : List Token) :
    Reached vs (sitesAt around ts) := by
  intro s hs r hr
  obtain ⟨a, -, rfl⟩ := mem_map.mp hs
  exact h.names a.literal r hr

theorem Covers.reached_plain (h : Covers around vs) (s : Plain) :
    Reached vs (s.sites around) := by
  cases s with
  | declare binder name mark eq value semi => exact h.reached _
  | drop target eq value semi =>
    refine forall_mem_cons.mpr ⟨fun r hr => ?_, h.reached _⟩
    cases hr
    exact h.discard
  | assign target eq value semi => exact h.reached _
  | call c semi => exact h.reached _
  | «return» keyword value semi =>
    cases value with
    | none => exact fun s hs => nomatch hs
    | some value => exact h.reached _

theorem Covers.visible_guard (h : Covers around vs)
    (hlink : Linked x.uses (g.sites around)) : Visible vs x.uses := by
  refine visible_of_linked hlink ?_
  cases g with
  | compare => exact forall_mem_append.mpr ⟨h.reached _, h.reached _⟩
  | unwrap => exact h.reached _

theorem Plain.Depicts.inScope {x : Stmt} (hd : s.Depicts T n x)
    (hlink : Linked x.uses (s.sites around)) (h : Covers around vs) : x.InScope vs := by
  have huses : Visible vs x.uses := visible_of_linked hlink (h.reached_plain s)
  cases hd with
  | declare | drop | assign | call | returnSome => exact huses
  | returnNone => trivial

theorem Plain.Depicts.reveals {x : Stmt} (hd : s.Depicts T n x) :
    x.reveals = (s.declared.zipIdx n).map Prod.snd := by
  cases hd <;> rfl

theorem Guard.Depicts.binding (hd : g.Depicts T n x) :
    x.binding?.toList = (g.declared.zipIdx n).map Prod.snd := by
  cases hd <;> rfl

theorem Guard.Depicts.covers (hd : g.Depicts T n x)
    (h : Covers around vs) : Covers (g.declared.zipIdx n :: around) (x.binding?.toList ++ vs) := by
  rw [hd.binding]
  exact h.inside _

end

/-- The computation resolves names by lexical scoping: with the given scopes around it and
before the `n`-th variable, it uses names at the given places and leaves other scopes around
what follows. It succeeds exactly if every place refers to something and the names it
declares are `distinct`. Its result is as `Q` says in every later table. -/
def Binds {α : Type} (around after : Enclosing) (n n' : Nat) (sites : List Site) (distinct : Prop)
    (m : Scoped α) (Q : Table → α → Prop) : Prop :=
  ∀ s, Shows s.table around n →
    match m s with
    | .ok a s' =>
      s.table.Later s'.table ∧ Bound sites ∧ distinct ∧ Shows s'.table after n' ∧
        ∀ T, s'.table.Later T → Q T a
    | .error d _ => d.kind = .undefinedName ∧ ¬ Bound sites ∨ d.kind = .redefinition ∧ ¬ distinct

namespace Binds

variable {α β : Type} {around after : Enclosing} {scope : Declarations} {n : Nat}
  {xs ys : List Site} {d e : Prop} {m : Scoped α} {f : α → Scoped β} {Q : Table → α → Prop}
  {R : Table → β → Prop}

theorem congr (h : Binds around after n k xs d m Q) (hs : xs = ys) (hd : d ↔ e) (hk : k = l) :
    Binds around after n l ys e m Q := by
  subst hs hk
  rwa [propext hd] at h

theorem pure (h : ∀ T, Q T a) : Binds around around n n [] True (Pure.pure a : Scoped α) Q :=
  fun _ hs => ⟨.refl _, bound_nil, trivial, hs, fun T _ => h T⟩

theorem bind (hm : Binds around after n k xs d m Q)
    (hf : ∀ a, Binds after last k l ys e (f a) fun T b => Q T a → R T b) :
    Binds around last n l (xs ++ ys) (d ∧ e) (m >>= f) R := by
  intro s hs
  have hfirst := hm s hs
  rw [bind_apply]
  cases hms : m s with
  | error d' s' =>
    rw [hms] at hfirst
    exact hfirst.imp (fun ⟨hkind, hb⟩ => ⟨hkind, fun h => hb (bound_append.mp h).1⟩)
      fun ⟨hkind, hd⟩ => ⟨hkind, fun h => hd h.1⟩
  | ok a s' =>
    rw [hms] at hfirst
    obtain ⟨hlater, hb, hd, hs', ha⟩ := hfirst
    have hsecond := hf a s' hs'
    dsimp only
    cases hfs : f a s' with
    | error d' s'' =>
      rw [hfs] at hsecond
      exact hsecond.imp (fun ⟨hkind, hb⟩ => ⟨hkind, fun h => hb (bound_append.mp h).2⟩)
        fun ⟨hkind, hd⟩ => ⟨hkind, fun h => hd h.2⟩
    | ok b s'' =>
      rw [hfs] at hsecond
      obtain ⟨hlater', hb', he, hs'', hR⟩ := hsecond
      exact ⟨hlater.trans hlater', bound_append.mpr ⟨hb, hb'⟩, ⟨hd, he⟩, hs'',
        fun T hT => hR T hT (ha T (hlater'.trans hT))⟩

theorem map {g : α → β} (hm : Binds around after n k xs d m Q) (hR : ∀ T a, Q T a → R T (g a)) :
    Binds around after n k xs d (m >>= fun a => Pure.pure (g a)) R :=
  (bind hm fun a => pure fun T => hR T a).congr (append_nil xs) (.of_eq (and_true d)) rfl

theorem settled (a : Token) (r : VarRef) (hm : Binds around after n k xs d m Q) :
    Binds around after n k (⟨a, some r⟩ :: xs) d m Q := by
  have hbound : Bound (⟨a, some r⟩ :: xs) ↔ Bound xs := by simp [Bound]
  unfold Binds
  simp only [hbound]
  exact hm

theorem after_quiet (hm : Binds around after n n [] True m Q)
    (hf : ∀ a, Binds after last n k xs d (f a) fun T b => Q T a → R T b) :
    Binds around last n k xs d (m >>= f) R :=
  (bind hm hf).congr rfl (.of_eq (true_and d)) rfl

theorem useAll_error_kind {ts : List Token} {t u : Table} {d : Diagnostic}
    (h : Tree.useAll ts t = .error d u) : d.kind = .undefinedName := by
  induction ts generalizing t with
  | nil => cases h
  | cons a rest ih =>
    rw [useAll_cons] at h
    cases ha : Tree.use a t with
    | ok _ v =>
      rw [ha] at h
      exact ih h
    | error d' v =>
      rw [ha] at h
      cases h
      unfold Tree.use at ha
      split at ha
      · split at ha
        · cases ha
        · cases ha
          rfl
      · cases ha

theorem naming (ts : List Token) {f : (Bytes → VarRef) → α}
    (h : ∀ T meaning, Means around meaning ts → Spells T n meaning ts → Q T (f meaning)) :
    Binds around around n n (sitesAt around ts) True (do
      let meaning ← Scoped.meaning
      Scoped.useAll ts
      return f meaning) Q := by
  intro s hs
  have hsees : (∃ u, Tree.useAll ts s.table = .ok () u) ↔ Bound (sitesAt around ts) := by
    rw [useAll_ok_iff, bound_sitesAt]
    simp only [hs.sees_iff]
  rw [naming_apply, Scoped.useAll, onTable]
  cases hall : Tree.useAll ts s.table with
  | error d u =>
    refine .inl ⟨useAll_error_kind hall, fun hbound => ?_⟩
    obtain ⟨v, hv⟩ := hsees.mpr hbound
    rw [hall] at hv
    cases hv
  | ok _ u =>
    obtain ⟨hlater, hu⟩ := hs.useAll hall
    have hseen := (useAll_ok_iff ts s.table).mp ⟨u, hall⟩
    refine ⟨hlater, hsees.mp ⟨u, hall⟩, trivial, hu, fun T hT => h T _ ?_ ?_⟩
    · exact fun a ha hname => (hs.visible (hseen a ha hname) (hlater.trans hT)).1
    · exact fun a ha hname => (hs.visible (hseen a ha hname) (hlater.trans hT)).2

theorem find (name : Lexeme .name) :
    Binds around around n n (sitesAt around [name.1]) True (find name)
      fun T r => around.referent? name.1.literal = some r ∧ Named T n name.1 r :=
  naming [name.1] fun _ _ hmeans hspell =>
    ⟨hmeans name.1 mem_cons_self name.2, hspell name.1 mem_cons_self name.2⟩

theorem modify (r : VarRef) {f : Var → Var} (hf : ∀ v : Var, v.Alike (f v)) :
    Binds around around n n [] True (modifyTable (·.modify r f)) fun _ _ => True :=
  fun s hs => ⟨later_modify s.table r hf, bound_nil, trivial, hs.modify r hf,
    fun _ _ => trivial⟩

theorem assignTo (name : Lexeme .name) :
    Binds around around n n (sitesAt around [name.1]) True (assignTo name)
      fun T r => around.referent? name.1.literal = some r ∧ Named T n name.1 r := by
  refine congr (bind (find name) fun r => map (modify r fun v => ?_) fun _ _ _ hr => hr) ?_ ?_ rfl
  · exact { Var.Alike.refl v with }
  · rw [append_nil]
  · exact .of_eq (and_true True)

theorem declare (name : Lexeme .name) (type : DataType) (mutable_ : Bool)
    (nullable : Nullability) :
    Binds (scope :: around) ((scope ++ [(name.1.literal, n)]) :: around) n (n + 1) []
      (name.1.literal ∉ scope.map Prod.fst) (Scoped.declare name type mutable_ nullable)
      fun T r => r = n ∧ Declared T n name.1 type mutable_ nullable := by
  intro s hs
  unfold Scoped.declare
  rcases hs.declare_cases name.1 type mutable_ nullable with
    ⟨u, hdeclare, hnew, hu⟩ | ⟨d, hdeclare, hkind, hold⟩
  · rw [hdeclare]
    exact ⟨later_declare hdeclare, bound_nil, hnew, hu,
      fun T hT => ⟨rfl, declared_of_declare hs.consistent hdeclare hT⟩⟩
  · rw [hdeclare]
    exact .inr ⟨hkind, fun hnew => hnew hold⟩

theorem enter (kind : ScopeKind) (comment : Bytes) :
    Binds around ([] :: around) n n [] True (enter kind comment) fun _ _ => True :=
  fun _ hs => ⟨⟨rfl, rfl, rfl, Nat.le_refl _, fun _ _ => .refl _⟩, bound_nil, trivial,
    hs.enter kind comment, fun _ _ => trivial⟩

theorem exit : Binds (scope :: around) around n n [] True exit fun _ _ => True :=
  fun _ hs => ⟨hs.exit.1, bound_nil, trivial, hs.exit.2, fun _ _ => trivial⟩

theorem terms (args : Listed Term) :
    Binds around around n n (sitesAt around (args.toList.map Subtype.val)) True
      (resolveTerms args) fun T xs => TermsDepict T n args xs ∧
        Linked (usesIn xs) (sitesAt around (args.toList.map Subtype.val)) := by
  have term (a : Term) : Binds around around n n (sitesAt around [a.1]) True (Term.resolve a)
      fun T x => ∃ meaning, x = leafExpr meaning a.1 ∧ Spells T n meaning [a.1] ∧
        Linked (leafExpr meaning a.1).leafUses (sitesAt around [a.1]) :=
    naming [a.1] fun _ meaning hmeans hspell =>
      ⟨meaning, rfl, hspell, leafUses_leafExpr a.1 ▸ linked_usesAt hmeans⟩
  induction args with
  | nil => exact pure fun _ => ⟨.nil, .nil⟩
  | last a =>
    refine map (term a) ?_
    rintro T _ ⟨meaning, rfl, hspell, hlink⟩
    rw [usesIn, flatMap_singleton]
    exact ⟨.last hspell, hlink⟩
  | cons a comma rest ih =>
    rw [Listed.toList, map_cons, sitesAt_cons]
    refine congr (bind (term a) fun x => map ih ?_) rfl (.of_eq (and_true True)) rfl
    rintro T xs ⟨hdepict, hxs⟩ ⟨meaning, rfl, hspell, hlink⟩
    exact ⟨.cons hspell hdepict, hlink.append hxs⟩

theorem call (c : Call) :
    Binds around around n n (sitesAt around c.arguments) True c.resolve
      fun T x => c.Depicts T n x ∧ Linked (usesIn x.args) (sitesAt around c.arguments) :=
  map (terms c.args) fun _ _ h => ⟨.mk h.1, h.2⟩

theorem rhs (x : Rhs) :
    Binds around around n n (sitesAt around x.operands) True x.resolve
      fun T y => x.Depicts T n y ∧ Linked y.uses (sitesAt around x.operands) := by
  cases x with
  | call c => exact map (call c) fun _ _ h => ⟨.call h.1, h.2⟩
  | arithmetic e =>
    have hresolve : Binds around around n n (sitesAt around e.1.tokens) True (Arithmetic.resolve e)
        fun T y => (Rhs.arithmetic e).Depicts T n (.expression y) ∧
          Linked (usesIn y.items) (sitesAt around e.1.tokens) :=
      naming e.1.tokens fun _ _ hmeans hspell =>
        ⟨.arithmetic hspell, usesIn_postOrder e.1 ▸ linked_usesAt hmeans⟩
    exact map hresolve fun _ _ h => h

theorem plain (s : Plain) :
    Binds (scope :: around) ((scope ++ s.declared.zipIdx n) :: around) n (n + s.count)
      (s.sites (scope :: around)) (∀ name ∈ s.declared, name ∉ scope.map Prod.fst) s.resolve
      fun T x => s.Depicts T n x ∧ Linked x.uses (s.sites (scope :: around)) := by
  -- Only a declaration adds to the scope.
  have quiet {m : Scoped Stmt} {sites : List Site} {Q : Table → Stmt → Prop}
      (h : Binds (scope :: around) (scope :: around) n n sites True m Q) :
      Binds (scope :: around) ((scope ++ List.zipIdx [] n) :: around) n (n + 0) sites
        (∀ name ∈ ([] : List Bytes), name ∉ scope.map Prod.fst) m Q := by
    rw [zipIdx_nil, append_nil]
    exact h.congr rfl (by simp) rfl
  cases s with
  | declare binder name mark eq value semi =>
    refine congr (bind (rhs value) fun x => map (declare name _ _ _) ?_) (append_nil _) ?_ rfl
    · rintro T _ ⟨rfl, hvar⟩ ⟨hvalue, hlink⟩
      exact ⟨.declare hvalue hvar, hlink⟩
    · simp [Plain.declared]
  | drop target eq value semi =>
    refine quiet (map (settled target.1 discard (rhs value)) fun T x hx => ?_)
    have htgt : Linked [⟨target.1.pos, discard⟩] [⟨target.1, some discard⟩] := rfl
    exact ⟨.drop hx.1, htgt.append hx.2⟩
  | assign target eq value semi =>
    have hsites : (Plain.assign target eq value semi).sites (scope :: around) =
        sitesAt (scope :: around) [target.1] ++ sitesAt (scope :: around) value.operands :=
      sitesAt_cons target.1 value.operands
    rw [hsites]
    refine quiet (congr (bind (assignTo target) fun r => map (rhs value) fun T x hx hr => ?_) rfl
      (.of_eq (and_true True)) rfl)
    exact ⟨.assign hr.2 hx.1, .append (linked_name target hr.1) hx.2⟩
  | call c semi => exact quiet (map (call c) fun _ _ h => ⟨.call h.1, h.2⟩)
  | «return» keyword value semi =>
    cases value with
    | none => exact quiet (pure fun _ => ⟨.returnNone, .nil⟩)
    | some value => exact quiet (map (rhs value) fun _ _ h => ⟨.returnSome h.1, h.2⟩)

theorem guard (g : Guard) (kind : ScopeKind) (comment : Bytes) :
    Binds around (g.declared.zipIdx n :: around) n (n + g.count) (g.sites around) True
      (g.resolve kind comment) fun T x => g.Depicts T n x ∧ Linked x.uses (g.sites around) := by
  cases g with
  | compare opening left op right closing =>
    have hop : op.1.kind ≠ .name := by
      intro hname
      have hrel := op.2
      rw [hname] at hrel
      cases hrel
    have hsites : sitesAt around (left.1.tokens ++ op.1 :: right.1.tokens) =
        sitesAt around left.1.tokens ++ sitesAt around right.1.tokens := by
      rw [sitesAt_append, sitesAt, sitesAt, sitesAt, filter_cons_of_neg (by simpa using hop)]
    have htruth : Binds around around n n
        (sitesAt around (left.1.tokens ++ op.1 :: right.1.tokens)) True
        (resolveTruth left op right) fun T c =>
          (Guard.compare opening left op right closing).Depicts T n (.compare c) ∧
            Linked (usesIn c.left.items ++ usesIn c.right.items)
              (sitesAt around (left.1.tokens ++ op.1 :: right.1.tokens)) := by
      refine naming _ fun T meaning hmeans hspell => ⟨.compare hspell, ?_⟩
      have hlink := linked_usesAt hmeans
      rw [usesAt_append, usesAt_of_not_name hop, ← usesIn_postOrder, ← usesIn_postOrder] at hlink
      exact hlink
    rw [hsites] at htruth
    exact congr (bind htruth fun c => map (enter kind comment) fun _ _ _ hc => hc)
      (append_nil _) (.of_eq (and_true True)) rfl
  | unwrap opening subject closing bar bound bar' =>
    refine congr (bind (find subject) fun r => after_quiet (enter kind comment) fun _ =>
      map (declare bound _ _ _) ?_) (append_nil _) ?_ rfl
    · rintro T _ ⟨rfl, hbound⟩ - ⟨hr, hsubj⟩
      exact ⟨.unwrap hsubj hbound, linked_name subject hr⟩
    · simp

theorem block (braces : Braces) {Q : Table → List Stmt → Prop}
    (h : Binds (scope :: around) (scope' :: around) n k xs d inside Q) :
    Binds (scope :: around) around n k xs d (braces.block inside) fun T b =>
      ∃ stmts last, b = braces.around stmts last ∧ Q T stmts :=
  congr (bind h fun stmts => map exit fun _ last _ hstmts => ⟨stmts, last, rfl, hstmts⟩)
    (append_nil xs) (.of_eq (and_true d)) rfl

theorem branch (keyword : Lexeme .kwIf) (g : Guard)
    (hyes : Binds (g.declared.zipIdx n :: around) around (n + g.count) k xs d yes Y)
    (hno : Binds around around k l ys e no N) :
    Binds around around n l (g.sites around ++ (xs ++ ys)) (d ∧ e)
      (resolveBranch keyword g yes no) fun T x => ∃ g' y z, x = .ifElse keyword.1.pos g' y z ∧
        (g.Depicts T n g' ∧ Linked g'.uses (g.sites around)) ∧ Y T y ∧ N T z :=
  congr (bind (guard g _ _) fun g' => bind hyes fun y => map hno fun _ z hz hy hg =>
    ⟨g', y, z, rfl, hg, hy, hz⟩) rfl (.of_eq (true_and _)) rfl

end Binds

def Body.adds (n : Nat) : Body → Declarations
  | .done => []
  | .plain s rest => s.declared.zipIdx n ++ rest.adds (n + s.count)
  | .branch _ g _ yes rest => rest.adds (n + g.count + yes.count)
  | .branchElse _ g _ yes _ _ no rest => rest.adds (n + g.count + yes.count + no.count)
  | .loop _ g _ body rest => rest.adds (n + g.count + body.count)

/-- The names that a body declares are new in its scope, and all scopes inside it declare
different names. -/
def Body.Distinct (scope : Declarations) (b : Body) : Prop :=
  (scope.map Prod.fst ++ b.declared).Nodup ∧ Grammar.Distinct b.scopes

theorem nodup_extended {scope : Declarations} {n : Nat} (names rest : List Bytes) :
    (∀ name ∈ names, name ∉ scope.map Prod.fst) ∧
        ((scope ++ names.zipIdx n).map Prod.fst ++ rest).Nodup ↔
      (scope.map Prod.fst ++ (names ++ rest)).Nodup := by
  rw [map_append, zipIdx_map_fst, append_assoc]
  refine ⟨And.right, fun h => ⟨fun name hname hold => ?_, h⟩⟩
  exact (nodup_append.mp h).2.2 name hold name (mem_append_left _ hname) rfl

namespace Body

variable {scope : Declarations} {n : Nat}

theorem distinct_plain (s : Plain) (rest : Body) :
    (∀ name ∈ s.declared, name ∉ scope.map Prod.fst) ∧
        rest.Distinct (scope ++ s.declared.zipIdx n) ↔
      (Body.plain s rest).Distinct scope := by
  rw [Body.Distinct, ← and_assoc, nodup_extended]
  rfl

theorem distinct_guarded (g : Guard) (b : Body) :
    b.Distinct (g.declared.zipIdx n) ↔
      (g.declared ++ b.declared).Nodup ∧ Grammar.Distinct b.scopes := by
  rw [Body.Distinct, zipIdx_map_fst]

/-- The statements show a body. Every use in them is linked to what it refers to, and only
what is visible is used. -/
structure Placed (T : Table) (around : Enclosing) (scope : Declarations) (n : Nat) (b : Body)
    (xs : List Stmt) : Prop where
  depicts : b.Depicts T n xs
  linked : Linked (stmtsUses xs) (b.sites around scope n)
  inScope : ∀ vs, Covers (scope :: around) vs → StmtsInScope vs xs

end Body

open Body

namespace Binds

variable {around : Enclosing} {scope : Declarations} {n : Nat}

/-- Statements in an open scope, by induction on the body. -/
theorem body (b : Body) :
    Binds (scope :: around) ((scope ++ b.adds n) :: around) n (n + b.count)
      (b.sites around scope n) (b.Distinct scope) b.resolve
      fun T xs => b.Placed T around scope n xs := by
  induction b generalizing around scope n with
  | done =>
    intro s hs
    rw [adds, append_nil]
    refine ⟨.refl _, bound_nil, ⟨?_, distinct_nil⟩, hs, fun _ _ => ⟨.done, .nil, fun _ _ => trivial⟩⟩
    rw [declared, append_nil]
    exact hs.nodup scope mem_cons_self
  | plain s rest ih =>
    rw [adds, ← append_assoc]
    refine congr (bind (plain s) fun x => map ih ?_) rfl (distinct_plain s rest)
      (Nat.add_assoc n _ _)
    rintro T xs hxs ⟨hx, hlink⟩
    refine ⟨.plain hx hxs.depicts, hlink.append hxs.linked, fun vs h => ?_⟩
    refine ⟨hx.inScope hlink h, hxs.inScope _ ?_⟩
    rw [hx.reveals]
    exact h.extend _
  | branch keyword g braces yes rest ihYes ihRest =>
    have hyes := block braces (@ihYes (scope :: around) (g.declared.zipIdx n) (n + g.count))
    have hno : Binds (scope :: around) (scope :: around) (n + g.count + yes.count)
        (n + g.count + yes.count) [] True (Pure.pure none : Scoped (Option Else))
        fun _ z => z = none := pure fun _ => rfl
    refine congr (bind (branch keyword g hyes hno) fun x => map ihRest ?_)
      (by simp [sites]) ?_ (by simp only [Body.count]; omega)
    · rintro T xs hxs ⟨g', _, _, rfl, ⟨hg, hlink⟩, ⟨ys, last, rfl, hys⟩, rfl⟩
      refine ⟨.branch hg hys.depicts hxs.depicts, ?_, fun vs h => ⟨?_, hxs.inScope vs h⟩⟩
      · rw [stmtsUses_if]
        exact hlink.append (hys.linked.append hxs.linked)
      · unfold Stmt.InScope
        exact ⟨h.visible_guard hlink, hys.inScope _ (hg.covers h), trivial⟩
    · rw [distinct_guarded]
      simp only [Body.Distinct, declared, scopes, distinct_cons, distinct_append, and_true]
      rw [and_left_comm, and_assoc]
  | branchElse keyword g braces yes otherwise braces' no rest ihYes ihNo ihRest =>
    have hyes := block braces (@ihYes (scope :: around) (g.declared.zipIdx n) (n + g.count))
    have hno : Binds (scope :: around) (scope :: around) (n + g.count + yes.count)
        (n + g.count + yes.count + no.count)
        (no.sites (scope :: around) [] (n + g.count + yes.count)) (no.Distinct [])
        (resolveElse otherwise (braces'.block no.resolve)) fun T z =>
          ∃ zs last, z = some ⟨otherwise.1.pos, braces'.around zs last⟩ ∧
            no.Placed T (scope :: around) [] (n + g.count + yes.count) zs := by
      refine after_quiet (enter _ _) fun _ => map (block braces' ihNo) ?_
      rintro T _ ⟨zs, last, rfl, hzs⟩ -
      exact ⟨zs, last, rfl, hzs⟩
    refine congr (bind (branch keyword g hyes hno) fun x => map ihRest ?_)
      (by simp [sites]) ?_ (by simp only [Body.count]; omega)
    · rintro T xs hxs ⟨g', _, _, rfl, ⟨hg, hlink⟩, ⟨ys, last, rfl, hys⟩, zs, last', rfl, hzs⟩
      refine ⟨.branchElse hg hys.depicts hzs.depicts hxs.depicts, ?_,
        fun vs h => ⟨?_, hxs.inScope vs h⟩⟩
      · rw [stmtsUses_ifElse]
        exact hlink.append (hys.linked.append (hzs.linked.append hxs.linked))
      · unfold Stmt.InScope
        exact ⟨h.visible_guard hlink, hys.inScope _ (hg.covers h), hzs.inScope vs (h.inside [])⟩
    · rw [distinct_guarded]
      simp only [Body.Distinct, declared, scopes, distinct_cons, distinct_append,
        map_nil, nil_append]
      rw [and_left_comm]
      simp only [and_assoc]
  | loop keyword g braces body rest ihBody ihRest =>
    have hbody := block braces (@ihBody (scope :: around) (g.declared.zipIdx n) (n + g.count))
    have hloop : Binds (scope :: around) (scope :: around) n (n + g.count + body.count)
        (g.sites (scope :: around) ++
          body.sites (scope :: around) (g.declared.zipIdx n) (n + g.count))
        (body.Distinct (g.declared.zipIdx n))
        (resolveLoop keyword g (braces.block body.resolve)) fun T x =>
          ∃ g' ys last, x = .while keyword.1.pos g' (braces.around ys last) ∧
            (g.Depicts T n g' ∧ Linked g'.uses (g.sites (scope :: around))) ∧
            body.Placed T (scope :: around) (g.declared.zipIdx n) (n + g.count) ys := by
      refine congr (bind (guard g _ _) fun g' => map hbody ?_) rfl (Iff.of_eq (true_and _)) rfl
      rintro T _ ⟨ys, last, rfl, hys⟩ hg
      exact ⟨g', ys, last, rfl, hg, hys⟩
    refine congr (bind hloop fun x => map ihRest ?_)
      (by simp [sites]) ?_ (by simp only [Body.count]; omega)
    · rintro T xs hxs ⟨g', ys, last, rfl, ⟨hg, hlink⟩, hys⟩
      refine ⟨.loop hg hys.depicts hxs.depicts, ?_, fun vs h => ⟨⟨?_, ?_⟩, hxs.inScope vs h⟩⟩
      · rw [stmtsUses_while]
        exact hlink.append (hys.linked.append hxs.linked)
      · exact h.visible_guard hlink
      · exact hys.inScope _ (hg.covers h)
    · rw [distinct_guarded]
      simp only [Body.Distinct, declared, scopes, distinct_cons, distinct_append]
      rw [and_left_comm, and_assoc]

theorem done {α : Type} {a : α} {Q : Table → α → Prop} (h : ∀ T, Q T a) :
    Binds (scope :: around) (scope :: around) n n [] (scope.map Prod.fst ++ []).Nodup
      (Pure.pure a : Scoped α) Q := by
  intro s hs
  rw [append_nil]
  exact ⟨.refl _, bound_nil, hs.nodup scope mem_cons_self, hs, fun T _ => h T⟩

theorem parameters (ps : Listed Parameter) :
    Binds (scope :: around)
      ((scope ++ (ps.toList.map fun p => p.name.1.literal).zipIdx n) :: around) n
      (n + ps.toList.length) []
      (scope.map Prod.fst ++ ps.toList.map fun p => p.name.1.literal).Nodup
      (resolveParameters ps) fun T rs => ParametersDepict T n ps rs := by
  have parameter (p : Parameter) (scope : Declarations) (n : Nat) :
      Binds (scope :: around) ((scope ++ [p.name.1.literal].zipIdx n) :: around) n (n + 1) []
        (∀ name ∈ [p.name.1.literal], name ∉ scope.map Prod.fst) p.resolve
        fun T r => r = n ∧ p.Declares T n := by
    refine congr (bind (declare p.name _ _ _) fun r => map (modify r fun v => ?_) fun _ _ _ h => h)
      rfl ?_ rfl
    · exact { Var.Alike.refl v with }
    · simp
  induction ps generalizing scope n with
  | nil =>
    rw [Listed.toList, map_nil, zipIdx_nil, append_nil]
    exact done fun _ => .nil
  | last p =>
    refine congr (bind (parameter p scope n) fun r => done ?_) rfl ?_ rfl
    · rintro T ⟨rfl, hp⟩
      exact .last hp
    · exact nodup_extended [p.name.1.literal] []
  | cons p comma rest ih =>
    rw [Listed.toList, map_cons, zipIdx_cons, append_cons scope]
    refine congr (bind (parameter p scope n) fun r => map ih ?_) rfl ?_
      (by simp only [length_cons]; omega)
    · rintro T rs hrs ⟨rfl, hp⟩
      exact .cons hp hrs
    · exact nodup_extended [p.name.1.literal] _

theorem function (f : Function) :
    Binds [] [] n (n + f.count) (f.sites n) (Distinct f.scopes) f.resolve fun T x =>
      f.Depicts T n x ∧ Linked (stmtsUses x.body.stmts) (f.sites n) ∧
        StmtsInScope (x.params ++ [discard]) x.body.stmts := by
  have hbody := block f.braces
    (@body [] (f.parameters.zipIdx n) (n + f.params.toList.length) f.body)
  refine congr (after_quiet (enter _ _) fun _ => bind (parameters f.params) fun params =>
    map hbody ?_) rfl ?_ (Nat.add_assoc n _ _)
  · rintro T _ ⟨xs, last, rfl, hxs⟩ hparams -
    refine ⟨.mk hparams hxs.depicts, hxs.linked, ?_⟩
    have hnames : (f.parameters.zipIdx n).map Prod.snd = params := by
      rw [zipIdx_map_snd, hparams.eq_range, Function.parameters, length_map]
    exact hxs.inScope _ (hnames ▸ covers_nil.inside (f.parameters.zipIdx n))
  · rw [Function.scopes, distinct_cons, Body.Distinct, zipIdx_map_fst]
    exact ⟨.right, fun h => ⟨(nodup_append.mp h.1).1, h⟩⟩

/-- Each function has a scope of its own. -/
theorem functions (fs : List Function) :
    Binds [] [] n (n + countAll fs) (sitesOf n fs) (Distinct (fs.flatMap Function.scopes))
      (resolveFunctions fs) fun T xs => FunctionsDepict T n fs xs ∧
        Linked (xs.flatMap fun x => stmtsUses x.body.stmts) (sitesOf n fs) ∧
        ∀ x ∈ xs, StmtsInScope (x.params ++ [discard]) x.body.stmts := by
  induction fs generalizing n with
  | nil =>
    exact congr (pure fun _ => ⟨.nil, .nil, fun _ h => nomatch h⟩) rfl
      (iff_of_true trivial distinct_nil) rfl
  | cons f rest ih =>
    refine congr (bind (function f) fun x => map ih ?_) rfl distinct_append.symm (Nat.add_assoc n _ _)
    rintro T xs ⟨hxs, hlink', hins'⟩ ⟨hx, hlink, hins⟩
    exact ⟨.cons hx hxs, hlink.append hlink', forall_mem_cons.mpr ⟨hins, hins'⟩⟩

end Binds

theorem Program.binds (p : Program) :
    Binds [] [] 1 (1 + countAll p.functions) p.sites (Distinct p.scopes) p.resolve fun T x =>
      p.Depicts T x ∧ Linked x.uses p.sites ∧
        ∀ fn ∈ x.functions, StmtsInScope (fn.params ++ [discard]) fn.body.stmts :=
  Binds.map (.functions p.functions) fun _ _ h => ⟨.mk h.1, h.2⟩

end Grammar

end Ifj24
