import Ifj24.Symbols.Table

/-!
What the operations of a symbol table change. Names keep what they mean apart from
the one that is declared, whatever the hash; variables once in the store stay there
with the same name, type and place, and only the record of their use changes.
-/

open List

namespace Ifj24

namespace NameIndex

variable {α : Type} {hash : NameHash}

theorem bucket_addTo (h k : UInt64) (entry : Bytes × α)
    (buckets : List (UInt64 × List (Bytes × α))) :
    bucket ⟨addTo h entry buckets⟩ k =
      if k = h then bucket ⟨buckets⟩ h ++ [entry] else bucket ⟨buckets⟩ k := by
  induction buckets with
  | nil =>
    by_cases hk : k = h
    · subst hk
      simp [bucket, addTo]
    · have hne : (k == h) = false := by simpa using hk
      simp [bucket, addTo, hk, lookup_cons, hne]
  | cons b rest ih =>
    obtain ⟨key, entries⟩ := b
    by_cases hkey : h = key
    · subst hkey
      by_cases hk : k = h
      · subst hk
        simp [bucket, addTo]
      · have hne : (k == h) = false := by simpa using hk
        simp [bucket, addTo, hk, lookup_cons, hne]
    · have hne : (h == key) = false := by simpa using hkey
      have hstep : addTo h entry ((key, entries) :: rest) = (key, entries) :: addTo h entry rest := by
        simp [addTo, hne]
      simp only [bucket] at ih ⊢
      rw [hstep, lookup_cons, lookup_cons, lookup_cons]
      by_cases hk : k = key
      · subst hk
        have hne' : ¬ k = h := fun h' => hkey h'.symm
        simp [hne']
      · have hne' : (k == key) = false := by simpa using hk
        simp only [hne', hne]
        exact ih

theorem find?_insert_self {ix : NameIndex α} {name : Bytes} (a : α)
    (h : ix.find? hash name = none) : (ix.insert hash name a).find? hash name = some a := by
  have hnone : ((ix.bucket (hash name)).find? fun e => e.1 == name) = none := by
    simpa [find?] using h
  simp only [find?, insert, bucket_addTo, if_true]
  rw [find?_append, hnone]
  simp

theorem find?_insert_of_ne {ix : NameIndex α} {name other : Bytes} (a : α) (h : other ≠ name) :
    (ix.insert hash name a).find? hash other = ix.find? hash other := by
  simp only [find?, insert, bucket_addTo]
  by_cases hhash : hash other = hash name
  · rw [if_pos hhash, find?_append, hhash]
    have hne : (name == other) = false := by simpa using Ne.symm h
    simp [hne]
  · rw [if_neg hhash]

theorem find?_insert (ix : NameIndex α) (name other : Bytes) (a : α) :
    (ix.insert hash name a).find? hash other =
      (ix.find? hash other).or (if name == other then some a else none) := by
  by_cases h : other = name
  · subst h
    simp only [find?, insert, bucket_addTo, if_true, find?_append, beq_self_eq_true]
    cases (ix.bucket (hash other)).find? fun e => e.1 == other <;> simp
  · have hne : (name == other) = false := by simpa using Ne.symm h
    rw [find?_insert_of_ne a h, hne]
    simp

end NameIndex

open NameIndex

namespace Registry

/-- A name means the first function of that name, whatever the hash. -/
def Faithful (hash : NameHash) (r : Registry) : Prop :=
  ∀ name, r.lookup? hash name = r.order.find? (·.name == name)

theorem Faithful.insert {hash : NameHash} {r : Registry} (h : r.Faithful hash) (f : FuncDef) :
    Faithful hash ⟨r.order ++ [f], r.index.insert hash f.name f⟩ := by
  intro name
  have hold : r.index.find? hash name = r.order.find? (·.name == name) := h name
  rw [lookup?, find?_insert, hold, find?_append, find?_singleton]

theorem faithful_ofList (hash : NameHash) (fs : List FuncDef) : (ofList hash fs).Faithful hash := by
  have hfold (fs : List FuncDef) (r : Registry) (hr : r.Faithful hash) :
      (fs.foldl (fun r f => ⟨r.order ++ [f], r.index.insert hash f.name f⟩) r).Faithful hash := by
    induction fs generalizing r with
    | nil => exact hr
    | cons f rest ih => exact ih _ (hr.insert f)
  exact hfold fs empty fun _ => rfl

end Registry

namespace Scope

variable {hash : NameHash} {s : Scope} {name other : Bytes}

theorem lookup?_insert_self (r : VarRef) (h : s.lookup? hash name = none) :
    (s.insert hash name r).lookup? hash name = some r :=
  find?_insert_self r h

theorem lookup?_insert_of_ne (r : VarRef) (h : other ≠ name) :
    (s.insert hash name r).lookup? hash other = s.lookup? hash other :=
  find?_insert_of_ne r h

theorem lookup?_opened (kind : ScopeKind) (comment : Bytes) (number : Nat) :
    (Scope.opened kind comment number).lookup? hash name = none := rfl

end Scope

structure Var.Alike (v w : Var) : Prop where
  id : w.id = v.id
  name : w.name = v.name
  type : w.type = v.type
  mutable_ : w.mutable_ = v.mutable_
  nullable : w.nullable = v.nullable
  pos : w.pos = v.pos
  scope : w.scope = v.scope

namespace Var.Alike

theorem refl (v : Var) : v.Alike v := ⟨rfl, rfl, rfl, rfl, rfl, rfl, rfl⟩

theorem trans {u : Var} (h : u.Alike v) (h' : v.Alike w) : u.Alike w :=
  ⟨h'.id.trans h.id, h'.name.trans h.name, h'.type.trans h.type, h'.mutable_.trans h.mutable_,
    h'.nullable.trans h.nullable, h'.pos.trans h.pos, h'.scope.trans h.scope⟩

end Var.Alike

namespace Table

/-- The table `u` can come about from `t` by declarations and uses of variables. -/
structure Later (t u : Table) : Prop where
  hash : u.hash = t.hash
  funcs : u.funcs = t.funcs
  strict : u.strict = t.strict
  size : t.store.size ≤ u.store.size
  alike : ∀ r < t.store.size, (t.var r).Alike (u.var r)

variable {t u : Table} {r : VarRef} {name : Bytes} {type : DataType} {mutable_ : Bool}
  {nullable : Nullability} {pos : Pos}

namespace Later

theorem refl (t : Table) : t.Later t := ⟨rfl, rfl, rfl, Nat.le_refl _, fun _ _ => .refl _⟩

theorem trans (h : t.Later u) (h' : u.Later v) : t.Later v where
  hash := h'.hash.trans h.hash
  funcs := h'.funcs.trans h.funcs
  strict := h'.strict.trans h.strict
  size := Nat.le_trans h.size h'.size
  alike r hr := (h.alike r hr).trans (h'.alike r (Nat.lt_of_lt_of_le hr h.size))

theorem lookupFunction? (h : t.Later u) (name : Bytes) :
    u.lookupFunction? name = t.lookupFunction? name := by
  simp only [Table.lookupFunction?, h.funcs, h.hash]

end Later

theorem var_modify (t : Table) (r s : VarRef) (f : Var → Var) (hs : s < t.store.size) :
    (t.modify r f).var s = if s = r then f (t.var s) else t.var s := by
  simp only [var, modify, Array.getD_eq_getD_getElem?, Array.getElem?_modify]
  by_cases h : r = s
  · subst h
    simp [hs]
  · simp [h, Ne.symm h]

theorem var_modify_of_ne (t : Table) {s : VarRef} (f : Var → Var) (hs : s ≠ r) :
    (t.modify r f).var s = t.var s := by
  simp [var, modify, Array.getD_eq_getD_getElem?, Array.getElem?_modify, Ne.symm hs]

theorem size_modify (t : Table) (r : VarRef) (f : Var → Var) :
    (t.modify r f).store.size = t.store.size := by
  simp [modify]

theorem later_modify (t : Table) (r : VarRef) (hf : ∀ v : Var, v.Alike (f v)) :
    t.Later (t.modify r f) where
  hash := rfl
  funcs := rfl
  strict := rfl
  size := Nat.le_of_eq (size_modify t r f).symm
  alike s hs := by
    rw [var_modify t r s f hs]
    split
    · exact hf _
    · exact .refl _

theorem var_push (t : Table) (v : Var) (hr : r < t.store.size) :
    (t.store.push v).getD r .discard = t.var r := by
  simp [var, Array.getElem?_push, hr, Nat.ne_of_lt hr]

theorem declare_eq_ok (h : t.declare name type mutable_ nullable pos = .ok r u) :
    ∃ scope outer, t.inner = scope :: outer ∧ scope.lookup? t.hash name = none ∧
      r = t.store.size ∧
      u = { t with
        store := t.store.push
          { id := t.nextId, name, type, mutable_, nullable, accessed := false, modified := false,
            param := false, pos, scope := scope.number }
        log := t.log.push r
        inner := scope.insert t.hash name r :: outer
        nextId := t.nextId + 1 } := by
  unfold declare at h
  split at h
  · cases h
  · rename_i scope outer hinner
    split at h
    · cases h
    · rename_i hnone
      cases h
      exact ⟨scope, outer, hinner, hnone, rfl, rfl⟩

theorem eq_of_declare_error (h : t.declare name type mutable_ nullable pos = .error d u) :
    u = t := by
  unfold declare at h
  split at h
  · cases h
    rfl
  · split at h <;> cases h
    rfl

theorem later_declare (h : t.declare name type mutable_ nullable pos = .ok r u) : t.Later u := by
  obtain ⟨scope, outer, -, -, rfl, rfl⟩ := declare_eq_ok h
  refine ⟨rfl, rfl, rfl, by simp, ?_⟩
  intro r hr
  change (t.var r).Alike ((t.store.push _).getD r .discard)
  rw [var_push t _ hr]
  exact .refl _

theorem var_declare (h : t.declare name type mutable_ nullable pos = .ok r u) :
    r = t.store.size ∧ u.store.size = t.store.size + 1 ∧ ∃ number,
      u.var r =
        { id := t.nextId, name, type, mutable_, nullable, accessed := false, modified := false,
          param := false, pos, scope := number } := by
  obtain ⟨scope, outer, -, -, rfl, rfl⟩ := declare_eq_ok h
  exact ⟨rfl, by simp, scope.number, by simp [var]⟩

theorem exit_eq (h : t.inner = scope :: outer) :
    t.exit = ⟨scope, t.unused? scope, { t with inner := outer }.detach scope⟩ := by
  simp [exit, h]

/-- Variables are numbered and recorded in the order of their declaration, and every name of an
open scope means a variable of that name. -/
structure Consistent (t : Table) : Prop where
  next : t.nextId = UInt32.ofNat t.store.size
  ids : ∀ r < t.store.size, (t.var r).id = UInt32.ofNat r
  log : t.log.toList = List.range t.store.size
  names : ∀ scope ∈ t.inner ++ [t.global], ∀ name r, scope.lookup? t.hash name = some r →
    r < t.store.size ∧ (t.var r).name = name

namespace Consistent

section

variable (h : t.Consistent)

include h

theorem resolve? (hr : t.resolve? name = some (r, scope)) :
    r < t.store.size ∧ (t.var r).name = name := by
  obtain ⟨s, hs, hlook⟩ := exists_of_findSome?_eq_some hr
  cases hfind : s.lookup? t.hash name with
  | none => simp [hfind] at hlook
  | some r' =>
    obtain ⟨rfl, -⟩ : r' = r ∧ s = scope := by simpa [hfind] using hlook
    exact h.names s hs name r' hfind

theorem of_later (hlater : t.Later u) (hsize : u.store.size = t.store.size)
    (hnext : u.nextId = t.nextId) (hlog : u.log = t.log)
    (hscopes : ∀ s ∈ u.inner ++ [u.global], s ∈ t.inner ++ [t.global]) : u.Consistent where
  next := by rw [hnext, hsize, h.next]
  ids r hr := by
    rw [hsize] at hr
    rw [(hlater.alike r hr).id, h.ids r hr]
  log := by rw [hlog, hsize, h.log]
  names scope hscope name r hr := by
    rw [hlater.hash] at hr
    obtain ⟨hlt, hname⟩ := h.names scope (hscopes scope hscope) name r hr
    exact ⟨Nat.lt_of_lt_of_le hlt hlater.size, (hlater.alike r hlt).name.trans hname⟩

theorem withFuncs (funcs : Registry) : { t with funcs }.Consistent :=
  ⟨h.next, h.ids, h.log, h.names⟩

theorem modify (r : VarRef) (hf : ∀ v : Var, v.Alike (f v)) : (t.modify r f).Consistent :=
  h.of_later (later_modify t r hf) (by simp [Table.modify]) rfl rfl fun _ hs => hs

theorem enter (kind : ScopeKind) (comment : Bytes) : (t.enter kind comment).Consistent := by
  refine ⟨h.next, h.ids, h.log, ?_⟩
  intro scope hscope name r hr
  simp only [Table.enter, cons_append, mem_cons] at hscope
  rcases hscope with rfl | hscope
  · rw [Scope.lookup?_opened] at hr
    cases hr
  · exact h.names scope hscope name r hr

theorem exit (hinner : t.inner = scope :: outer) : t.exit.table.Consistent := by
  rw [exit_eq hinner]
  refine ⟨h.next, h.ids, h.log, ?_⟩
  intro s hs
  refine h.names s ?_
  rw [hinner]
  exact mem_cons_of_mem _ hs

theorem declare
    (hdeclare : t.declare name type mutable_ nullable pos = .ok r u) : u.Consistent := by
  have hlater := later_declare hdeclare
  obtain ⟨hr, hsize, number, hvar⟩ := var_declare hdeclare
  obtain ⟨scope, outer, hinner, hnone, -, hu⟩ := declare_eq_ok hdeclare
  refine ⟨?_, ?_, ?_, ?_⟩
  · have hnext : u.nextId = t.nextId + 1 := by rw [hu]
    rw [hnext, hsize, h.next, UInt32.ofNat_add]
    rfl
  · intro q hq
    rw [hsize] at hq
    rcases Nat.lt_succ_iff_lt_or_eq.mp hq with hlt | heq
    · rw [(hlater.alike q hlt).id, h.ids q hlt]
    · rw [heq, ← hr, hvar, h.next, hr]
  · have hlog : u.log = t.log.push r := by rw [hu]
    rw [hlog, hsize, Array.toList_push, h.log, hr, range_succ]
  · have old (s : Scope) (hs : s ∈ t.inner ++ [t.global]) (other : Bytes) (q : VarRef)
        (hq : s.lookup? t.hash other = some q) : q < u.store.size ∧ (u.var q).name = other := by
      obtain ⟨hlt, hname⟩ := h.names s hs other q hq
      exact ⟨Nat.lt_of_lt_of_le hlt hlater.size, (hlater.alike q hlt).name.trans hname⟩
    intro s hs other q hq
    rw [hlater.hash] at hq
    have hs' : s = scope.insert t.hash name r ∨ s ∈ outer ++ [t.global] := by
      rw [hu] at hs
      simpa using hs
    rcases hs' with rfl | hs'
    · by_cases heq : other = name
      · subst heq
        rw [Scope.lookup?_insert_self r hnone] at hq
        cases hq
        rw [hvar, hsize, hr]
        exact ⟨Nat.lt_succ_self _, rfl⟩
      · rw [Scope.lookup?_insert_of_ne r heq] at hq
        exact old scope (by simp [hinner]) other q hq
    · exact old s (by rw [hinner]; exact mem_cons_of_mem _ hs') other q hq

end

end Consistent

theorem fresh_consistent (hash : NameHash) (strict : Bool) : (fresh hash strict).Consistent := by
  refine ⟨rfl, ?_, rfl, ?_⟩
  · intro r hr
    obtain rfl : r = 0 := Nat.lt_one_iff.mp hr
    rfl
  · intro scope hscope name r hr
    simp only [fresh, nil_append, mem_singleton] at hscope
    subst hscope
    change Scope.lookup? hash _ name = some r at hr
    by_cases hname : name = Var.discard.name
    · subst hname
      rw [Scope.lookup?_insert_self _ (Scope.lookup?_opened _ _ _)] at hr
      cases hr
      exact ⟨by simp [fresh, discard], rfl⟩
    · rw [Scope.lookup?_insert_of_ne _ hname, Scope.lookup?_opened] at hr
      cases hr

/-! The tree of the scopes -/

/-- The numbers of the open scopes, the innermost first. -/
def path (t : Table) : List Nat := (t.inner ++ [t.global]).map Scope.number

/-- The scopes of a path that lie directly inside the scope of a number. -/
def insideOf (number : Nat) : List Nat → List Nat
  | child :: parent :: outer =>
    (if parent = number then [child] else []) ++ insideOf number (parent :: outer)
  | _ => []

theorem path_cons (t : Table) : ∃ outer, t.path = t.current.number :: outer := by
  unfold path current
  cases t.inner <;> exact ⟨_, rfl⟩

theorem insideOf_eq_nil (h : n ∉ outer) : insideOf n (m :: outer) = [] := by
  induction outer generalizing m with
  | nil => rfl
  | cons parent outer ih =>
    obtain ⟨hne, hrest⟩ := not_or.mp (mt mem_cons.mpr h)
    rw [insideOf, if_neg (Ne.symm hne), ih hrest]
    rfl

theorem mem_of_mem_insideOf (h : m ∈ insideOf n ns) : m ∈ ns := by
  induction ns with
  | nil => cases h
  | cons child outer ih =>
    cases outer with
    | nil => cases h
    | cons parent outer =>
      rcases mem_append.mp h with h | h
      · split at h
        · exact mem_singleton.mp h ▸ mem_cons_self
        · cases h
      · exact mem_cons_of_mem _ (ih h)

theorem getD_push_nil (xs : Array (List Nat)) (n : Nat) : (xs.push []).getD n [] = xs.getD n [] := by
  rw [Array.getD_eq_getD_getElem?, Array.getD_eq_getD_getElem?, Array.getElem?_push]
  split
  · rename_i hn
    simp [hn]
  · rfl

theorem getD_modify {xs : Array (List Nat)} {f : List Nat → List Nat} (hm : m < xs.size) (n : Nat) :
    (xs.modify m f).getD n [] = if m = n then f (xs.getD n []) else xs.getD n [] := by
  rw [Array.getD_eq_getD_getElem?, Array.getD_eq_getD_getElem?, Array.getElem?_modify]
  split
  · rename_i hn
    simp [← hn, hm]
  · rfl

/-- The tree of the scopes is the path of the open ones: the children of a scope are the open
scopes directly inside it. -/
structure Attached (t : Table) : Prop where
  size : t.children.size = t.nextScope
  below : ∀ n ∈ t.path, n < t.nextScope
  distinct : t.path.Nodup
  children : ∀ n, t.children.getD n [] = insideOf n t.path

namespace Attached

theorem fresh (hash : NameHash) (strict : Bool) : (Table.fresh hash strict).Attached where
  size := rfl
  below := by simp [path, Table.fresh, Scope.insert, Scope.opened]
  distinct := by simp [path, Table.fresh]
  children n := by cases n <;> rfl

section

variable (h : t.Attached)

include h

theorem of_path (hpath : u.path = t.path) (hchildren : u.children = t.children)
    (hnext : u.nextScope = t.nextScope) : u.Attached where
  size := by rw [hchildren, hnext, h.size]
  below := by
    rw [hpath, hnext]
    exact h.below
  distinct := hpath ▸ h.distinct
  children n := by rw [hchildren, hpath, h.children]

/-- A scope that is not open is nobody's child. -/
theorem not_mem_children (hm : m ∉ t.path) (n : Nat) : m ∉ t.children.getD n [] := by
  rw [h.children]
  exact mt mem_of_mem_insideOf hm

/-- The innermost scope has no children. -/
theorem childrenOf_current : t.childrenOf t.current = [] := by
  obtain ⟨outer, houter⟩ := t.path_cons
  have hdistinct := h.distinct
  rw [houter, nodup_cons] at hdistinct
  rw [childrenOf, h.children, houter, insideOf_eq_nil hdistinct.1]

theorem enter (kind : ScopeKind) (comment : Bytes) : (t.enter kind comment).Attached := by
  obtain ⟨outer, houter⟩ := t.path_cons
  have hpath : (t.enter kind comment).path = t.nextScope :: t.path := rfl
  have hcurrent : t.current.number < t.children.size := by
    rw [h.size]
    exact h.below _ (by simp [houter])
  refine ⟨by simp [Table.enter, h.size], ?_, ?_, fun n => ?_⟩
  · rw [hpath]
    exact forall_mem_cons.mpr ⟨Nat.lt_succ_self _, fun n hn => Nat.lt_succ_of_lt (h.below n hn)⟩
  · rw [hpath]
    exact nodup_cons.mpr ⟨fun hmem => Nat.lt_irrefl _ (h.below _ hmem), h.distinct⟩
  · have hdistinct := h.distinct
    rw [houter, nodup_cons] at hdistinct
    rw [hpath, Table.enter, getD_push_nil, getD_modify hcurrent, h.children, houter, insideOf]
    split
    · rename_i hn
      rw [← hn, insideOf_eq_nil hdistinct.1]
      rfl
    · rfl

theorem exit : t.exit.table.Attached := by
  cases hinner : t.inner with
  | nil =>
    have hexit : t.exit.table.path = [t.nextScope] ∧ t.exit.table.nextScope = t.nextScope + 1 ∧
        t.exit.table.children = t.children.push [] := by
      simp [Table.exit, hinner, path, Scope.opened]
    have hpath : t.path = [t.global.number] := by simp [path, hinner]
    obtain ⟨hpath', hnext, hchildren⟩ := hexit
    refine ⟨by simp [hnext, hchildren, h.size], by simp [hpath', hnext], by simp [hpath'],
      fun n => ?_⟩
    rw [hchildren, getD_push_nil, h.children, hpath, hpath']
    rfl
  | cons scope outer =>
    let u : Table := { t with inner := outer }
    have hpath : t.path = scope.number :: u.path := by simp [path, hinner, u]
    obtain ⟨rest, hrest⟩ := u.path_cons
    have hbelow := h.below
    have hdistinct := h.distinct
    rw [hpath, forall_mem_cons] at hbelow
    rw [hpath, nodup_cons] at hdistinct
    have hcurrent : u.current.number < t.children.size := by
      rw [h.size]
      exact hbelow.2 _ (by simp [hrest])
    rw [exit_eq hinner]
    refine ⟨by simp [detach, h.size], hbelow.2, hdistinct.2, fun n => ?_⟩
    change (t.children.modify u.current.number (·.erase scope.number)).getD n [] = insideOf n u.path
    rw [getD_modify hcurrent, h.children, hpath, hrest, insideOf]
    split
    · simp
    · rfl

theorem declare (hdeclare : t.declare name type mutable_ nullable pos = .ok r u) :
    u.Attached := by
  obtain ⟨scope, outer, hinner, -, -, rfl⟩ := declare_eq_ok hdeclare
  refine h.of_path ?_ rfl rfl
  simp [path, hinner, Scope.insert]

end

end Attached

theorem addFunction_eq_ok {f : FuncDef} (h : t.addFunction f = .ok () u) :
    u = { t with funcs := u.funcs } ∧ t.lookupFunction? f.name = none ∧
      u.funcs.order = t.funcs.order ++ [f] ∧
      (t.funcs.Faithful t.hash → u.funcs.Faithful t.hash) ∧
      u.lookupFunction? f.name = some f ∧
      ∀ name, name ≠ f.name → u.lookupFunction? name = t.lookupFunction? name := by
  unfold addFunction Registry.add at h
  cases hnone : t.funcs.lookup? t.hash f.name with
  | some _ =>
    rw [hnone] at h
    cases h
  | none =>
    rw [hnone] at h
    cases h
    refine ⟨rfl, hnone, rfl, fun h => h.insert f, find?_insert_self f hnone, ?_⟩
    intro name hne
    exact find?_insert_of_ne f hne

theorem addFunction_eq_error (h : t.addFunction f = .error d u) :
    d.kind = .redefinition ∧ u = t := by
  unfold addFunction Registry.add at h
  cases hlook : t.funcs.lookup? t.hash f.name with
  | some _ =>
    rw [hlook] at h
    cases h
    exact ⟨rfl, rfl⟩
  | none =>
    rw [hlook] at h
    cases h

end Table

end Ifj24
