import Mathlib.Data.List.Nodup
import Ifj24.Proofs.Environments
import Ifj24.Proofs.Headers

/-!
The books of a symbol table agree. A variable is recorded three times: in the log of the table,
in the list of its scope and in a bucket of the scope's index; and its number comes from a
counter. Whatever is done to a table, these records hold the same variables, each once, and an
operation that is refused changes none of them.
-/

open List

namespace Ifj24

def Scope.face (s : Scope) : Scope := { s with index := .empty }

def Scope.plus (s : Scope) (rs : List VarRef) : Scope := { s with vars := s.vars ++ rs }

def Table.named (t : Table) (vars : List VarRef) : List (Bytes × VarRef) :=
  vars.map fun r => ((t.var r).name, r)

/-- The list and the buckets of a scope hold the same variables, each once and under a name of
its own, and these are variables of the scope. A bucket has those with its hash. -/
structure Scope.Booked (t : Table) (s : Scope) : Prop where
  names : ((t.named s.vars).map Prod.fst).Nodup
  own : ∀ r ∈ s.vars, r < t.store.size ∧ (t.var r).scope = s.number
  buckets : ∀ h, s.index.bucket h = (t.named s.vars).filter fun e => t.hash e.1 = h

namespace Scope.Booked

variable {t : Table} {s : Scope}

theorem once (h : s.Booked t) : s.vars.Nodup := List.Nodup.of_map _ (.of_map _ h.names)

theorem opened (t : Table) (kind : ScopeKind) (comment : Bytes) (number : Nat) :
    (Scope.opened kind comment number).Booked t where
  names := nodup_nil
  own _ hr := nomatch hr
  buckets _ := rfl

theorem later (h : s.Booked t) (hlater : t.Later u) : s.Booked u := by
  have hnamed : u.named s.vars = t.named s.vars := map_congr_left fun r hr =>
    congrArg (·, r) (hlater.alike r (h.own r hr).1).name
  refine ⟨hnamed ▸ h.names, fun r hr => ?_, fun k => ?_⟩
  · obtain ⟨hlt, hscope⟩ := h.own r hr
    exact ⟨Nat.lt_of_lt_of_le hlt hlater.size, (hlater.alike r hlt).scope.trans hscope⟩
  · rw [h.buckets, hnamed, hlater.hash]

theorem not_mem (h : s.Booked t) (hnone : s.lookup? t.hash name = none) :
    name ∉ (t.named s.vars).map Prod.fst := by
  intro hmem
  obtain ⟨e, he, rfl⟩ := mem_map.mp hmem
  rw [lookup?, NameIndex.find?, Option.map_eq_none_iff, h.buckets] at hnone
  refine find?_eq_none.mp hnone e ?_ (beq_self_eq_true _)
  exact mem_filter.mpr ⟨he, decide_eq_true rfl⟩

theorem mem_vars (h : s.Booked t) (hr : s.lookup? t.hash name = some r) : r ∈ s.vars := by
  obtain ⟨e, he, rfl⟩ := Option.map_eq_some_iff.mp hr
  have hmem := mem_of_find?_eq_some he
  rw [h.buckets] at hmem
  obtain ⟨q, hq, rfl⟩ := mem_map.mp (mem_of_mem_filter hmem)
  exact hq

theorem insert (h : s.Booked t) (hr : r < t.store.size)
    (hscope : (t.var r).scope = s.number) (hnone : s.lookup? t.hash (t.var r).name = none) :
    (s.insert t.hash (t.var r).name r).Booked t := by
  have hnamed : t.named (s.vars ++ [r]) = t.named s.vars ++ [((t.var r).name, r)] :=
    map_append
  refine ⟨?_, forall_mem_append.mpr ⟨h.own, ?_⟩, fun k => ?_⟩
  · rw [Scope.insert, hnamed, map_append]
    refine nodup_append.mpr ⟨h.names, nodup_singleton _, ?_⟩
    rintro name hname other hother rfl
    obtain rfl := mem_singleton.mp hother
    exact h.not_mem hnone hname
  · exact forall_mem_singleton.mpr ⟨hr, hscope⟩
  · simp only [Scope.insert, NameIndex.insert, NameIndex.bucket_addTo, hnamed, filter_append,
      h.buckets, filter_cons, filter_nil, decide_eq_true_eq, @eq_comm _ k]
    split
    · rename_i hk
      rw [hk]
    · exact (append_nil _).symm

end Scope.Booked

namespace Table

variable {t : Table} {closed : List Scope}

/-- The books of a table and of all its scopes, some of which are closed, agree. A number is the
number of one scope. -/
structure Booked (t : Table) (closed : List Scope) : Prop where
  consistent : t.Consistent
  attached : t.Attached
  global : t.global = (fresh t.hash t.strict).global
  scopes : ∀ s ∈ closed ++ (t.inner ++ [t.global]), s.Booked t
  numbers : ((closed ++ (t.inner ++ [t.global])).map Scope.number).Perm (List.range t.nextScope)

namespace Booked

theorem fresh (hash : NameHash) (strict : Bool) : (Table.fresh hash strict).Booked [] where
  consistent := fresh_consistent hash strict
  attached := .fresh hash strict
  global := rfl
  scopes s hs := by
    obtain rfl := mem_singleton.mp hs
    exact (Scope.Booked.opened (Table.fresh hash strict) .global "global" 0).insert
      (Nat.lt_succ_self 0) rfl rfl
  numbers := .refl _

section

variable (h : t.Booked closed)

include h

theorem modify (r : VarRef) (hf : ∀ v : Var, v.Alike (f v)) : (t.modify r f).Booked closed :=
  ⟨h.consistent.modify r hf, h.attached.of_path rfl rfl rfl, h.global, fun s hs => (h.scopes s hs).later (later_modify t r hf),
    h.numbers⟩

theorem withFuncs (funcs : Registry) : { t with funcs }.Booked closed :=
  ⟨h.consistent.withFuncs funcs, h.attached.of_path rfl rfl rfl, h.global, fun s hs => { h.scopes s hs with }, h.numbers⟩

theorem enter (kind : ScopeKind) (comment : Bytes) : (t.enter kind comment).Booked closed where
  consistent := h.consistent.enter kind comment
  attached := h.attached.enter kind comment
  global := h.global
  scopes s hs := by
    have hs' : s = Scope.opened kind comment t.nextScope ∨
        s ∈ closed ++ (t.inner ++ [t.global]) := by
      simpa [Table.enter, or_left_comm] using hs
    rcases hs' with rfl | hs'
    · exact .opened _ _ _ _
    · exact { h.scopes s hs' with }
  numbers := by
    change ((closed ++ _ :: (t.inner ++ [t.global])).map Scope.number).Perm
      (List.range (t.nextScope + 1))
    rw [range_succ]
    refine (perm_middle.map _).trans ?_
    exact (List.Perm.cons _ h.numbers).trans (perm_append_singleton _ _).symm

theorem exit (hinner : t.inner = scope :: outer) :
    t.exit.table.Booked (closed ++ [t.exit.scope]) := by
  have hsame : closed ++ [scope] ++ (outer ++ [t.global]) = closed ++ (t.inner ++ [t.global]) := by
    rw [hinner, append_assoc]
    rfl
  have hcons := h.consistent.exit hinner
  have hattached := h.attached.exit
  rw [exit_eq hinner] at *
  exact ⟨hcons, hattached, h.global, fun s hs => { h.scopes s (hsame ▸ hs) with }, hsame ▸ h.numbers⟩

theorem perm (hperm : closed.Perm closed') : t.Booked closed' := by
  have hall := hperm.append_right (t.inner ++ [t.global])
  exact ⟨h.consistent, h.attached, h.global, fun s hs => h.scopes s (hall.mem_iff.mpr hs),
    (hall.symm.map _).trans h.numbers⟩

theorem declare {name : Bytes} {type : DataType} {mutable_ : Bool}
    {nullable : Nullability} {pos : Pos} {r : VarRef}
    (hdeclare : t.declare name type mutable_ nullable pos = .ok r u) : u.Booked closed := by
  have hlater := later_declare hdeclare
  obtain ⟨scope, outer, hinner, hnone, rfl, hu⟩ := declare_eq_ok hdeclare
  have hvar : (u.var t.store.size).name = name ∧ (u.var t.store.size).scope = scope.number := by
    rw [hu]
    simp [var]
  have hsize : t.store.size < u.store.size := by
    rw [hu]
    simp
  have hnew : (scope.insert t.hash name t.store.size).Booked u := by
    have hold : scope.Booked u := (h.scopes scope (by simp [hinner])).later hlater
    rw [← hvar.1, ← hlater.hash] at hnone ⊢
    exact hold.insert hsize hvar.2 hnone
  have hinner' : u.inner = scope.insert t.hash name t.store.size :: outer := by rw [hu]
  have hglobal : u.global = t.global := by rw [hu]
  have hold := h.scopes
  have hnumbers := h.numbers
  rw [hinner] at hold hnumbers
  refine ⟨h.consistent.declare hdeclare, h.attached.declare hdeclare, ?_, fun s hs => ?_, ?_⟩
  · rw [hglobal, h.global, hlater.hash, hlater.strict]
  · rw [hinner', hglobal] at hs
    rcases mem_append.mp hs with hs | hs
    · exact (hold s (mem_append_left _ hs)).later hlater
    · rcases mem_cons.mp hs with rfl | hs
      · exact hnew
      · exact (hold s (mem_append_right _ (mem_cons_of_mem _ hs))).later hlater
  · have hnext : u.nextScope = t.nextScope := by rw [hu]
    rw [hinner', hglobal, hnext]
    simpa [Scope.insert] using hnumbers

end

end Booked

def Answer.ref? : Answer → Option VarRef
  | .declared r => some r
  | _ => none

def closes (t : Table) : Op → List Scope
  | .exit => [t.exit.scope]
  | _ => []

/-- The scopes that a sequence of operations closes, the last one first. -/
def closedBy (t : Table) : List Op → List Scope
  | [] => []
  | op :: ops => (t.perform op).2.closedBy ops ++ t.closes op

/-- After an operation the books agree, and a variable that it hands out is new. -/
theorem Booked.perform (h : t.Booked closed) (op : Op) (hop : op = .exit → t.inner ≠ []) :
    (t.perform op).2.Booked (t.closes op ++ closed) ∧
      List.range t.store.size ++ (t.perform op).1.ref?.toList =
        List.range (t.perform op).2.store.size := by
  have hnone : List.range t.store.size ++ [] = List.range t.store.size := append_nil _
  cases op with
  | enter kind comment => exact ⟨h.enter kind comment, hnone⟩
  | exit =>
    obtain ⟨scope, outer, hinner⟩ := exists_cons_of_ne_nil (hop rfl)
    have hstore : t.exit.table.store = t.store := by rw [exit_eq hinner]; rfl
    exact ⟨(h.exit hinner).perm (perm_append_singleton _ _),
      hnone.trans (congrArg (List.range ·.size) hstore.symm)⟩
  | declare name type mutable_ nullable pos =>
    simp only [Table.perform]
    cases hdeclare : t.declare name type mutable_ nullable pos with
    | error d u =>
      obtain rfl := eq_of_declare_error hdeclare
      exact ⟨h, hnone⟩
    | ok r u =>
      obtain ⟨rfl, hsize, -⟩ := var_declare hdeclare
      exact ⟨h.declare hdeclare, by rw [hsize]; exact range_succ.symm⟩
  | find name =>
    simp only [Table.perform, find?]
    cases t.resolve? name with
    | none => exact ⟨h, hnone⟩
    | some pair =>
      exact ⟨h.modify pair.1 fun v => { Var.Alike.refl v with },
        hnone.trans (congrArg List.range (size_modify t pair.1 _).symm)⟩
  | addFunction f =>
    simp only [Table.perform]
    cases hadd : t.addFunction f with
    | error d u =>
      obtain ⟨-, rfl⟩ := addFunction_eq_error hadd
      exact ⟨h, hnone⟩
    | ok _ u =>
      rw [(addFunction_eq_ok hadd).1]
      exact ⟨h.withFuncs _, hnone⟩
  | lookup | lookupFunction => exact ⟨h, hnone⟩

theorem Booked.run (h : t.Booked closed) (hnested : nested t.environments.inner.length ops = true) :
    (t.run ops).2.Booked (t.closedBy ops ++ closed) ∧
      List.range t.store.size ++ (t.run ops).1.filterMap Answer.ref? =
        List.range (t.run ops).2.store.size := by
  induction ops generalizing t closed with
  | nil => exact ⟨h, append_nil _⟩
  | cons op ops ih =>
    obtain ⟨hop, hrest⟩ := nested_step hnested
    obtain ⟨hnow, hhanded⟩ := h.perform op hop
    obtain ⟨hlater, hrange⟩ := ih hnow hrest
    rw [closedBy, append_assoc]
    refine ⟨hlater, ?_⟩
    rw [← hhanded, append_assoc] at hrange
    refine .trans (congrArg _ ?_) hrange
    change List.filterMap _ (_ :: _) = _
    rw [filterMap_cons]
    cases (t.perform op).1.ref? <;> rfl

theorem Consistent.vars_eq (h : t.Consistent) :
    t.vars = (List.range t.store.size).map t.var := congrArg (List.map _) h.log

theorem Booked.discard_name (h : t.Booked closed) : (t.var discard).name = "_" := by
  have hbucket := (h.scopes t.global (by simp)).buckets (t.hash "_")
  rw [h.global] at hbucket
  have hentry : (("_" : Bytes), discard) ∈
      (Table.fresh t.hash t.strict).global.index.bucket (t.hash "_") := by
    simp [Table.fresh, Scope.insert, NameIndex.insert, NameIndex.bucket_addTo, Var.discard]
  rw [hbucket] at hentry
  exact (Prod.mk.inj (mem_singleton.mp (mem_of_mem_filter hentry))).1.symm

theorem perform_refused (h : (t.perform op).1 = .refused kind) :
    (t.perform op).2 = t := by
  cases op with
  | declare name type mutable_ nullable pos =>
    simp only [perform] at h ⊢
    split at h
    · cases h
    · rename_i hdeclare
      exact eq_of_declare_error hdeclare
  | addFunction f =>
    simp only [perform] at h ⊢
    split at h
    · cases h
    · rename_i hadd
      exact (addFunction_eq_error hadd).2
  | find name =>
    simp only [perform] at h
    split at h <;> cases h
  | enter | exit | lookup | lookupFunction => cases h

/-- Whatever is done to a fresh table, the variables handed out are numbered from one on without
a gap, and while the numbers last the entries of the log have the numbers of their places. All
scopes that were ever open have their variables in order and in buckets alike, and no two of them
share a number. An operation that is refused might as well not have been there, and the parts of
the parser that declare keep their state then. -/
theorem run_keeps_books (hash : NameHash) (strict : Bool) (ops : List Op)
    (h : nested 0 ops = true) :
    let t := fresh hash strict
    let u := (t.run ops).2
    let handed := (t.run ops).1.filterMap Answer.ref?
    let scopes := t.closedBy ops ++ (u.inner ++ [u.global])
    discard :: handed = List.range u.vars.length ∧
    (handed.length < UInt32.size →
      ∀ (i : Nat) (v : Var), u.vars[i]? = some v → v.id.toNat = i) ∧
    u.vars.head?.map Var.name = some "_" ∧
    (∀ s ∈ scopes, s.vars.Nodup ∧ s.Booked u) ∧
    (scopes.map Scope.number).Perm (List.range u.nextScope) ∧
    (∀ before op after kind, ops = before ++ op :: after →
      ((t.run before).2.perform op).1 = .refused kind →
      ((t.run before).2.perform op).2 = (t.run before).2 ∧ (t.run (before ++ after)).2 = u) ∧
    (∀ token type mutable_ nullable s d s',
      Tree.Parser.declare token type mutable_ nullable s = .error d s' → s' = s) ∧
    ∀ f t d t', Table.addFunction f t = .error d t' → t' = t := by
  intro t u handed scopes
  have hnested : nested t.environments.inner.length ops = true := h
  obtain ⟨hbooked, hrange⟩ := (Booked.fresh hash strict).run hnested
  rw [append_nil] at hbooked
  have hvars := hbooked.consistent.vars_eq
  have hsize : u.vars.length = u.store.size := by rw [hvars, length_map, length_range]
  have hhanded : discard :: handed = List.range u.vars.length := by
    rw [hsize]
    exact hrange
  refine ⟨hhanded, fun hfew i v hv => ?_, ?_, fun s hs => ?_, hbooked.numbers, ?_, ?_, ?_⟩
  · have hlt : i < u.store.size := by
      rw [← hsize]
      exact (List.getElem?_eq_some_iff.mp hv).1
    have hcount := congrArg List.length hhanded
    rw [length_cons, length_range, hsize] at hcount
    rw [hvars, getElem?_map, getElem?_range hlt] at hv
    obtain rfl := Option.some.inj hv
    rw [hbooked.consistent.ids i hlt]
    exact UInt32.toNat_ofNat_of_lt (by omega)
  · have hpos : u.store.size ≠ 0 := by
      rw [← hsize]
      intro hzero
      rw [hzero] at hhanded
      cases hhanded
    obtain ⟨n, hn⟩ := Nat.exists_eq_succ_of_ne_zero hpos
    rw [hvars, hn, range_succ_eq_map]
    exact congrArg some hbooked.discard_name
  · exact ⟨(hbooked.scopes s hs).once, hbooked.scopes s hs⟩
  · rintro before op after kind rfl hrefused
    have hsame := perform_refused hrefused
    refine ⟨hsame, ?_⟩
    change _ = (t.run (before ++ op :: after)).2
    rw [run_append, run_append]
    change _ = (((t.run before).2.perform op).2.run after).2
    rw [hsame]
  · intro token type mutable_ nullable s d s' herror
    rw [Tree.Parser.declare, bind_apply, get_apply] at herror
    cases hdeclare : s.table.declare token.literal type mutable_ nullable token.pos with
    | error e u =>
      obtain rfl := eq_of_declare_error hdeclare
      simp only [hdeclare] at herror
      cases herror
      rfl
    | ok r u =>
      simp only [hdeclare] at herror
      cases herror
  · exact fun f t d t' herror => (addFunction_eq_error herror).2

/-- All names in one bucket: three variables are handed out, one name is refused, and both scopes
are closed. -/
theorem shadowing_keeps_books :
    nested 0 shadowing = true ∧
    let t := fresh (fun _ => 0) true
    let u := (t.run shadowing).2
    (t.run shadowing).1.filterMap Answer.ref? = [1, 2, 3] ∧
    (∀ (i : Nat) (v : Var), u.vars[i]? = some v → v.id.toNat = i) ∧
    (t.closedBy shadowing).map (fun s => (s.number, s.vars)) = [(1, [1, 2]), (2, [3])] ∧
    ∀ s ∈ t.closedBy shadowing, s.Booked u := by
  have hnested : nested 0 shadowing = true := by decide
  obtain ⟨-, hids, -, hscopes, -⟩ := run_keeps_books (fun _ => 0) true shadowing hnested
  exact ⟨hnested, by decide, hids (by decide), by decide,
    fun s hs => (hscopes s (mem_append_left _ hs)).2⟩

end Table

end Ifj24
