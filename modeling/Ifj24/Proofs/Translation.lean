import Ifj24.Proofs.Interpreter
import Ifj24.Proofs.Refinement
import Ifj24.Proofs.Simulation

/-!
Lowering preserves meaning. Checking leaves the names, the signatures and the variables of
functions as parsing has made them, so in the code of an accepted program every function
that is called is found, and the machine does what evaluation says.
-/

open List

namespace Ifj24.Typing

open Ifj24.Tree Code

section

variable {n : Nat}

theorem binding_bare (g : Guard) : (bare g).binding? = g.binding? := by
  cases g <;> rfl

mutual

theorem declared_bare (x : Stmt) : declared (bareStmt x) = declared x := by
  cases x with
  | ifElse pos g yes no =>
    cases no with
    | none => rw [bareStmt, declared, declared, binding_bare, declaredIn_bare yes.stmts]
    | some e =>
      rw [bareStmt, declared, declared, binding_bare, declaredIn_bare yes.stmts,
        declaredIn_bare e.body.stmts]
  | «while» pos g body =>
    rw [bareStmt, declared, declared, binding_bare, declaredIn_bare body.stmts]
  | elseStart e => exact declaredIn_bare e.body.stmts
  | declare | assign | call | «return» | blockEnd => rfl
termination_by structural x

theorem declaredIn_bare (xs : List Stmt) : declaredIn (bareStmts xs) = declaredIn xs := by
  cases xs with
  | nil => rfl
  | cons x rest => rw [bareStmts, declaredIn, declaredIn, declared_bare x, declaredIn_bare rest]
termination_by structural xs

end

theorem frameVars_bare (fn : Function) : frameVars (bare fn) = frameVars fn :=
  congrArg (fn.params ++ ·) (declaredIn_bare fn.body.stmts)

theorem declared_of_guard {d : Grammar.Guard} {g : Guard} (hd : d.Depicts t₀ n g) :
    g.binding?.toList = List.range' n d.count := by
  cases hd <;> rfl

theorem declaredIn_of_body {body : Grammar.Body} {xs : List Stmt} (hbody : body.Depicts t₀ n xs) :
    declaredIn xs = List.range' n body.count := by
  induction hbody with
  | done => rfl
  | @plain n p _ x _ hp _ ih =>
    have hx : declared x = List.range' n p.count := by cases hp <;> rfl
    rw [declaredIn, hx, ih, range'_append_1]
    rfl
  | branch hguard _ _ ihyes ih =>
    rw [declaredIn, declared, declared_of_guard hguard, Grammar.Body.count]
    simp only [Grammar.Braces.around, ihyes, ih, Nat.add_assoc, range'_append_1,
      append_nil]
  | branchElse hguard _ _ _ ihyes ihno ih =>
    rw [declaredIn, declared, declared_of_guard hguard, Grammar.Body.count]
    simp only [Grammar.Braces.around, ihyes, ihno, ih, Nat.add_assoc, range'_append_1]
  | loop hguard _ _ ihbody ih =>
    rw [declaredIn, declared, declared_of_guard hguard, Grammar.Body.count]
    simp only [Grammar.Braces.around, ihbody, ih, Nat.add_assoc, range'_append_1]

structure Shows (n : Nat) (d : Grammar.Function) (fn : Function) : Prop where
  name : fn.name = d.name.1.literal
  definition : fn.definition = d.signature
  params : fn.params = List.range' n d.params.toList.length
  vars : frameVars fn = List.range' n d.count

theorem shows_bare (n : Nat) (d : Grammar.Function) (fn : Function) :
    Shows n d (bare fn) ↔ Shows n d fn :=
  ⟨fun h => ⟨h.name, h.definition, h.params, frameVars_bare fn ▸ h.vars⟩,
    fun h => ⟨h.name, h.definition, h.params, (frameVars_bare fn).trans h.vars⟩⟩

theorem shows_of_depicts (hd : d.Depicts t₀ n fn) :
    Shows n d fn := by
  cases hd with
  | mk hparams hbody =>
    refine ⟨rfl, rfl, hparams.eq_range, ?_⟩
    rw [frameVars, Grammar.Braces.around, declaredIn_of_body hbody, hparams.eq_range,
      range'_append_1]
    rfl

theorem shows_of_functions {fns : List Function} (hds : Grammar.FunctionsDepict t₀ n ds fns) :
    fns.map (·.name) = ds.map (·.name.1.literal) ∧
      ∀ fn ∈ fns, ∃ d ∈ ds, ∃ m, n ≤ m ∧ m + d.count ≤ n + Grammar.countAll ds ∧ Shows m d fn := by
  induction hds with
  | nil => exact ⟨rfl, fun _ hfn => nomatch hfn⟩
  | @cons n d ds fn fns hd _ ih =>
    have hfirst := shows_of_depicts hd
    obtain ⟨hnames, hrest⟩ := ih
    refine ⟨by rw [map_cons, map_cons, hnames, hfirst.name], fun g hg => ?_⟩
    rw [Grammar.countAll]
    rcases mem_cons.mp hg with rfl | hg
    · exact ⟨d, mem_cons_self, n, Nat.le_refl n, by omega, hfirst⟩
    · obtain ⟨e, he, m, hm, hcount, hshows⟩ := hrest g hg
      exact ⟨e, mem_cons_of_mem d he, m, by omega, by omega, hshows⟩

end

end Ifj24.Typing

namespace Ifj24.Machine

open Ifj24.Tree Code Meaning Typing

section

variable {p : Grammar.Program} {hash : NameHash} {strict : Bool} {parsed : Parsed} {t u : Table}
  {q : Tree.Program}

theorem known_of_accepted (hacc : p.Accepted hash strict parsed t)
     (h : t.lookupFunction? name = some f) :
    f.name = name ∧ (f.builtin = true → f ∈ FuncDef.builtins) := by
  rw [Table.lookupFunction?, hacc.faithful, hacc.order] at h
  refine ⟨by simpa using find?_some h, fun hblt => ?_⟩
  rcases mem_append.mp (mem_of_find?_eq_some h) with hmem | hmem
  · exact hmem
  · obtain ⟨d, -, rfl⟩ := mem_map.mp hmem
    cases hblt

theorem shows_of_passed (h : Passed p hash strict parsed t q u) :
    q.functions.map (·.name) = p.functions.map (·.name.1.literal) ∧
      ∀ fn ∈ q.functions, ∃ d ∈ p.functions, ∃ m, 1 ≤ m ∧ m + d.count ≤ t.store.size ∧ Shows m d fn := by
  obtain ⟨hnames, hshows⟩ := shows_of_functions h.depicts.functions
  rw [h.size]
  refine ⟨(map_of_bare (fun _ => rfl) h.bare).trans hnames, forall_of_bare (fun fn => ?_) h.bare hshows⟩
  simp only [shows_bare]

theorem linked_of_passed (h : Passed p hash strict parsed t q u) (comments : Bool) :
    Linked u q.functions (generate comments u q).code := by
  obtain ⟨-, href, hholds⟩ := h.advances
  obtain ⟨hnames, hshows⟩ := shows_of_passed h
  constructor
  case nodup => exact nodup_labels_generate comments u q (hnames ▸ h.names)
  case placed =>
    intro fn hfn
    obtain ⟨keep, hcode⟩ := code_generate comments u q
    obtain ⟨pre, k, σ, hsplit⟩ := functionsCode_split ⟨0, none⟩ hfn
    rw [hcode, hsplit]
    exact ⟨startCode ++ pre, k ++ (Builtin.all.filter keep).flatMap builtinCode, σ, by
      simp only [append_assoc]⟩
  case typed => exact hholds u (.refl _)
  case names =>
    intro fn hfn
    obtain ⟨d, -, m, -, -, hfn⟩ := hshows fn hfn
    rw [hfn.definition, hfn.name]
    rfl
  case known =>
    intro name f hf
    rw [href.lookupFunction?] at hf
    exact known_of_accepted h.toAccepted hf

end

section

theorem place_injective {t : Table} (hids : ∀ r < t.store.size, (t.var r).id = UInt32.ofNat r)
    (hsize : t.store.size ≤ UInt32.size) (hr : r < t.store.size)
    (hr' : r' < t.store.size) (h : place t r = place t r') : r = r' := by
  have hid : (t.var r).id = (t.var r').id := by
    cases hdisc : (t.var r).isDiscard with
    | true =>
      cases hdisc' : (t.var r').isDiscard with
      | true =>
        rw [Var.isDiscard, beq_iff_eq] at hdisc hdisc'
        rw [hdisc, hdisc']
      | false =>
        rw [place_of_discard hdisc, place_of_local hdisc'] at h
        cases h
    | false =>
      cases hdisc' : (t.var r').isDiscard with
      | true =>
        rw [place_of_local hdisc, place_of_discard hdisc'] at h
        cases h
      | false =>
        rw [place_of_local hdisc, place_of_local hdisc'] at h
        injection h
  rw [hids r hr, hids r' hr', ← UInt32.toNat_inj, UInt32.toNat_ofNat', UInt32.toNat_ofNat',
    Nat.mod_eq_of_lt (Nat.lt_of_lt_of_le hr hsize),
    Nat.mod_eq_of_lt (Nat.lt_of_lt_of_le hr' hsize)] at hid
  exact hid

theorem nodup_places {t : Table} (hids : ∀ r < t.store.size, (t.var r).id = UInt32.ofNat r)
    (hsize : t.store.size ≤ UInt32.size)
    (h : Shows m d fn) (hcount : m + d.count ≤ t.store.size) :
    ((frameVars fn).map (place t)).Nodup := by
  rw [h.vars]
  refine pairwise_map.mpr ((nodup_range' 1).imp_of_mem ?_)
  intro r r' hr hr' hne heq
  have hr : r < t.store.size := by
    have := mem_range'_1.mp hr
    omega
  have hr' : r' < t.store.size := by
    have := mem_range'_1.mp hr'
    omega
  exact hne (place_injective hids hsize hr hr' heq)

end

/-- Lowering preserves meaning. If the body of a function of an accepted program is evaluated
to its end, the machine that is started at the label of the function comes to the matching
return with the same calls of built-in functions, and with exactly the result on top of what
was below the arguments.

The machine needs the variable that takes what is thrown away; in a run of the program it is
there after the first step. Variables of one function share no place unless their numbers
run out. -/
theorem generate_preserves_meaning (I : Interp) (tokens : List Token) (hash : NameHash)
    (strict : Bool) (parsed : Parsed) (t : Table)
    (hparse : parse (.ofTokens tokens) (.fresh hash strict) = .ok parsed t)
    (hcheck : (check { parsed with unused := none } t).failure = none) (comments : Bool) :
    let table := (check parsed t).table
    let functions := (check parsed t).program.functions
    let program := (generate comments table (check parsed t).program).code
    (∀ fn ∈ functions, ∀ args env h out r h', Env.ofArgs table fn.params args = some env →
      Evaluates I table functions (.stmts env fn.body.stmts) h out h' →
      out.ofBody? fn.definition = some r →
      Performs I program fn args h r h' ∧ (r = none ↔ fn.definition.result = .void)) ∧
    (∀ s s', s.code = program → Reaches I program s s' → s' = s ∨ s'.ready = true) ∧
    (table.store.size ≤ UInt32.size →
      ∀ fn ∈ functions, ((frameVars fn).map (place table)).Nodup) := by
  obtain ⟨p, hpass⟩ := exists_passed hparse hcheck
  have hlink := linked_of_passed hpass comments
  refine ⟨?_, ?_, ?_⟩
  · intro fn hfn args env h out r h' henv hbody hr
    exact ⟨hlink.reaches_return hfn henv (hlink.simulates hbody) hr,
      hlink.ofBody?_eq_none hfn hbody hr⟩
  · intro s₁ s₂ hcode hreach
    obtain ⟨keep, hprog⟩ := code_generate comments _ (check parsed t).program
    rw [hprog] at hcode
    exact hreach.ready_of_start hcode
  · intro hsize fn hfn
    obtain ⟨hfront, href, -⟩ := hpass.advances
    obtain ⟨d, -, m, -, hcount, hshows⟩ := (shows_of_passed hpass).2 fn hfn
    have hids : ∀ r < (check parsed t).table.store.size,
        ((check parsed t).table.var r).id = UInt32.ofNat r := by
      intro r hr
      rw [href.id]
      exact hpass.consistent.ids r (hfront.size ▸ hr)
    exact nodup_places hids hsize hshows (hfront.size ▸ hcount)

section

/-- Built-in functions give the number of calls before as long as it is below 3, then null. -/
def Interp.sample : Interp where
  int _ _ _ := none
  float _ _ _ := none
  eq _ _ := none
  lt _ _ := none
  gt _ _ := none
  builtin h b _ :=
    some (if b.hasResult then some (if h.length < 3 then .int h.length else .nil) else none)
  isSome_builtin h b args r hr := by
    cases hr
    cases b <;> rfl

def sampleSource : Bytes := "const ifj = @import(\"ifj24.zig\");
pub fn next() ?i32 \x7b
  return ifj.readi32();
\x7d
pub fn main() void \x7b
  var x = next();
  while (x) |n| \x7b
    ifj.write(n);
    x = next();
  \x7d
\x7d
"

def sampleTokens : List Token := (tokenize "sample" sampleSource).toOption.getD []

def sampleHistory : History :=
  [⟨.readi32, []⟩, ⟨.write, [.int 2]⟩, ⟨.readi32, []⟩, ⟨.write, [.int 0]⟩, ⟨.readi32, []⟩]

end

theorem generate_sample :
    ∃ parsed t, parse (.ofTokens sampleTokens) (.fresh (fun _ => 0) false) = .ok parsed t ∧
      (check { parsed with unused := none } t).failure = none ∧
      ∃ fn ∈ (check parsed t).program.functions, fn.name = "main" ∧
        Performs Interp.sample (generate false (check parsed t).table (check parsed t).program).code
          fn [] [] none sampleHistory := by
  obtain ⟨parsed, t, hparse, hcheck, fn, hfn, hname, hfunction⟩ : ∃ parsed t,
      parse (.ofTokens sampleTokens) (.fresh (fun _ => 0) false) = .ok parsed t ∧
        (check { parsed with unused := none } t).failure = none ∧
        ∃ fn ∈ (check parsed t).program.functions, fn.name = "main" ∧
          runFunction Interp.sample (check parsed t).table (check parsed t).program.functions 12 fn
            [] [] = some (none, sampleHistory) := by
    decide +kernel
  obtain ⟨env, out, henv, hbody, hr⟩ := evaluates_of_runFunction hfunction
  obtain ⟨hperforms, -⟩ := (generate_preserves_meaning Interp.sample _ _ _ parsed t hparse hcheck
    false).1 fn hfn _ env _ out _ _ henv hbody hr
  exact ⟨parsed, t, hparse, hcheck, fn, hfn, hname, hperforms⟩

end Ifj24.Machine
