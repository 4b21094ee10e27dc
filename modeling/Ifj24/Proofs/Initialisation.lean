import Ifj24.Proofs.Closure
import Ifj24.Proofs.Visibility

/-!
Local variables are written before they are read. On every way that control can take through the
code of a function, what is visible where a statement stands has been written by then.
-/

open List

namespace Ifj24

namespace Code

section

def Place.isLocal : Place → Bool
  | .local .. => true
  | .discard | .temporary _ => false

namespace Instr

def defines : Instr → List Place
  | .defVar p => [p]
  | _ => []

def reads : Instr → List Place
  | .push (.place p) | .move _ (.place p) => [p]
  | _ => []

def writes : Instr → List Place
  | .pop p | .move p _ => [p]
  | _ => []

def continues : Instr → Bool
  | .jump _ | .return | .exit _ => false
  | _ => true

def enters : Instr → Bool
  | .label (.function _) | .label (.builtin _) => true
  | _ => false

end Instr

def definitions (code : List Instr) : List Place :=
  (code.flatMap Instr.defines).filter Place.isLocal

def localPlaces (vs : List Var) : List Place :=
  (vs.filter fun v => !v.isDiscard).map fun v => .local v.name v.id

/-- The code of the function that starts with the first instruction, up to the next one. -/
def ownCode : List Instr → List Instr
  | [] => []
  | i :: k => i :: k.takeWhile fun j => !j.enters

end

end Code

namespace Machine

open Ifj24.Tree Code Typing Meaning

section

variable {program : List Instr}

/-- Where control can get by one instruction, inside one activation of a function: a call is
over when it returns. -/
inductive Goes (program : List Instr) : List Instr → List Instr → Prop
  | next {i : Instr} {k : List Instr} (hi : i.continues = true) : Goes program (i :: k) k
  | jump {i : Instr} {l : Label} {k k' : List Instr} (hi : i.jump? = some l)
      (hl : codeAt l program = some k') : Goes program (i :: k) k'

inductive Trail (program : List Instr) : List Instr → List Instr → List Instr → Prop
  | done {code : List Instr} : Trail program code [] code
  | step {i : Instr} {k next trail last : List Instr} (hstep : Goes program (i :: k) next)
      (hrest : Trail program next trail last) : Trail program (i :: k) (i :: trail) last

/-- On every way, local variables are written before they are read. -/
def WritesFirst (program start : List Instr) : Prop :=
  ∀ trail i k, Trail program start trail (i :: k) →
    ∀ p ∈ i.reads, p.isLocal = true → ∃ j ∈ trail, p ∈ j.writes

/-- On every way with less than `n` instructions, what is read is among `written` or has been
written on the way. -/
def Ready (program : List Instr) (n : Nat) (written : List Place) (code : List Instr) : Prop :=
  ∀ trail i k, Trail program code trail (i :: k) → trail.length < n →
    ∀ p ∈ i.reads, p ∈ written ∨ ∃ j ∈ trail, p ∈ j.writes

namespace Ready

variable {n : Nat} {written : List Place} {i : Instr} {l : Label} {k k' : List Instr}

theorem of_le (h : Ready program n written k) (hle : m ≤ n) : Ready program m written k :=
  fun trail j k' htrail hlen => h trail j k' htrail (Nat.lt_of_lt_of_le hlen hle)

theorem writesFirst (h : ∀ n, Ready program n written k)
    (hwritten : ∀ p ∈ written, p.isLocal = false) : WritesFirst program k := by
  intro trail j k' htrail p hp hlocal
  refine (h _ trail j k' htrail (Nat.lt_succ_self _) p hp).resolve_left fun hmem => ?_
  rw [hwritten p hmem] at hlocal
  cases hlocal

theorem cons (hreads : ∀ p ∈ i.reads, p ∈ written)
    (hnext : ∀ m next, n = m + 1 → Goes program (i :: k) next →
      Ready program m (i.writes ++ written) next) : Ready program n written (i :: k) := by
  intro trail j k' htrail hlen p hp
  cases htrail with
  | done => exact .inl (hreads p hp)
  | @step _ _ next trail _ hstep hrest =>
    rw [length_cons] at hlen
    obtain ⟨m, rfl⟩ : ∃ m, n = m + 1 := ⟨n - 1, by omega⟩
    rcases hnext m next rfl hstep trail j k' hrest (by omega) p hp with hmem | ⟨j', hj', hp'⟩
    · rcases mem_append.mp hmem with hmem | hmem
      · exact .inr ⟨i, mem_cons_self, hmem⟩
      · exact .inl hmem
    · exact .inr ⟨j', mem_cons_of_mem _ hj', hp'⟩

theorem pass (hi : i.jump? = none) (hreads : ∀ p ∈ i.reads, p ∈ written)
    (hk : Ready program n (i.writes ++ written) k) : Ready program n written (i :: k) := by
  refine cons hreads fun m next hm hgoes => ?_
  cases hgoes with
  | next => exact hk.of_le (by omega)
  | jump hjump =>
    rw [hi] at hjump
    cases hjump

theorem label (hk : Ready program n written k) : Ready program n written (.label l :: k) :=
  pass rfl nofun hk

theorem jump (hl : codeAt l program = some k')
    (hk : ∀ m, n = m + 1 → Ready program m written k') :
    Ready program n written (.jump l :: k) := by
  refine cons nofun fun m next hm hgoes => ?_
  cases hgoes with
  | next hi => cases hi
  | jump hjump hl' =>
    cases hjump
    obtain rfl := Option.some.inj (hl.symm.trans hl')
    exact hk m hm

theorem jumpIfEqs (hl : codeAt l program = some k') (hk : Ready program n written k)
    (hk' : Ready program n written k') : Ready program n written (.jumpIfEqs l :: k) := by
  refine cons nofun fun m next hm hgoes => ?_
  cases hgoes with
  | next => exact hk.of_le (by omega)
  | jump hjump hl' =>
    cases hjump
    obtain rfl := Option.some.inj (hl.symm.trans hl')
    exact hk'.of_le (by omega)

theorem «return» : Ready program n written (.return :: k) := by
  refine cons nofun fun m next hm hgoes => ?_
  cases hgoes with
  | next hi => cases hi
  | jump hjump => cases hjump

end Ready

end

section

variable {g : Guard} {written : List Place}

variable {t : Table} {program : List Instr} {vs vs' : List VarRef}

def Covered (t : Table) (vs : List VarRef) (written : List Place) : Prop :=
  ∀ r ∈ vs, place t r ∈ written

theorem Covered.mono (h : Covered t vs' written)
    (hless : ∀ r ∈ vs, r ∈ vs') : Covered t vs written := fun r hr => h r (hless r hr)

/-- Code that reads only some variables, wherever it stands, and has written others at its
end. -/
def Prepares (t : Table) (program : List Instr) (vs vs' : List VarRef) (code : List Instr) :
    Prop :=
  ∀ n written k, code ++ k <:+ program → Covered t vs written →
    (∀ written', Covered t vs' written' → Ready program n written' k) →
    Ready program n written (code ++ k)

namespace Prepares

variable {i : Instr}

variable {code : List Instr}

theorem nil : Prepares t program vs vs [] := fun _ written _ _ hvs hk => hk written hvs

theorem append (h : Prepares t program vs vs' code) (h' : Prepares t program vs' vs'' code') :
    Prepares t program vs vs'' (code ++ code') := by
  intro n written k hsuf hvs hk
  rw [append_assoc] at hsuf ⊢
  refine h n written _ hsuf hvs fun written' hvs' => ?_
  exact h' n written' k ((suffix_append _ _).trans hsuf) hvs' hk

theorem mono (h : Prepares t program vs vs' code) (hless : ∀ r ∈ vs'', r ∈ vs') :
    Prepares t program vs vs'' code := by
  intro n written k hsuf hvs hk
  exact h n written k hsuf hvs fun written' hvs' => hk written' (hvs'.mono hless)

theorem pass (hi : i.jump? = none) (hreads : ∀ p ∈ i.reads, ∃ r ∈ vs, p = place t r)
    (hwrites : ∀ r ∈ vs', r ∈ vs ∨ place t r ∈ i.writes) : Prepares t program vs vs' [i] := by
  intro n written k _ hvs hk
  refine .pass hi (fun p hp => ?_) (hk _ fun r hr => ?_)
  · obtain ⟨r, hr, rfl⟩ := hreads p hp
    exact hvs r hr
  · rw [mem_append]
    exact (hwrites r hr).symm.imp_right (hvs r)

theorem quiet (hi : i.jump? = none) (hreads : i.reads = []) :
    Prepares t program vs vs [i] := by
  refine pass hi (fun p hp => ?_) fun r hr => .inl hr
  rw [hreads] at hp
  cases hp

theorem pop (r : VarRef) : Prepares t program vs (r :: vs) [.pop (place t r)] := by
  refine pass rfl nofun fun q hq => ?_
  rcases mem_cons.mp hq with rfl | hq
  · exact .inr mem_cons_self
  · exact .inl hq

theorem of_simple (h : AllSimple t uses code) (hvs : Visible vs uses) :
    Prepares t program vs vs code := by
  induction code with
  | nil => exact .nil
  | cons i rest ih =>
    obtain ⟨hi, hrest⟩ := forall_mem_cons.mp h
    have hfirst : Prepares t program vs vs [i] := by
      cases hi with
      | constant c => exact .quiet rfl rfl
      | stack op => exact .quiet rfl rfl
      | @place v hv =>
        refine .pass rfl (fun p hp => ?_) fun r hr => .inl hr
        exact ⟨v.var, hvs v hv, mem_singleton.mp hp⟩
    exact hfirst.append (ih hrest)

theorem of_evaluating (h : Evaluating t uses code)
    (hvs : Visible vs uses) : Prepares t program vs vs code := by
  obtain ⟨front, hfront, rfl | ⟨l, rfl⟩⟩ := h
  · exact of_simple hfront hvs
  · exact (of_simple hfront hvs).append (.quiet rfl rfl)

theorem store (r : VarRef) (hvs : Visible vs x.uses) :
    Prepares t program vs (r :: vs) ((lowerValue t x σ).1 ++ [.pop (place t r)]) :=
  (of_evaluating (evaluating_lowerValue x σ).1 hvs).append (.pop r)

theorem «return» (h : Prepares t program vs vs code) :
    Prepares t program vs vs (code ++ [.popFrame, .return]) := by
  have hreturn : Prepares t program vs vs [.return] := fun _ _ _ _ _ _ => .return
  have hframe : Prepares t program vs vs [.popFrame] := .quiet rfl rfl
  exact h.append (hframe.append hreturn)

end Prepares

theorem prepares_entry (hg : Visible vs g.uses) :
    Prepares t program vs (g.binding?.toList ++ vs) (Guard.entry t g) := by
  cases g with
  | compare c => exact .nil
  | unwrap subject binding =>
    refine .pass rfl (fun p hp => ?_) fun r hr => ?_
    · exact ⟨subject.var, hg subject mem_cons_self, mem_singleton.mp hp⟩
    · rcases mem_cons.mp hr with rfl | hr
      · exact .inr mem_cons_self
      · exact .inl hr

/-- A guard has two ways behind it. Only the next one leads past what it binds. -/
theorem ready_guarding {code k k' : List Instr} {n : Nat}
     (h : Guarding t g target code) (hg : Visible vs g.uses)
    (hsuf : code ++ k <:+ program) (htgt : codeAt target program = some k')
    (hvs : Covered t vs written)
    (hk : ∀ written', Covered t (g.binding?.toList ++ vs) written' → Ready program n written' k)
    (hk' : ∀ written', Covered t vs written' → Ready program n written' k') :
    Ready program n written (code ++ k) := by
  obtain ⟨front, hfront, ⟨rfl, hentry⟩ | rfl⟩ := h
  · -- No jump was made, so nothing is bound.
    have hquiet : Prepares t program vs (g.binding?.toList ++ vs) (code ++ Guard.entry t g) :=
      (Prepares.of_simple hfront hg).append (prepares_entry hg)
    rw [hentry, append_nil] at hquiet
    exact hquiet n written k hsuf hvs hk
  · rw [append_assoc] at hsuf ⊢
    refine Prepares.of_simple hfront hg n written _ hsuf hvs fun written' hvs' => ?_
    have hbehind : Guard.entry t g ++ k <:+ program :=
      ((suffix_cons _ _).trans (suffix_append _ _)).trans hsuf
    exact .jumpIfEqs htgt (prepares_entry hg n written' k hbehind hvs' hk) (hk' written' hvs')

section

variable {fns : List Function} {g : Guard} {owner : Bytes}
  {jump yes no body : List Instr}

theorem Covered.unbind {written : List Place} (h : Covered t (g.binding?.toList ++ vs) written) :
    Covered t vs written := h.mono fun _ => mem_append_right _

theorem prepares_branch (hlink : Linked t fns program)
    (hjump : Guarding t g (.flow owner .otherwise number) jump) (hg : Visible vs g.uses)
    (hyes : Prepares t program (g.binding?.toList ++ vs) (g.binding?.toList ++ vs) yes) :
    Prepares t program vs vs (branchCode owner number jump yes none) := by
  intro n written k hsuf hvs hk
  rw [branchCode_none] at hsuf ⊢
  have htgt := hlink.leads hsuf (append_assoc ..).symm
  have hlabel (written' : List Place) (hvs' : Covered t vs written') :
      Ready program n written' (.label (.flow owner .otherwise number) :: k) :=
    (hk written' hvs').label
  refine ready_guarding hjump hg hsuf htgt hvs (fun written' hvs' => ?_) hlabel
  exact hyes n written' _ ((suffix_append _ _).trans hsuf) hvs' fun written'' hvs'' =>
    hlabel written'' hvs''.unbind

theorem prepares_branchElse (hlink : Linked t fns program)
    (hjump : Guarding t g (.flow owner .otherwise number) jump) (hg : Visible vs g.uses)
    (hyes : Prepares t program (g.binding?.toList ++ vs) (g.binding?.toList ++ vs) yes)
    (hno : Prepares t program vs vs no) :
    Prepares t program vs vs (branchCode owner number jump yes (some no)) := by
  intro n written k hsuf hvs hk
  rw [branchCode_some] at hsuf ⊢
  obtain ⟨htgt, hdone⟩ := hlink.leads_branch hsuf rfl
  have hlabel (written' : List Place) (hvs' : Covered t vs written') :
      Ready program n written' (.label (.flow owner .endIf number) :: k) :=
    (hk written' hvs').label
  refine ready_guarding hjump hg hsuf htgt hvs (fun written' hvs' => ?_) fun written' hvs' => ?_
  · refine hyes n written' _ ((suffix_append _ _).trans hsuf) hvs' fun written'' hvs'' => ?_
    refine .jump hdone fun m hm => ?_
    exact (hlabel written'' hvs''.unbind).of_le (by omega)
  · refine .label (hno n written' _ ?_ hvs' hlabel)
    exact (suffix_cons _ _).trans (suffix_of_codeAt htgt)

/-- The induction is on the steps that are left: a round takes some. -/
theorem prepares_loop (hlink : Linked t fns program)
    (hjump : Guarding t g (.flow owner .endLoop number) jump) (hg : Visible vs g.uses)
    (hbody : Prepares t program (g.binding?.toList ++ vs) (g.binding?.toList ++ vs) body) :
    Prepares t program vs vs (loopCode owner number jump body) := by
  intro n written k hsuf hvs hk
  rw [loopCode_append] at hsuf ⊢
  obtain ⟨hloop, hdone⟩ := hlink.leads_loop hsuf rfl
  have hbehind := (suffix_cons _ _).trans hsuf
  induction n using Nat.strongRecOn generalizing written with
  | ind n ih =>
    have hlabel (written' : List Place) (hvs' : Covered t vs written') :
        Ready program n written' (.label (.flow owner .endLoop number) :: k) :=
      (hk written' hvs').label
    refine .label (ready_guarding hjump hg hbehind hdone hvs (fun written' hvs' => ?_) hlabel)
    refine hbody n written' _ ((suffix_append _ _).trans hbehind) hvs' fun written'' hvs'' => ?_
    refine .jump hloop fun m hm => ih m (by omega) written'' hvs''.unbind fun w hw => ?_
    exact (hk w hw).of_le (by omega)

end

variable {fns : List Function} {owner : Bytes}

mutual

/-- The code of a statement reads only what is visible there. -/
theorem prepares_lowerStmt (hlink : Linked t fns program) (vs : List VarRef) (s : Stmt)
    (hs : s.InScope vs) (σ : LowerState) :
    Prepares t program vs (s.reveals ++ vs) (lowerStmt t owner s σ).1 := by
  cases s with
  | declare pos r x =>
    exact .store r hs
  | assign pos r x =>
    have hx : Visible vs x.uses := fun v hv => hs v (mem_cons_of_mem _ hv)
    exact (Prepares.store r hx).mono fun q hq => mem_cons_of_mem _ hq
  | call c =>
    exact .of_evaluating (evaluating_lowerCall c σ).1 hs
  | ifElse pos g yes no =>
    unfold Stmt.InScope at hs
    obtain ⟨hg, hyes, hno⟩ := hs
    have hjump := (guarding_lowerGuard (t := t) (.flow owner .otherwise σ.labels) g σ.next).1
    have hyes := prepares_lowerStmts hlink _ yes.stmts hyes
      (lowerGuard t (.flow owner .otherwise σ.labels) g σ.next).2
    cases no with
    | none =>
      exact prepares_branch hlink hjump hg hyes
    | some e =>
      exact prepares_branchElse hlink hjump hg hyes
        (prepares_lowerStmts hlink vs e.body.stmts hno _)
  | «while» pos g body =>
    obtain ⟨hg, hbody⟩ := hs
    have hjump := (guarding_lowerGuard (t := t) (.flow owner .endLoop σ.labels) g σ.next).1
    exact prepares_loop hlink hjump hg (prepares_lowerStmts hlink _ body.stmts hbody _)
  | «return» pos x =>
    cases x with
    | none =>
      exact Prepares.nil.return
    | some x =>
      exact (Prepares.of_evaluating (evaluating_lowerValue x σ).1 hs).return
  | elseStart e =>
    exact .nil
  | blockEnd e =>
    exact .nil
termination_by structural s

theorem prepares_lowerStmts (hlink : Linked t fns program) (vs : List VarRef)
    (ss : List Stmt) (hss : StmtsInScope vs ss) (σ : LowerState) :
    Prepares t program vs vs (lowerStmts t owner ss σ).1 := by
  cases ss with
  | nil =>
    exact .nil
  | cons s rest =>
    obtain ⟨hs, hrest⟩ := hss
    have hfirst := prepares_lowerStmt hlink vs s hs σ
    have hothers := prepares_lowerStmts hlink (s.reveals ++ vs) rest hrest
      (lowerStmt t owner s σ).2
    exact (hfirst.append hothers).mono fun r hr => mem_append_right _ hr
termination_by structural ss

end

end

section

variable {t : Table} {program : List Instr} {fn : Function}
  {vs : List VarRef}

theorem prepares_defVars (rs : List VarRef) :
    Prepares t program vs vs (rs.map fun r => .defVar (place t r)) := by
  induction rs with
  | nil => exact .nil
  | cons r rs ih =>
    have hfirst : Prepares t program vs vs [.defVar (place t r)] := .quiet rfl rfl
    exact hfirst.append ih

theorem prepares_pops (rs : List VarRef) :
    Prepares t program vs (rs ++ vs) (rs.map fun r => .pop (place t r)) := by
  induction rs generalizing vs with
  | nil => exact .nil
  | cons r rs ih =>
    refine ((Prepares.pop r).append ih).mono fun q hq => ?_
    simp only [cons_append, mem_cons, mem_append] at hq ⊢
    rcases hq with rfl | hq | hq
    · exact .inr (.inl rfl)
    · exact .inl hq
    · exact .inr (.inr hq)

theorem prepares_entryCode (fn : Function) :
    Prepares t program vs (fn.params ++ vs) (entryCode t fn) := by
  have hframe : Prepares t program vs vs [.label (.function fn.name), .createFrame, .pushFrame] :=
    (Prepares.quiet rfl rfl).append ((Prepares.quiet rfl rfl).append (.quiet rfl rfl))
  refine ((hframe.append (prepares_defVars _)).append (prepares_pops _)).mono fun r hr => ?_
  simpa only [mem_append, mem_reverse] using hr

theorem writesFirst_function {after : List Instr} (hlink : Linked t fns program)
    (hscope : StmtsInScope (fn.params ++ [Table.discard]) fn.body.stmts)
    (hdisc : place t Table.discard = .discard) (σ : LowerState)
    (hsuf : (lowerFunction t fn σ).1 ++ after <:+ program) :
    WritesFirst program ((lowerFunction t fn σ).1 ++ after) := by
  have hcode := (@prepares_entryCode t program [Table.discard] fn).append
    (@prepares_lowerStmts t program fns fn.name hlink _ fn.body.stmts hscope σ)
  rw [lowerFunction_eq, ← append_assoc, append_assoc] at hsuf ⊢
  refine Ready.writesFirst (fun n => hcode n [.discard] _ hsuf ?_ fun written _ => ?_) ?_
  · intro r hr
    rw [mem_singleton.mp hr, hdisc]
    exact mem_cons_self
  · exact .pass rfl nofun .return
  · exact forall_mem_singleton.mpr rfl

theorem defines_lowerFunction (fn : Function) (σ : LowerState) :
    (lowerFunction t fn σ).1.flatMap Instr.defines = (frameVars fn).map (place t) := by
  have hbody : (lowerStmts t fn.name fn.body.stmts σ).1.flatMap Instr.defines = [] := by
    refine flatMap_eq_nil_iff.mpr fun i hi => ?_
    cases (laid_lowerStmts fn.body.stmts σ).wired.lowered i hi <;> rfl
  have hdefine (rs : List VarRef) :
      (rs.map fun r => .defVar (place t r)).flatMap Instr.defines = rs.map (place t) := by
    induction rs with
    | nil => rfl
    | cons r rs ih => rw [map_cons, flatMap_cons, ih, map_cons]; rfl
  have hpop (rs : List VarRef) :
      (rs.map fun r => .pop (place t r)).flatMap Instr.defines = [] := by
    induction rs with
    | nil => rfl
    | cons r rs ih => exact ih
  rw [lowerFunction_eq, entryCode]
  simp only [flatMap_append, hbody, hdefine, hpop]
  exact (append_nil _).trans (append_nil _)

end

section

variable {t : Table} {program : List Instr}

def Entered (code : List Instr) : Prop :=
  ∃ i k, code = i :: k ∧ i.enters = true ∧ ∀ j ∈ k, j.enters = false

theorem entered_lowerFunction (fn : Function) (σ : LowerState) :
    Entered (lowerFunction t fn σ).1 := by
  obtain ⟨k, hk, hflow⟩ := lowerFunction_cons fn σ
  refine ⟨_, k, hk, rfl, fun j hj => ?_⟩
  cases j with
  | label l =>
    obtain ⟨tag, n, rfl⟩ := hflow l hj
    rfl
  | _ => rfl

theorem entered_builtinCode (b : Builtin) : Entered (builtinCode b) := by
  have hbody : ∀ b ∈ Builtin.all, ∀ j ∈ b.body, j.enters = false := by decide +kernel
  exact ⟨_, b.body, rfl, rfl, hbody b b.mem_all⟩

theorem ownCode_append {code : List Instr} {parts : List (Bytes × List Instr)}
    (hcode : Entered code) (hparts : ∀ part ∈ parts, Entered part.2) :
    ownCode (code ++ parts.flatMap Prod.snd) = code := by
  obtain ⟨i, k, rfl, -, hk⟩ := hcode
  have hstop : (parts.flatMap Prod.snd).takeWhile (fun j => !j.enters) = [] := by
    cases parts with
    | nil => rfl
    | cons part rest =>
      obtain ⟨i', k', hpart, hi', -⟩ := hparts part mem_cons_self
      rw [flatMap_cons, hpart, cons_append, takeWhile_cons, hi']
      rfl
  have hown : ∀ j ∈ k, (!j.enters) = true := by
    intro j hj
    rw [hk j hj]
    rfl
  rw [cons_append, ownCode, takeWhile_append_of_pos hown, hstop, append_nil]

theorem exists_start (comments : Bool) (t : Table) (p : Tree.Program) {fn : Function}
    (hfn : fn ∈ p.functions) (hnodup : (labels (generate comments t p).code).Nodup) :
    ∃ σ after, codeAt (.function fn.name) (generate comments t p).code =
        some ((lowerFunction t fn σ).1 ++ after) ∧
      ownCode ((lowerFunction t fn σ).1 ++ after) = (lowerFunction t fn σ).1 := by
  have hcode := code_generate_sections comments t p
  generalize hfuncs : (lowerFunctions t p.functions ⟨0, none⟩).1 = functions at hcode
  rw [← map_fst_lowerFunctions t p.functions ⟨0, none⟩, hfuncs] at hfn
  obtain ⟨fc, hfc, rfl⟩ := mem_map.mp hfn
  have hentered : ∀ part ∈ Code.sections functions, Entered part.2 := by
    intro part hpart
    rcases mem_sections.mp hpart with ⟨fc, hfc, rfl⟩ | ⟨b, -, rfl⟩
    · obtain ⟨-, σ, hσ⟩ := mem_lowerFunctions (hfuncs ▸ hfc)
      rw [hσ]
      exact entered_lowerFunction fc.1 σ
    · exact entered_builtinCode b
  obtain ⟨before, behind, hsplit⟩ :=
    append_of_mem (mem_sections.mpr (.inl ⟨fc, hfc, rfl⟩))
  rw [hsplit, flatMap_append, flatMap_cons, ← append_assoc] at hcode
  obtain ⟨-, σ, hσ⟩ := mem_lowerFunctions (hfuncs ▸ hfc)
  rw [hσ] at hcode
  rw [hcode] at hnodup ⊢
  refine ⟨σ, behind.flatMap Prod.snd, ?_, ownCode_append (entered_lowerFunction fc.1 σ) ?_⟩
  · have hlabel : (lowerFunction t fc.1 σ).1 ++ behind.flatMap Prod.snd =
        .label (.function fc.1.name) :: ((lowerFunction t fc.1 σ).1.tail ++
          behind.flatMap Prod.snd) := by
      rfl
    exact codeAt_of_nodup hnodup
  · intro part hpart
    refine hentered part ?_
    rw [hsplit]
    exact mem_append_right _ (mem_cons_of_mem _ hpart)

theorem definitions_append (code code' : List Instr) :
    definitions (code ++ code') = definitions code ++ definitions code' := by
  rw [definitions, flatMap_append, filter_append]
  rfl

theorem defines_functionsCode (gs : List Function) (σ : LowerState) :
    (functionsCode (lowerFunctions t gs σ).1).flatMap Instr.defines =
      (gs.flatMap frameVars).map (place t) := by
  induction gs generalizing σ with
  | nil => rfl
  | cons fn rest ih =>
    have hothers := ih (lowerFunction t fn σ).2
    rw [functionsCode] at hothers
    rw [lowerFunctions_cons, functionsCode, flatMap_cons, flatMap_append, hothers,
      defines_lowerFunction, flatMap_cons, map_append]

theorem filter_places (rs : List VarRef) :
    (rs.map (place t)).filter Place.isLocal = localPlaces (rs.map t.var) := by
  induction rs with
  | nil => rfl
  | cons r rs ih =>
    rw [localPlaces] at ih ⊢
    rw [map_cons, map_cons, filter_cons, filter_cons, ih]
    cases hdisc : (t.var r).isDiscard with
    | true =>
      rw [place_of_discard hdisc]
      rfl
    | false =>
      rw [place_of_local hdisc]
      rfl

theorem definitions_generate (comments : Bool) (p : Tree.Program) :
    definitions (generate comments t p).code =
      localPlaces ((p.functions.flatMap frameVars).map t.var) := by
  obtain ⟨keep, hcode⟩ := code_generate comments t p
  have hstart : definitions startCode = [] := by decide
  have hblt : ∀ b ∈ Builtin.all, definitions (builtinCode b) = [] := by decide +kernel
  have hbuiltins : definitions ((Builtin.all.filter keep).flatMap builtinCode) = [] := by
    have hall : ∀ b ∈ Builtin.all.filter keep, definitions (builtinCode b) = [] :=
      fun b hb => hblt b (mem_filter.mp hb).1
    revert hall
    generalize Builtin.all.filter keep = bs
    intro hall
    induction bs with
    | nil => rfl
    | cons b rest ih =>
      obtain ⟨hb, hrest⟩ := forall_mem_cons.mp hall
      rw [flatMap_cons, definitions_append, hb, ih hrest]
      rfl
  have hfuncs : definitions (functionsCode (lowerFunctions t p.functions ⟨0, none⟩).1) =
      localPlaces ((p.functions.flatMap frameVars).map t.var) := by
    rw [definitions, defines_functionsCode, filter_places]
  rw [hcode, definitions_append, definitions_append, hstart, hfuncs, hbuiltins]
  exact append_nil _

end

section

variable {p : Grammar.Program} {hash : NameHash} {t u : Table} {q : Tree.Program}
  {fns : List Function}

theorem frameVars_of_functions {n : Nat} (hds : Grammar.FunctionsDepict t n ds fns) :
    fns.flatMap frameVars = List.range' n (Grammar.countAll ds) := by
  induction hds with
  | nil => rfl
  | cons hd _ ih =>
    rw [flatMap_cons, (shows_of_depicts hd).vars, ih, range'_append_1]
    rfl

section

variable (h : Passed p hash strict parsed t q u)

include h

theorem frames_of_passed : q.functions.map (fun fn => (fn.name, frameVars fn)) =
        parsed.program.functions.map (fun fn => (fn.name, fn.declares)) ∧
      Table.discard :: q.functions.flatMap frameVars = List.range t.store.size := by
  have hframes : q.functions.map (fun fn => (fn.name, frameVars fn)) =
      parsed.program.functions.map fun fn => (fn.name, frameVars fn) :=
    map_of_bare (fun fn => congrArg (Prod.mk fn.name) (frameVars_bare fn)) h.bare
  have hvars := congrArg (List.flatMap Prod.snd) hframes
  rw [flatMap_map, flatMap_map] at hvars
  refine ⟨by simpa only [Tree.Function.declares_eq] using hframes, ?_⟩
  rw [hvars, frameVars_of_functions h.depicts.functions, h.size,
    range_eq_range', Nat.add_comm, range'_succ]
  rfl

theorem vars_of_passed : u.vars = (Table.discard :: q.functions.flatMap frameVars).map u.var := by
  rw [Table.vars, h.retains.log, h.consistent.log, (frames_of_passed h).2]

theorem ids_of_passed (hr : r < t.store.size) : (u.var r).id = UInt32.ofNat r := by
  rw [h.retains.id, h.consistent.ids r hr]

theorem discard_of_passed : (u.var Table.discard).isDiscard = true ∧
    (u.var Table.discard).name = Bytes.ofString "_" := by
  have hpos : Table.discard < t.store.size := by
    rw [h.size]
    exact Nat.lt_add_right _ Nat.one_pos
  constructor
  · rw [Var.isDiscard, ids_of_passed h hpos]
    rfl
  · rw [h.retains.name, (h.later.alike Table.discard Nat.one_pos).name]
    rfl

/-- As long as numbers do not run out, they rise in the order of the declarations, and all
variables but `_` are kept in places of their own. -/
theorem vars_ascend (hsize : u.vars.length ≤ UInt32.size) :
    ∃ first rest, u.vars = first :: rest ∧ first.name = Bytes.ofString "_" ∧
      localPlaces u.vars = rest.map (fun v => .local v.name v.id) ∧
      rest.Pairwise fun v w => v.id < w.id := by
  obtain ⟨-, hrange⟩ := frames_of_passed h
  have hvars := vars_of_passed h
  obtain ⟨hdisc, hname⟩ := discard_of_passed h
  have hlen : t.store.size ≤ UInt32.size := by
    rwa [hvars, hrange, length_map, length_range] at hsize
  have hbound {r : VarRef} (hr : r ∈ q.functions.flatMap frameVars) : r < t.store.size := by
    rw [← mem_range, ← hrange]
    exact mem_cons_of_mem _ hr
  have hrise : (Table.discard :: q.functions.flatMap frameVars).Pairwise (· < ·) := by
    rw [hrange]
    exact pairwise_lt_range
  have hid {r : VarRef} (hr : r ∈ q.functions.flatMap frameVars) : (u.var r).id.toNat = r := by
    rw [ids_of_passed h (hbound hr), UInt32.toNat_ofNat']
    exact Nat.mod_eq_of_lt (Nat.lt_of_lt_of_le (hbound hr) hlen)
  refine ⟨_, _, hvars, hname, ?_, ?_⟩
  · have hlocal : ∀ v ∈ (q.functions.flatMap frameVars).map u.var, (!v.isDiscard) = true := by
      intro v hv
      obtain ⟨r, hr, rfl⟩ := mem_map.mp hv
      have hpos : 0 < r := rel_of_pairwise_cons hrise hr
      rw [Var.isDiscard, Bool.not_eq_true', beq_eq_false_iff_ne]
      intro hzero
      have hr' := hid hr
      rw [hzero] at hr'
      exact absurd hr' (Nat.ne_of_lt hpos)
    rw [hvars, localPlaces, map_cons, filter_cons, hdisc,
      filter_eq_self.mpr hlocal]
    rfl
  · refine pairwise_map.mpr (hrise.tail.imp_of_mem fun hr hr' hlt => ?_)
    rw [UInt32.lt_iff_toNat_lt, hid hr, hid hr']
    exact hlt

end

end

/-- Local variables are defined once and written before they are read. The definitions of an
accepted program are those of its variables other than `_`, in the order of their numbers, and
each function defines the variables that it declares. On every way from the label of a function,
a local variable that is read has been written before in the same activation. -/
theorem generate_initialises_locals (tokens : List Token) (hash : NameHash) (strict : Bool)
    (parsed : Parsed) (t : Table)
    (hparse : parse (.ofTokens tokens) (.fresh hash strict) = .ok parsed t)
    (hcheck : (check { parsed with unused := none } t).failure = none) (comments : Bool) :
    let table := (check parsed t).table
    let program := (generate comments table (check parsed t).program).code
    definitions program = localPlaces table.vars ∧
    (table.vars.length ≤ UInt32.size →
      ∃ first rest, table.vars = first :: rest ∧ first.name = Bytes.ofString "_" ∧
        localPlaces table.vars = rest.map (fun v => .local v.name v.id) ∧
        rest.Pairwise fun v w => v.id < w.id) ∧
    ∀ fn ∈ parsed.program.functions, ∃ start, codeAt (.function fn.name) program = some start ∧
      definitions (ownCode start) = localPlaces (fn.declares.map table.var) ∧
      WritesFirst program start := by
  obtain ⟨p, hpass⟩ := exists_passed hparse hcheck
  have hlink := linked_of_passed hpass comments
  have hscope := forall_of_bare (fun fn => inScopes_bare fn.body.stmts (fn.params ++ [Table.discard]))
    hpass.bare hpass.resolved.2
  obtain ⟨hdisc, -⟩ := discard_of_passed hpass
  refine ⟨?_, vars_ascend hpass, fun fn hfn => ?_⟩
  · rw [definitions_generate, vars_of_passed hpass, map_cons, localPlaces, localPlaces, filter_cons,
      hdisc]
    rfl
  · -- The checked function of the same name has the frame.
    have hpair : (fn.name, fn.declares) ∈
        (check parsed t).program.functions.map fun fn => (fn.name, frameVars fn) := by
      rw [(frames_of_passed hpass).1]
      exact mem_map_of_mem hfn
    obtain ⟨fn', hfn', heq⟩ := mem_map.mp hpair
    obtain ⟨hname, hframe⟩ := Prod.mk.inj heq
    obtain ⟨σ, after, hstart, hown⟩ :=
      exists_start comments _ (check parsed t).program hfn' hlink.nodup
    rw [hname] at hstart
    refine ⟨_, hstart, ?_, ?_⟩
    · rw [hown, definitions, defines_lowerFunction, hframe, filter_places]
    · exact writesFirst_function hlink (hscope fn' hfn') (place_of_discard hdisc) σ
        (suffix_of_codeAt hstart)

section

/-- A program whose guards bind names that are known already. -/
def rebindingSource : Bytes := "const ifj = @import(\"ifj24.zig\");
pub fn f(a: ?i32) void \x7b while (a) |a| \x7b f(a); \x7d \x7d
pub fn main() void \x7b const x = ifj.readi32();
if (x) |x| \x7b f(x); \x7d else \x7b const y = ifj.readi32(); f(y); \x7d \x7d"

def rebindingTokens : List Token := (tokenize "rebinding" rebindingSource).toOption.getD []

theorem trail_of_continues {program k : List Instr} (h : ∀ i ∈ front, i.continues = true) :
    Trail program (front ++ k) front k := by
  induction front with
  | nil => exact .done
  | cons i rest ih =>
    obtain ⟨hi, hrest⟩ := forall_mem_cons.mp h
    exact .step (.next hi) (ih hrest)

end

/-- The variable that the guard in `main` binds is written before the call that reads it. -/
theorem generate_rebinding :
    ∃ parsed t, parse (.ofTokens rebindingTokens) (.fresh (fun _ => 0) false) = .ok parsed t ∧
      (check { parsed with unused := none } t).failure = none ∧
      let program := (generate false (check parsed t).table (check parsed t).program).code
      definitions program =
        [.local "a" 1, .local "a" 2, .local "x" 3, .local "x" 4, .local "y" 5] ∧
      ∃ start trail k, codeAt (.function "main") program = some start ∧
        Trail program start trail (.push (.place (.local "x" 4)) :: k) ∧
        ∃ j ∈ trail, .local "x" 4 ∈ j.writes := by
  obtain ⟨parsed, t, hparse, hcheck, hvars, ⟨fn, hfn, hname⟩, hcode⟩ : ∃ parsed t,
      parse (.ofTokens rebindingTokens) (.fresh (fun _ => 0) false) = .ok parsed t ∧
        (check { parsed with unused := none } t).failure = none ∧
        localPlaces (check parsed t).table.vars =
          [.local "a" 1, .local "a" 2, .local "x" 3, .local "x" 4, .local "y" 5] ∧
        (∃ fn ∈ parsed.program.functions, fn.name = "main") ∧
        ∀ start ∈ codeAt (.function "main")
            (generate false (check parsed t).table (check parsed t).program).code,
          (∀ i ∈ start.take 12, i.continues = true) ∧
            (start.drop 12).head? = some (.push (.place (.local "x" 4))) := by
    decide +kernel
  obtain ⟨hdefs, -, hfuncs⟩ :=
    generate_initialises_locals _ _ _ parsed t hparse hcheck false
  obtain ⟨start, hstart, -, hwrites⟩ := hfuncs fn hfn
  rw [hname] at hstart
  obtain ⟨hfront, hread⟩ := hcode start hstart
  obtain ⟨k, hread⟩ := head?_eq_some_iff.mp hread
  have htrail : Trail (generate false (check parsed t).table (check parsed t).program).code
      (start.take 12 ++ start.drop 12) (start.take 12) (start.drop 12) :=
    trail_of_continues hfront
  rw [take_append_drop, hread] at htrail
  refine ⟨parsed, t, hparse, hcheck, hdefs.trans hvars, start, _, k, hstart, htrail, ?_⟩
  exact hwrites _ _ _ htrail _ mem_cons_self rfl

end Machine

end Ifj24
