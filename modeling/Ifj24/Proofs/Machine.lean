import Ifj24.Proofs.Meaning

/-!
The machine that runs IFJcode24. It holds the code that is left to run, a stack of return
addresses, the data stack and frames of variables; a jump goes on at a label of the whole
program. A call of a built-in function is one step here, so the instructions that only
built-in functions use have no step.
-/

namespace Ifj24.Machine

open Code Meaning

abbrev Frame := Place → Option (Option Constant)

namespace Frame

def empty : Frame := fun _ => none

def set (f : Frame) (p : Place) (v : Option Constant) : Frame :=
  fun q => if q = p then some v else f q

@[simp] theorem set_self (f : Frame) (p : Place) (v : Option Constant) : f.set p v p = some v := by
  simp [set]

theorem set_of_ne (f : Frame) (v : Option Constant) (h : q ≠ p) :
    f.set p v q = f q := by
  simp [set, h]

end Frame

structure State where
  /-- What is left to run. -/
  code : List Instr
  /-- Where to go on after returning, the latest call first. -/
  calls : List (List Instr)
  /-- The top is first. -/
  data : List Constant
  /-- The frame that is being prepared, or that was left last. -/
  temporary : Option Frame
  /-- The stack of frames, the one in use first. -/
  frames : List Frame
  globals : Frame
  history : History

namespace State

def load (s : State) (p : Place) : Option Constant :=
  match p, s.frames with
  | .discard, _ => (s.globals .discard).join
  | _, [] => none
  | p, f :: _ => (f p).join

/-- Whether the variable exists that takes what a program throws away. -/
def ready (s : State) : Bool := (s.globals .discard).isSome

def store (s : State) (p : Place) (c : Constant) : Option State :=
  match p, s.frames with
  | .discard, _ =>
    if s.ready then
      some { s with globals := s.globals.set .discard (some c) }
    else none
  | _, [] => none
  | p, f :: rest =>
    if (f p).isSome then some { s with frames := f.set p (some c) :: rest } else none

def define (s : State) (p : Place) : Option State :=
  match p, s.frames with
  | .discard, _ => some { s with globals := s.globals.set .discard none }
  | _, [] => none
  | p, f :: rest => some { s with frames := f.set p none :: rest }

def read (s : State) : Source → Option Constant
  | .constant c => some c
  | .place p => s.load p

end State

open State

section

variable (I : Interp)

def numeric (op : Arith) : Constant → Constant → Option Constant
  | .int x, .int y => (I.int op x y).map .int
  | .float x, .float y => (I.float op x y).map .float
  | _, _ => none

/-- What an operation makes of the data stack. Integers have a division of their own. -/
def operate : StackOp → List Constant → Option (List Constant)
  | .add, b :: a :: rest => (numeric I .add a b).map (· :: rest)
  | .sub, b :: a :: rest => (numeric I .sub a b).map (· :: rest)
  | .mul, b :: a :: rest => (numeric I .mul a b).map (· :: rest)
  | .div, .float y :: .float x :: rest => (I.float .div x y).map (.float · :: rest)
  | .idiv, .int y :: .int x :: rest => (I.int .div x y).map (.int · :: rest)
  | .eq, b :: a :: rest => (I.eq a b).map (.bool · :: rest)
  | .lt, b :: a :: rest => (I.lt a b).map (.bool · :: rest)
  | .gt, b :: a :: rest => (I.gt a b).map (.bool · :: rest)
  | .not, .bool b :: rest => some (.bool (!b) :: rest)
  | _, _ => none

/-- Whether a jump takes two values for equal. Null equals nothing but itself. -/
def same : Constant → Constant → Option Bool
  | .nil, b => some (b == .nil)
  | a, .nil => some (a == .nil)
  | .bool a, .bool b => some (a == b)
  | a, b => I.eq a b

def codeAt (l : Label) : List Instr → Option (List Instr)
  | [] => none
  | i :: rest => if i = .label l then some (i :: rest) else codeAt l rest

/-- Takes the arguments of a built-in function, the last of which is on top, and leaves its
result. -/
def State.callBuiltin (s : State) (b : Builtin) : Option State :=
  if s.data.length < b.params then none
  else
    let args := (s.data.take b.params).reverse
    (I.builtin s.history b args).map fun r =>
      { s with data := r.toList ++ s.data.drop b.params, history := ⟨b, args⟩ :: s.history }

def State.jump (s : State) (program : List Instr) (l : Label) : Option State :=
  (codeAt l program).map fun code => { s with code }

def execute (program : List Instr) (i : Instr) (s : State) : Option State :=
  match i with
  | .label _ => some s
  | .jump l => s.jump program l
  | .jumpIfEqs l =>
    match s.data with
    | b :: a :: data => do
      let equal ← same I a b
      if equal then jump { s with data } program l else some { s with data }
    | _ => none
  | .call (.builtin b) => s.callBuiltin I b
  | .call l => jump { s with calls := s.code :: s.calls } program l
  | .return =>
    match s.calls with
    | code :: calls => some { s with code, calls }
    | [] => none
  | .createFrame => some { s with temporary := some .empty }
  | .pushFrame => s.temporary.map fun f => { s with temporary := none, frames := f :: s.frames }
  | .popFrame =>
    match s.frames with
    | f :: frames => some { s with temporary := some f, frames }
    | [] => none
  | .defVar p => s.define p
  | .move p a => do s.store p (← s.read a)
  | .push a => (s.read a).map fun c => { s with data := c :: s.data }
  | .pop p =>
    match s.data with
    | c :: data => store { s with data } p c
    | [] => none
  | .stack op => (operate I op s.data).map fun data => { s with data }
  | _ => none

def step (program : List Instr) (s : State) : Option State :=
  match s.code with
  | [] => none
  | i :: code => execute I program i { s with code }

inductive Reaches (program : List Instr) : State → State → Prop
  | refl {s : State} : Reaches program s s
  | step {s s' s'' : State} (hstep : step I program s = some s') (hrest : Reaches program s' s'') :
    Reaches program s s''

end

section

variable {I : Interp} {program : List Instr} {s s' s'' : State}

theorem Reaches.trans (h : Reaches I program s s') (h' : Reaches I program s' s'') :
    Reaches I program s s'' := by
  induction h with
  | refl => exact h'
  | step hstep _ ih => exact .step hstep (ih h')

theorem Reaches.execute (hcode : s.code = i :: k)
    (hi : execute I program i { s with code := k } = some s') (h : Reaches I program s' s'') :
    Reaches I program s s'' := by
  refine .step ?_ h
  rw [Machine.step, hcode]
  exact hi

theorem Reaches.one (hcode : s.code = i :: k)
    (hi : Machine.execute I program i { s with code := k } = some s') : Reaches I program s s' :=
  .execute hcode hi .refl

end

section

variable {I : Interp} {program : List Instr} {s s' : State}

theorem State.ready_of_store (h : s.store p c = some s')
    (hs : s.ready = true) : s'.ready = true := by
  unfold store at h
  split at h
  · rw [if_pos hs] at h
    cases h
    simp [ready]
  · cases h
  · split at h
    · cases h
      exact hs
    · cases h

theorem State.ready_of_define (h : s.define p = some s') (hs : s.ready = true) :
    s'.ready = true := by
  unfold define at h
  split at h
  · cases h
    simp [ready]
  · cases h
  · cases h
    exact hs

theorem State.ready_of_jump (h : s.jump program l = some s') (hs : s.ready = true) :
    s'.ready = true := by
  obtain ⟨code, -, rfl⟩ := Option.map_eq_some_iff.mp h
  exact hs

/-- No instruction takes the variable away. -/
theorem ready_of_execute (h : execute I program i s = some s')
    (hs : s.ready = true) : s'.ready = true := by
  cases i with
  | label l =>
    cases h
    exact hs
  | jump l => exact ready_of_jump h hs
  | jumpIfEqs l =>
    simp only [execute] at h
    split at h
    · obtain ⟨equal, -, h⟩ := Option.bind_eq_some_iff.mp h
      split at h
      · exact ready_of_jump h hs
      · cases h
        exact hs
    · cases h
  | call l =>
    cases l with
    | builtin b =>
      simp only [execute, callBuiltin] at h
      split at h
      · cases h
      · obtain ⟨r, -, rfl⟩ := Option.map_eq_some_iff.mp h
        exact hs
    | function name => exact ready_of_jump h hs
    | flow owner tag n => exact ready_of_jump h hs
    | inside b name => exact ready_of_jump h hs
  | «return» =>
    simp only [execute] at h
    split at h
    · cases h
      exact hs
    · cases h
  | createFrame =>
    cases h
    exact hs
  | pushFrame =>
    obtain ⟨f, -, rfl⟩ := Option.map_eq_some_iff.mp h
    exact hs
  | popFrame =>
    simp only [execute] at h
    split at h
    · cases h
      exact hs
    · cases h
  | defVar p => exact ready_of_define h hs
  | move p a =>
    obtain ⟨c, -, h⟩ := Option.bind_eq_some_iff.mp h
    exact ready_of_store h hs
  | push a =>
    obtain ⟨c, -, rfl⟩ := Option.map_eq_some_iff.mp h
    exact hs
  | pop p =>
    simp only [execute] at h
    split at h
    · exact ready_of_store h hs
    · cases h
  | stack op =>
    obtain ⟨data, -, rfl⟩ := Option.map_eq_some_iff.mp h
    exact hs
  | _ => cases h

theorem ready_of_step (h : step I program s = some s') (hs : s.ready = true) :
    s'.ready = true := by
  unfold step at h
  split at h
  · cases h
  · exact ready_of_execute h hs

theorem Reaches.ready (h : Reaches I program s s') (hs : s.ready = true) : s'.ready = true := by
  induction h with
  | refl => exact hs
  | step hstep _ ih => exact ih (ready_of_step hstep hs)

theorem Reaches.ready_of_start {k : List Instr} (h : Reaches I program s s')
    (hcode : s.code = .defVar .discard :: k) : s' = s ∨ s'.ready = true := by
  cases h with
  | refl => exact .inl rfl
  | step hstep hrest =>
    rw [Machine.step, hcode] at hstep
    cases hstep
    exact .inr (hrest.ready (by simp [State.ready]))

end

section

def label? : Instr → Option Label
  | .label l => some l
  | _ => none

def labels (code : List Instr) : List Label := code.filterMap label?

@[simp] theorem labels_append (code code' : List Instr) :
    labels (code ++ code') = labels code ++ labels code' := by
  simp [labels]

theorem codeAt_of_nodup {k : List Instr} (h : (labels (pre ++ .label l :: k)).Nodup) :
    codeAt l (pre ++ .label l :: k) = some (.label l :: k) := by
  induction pre with
  | nil => simp [codeAt]
  | cons i pre ih =>
    have htail : (labels (pre ++ .label l :: k)).Nodup :=
      h.sublist ((List.sublist_cons_self i _).filterMap label?)
    have hne : i ≠ .label l := by
      rintro rfl
      have hmem : l ∈ labels (pre ++ .label l :: k) := by simp [labels, label?]
      have hnot : l ∉ labels (pre ++ .label l :: k) := (List.nodup_cons.mp h).1
      exact hnot hmem
    rw [List.cons_append, codeAt, if_neg hne]
    exact ih htail

theorem suffix_of_codeAt {program k : List Instr} (h : codeAt l program = some k) :
    k <:+ program := by
  induction program with
  | nil => cases h
  | cons i rest ih =>
    rw [codeAt] at h
    split at h
    · cases h
      exact List.suffix_refl _
    · exact (ih h).trans (List.suffix_cons i rest)

end

end Ifj24.Machine
