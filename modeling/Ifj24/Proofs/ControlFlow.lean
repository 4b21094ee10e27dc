import Ifj24.Proofs.Layout

/-!
The control flow of one function. A path goes from instruction to instruction and takes
either way at a conditional jump, whatever the values; a call is one edge, and a path ends
at a return. Only the data stack is followed. The machine takes an edge with every step that
neither calls nor returns.

A point is safe for a number of steps if no path of that length comes to a point that breaks
a given rule. Loops are dealt with by induction on that number.
-/

open List

namespace Ifj24

def FuncDef.hasResult (f : FuncDef) : Bool := f.result != .void

namespace Machine

open Code Meaning

section

/-- A point in the code with what is on the data stack there, the top first. -/
structure Point where
  code : List Instr
  data : List Constant

abbrev Calls := Bytes → List Constant → List Constant → Prop

def Leaves (hasResult : Bool) (base data : List Constant) : Prop :=
  if hasResult then ∃ c, data = c :: base else data = base

theorem leaves_iff {hasResult : Bool} :
    Leaves hasResult base data ↔ ∃ left, left.length = hasResult.toNat ∧ data = left ++ base := by
  cases hasResult with
  | false => simp [Leaves]
  | true =>
    constructor
    · rintro ⟨c, rfl⟩
      exact ⟨[c], rfl, rfl⟩
    · rintro ⟨left, hleft, rfl⟩
      obtain ⟨c, rfl⟩ := length_eq_one_iff.mp hleft
      exact ⟨c, rfl⟩

theorem exists_leaves (hasResult : Bool) (base : List Constant) :
    ∃ data, Leaves hasResult base data :=
  ⟨_, leaves_iff.mpr ⟨replicate hasResult.toNat .nil, length_replicate, rfl⟩⟩

def operands? : StackOp → Option Nat
  | .add | .sub | .mul | .div | .idiv | .lt | .gt | .eq => some 2
  | .not => some 1
  | .intToFloat | .floatToInt | .intToChar => none

variable (program : List Instr) (calls : Calls)

/-- The edges of the control flow. Values that are computed or read may be any. -/
inductive Edge : Point → Point → Prop
  | label {l : Label} {k : List Instr} : Edge ⟨.label l :: k, d⟩ ⟨k, d⟩
  | jump {l : Label} {k k' : List Instr} (h : codeAt l program = some k') :
    Edge ⟨.jump l :: k, d⟩ ⟨k', d⟩
  | skip {l : Label} {k : List Instr} : Edge ⟨.jumpIfEqs l :: k, b :: a :: d⟩ ⟨k, d⟩
  | branch {l : Label} {k k' : List Instr} (h : codeAt l program = some k') :
    Edge ⟨.jumpIfEqs l :: k, b :: a :: d⟩ ⟨k', d⟩
  | builtin {b : Builtin} {k : List Instr} {args d d' : List Constant}
      (hargs : args.length = b.params) (hd : Leaves b.hasResult d d') :
    Edge ⟨.call (.builtin b) :: k, args ++ d⟩ ⟨k, d'⟩
  | call {name : Bytes} {k : List Instr} {d d' : List Constant} (h : calls name d d') :
    Edge ⟨.call (.function name) :: k, d⟩ ⟨k, d'⟩
  | createFrame {k : List Instr} : Edge ⟨.createFrame :: k, d⟩ ⟨k, d⟩
  | pushFrame {k : List Instr} : Edge ⟨.pushFrame :: k, d⟩ ⟨k, d⟩
  | popFrame {k : List Instr} : Edge ⟨.popFrame :: k, d⟩ ⟨k, d⟩
  | defVar {p : Place} {k : List Instr} : Edge ⟨.defVar p :: k, d⟩ ⟨k, d⟩
  | move {p : Place} {k : List Instr} : Edge ⟨.move p a :: k, d⟩ ⟨k, d⟩
  | push {a : Source} {k : List Instr} {c : Constant} {d : List Constant} :
    Edge ⟨.push a :: k, d⟩ ⟨k, c :: d⟩
  | pop {p : Place} {k : List Instr} : Edge ⟨.pop p :: k, c :: d⟩ ⟨k, d⟩
  | stack {op : StackOp} {k : List Instr} {args d : List Constant} {c : Constant}
      (hop : operands? op = some args.length) :
    Edge ⟨.stack op :: k, args ++ d⟩ ⟨k, c :: d⟩

inductive Path : Point → Point → Prop
  | refl {p : Point} : Path p p
  | step {p q r : Point} (hedge : Edge program calls p q) (hrest : Path q r) : Path p r

end

section

variable {I : Interp} {program : List Instr} {calls : Calls} {s s' : State}

theorem edge_of_operate {k : List Instr} (h : operate I op d = some d') :
    Edge program calls ⟨.stack op :: k, d⟩ ⟨k, d'⟩ := by
  have two {a b c : Constant} {rest : List Constant} (hop : operands? op = some 2) :
      Edge program calls ⟨.stack op :: k, b :: a :: rest⟩ ⟨k, c :: rest⟩ :=
    @Edge.stack program calls op k [b, a] rest c hop
  unfold operate at h
  split at h
  case h_9 =>
    cases h
    exact @Edge.stack program calls .not k [_] _ _ rfl
  case h_10 => cases h
  all_goals
    obtain ⟨c, -, rfl⟩ := Option.map_eq_some_iff.mp h
    exact two rfl

theorem State.code_of_store {p : Place} (h : s.store p c = some s') :
    s'.code = s.code ∧ s'.data = s.data := by
  unfold State.store at h
  split at h
  · split at h
    · cases h
      exact ⟨rfl, rfl⟩
    · cases h
  · cases h
  · split at h
    · cases h
      exact ⟨rfl, rfl⟩
    · cases h

theorem State.code_of_define {p : Place} (h : s.define p = some s') :
    s'.code = s.code ∧ s'.data = s.data := by
  unfold State.define at h
  split at h
  · cases h
    exact ⟨rfl, rfl⟩
  · cases h
  · cases h
    exact ⟨rfl, rfl⟩

/-- A step that neither calls nor returns is an edge. -/
theorem edge_of_step (h : step I program s = some s') (hcalls : s'.calls = s.calls) :
    Edge program calls ⟨s.code, s.data⟩ ⟨s'.code, s'.data⟩ := by
  unfold step at h
  split at h
  · cases h
  rename_i i k hcode
  rw [hcode]
  cases i with
  | label l =>
    cases h
    exact .label
  | jump l =>
    obtain ⟨k', hl, rfl⟩ := Option.map_eq_some_iff.mp h
    exact .jump hl
  | jumpIfEqs l =>
    simp only [execute] at h
    split at h
    · rename_i b a d hdata
      rw [hdata]
      obtain ⟨equal, -, h⟩ := Option.bind_eq_some_iff.mp h
      split at h
      · obtain ⟨k', hl, rfl⟩ := Option.map_eq_some_iff.mp h
        exact .branch hl
      · cases h
        exact .skip
    · cases h
  | call l =>
    cases l with
    | builtin b =>
      simp only [execute, State.callBuiltin] at h
      split at h
      · cases h
      · rename_i hparams
        obtain ⟨r, hr, rfl⟩ := Option.map_eq_some_iff.mp h
        have hargs : (s.data.take b.params).length = b.params :=
          length_take_of_le (Nat.le_of_not_lt hparams)
        have hleaves : Leaves b.hasResult (s.data.drop b.params)
            (r.toList ++ s.data.drop b.params) := by
          rw [← I.isSome_builtin _ _ _ _ hr]
          exact leaves_iff.mpr ⟨r.toList, by cases r <;> rfl, rfl⟩
        have hedge : Edge program calls
            ⟨.call (.builtin b) :: k, s.data.take b.params ++ s.data.drop b.params⟩ _ :=
          .builtin hargs hleaves
        rwa [take_append_drop] at hedge
    | _ =>
      -- The return address has been put on the stack of calls.
      obtain ⟨k', -, rfl⟩ := Option.map_eq_some_iff.mp h
      exact absurd hcalls (cons_ne_self _ _)
  | «return» =>
    simp only [execute] at h
    split at h
    · rename_i k' rest hrest
      cases h
      rw [hrest] at hcalls
      exact absurd hcalls.symm (cons_ne_self _ _)
    · cases h
  | createFrame =>
    cases h
    exact .createFrame
  | pushFrame =>
    obtain ⟨f, -, rfl⟩ := Option.map_eq_some_iff.mp h
    exact .pushFrame
  | popFrame =>
    simp only [execute] at h
    split at h
    · cases h
      exact .popFrame
    · cases h
  | defVar p =>
    obtain ⟨hcode', hdata⟩ := State.code_of_define h
    rw [hcode', hdata]
    exact .defVar
  | move p a =>
    obtain ⟨c, -, h⟩ := Option.bind_eq_some_iff.mp h
    obtain ⟨hcode', hdata⟩ := State.code_of_store h
    rw [hcode', hdata]
    exact .move
  | push a =>
    obtain ⟨c, -, rfl⟩ := Option.map_eq_some_iff.mp h
    exact .push
  | pop p =>
    simp only [execute] at h
    split at h
    · rename_i c d hd
      obtain ⟨hcode', hdata⟩ := State.code_of_store h
      rw [hcode', hdata, hd]
      exact .pop
    · cases h
  | stack op =>
    obtain ⟨d, hd, rfl⟩ := Option.map_eq_some_iff.mp h
    exact edge_of_operate hd
  | _ => cases h

end

section

/-- A call does what the signature of the function says: the arguments are taken and the
result is left. -/
def Signed (t : Table) : Calls := fun name d d' =>
  ∃ f args rest, t.lookupFunction? name = some f ∧ d = args ++ rest ∧
    args.length = f.params.length ∧ Leaves f.hasResult rest d'

/-- A call of a function, as its control flow is looked at. -/
structure Activation where
  program : List Instr
  calls : Calls
  hasResult : Bool
  /-- The data stack without the arguments. -/
  base : List Constant
  /-- The code behind that of the function. -/
  after : List Instr
  /-- Whether the end of the body may be reached. -/
  ends : Prop

namespace Activation

/-- The rule of a function. At its last instruction, which is reached only at the end of the
body, the data stack is that of the call without the arguments. At every other return it has
the result of the function on top of that. Everywhere else the next instruction gets along
with the values that the function itself has put on the data stack. -/
structure Orderly (A : Activation) (p : Point) : Prop where
  closing : p.code = .return :: A.after → A.ends ∧ p.data = A.base
  returning : ∀ k, p.code = .return :: k → k ≠ A.after → Leaves A.hasResult A.base p.data
  going : (∀ k, p.code ≠ .return :: k) →
    ∃ own, p.data = own ++ A.base ∧ ∃ q, Edge A.program A.calls ⟨p.code, own⟩ q

/-- Every point on a path of at most `n` edges keeps to the rule. -/
def Safe (A : Activation) : Nat → Point → Prop
  | 0, p => A.Orderly p
  | n + 1, p => A.Orderly p ∧ ∀ q, Edge A.program A.calls p q → A.Safe n q

/-- From one end of the code to the other some values on the data stack are replaced by
others, as many as given. -/
def Turns (A : Activation) (code : List Instr) (before behind : Nat) : Prop :=
  ∀ n k taken own, taken.length = before →
    (∀ left, left.length = behind → A.Safe n ⟨k, left ++ (own ++ A.base)⟩) →
    A.Safe n ⟨code ++ k, taken ++ (own ++ A.base)⟩

variable {A : Activation} {p q : Point} {n : Nat} {k : List Instr}

theorem Safe.orderly (h : A.Safe n p) : A.Orderly p := by
  cases n with
  | zero => exact h
  | succ n => exact h.1

theorem Safe.of_succ (h : A.Safe (n + 1) p) : A.Safe n p := by
  induction n generalizing p with
  | zero => exact h.1
  | succ n ih => exact ⟨h.1, fun q hq => ih (h.2 q hq)⟩

theorem orderly_of_path (h : ∀ n, A.Safe n p) (hpath : Path A.program A.calls p q) :
    A.Orderly q := by
  induction hpath with
  | refl => exact (h 0).orderly
  | step hedge _ ih => exact ih fun n => (h (n + 1)).2 _ hedge

theorem safe_before {i : Instr} {own : List Constant} (hi : i ≠ .return)
    (hgoes : ∃ q, Edge A.program A.calls ⟨i :: k, own⟩ q)
    (hnext : ∀ m q, n = m + 1 → Edge A.program A.calls ⟨i :: k, own ++ A.base⟩ q → A.Safe m q) :
    A.Safe n ⟨i :: k, own ++ A.base⟩ := by
  have horderly : A.Orderly ⟨i :: k, own ++ A.base⟩ := by
    constructor
    case closing =>
      intro hcode
      exact absurd (List.cons.inj hcode).1 hi
    case returning =>
      intro k' hcode
      exact absurd (List.cons.inj hcode).1 hi
    case going =>
      intro _
      exact ⟨own, rfl, hgoes⟩
  cases n with
  | zero => exact horderly
  | succ n => exact ⟨horderly, fun q hq => hnext n q rfl hq⟩

theorem safe_step {i : Instr} {own : List Constant} (hi : i ≠ .return)
    (hgoes : ∃ q, Edge A.program A.calls ⟨i :: k, own⟩ q)
    (hnext : ∀ q, Edge A.program A.calls ⟨i :: k, own ++ A.base⟩ q → A.Safe n q) :
    A.Safe n ⟨i :: k, own ++ A.base⟩ := by
  refine safe_before hi hgoes fun m q hm hq => ?_
  have hq := hnext q hq
  rw [hm] at hq
  exact hq.of_succ

section

variable {code : List Instr} {l : Nat}

theorem turns_nil (A : Activation) (m : Nat) : A.Turns [] m m :=
  fun _ _ taken _ htaken hk => hk taken htaken

theorem Turns.safe (h : A.Turns code 0 m)
    (hk : ∀ left, left.length = m → A.Safe n ⟨k, left ++ A.base⟩) :
    A.Safe n ⟨code ++ k, A.base⟩ := h n k [] [] rfl hk

theorem Turns.safe_zero (h : A.Turns code 0 0) (hk : A.Safe n ⟨k, A.base⟩) :
    A.Safe n ⟨code ++ k, A.base⟩ := by
  refine h.safe fun left hleft => ?_
  obtain rfl := eq_nil_of_length_eq_zero hleft
  exact hk

theorem Turns.append (h : A.Turns code l m) (h' : A.Turns code' m j) :
    A.Turns (code ++ code') l j := by
  intro n k taken own htaken hk
  rw [append_assoc]
  exact h n (code' ++ k) taken own htaken fun left hleft => h' n k left own hleft hk

theorem Turns.above (h : A.Turns code l m) (j : Nat) : A.Turns code (l + j) (m + j) := by
  intro n k taken own htaken hk
  have hsplit : taken.take l ++ taken.drop l = taken := take_append_drop l taken
  have hlen : (taken.take l).length = l := by
    rw [length_take]
    omega
  rw [← hsplit, append_assoc, ← append_assoc (taken.drop l)]
  refine h n k _ _ hlen fun left hleft => ?_
  rw [append_assoc, ← append_assoc left]
  refine hk _ ?_
  rw [length_append, length_drop, hleft, htaken]
  omega

theorem turns_of_edges {i : Instr} (hi : i ≠ .return)
    (hgoes : ∀ k taken own, taken.length = l → ∃ q, Edge A.program A.calls ⟨i :: k, taken ++ own⟩ q)
    (honly : ∀ k taken d q, taken.length = l → Edge A.program A.calls ⟨i :: k, taken ++ d⟩ q →
      ∃ left, left.length = m ∧ q = ⟨k, left ++ d⟩) : A.Turns [i] l m := by
  intro n k taken own htaken hk
  rw [← append_assoc]
  refine safe_step hi (hgoes k taken own htaken) fun q hq => ?_
  rw [append_assoc] at hq
  obtain ⟨left, hleft, rfl⟩ := honly k taken _ q htaken hq
  exact hk left hleft

inductive Silent : Instr → Prop
  | label (l : Label) : Silent (.label l)
  | createFrame : Silent .createFrame
  | pushFrame : Silent .pushFrame
  | popFrame : Silent .popFrame
  | defVar {p : Place} : Silent (.defVar p)
  | move {p : Place} : Silent (.move p a)

theorem turns_silent (A : Activation) (h : Silent i) : A.Turns [i] 0 0 := by
  refine turns_of_edges (by rintro rfl; cases h) ?_ ?_
  · exact fun k taken own _ => ⟨⟨k, taken ++ own⟩, by cases h <;> constructor⟩
  · intro k taken d q htaken hq
    obtain rfl := eq_nil_of_length_eq_zero htaken
    exact ⟨[], rfl, by cases h <;> cases hq <;> rfl⟩

theorem turns_push (A : Activation) (a : Source) : A.Turns [.push a] 0 1 := by
  refine turns_of_edges nofun (fun k taken own _ => ⟨⟨k, .nil :: (taken ++ own)⟩, .push⟩) ?_
  intro k taken d q htaken hq
  obtain rfl := eq_nil_of_length_eq_zero htaken
  cases hq with
  | @push _ _ c _ => exact ⟨[c], rfl, rfl⟩

theorem turns_pop (A : Activation) (p : Place) : A.Turns [.pop p] 1 0 := by
  refine turns_of_edges nofun ?_ ?_
  · intro k taken own htaken
    obtain ⟨c, rfl⟩ := length_eq_one_iff.mp htaken
    exact ⟨⟨k, own⟩, .pop⟩
  · intro k taken d q htaken hq
    obtain ⟨c, rfl⟩ := length_eq_one_iff.mp htaken
    cases hq with
    | pop => exact ⟨[], rfl, rfl⟩

theorem turns_stack (A : Activation) (hop : operands? op = some m) : A.Turns [.stack op] m 1 := by
  refine turns_of_edges nofun ?_ ?_
  · exact fun k taken own htaken => ⟨⟨k, .nil :: own⟩, .stack (htaken ▸ hop)⟩
  · intro k taken d q htaken hq
    generalize hdata : taken ++ d = data at hq
    cases hq with
    | @stack _ _ args _ c hop' =>
      obtain rfl := Option.some.inj (hop.symm.trans hop')
      obtain ⟨-, rfl⟩ := append_inj hdata htaken
      exact ⟨[c], rfl, rfl⟩

theorem turns_builtin (A : Activation) (b : Builtin) :
    A.Turns [.call (.builtin b)] b.params b.hasResult.toNat := by
  refine turns_of_edges nofun ?_ ?_
  · intro k taken own htaken
    obtain ⟨d', hleaves⟩ := exists_leaves b.hasResult own
    exact ⟨_, .builtin htaken hleaves⟩
  · intro k taken d q htaken hq
    generalize hdata : taken ++ d = data at hq
    cases hq with
    | builtin hargs hleaves =>
      obtain ⟨-, rfl⟩ := append_inj hdata (htaken.trans hargs.symm)
      obtain ⟨left, hleft, rfl⟩ := leaves_iff.mp hleaves
      exact ⟨left, hleft, rfl⟩

theorem turns_call {t : Table} {name : Bytes} {f : FuncDef} (hcalls : A.calls = Signed t)
    (hf : t.lookupFunction? name = some f) :
    A.Turns [.call (.function name)] f.params.length f.hasResult.toNat := by
  refine turns_of_edges nofun ?_ ?_ <;> rw [hcalls]
  · intro k taken own htaken
    obtain ⟨d', hleaves⟩ := exists_leaves f.hasResult own
    exact ⟨⟨k, d'⟩, .call ⟨f, taken, own, hf, rfl, htaken, hleaves⟩⟩
  · intro k taken d q htaken hq
    generalize hdata : taken ++ d = data at hq
    cases hq with
    | call h =>
      obtain ⟨g, args, rest, hg, hdata', hargs, hleaves⟩ := h
      obtain rfl : g = f := Option.some.inj (hg.symm.trans hf)
      obtain ⟨-, rfl⟩ := append_inj (hdata.trans hdata') (htaken.trans hargs.symm)
      obtain ⟨left, hleft, rfl⟩ := leaves_iff.mp hleaves
      exact ⟨left, hleft, rfl⟩

end

section

variable {l : Label} {k' : List Instr}

theorem safe_jump (hl : codeAt l A.program = some k')
    (hk : ∀ m, n = m + 1 → A.Safe m ⟨k', A.base⟩) : A.Safe n ⟨.jump l :: k, A.base⟩ := by
  refine @safe_before A n k (.jump l) [] nofun ⟨_, .jump hl⟩ fun m q hm hq => ?_
  cases hq with
  | jump hl' =>
    obtain rfl := Option.some.inj (hl.symm.trans hl')
    exact hk m hm

theorem safe_jumpIfEqs (hleft : left.length = 2)
    (hl : codeAt l A.program = some k') (hk : A.Safe n ⟨k, A.base⟩)
    (hk' : A.Safe n ⟨k', A.base⟩) : A.Safe n ⟨.jumpIfEqs l :: k, left ++ A.base⟩ := by
  match left, hleft with
  | [b, a], _ =>
    refine @safe_step A n k (.jumpIfEqs l) [b, a] nofun ⟨_, .skip⟩ fun q hq => ?_
    cases hq with
    | skip => exact hk
    | branch hl' =>
      obtain rfl := Option.some.inj (hl.symm.trans hl')
      exact hk'

theorem safe_of_return (h : A.Orderly ⟨.return :: k, d⟩) : A.Safe n ⟨.return :: k, d⟩ := by
  cases n with
  | zero => exact h
  | succ n => exact ⟨h, fun q hq => nomatch hq⟩

theorem safe_return (hk : k ≠ A.after) (hd : Leaves A.hasResult A.base d) :
    A.Safe n ⟨.return :: k, d⟩ := by
  apply safe_of_return
  constructor
  case closing =>
    intro hcode
    exact absurd (List.cons.inj hcode).2 hk
  case returning =>
    intro _ _ _
    exact hd
  case going =>
    intro hcode
    exact absurd rfl (hcode k)

theorem safe_closing (hends : A.ends) : A.Safe n ⟨.return :: A.after, A.base⟩ := by
  apply safe_of_return
  constructor
  case closing =>
    intro _
    exact ⟨hends, rfl⟩
  case returning =>
    intro k hcode hk
    exact absurd (List.cons.inj hcode).2.symm hk
  case going =>
    intro hcode
    exact absurd rfl (hcode A.after)

end

end Activation

end

end Machine

end Ifj24
