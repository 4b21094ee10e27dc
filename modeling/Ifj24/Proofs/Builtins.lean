import Ifj24.Proofs.Processor
import Ifj24.Proofs.StackBalance

/-!
What the code of the built-in functions computes, and what it makes of its signatures. The code
runs in any program that has it once, on any data stack. `substring`, `strcmp` and `ord` have
reference functions, and the loop of `substring` is followed by induction on the bytes that are
left. Every function keeps to its signature in the catalog, apart from `string`, which passes on
what it is given, and `chr`, which takes bytes only.
-/

open List

namespace Ifj24.Processor

open Code Code.Builtin
open Machine (Frame labels codeAt)

variable {s : Bytes} {i : Int}

/-- The bytes from an index to before another, null if these are no range of the string. -/
def substring (s : Bytes) (i j : Int) : Constant :=
  if i < 0 ∨ j < 0 ∨ j < i ∨ s.length ≤ i ∨ s.length < j then .nil
  else .string ((s.drop i.toNat).take (j - i).toNat)

def strcmp (s t : Bytes) : Int := if s < t then -1 else if t < s then 1 else 0

def ord (s : Bytes) (i : Int) : Int := (byteAt s i).elim 0 fun b => b.toNat

theorem byteAt_eq_none (h : i < 0 ∨ s.length ≤ i) : byteAt s i = none := by
  unfold byteAt
  split
  · exact getElem?_eq_none (by omega)
  · rfl

theorem exists_byteAt (hi : 0 ≤ i) (hlt : i < s.length) :
    ∃ b, byteAt s i = some b ∧ s.drop i.toNat = b :: s.drop (i + 1).toNat := by
  have hbound : i.toNat < s.length := by omega
  refine ⟨s[i.toNat], ?_, ?_⟩
  · rw [byteAt, if_pos hi, getElem?_eq_getElem hbound]
  · rw [drop_eq_getElem_cons hbound, Int.toNat_add hi (by omega)]
    rfl

section

variable {P : Processor} {program : List Instr}
  {Q : List Constant → Prop} {f : Frame} {data : List Constant}

theorem codeAt_inside {b : Builtin} (hnodup : (labels program).Nodup)
    (hprog : program = pre ++ (builtinCode b ++ post))
    (hcode : codeAt l (builtinCode b) = some (.label l :: k)) :
    codeAt l program = some (.label l :: k ++ post) := by
  obtain ⟨front, hfront⟩ := Machine.suffix_of_codeAt hcode
  have hsplit : program = (pre ++ front) ++ .label l :: (k ++ post) := by
    rw [hprog, ← hfront]
    simp
  rw [hsplit] at hnodup ⊢
  exact Machine.codeAt_of_nodup hnodup

theorem ends_read (type : InputType)
    (h : ∀ line : Option Bytes, Q (line.elim .nil (fun line => P.valueOf line type) :: data)) :
    Ends P program base Q (readBody type ++ post) base data := by
  rw [readBody, append_assoc, append_assoc]
  refine .open_ (.read rfl fun line => ?_)
  exact .give rfl (h line)

theorem ends_length (s : Bytes) (h : Q (.int s.length :: data)) :
    Ends P program base Q (lengthBody ++ post) base (.string s :: data) := by
  rw [lengthBody, append_assoc, append_assoc]
  refine .open_ (.pop rfl (.strLen rfl rfl ?_))
  exact .give rfl h

theorem ends_concat (s t : Bytes) (h : Q (.string (s ++ t) :: data)) :
    Ends P program base Q (concatBody ++ post) base (.string t :: .string s :: data) := by
  rw [concatBody, append_assoc, append_assoc]
  refine .open_ (.pop rfl (.pop rfl (.binary rfl rfl rfl rfl ?_)))
  exact .give rfl h

theorem Ends.jumpIf [Decidable holds]
    (hb : (f (temp "b")).isSome = true) (hx : valueIn f x = some u) (hy : valueIn f y = some v)
    (hholds : P.binary op u v = some (.bool (decide holds))) (hl : codeAt l program = some k')
    (hjump : decide holds = when_ → Ends P program base Q k'
      (f.set (temp "b") (some (.bool (decide holds))) :: fs) data)
    (hstay : decide holds ≠ when_ → Ends P program base Q k
      (f.set (temp "b") (some (.bool (decide holds))) :: fs) data) :
    Ends P program base Q (jumpIf op x y when_ l ++ k) (f :: fs) data := by
  have hequal : P.equal (.bool (decide holds)) (.bool when_) = some (decide holds == when_) := rfl
  have hvalue : valueIn (f.set (temp "b") (some (.bool (decide holds)))) (get "b") =
      some (.bool (decide holds)) := by
    simp [valueIn, Builtin.get, temp]
  refine .binary hb hx hy hholds (.jumpIfEq hvalue rfl hequal hl ?_)
  by_cases hwhen : decide holds = when_
  · rw [if_pos (beq_iff_eq.mpr hwhen)]
    exact hjump hwhen
  · rw [if_neg (fun h => hwhen (beq_iff_eq.mp h))]
    exact hstay hwhen

theorem ends_write (hnodup : (labels program).Nodup)
    (hprog : program = pre ++ (builtinCode .write ++ post)) (c : Constant) (h : Q data) :
    Ends P program base Q (writeBody ++ post) base (c :: data) := by
  have hend : codeAt (.inside .write "end") program =
      some (.label (.inside .write "end") :: close ++ post) :=
    codeAt_inside hnodup hprog rfl
  have hvalue : codeAt (.inside .write "value") program =
      some (.label (.inside .write "value") :: .write (get "t") ::
        .label (.inside .write "end") :: close ++ post) :=
    codeAt_inside hnodup hprog rfl
  rw [writeBody, append_assoc, append_assoc]
  refine .open_ (.pop rfl (.typeOf rfl rfl ?_))
  refine .jumpIfNeq rfl rfl rfl hvalue ?_
  split
  · exact .write rfl (.jump hend (.label (.close h)))
  · exact .label (.write rfl (.label (.close h)))

theorem ends_strcmp (hnodup : (labels program).Nodup)
    (hprog : program = pre ++ (builtinCode .strcmp ++ post)) (s t : Bytes)
    (h : Q (.int (strcmp s t) :: data)) :
    Ends P program base Q (strcmpBody ++ post) base (.string t :: .string s :: data) := by
  have hless : codeAt (.inside .strcmp "lt") program =
      some (.label (.inside .strcmp "lt") :: (give (.constant (.int (-1))) ++
        .label (.inside .strcmp "gt") :: give (.constant (.int 1))) ++ post) :=
    codeAt_inside hnodup hprog rfl
  have hgreater : codeAt (.inside .strcmp "gt") program =
      some (.label (.inside .strcmp "gt") :: give (.constant (.int 1)) ++ post) :=
    codeAt_inside hnodup hprog rfl
  simp only [strcmpBody, append_assoc]
  refine .open_ (.pop rfl (.pop rfl (.jumpIf rfl rfl rfl rfl hless ?_ ?_)))
  · intro hlt
    refine .label (.give rfl ?_)
    rwa [strcmp, if_pos (of_decide_eq_true hlt)] at h
  · intro hlt
    refine .jumpIf rfl rfl rfl rfl hgreater (fun hgt => .label (.give rfl ?_))
      (fun hgt => .give rfl ?_)
    · rwa [strcmp, if_neg (by simpa using hlt), if_pos (of_decide_eq_true hgt)] at h
    · rwa [strcmp, if_neg (by simpa using hlt), if_neg (by simpa using hgt)] at h

theorem ends_ord (hnodup : (labels program).Nodup)
    (hprog : program = pre ++ (builtinCode .ord ++ post)) (s : Bytes) (i : Int)
    (h : Q (.int (ord s i) :: data)) :
    Ends P program base Q (ordBody ++ post) base (.int i :: .string s :: data) := by
  have hzero : codeAt (.inside .ord "zero") program =
      some (.label (.inside .ord "zero") :: give (.constant (.int 0)) ++ post) :=
    codeAt_inside hnodup hprog rfl
  simp only [ordBody, append_assoc]
  refine .open_ (.pop rfl (.pop rfl (.strLen rfl rfl ?_)))
  refine .jumpIf rfl rfl rfl rfl hzero (fun hneg => ?_) (fun hneg => ?_)
  · have hneg : i < 0 := of_decide_eq_true hneg
    rw [ord, byteAt_eq_none (.inl hneg)] at h
    exact .label (.give rfl h)
  have hnonneg : 0 ≤ i := by simpa using hneg
  refine .jumpIf rfl rfl rfl rfl hzero (fun hlt => ?_) (fun hlt => ?_)
  · have hge : (s.length : Int) ≤ i := by simpa using hlt
    rw [ord, byteAt_eq_none (.inr hge)] at h
    exact .label (.give rfl h)
  · have hlt : i < s.length := by simpa using hlt
    obtain ⟨b, hbyte, -⟩ := exists_byteAt hnonneg hlt
    have hcode : P.binary .charCode (.string s) (.int i) = some (.int b.toNat) := by
      simp only [Processor.binary, hbyte, Option.map_some]
    rw [ord, hbyte] at h
    exact .binary rfl rfl rfl hcode (.give rfl h)

def copyCode : List Instr :=
  [.label (.inside .substring "loop"),
    .jumpIfEq (.inside .substring "done") (get "i") (get "j"),
    .binary .getChar (temp "c") (get "s") (get "i"),
    .binary .concat (temp "r") (get "r") (get "c"),
    .binary .add (temp "i") (get "i") (.constant (.int 1)),
    .jump (.inside .substring "loop"),
    .label (.inside .substring "done")] ++
  give (get "r") ++ [.label (.inside .substring "null")] ++ give (.constant .nil)

/-- The variables while bytes are copied: `r` is the copy so far, and the byte at `i` is next. -/
structure Copies (f : Frame) (s r : Bytes) (i j : Int) : Prop where
  source : f (temp "s") = some (some (.string s))
  index : f (temp "i") = some (some (.int i))
  stop : f (temp "j") = some (some (.int j))
  copy : f (temp "r") = some (some (.string r))
  byte : (f (temp "c")).isSome = true

theorem valueIn_get {c : Constant} (h : f (temp x) = some (some c)) :
    valueIn f (get x) = some c :=
  congrArg Option.join h

theorem ends_copy (hnodup : (labels program).Nodup)
    (hprog : program = pre ++ (builtinCode .substring ++ post)) {s : Bytes} {i : Int}
    (n : Nat) (hf : Copies f s r i j) (hi : 0 ≤ i) (hj : j = i + n) (hlength : j ≤ s.length)
    (h : Q (.string (r ++ (s.drop i.toNat).take n) :: data)) :
    Ends P program base Q (copyCode ++ post) (f :: base) data := by
  have hloop : codeAt (.inside .substring "loop") program = some (copyCode ++ post) :=
    codeAt_inside hnodup hprog rfl
  have hdone : codeAt (.inside .substring "done") program =
      some (.label (.inside .substring "done") :: (give (get "r") ++
        .label (.inside .substring "null") :: give (.constant .nil)) ++ post) :=
    codeAt_inside hnodup hprog rfl
  induction n generalizing f r i with
  | zero =>
    have hequal : P.equal (.int i) (.int j) = some true := by
      simp [Processor.equal, hj]
    refine .label (.jumpIfEq (valueIn_get hf.index) (valueIn_get hf.stop) hequal hdone ?_)
    refine .label (.give (valueIn_get hf.copy) ?_)
    simpa using h
  | succ n ih =>
    -- the byte at `i` goes behind the copy, and the loop goes on at the next one
    have hequal : P.equal (.int i) (.int j) = some false := by
      have hne : i ≠ j := by omega
      simp [Processor.equal, hne]
    obtain ⟨b, hbyte, hdrop⟩ := exists_byteAt hi (show i < s.length by omega)
    have hget : P.binary .getChar (.string s) (.int i) = some (.string [b]) := by
      simp only [Processor.binary, hbyte, Option.map_some]
    refine .label (.jumpIfEq (valueIn_get hf.index) (valueIn_get hf.stop) hequal hdone ?_)
    refine .binary hf.byte (valueIn_get hf.source) (valueIn_get hf.index) hget ?_
    refine .binary (u := .string r) (c := .string (r ++ [b])) ?_ (valueIn_get ?_) rfl rfl ?_
    · exact congrArg Option.isSome hf.copy
    · exact hf.copy
    refine .binary (u := .int i) (c := .int (i + 1)) ?_ (valueIn_get ?_) rfl rfl (.jump hloop ?_)
    · exact congrArg Option.isSome hf.index
    · exact hf.index
    refine ih ⟨hf.source, rfl, hf.stop, rfl, rfl⟩ (by omega) (by omega) ?_
    rw [hdrop, take_succ_cons] at h
    simpa using h

theorem ends_substring (hnodup : (labels program).Nodup)
    (hprog : program = pre ++ (builtinCode .substring ++ post)) (s : Bytes) (i j : Int)
    (h : Q (substring s i j :: data)) :
    Ends P program base Q (substringBody ++ post) base
      (.int j :: .int i :: .string s :: data) := by
  have hnull : codeAt (.inside .substring "null") program =
      some (.label (.inside .substring "null") :: give (.constant .nil) ++ post) :=
    codeAt_inside hnodup hprog rfl
  -- every failed test leads to the same end
  have hfails (f : Frame) (hrange : i < 0 ∨ j < 0 ∨ j < i ∨ s.length ≤ i ∨ s.length < j) :
      Ends P program base Q (.label (.inside .substring "null") :: give (.constant .nil) ++ post)
        (f :: base) data := by
    rw [substring, if_pos hrange] at h
    exact .label (.give rfl h)
  simp only [substringBody, append_assoc]
  refine .open_ (.pop rfl (.pop rfl (.pop rfl (.strLen rfl rfl ?_))))
  refine .jumpIf rfl rfl rfl rfl hnull (fun hi => hfails _ ?_) (fun hi => ?_)
  · exact .inl (of_decide_eq_true hi)
  refine .jumpIf rfl rfl rfl rfl hnull (fun hj => hfails _ ?_) (fun hj => ?_)
  · exact .inr (.inl (of_decide_eq_true hj))
  refine .jumpIf rfl rfl rfl rfl hnull (fun hij => hfails _ ?_) (fun hij => ?_)
  · exact .inr (.inr (.inl (of_decide_eq_true hij)))
  refine .jumpIf rfl rfl rfl rfl hnull (fun hlen => hfails _ ?_) (fun hlen => ?_)
  · have hlen : (s.length : Int) ≤ i := by simpa using hlen
    exact .inr (.inr (.inr (.inl hlen)))
  refine .jumpIf rfl rfl rfl rfl hnull (fun hend => hfails _ ?_) (fun hend => ?_)
  · exact .inr (.inr (.inr (.inr (of_decide_eq_true hend))))
  simp only [ne_eq, decide_eq_true_eq, decide_eq_false_iff_not, Decidable.not_not]
    at hi hj hij hlen hend
  -- all tests are passed, and the copy is empty so far
  refine .move rfl rfl ?_
  refine ends_copy hnodup hprog (j - i).toNat
    ⟨rfl, rfl, rfl, rfl, rfl⟩ (by omega) (by omega) (by omega) ?_
  rwa [substring, if_neg (by omega)] at h

end

/-- Whether a value is of a type, by its tag alone: every integer is of type `i32`, which stands for
no range of 32 bits here. Null is of a type only if that allows null. -/
def inhabits : Constant → DataType → Bool → Bool
  | .nil, _, nullable => nullable
  | .int _, .i32, _ | .float _, .f64, _ | .string _, .u8, _ | .bool _, .bool, _ | _, .any, _ => true
  | _, _, _ => false

def accepts : List Param → List Constant → Bool
  | [], [] => true
  | p :: params, c :: args => inhabits c p.type p.nullable && accepts params args
  | _, _ => false

/-- Whether a function may leave this: a value of the type of its result, or nothing if it has no
result. -/
def gives (f : FuncDef) : Option Constant → Bool
  | none => f.result == .void
  | some c => f.result != .void && inhabits c f.result f.nullableResult

/-- What a function may have made of a data stack without its arguments. -/
def Leaves (f : FuncDef) (rest data : List Constant) : Prop :=
  ∃ r, gives f r = true ∧ data = r.toList ++ rest

/-- A run keeps to the signature of a function: it comes to a `RETURN`, frames, calls and global
variables are as they were, and the data stack is one that the function may leave. -/
def Honours (P : Processor) (program : List Instr) (f : FuncDef) (rest : List Constant)
    (s : State) : Prop :=
  ∃ s', P.Reaches program s s' ∧ Returned s.frames (Leaves f rest) s s'

/-- A program that has the code of a built-in function is at its start, with the arguments on the
data stack, the last on top. -/
structure Entered (program : List Instr) (b : Builtin) (args rest : List Constant)
    (s : State) : Prop where
  code : builtinCode b <:+: program
  nodup : (labels program).Nodup
  entry : codeAt (.builtin b) program = some s.code
  data : s.data = args.reverse ++ rest

/-- The arguments for which a built-in function keeps to its signature. -/
def serves : Builtin → List Constant → Bool
  | .string, args => args.all fun c => inhabits c .u8 false
  | .chr, [.int n] => decide (0 ≤ n ∧ n < 256)
  | _, _ => true

section

variable {c : Constant} {p : Param}

variable {P : Processor} {program : List Instr} {f : FuncDef}
  {b : Builtin} {args rest : List Constant} {s : State}

theorem exists_of_accepts_cons {params : List Param} (h : accepts (p :: params) args = true) :
    ∃ c cs, args = c :: cs ∧ inhabits c p.type p.nullable = true ∧ accepts params cs = true := by
  cases args with
  | nil => cases h
  | cons c cs => exact ⟨c, cs, rfl, Bool.and_eq_true_iff.mp h⟩

theorem eq_nil_of_accepts (h : accepts [] args = true) : args = [] := by
  cases args with
  | nil => rfl
  | cons c cs => cases h

theorem exists_of_accepts_one (h : accepts [p] args = true) :
    ∃ c, args = [c] ∧ inhabits c p.type p.nullable = true := by
  obtain ⟨c, cs, rfl, hc, hcs⟩ := exists_of_accepts_cons h
  obtain rfl := eq_nil_of_accepts hcs
  exact ⟨c, rfl, hc⟩

theorem exists_of_accepts_two (h : accepts [p, q] args = true) :
    ∃ c d, args = [c, d] ∧ inhabits c p.type p.nullable = true ∧
      inhabits d q.type q.nullable = true := by
  obtain ⟨c, cs, rfl, hc, hcs⟩ := exists_of_accepts_cons h
  obtain ⟨d, rfl, hd⟩ := exists_of_accepts_one hcs
  exact ⟨c, d, rfl, hc, hd⟩

theorem exists_string (h : inhabits c .u8 false = true) : ∃ t, c = .string t := by
  cases c <;> first | exact ⟨_, rfl⟩ | cases h

theorem exists_int (h : inhabits c .i32 false = true) : ∃ n, c = .int n := by
  cases c <;> first | exact ⟨_, rfl⟩ | cases h

theorem exists_float (h : inhabits c .f64 false = true) : ∃ x, c = .float x := by
  cases c <;> first | exact ⟨_, rfl⟩ | cases h

def readType : InputType → DataType
  | .string => .u8
  | .int => .i32
  | .float => .f64

theorem inhabits_received (line : Option Bytes) (type : InputType) :
    inhabits (line.elim .nil fun line => P.valueOf line type) (readType type) true = true := by
  cases line with
  | none => rfl
  | some line =>
    cases type with
    | string => rfl
    | int =>
      rw [Option.elim_some, valueOf]
      cases P.readInt line <;> rfl
    | float =>
      rw [Option.elim_some, valueOf]
      cases P.readFloat line <;> rfl

theorem inhabits_substring (t : Bytes) (i j : Int) : inhabits (substring t i j) .u8 true = true := by
  unfold substring
  split <;> rfl

theorem Entered.exists_split (h : Entered program b args rest s) :
    ∃ pre post, program = pre ++ (builtinCode b ++ post) ∧
      s.code = .label (.builtin b) :: (b.body ++ post) := by
  obtain ⟨pre, post, hprog⟩ := h.code
  rw [append_assoc] at hprog
  have hstart : codeAt (.builtin b) (builtinCode b) = some (.label (.builtin b) :: b.body) := by
    simp [builtinCode, codeAt]
  refine ⟨pre, post, hprog.symm, ?_⟩
  exact Option.some.inj (h.entry.symm.trans (codeAt_inside h.nodup hprog.symm hstart))

/-- Wherever the code of a built-in function is entered with these arguments, it comes to its
`RETURN` with a value in their place and everything else as it was. -/
def Computes (P : Processor) (b : Builtin) (args : List Constant) (value : Constant) : Prop :=
  ∀ program rest s, Entered program b args rest s →
    ∃ s', P.Reaches program s s' ∧ Returned s.frames (· = value :: rest) s s'

theorem computes_of_ends {value : Constant}
    (h : ∀ program pre post rest base, (labels program).Nodup →
      program = pre ++ (builtinCode b ++ post) →
        Ends P program base (· = value :: rest) (b.body ++ post) base (args.reverse ++ rest)) :
    Computes P b args value := by
  intro program rest s hentered
  obtain ⟨pre, post, hprog, hcode⟩ := hentered.exists_split
  have hends := h program pre post rest s.frames hentered.nodup hprog
  exact hends.label s hcode rfl hentered.data

theorem ends_body {pre : List Instr} (hf : f ∈ FuncDef.builtins)
    (hb : Builtin.ofName? f.name = some b) (hnodup : (labels program).Nodup)
    (hprog : program = pre ++ (builtinCode b ++ post)) (hargs : accepts f.params args = true)
    (hserves : serves b args = true) :
    Ends P program base (Leaves f rest) (b.body ++ post) base (args.reverse ++ rest) := by
  have hname (b' : Builtin) (h : f.name = FuncDef.builtinStart ++ b'.name) : b' = b := by
    rw [h, Machine.ofName?_builtinStart b'] at hb
    exact Option.some.inj hb
  -- one case for each entry of the catalog, in its order
  simp only [FuncDef.builtins, mem_cons, not_mem_nil, or_false] at hf
  rcases hf with rfl | rfl | rfl | rfl | rfl | rfl | rfl | rfl | rfl | rfl | rfl | rfl | rfl
  · obtain rfl := hname .readstr rfl
    obtain rfl := eq_nil_of_accepts hargs
    exact ends_read .string fun line => ⟨some _, inhabits_received line .string, rfl⟩
  · obtain rfl := hname .readi32 rfl
    obtain rfl := eq_nil_of_accepts hargs
    exact ends_read .int fun line => ⟨some _, inhabits_received line .int, rfl⟩
  · obtain rfl := hname .readf64 rfl
    obtain rfl := eq_nil_of_accepts hargs
    exact ends_read .float fun line => ⟨some _, inhabits_received line .float, rfl⟩
  · obtain rfl := hname .write rfl
    obtain ⟨c, rfl, -⟩ := exists_of_accepts_one hargs
    exact ends_write hnodup hprog c ⟨none, rfl, rfl⟩
  · obtain rfl := hname .i2f rfl
    obtain ⟨c, rfl, hc⟩ := exists_of_accepts_one hargs
    obtain ⟨n, rfl⟩ := exists_int hc
    exact .stack rfl (.return ⟨some (.float (P.toFloat n)), rfl, rfl⟩)
  · obtain rfl := hname .f2i rfl
    obtain ⟨c, rfl, hc⟩ := exists_of_accepts_one hargs
    obtain ⟨x, rfl⟩ := exists_float hc
    exact .stack rfl (.return ⟨some (.int (P.toInt x)), rfl, rfl⟩)
  · obtain rfl := hname .string rfl
    obtain ⟨c, rfl, -⟩ := exists_of_accepts_one hargs
    have hc : inhabits c .u8 false = true := by simpa [serves] using hserves
    exact .return ⟨some c, hc, rfl⟩
  · obtain rfl := hname .length rfl
    obtain ⟨c, rfl, hc⟩ := exists_of_accepts_one hargs
    obtain ⟨t, rfl⟩ := exists_string hc
    exact ends_length t ⟨some _, rfl, rfl⟩
  · obtain rfl := hname .concat rfl
    obtain ⟨c, d, rfl, hc, hd⟩ := exists_of_accepts_two hargs
    obtain ⟨t, rfl⟩ := exists_string hc
    obtain ⟨u, rfl⟩ := exists_string hd
    exact ends_concat t u ⟨some _, rfl, rfl⟩
  · obtain rfl := hname .substring rfl
    obtain ⟨c, cs, rfl, hc, hcs⟩ := exists_of_accepts_cons hargs
    obtain ⟨d, e, rfl, hd, he⟩ := exists_of_accepts_two hcs
    obtain ⟨t, rfl⟩ := exists_string hc
    obtain ⟨i, rfl⟩ := exists_int hd
    obtain ⟨j, rfl⟩ := exists_int he
    exact ends_substring hnodup hprog t i j ⟨some _, inhabits_substring t i j, rfl⟩
  · obtain rfl := hname .strcmp rfl
    obtain ⟨c, d, rfl, hc, hd⟩ := exists_of_accepts_two hargs
    obtain ⟨t, rfl⟩ := exists_string hc
    obtain ⟨u, rfl⟩ := exists_string hd
    exact ends_strcmp hnodup hprog t u ⟨some _, rfl, rfl⟩
  · obtain rfl := hname .ord rfl
    obtain ⟨c, d, rfl, hc, hd⟩ := exists_of_accepts_two hargs
    obtain ⟨t, rfl⟩ := exists_string hc
    obtain ⟨i, rfl⟩ := exists_int hd
    exact ends_ord hnodup hprog t i ⟨some _, rfl, rfl⟩
  · obtain rfl := hname .chr rfl
    obtain ⟨c, rfl, hc⟩ := exists_of_accepts_one hargs
    obtain ⟨n, rfl⟩ := exists_int hc
    have hrange : 0 ≤ n ∧ n < 256 := of_decide_eq_true hserves
    have hchar : P.operate .intToChar (.int n :: rest) =
        some (.string [n.toNat.toUInt8] :: rest) := if_pos hrange
    exact .stack hchar (.return ⟨some _, rfl, rfl⟩)

theorem ends_string (h : Entered program .string args rest s) :
    Ends P program s.frames (· = s.data) s.code s.frames s.data := by
  obtain ⟨pre, post, -, hcode⟩ := h.exists_split
  rw [hcode]
  exact .label (.return rfl)

def Fails (P : Processor) (program : List Instr) (s : State) (i : Instr) : Prop :=
  ∃ s', P.Reaches program s s' ∧ s'.code.head? = some i ∧ P.step program s' = none

theorem fails_chr (h : Entered program .chr [.int n] rest s)
    (hn : ¬ (0 ≤ n ∧ n < 256)) : Fails P program s (.stack .intToChar) := by
  obtain ⟨pre, post, -, hcode⟩ := h.exists_split
  refine ⟨{ s with code := Builtin.body .chr ++ post }, .single ⟨?_, ?_⟩, rfl, ?_⟩
  · simp [State.returns, hcode]
  · rw [Processor.step, hcode]
    rfl
  · have hstuck : P.operate .intToChar (.int n :: rest) = none := if_neg hn
    simp only [Processor.step, Builtin.body, cons_append, execute, h.data,
      reverse_singleton, nil_append, hstuck, Option.map_none]

theorem not_honours_of_fails {i : Instr} (hi : i ≠ .return) (h : Fails P program s i) :
    ¬ Honours P program f rest s := by
  rintro ⟨s₂, hreaches₂, hret⟩
  obtain ⟨s₁, hreaches₁, hhead, hstuck⟩ := h
  have hfinal : P.Final program s₁ := by
    rintro s' ⟨-, hstep⟩
    rw [hstuck] at hstep
    cases hstep
  obtain rfl := Reaches.unique hreaches₁ hreaches₂ hfinal (final_of_returns hret.returns)
  have hreturns := hret.returns
  rw [State.returns, hhead] at hreturns
  exact hi (Option.some.inj (beq_iff_eq.mp hreturns))

/-- The catalog's entry for `string`, which takes everything but null. -/
def stringSignature : FuncDef := .ofBuiltin "string" [⟨"term", .any, false⟩] .u8 false

/-- The catalog's entry for `chr`, which takes every integer. -/
def chrSignature : FuncDef := .ofBuiltin "chr" [⟨"i", .i32, false⟩] .u8 false

theorem eq_stringSignature (hf : f ∈ FuncDef.builtins)
    (hb : Builtin.ofName? f.name = some .string) : f = stringSignature := by
  revert f
  decide

theorem eq_chrSignature (hf : f ∈ FuncDef.builtins) (hb : Builtin.ofName? f.name = some .chr) :
    f = chrSignature := by
  revert f
  decide

theorem serves_string_of_honours (hf : f ∈ FuncDef.builtins)
    (hb : Builtin.ofName? f.name = some .string) (hentered : Entered program .string args rest s)
    (hargs : accepts f.params args = true) (h : Honours P program f rest s) :
    serves .string args = true := by
  obtain rfl := eq_stringSignature hf hb
  obtain ⟨c, rfl, -⟩ := exists_of_accepts_one hargs
  -- there is one end of the run, and there the data stack is the one at the start
  obtain ⟨s₁, hreaches₁, hret₁⟩ := ends_string hentered s rfl rfl rfl
  obtain ⟨s₂, hreaches₂, hret₂⟩ := h
  obtain rfl := Reaches.unique hreaches₁ hreaches₂ (final_of_returns hret₁.returns)
    (final_of_returns hret₂.returns)
  obtain ⟨r, hgives, hleft⟩ := hret₂.data
  rw [hret₁.data, hentered.data] at hleft
  have hr : [c] = r.toList := append_cancel_right hleft
  cases r with
  | none => cases hr
  | some d =>
    cases hr
    have hc : inhabits c .u8 false = true := hgives
    simpa [serves] using hc

theorem honours_iff_serves (hf : f ∈ FuncDef.builtins) (hb : Builtin.ofName? f.name = some b)
    (hentered : Entered program b args rest s) (hargs : accepts f.params args = true) :
    Honours P program f rest s ↔ serves b args = true := by
  constructor
  · intro h
    cases b with
    | string => exact serves_string_of_honours hf hb hentered hargs h
    | chr =>
      obtain rfl := eq_chrSignature hf hb
      obtain ⟨c, rfl, hc⟩ := exists_of_accepts_one hargs
      obtain ⟨n, rfl⟩ := exists_int hc
      refine decide_eq_true (Decidable.byContradiction fun hn => ?_)
      exact not_honours_of_fails (by simp) (fails_chr hentered hn) h
    | _ => rfl
  · intro hserves
    obtain ⟨pre, post, hprog, hcode⟩ := hentered.exists_split
    have hends : Ends P program s.frames (Leaves f rest) (b.body ++ post) s.frames
        (args.reverse ++ rest) :=
      ends_body hf hb hentered.nodup hprog hargs hserves
    exact hends.label s hcode rfl hentered.data

/-- Every built-in function of the catalog has code. Started with arguments of the types of its
parameters, the code comes to a `RETURN` with frames as they were, the arguments consumed and a
result of the declared type, apart from two functions: `string` returns whatever its argument is,
which is a byte string only if the argument is one, and `chr` stops with an error at a number that
is no byte. -/
theorem builtin_honours_signature (P : Processor) {f : FuncDef} (hf : f ∈ FuncDef.builtins) :
    ∃ b, Builtin.ofName? f.name = some b ∧
      ∀ program args rest s, Entered program b args rest s → accepts f.params args = true →
        (Honours P program f rest s ↔ serves b args = true) ∧
          (b = .string →
            ∃ s', P.Reaches program s s' ∧ Returned s.frames (· = s.data) s s') ∧
          (b = .chr → serves b args = false → Fails P program s (.stack .intToChar)) := by
  obtain ⟨b, hb, -⟩ := Machine.exists_builtin hf
  refine ⟨b, hb, fun program args rest s hentered hargs => ⟨?_, ?_, ?_⟩⟩
  · exact honours_iff_serves hf hb hentered hargs
  · rintro rfl
    exact ends_string hentered s rfl rfl rfl
  · rintro rfl hserves
    obtain rfl := eq_chrSignature hf hb
    obtain ⟨c, rfl, hc⟩ := exists_of_accepts_one hargs
    obtain ⟨n, rfl⟩ := exists_int hc
    exact fails_chr hentered (of_decide_eq_false hserves)

end

def bytewise : Processor where
  float _ _ _ := none
  quotient _ _ := none
  floatLess _ _ := false
  floatEqual _ _ := false
  toFloat _ := .nan
  toInt _ := 0
  readInt _ := none
  readFloat _ := none

def alone (b : Builtin) (data : List Constant) : State :=
  { code := builtinCode b, calls := [], data, temporary := none, frames := [],
    globals := .empty, history := [], input := [], output := [] }

theorem entered_alone (b : Builtin) (args rest : List Constant) :
    Entered (builtinCode b) b args rest (alone b (args.reverse ++ rest)) := by
  refine ⟨infix_rfl, ?_, ?_, rfl⟩
  · cases b <;> decide
  · simp [builtinCode, codeAt, alone]

/-- The string functions compute their reference functions, for all byte strings and all integers:
they come to their `RETURN`, take exactly their arguments from the data stack, put the value there
and leave the rest of it, the frames and the global variables as they were. -/
theorem string_functions_compute (P : Processor) :
    (∀ (t : Bytes) (i j : Int),
      Computes P .substring [.string t, .int i, .int j] (substring t i j)) ∧
    (∀ t u : Bytes, Computes P .strcmp [.string t, .string u] (.int (strcmp t u))) ∧
    ∀ (t : Bytes) (i : Int), Computes P .ord [.string t, .int i] (.int (ord t i)) := by
  refine ⟨fun t i j => ?_, fun t u => ?_, fun t i => ?_⟩
  · apply computes_of_ends
    intro program pre post rest base hnodup hprog
    exact ends_substring hnodup hprog t i j rfl
  · apply computes_of_ends
    intro program pre post rest base hnodup hprog
    exact ends_strcmp hnodup hprog t u rfl
  · apply computes_of_ends
    intro program pre post rest base hnodup hprog
    exact ends_ord hnodup hprog t i rfl

/-- A range that ends with the string, an empty string before another and an index behind the
end. -/
theorem string_functions_compute_abc :
    (∃ s', bytewise.Reaches (builtinCode .substring)
        (alone .substring [.int 3, .int 1, .string "abc", .nil]) s' ∧
      s'.data = [.string "bc", .nil] ∧ s'.frames = []) ∧
    (∃ s', bytewise.Reaches (builtinCode .strcmp)
        (alone .strcmp [.string "abc", .string [], .nil]) s' ∧
      s'.data = [.int (-1), .nil] ∧ s'.frames = []) ∧
    ∃ s', bytewise.Reaches (builtinCode .ord) (alone .ord [.int 3, .string "abc", .nil]) s' ∧
      s'.data = [.int 0, .nil] ∧ s'.frames = [] := by
  obtain ⟨hsub, hcmp, hord⟩ := string_functions_compute bytewise
  obtain ⟨s₁, hrun₁, hret₁⟩ := hsub "abc" 1 3 _ [.nil] _ (entered_alone _ _ _)
  obtain ⟨s₂, hrun₂, hret₂⟩ := hcmp [] "abc" _ [.nil] _ (entered_alone _ _ _)
  obtain ⟨s₃, hrun₃, hret₃⟩ := hord "abc" 3 _ [.nil] _ (entered_alone _ _ _)
  exact ⟨⟨s₁, hrun₁, hret₁.data, hret₁.frames⟩, ⟨s₂, hrun₂, hret₂.data, hret₂.frames⟩,
    ⟨s₃, hrun₃, hret₃.data, hret₃.frames⟩⟩

/-- The second and the third byte of a string. -/
theorem builtin_honours_signature_substring :
    Entered (builtinCode .substring) .substring [.string "abc", .int 1, .int 3] [.nil]
      (alone .substring [.int 3, .int 1, .string "abc", .nil]) ∧
    Honours bytewise (builtinCode .substring)
      (.ofBuiltin "substring" [⟨"s", .u8, false⟩, ⟨"i", .i32, false⟩, ⟨"j", .i32, false⟩] .u8 true)
      [.nil] (alone .substring [.int 3, .int 1, .string "abc", .nil]) := by
  obtain ⟨b, hb, h⟩ := builtin_honours_signature bytewise (f := .ofBuiltin "substring"
    [⟨"s", .u8, false⟩, ⟨"i", .i32, false⟩, ⟨"j", .i32, false⟩] .u8 true) (by decide)
  obtain rfl := Option.some.inj ((Machine.ofName?_builtinStart .substring).symm.trans hb)
  have hentered := entered_alone .substring [.string "abc", .int 1, .int 3] [.nil]
  exact ⟨hentered, (h _ _ _ _ hentered rfl).1.mpr rfl⟩

/-- Two signatures promise too much: `string` may be given an integer, which is then left where a
byte string is promised, and `chr` a number that is no byte. -/
theorem signatures_promise_too_much :
    (stringSignature ∈ FuncDef.builtins ∧ accepts stringSignature.params [.int 42] = true ∧
      ¬ Honours bytewise (builtinCode .string) stringSignature [] (alone .string [.int 42])) ∧
    (chrSignature ∈ FuncDef.builtins ∧ accepts chrSignature.params [.int 300] = true ∧
      ¬ Honours bytewise (builtinCode .chr) chrSignature [] (alone .chr [.int 300])) := by
  refine ⟨⟨by decide, rfl, fun h => ?_⟩, ⟨by decide, rfl, fun h => ?_⟩⟩
  · have hserves := (honours_iff_serves (by decide) (Machine.ofName?_builtinStart .string)
      (entered_alone .string [.int 42] []) rfl).mp h
    cases hserves
  · have hserves := (honours_iff_serves (by decide) (Machine.ofName?_builtinStart .chr)
      (entered_alone .chr [.int 300] []) rfl).mp h
    cases hserves

end Ifj24.Processor
