import Ifj24.Proofs.Robustness

/-!
The text of a program can be read back. Operands have no blanks and no line ends in them, so
the words of a line are the instruction and its operands, and the lines of the text are those
of the program. The text of a label tells which label it is, as long as names are made of
letters, digits and underscores and none of them is `ifj`.
-/

open List

namespace Ifj24

namespace Bytes

variable {parts : List Bytes} {b : UInt8}

def Solid (text : Bytes) : Prop := ∀ b ∈ text, 32 < b

instance (text : Bytes) : Decidable text.Solid := List.decidableBAll _ text

theorem solid_append :
    Solid (front ++ back) ↔ front.Solid ∧ back.Solid := forall_mem_append

theorem Solid.not_mem {text : Bytes} (h : text.Solid) (hb : b ≤ 32) : b ∉ text :=
  fun hmem => absurd (h b hmem) (UInt8.not_lt.mpr hb)

theorem splitOn_join (hne : parts ≠ []) (h : ∀ part ∈ parts, separator ∉ part) :
    (join [separator] parts).splitOn separator = parts :=
  splitOn_intercalate separator h hne

theorem mem_join {separator : Bytes}
    (h : b ∈ join separator parts) : b ∈ separator ∨ ∃ part ∈ parts, b ∈ part := by
  induction parts with
  | nil => cases h
  | cons part rest ih =>
    cases rest with
    | nil =>
      rw [join, intercalate_singleton] at h
      exact .inr ⟨part, mem_cons_self, h⟩
    | cons next rest =>
      rw [join, intercalate_cons_cons, mem_append, mem_append] at h
      rcases h with (h | h) | h
      · exact .inr ⟨part, mem_cons_self, h⟩
      · exact .inl h
      · rcases ih h with h | ⟨other, hother, h⟩
        · exact .inl h
        · exact .inr ⟨other, mem_cons_of_mem part hother, h⟩

theorem digits_subset (base n : Nat) (hbase : 1 < base) :
    ∀ b ∈ digits base n, ∃ d < base, b = ascii (Nat.digitChar d) := by
  have hchars : ∀ c ∈ Nat.toDigits base n, ∃ d < base, c = Nat.digitChar d := by
    induction n using Nat.strongRecOn with
    | ind n ih =>
      rw [Nat.toDigits_eq_if hbase]
      split
      · rename_i hn
        intro c hc
        exact ⟨n, hn, mem_singleton.mp hc⟩
      · rename_i hn
        intro c hc
        rcases mem_append.mp hc with hc | hc
        · exact ih (n / base) (Nat.div_lt_self (by omega) hbase) c hc
        · exact ⟨n % base, Nat.mod_lt n (by omega), mem_singleton.mp hc⟩
  intro b hb
  obtain ⟨c, hc, rfl⟩ := mem_map.mp hb
  obtain ⟨d, hd, rfl⟩ := hchars c hc
  exact ⟨d, hd, rfl⟩

theorem solid_digits (n : Nat) (hbase : 1 < base) (hle : base ≤ 16) :
    (digits base n).Solid := by
  have hall : ∀ d : Fin 16, 32 < ascii (Nat.digitChar d.val) := by decide
  intro b hb
  obtain ⟨d, hd, rfl⟩ := digits_subset base n hbase b hb
  exact hall ⟨d, by omega⟩

theorem solid_paddedDigits (width n : Nat) (hbase : 1 < base) (hle : base ≤ 16) :
    (paddedDigits base width n).Solid := by
  refine solid_append.mpr ⟨fun b hb => ?_, solid_digits n hbase hle⟩
  rw [(mem_replicate.mp hb).2]
  decide

theorem solid_ofNat (n : Nat) : (ofNat n).Solid := solid_digits n (by decide) (by decide)

theorem solid_ofInt (n : Int) : (ofInt n).Solid := by
  unfold ofInt
  split
  · exact forall_mem_cons.mpr ⟨by decide, solid_ofNat _⟩
  · exact solid_ofNat _

theorem ofNat_injective (h : ofNat m = ofNat n) : m = n := by
  rw [← Number.value_ofNat m, h, Number.value_ofNat]

theorem dollar_not_mem_ofNat (n : Nat) : ascii '$' ∉ ofNat n := by
  have hall : ∀ d : Fin 10, ascii '$' ≠ ascii (Nat.digitChar d.val) := by decide
  intro hmem
  obtain ⟨d, hd, heq⟩ := digits_subset 10 n (by decide) _ hmem
  exact hall ⟨d, hd⟩ heq

end Bytes

open Bytes

theorem Double.solid_hexText (x : Double) : x.hexText.Solid := by
  have hsign (negative : Bool) : (signText negative).Solid := by
    cases negative <;> decide
  cases x with
  | nan => decide
  | infinite negative => cases negative <;> decide
  | finite negative significand exponent =>
    simp only [hexText]
    split
    · exact solid_append.mpr ⟨hsign negative, by decide⟩
    · have hfrac (n bits : Nat) : (fractionDigits n bits).Solid := by
        have hdig : Bytes.Solid (if (bits + 3) / 4 = 0 then []
            else paddedDigits 16 ((bits + 3) / 4) (n * Nat.pow 2 (4 * ((bits + 3) / 4) - bits))) := by
          split
          · decide
          · exact solid_paddedDigits _ _ (by decide) (by decide)
        intro b hb
        have hmem := (dropWhile_sublist _).subset (mem_reverse.mp hb)
        exact hdig b (mem_reverse.mp hmem)
      simp only [solid_append]
      refine ⟨⟨⟨⟨⟨hsign negative, by decide⟩, ?_⟩, by decide⟩, ?_⟩, solid_ofNat _⟩
      · split
        · decide
        · exact solid_append.mpr ⟨by decide, hfrac _ _⟩
      · split <;> decide

namespace Code

variable {l : Label}

/-! Operands -/

theorem Constant.solid_text (c : Constant) : c.text.Solid := by
  cases c with
  | nil => decide
  | bool b => cases b <;> decide
  | int n => exact solid_append.mpr ⟨by decide, solid_ofInt n⟩
  | float x => exact solid_append.mpr ⟨by decide, x.solid_hexText⟩
  | string s =>
    refine solid_append.mpr ⟨by decide, fun b hb => ?_⟩
    obtain ⟨a, -, hb⟩ := mem_flatMap.mp hb
    split at hb
    · rcases mem_cons.mp hb with rfl | hb
      · decide
      · exact solid_paddedDigits 3 a.toNat (by decide) (by decide) b hb
    · rename_i hspecial
      rw [mem_singleton.mp hb]
      simp only [isSpecial, Bool.or_eq_true, decide_eq_true_eq, not_or] at hspecial
      exact UInt8.not_le.mp hspecial.1.1

/-- What may be the name of a function or a variable, as far as labels have to tell names from
what else stands in them. -/
structure Identifier (name : Bytes) : Prop where
  solid : name.Solid
  dollar : ascii '$' ∉ name
  qualifier : name ≠ ofString "ifj"

open Identifier

instance (name : Bytes) : Decidable (Identifier name) :=
  decidable_of_iff (name.Solid ∧ ascii '$' ∉ name ∧ name ≠ ofString "ifj")
    ⟨fun h => ⟨h.1, h.2.1, h.2.2⟩, fun h => ⟨h.solid, h.dollar, h.qualifier⟩⟩

def Place.Proper : Place → Prop
  | .discard => True
  | .local name _ | .temporary name => Identifier name

instance : (p : Place) → Decidable p.Proper
  | .discard => .isTrue trivial
  | .local name _ | .temporary name => inferInstanceAs (Decidable (Identifier name))

theorem Place.Proper.solid_text {p : Place} (h : p.Proper) : p.text.Solid := by
  cases p with
  | discard => decide
  | «local» name id =>
    unfold Place.text Place.localText
    simp only [solid_append]
    exact ⟨⟨⟨by decide, h.solid⟩, by decide⟩, solid_ofNat _⟩
  | temporary name => exact solid_append.mpr ⟨by decide, h.solid⟩

def Source.Proper : Source → Prop
  | .place p => p.Proper
  | .constant _ => True

instance : (a : Source) → Decidable a.Proper
  | .place p => inferInstanceAs (Decidable p.Proper)
  | .constant _ => .isTrue trivial

theorem Source.Proper.solid_text {a : Source} (h : a.Proper) : a.text.Solid := by
  cases a with
  | place p => exact Place.Proper.solid_text h
  | constant c => exact c.solid_text

/-! Labels -/

def Label.Proper : Label → Prop
  | .function name | .flow name _ _ | .inside _ name => Identifier name
  | .builtin _ => True

instance : (l : Label) → Decidable l.Proper
  | .function name | .flow name _ _ | .inside _ name => inferInstanceAs (Decidable (Identifier name))
  | .builtin _ => .isTrue trivial

def Label.pieces : Label → List Bytes
  | .function name => [[], name]
  | .flow owner tag number => [[], owner, tag.text, Bytes.ofNat number]
  | .builtin b => [[], "ifj", b.name]
  | .inside b tag => [[], "ifj", b.name, tag]

theorem Label.text_eq_join (l : Label) : l.text = join [ascii '$'] l.pieces := by
  have hdollar : ofString "$" = [ascii '$'] := by decide
  have hblt (b : Builtin) : builtinText b.name =
      ascii '$' :: (ofString "ifj" ++ ascii '$' :: b.name) := by
    cases b <;> decide
  cases l with
  | function name => simp [text, functionText, hdollar, pieces, join, List.intercalate]
  | flow owner tag number =>
    simp [text, functionText, hdollar, pieces, join, List.intercalate]
  | builtin b => simp [text, hblt, pieces, join, List.intercalate]
  | inside b tag => simp [text, hblt, hdollar, pieces, join, List.intercalate]

theorem Builtin.mem_all (b : Builtin) : b ∈ Builtin.all := by cases b <;> decide

theorem Builtin.dollar_not_mem_name (b : Builtin) : ascii '$' ∉ b.name := by
  cases b <;> decide

theorem Builtin.ofName?_name (b : Builtin) : ofName? b.name = some b := by
  cases b <;> decide

theorem Builtin.name_injective {b : Builtin} (h : b.name = b'.name) : b = b' := by
  have hname := b.ofName?_name
  rw [h, b'.ofName?_name] at hname
  exact (Option.some.inj hname).symm

theorem FlowTag.text_injective {tag tag' : FlowTag} (h : tag.text = tag'.text) : tag = tag' := by
  revert h
  cases tag <;> cases tag' <;> decide

theorem Label.Proper.splitOn_text (h : l.Proper) :
    l.text.splitOn (ascii '$') = l.pieces := by
  rw [l.text_eq_join]
  refine splitOn_join (by cases l <;> simp [pieces]) ?_
  have hifj : ascii '$' ∉ ofString "ifj" := by decide
  cases l with
  | function name => simpa [pieces] using dollar h
  | flow owner tag number =>
    have htag : ascii '$' ∉ tag.text := by cases tag <;> decide
    simpa [pieces, htag, dollar_not_mem_ofNat] using dollar h
  | builtin b => simp [pieces, hifj, b.dollar_not_mem_name]
  | inside b tag => simpa [pieces, hifj, b.dollar_not_mem_name] using dollar h

/-- Different labels have different texts. -/
theorem Label.Proper.text_injective (h : l.Proper) (h' : l'.Proper)
    (heq : l.text = l'.text) : l = l' := by
  have hpieces : l.pieces = l'.pieces := by
    rw [← h.splitOn_text, heq, h'.splitOn_text]
  cases l with
  | function name =>
    cases l' with
    | function name' => simp_all [pieces]
    | _ => simp [pieces] at hpieces
  | flow owner tag number =>
    cases l' with
    | flow owner' tag' number' =>
      simp only [pieces, List.cons.injEq, and_true, true_and] at hpieces
      rw [hpieces.1, FlowTag.text_injective hpieces.2.1, ofNat_injective hpieces.2.2]
    | inside b tag' =>
      simp only [pieces, List.cons.injEq, true_and] at hpieces
      exact absurd hpieces.1 (qualifier h)
    | _ => simp [pieces] at hpieces
  | builtin b =>
    cases l' with
    | builtin b' =>
      simp only [pieces, List.cons.injEq, and_true, true_and] at hpieces
      rw [Builtin.name_injective hpieces]
    | _ => simp [pieces] at hpieces
  | inside b tag =>
    cases l' with
    | inside b' tag' =>
      simp only [pieces, List.cons.injEq, and_true, true_and] at hpieces
      rw [Builtin.name_injective hpieces.1, hpieces.2]
    | flow owner tag' number =>
      simp only [pieces, List.cons.injEq, true_and] at hpieces
      exact absurd hpieces.1.symm (qualifier h')
    | _ => simp [pieces] at hpieces

theorem Label.Proper.solid_text (h : l.Proper) : l.text.Solid := by
  cases l with
  | function name => exact solid_append.mpr ⟨by decide, solid h⟩
  | flow owner tag number =>
    have htag : tag.text.Solid := by cases tag <;> decide
    simp only [text, functionText, solid_append]
    exact ⟨⟨⟨⟨⟨by decide, solid h⟩, by decide⟩, htag⟩, by decide⟩, solid_ofNat _⟩
  | builtin b => cases b <;> decide
  | inside b tag =>
    simp only [text, solid_append]
    refine ⟨⟨?_, by decide⟩, solid h⟩
    cases b <;> decide

/-! Instructions and lines -/

inductive Argument where
  | label (l : Label)
  | place (p : Place)
  | source (a : Source)
  | input (type : InputType)

def Argument.text : Argument → Bytes
  | .label l => l.text
  | .place p => p.text
  | .source a => a.text
  | .input type => type.text

def Argument.Proper : Argument → Prop
  | .label l => l.Proper
  | .place p => p.Proper
  | .source a => a.Proper
  | .input _ => True

instance : (x : Argument) → Decidable x.Proper
  | .label l => inferInstanceAs (Decidable l.Proper)
  | .place p => inferInstanceAs (Decidable p.Proper)
  | .source a => inferInstanceAs (Decidable a.Proper)
  | .input _ => .isTrue trivial

theorem Argument.Proper.solid_text {x : Argument} (h : x.Proper) : x.text.Solid := by
  cases x with
  | label l => exact Label.Proper.solid_text h
  | place p => exact Place.Proper.solid_text h
  | source a => exact Source.Proper.solid_text h
  | input type => cases type <;> decide

namespace Instr

def opcode : Instr → Bytes
  | .label _ => "LABEL"
  | .jump _ => "JUMP"
  | .jumpIfEq .. => "JUMPIFEQ"
  | .jumpIfNeq .. => "JUMPIFNEQ"
  | .jumpIfEqs _ => "JUMPIFEQS"
  | .call _ => "CALL"
  | .return => "RETURN"
  | .createFrame => "CREATEFRAME"
  | .pushFrame => "PUSHFRAME"
  | .popFrame => "POPFRAME"
  | .defVar _ => "DEFVAR"
  | .move .. => "MOVE"
  | .push _ => "PUSHS"
  | .pop _ => "POPS"
  | .stack op => op.text
  | .binary op .. => op.text
  | .strLen .. => "STRLEN"
  | .typeOf .. => "TYPE"
  | .read .. => "READ"
  | .write _ => "WRITE"
  | .exit _ => "EXIT"

def arguments : Instr → List Argument
  | .label l | .jump l | .jumpIfEqs l | .call l => [.label l]
  | .jumpIfEq l a b | .jumpIfNeq l a b => [.label l, .source a, .source b]
  | .return | .createFrame | .pushFrame | .popFrame | .stack _ => []
  | .defVar p | .pop p => [.place p]
  | .move p a | .strLen p a | .typeOf p a => [.place p, .source a]
  | .push a | .write a | .exit a => [.source a]
  | .binary _ p a b => [.place p, .source a, .source b]
  | .read p type => [.place p, .input type]

def Proper (i : Instr) : Prop := ∀ x ∈ i.arguments, x.Proper

instance (i : Instr) : Decidable i.Proper := List.decidableBAll _ i.arguments

theorem text_eq_join (i : Instr) :
    i.text = join [ascii ' '] (i.opcode :: i.arguments.map Argument.text) := by
  have hblank : ofString " " = [ascii ' '] := by decide
  cases i <;>
    simp [text, words, hblank, opcode, arguments, Argument.text, join, List.intercalate]

theorem solid_opcode (i : Instr) : i.opcode.Solid ∧ i.opcode ≠ [] := by
  unfold opcode
  split
  case h_15 op => cases op <;> decide
  case h_16 op _ _ _ => cases op <;> decide
  all_goals decide

end Instr

end Code

/-! Reading -/

namespace Assembly

open Code

def words (line : Bytes) : List Bytes := line.splitOn (ascii ' ')

def lines (text : Bytes) : List Bytes := (text.splitOn (ascii '\n')).dropLast

def operand? (opcodes : List Bytes) (line : Bytes) : Option Bytes :=
  match words line with
  | opcode :: operand :: _ => if opcodes.contains opcode then some operand else none
  | _ => none

def labels (ls : List Bytes) : List Bytes := ls.filterMap (operand? ["LABEL"])

def jumps (ls : List Bytes) : List Bytes :=
  ls.filterMap (operand? ["JUMP", "JUMPIFEQ", "JUMPIFNEQ", "JUMPIFEQS"])

def calls (ls : List Bytes) : List Bytes := ls.filterMap (operand? ["CALL"])

def parts (text : Bytes) : List (List Bytes) := (lines text).splitOnP List.isEmpty

theorem words_instr {i : Instr} (h : i.Proper) :
    words i.text = i.opcode :: i.arguments.map Argument.text := by
  rw [words, i.text_eq_join]
  refine splitOn_join nofun ?_
  rintro w (_ | ⟨_, hw⟩)
  · exact i.solid_opcode.1.not_mem (by decide)
  · obtain ⟨x, hx, rfl⟩ := mem_map.mp hw
    exact (h x hx).solid_text.not_mem (by decide)

structure Reads (opcodes : List Bytes) (f : Instr → Option Label) : Prop where
  instr : ∀ i : Instr, i.Proper → operand? opcodes i.text = (f i).map Label.text
  comment : opcodes.contains (ofString "#") = false

theorem reads_label : Reads ["LABEL"] Machine.label? where
  instr i h := by
    rw [operand?, words_instr h]
    cases i with
    | binary op => cases op <;> rfl
    | _ => rfl
  comment := by decide

theorem reads_jump : Reads ["JUMP", "JUMPIFEQ", "JUMPIFNEQ", "JUMPIFEQS"] Instr.jump? where
  instr i h := by
    rw [operand?, words_instr h]
    cases i with
    | binary op => cases op <;> rfl
    | _ => rfl
  comment := by decide

theorem reads_call : Reads ["CALL"] Instr.call? where
  instr i h := by
    rw [operand?, words_instr h]
    cases i with
    | binary op => cases op <;> rfl
    | _ => rfl
  comment := by decide

end Assembly

namespace Code

variable {l : Line}

def Line.Proper : Line → Prop
  | .instr i => i.Proper
  | .comment text => ascii '\n' ∉ text
  | .header | .blank => True

theorem Line.Proper.newline (h : l.Proper) : ascii '\n' ∉ l.text := by
  cases l with
  | header => decide
  | blank => decide
  | comment text =>
    intro hmem
    rcases mem_append.mp hmem with hmem | hmem
    · revert hmem
      decide
    · exact h hmem
  | instr i =>
    intro hmem
    rw [text, i.text_eq_join] at hmem
    rcases mem_join hmem with hmem | ⟨w, hw, hmem⟩
    · revert hmem
      decide
    · refine Bytes.Solid.not_mem ?_ (by decide) hmem
      rcases mem_cons.mp hw with rfl | hw
      · exact i.solid_opcode.1
      · obtain ⟨x, hx, rfl⟩ := mem_map.mp hw
        exact (h x hx).solid_text

theorem Line.text_ne_nil (h : l ≠ .blank) : l.text ≠ [] := by
  cases l with
  | header => decide
  | blank => exact absurd rfl h
  | comment text => exact append_ne_nil_of_left_ne_nil (by decide) text
  | instr i =>
    rw [text, i.text_eq_join]
    intro hnil
    have hopcode := i.solid_opcode.2
    cases hargs : i.arguments.map Argument.text with
    | nil =>
      rw [hargs, join, intercalate_singleton] at hnil
      exact hopcode hnil
    | cons w rest =>
      rw [hargs, join, intercalate_cons_cons] at hnil
      simp [hopcode] at hnil

end Code

namespace Assembly

open Code

/-- The lines of a program are read as they are written. -/
theorem lines_text {g : Generated} (h : ∀ l ∈ g.lines, l.Proper) :
    lines g.text.flatten = g.lines.map Line.text := by
  have hsplit {ls : List Line} (h : ∀ l ∈ ls, l.Proper) :
      Bytes.splitOn (ascii '\n') (ls.map fun l => l.text ++ ofString "\n").flatten =
        ls.map Line.text ++ [[]] := by
    induction ls with
    | nil => rfl
    | cons l rest ih =>
      obtain ⟨hl, hrest⟩ := forall_mem_cons.mp h
      have hline : ∀ b ∈ l.text, (b == ascii '\n') = false := by
        intro b hb
        rw [beq_eq_false_iff_ne]
        rintro rfl
        exact hl.newline hb
      rw [map_cons, flatten_cons, append_assoc, map_cons, cons_append,
        ← ih hrest]
      exact splitOnP_append_cons_of_forall_mem hline _ rfl _
  rw [lines, Generated.text, hsplit h, dropLast_concat]

theorem Reads.filterMap_lines {opcodes : List Bytes} {f : Instr → Option Label}
    (hreads : Reads opcodes f) {ls : List Line} (h : ∀ l ∈ ls, l.Proper) :
    (ls.map Line.text).filterMap (operand? opcodes) =
      ((ls.filterMap Line.instr?).filterMap f).map Label.text := by
  induction ls with
  | nil => rfl
  | cons l rest ih =>
    obtain ⟨hl, hrest⟩ := forall_mem_cons.mp h
    have hother (hnone : operand? opcodes l.text = none) (hinstr : l.instr? = none) :
        ((l :: rest).map Line.text).filterMap (operand? opcodes) =
          (((l :: rest).filterMap Line.instr?).filterMap f).map Label.text := by
      rw [map_cons, filterMap_cons_none hnone, filterMap_cons_none hinstr, ih hrest]
    cases l with
    | header => exact hother rfl rfl
    | blank => exact hother rfl rfl
    | comment text =>
      refine hother ?_ rfl
      have hmark : ∀ b ∈ ofString "#", (b == ascii ' ') = false :=
        forall_mem_singleton.mpr (by decide)
      have hwords : words (Line.comment text).text = ofString "#" :: words text :=
        splitOnP_append_cons_of_forall_mem hmark (ascii ' ') rfl text
      rw [operand?, hwords]
      split
      · rename_i hmatch
        rw [← (List.cons.inj hmatch).1, hreads.comment]
        rfl
      · rfl
    | instr i =>
      have hi : operand? opcodes (Line.instr i).text = (f i).map Label.text := hreads.instr i hl
      have hline : (Line.instr i).instr? = some i := rfl
      rw [map_cons, filterMap_cons_some hline]
      cases hf : f i with
      | none =>
        rw [hf] at hi
        rw [filterMap_cons_none hi, filterMap_cons_none hf, ih hrest]
      | some label =>
        rw [hf] at hi
        rw [filterMap_cons_some hi, filterMap_cons_some hf, map_cons, ih hrest]

theorem splitOnP_sections {first : List Bytes} {sections : List (List Bytes)}
    (hfirst : ∀ line ∈ first, line ≠ []) (h : ∀ s ∈ sections, ∀ line ∈ s, line ≠ []) :
    (first ++ sections.flatMap ([] :: ·)).splitOnP List.isEmpty = first :: sections := by
  have hfull {ls : List Bytes} (hls : ∀ line ∈ ls, line ≠ []) :
      ∀ line ∈ ls, line.isEmpty = false :=
    fun line hline => isEmpty_eq_false_iff.mpr (hls line hline)
  induction sections generalizing first with
  | nil =>
    rw [flatMap_nil, append_nil]
    exact splitOnP_eq_singleton (hfull hfirst)
  | cons s rest ih =>
    obtain ⟨hs, hrest⟩ := forall_mem_cons.mp h
    rw [flatMap_cons, cons_append,
      splitOnP_append_cons_of_forall_mem (hfull hfirst) [] rfl, ih hs hrest]

end Assembly

end Ifj24
