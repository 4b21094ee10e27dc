import Ifj24.Proofs.Wiring

/-!
Generated programs are closed: their jumps and calls go to labels that they have once. Behind the
functions of a program comes the code of the built-in ones that it calls, and of no other.
-/

open List

namespace Ifj24

open Ifj24.Tree Typing Walk Compile Bytes

namespace Code

section

def sections (functions : List (Function × List Instr)) : List (Bytes × List Instr) :=
  functions.map (fun fc => (fc.1.definition.signature, fc.2)) ++
    (calledBuiltins (functionsCode functions)).map fun b => (b.qualified, builtinCode b)

def partLines (comments : Bool) (s : Bytes × List Instr) : List Line :=
  (if comments then [.comment s.1] else []) ++ s.2.map .instr

theorem lines_generate (comments : Bool) (t : Table) (p : Tree.Program) :
    (generate comments t p).lines =
      prologue ++ (sections (lowerFunctions t p.functions ⟨0, none⟩).1).flatMap fun s =>
        section_ comments s.1 s.2 := by
  rw [sections, flatMap_append, flatMap_map, flatMap_map, ← append_assoc]
  rfl

theorem instrs_partLines (comments : Bool) (s : Bytes × List Instr) :
    (partLines comments s).filterMap Line.instr? = s.2 :=
  code_section comments s.1 s.2

/-- A comment that ends with its line, and instructions that can be read back. -/
structure ProperSection (s : Bytes × List Instr) : Prop where
  comment : ascii '\n' ∉ s.1
  code : ∀ i ∈ s.2, i.Proper

theorem ProperSection.lines {s : Bytes × List Instr} (h : ProperSection s) (comments : Bool) :
    ∀ l ∈ partLines comments s, l.Proper := by
  refine forall_mem_append.mpr ⟨?_, fun l hl => ?_⟩
  · cases comments with
    | true => exact forall_mem_singleton.mpr h.comment
    | false => exact fun l hl => nomatch hl
  · obtain ⟨i, hi, rfl⟩ := mem_map.mp hl
    exact h.code i hi

theorem partLines_ne_blank (comments : Bool) (s : Bytes × List Instr) :
    ∀ l ∈ partLines comments s, l ≠ .blank := by
  refine forall_mem_append.mpr ⟨?_, fun l hl => ?_⟩
  · cases comments with
    | true => exact forall_mem_singleton.mpr nofun
    | false => exact fun l hl => nomatch hl
  · obtain ⟨i, -, rfl⟩ := mem_map.mp hl
    exact nofun

end

end Code

namespace Assembly

open Code

def uncommented (part : List Bytes) : List Bytes :=
  part.filter fun line => line.head? != some (ascii '#')

theorem Reads.part (hreads : Reads opcodes f)
    (comments : Bool) {s : Bytes × List Instr} (h : ProperSection s) :
    ((partLines comments s).map Line.text).filterMap (operand? opcodes) =
      (s.2.filterMap f).map Label.text := by
  rw [hreads.filterMap_lines (h.lines comments), instrs_partLines]

theorem uncommented_part (comments : Bool) (s : Bytes × List Instr) :
    uncommented ((partLines comments s).map Line.text) = s.2.map Instr.text := by
  have hinstr (i : Instr) : (i.text.head? != some (ascii '#')) = true := by
    have hopcode : (i.opcode.head? != some (ascii '#')) = true := by
      unfold Instr.opcode
      split
      case h_15 op => cases op <;> decide
      case h_16 op _ _ _ => cases op <;> decide
      all_goals decide
    have hhead : i.text.head? = i.opcode.head? := by
      rw [i.text_eq_join, join]
      cases i.arguments.map Argument.text with
      | nil => rw [intercalate_singleton]
      | cons w rest =>
        obtain ⟨c, more, hopcode⟩ := exists_cons_of_ne_nil i.solid_opcode.2
        rw [intercalate_cons_cons, hopcode]
        rfl
    rw [hhead]
    exact hopcode
  have hcode : uncommented (s.2.map Instr.text) = s.2.map Instr.text := by
    refine filter_eq_self.mpr fun line hline => ?_
    obtain ⟨i, -, rfl⟩ := mem_map.mp hline
    exact hinstr i
  have hlines : (s.2.map Line.instr).map Line.text = s.2.map Instr.text := by
    rw [map_map]
    rfl
  rw [partLines, map_append, hlines]
  cases comments with
  | true => exact hcode
  | false => exact hcode

theorem splitOnP_lines (comments : Bool) (ss : List (Bytes × List Instr)) :
    ((prologue ++ ss.flatMap fun s => section_ comments s.1 s.2).map Line.text).splitOnP
        List.isEmpty =
      prologue.map Line.text :: ss.map fun s => (partLines comments s).map Line.text := by
  have hsections : (ss.flatMap fun s => section_ comments s.1 s.2).map Line.text =
      (ss.map fun s => (partLines comments s).map Line.text).flatMap ([] :: ·) := by
    rw [map_flatMap, flatMap_map]
    rfl
  rw [map_append, hsections]
  refine splitOnP_sections (by decide) fun part hpart line hline => ?_
  obtain ⟨s, hs, rfl⟩ := mem_map.mp hpart
  obtain ⟨l, hl, rfl⟩ := mem_map.mp hline
  exact Line.text_ne_nil (partLines_ne_blank comments s l hl)

end Assembly

open Assembly

namespace Code

open Machine

section

variable {p : Grammar.Program} {hash : NameHash} {parsed : Parsed} {t : Table}

theorem identifier_function (hnames : Grammar.NamesIn Identifier p.tokens) (hd : d ∈ p.functions) :
    Identifier d.name.1.literal ∧ ∀ q ∈ d.params.toList, Identifier q.name.1.literal := by
  have hmem {a : Token} (ha : a ∈ d.tokens) : a ∈ p.tokens :=
    mem_append_right _ (mem_append_left _ (mem_flatMap.mpr ⟨d, hd, ha⟩))
  have hparam {ps : Grammar.Listed Grammar.Parameter} {q : Grammar.Parameter}
      (hq : q ∈ ps.toList) : q.name.1 ∈ ps.tokens Grammar.Parameter.tokens := by
    induction ps with
    | nil => cases hq
    | last a =>
      rw [mem_singleton.mp hq]
      exact mem_cons_self
    | cons a comma rest ih =>
      rcases mem_cons.mp hq with rfl | hq
      · exact mem_append_left _ mem_cons_self
      · exact mem_append_right _ (mem_cons_of_mem _ (ih hq))
  constructor
  · exact hnames d.name.1 (hmem (by simp [Grammar.Function.tokens, Grammar.Heading.before])) d.name.2
  · intro q hq
    refine hnames q.name.1 (hmem ?_) q.name.2
    simp [Grammar.Function.tokens, Grammar.Heading.before, hparam hq]

theorem newline_not_mem_signature (hnames : Grammar.NamesIn Identifier p.tokens)
     (hd : d ∈ p.functions) :
    ascii '\n' ∉ d.signature.signature := by
  obtain ⟨hname, hparams⟩ := identifier_function hnames hd
  have htype (type : DataType) (nullable : Bool) :
      ascii '\n' ∉ type.textWith nullable := by
    cases type <;> cases nullable <;> decide
  have hseparator : ascii '\n' ∉ ofString ", " := by decide
  have hopening : ascii '\n' ∉ ofString "(" := by decide
  have hclosing : ascii '\n' ∉ ofString ") " := by decide
  have hcolon : ascii '\n' ∉ ofString ": " := by decide
  have hparam : ascii '\n' ∉
      join (ofString ", ") (d.signature.params.map Param.text) := by
    intro hmem
    rcases mem_join hmem with hmem | ⟨text, htext, hmem⟩
    · exact hseparator hmem
    · obtain ⟨param, hparam, rfl⟩ := mem_map.mp htext
      obtain ⟨q, hq, rfl⟩ := mem_map.mp hparam
      unfold Param.text at hmem
      split at hmem
      · exact htype _ _ hmem
      · simp only [mem_append, htype, hcolon, or_false] at hmem
        exact (hparams q hq).solid.not_mem (by decide) hmem
  simp only [FuncDef.signature, mem_append, htype, hopening, hclosing, hparam, or_false]
  exact hname.solid.not_mem (by decide)

theorem proper_place (hacc : p.Accepted hash strict parsed t)
    (hnames : Grammar.NamesIn Identifier p.tokens) (hretains : t.Retains u) (r : VarRef) :
    (place u r).Proper := by
  cases hdisc : (u.var r).isDiscard with
  | true =>
    rw [place_of_discard hdisc]
    exact trivial
  | false =>
    have hsize := lt_size_of_not_discard hdisc
    rw [hretains.size] at hsize
    have hpos : r ≠ 0 := by
      rintro rfl
      rw [Var.isDiscard, hretains.id, hacc.consistent.ids 0 hsize] at hdisc
      cases hdisc
    rw [place_of_local hdisc, hretains.name]
    rw [hacc.size] at hsize
    exact hacc.depicts.called hnames r (Nat.pos_of_ne_zero hpos) hsize

theorem catalogued_of_accepted (hacc : p.Accepted hash strict parsed t) : Catalogued t := by
  intro name f hlook
  obtain ⟨hname, hcatalog⟩ := known_of_accepted hacc hlook
  constructor
  · intro hblt
    have hall : ∀ g ∈ FuncDef.builtins, ∃ b ∈ Builtin.all, g.name = b.qualified := by decide
    obtain ⟨b, -, hb⟩ := hall f (hcatalog hblt)
    exact ⟨b, hname ▸ hb⟩
  · rintro ⟨b, rfl⟩
    -- The catalog comes first, so a function of the program is not what such a name means.
    have hfirst : ∀ b ∈ Builtin.all, ∃ g ∈ FuncDef.builtins,
        FuncDef.builtins.find? (·.name == b.qualified) = some g ∧ g.builtin = true := by decide
    obtain ⟨g, -, hg, hblt⟩ := hfirst b b.mem_all
    rw [Table.lookupFunction?, hacc.faithful, hacc.order, find?_append, hg] at hlook
    cases hlook
    exact hblt

theorem entry_cases (hacc : p.Accepted hash strict parsed t)
    (hlook : t.lookupFunction? name = some f) :
    (∃ b : Builtin, entry name = .builtin b) ∨
      entry name = .function name ∧ ∃ d ∈ p.functions, d.name.1.literal = name := by
  have hcat := catalogued_of_accepted hacc name f hlook
  cases hblt : f.builtin with
  | true =>
    obtain ⟨b, rfl⟩ := hcat.mp hblt
    exact .inl ⟨b, entry_qualified b⟩
  | false =>
    refine .inr ⟨entry_of_ne fun b hb => ?_, ?_⟩
    · rw [hcat.mpr ⟨b, hb⟩] at hblt
      cases hblt
    · have hname := (known_of_accepted hacc hlook).1
      rw [Table.lookupFunction?, hacc.faithful, hacc.order] at hlook
      rcases mem_append.mp (mem_of_find?_eq_some hlook) with hmem | hmem
      · have hall : ∀ g ∈ FuncDef.builtins, g.builtin = true := by decide
        rw [hall f hmem] at hblt
        cases hblt
      · obtain ⟨d, hd, rfl⟩ := mem_map.mp hmem
        exact ⟨d, hd, hname⟩

end

section

variable {t : Table} {functions : List (Function × List Instr)}

theorem map_fst_lowerFunctions (t : Table) (fns : List Function) (σ : LowerState) :
    (lowerFunctions t fns σ).1.map Prod.fst = fns := by
  induction fns generalizing σ with
  | nil => rfl
  | cons fn rest ih => rw [lowerFunctions_cons, map_cons, ih]

theorem mem_lowerFunctions {fns : List Function} (h : fc ∈ (lowerFunctions t fns σ).1) :
    fc.1 ∈ fns ∧ ∃ σ', fc.2 = (lowerFunction t fc.1 σ').1 := by
  induction fns generalizing σ with
  | nil => cases h
  | cons fn rest ih =>
    rcases mem_cons.mp h with rfl | h
    · exact ⟨mem_cons_self, σ, rfl⟩
    · obtain ⟨hmem, hcode⟩ := ih h
      exact ⟨mem_cons_of_mem _ hmem, hcode⟩

theorem code_generate_sections (comments : Bool) (t : Table) (p : Tree.Program) :
    (generate comments t p).code =
      startCode ++ (sections (lowerFunctions t p.functions ⟨0, none⟩).1).flatMap Prod.snd := by
  have hsections := code_sections (fun s : Bytes × List Instr => section_ comments s.1 s.2) Prod.snd
    (fun s => code_section comments s.1 s.2)
  rw [Generated.code, lines_generate, filterMap_append, hsections]
  rfl

/-- The code of built-in functions can be read back, its jumps stay in it, and it calls nothing. -/
structure SelfContained (code : List Instr) : Prop where
  proper : ∀ i ∈ code, i.Proper
  jumps : ∀ l ∈ code.filterMap Instr.jump?, l ∈ labels code
  calls : callees code = []

theorem selfContained_builtinCode (b : Builtin) : SelfContained (builtinCode b) := by
  have hproper : ∀ b ∈ Builtin.all, ∀ i ∈ builtinCode b, i.Proper := by decide +kernel
  have hjumps : ∀ b ∈ Builtin.all, ∀ l ∈ (builtinCode b).filterMap Instr.jump?,
      l ∈ labels (builtinCode b) := by decide +kernel
  have hcalls : ∀ b ∈ Builtin.all, callees (builtinCode b) = [] := by decide +kernel
  exact ⟨hproper b b.mem_all, hjumps b b.mem_all, hcalls b b.mem_all⟩

theorem mem_sections {s : Bytes × List Instr} :
    s ∈ sections functions ↔ (∃ fc ∈ functions, s = (fc.1.definition.signature, fc.2)) ∨
      ∃ b ∈ calledBuiltins (functionsCode functions), s = (b.qualified, builtinCode b) := by
  simp only [sections, mem_append, mem_map, eq_comm]

theorem mem_calledBuiltins {code : List Instr} :
    b ∈ calledBuiltins code ↔ .builtin b ∈ callees code := by
  have hb := b.mem_all
  have hcall {i : Instr} {l : Label} : i.call? = some l ↔ i = .call l := by
    constructor
    · intro hi
      cases i with
      | call l' =>
        cases hi
        rfl
      | _ => cases hi
    · rintro rfl
      rfl
  simp only [calledBuiltins, mem_filter, hb, true_and, contains_iff_mem, callees,
    mem_filterMap, hcall, exists_eq_right]

/-- Functions whose code, with that of the built-in functions behind it, leads nowhere else. -/
structure Whole (functions : List (Function × List Instr)) : Prop where
  proper : ∀ s ∈ sections functions, ProperSection s
  jumps : ∀ s ∈ sections functions, ∀ l ∈ s.2.filterMap Instr.jump?, l ∈ labels s.2
  calls : ∀ l ∈ callees (startCode ++ (sections functions).flatMap Prod.snd),
    l.Proper ∧ ∃ s ∈ sections functions, l ∈ labels s.2

end

section

variable {p : Grammar.Program} {hash : NameHash} {parsed : Parsed} {t : Table}

theorem mirrors_of_passed (h : Typing.Passed p hash strict parsed t q u)
    (hfail : (lowerFunctions u q.functions ⟨0, none⟩).2.failure = none) :
    Mirrors u (q.functions.flatMap (function everywhere))
      (functionsCode (lowerFunctions u q.functions ⟨0, none⟩).1) := by
  obtain ⟨-, href, htyped⟩ := h.advances
  have hcat : Catalogued u := by
    intro name f hlook
    rw [href.lookupFunction?] at hlook
    exact catalogued_of_accepted h.toAccepted name f hlook
  exact mirrors_lowerFunctions hcat (linked_of_passed h false).known (htyped u (.refl _)) hfail

theorem whole_of_passed (h : Typing.Passed p hash strict parsed t q u)
    (hnames : Grammar.NamesIn Identifier p.tokens)
    (hmain : ∃ d ∈ p.functions, d.name.1.literal = ofString "main")
    (hfail : (lowerFunctions u q.functions ⟨0, none⟩).2.failure = none) :
    Whole (lowerFunctions u q.functions ⟨0, none⟩).1 := by
  obtain ⟨-, href, -⟩ := h.advances
  obtain ⟨hfnNames, hshows⟩ := shows_of_passed h
  have hmirrors := mirrors_of_passed h hfail
  have hplace := proper_place h.toAccepted hnames h.retains
  generalize hfuncs : (lowerFunctions u q.functions ⟨0, none⟩).1 = functions at hmirrors ⊢
  -- A function that is called is there, whether of the program or built in.
  have hfunction {d : Grammar.Function} (hd : d ∈ p.functions) :
      (Label.function d.name.1.literal).Proper ∧
        ∃ s ∈ sections functions, .function d.name.1.literal ∈ labels s.2 := by
    refine ⟨(identifier_function hnames hd).1, ?_⟩
    have hname : d.name.1.literal ∈ q.functions.map (·.name) := by
      rw [hfnNames]
      exact mem_map_of_mem hd
    obtain ⟨fn, hfn, hname⟩ := mem_map.mp hname
    rw [← map_fst_lowerFunctions u q.functions ⟨0, none⟩, hfuncs] at hfn
    obtain ⟨fc, hfc, rfl⟩ := mem_map.mp hfn
    obtain ⟨-, σ, hcode⟩ := mem_lowerFunctions (hfuncs ▸ hfc)
    refine ⟨_, mem_sections.mpr (.inl ⟨fc, hfc, rfl⟩), ?_⟩
    rw [hcode, labels_lowerFunction, hname]
    exact mem_cons_self
  have hcallee {l : Label} (hl : l ∈ callees (functionsCode functions)) :
      l.Proper ∧ ∃ s ∈ sections functions, l ∈ labels s.2 := by
    have hentry := hl
    rw [hmirrors.callees] at hentry
    obtain ⟨c, hc, rfl⟩ := mem_map.mp hentry
    obtain ⟨f, hf⟩ := hmirrors.known c hc
    have hlook := hf.known
    rw [href.lookupFunction?] at hlook
    rcases entry_cases h.toAccepted hlook with ⟨b, hb⟩ | ⟨hentry, d, hd, hname⟩
    · rw [hb] at hl ⊢
      exact ⟨trivial, _, mem_sections.mpr (.inr ⟨b, mem_calledBuiltins.mpr hl, rfl⟩),
        mem_cons_self⟩
    · rw [hentry, ← hname]
      exact hfunction hd
  constructor
  case proper =>
    intro part hpart
    rcases mem_sections.mp hpart with ⟨fc, hfc, rfl⟩ | ⟨b, -, rfl⟩
    · obtain ⟨hfn, σ, hcode⟩ := mem_lowerFunctions (hfuncs ▸ hfc)
      obtain ⟨d, hd, m, -, -, hshow⟩ := hshows fc.1 hfn
      have hname : Identifier fc.1.name := hshow.name ▸ (identifier_function hnames hd).1
      refine ⟨hshow.definition ▸ newline_not_mem_signature hnames hd, fun i hi => ?_⟩
      cases hcall : i.call? with
      | none => exact proper_lowerFunction hplace hname (hcode ▸ hi) hcall
      | some l =>
        cases i with
        | call l' =>
          cases hcall
          refine forall_mem_singleton.mpr (hcallee ?_).1
          exact mem_filterMap.mpr ⟨_, mem_flatMap.mpr ⟨fc, hfc, hi⟩, rfl⟩
        | _ => cases hcall
    · have hnewline : ∀ b ∈ Builtin.all, ascii '\n' ∉ b.qualified := by decide
      exact ⟨hnewline b b.mem_all, (selfContained_builtinCode b).proper⟩
  case jumps =>
    intro part hpart l hl
    rcases mem_sections.mp hpart with ⟨fc, hfc, rfl⟩ | ⟨b, -, rfl⟩
    · obtain ⟨i, hi, hjump⟩ := mem_filterMap.mp hl
      obtain ⟨-, σ, hcode⟩ := mem_lowerFunctions (hfuncs ▸ hfc)
      rw [hcode] at hi ⊢
      exact jump_mem_labels hi hjump
    · exact (selfContained_builtinCode b).jumps l hl
  case calls =>
    intro l hl
    rw [callees_append, mem_append] at hl
    rcases hl with hl | hl
    · obtain ⟨d, hd, hname⟩ := hmain
      rw [mem_singleton.mp hl, ← hname]
      exact hfunction hd
    · obtain ⟨i, hi, hcall⟩ := mem_filterMap.mp hl
      obtain ⟨part, hpart, hi⟩ := mem_flatMap.mp hi
      rcases mem_sections.mp hpart with ⟨fc, hfc, rfl⟩ | ⟨b, -, rfl⟩
      · exact hcallee (mem_filterMap.mpr ⟨i, mem_flatMap.mpr ⟨fc, hfc, hi⟩, hcall⟩)
      · have hnone := (selfContained_builtinCode b).calls
        rw [callees, filterMap_eq_nil_iff] at hnone
        rw [hnone i hi] at hcall
        cases hcall

end

end Code

namespace Typing

open Code

def callNames (nodes : List NodeRef) : List Bytes := (callsAmong nodes).map (·.name)

theorem callNames_append (ns ms : List NodeRef) :
    callNames (ns ++ ms) = callNames ns ++ callNames ms := by
  rw [callNames, callsAmong_append, map_append]
  rfl

theorem callNames_visit (hn : call? n = none) (below : List NodeRef) :
    callNames (visit everywhere n below) = callNames below := by
  rw [callNames, callsAmong_visit hn]
  rfl

theorem callNames_items (xs : List Expr) :
    callNames (exprs everywhere (bare xs)) = callNames (exprs everywhere xs) := by
  induction xs with
  | nil => rfl
  | cons x rest ih =>
    have hx : callNames (expr everywhere (bareItem x)) = callNames (expr everywhere x) := by
      cases x <;> rfl
    rw [bare_items] at ih ⊢
    rw [map_cons, exprs, exprs, callNames_append, callNames_append, hx, ih]

theorem callNames_value (x : Expr) :
    callNames (expr everywhere (bare x)) = callNames (expr everywhere x) := by
  cases x with
  | expression e => exact callNames_items e.items
  | call c => exact congrArg (c.name :: ·) (callNames_items c.args)
  | value | «variable» | operand | truth => rfl

theorem callNames_guard (g : Guard) :
    callNames (Walk.guard everywhere (bare g)) = callNames (Walk.guard everywhere g) := by
  cases g with
  | compare c =>
    have htruth (c : Truth) : callNames (Walk.guard everywhere (.compare c)) =
        callNames (Walk.exprs everywhere c.left.items) ++
          callNames (Walk.exprs everywhere c.right.items) := by
      rw [Walk.guard, Walk.expr, callNames_visit rfl, callNames_append, callNames_visit rfl,
        callNames_visit rfl]
    exact (htruth (bare c)).trans ((congrArg₂ _ (callNames_items c.left.items)
      (callNames_items c.right.items)).trans (htruth c).symm)
  | unwrap => rfl

mutual

theorem callNames_stmt (x : Stmt) :
    callNames (Walk.stmt everywhere (bareStmt x)) = callNames (Walk.stmt everywhere x) := by
  cases x with
  | declare pos r x => exact callNames_value x
  | assign pos r x => exact callNames_value x
  | call c => exact callNames_value (.call c)
  | ifElse pos g yes no =>
    cases no with
    | none =>
      rw [bareStmt, callNames, callNames, callsAmong_if, callsAmong_if, map_append,
        map_append]
      exact congrArg₂ _ (callNames_guard g) (callNames_stmts yes.stmts)
    | some e =>
      rw [bareStmt, callNames, callNames, callsAmong_ifElse, callsAmong_ifElse]
      simp only [map_append]
      exact congrArg₂ _ (congrArg₂ _ (callNames_guard g) (callNames_stmts yes.stmts))
        (callNames_stmts e.body.stmts)
  | «while» pos g body =>
    rw [bareStmt, callNames, callNames, callsAmong_while, callsAmong_while, map_append,
      map_append]
    exact congrArg₂ _ (callNames_guard g) (callNames_stmts body.stmts)
  | «return» pos x =>
    cases x with
    | none => rfl
    | some x => exact callNames_value x
  | elseStart e =>
    rw [bareStmt, Walk.stmt, Walk.stmt, callNames, callNames, callsAmong_else, callsAmong_else]
    exact callNames_stmts e.body.stmts
  | blockEnd e => rfl
termination_by structural x

theorem callNames_stmts (xs : List Stmt) :
    callNames (Walk.stmts everywhere (bareStmts xs)) = callNames (Walk.stmts everywhere xs) := by
  cases xs with
  | nil => rfl
  | cons x rest =>
    rw [bareStmts, Walk.stmts, Walk.stmts, callNames_append, callNames_append, callNames_stmt x,
      callNames_stmts rest]
termination_by structural xs

end

theorem callNames_functions {fns : List Function} (h : bare fns' = bare fns) :
    callNames (fns'.flatMap (Walk.function everywhere)) =
      callNames (fns.flatMap (Walk.function everywhere)) := by
  have hfunction (fn : Function) : callNames (Walk.function everywhere (bare fn)) =
      callNames (Walk.function everywhere fn) := by
    rw [Walk.function, Walk.function, callNames_visit rfl, callNames_visit rfl, callNames,
      callNames, callsAmong_block, callsAmong_block]
    exact callNames_stmts fn.body.stmts
  have hall (fns : List Function) : callNames (fns.flatMap (Walk.function everywhere)) =
      (fns.map fun fn => callNames (Walk.function everywhere fn)).flatten := by
    induction fns with
    | nil => rfl
    | cons fn rest ih => rw [flatMap_cons, callNames_append, ih, map_cons, flatten_cons]
  rw [hall, hall, map_of_bare hfunction h]

end Typing

def Tree.Program.CallsBuiltin (p : Tree.Program) (b : Code.Builtin) : Prop :=
  b.qualified ∈ callNames (program Code.everywhere p)

instance (p : Tree.Program) (b : Code.Builtin) : Decidable (p.CallsBuiltin b) :=
  inferInstanceAs (Decidable (_ ∈ _))

namespace Assembly

open Code

/-- A text in which every jump and every call goes to the one place it names. The parts of the
text are the start, the functions of the program and the built-in functions that it calls. -/
structure Closed (program : Tree.Program) (text : Bytes) : Prop where
  unique : (labels (lines text)).Nodup
  defined : ∀ l ∈ jumps (lines text) ++ calls (lines text), (labels (lines text)).count l = 1
  inside : ∀ part ∈ parts text, ∀ l ∈ jumps part, l ∈ labels part
  layout : ∃ start functions helpers, parts text = start :: (functions ++ helpers) ∧
    labels start = [] ∧
    functions.map (fun part => (uncommented part).head?) =
      program.functions.map (fun f => some (Instr.label (.function f.name)).text) ∧
    helpers.map uncommented =
      (Builtin.all.filter fun b => program.CallsBuiltin b).map fun b =>
        (builtinCode b).map Instr.text
  helper : ∀ b : Builtin, (labels (lines text)).count (Label.builtin b).text =
    if program.CallsBuiltin b then 1 else 0

section

variable {l : Label}

variable {comments : Bool} {t : Table}

section

variable {q : Tree.Program} (h : Whole (lowerFunctions t q.functions ⟨0, none⟩).1)

include h

theorem proper_lines : ∀ l ∈ (generate comments t q).lines, l.Proper := by
  rw [lines_generate]
  refine forall_mem_append.mpr ⟨?_, fun l hl => ?_⟩
  · have hstart : ∀ i ∈ startCode, i.Proper := by decide
    intro l hl
    cases l with
    | instr i =>
      have hi : i ∈ prologue.filterMap Line.instr? := mem_filterMap.mpr ⟨_, hl, rfl⟩
      exact hstart i hi
    | comment text => simp [prologue] at hl
    | header | blank => exact trivial
  · obtain ⟨s, hs, hl⟩ := mem_flatMap.mp hl
    rcases mem_cons.mp hl with rfl | hl
    · exact trivial
    · exact (h.proper s hs).lines comments l hl

theorem parts_generate : parts (generate comments t q).text.flatten =
      prologue.map Line.text :: (sections (lowerFunctions t q.functions ⟨0, none⟩).1).map fun s =>
        (partLines comments s).map Line.text := by
  rw [parts, lines_text (proper_lines h), lines_generate, splitOnP_lines]

theorem labels_generate : labels (lines (generate comments t q).text.flatten) =
      (Machine.labels (generate comments t q).code).map Label.text := by
  rw [labels, lines_text (proper_lines h), reads_label.filterMap_lines (proper_lines h)]
  rfl

theorem proper_of_mem_code (hi : i ∈ (generate comments t q).code) : i.Proper := by
  obtain ⟨l, hl, hinstr⟩ := mem_filterMap.mp hi
  have hproper := proper_lines h l hl
  cases l with
  | instr i' =>
    cases hinstr
    exact hproper
  | header | blank | comment => cases hinstr

theorem proper_label (hl : l ∈ Machine.labels (generate comments t q).code) : l.Proper := by
  obtain ⟨i, hi, hlabel⟩ := mem_filterMap.mp hl
  have hproper := proper_of_mem_code h hi
  cases i with
  | label l' =>
    cases hlabel
    exact hproper (.label l) mem_cons_self
  | _ => cases hlabel

theorem text_mem_labels
    (hl : l.Proper) : l.text ∈ labels (lines (generate comments t q).text.flatten) ↔
      l ∈ Machine.labels (generate comments t q).code := by
  rw [labels_generate h]
  refine ⟨fun hmem => ?_, mem_map_of_mem⟩
  obtain ⟨l', hl', heq⟩ := mem_map.mp hmem
  rw [← Label.Proper.text_injective (proper_label h hl') hl heq]
  exact hl'

end

theorem mem_labels_of_section {s : Bytes × List Instr}
    (hs : s ∈ sections (lowerFunctions t q.functions ⟨0, none⟩).1) (hl : l ∈ Machine.labels s.2) :
    l ∈ Machine.labels (generate comments t q).code := by
  obtain ⟨i, hi, hlabel⟩ := mem_filterMap.mp hl
  rw [code_generate_sections]
  exact mem_filterMap.mpr
    ⟨i, mem_append_right _ (mem_flatMap.mpr ⟨s, hs, hi⟩), hlabel⟩

theorem builtin_mem_labels (hnames : (q.functions.map (·.name)).Nodup) (b : Builtin) :
    .builtin b ∈ Machine.labels (generate comments t q).code ↔
      b ∈ calledBuiltins (functionsCode (lowerFunctions t q.functions ⟨0, none⟩).1) := by
  refine ⟨fun hmem => ?_, fun hb => ?_⟩
  · rw [code_generate_sections, Machine.labels_append, mem_append] at hmem
    rcases hmem with hmem | hmem
    · cases hmem
    obtain ⟨i, hi, hlabel⟩ := mem_filterMap.mp hmem
    obtain ⟨s, hs, hi⟩ := mem_flatMap.mp hi
    have hmem : .builtin b ∈ Machine.labels s.2 := mem_filterMap.mpr ⟨i, hi, hlabel⟩
    rcases mem_sections.mp hs with ⟨fc, hfc, rfl⟩ | ⟨b', hb', rfl⟩
    · have huser := labelled_lowerFunctions t q.functions ⟨0, none⟩ hnames
      have hall : .builtin b ∈
          Machine.labels (functionsCode (lowerFunctions t q.functions ⟨0, none⟩).1) :=
        mem_filterMap.mpr ⟨i, mem_flatMap.mpr ⟨fc, hfc, hi⟩, hlabel⟩
      rcases huser.range _ hall with ⟨name, -, heq⟩ | ⟨owner, tag, n, heq, -⟩
      · cases heq
      · cases heq
    · have hown : ∀ b ∈ Builtin.all, ∀ b' ∈ Builtin.all,
          .builtin b ∈ Machine.labels (builtinCode b') → b = b' := by decide +kernel
      rw [hown b b.mem_all b' b'.mem_all hmem]
      exact hb'
  · exact mem_labels_of_section (mem_sections.mpr (.inr ⟨b, hb, rfl⟩)) mem_cons_self

variable {program : Tree.Program}

theorem layout_generate (h : Whole (lowerFunctions t q.functions ⟨0, none⟩).1)
    (hnames : q.functions.map (·.name) = program.functions.map (·.name))
    (hcalls : ∀ b, .builtin b ∈ callees (functionsCode (lowerFunctions t q.functions ⟨0, none⟩).1) ↔
      program.CallsBuiltin b) :
    ∃ start functions helpers,
      parts (generate comments t q).text.flatten = start :: (functions ++ helpers) ∧
      labels start = [] ∧
      functions.map (fun part => (uncommented part).head?) =
        program.functions.map (fun f => some (Instr.label (.function f.name)).text) ∧
      helpers.map uncommented =
        (Builtin.all.filter fun b => program.CallsBuiltin b).map fun b =>
          (builtinCode b).map Instr.text := by
  rw [parts_generate h, Code.sections, map_append]
  refine ⟨_, _, _, rfl, by decide, ?_, ?_⟩
  · have hhead : ∀ fc ∈ (lowerFunctions t q.functions ⟨0, none⟩).1,
        (fc.2.map Instr.text).head? = some (Instr.label (.function fc.1.name)).text := by
      intro fc hfc
      obtain ⟨-, σ, hcode⟩ := mem_lowerFunctions hfc
      rw [hcode, Machine.lowerFunction_eq]
      rfl
    have hfuncs : program.functions.map (fun f => some (Instr.label (.function f.name)).text) =
        (program.functions.map (·.name)).map fun name =>
          some (Instr.label (.function name)).text := by
      rw [map_map]
      rfl
    have hfirst : q.functions.map (·.name) =
        (lowerFunctions t q.functions ⟨0, none⟩).1.map fun fc => fc.1.name := by
      rw [← map_fst_lowerFunctions t q.functions ⟨0, none⟩, map_map,
        map_fst_lowerFunctions]
      rfl
    rw [hfuncs, ← hnames, hfirst, map_map, map_map, map_map]
    refine map_congr_left fun fc hfc => ?_
    have hpart := uncommented_part comments (fc.1.definition.signature, fc.2)
    exact (congrArg List.head? hpart).trans (hhead fc hfc)
  · have hcalled : calledBuiltins (functionsCode (lowerFunctions t q.functions ⟨0, none⟩).1) =
        Builtin.all.filter fun b => program.CallsBuiltin b := by
      refine filter_congr fun b hb => ?_
      rw [Bool.eq_iff_iff, decide_eq_true_iff, ← hcalls b, ← mem_calledBuiltins, calledBuiltins,
        mem_filter]
      exact (and_iff_right hb).symm
    rw [hcalled, map_map, map_map]
    refine map_congr_left fun b hb => ?_
    exact uncommented_part comments (b.qualified, builtinCode b)

theorem closed_generate (h : Whole (lowerFunctions t q.functions ⟨0, none⟩).1)
    (hnames : q.functions.map (·.name) = program.functions.map (·.name))
    (hnodup : (q.functions.map (·.name)).Nodup)
    (hcalls : ∀ b, .builtin b ∈ callees (functionsCode (lowerFunctions t q.functions ⟨0, none⟩).1) ↔
      program.CallsBuiltin b) :
    Closed program (generate comments t q).text.flatten := by
  have hunique : (labels (lines (generate comments t q).text.flatten)).Nodup := by
    rw [labels_generate h]
    refine pairwise_map.mpr ((nodup_labels_generate comments t q hnodup).imp_of_mem ?_)
    intro l l' hl hl' hne heq
    exact hne (Label.Proper.text_injective (proper_label h hl) (proper_label h hl') heq)
  have hdef {l : Label} (hl : l ∈ Machine.labels (generate comments t q).code) :
      (labels (lines (generate comments t q).text.flatten)).count l.text = 1 := by
    rw [hunique.count, if_pos ((text_mem_labels h (proper_label h hl)).mpr hl)]
  constructor
  case unique => exact hunique
  case defined =>
    refine forall_mem_append.mpr ⟨fun text htext => ?_, fun text htext => ?_⟩
    · rw [jumps, lines_text (proper_lines h), reads_jump.filterMap_lines (proper_lines h)] at htext
      obtain ⟨l, hl, rfl⟩ := mem_map.mp htext
      have hl : l ∈ (generate comments t q).code.filterMap Instr.jump? := hl
      rw [code_generate_sections, filterMap_append, mem_append] at hl
      rcases hl with hl | hl
      · cases hl
      obtain ⟨i, hi, hjump⟩ := mem_filterMap.mp hl
      obtain ⟨s, hs, hi⟩ := mem_flatMap.mp hi
      exact hdef
        (mem_labels_of_section hs (h.jumps s hs l (mem_filterMap.mpr ⟨i, hi, hjump⟩)))
    · rw [calls, lines_text (proper_lines h), reads_call.filterMap_lines (proper_lines h)] at htext
      obtain ⟨l, hl, rfl⟩ := mem_map.mp htext
      have hl : l ∈ callees (generate comments t q).code := hl
      rw [code_generate_sections] at hl
      obtain ⟨-, s, hs, hmem⟩ := h.calls l hl
      exact hdef (mem_labels_of_section hs hmem)
  case inside =>
    rw [parts_generate h]
    refine forall_mem_cons.mpr ⟨?_, fun part hpart => ?_⟩
    · have hnone : jumps (prologue.map Line.text) = [] := by decide
      exact fun l hl => nomatch hl
    · obtain ⟨s, hs, rfl⟩ := mem_map.mp hpart
      intro text htext
      rw [jumps, reads_jump.part comments (h.proper s hs)] at htext
      obtain ⟨l, hl, rfl⟩ := mem_map.mp htext
      rw [labels, reads_label.part comments (h.proper s hs)]
      exact mem_map_of_mem (h.jumps s hs l hl)
  case layout => exact layout_generate h hnames hcalls
  case helper =>
    intro b
    have hmem : (Label.builtin b).text ∈ labels (lines (generate comments t q).text.flatten) ↔
        program.CallsBuiltin b := by
      rw [text_mem_labels h (l := .builtin b) trivial, builtin_mem_labels hnodup,
        mem_calledBuiltins, hcalls]
    simp only [hunique.count, hmem]

end

end Assembly

section

variable {ts : List Token} {parsed : Parsed} {t : Table}

variable {o : Options} {file source output : Bytes}

theorem Traced.exists_of_bind {α β : Type} {x : Traced α} {f : α → Traced β} {b : β}
    (h : (x >>= f).result = .ok b) : ∃ a, x.result = .ok a ∧ (f a).result = .ok b := by
  rw [Traced.result_bind] at h
  cases hx : x.result with
  | error d =>
    rw [hx] at h
    cases h
  | ok a =>
    rw [hx] at h
    exact ⟨a, rfl, h⟩

theorem tokenize_of_readTokens
    (h : (readTokens file source).result = .ok ts) : tokenize file source = .ok ts := by
  unfold readTokens at h
  cases htoks : tokenize file source with
  | error e =>
    rw [htoks] at h
    cases h
  | ok ts' =>
    rw [htoks] at h
    cases h
    rfl

theorem parse_of_parseTokens {strict : Bool}
    (h : (parseTokens strict ts).result = .ok (parsed, t)) :
    parse (.ofTokens ts) (.fresh .fnv1a strict) = .ok parsed t := by
  unfold parseTokens at h
  cases hparse : parse (.ofTokens ts) (.fresh .fnv1a strict) with
  | error d u =>
    rw [EStateM.run, hparse] at h
    cases h
  | ok parsed' u =>
    rw [EStateM.run, hparse] at h
    cases h
    rfl

theorem check_of_checkTree (h : (checkTree parsed t).result = .ok c) :
    (check parsed t).failure = none ∧ c = ⟨(check parsed t).program, (check parsed t).table⟩ := by
  unfold checkTree at h
  cases hfail : (check parsed t).failure with
  | some d =>
    simp only [hfail] at h
    cases h
  | none =>
    simp only [hfail] at h
    cases h
    exact ⟨rfl, rfl⟩

theorem exists_steps_of_compile (h : (compile { o with emit := .code } file source).result = .ok output) :
    ∃ ts parsed t, tokenize file source = .ok ts ∧
      parse (.ofTokens ts) (.fresh .fnv1a o.strict) = .ok parsed t ∧
      (check parsed t).failure = none ∧
      let g := Code.generate o.comments (check parsed t).table (check parsed t).program
      g.failure = none ∧ output = g.text.flatten := by
  obtain ⟨c, hfront, hgen⟩ := Traced.exists_of_bind h
  obtain ⟨ts, htoks, hfront⟩ := Traced.exists_of_bind hfront
  obtain ⟨⟨parsed, t⟩, hparse, hcheck⟩ := Traced.exists_of_bind hfront
  obtain ⟨hfail, rfl⟩ := check_of_checkTree hcheck
  refine ⟨ts, parsed, t, tokenize_of_readTokens htoks, parse_of_parseTokens hparse, hfail, ?_⟩
  unfold Traced.phase generateCode at hgen
  dsimp only at hgen ⊢
  split at hgen
  · cases hgen
  · rename_i hnone
    cases hgen
    exact ⟨hnone, rfl⟩

end

/-- Whatever is compiled to code, with comments or without, is closed: its labels are different,
every jump and every call goes to exactly one of them, and jumps stay in the function or the
built-in function they start from. The code of a built-in function is there, once, if and only if
the program calls it, be it where no run comes. -/
theorem compile_closed (o : Options) (file source output : Bytes)
    (h : (compile { o with emit := .code } file source).result = .ok output) :
    ∃ ts parsed t, tokenize file source = .ok ts ∧
      parse (.ofTokens ts) (.fresh .fnv1a o.strict) = .ok parsed t ∧
      Assembly.Closed parsed.program output := by
  obtain ⟨ts, parsed, t, htoks, hparse, hcheck, hgen, rfl⟩ := exists_steps_of_compile h
  refine ⟨ts, parsed, t, htoks, hparse, ?_⟩
  obtain ⟨p, hacc, hmem, hmain⟩ := Grammar.exists_derivation hparse
  have hnames : Grammar.NamesIn Code.Identifier p.tokens := by
    intro a ha hname
    rcases hmem a ha with ha | heof
    · exact identifier_of_tokenize htoks ha hname
    · rw [hname] at heof
      cases heof
  have hchecked : (check { parsed with unused := none } t).failure = none := by
    change Option.or _ none = none
    rw [Option.or_none]
    exact (Option.or_eq_none_iff.mp hcheck).1
  have hpass := Passed.of_check hacc hchecked
  have hmirrors := Code.mirrors_of_passed hpass hgen
  have hfnNames := (Machine.shows_of_passed hpass).1
  refine closed_generate (Code.whole_of_passed hpass hnames hmain hgen)
    (map_of_bare (fun _ => rfl) hpass.bare) (hfnNames ▸ hacc.names) ?_
  intro b
  have hcalls : callNames (program Code.everywhere parsed.program) =
      callNames ((check parsed t).program.functions.flatMap (function Code.everywhere)) := by
    rw [program, callNames_visit rfl, callNames_functions hpass.bare]
  rw [hmirrors.callees, Tree.Program.CallsBuiltin, hcalls, callNames]
  constructor
  · intro hmem
    obtain ⟨c, hc, hentry⟩ := mem_map.mp hmem
    rw [← Code.entry_eq_builtin hentry]
    exact mem_map_of_mem hc
  · intro hmem
    obtain ⟨c, hc, hname⟩ := mem_map.mp hmem
    exact mem_map.mpr ⟨c, hc, by rw [hname, Code.entry_qualified]⟩

def unreachableSource : Bytes := "const ifj = @import(\"ifj24.zig\");
pub fn f(s: ?i32) void \x7b while (s) |n| \x7b f(n); \x7d return; ifj.write(s); \x7d
pub fn main() void \x7b f(null); \x7d"

theorem compile_closed_unreachable :
    ∃ output, (compile ⟨.code, .text, false, true⟩ "t" unreachableSource).result = .ok output ∧
      (labels (lines output)).count (ofString "$ifj$write") = 1 ∧
      ∃ ts parsed t, tokenize "t" unreachableSource = .ok ts ∧
        parse (.ofTokens ts) (.fresh .fnv1a false) = .ok parsed t ∧
        Assembly.Closed parsed.program output := by
  obtain ⟨output, houtput, hcount⟩ : ∃ output,
      (compile ⟨.code, .text, false, true⟩ "t" unreachableSource).result = .ok output ∧
        (labels (lines output)).count (ofString "$ifj$write") = 1 := by
    decide +kernel
  exact ⟨output, houtput, hcount,
    compile_closed ⟨.code, .text, false, true⟩ "t" unreachableSource output houtput⟩

end Ifj24
