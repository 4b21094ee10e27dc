import Ifj24.Proofs.Closure
import Ifj24.Proofs.Renumbering
import Ifj24.Proofs.TwinChecking

/-!
What the layout of a source and its name do not decide. Two sources with the same kinds and
literals of tokens are compiled to the same code, or are refused for reasons of one kind: each
phase takes twins to twins, and the code has no places.
-/

open List

namespace Ifj24

open Ifj24.Tree Typing Code Compile Token

section

variable {α β : Type}

theorem Token.Twin.of_content (h : b.content = a.content) : Token.Twin a b := by
  obtain ⟨kind', literal', pos'⟩ := b
  cases h
  exact .mk _ pos'

theorem Token.Twin.of_contents
    (h : bs.map content = as.map content) : List.Forall₂ Token.Twin as bs := by
  rw [← forall₂_eq_eq_eq, forall₂_map_left_iff, forall₂_map_right_iff] at h
  exact h.flip.imp fun _ _ h => .of_content h

theorem forall₂_dropLast (h : List.Forall₂ R xs ys) : List.Forall₂ R xs.dropLast ys.dropLast := by
  rw [dropLast_eq_take, dropLast_eq_take, h.length_eq]
  exact forall₂_take _ h

theorem forall₂_getLast? {R : α → β → Prop} {xs : List α} {ys : List β}
    (h : List.Forall₂ R xs ys) : Option.Rel R xs.getLast? ys.getLast? := by
  rw [getLast?_eq_getElem?, getLast?_eq_getElem?, h.length_eq]
  exact forall₂_getElem? h _

theorem bufferTwin_ofTokens (h : List.Forall₂ Token.Twin as bs) :
    BufferTwin (.ofTokens as) (.ofTokens bs) := by
  have hlast := forall₂_getLast? h
  unfold TokenBuffer.ofTokens
  generalize as.getLast? = a at hlast
  generalize bs.getLast? = b at hlast
  cases hlast with
  | none => exact ⟨.cons (.mk _ _) .nil, .mk _ _⟩
  | @some a b hab =>
    dsimp only
    rw [hab.kind]
    split
    · exact ⟨rel_append (forall₂_dropLast h) (.cons hab .nil), hab⟩
    · exact ⟨rel_append h (.cons (.mk _ _) .nil), .mk _ _⟩

end

section

theorem FuncDef.Twin.refl (f : FuncDef) : FuncDef.Twin f f := .mk f f.pos

theorem Table.Twin.fresh (hash : NameHash) {strict strict' : Bool}
    (hstrict : Table.AsStrict E strict strict') :
    Table.Twin E 1 1 0 (.fresh hash strict) (.fresh hash strict') := by
  have hnumbered (strict : Bool) : (Table.fresh hash strict).Numbered 1 0 := by
    refine ⟨Nat.one_pos, rfl, rfl, .refl _, fun i hi => absurd hi (Nat.not_lt_zero i), ?_⟩
    exact fun r hr => mem_singleton.mp hr
  refine ⟨rfl, hstrict, fun name => ?_, hnumbered _, hnumbered _, ?_, ?_, .nil, fun name => ?_⟩
  · change Option.Rel FuncDef.Twin _ ((Table.fresh hash strict).lookupFunction? name)
    cases (Table.fresh hash strict).lookupFunction? name with
    | none => exact .none
    | some f => exact .some (.refl f)
  · intro r s hrs
    rw [hrs.eq]
    exact ⟨rfl, rfl, rfl, rfl⟩
  · exact fun i hi => absurd hi (Nat.not_lt_zero i)
  · show Option.Rel _ ((NameIndex.insert hash _ _ _).find? hash name)
      ((NameIndex.insert hash _ _ _).find? hash name)
    rw [NameIndex.find?_insert]
    refine option_rel_or .none ?_
    split
    · exact .some .discard
    · exact .none

theorem readTokens_alike (h : (tokenize file source).toOption.map (·.map content) =
      (tokenize file' source').toOption.map (·.map content)) :
    ExceptAlike (List.Forall₂ Token.Twin) (readTokens file source).result
      (readTokens file' source').result := by
  unfold readTokens
  cases hts : tokenize file source with
  | error e =>
    cases hts' : tokenize file' source' with
    | error e' => exact .error rfl
    | ok ts' =>
      rw [hts, hts'] at h
      cases h
  | ok ts =>
    cases hts' : tokenize file' source' with
    | error e' =>
      rw [hts, hts'] at h
      cases h
    | ok ts' =>
      rw [hts, hts'] at h
      exact .ok (Token.Twin.of_contents (Option.some.inj h).symm)

theorem parseTokens_alike (hstrict : Table.AsStrict E strict strict')
    (h : List.Forall₂ Token.Twin ts ts') :
    ExceptAlike (fun x y => ∃ c, ParsedTwin E 1 1 c x.1 y.1 ∧ Table.Twin E 1 1 c x.2 y.2)
      (parseTokens strict ts).result (parseTokens strict' ts').result := by
  have hparse := parse_alike (bufferTwin_ofTokens h) (.fresh .fnv1a hstrict)
  unfold parseTokens EStateM.run
  generalize parse (.ofTokens ts) (.fresh .fnv1a strict) = a at hparse
  generalize parse (.ofTokens ts') (.fresh .fnv1a strict') = b at hparse
  cases hparse with
  | error hkind => exact .error hkind
  | ok hparsed =>
    obtain ⟨c, -, hparsed⟩ := hparsed
    exact .ok ⟨c, hparsed⟩

/-- Checked programs of which the variables have the same places. -/
def CheckedTwin (c c' : CheckedProgram) : Prop :=
  ∃ ρ, List.Forall₂ (FunctionTwin ρ) c.program.functions c'.program.functions ∧
    PlacesAlike .same ρ c.table c'.table

/-- Results that are alike, unless only the second is refused, for a broken rule of use. The latter
is not so if `E`. -/
inductive RefusedAlike (E : Prop) (R : α → β → Prop) :
    Except Diagnostic α → Except Diagnostic β → Prop
  | ok {a : α} {b : β} : R a b → RefusedAlike E R (.ok a) (.ok b)
  | error {d e : Diagnostic} : SameKind d e → RefusedAlike E R (.error d) (.error e)
  | second {a : α} {e : Diagnostic} (hE : ¬ E) (he : e.kind = .unusedVariable) :
      RefusedAlike E R (.ok a) (.error e)

theorem ExceptAlike.bind_refused (h : ExceptAlike R a b)
    (hfg : ∀ x y, R x y → RefusedAlike E Q (f x) (g y)) : RefusedAlike E Q (a >>= f) (b >>= g) := by
  cases h with
  | ok hxy => exact hfg _ _ hxy
  | error hkind => exact .error hkind

theorem RefusedAlike.alike (h : RefusedAlike True R a b) : ExceptAlike R a b := by
  cases h with
  | ok hab => exact .ok hab
  | error hkind => exact .error hkind
  | second hE _ => exact absurd trivial hE

theorem checkTree_alike (hxy : ParsedTwin E 1 1 c x y) (htu : Table.Twin E 1 1 c t u) :
    RefusedAlike E CheckedTwin (checkTree x t).result (checkTree y u).result := by
  have hagree : Table.Agree 1 1 c := fun _ _ => rfl
  -- What is unused comes behind all other failures, so these are compared first.
  obtain ⟨hfail, hpassed⟩ := check_alike (oneToOne_paired htu) (x := { x with unused := none })
    (y := { y with unused := none }) hxy.functions .none (.of_twin htu hagree)
  have hor (parsed : Parsed) (t : Table) : (check parsed t).failure =
      (check { parsed with unused := none } t).failure.or parsed.unused := by
    rcases hrun : (functions parsed.program.functions).run ⟨t, 0⟩ with ⟨⟨checked, trace⟩, s⟩
    simp [check, hrun]
  have hfound := hxy.unused hagree
  unfold checkTree
  dsimp only
  rw [hor x, hor y]
  generalize (check { x with unused := none } t).failure = failure at hfail hpassed
  generalize (check { y with unused := none } u).failure = failure' at hfail
  generalize x.unused = found at hfound
  generalize y.unused = found' at hfound
  cases hfail with
  | some hkind => exact .error hkind
  | none =>
    cases hfound with
    | both hd he => exact .error (he.trans hd.symm)
    | second hE he => exact .second hE he
    | none =>
      refine .ok ⟨_, (hpassed rfl).1, ?_⟩
      exact placesAlike_of_twin htu hagree (persists_check x t) (persists_check y u) fun _ _ => rfl

theorem frontEnd_alike (hstrict : Table.AsStrict E strict strict')
    (h : (tokenize file source).toOption.map (·.map content) =
      (tokenize file' source').toOption.map (·.map content)) :
    RefusedAlike E CheckedTwin (frontEnd strict file source).result
      (frontEnd strict' file' source').result := by
  unfold frontEnd
  rw [Traced.result_bind, Traced.result_bind]
  refine (readTokens_alike h).bind_refused fun ts ts' hts => ?_
  rw [Traced.result_bind, Traced.result_bind]
  refine (parseTokens_alike hstrict hts).bind_refused fun x y hxy => ?_
  obtain ⟨c, hparsed, htable⟩ := hxy
  exact checkTree_alike hparsed htable

theorem sections_alike
    (h : List.Forall₂ (fun a b => FunctionTwin ρ a.1 b.1 ∧ Copied .same a.2 b.2) fs fs') :
    Code.sections fs' = Code.sections fs := by
  have hparts : fs'.map (fun fc => (fc.1.definition.signature, fc.2)) =
      fs.map fun fc => (fc.1.definition.signature, fc.2) := by
    induction h with
    | nil => rfl
    | cons hfirst _ ih =>
      obtain ⟨hfn, hcode⟩ := hfirst
      rw [map_cons, map_cons, ih, hcode.eq_of_same, hfn.signature]
  have hcode : functionsCode fs' = functionsCode fs := by
    have hsnd := congrArg (List.flatMap Prod.snd) hparts
    rwa [flatMap_map, flatMap_map] at hsnd
  rw [Code.sections, Code.sections, hparts, hcode]

theorem generateCode_alike (comments : Bool) (h : CheckedTwin c c') :
    ExceptAlike Eq (generateCode comments c).result
      (generateCode comments c').result := by
  obtain ⟨ρ, hfuncs, hplace⟩ := h
  have hcounts : Renumbering.same.CountsOn 0 := fun _ _ => rfl
  obtain ⟨hcode, hstate⟩ := lowerFunctions_alike hcounts hplace hfuncs
    none none ⟨0, none⟩ ⟨0, none⟩ ⟨Nat.le_refl 0, rfl, none, none, rfl, rfl, .none⟩
  obtain ⟨found, found', hfound, hfound', hrel⟩ := hstate.failure
  have hlines : (generate comments c'.table c'.program).lines =
      (generate comments c.table c.program).lines := by
    rw [lines_generate, lines_generate, sections_alike hcode]
  have hfail : Option.Rel SameKind (generate comments c.table c.program).failure
      (generate comments c'.table c'.program).failure := by
    change Option.Rel SameKind (lowerFunctions c.table c.program.functions ⟨0, none⟩).2.failure
      (lowerFunctions c'.table c'.program.functions ⟨0, none⟩).2.failure
    rw [hfound, hfound']
    exact hrel
  unfold generateCode Generated.text
  dsimp only
  rw [hlines]
  generalize (generate comments c.table c.program).failure = a at hfail
  generalize (generate comments c'.table c'.program).failure = b at hfail
  cases hfail with
  | none => exact .ok rfl
  | some hkind => exact .error hkind

theorem code_alike (o : Options) (h : (tokenize file source).toOption.map (·.map content) =
      (tokenize file' source').toOption.map (·.map content)) :
    ExceptAlike Eq (code o file source).result (code o file' source').result := by
  have hfront : RefusedAlike True CheckedTwin (frontEnd o.strict file source).result
      (frontEnd o.strict file' source').result := frontEnd_alike ⟨fun _ => rfl, id⟩ h
  unfold code
  rw [Traced.result_bind, Traced.result_bind]
  exact hfront.alike.bind fun _ _ hc => generateCode_alike o.comments hc

end

/-- Two sources with the same kinds and literals of tokens, whatever their names, comments, blanks
and spellings of strings, are compiled to the same code or are refused for reasons of one kind. -/
theorem compile_layout_independent (o : Options) (file file' source source' : Bytes)
    (h : (tokenize file source).toOption.map (·.map content) =
      (tokenize file' source').toOption.map (·.map content)) :
    (∃ output, (compile { o with emit := .code } file source).result = .ok output ∧
      (compile { o with emit := .code } file' source').result = .ok output) ∨
    ∃ d e, (compile { o with emit := .code } file source).result = .error d ∧
      (compile { o with emit := .code } file' source').result = .error e ∧ e.kind = d.kind := by
  have hcode : ExceptAlike Eq (compile { o with emit := .code } file source).result
      (compile { o with emit := .code } file' source').result := code_alike { o with emit := .code } h
  generalize (compile { o with emit := .code } file source).result = x at hcode
  generalize (compile { o with emit := .code } file' source').result = y at hcode
  cases hcode with
  | ok heq =>
    obtain rfl := heq
    exact .inl ⟨_, rfl, rfl⟩
  | error hkind => exact .inr ⟨_, _, rfl, rfl, hkind⟩

def denseSource : Bytes := "const ifj=@import(\"ifj24.zig\");pub fn main()void\x7bifj.write(\"a\\nb\");\x7d"

/-- The same with comments, and with other spellings of its strings. -/
def airySource : Bytes := "// main
const ifj = @import(\"\\x69fj24.zig\"); // the library
pub fn main() void \x7b
  ifj.write( // one argument
    \\\\a
    \\\\b
  );
\x7d
"

/-- The two layouts of one program, in files of different names, compile to the same code. -/
theorem compile_airySource :
    ∃ output, (compile ⟨.code, .text, true, true⟩ "dense" denseSource).result = .ok output ∧
      (compile ⟨.code, .text, true, true⟩ "airy" airySource).result = .ok output := by
  have htoks : (tokenize "dense" denseSource).toOption.map (·.map content) =
      (tokenize "airy" airySource).toOption.map (·.map content) := by decide +kernel
  have hdense : (compile ⟨.code, .text, true, true⟩ "dense" denseSource).result.isOk = true := by
    decide +kernel
  rcases compile_layout_independent ⟨.code, .text, true, true⟩ "dense" "airy" denseSource airySource
    htoks with hok | ⟨d, _, herror, -⟩
  · exact hok
  · rw [herror] at hdense
    cases hdense

end Ifj24
