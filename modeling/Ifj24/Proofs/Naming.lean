import Ifj24.Proofs.CodeText
import Ifj24.Proofs.Respelling

/-!
Where the names in generated code come from. A name of the source is made of letters, digits
and underscores and is no keyword. The variables and the functions of a program are called by
names of its source.
-/

open List

namespace Ifj24

section

open Code

theorem Lexeme.identifier_of_isName (h : Lexeme.IsName chars) :
    Identifier (Bytes.ofChars chars) := by
  have hbytes : ∀ b ∈ Bytes.ofChars chars, 48 ≤ b.toNat ∧ b.toNat ≤ 122 := by
    intro b hb
    obtain ⟨c, hc, hb⟩ := mem_flatMap.mp hb
    have hword : isLetter c = true ∨ isDigit c = true := by
      simpa [isWordChar] using h.letters c hc
    rw [isLetter_iff_toNat, isDigit_iff_toNat] at hword
    have hsmall : c.toNat ≤ 127 := by omega
    have hencode : String.utf8EncodeChar c = [Bytes.ascii c] := by
      simp [String.utf8EncodeChar, hsmall, Bytes.ascii]
    rw [hencode, mem_singleton] at hb
    have hvalue : b.toNat = c.toNat := by
      rw [hb, Bytes.ascii, Nat.toUInt8_eq, UInt8.toNat_ofNat']
      omega
    omega
  refine ⟨fun b hb => ?_, fun hmem => ?_, fun hqualifier => ?_⟩
  · have hrange := hbytes b hb
    change 32 < b.toNat
    omega
  · have hrange := hbytes _ hmem
    revert hrange
    decide
  · exact h.keyword .kwIfj (by decide) (hqualifier.symm ▸ rfl)

theorem exists_isName_of_tokenize
    (h : tokenize file source = .ok ts) (ha : a ∈ ts) (hname : a.kind = .name) :
    ∃ chars, Lexeme.IsName chars ∧ a.literal = Bytes.ofChars chars := by
  obtain ⟨front, stop, rfl, hfront⟩ := (Scanner.scans_of_tokens h).exists_front
  rcases mem_append.mp ha with ha | ha
  · obtain ⟨chars, hspell⟩ := hfront a ha
    rw [hname] at hspell
    generalize hlit : a.literal = literal at hspell
    cases hspell with
    | fixed _ hfixed => cases hfixed
    | name hname => exact ⟨chars, hname, rfl⟩
  · rw [mem_singleton.mp ha] at hname
    cases hname

theorem identifier_of_tokenize
    (h : tokenize file source = .ok ts) (ha : a ∈ ts) (hname : a.kind = .name) :
    Identifier a.literal := by
  obtain ⟨chars, hchars, hlit⟩ := exists_isName_of_tokenize h ha hname
  rw [hlit]
  exact Lexeme.identifier_of_isName hchars

end

namespace Grammar

open Ifj24.Tree

variable {hash : NameHash}

section

variable {P : Bytes → Prop} {T : Table} {n count : Nat}

def Called (P : Bytes → Prop) (T : Table) (n count : Nat) : Prop :=
  ∀ r, n ≤ r → r < n + count → P (T.var r).name

theorem Called.none : Called P T n 0 := by
  intro r hn hr
  omega

theorem Called.one {a : Token}
    (h : Declared T n a type mutable_ nullable) (ha : P a.literal) : Called P T n 1 := by
  intro r hn hr
  obtain rfl : r = n := by omega
  rw [h.name]
  exact ha

theorem Called.append (h : Called P T n count) (h' : Called P T (n + count) count') :
    Called P T n (count + count') := by
  intro r hn hr
  by_cases hlt : r < n + count
  · exact h r hn hlt
  · exact h' r (by omega) (by omega)

theorem Plain.Depicts.called {s : Plain} {x : Stmt} (hd : s.Depicts T n x)
    (h : NamesIn P s.tokens) : Called P T n s.count := by
  cases hd with
  | @declare binder name mark eq value semi x hvalue hvar =>
    exact .one hvar (h name.1 (by simp [Plain.tokens]) name.2)
  | drop | assign | call | returnNone | returnSome => exact .none

theorem Guard.Depicts.called {g : Guard} {x : Tree.Guard} (hd : g.Depicts T n x)
    (h : NamesIn P g.tokens) : Called P T n g.count := by
  cases hd with
  | compare => exact .none
  | @unwrap opening subject bound closing bar bar' r hsubj hbound =>
    exact .one hbound (h bound.1 (by simp [Guard.tokens]) bound.2)

theorem Body.Depicts.called {b : Body} {xs : List Stmt} (hd : b.Depicts T n xs)
    (h : NamesIn P b.tokens) : Called P T n b.count := by
  unfold NamesIn at h
  induction hd with
  | done => exact .none
  | plain hs hrest ih =>
    simp only [Body.tokens, forall_mem_append] at h
    exact (hs.called h.1).append (ih h.2)
  | branch hguard hyes hrest ihYes ih =>
    simp only [Body.tokens, Braces.tokens, forall_mem_append, forall_mem_cons] at h
    obtain ⟨-, hg, ⟨-, hy, -⟩, hr⟩ := h
    have hbranch := (hguard.called hg).append (ihYes hy)
    rw [Nat.add_assoc] at ih
    exact hbranch.append (ih hr)
  | branchElse hguard hyes hno hrest ihYes ihNo ih =>
    simp only [Body.tokens, Braces.tokens, forall_mem_append, forall_mem_cons] at h
    obtain ⟨-, hg, ⟨-, hy, -⟩, -, ⟨-, hn, -⟩, hr⟩ := h
    rw [Nat.add_assoc] at ihNo
    have hbranch := ((hguard.called hg).append (ihYes hy)).append (ihNo hn)
    rw [Nat.add_assoc, Nat.add_assoc, ← Nat.add_assoc (Guard.count _)] at ih
    exact hbranch.append (ih hr)
  | loop hguard hbody hrest ihBody ih =>
    simp only [Body.tokens, Braces.tokens, forall_mem_append, forall_mem_cons] at h
    obtain ⟨-, hg, ⟨-, hb, -⟩, hr⟩ := h
    have hloop := (hguard.called hg).append (ihBody hb)
    rw [Nat.add_assoc] at ih
    exact hloop.append (ih hr)

theorem ParametersDepict.called
    (hd : ParametersDepict T n ps rs) (h : NamesIn P (ps.tokens Parameter.tokens)) :
    Called P T n ps.toList.length := by
  have hparameter {n : Nat} {p : Parameter} (hp : p.Declares T n) (h : NamesIn P p.tokens) :
      Called P T n 1 :=
    .one hp (h p.name.1 (by simp [Parameter.tokens]) p.name.2)
  unfold NamesIn at h
  induction hd with
  | nil => exact .none
  | last hp => exact hparameter hp fun a ha => h a (by simpa [Listed.tokens] using ha)
  | cons hp hrest ih =>
    simp only [Listed.tokens, forall_mem_append, forall_mem_cons] at h
    rw [Listed.toList, length_cons, Nat.add_comm]
    exact (hparameter hp h.1).append (ih h.2.2)

theorem FunctionsDepict.called {fs : List Function} {xs : List Tree.Function}
    (hd : FunctionsDepict T n fs xs) (h : NamesIn P (fs.flatMap Function.tokens)) :
    Called P T n (countAll fs) := by
  unfold NamesIn at h
  induction hd with
  | nil => exact .none
  | cons hf hrest ih =>
    rw [flatMap_cons, forall_mem_append] at h
    refine .append ?_ (ih h.2)
    cases hf with
    | mk hparams hbody =>
      refine (hparams.called fun a ha => h.1 a ?_).append (hbody.called fun a ha => h.1 a ?_)
      · simp [Function.tokens, Heading.before, ha]
      · simp [Function.tokens, Heading.before, Braces.tokens, ha]

/-- All variables of a program but `_` are called by names of its source. -/
theorem Program.Depicts.called {p : Program} {program : Tree.Program} (hd : p.Depicts T program)
    (h : NamesIn P p.tokens) : Called P T 1 (countAll p.functions) :=
  hd.functions.called fun a ha => h a (p.mem_tokens ha)

end

theorem exists_main {b : TokenBuffer} {behind : List Token}
      {p : Program} (hp : p.tokens ++ behind = b.items)
    (h : parse b (.fresh hash strict) = .ok parsed u) :
    ∃ f ∈ p.functions, f.name.1.literal = Bytes.ofString "main" := by
  rw [parse_tokens hp (shows_fresh hash strict)] at h
  obtain ⟨_, v, hreg, h⟩ := bind_eq_ok h
  obtain ⟨hv, horder, hfaith, -⟩ := register_eq_ok hreg
  obtain ⟨_, w, hmain, -⟩ := bind_eq_ok h
  unfold checkMain at hmain
  rw [bind_apply, get_apply] at hmain
  cases hlook : v.lookupFunction? (Bytes.ofString "main") with
  | none =>
    simp only [hlook] at hmain
    cases hmain
  | some f =>
    have hhash : v.hash = hash := by
      rw [hv]
      rfl
    have hall : v.funcs.Faithful hash :=
      hfaith (Registry.faithful_ofList hash FuncDef.builtins)
    rw [Table.lookupFunction?, hhash, hall, horder] at hlook
    have hname : f.name = Bytes.ofString "main" := by simpa using find?_some hlook
    have hbuiltins : ∀ g ∈ FuncDef.builtins, g.name ≠ Bytes.ofString "main" := by decide
    rcases mem_append.mp (mem_of_find?_eq_some hlook) with hmem | hmem
    · exact absurd hname (hbuiltins f hmem)
    · obtain ⟨d, hd, rfl⟩ := mem_map.mp hmem
      exact ⟨d, hd, hname⟩

theorem exists_derivation
    {ts : List Token} (hparse : parse (.ofTokens ts) (.fresh hash strict) = .ok parsed u) :
    ∃ p : Program, p.Accepted hash strict parsed u ∧
      (∀ a ∈ p.tokens, a ∈ ts ∨ a.kind = .eof) ∧
      ∃ f ∈ p.functions, f.name.1.literal = Bytes.ofString "main" := by
  obtain ⟨p, behind, hp, hacc⟩ :=
    exists_accepted_tokens (TokenBuffer.last_ofTokens ts) hparse
  refine ⟨p, hacc, fun a ha => TokenBuffer.mem_of_mem_items ?_, exists_main hp hparse⟩
  rw [← hp]
  exact mem_append_left _ ha

end Grammar

end Ifj24
