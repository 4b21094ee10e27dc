import Ifj24.Tree.Precedence

/-!
The grammar of arithmetic, `E → operand | E op E | ( E )`, and its trees. The
grammar is ambiguous; a tree is *grouped* if multiplication and division bind
tighter than addition and subtraction and all four operators associate to the
left. Every sentence has exactly one grouped tree.
-/

namespace Ifj24

def TokenKind.isOperand : TokenKind → Bool
  | .name | .int | .float | .string | .kwNull => true
  | _ => false

namespace Tree

inductive Sentence : List Token → Prop where
  | operand {a : Token} : a.kind.isOperand = true → Sentence [a]
  | binary {left right : List Token} {op : Token} :
      Sentence left → op.kind.isArith = true → Sentence right → Sentence (left ++ op :: right)
  | paren {opening closing : Token} {inner : List Token} :
      opening.kind = .lparen → Sentence inner → closing.kind = .rparen →
      Sentence (opening :: inner ++ [closing])

inductive ArithTree where
  | operand (a : Token) (ha : a.kind.isOperand = true)
  | binary (left : ArithTree) (op : Token) (hop : op.kind.isArith = true) (right : ArithTree)
  | paren (opening : Token) (ho : opening.kind = .lparen) (inner : ArithTree) (closing : Token)
      (hc : closing.kind = .rparen)

namespace ArithTree

def tokens : ArithTree → List Token
  | .operand a _ => [a]
  | .binary l op _ r => l.tokens ++ op :: r.tokens
  | .paren o _ inner c _ => o :: inner.tokens ++ [c]

def first : ArithTree → Token
  | .operand a _ => a
  | .binary l _ _ _ => l.first
  | .paren o _ _ _ _ => o

/-- How tightly the outermost operator of a tree binds; operands and parentheses
bind tighter than every operator. -/
def strength : ArithTree → Nat
  | .binary _ op _ _ => op.kind.precedence
  | .operand .. | .paren .. => 3

/-- Multiplication and division bind tighter, and operators associate to the
left. -/
def Grouped : ArithTree → Prop
  | .operand .. => True
  | .paren _ _ inner _ _ => inner.Grouped
  | .binary l op _ r =>
    l.Grouped ∧ r.Grouped ∧ op.kind.precedence ≤ l.strength ∧ op.kind.precedence < r.strength

theorem precedence_of_isArith {k : TokenKind} (h : k.isArith = true) :
    k.precedence = 1 ∨ k.precedence = 2 := by
  cases k <;> simp [TokenKind.isArith, TokenKind.precedence] at h ⊢

theorem strength_pos (t : ArithTree) : 0 < t.strength := by
  cases t with
  | operand a ha => simp [strength]
  | paren o ho inner c hc => simp [strength]
  | binary l op hop r =>
    have := precedence_of_isArith hop
    simp only [strength]
    omega

theorem tokens_ne_nil (t : ArithTree) : t.tokens ≠ [] := by
  cases t <;> simp [tokens]

theorem headD_tokens (t : ArithTree) (rest : List Token) (last : Token) :
    (t.tokens ++ rest).headD last = t.first := by
  induction t generalizing rest with
  | operand a ha => rfl
  | paren o ho inner c hc ih => rfl
  | binary l op hop r ihl ihr =>
    rw [tokens, List.append_assoc]
    exact ihl _

theorem sentence_tokens (t : ArithTree) : Sentence t.tokens := by
  induction t with
  | operand a ha => exact .operand ha
  | binary l op hop r ihl ihr => exact .binary ihl hop ihr
  | paren o ho inner c hc ih => exact .paren ho ih hc

theorem exists_append_atom (t : ArithTree) (ht : t.Grouped) (op : Token)
    (hop : op.kind.isArith = true) (atom : ArithTree) (ha : atom.Grouped)
    (hatom : atom.strength = 3) :
    ∃ u : ArithTree, u.Grouped ∧ u.tokens = t.tokens ++ op :: atom.tokens ∧
      min t.strength op.kind.precedence ≤ u.strength := by
  have hp := precedence_of_isArith hop
  induction t with
  | operand a ha' =>
    refine ⟨.binary (.operand a ha') op hop atom, ⟨ht, ha, ?_, ?_⟩, rfl, ?_⟩
    · simp only [strength]; omega
    · omega
    · simp only [strength]; omega
  | paren o ho inner c hc ih =>
    refine ⟨.binary (.paren o ho inner c hc) op hop atom, ⟨ht, ha, ?_, ?_⟩, rfl, ?_⟩
    · simp only [strength]; omega
    · omega
    · simp only [strength]; omega
  | binary l o ho r ihl ihr =>
    obtain ⟨hl, hr, hol, hor⟩ := ht
    by_cases tight : op.kind.precedence ≤ o.kind.precedence
    · refine ⟨.binary (.binary l o ho r) op hop atom,
        ⟨⟨hl, hr, hol, hor⟩, ha, tight, by omega⟩, rfl, ?_⟩
      simp only [strength]
      omega
    · -- The new operator binds tighter than the root, so it goes into the right operand.
      obtain ⟨u, hu, tokens_u, strength_u⟩ := ihr hr
      refine ⟨.binary l o ho u, ⟨hl, hu, hol, by omega⟩, ?_, ?_⟩
      · simp [tokens, tokens_u]
      · simp only [strength]
        omega

theorem exists_join (r : ArithTree) (hr : r.Grouped) (l : ArithTree) (hl : l.Grouped)
    (op : Token) (hop : op.kind.isArith = true) :
    ∃ u : ArithTree, u.Grouped ∧ u.tokens = l.tokens ++ op :: r.tokens := by
  induction r generalizing l op with
  | operand a ha =>
    obtain ⟨u, hu, htoks, -⟩ := exists_append_atom l hl op hop (.operand a ha) hr rfl
    exact ⟨u, hu, htoks⟩
  | paren o ho inner c hc ih =>
    obtain ⟨u, hu, htoks, -⟩ := exists_append_atom l hl op hop (.paren o ho inner c hc) hr rfl
    exact ⟨u, hu, htoks⟩
  | binary r₁ o ho r₂ ih₁ ih₂ =>
    obtain ⟨u, hu, tokens_u⟩ := ih₁ hr.1 l hl op hop
    obtain ⟨v, hv, tokens_v⟩ := ih₂ hr.2.1 u hu o ho
    refine ⟨v, hv, ?_⟩
    rw [tokens_v, tokens_u]
    simp [tokens]

/-- Every sentence has a grouped tree. -/
theorem exists_grouped (h : Sentence ts) :
    ∃ t : ArithTree, t.Grouped ∧ t.tokens = ts := by
  induction h with
  | operand ha => exact ⟨.operand _ ha, trivial, rfl⟩
  | binary _ hop _ ihl ihr =>
    obtain ⟨l, hl, rfl⟩ := ihl
    obtain ⟨r, hr, rfl⟩ := ihr
    exact exists_join r hr l hl _ hop
  | paren ho _ hc ih =>
    obtain ⟨inner, hi, rfl⟩ := ih
    exact ⟨.paren _ ho inner _ hc, hi, rfl⟩

/-- What has been read to the left of an operand that is still to come. -/
inductive Context where
  | empty
  | after (outer : Context) (left : ArithTree) (op : Token) (hop : op.kind.isArith = true)
  | inside (outer : Context) (opening : Token) (ho : opening.kind = .lparen)

namespace Context

def strength : Context → Nat
  | .after _ _ op _ => op.kind.precedence
  | .empty | .inside .. => 0

/-- Groups an operand with the operators to its left that bind at least as
tightly as `limit`. -/
def climb (limit : Nat) : Context → ArithTree → Context × ArithTree
  | .after outer left op hop, t =>
    if limit ≤ op.kind.precedence then outer.climb limit (.binary left op hop t)
    else (.after outer left op hop, t)
  | c, t => (c, t)

/-- Reads the tokens of a tree from left to right. The tree is the operand read
last, if one was. -/
def read : Context → Option ArithTree → List Token → Option ArithTree
  | c, some t, [] =>
    match c.climb 0 t with
    | (.empty, t) => some t
    | _ => none
  | _, none, [] => none
  | c, none, a :: rest =>
    if ha : a.kind.isOperand = true then read c (some (.operand a ha)) rest
    else if ho : a.kind = .lparen then read (.inside c a ho) none rest
    else none
  | c, some t, a :: rest =>
    if hop : a.kind.isArith = true then
      let (outer, t) := c.climb a.kind.precedence t
      read (.after outer t a hop) none rest
    else if hc : a.kind = .rparen then
      match c.climb 0 t with
      | (.inside outer o ho, t) => read outer (some (.paren o ho t a hc)) rest
      | _ => none
    else none

theorem climb_of_strength_lt {limit : Nat} {c : Context} (t : ArithTree)
    (h : c.strength < limit) : c.climb limit t = (c, t) := by
  cases c with
  | empty => rfl
  | inside outer o ho => rfl
  | after outer left op hop =>
    simp only [strength] at h
    simp only [climb]
    rw [if_neg (by omega)]

end Context

/-- The context of the last operand of a tree that stands in a context. -/
def lastContext : ArithTree → Context → Context
  | .binary l op hop r, c => r.lastContext (.after c l op hop)
  | .operand .., c | .paren .., c => c

def lastOperand : ArithTree → ArithTree
  | .binary _ _ _ r => r.lastOperand
  | t => t

theorem climb_lastOperand (t : ArithTree) (ht : t.Grouped) (c : Context)
    (hlimit : limit ≤ t.strength) :
    (t.lastContext c).climb limit t.lastOperand = c.climb limit t := by
  induction t generalizing c with
  | operand a ha => rfl
  | paren o ho inner cl hc ih => rfl
  | binary l op hop r ihl ihr =>
    obtain ⟨-, hr, -, hor⟩ := ht
    simp only [strength] at hlimit
    simp only [lastContext, lastOperand]
    rw [ihr hr (.after c l op hop) (by omega)]
    simp only [Context.climb]
    rw [if_pos hlimit]

theorem read_tokens (t : ArithTree) (ht : t.Grouped) (c : Context)
    (hc : c.strength < t.strength) (rest : List Token) :
    c.read none (t.tokens ++ rest) = (t.lastContext c).read (some t.lastOperand) rest := by
  induction t generalizing c rest with
  | operand a ha => simp [tokens, Context.read, ha, lastContext, lastOperand]
  | paren o ho inner cl hcl ih =>
    have step := ih ht (.inside c o ho) inner.strength_pos (cl :: rest)
    have closed : (inner.lastContext (.inside c o ho)).climb 0 inner.lastOperand =
        (.inside c o ho, inner) := by
      rw [climb_lastOperand inner ht _ (Nat.zero_le _)]
      rfl
    simp [tokens, Context.read, ho, hcl, TokenKind.isOperand, TokenKind.isArith, step, closed,
      lastContext, lastOperand]
  | binary l op hop r ihl ihr =>
    obtain ⟨hl, hr, hol, hor⟩ := ht
    simp only [strength] at hc
    have grouped : (l.lastContext c).climb op.kind.precedence l.lastOperand = (c, l) := by
      rw [climb_lastOperand l hl c hol]
      exact Context.climb_of_strength_lt l hc
    have left := ihl hl c (by omega) (op :: (r.tokens ++ rest))
    have right := ihr hr (.after c l op hop) hor rest
    simp only [tokens, List.append_assoc, List.cons_append, left, Context.read, hop, dite_true,
      grouped, right, lastContext, lastOperand]

/-- A grouped tree can be read back from its tokens. -/
theorem read_eq_some (t : ArithTree) (ht : t.Grouped) :
    Context.empty.read none t.tokens = some t := by
  have h := read_tokens t ht .empty t.strength_pos []
  rw [List.append_nil] at h
  rw [h, Context.read, climb_lastOperand t ht .empty (Nat.zero_le _)]
  rfl

theorem grouped_unique {t u : ArithTree} (ht : t.Grouped) (hu : u.Grouped)
    (h : t.tokens = u.tokens) : t = u := by
  have ht := read_eq_some t ht
  rw [h, read_eq_some u hu] at ht
  exact (Option.some.inj ht).symm

end ArithTree

end Tree

end Ifj24
