import Ifj24.Token

/-!
The token sequence of one source, always closed by an end-of-input token, with
a cursor for reading it. Reading never leaves the sequence: indexes outside it
mean its first or its last token.
-/

namespace Ifj24

structure TokenBuffer where
  front : List Token
  last : Token
  deriving DecidableEq, Repr

namespace TokenBuffer

/-- The buffer of a token sequence. The end-of-input token is added if it is
missing, at the place of the last token. -/
def ofTokens (tokens : List Token) : TokenBuffer :=
  match tokens.getLast? with
  | some t => if t.kind = .eof then ⟨tokens.dropLast, t⟩ else ⟨tokens, ⟨.eof, [], t.pos⟩⟩
  | none => ⟨[], ⟨.eof, [], .none⟩⟩

def items (b : TokenBuffer) : List Token := b.front ++ [b.last]

def length (b : TokenBuffer) : Nat := b.front.length + 1

def get (b : TokenBuffer) (i : Int) : Token := b.items.getD i.toNat b.last

/-- The tokens met when reading from an index on, one index after the other. A
negative index means the first token. -/
def readFrom (b : TokenBuffer) (i : Int) : List Token :=
  List.replicate (-i).toNat (b.get 0) ++ b.items.drop i.toNat

def clamp (b : TokenBuffer) (i : Int) : Nat := min i.toNat b.front.length

/-- The token under a cursor, and the cursor after it; the last token is never
passed. -/
def next (b : TokenBuffer) (cursor : Nat) : Token × Nat :=
  (b.get cursor, min (cursor + 1) b.front.length)

end TokenBuffer

end Ifj24
