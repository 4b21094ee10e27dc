import Ifj24.Token.Lexeme

/-!
Scanning a source into tokens. The scanner keeps the characters that are left
and the place of the first of them; a token is placed where its lexeme starts.
Scanning for the compiler stops at the first fault.
-/

namespace Ifj24

structure Mark where
  line : UInt32
  col : UInt32
  deriving DecidableEq, Repr

namespace Mark

def first : Mark := ⟨1, 1⟩

def after (m : Mark) (c : Char) : Mark :=
  if c = '\n' then ⟨m.line + 1, 1⟩ else ⟨m.line, m.col + 1⟩

/-- The place after `n` characters of `input`. Past the end of the input every
step is a column. -/
def skip : Nat → List Char → Mark → Mark
  | 0, _, m => m
  | n + 1, c :: rest, m => skip n rest (m.after c)
  | n + 1, [], m => skip n [] ⟨m.line, m.col + 1⟩

def pos (file : Bytes) (m : Mark) : Pos := ⟨file, m.line, m.col⟩

end Mark

structure LexicalError where
  pos : Pos
  fault : LexicalFault
  deriving DecidableEq, Repr

structure Scanner where
  file : Bytes
  rest : List Char
  mark : Mark
  deriving DecidableEq, Repr

namespace Scanner

/-- The characters of a source. A byte that is no part of valid UTF-8 is the
character of the same number. -/
def characters (source : Bytes) : List Char := source.glyphs.map Glyph.latin

def start (file source : Bytes) : Scanner := ⟨file, characters source, .first⟩

/-- The scanner of a source that could not be read: it has no characters, and
stands before the first column. -/
def unreadable (file : Bytes) : Scanner := ⟨file, [], ⟨1, 0⟩⟩

def unreadableError (file reason : Bytes) : LexicalError :=
  ⟨Mark.pos file ⟨1, 0⟩, .unreadable reason⟩

structure Step where
  token : Token
  errors : List LexicalError
  used : Nat
  next : Scanner

/-- The next token, with its faults, and the scanner after it. -/
def step (s : Scanner) : Step :=
  let gap := Lexeme.gap s.rest
  let mark := s.mark.skip gap s.rest
  let rest := s.rest.drop gap
  let lexeme := Lexeme.read rest
  { token := ⟨lexeme.kind, lexeme.literal, mark.pos s.file⟩
    errors := lexeme.faults.map fun (offset, fault) => ⟨(mark.skip offset rest).pos s.file, fault⟩
    used := lexeme.used
    next := ⟨s.file, rest.drop lexeme.used, mark.skip lexeme.used rest⟩ }

theorem step_next_shorter {s : Scanner} {n : Nat} (h : s.step.used = n + 1) :
    s.step.next.rest.length < s.rest.length := by
  simp only [step] at h ⊢
  cases rest : s.rest.drop (Lexeme.gap s.rest) with
  | nil => simp [rest, Lexeme.read] at h
  | cons c tail =>
    have drop := congrArg List.length rest
    rw [rest] at h
    simp only [List.length_drop, List.length_cons, h] at drop ⊢
    omega

/-- All tokens up to the first error. A token that uses no character is the end
of the input. -/
def tokens (s : Scanner) : Except LexicalError (List Token) :=
  let now := s.step
  match now.errors with
  | error :: _ => .error error
  | [] =>
    match _h : now.used with
    | 0 => .ok [now.token]
    | _ + 1 => (tokens now.next).map (now.token :: ·)
termination_by s.rest.length
decreasing_by exact step_next_shorter _h

/-- Reads past errors: at most `limit` tokens, none after the end of the
input. -/
def trail : Nat → Scanner → List Token × List LexicalError
  | 0, _ => ([], [])
  | limit + 1, s =>
    let now := s.step
    if now.token.kind = .eof then ([now.token], now.errors)
    else
      let (tokens, errors) := trail limit now.next
      (now.token :: tokens, now.errors ++ errors)

end Scanner

/-- The tokens of a source; the last one, and only that, is the end of the
input. -/
def tokenize (file source : Bytes) : Except LexicalError (List Token) :=
  (Scanner.start file source).tokens

end Ifj24
