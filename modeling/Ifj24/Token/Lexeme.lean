import Ifj24.Token
import Ifj24.Text.Quoted

/-!
The lexeme at the front of a character sequence. Reading a lexeme is a function
of the characters alone: places are added by the scanner, which knows where the
sequence starts. Faults do not stop the reading; each one is kept with its
distance from the first character of the lexeme.
-/

namespace Ifj24

inductive LexicalFault where
  | unreadable (reason : Bytes)
  | unexpected (found : Option Char)
  | leadingZero
  | missingFraction
  | missingExponent
  | unterminatedString
  | controlCharacter (c : Char)
  | unknownEscape (c : Option Char)
  | badHexEscape
  | badMultiline
  | badNotEqual
  | badSliceType
  deriving DecidableEq, Repr

namespace LexicalFault

/-- How the end of the input is shown where a character is. -/
def shown (c : Option Char) : Char := c.getD (Char.ofNat 0xFFFD)

def message : LexicalFault → Bytes
  | .unreadable reason => "error reading source: " ++ reason
  | .unexpected found => "unexpected character " ++ Text.quotedChar (shown found)
  | .leadingZero => "leading zero in number literal"
  | .missingFraction => "expected digit after decimal point"
  | .missingExponent => "exponent has no digits"
  | .unterminatedString => "string not terminated"
  | .controlCharacter c => "control character 0x" ++ Bytes.digits 16 c.toNat ++ " in string"
  | .unknownEscape c => "unknown escape sequence \\" ++ Bytes.ofChars [shown c]
  | .badHexEscape => "invalid hex escape"
  | .badMultiline => "expected \\\\ to start multiline string line"
  | .badNotEqual => "expected != "
  | .badSliceType => "expected []u8"

end LexicalFault

/-- What stands at the front of the input. `used` counts its characters; it may
exceed by one what is left of the input. -/
structure Lexeme where
  kind : TokenKind
  literal : Bytes
  faults : List (Nat × LexicalFault)
  used : Nat
  deriving DecidableEq, Repr

namespace Lexeme

def isLetter (c : Char) : Bool :=
  'a' ≤ c && c ≤ 'z' || 'A' ≤ c && c ≤ 'Z' || c == '_'

def isDigit (c : Char) : Bool := '0' ≤ c && c ≤ '9'

def isWordChar (c : Char) : Bool := isLetter c || isDigit c

def isBlank (c : Char) : Bool := c == ' ' || c == '\t' || c == '\r' || c == '\n'

def hexDigit? (c : Char) : Option Nat :=
  if isDigit c then some (c.toNat - '0'.toNat)
  else if 'a' ≤ c && c ≤ 'f' then some (c.toNat - 'a'.toNat + 10)
  else if 'A' ≤ c && c ≤ 'F' then some (c.toNat - 'A'.toNat + 10)
  else none

/-- Length of the blanks and line comments at the front of the input. The flag
tells whether the first character is inside a comment. -/
def gapFrom : Bool → List Char → Nat
  | _, [] => 0
  | true, c :: rest => 1 + gapFrom (c != '\n') rest
  | false, c :: rest =>
    if isBlank c then 1 + gapFrom false rest
    else if c == '/' && rest.head? == some '/' then 1 + gapFrom true rest
    else 0

def gap (input : List Char) : Nat := gapFrom false input

def word (input : List Char) : Lexeme :=
  let letters := input.takeWhile isWordChar
  let text := Bytes.ofChars letters
  let kind := if letters = ['_'] then .discard else TokenKind.ofWord text
  ⟨kind, text, [], letters.length⟩

/-- The fraction of a number at distance `offset`: its characters and faults. -/
def fraction (offset : Nat) : List Char → List Char × List (Nat × LexicalFault)
  | '.' :: rest =>
    let ds := rest.takeWhile isDigit
    ('.' :: ds, if ds.isEmpty then [(offset + 1, .missingFraction)] else [])
  | _ => ([], [])

def sign : List Char → List Char
  | '+' :: _ => ['+']
  | '-' :: _ => ['-']
  | _ => []

/-- The exponent of a number at distance `offset`: its characters and faults. -/
def exponent (offset : Nat) : List Char → List Char × List (Nat × LexicalFault)
  | c :: rest =>
    if c == 'e' || c == 'E' then
      let sign := sign rest
      let ds := (rest.drop sign.length).takeWhile isDigit
      (c :: sign ++ ds,
        if ds.isEmpty then [(offset + 1 + sign.length, .missingExponent)] else [])
    else ([], [])
  | [] => ([], [])

/-- An integer or a float. Only `0` itself may start with a zero; a float has a
fraction, an exponent or both. -/
def number (input : List Char) : Lexeme :=
  let whole := input.takeWhile isDigit
  let zero := if 1 < whole.length && whole.head? == some '0' then [(0, .leadingZero)] else []
  let (point, pointFaults) := fraction whole.length (input.drop whole.length)
  let front := whole ++ point
  let (power, powerFaults) := exponent front.length (input.drop front.length)
  let chars := front ++ power
  let kind := if point.isEmpty && power.isEmpty then .int else .float
  ⟨kind, Bytes.ofChars chars, zero ++ pointFaults ++ powerFaults, chars.length⟩

def simpleEscape? : Char → Option UInt8
  | 'n' => some 0x0A
  | 't' => some 0x09
  | 'r' => some 0x0D
  | '"' => some 0x22
  | '\\' => some 0x5C
  | _ => none

/-- The inside of a string literal from distance `offset` on: the bytes it
denotes, its faults, and the distance at which it ends. -/
def stringBody (offset : Nat) : List Char → Bytes × List (Nat × LexicalFault) × Nat
  | [] => ([], [(0, .unterminatedString)], offset)
  | '"' :: _ => ([], [], offset + 1)
  | '\n' :: _ => ([], [(0, .unterminatedString)], offset)
  | '\\' :: [] =>
    ([], [(offset + 1, .unknownEscape none), (0, .unterminatedString)], offset + 1)
  | '\\' :: 'x' :: rest =>
    match rest with
    | [] => ([], [(offset + 2, .badHexEscape), (0, .unterminatedString)], offset + 2)
    | high :: more =>
      match hexDigit? high with
      | none =>
        let (bytes, faults, stop) := stringBody (offset + 2) (high :: more)
        (bytes, (offset + 2, .badHexEscape) :: faults, stop)
      | some h =>
        match more with
        | [] => ([], [(offset + 3, .badHexEscape), (0, .unterminatedString)], offset + 3)
        | low :: tail =>
          match hexDigit? low with
          | none =>
            let (bytes, faults, stop) := stringBody (offset + 3) (low :: tail)
            (bytes, (offset + 3, .badHexEscape) :: faults, stop)
          | some l =>
            let (bytes, faults, stop) := stringBody (offset + 4) tail
            ((h * 16 + l).toUInt8 :: bytes, faults, stop)
  | '\\' :: c :: rest =>
    let (bytes, faults, stop) := stringBody (offset + 2) rest
    match simpleEscape? c with
    | some b => (b :: bytes, faults, stop)
    | none => (bytes, (offset + 1, .unknownEscape (some c)) :: faults, stop)
  | c :: rest =>
    let (bytes, faults, stop) := stringBody (offset + 1) rest
    if c < ' ' then (bytes, (offset, .controlCharacter c) :: faults, stop)
    else (String.utf8EncodeChar c ++ bytes, faults, stop)

/-- A string literal on one line; `input` follows the opening quote. -/
def string (input : List Char) : Lexeme :=
  let (bytes, faults, stop) := stringBody 1 input
  ⟨.string, bytes, faults, stop⟩

/-- The characters after a double backslash, if the next line that is not blank
starts with one, and how many characters come before them. -/
def nextLine? (input : List Char) : Option (Nat × List Char) :=
  let blanks := input.takeWhile isBlank
  match input.dropWhile isBlank with
  | '\\' :: '\\' :: rest => some (blanks.length + 2, rest)
  | _ => none

/-- A call of `nextLine?` that succeeds leaves less input. -/
theorem length_of_nextLine? {input rest : List Char} {n : Nat}
    (h : nextLine? input = some (n, rest)) : rest.length < input.length := by
  have drop : (input.dropWhile isBlank).length ≤ input.length :=
    (List.dropWhile_suffix _).length_le
  unfold nextLine? at h
  split at h
  · rename_i tail eq
    simp only [Option.some.injEq, Prod.mk.injEq] at h
    obtain ⟨-, rfl⟩ := h
    simp only [eq, List.length_cons] at drop
    omega
  · simp at h

/-- The lines of a multiline string after a double backslash: their bytes joined
by newlines, and the number of characters. -/
def multilineBody (input : List Char) : Bytes × Nat :=
  let line := input.takeWhile (· != '\n')
  let text := Bytes.ofChars line
  match _h : nextLine? (input.dropWhile (· != '\n')) with
  | none => (text, line.length)
  | some (n, rest) =>
    let (bytes, used) := multilineBody rest
    (text ++ 0x0A :: bytes, line.length + n + used)
termination_by input.length
decreasing_by
  have := length_of_nextLine? _h
  have : (input.dropWhile (· != '\n')).length ≤ input.length :=
    (List.dropWhile_suffix _).length_le
  omega

/-- A string of lines that each start with a double backslash. No escapes are
read in it. A single backslash is no lexeme, and nothing is read past it. -/
def multiline : List Char → Lexeme
  | '\\' :: '\\' :: rest =>
    let (bytes, used) := multilineBody rest
    ⟨.string, bytes, [], used + 2⟩
  | _ => ⟨.string, [], [(0, .badMultiline)], 0⟩

def single? : Char → Option TokenKind
  | '+' => some .add
  | '-' => some .sub
  | '*' => some .mul
  | '/' => some .div
  | '.' => some .dot
  | ':' => some .colon
  | ',' => some .comma
  | '(' => some .lparen
  | ')' => some .rparen
  | '{' => some .lbrace
  | '}' => some .rbrace
  | ';' => some .semi
  | '|' => some .pipe
  | '@' => some .at
  | '?' => some .question
  | _ => none

/-- Punctuation that an equals sign may extend: alone and extended. -/
def extensible? : Char → Option (TokenKind × TokenKind)
  | '=' => some (.assign, .eql)
  | '<' => some (.lss, .leq)
  | '>' => some (.gtr, .geq)
  | _ => none

def fixed (kind : TokenKind) (used : Nat) : Lexeme := ⟨kind, kind.text, [], used⟩

def broken (fault : LexicalFault) (used : Nat) : Lexeme := ⟨.none, [], [(0, fault)], used⟩

/-- Length of the common start of two character sequences. -/
def agreement : List Char → List Char → Nat
  | a :: as, b :: bs => if a = b then agreement as bs + 1 else 0
  | _, _ => 0

def sliceType (input : List Char) : Lexeme :=
  let agreed := agreement [']', 'u', '8'] input
  if agreed < 3 then broken .badSliceType (agreed + 1)
  else if (input.drop 3).head?.any isWordChar then broken .badSliceType 4
  else fixed .kwU8 4

/-- Punctuation. A character that starts no lexeme is passed over together with
the one after it, and it is the latter that the fault names. -/
def punctuation (c : Char) (rest : List Char) : Lexeme :=
  match single? c, extensible? c with
  | some kind, _ => fixed kind 1
  | none, some (alone, extended) =>
    if rest.head? == some '=' then fixed extended 2 else fixed alone 1
  | none, none =>
    if c == '!' then
      if rest.head? == some '=' then fixed .neq 2 else broken .badNotEqual 1
    else if c == '[' then sliceType rest
    else ⟨.none, [], [(1, .unexpected rest.head?)], 2⟩

/-- The lexeme at the front of an input that starts with no blank and no
comment. -/
def read : List Char → Lexeme
  | [] => ⟨.eof, [], [], 0⟩
  | c :: rest =>
    if isLetter c then word (c :: rest)
    else if isDigit c then number (c :: rest)
    else if c == '"' then string rest
    else if c == '\\' then multiline (c :: rest)
    else punctuation c rest

end Lexeme

end Ifj24
