import Ifj24.Text.Timestamp
import Ifj24.Toml.Document

/-!
Reading documents of the TOML format.
-/

namespace Ifj24.Toml

def isBlank (c : Char) : Bool := c == ' ' || c == '\t'

def isBreak (c : Char) : Bool := c == '\n' || c == '\r'

def skipBlanks (text : List Char) : List Char := text.dropWhile isBlank

def skipComment (text : List Char) : List Char := text.dropWhile fun c => !isBreak c

def isHex (c : Char) : Bool :=
  c.isDigit || ('a' ≤ c && c ≤ 'f') || ('A' ≤ c && c ≤ 'F')

def bytesOf (text : List Char) : Bytes := Bytes.ofChars text

def scalarOf (digits : List Char) : Except Fault Char :=
  match Number.natIn? 16 (bytesOf digits) with
  | some n => if n.isValidChar then .ok (Char.ofNat n) else .error .escape
  | none => .error .escape

def shortEscape? : Char → Option Char
  | 'b' => some '\x08'
  | 't' => some '\t'
  | 'n' => some '\n'
  | 'f' => some '\x0c'
  | 'r' => some '\r'
  | '"' => some '"'
  | '\\' => some '\\'
  | _ => none

abbrev Piece := List Char × List Char

def Piece.cons (c : Char) (p : Piece) : Piece := (c :: p.1, p.2)

/-- The rest of a string in double quotes on one line. -/
def basicString : List Char → Except Fault Piece
  | [] => .error (.unexpected none)
  | '"' :: rest => .ok ([], rest)
  | '\\' :: 'u' :: a :: b :: c :: d :: rest => do
    return Piece.cons (← scalarOf [a, b, c, d]) (← basicString rest)
  | '\\' :: 'U' :: a :: b :: c :: d :: e :: f :: g :: h :: rest => do
    return Piece.cons (← scalarOf [a, b, c, d, e, f, g, h]) (← basicString rest)
  | '\\' :: c :: rest =>
    match shortEscape? c with
    | some c => do return Piece.cons c (← basicString rest)
    | none => .error .escape
  | c :: rest =>
    if isBreak c then .error (.unexpected (some c))
    else do return Piece.cons c (← basicString rest)

/-- The rest of a string in single quotes on one line. -/
def literalString : List Char → Except Fault Piece
  | [] => .error (.unexpected none)
  | '\'' :: rest => .ok ([], rest)
  | c :: rest =>
    if isBreak c then .error (.unexpected (some c))
    else do return Piece.cons c (← literalString rest)

/-- Ends a string of several lines after a run of quotes: three of them close it,
up to two more belong to it. -/
def closeRun (quote : Char) (run : Nat) (rest : List Char) : Except Fault Piece :=
  if run ≤ 5 then .ok (List.replicate (run - 3) quote, rest) else .error (.unexpected (some quote))

/-- The rest of a literal string of several lines, after `run` quotes. -/
def literalLines (run : Nat) : List Char → Except Fault Piece
  | [] => if 3 ≤ run then closeRun '\'' run [] else .error (.unexpected none)
  | c :: rest =>
    if c = '\'' then literalLines (run + 1) rest
    else if 3 ≤ run then closeRun '\'' run (c :: rest)
    else do
      let (text, rest) ← literalLines 0 rest
      return (List.replicate run '\'' ++ c :: text, rest)

/-- Where the reader is in a string of several lines. -/
inductive LinesMode where
  | text (run : Nat)
  /-- After a backslash that has only blanks behind it, or a line break too. -/
  | skipping (broken : Bool)

/-- The rest of a string of several lines in double quotes. -/
def basicLines : LinesMode → List Char → Except Fault Piece
  | .text run, [] => if 3 ≤ run then closeRun '"' run [] else .error (.unexpected none)
  | .skipping _, [] => .error (.unexpected none)
  | .skipping broken, c :: rest =>
    if isBlank c then basicLines (.skipping broken) rest
    else if isBreak c then basicLines (.skipping true) rest
    else if !broken then .error .escape
    else if c = '"' then basicLines (.text 1) rest
    else
      match c, rest with
      | '\\', 'u' :: a :: b :: c :: d :: rest => do
        return Piece.cons (← scalarOf [a, b, c, d]) (← basicLines (.text 0) rest)
      | '\\', 'U' :: a :: b :: c :: d :: e :: f :: g :: h :: rest => do
        return Piece.cons (← scalarOf [a, b, c, d, e, f, g, h]) (← basicLines (.text 0) rest)
      | '\\', c :: rest =>
        if isBlank c || isBreak c then basicLines (.skipping (isBreak c)) rest
        else
          match shortEscape? c with
          | some c => do return Piece.cons c (← basicLines (.text 0) rest)
          | none => .error .escape
      | '\\', [] => .error (.unexpected none)
      | c, rest => do return Piece.cons c (← basicLines (.text 0) rest)
  | .text run, c :: rest =>
    if c = '"' then basicLines (.text (run + 1)) rest
    else if 3 ≤ run then closeRun '"' run (c :: rest)
    else do
      let quotes := List.replicate run '"'
      let (text, rest) ← match c, rest with
        | '\\', 'u' :: a :: b :: c :: d :: rest => do
          pure (Piece.cons (← scalarOf [a, b, c, d]) (← basicLines (.text 0) rest))
        | '\\', 'U' :: a :: b :: c :: d :: e :: f :: g :: h :: rest => do
          pure (Piece.cons (← scalarOf [a, b, c, d, e, f, g, h]) (← basicLines (.text 0) rest))
        | '\\', c :: rest =>
          if isBlank c || isBreak c then basicLines (.skipping (isBreak c)) rest
          else
            match shortEscape? c with
            | some c => do pure (Piece.cons c (← basicLines (.text 0) rest))
            | none => .error .escape
        | '\\', [] => .error (.unexpected none)
        | c, rest => do pure (Piece.cons c (← basicLines (.text 0) rest))
      return (quotes ++ text, rest)

/-- A line break right after the opening quotes does not count. -/
def dropFirstBreak : List Char → List Char
  | '\r' :: '\n' :: rest => rest
  | '\n' :: rest => rest
  | text => text

/-- Whether every underscore of a number stands between digits. -/
def underscoresOk (text : List Char) : Bool :=
  let step (s : Bool × Bool) (c : Char) : Bool × Bool := (s.1 && (c != '_' || s.2), isHex c)
  let (ok, last) := text.foldl step (true, false)
  ok && last

def hasLeadingZero : List Char → Bool
  | '0' :: c :: _ => !(c == 'b' || c == 'o' || c == 'x')
  | sign :: '0' :: _ :: _ => sign == '+' || sign == '-'
  | _ => false

def integer (text : List Char) : Except Fault Value :=
  let digits := bytesOf (text.filter (· != '_'))
  let (negative, size) := Number.splitSign digits
  let n := Number.basedNat? size
  if underscoresOk text && !hasLeadingZero text && Number.fitsSigned negative n then
    .ok (.integer (if negative then -(n.getD 0) else n.getD 0))
  else .error (.number (bytesOf text))

def pointsOk : List Char → Bool
  | [] => true
  | '.' :: rest => ((rest.head?.map Char.isDigit).getD false) && pointsOk rest
  | _ :: rest => pointsOk rest

def float (text : List Char) : Except Fault Value :=
  let isMark (c : Char) : Bool := c == '.' || c == 'e' || c == 'E'
  let parts := (text.splitOnP isMark).filter fun p => !p.isEmpty
  let value := Number.readDouble? (bytesOf (text.filter (· != '_')))
  match value with
  | some x =>
    if parts.all underscoresOk && !(hasLeadingZero (parts.headD [])) && pointsOk text then
      .ok (.float x)
    else .error (.number (bytesOf text))
  | none => .error (.number (bytesOf text))

/-- A date or time. Lower-case marks and a blank between date and time are
allowed. -/
def moment (text : List Char) : Except Fault Value :=
  let trimmed := (text.reverse.dropWhile isBlank).reverse
  let normal (c : Char) : Char :=
    if c = 'z' then 'Z' else if c = 't' ∨ c = ' ' then 'T' else c
  let bytes := bytesOf (trimmed.map normal)
  if Timestamp.isStrict bytes then .ok (.moment bytes) else .error (.number bytes)

def isDateChar (c : Char) : Bool := c.isDigit || "-:Tt .Zz+".toList.contains c

def isFloatChar (c : Char) : Bool := c.isDigit || "_.-+eE".toList.contains c

/-- A decimal number whose first characters are `front`. -/
def decimal (front text : List Char) : Except Fault (Value × List Char) :=
  let isDigits (c : Char) : Bool := c.isDigit || c == '_'
  let whole := front ++ text.takeWhile isDigits
  let rest := text.dropWhile isDigits
  match rest with
  | '.' :: _ | 'e' :: _ | 'E' :: _ => do
    return (← float (whole ++ rest.takeWhile isFloatChar), rest.dropWhile isFloatChar)
  | _ => do return (← integer whole, rest)

/-- An integer in another base than ten, after its mark. -/
def based (mark : List Char) (isDigit : Char → Bool) (text : List Char) :
    Except Fault (Value × List Char) :=
  if (text.head?.map isDigit).getD false then do
    let body (c : Char) : Bool := isDigit c || c == '_'
    return (← integer (mark ++ text.takeWhile body), text.dropWhile body)
  else .error (.unexpected text.head?)

def numberOrDate (text : List Char) : Except Fault (Value × List Char) :=
  match text with
  | '0' :: 'x' :: rest => based ['0', 'x'] isHex rest
  | '0' :: 'o' :: rest => based ['0', 'o'] (fun c => '0' ≤ c && c ≤ '7') rest
  | '0' :: 'b' :: rest => based ['0', 'b'] (fun c => c == '0' || c == '1') rest
  | text =>
    let digits := text.takeWhile Char.isDigit
    match text.dropWhile Char.isDigit with
    | '-' :: _ | ':' :: _ =>
      if digits.length = 1 ∧ digits.head? = some '0' then decimal [] text
      else do return (← moment (text.takeWhile isDateChar), text.dropWhile isDateChar)
    | _ => decimal [] text

def signedNumber (sign : Char) : List Char → Except Fault (Value × List Char)
  | 'i' :: 'n' :: 'f' :: rest => do return (← float [sign, 'i', 'n', 'f'], rest)
  | 'n' :: 'a' :: 'n' :: rest => .ok (.float .nan, rest)
  | '0' :: c :: rest =>
    if c == 'b' || c == 'o' || c == 'x' then .error (.unexpected (some c))
    else decimal [sign, '0'] (c :: rest)
  | c :: rest => if c.isDigit then decimal [sign, c] rest else .error (.unexpected (some c))
  | [] => .error (.unexpected none)

def simpleValue (text : List Char) : Except Fault (Value × List Char) :=
  let string (p : Piece) : Value × List Char := (.string (bytesOf p.1), p.2)
  match text with
  | '"' :: '"' :: '"' :: rest => do
    return string (← basicLines (.text 0) (dropFirstBreak rest))
  | '"' :: rest => do return string (← basicString rest)
  | '\'' :: '\'' :: '\'' :: rest => do
    return string (← literalLines 0 (dropFirstBreak rest))
  | '\'' :: rest => do return string (← literalString rest)
  | 'i' :: 'n' :: 'f' :: rest => .ok (.float (.infinite false), rest)
  | 'n' :: 'a' :: 'n' :: rest => .ok (.float .nan, rest)
  | '+' :: rest => signedNumber '+' rest
  | '-' :: rest => signedNumber '-' rest
  | c :: rest =>
    if c.isDigit then numberOrDate (c :: rest)
    else
      let word := (c :: rest).takeWhile Char.isAlpha
      let after := (c :: rest).dropWhile Char.isAlpha
      if word = "true".toList then .ok (.bool true, after)
      else if word = "false".toList then .ok (.bool false, after)
      else .error (.unexpected (some c))
  | [] => .error (.unexpected none)

def keyPart (text : List Char) : Except Fault (Bytes × List Char) :=
  match text with
  | '"' :: rest => do
    let (part, rest) ← basicString rest
    return (bytesOf part, rest)
  | '\'' :: rest => do
    let (part, rest) ← literalString rest
    return (bytesOf part, rest)
  | text =>
    let isBare (c : Char) : Bool := c.isAlphanum || c == '_' || c == '-'
    let part := text.takeWhile isBare
    if part.isEmpty then .error (.unexpected text.head?)
    else .ok (bytesOf part, text.dropWhile isBare)

/-- A key and the text from the character that ends it on; `fuel` bounds the
number of its parts. -/
def dottedKey : Nat → List Char → Except Fault (Key × List Char)
  | 0, _ => .error (.unexpected none)
  | fuel + 1, text => do
    let (part, rest) ← keyPart (skipBlanks text)
    match skipBlanks rest with
    | '.' :: rest =>
      let (parts, rest) ← dottedKey fuel rest
      return (part :: parts, rest)
    | rest => return ([part], rest)

def expect (c : Char) : List Char → Except Fault (List Char)
  | d :: rest => if d = c then .ok rest else .error (.unexpected (some d))
  | [] => .error (.unexpected none)

structure Reading where
  document : Document
  rest : List Char

/-- Gives a key below the table `context` the value that `read` finds. The key is
noted before its value is read. -/
def assign (context key : Key) (read : Key → Reading → Except Fault (Value × Reading))
    (r : Reading) : Except Fault Reading := do
  let inner := context ++ key.dropLast
  let name := key.getLastD []
  let full := inner ++ [name]
  let document ← r.document.openDotted context key.dropLast
  let (v, r) ← read full { r with document := document.note full }
  let isArray := match v with
    | .array _ => true
    | _ => false
  let document ← r.document.setValue inner name v
  return { r with document := document.setArray full isArray }

mutual

def value : Nat → Bool → Key → Reading → Except Fault (Value × Reading)
  | 0, _, _, _ => .error (.unexpected none)
  | fuel + 1, inArray, key, r =>
    match skipBlanks r.rest with
    | '[' :: rest => do
      let (items, r) ← arrayItems fuel key ⟨r.document.setArray key true, rest⟩
      return (.array items, r)
    | '\x7b' :: rest => do
      let document ← (r.document.addImplicit key).openTable key inArray
      let r ← inlinePairs fuel key ⟨document, rest⟩
      return (.table ((Table.at? key r.document.root).getD []), r)
    | text => do
      let (v, rest) ← simpleValue text
      return (v, { r with rest })

def arrayItems : Nat → Key → Reading → Except Fault (List Value × Reading)
  | 0, _, _ => .error (.unexpected none)
  | fuel + 1, key, r =>
    match r.rest.dropWhile fun c => isBlank c || isBreak c with
    | '#' :: rest => arrayItems fuel key { r with rest := skipComment rest }
    | ']' :: rest => .ok ([], { r with rest })
    | ',' :: _ => .error (.unexpected (some ','))
    | text => do
      let (v, r) ← value fuel true key { r with rest := text }
      let (more, r) ← arrayMore fuel key r
      return (v :: more, r)

def arrayMore : Nat → Key → Reading → Except Fault (List Value × Reading)
  | 0, _, _ => .error (.unexpected none)
  | fuel + 1, key, r =>
    match r.rest.dropWhile fun c => isBlank c || isBreak c with
    | '#' :: rest => arrayMore fuel key { r with rest := skipComment rest }
    | ']' :: rest => .ok ([], { r with rest })
    | ',' :: rest => arrayItems fuel key { r with rest }
    | text => .error (.unexpected text.head?)

def inlinePairs : Nat → Key → Reading → Except Fault Reading
  | 0, _, _ => .error (.unexpected none)
  | fuel + 1, context, r =>
    match skipBlanks r.rest with
    | '\x7d' :: rest => .ok { r with rest }
    | text => inlinePair fuel context { r with rest := text }

def inlinePair : Nat → Key → Reading → Except Fault Reading
  | 0, _, _ => .error (.unexpected none)
  | fuel + 1, context, r => do
    let (key, rest) ← dottedKey (r.rest.length + 1) r.rest
    let rest ← expect '=' rest
    let r ← assign context key (value fuel false) { r with rest }
    match skipBlanks r.rest with
    | ',' :: rest => inlinePair fuel context { r with rest := skipBlanks rest }
    | '\x7d' :: rest => return { r with rest }
    | text => throw (.unexpected text.head?)

end

def lineEnd (text : List Char) : Except Fault (List Char) :=
  match skipBlanks text with
  | [] => .ok []
  | '#' :: rest => .ok (skipComment rest)
  | c :: rest => if isBreak c then .ok rest else .error (.unexpected (some c))

def header (r : Reading) (inArray : Bool) : Except Fault (Key × Reading) := do
  let (key, rest) ← dottedKey (r.rest.length + 1) r.rest
  let rest ← expect ']' rest
  let rest ← if inArray then expect ']' rest else pure rest
  let document ← r.document.openTable key inArray
  let rest ← lineEnd rest
  return (key, ⟨(document.setArray key false).note key, rest⟩)

/-- Reads the lines of a document; `context` is the table of the last header. -/
def lines : Nat → Key → Reading → Except Fault Document
  | 0, _, _ => .error (.unexpected none)
  | fuel + 1, context, r =>
    match r.rest.dropWhile fun c => isBlank c || isBreak c with
    | [] => .ok r.document
    | '#' :: rest => lines fuel context { r with rest := skipComment rest }
    | '[' :: '[' :: rest => do
      let (context, r) ← header { r with rest } true
      lines fuel context r
    | '[' :: rest => do
      let (context, r) ← header { r with rest } false
      lines fuel context r
    | text => do
      let (key, rest) ← dottedKey (text.length + 1) text
      let rest ← expect '=' rest
      let r ← assign context key (value (rest.length + 1) false) { r with rest }
      let rest ← lineEnd r.rest
      lines fuel context { r with rest }

/-- A mark of the encoding at the start of a text does not belong to it. -/
def dropMark : Bytes → Bytes
  | 0xFF :: 0xFE :: rest => rest
  | 0xFE :: 0xFF :: rest => rest
  | 0xEF :: 0xBB :: 0xBF :: rest => rest
  | text => text

/-- The first character that must not be in a document: a control character, or
half a line break. -/
def forbidden? : List Char → Option Char
  | [] => none
  | ['\r'] => some '\r'
  | '\r' :: c :: rest => if c = '\n' then forbidden? (c :: rest) else some '\r'
  | c :: rest =>
    if (c < ' ' ∧ c ≠ '\t' ∧ c ≠ '\n') ∨ c = '\x7f' then some c else forbidden? rest

def read (source : Bytes) : Except Fault Document := do
  let bytes := dropMark source
  if !bytes.isUtf8 then throw .encoding
  let text := bytes.glyphs.map Glyph.replaced
  match forbidden? text with
  | some c => throw (.control c)
  | none => lines (text.length + 1) [] ⟨.empty, text⟩

end Ifj24.Toml
