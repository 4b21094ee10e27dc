import Ifj24.Text.Bytes

/-!
Texts in which `$name` and `${name}` stand for the value of a variable.
-/

namespace Ifj24.Text

inductive Piece where
  | literal (b : UInt8)
  | named (name : Bytes)
  deriving DecidableEq, Repr

def isNameAlone (b : UInt8) : Bool :=
  (Bytes.ofString "*#$@!?-").contains b || (0x30 ≤ b && b ≤ 0x39)

def isNameByte (b : UInt8) : Bool :=
  b == Bytes.ascii '_' || (0x30 ≤ b && b ≤ 0x39) || (0x41 ≤ b && b ≤ 0x5A) ||
    (0x61 ≤ b && b ≤ 0x7A)

def closingBrace : UInt8 := 0x7D

/-- A name in braces, and how many bytes after the opening brace belong to it. An
empty name is dropped, and so is an opening brace that is not closed. -/
def bracedName (rest : Bytes) : Option Bytes × Nat :=
  match rest with
  | b :: c :: _ =>
    if isNameAlone b && c == closingBrace then (some [b], 2) else scan rest
  | _ => scan rest
where
  scan (rest : Bytes) : Option Bytes × Nat :=
    let name := rest.takeWhile (· != closingBrace)
    if name.length = rest.length then (none, 0)
    else if name.isEmpty then (none, 1)
    else (some name, name.length + 1)

/-- What a dollar sign before a text stands for, and how many bytes of the text
belong to it. -/
def variableAt (rest : Bytes) : List Piece × Nat :=
  match rest with
  | [] => ([.literal (Bytes.ascii '$')], 0)
  | b :: tail =>
    if b = 0x7B then
      let (name, n) := bracedName tail
      ((name.map Piece.named).toList, n + 1)
    else if isNameAlone b then ([.named [b]], 1)
    else
      let name := rest.takeWhile isNameByte
      if name.isEmpty then ([.literal (Bytes.ascii '$')], 0) else ([.named name], name.length)

/-- The parts of a text; the first `skip` bytes belong to what came before. -/
def piecesFrom : Nat → Bytes → List Piece
  | _, [] => []
  | skip + 1, _ :: rest => piecesFrom skip rest
  | 0, b :: rest =>
    if b = Bytes.ascii '$' then
      let (found, n) := variableAt rest
      found ++ piecesFrom n rest
    else .literal b :: piecesFrom 0 rest

def pieces (text : Bytes) : List Piece := piecesFrom 0 text

end Ifj24.Text
