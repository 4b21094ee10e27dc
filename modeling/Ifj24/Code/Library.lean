import Ifj24.Code.Instruction

/-!
The code of the built-in functions. Arguments are on the data stack, the last on
top; a result is left on the data stack. Functions that need variables open a
frame for them and close it before they return.
-/

namespace Ifj24.Code.Builtin

def params : Builtin → Nat
  | .readstr | .readi32 | .readf64 => 0
  | .write | .i2f | .f2i | .string | .length | .chr => 1
  | .concat | .strcmp | .ord => 2
  | .substring => 3

def hasResult : Builtin → Bool
  | .write => false
  | _ => true

def temp (name : String) : Place := .temporary (Bytes.ofString name)

def get (name : String) : Source := .place (temp name)

def open_ (names : List String) : List Instr :=
  [.createFrame, .pushFrame] ++ names.map fun name => .defVar (temp name)

def close : List Instr := [.popFrame, .return]

def give (a : Source) : List Instr := .push a :: close

def readBody (type : InputType) : List Instr :=
  open_ ["r"] ++ [.read (temp "r") type] ++ give (get "r")

/-- Prints null as a word, everything else as the machine writes it. -/
def writeBody : List Instr :=
  open_ ["t", "ty"] ++
    [.pop (temp "t"),
      .typeOf (temp "ty") (get "t"),
      .jumpIfNeq (.inside .write "value") (get "ty") (.constant (.string "nil")),
      .write (.constant (.string "null")),
      .jump (.inside .write "end"),
      .label (.inside .write "value"),
      .write (get "t"),
      .label (.inside .write "end")] ++
    close

def lengthBody : List Instr :=
  open_ ["s", "n"] ++ [.pop (temp "s"), .strLen (temp "n") (get "s")] ++ give (get "n")

def concatBody : List Instr :=
  open_ ["s1", "s2", "r"] ++
    [.pop (temp "s2"), .pop (temp "s1"), .binary .concat (temp "r") (get "s1") (get "s2")] ++
    give (get "r")

/-- Sets `b` to the outcome of a comparison and jumps if that is `when_`. -/
def jumpIf (op : BinaryOp) (x y : Source) (when_ : Bool) (l : Label) : List Instr :=
  [.binary op (temp "b") x y, .jumpIfEq l (get "b") (.constant (.bool when_))]

/-- The bytes from `i` to before `j`; null unless `0 ≤ i ≤ j ≤ len` and
`i < len`. -/
def substringBody : List Instr :=
  let null : Label := .inside .substring "null"
  let loop : Label := .inside .substring "loop"
  let done : Label := .inside .substring "done"
  open_ ["s", "i", "j", "len", "c", "r", "b"] ++
    [.pop (temp "j"), .pop (temp "i"), .pop (temp "s"), .strLen (temp "len") (get "s")] ++
    jumpIf .lt (get "i") (.constant (.int 0)) true null ++
    jumpIf .lt (get "j") (.constant (.int 0)) true null ++
    jumpIf .gt (get "i") (get "j") true null ++
    jumpIf .lt (get "i") (get "len") false null ++
    jumpIf .gt (get "j") (get "len") true null ++
    [.move (temp "r") (.constant (.string [])),
      .label loop,
      .jumpIfEq done (get "i") (get "j"),
      .binary .getChar (temp "c") (get "s") (get "i"),
      .binary .concat (temp "r") (get "r") (get "c"),
      .binary .add (temp "i") (get "i") (.constant (.int 1)),
      .jump loop,
      .label done] ++
    give (get "r") ++
    [.label null] ++ give (.constant .nil)

def strcmpBody : List Instr :=
  let less : Label := .inside .strcmp "lt"
  let greater : Label := .inside .strcmp "gt"
  open_ ["s1", "s2", "b"] ++ [.pop (temp "s2"), .pop (temp "s1")] ++
    jumpIf .lt (get "s1") (get "s2") true less ++
    jumpIf .gt (get "s1") (get "s2") true greater ++
    give (.constant (.int 0)) ++
    [.label less] ++ give (.constant (.int (-1))) ++
    [.label greater] ++ give (.constant (.int 1))

/-- The byte at an index, zero if there is none. -/
def ordBody : List Instr :=
  let zero : Label := .inside .ord "zero"
  open_ ["s", "i", "len", "b", "r"] ++
    [.pop (temp "i"), .pop (temp "s"), .strLen (temp "len") (get "s")] ++
    jumpIf .lt (get "i") (.constant (.int 0)) true zero ++
    jumpIf .lt (get "i") (get "len") false zero ++
    [.binary .charCode (temp "r") (get "s") (get "i")] ++
    give (get "r") ++
    [.label zero] ++ give (.constant (.int 0))

def body : Builtin → List Instr
  | .readstr => readBody .string
  | .readi32 => readBody .int
  | .readf64 => readBody .float
  | .write => writeBody
  | .i2f => [.stack .intToFloat, .return]
  | .f2i => [.stack .floatToInt, .return]
  | .string => [.return]
  | .length => lengthBody
  | .concat => concatBody
  | .substring => substringBody
  | .strcmp => strcmpBody
  | .ord => ordBody
  | .chr => [.stack .intToChar, .return]

end Ifj24.Code.Builtin
