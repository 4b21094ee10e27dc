import Ifj24.Compile

/-!
Settings whose value is one of a few words.
-/

namespace Ifj24

abbrev Choices (α : Type) := List (Bytes × α)

structure ChoiceFault where
  setting : Bytes
  word : Bytes
  allowed : List Bytes
  deriving DecidableEq, Repr

def ChoiceFault.message (f : ChoiceFault) : Bytes :=
  f.setting ++ ": invalid value " ++ Text.quoted f.word ++ " (want one of [" ++
    Bytes.join " " f.allowed ++ "])"

namespace Choices

variable {α : Type}

def read (choices : Choices α) (setting word : Bytes) : Except ChoiceFault α :=
  match choices.lookup word with
  | some value => .ok value
  | none => .error ⟨setting, word, choices.map Prod.fst⟩

end Choices

inductive ColorMode where
  | auto
  | always
  | never
  deriving DecidableEq, Repr

def Emit.choices : Choices Emit := [("tokens", .tokens), ("ast", .ast), ("code", .code)]

def AstFormat.choices : Choices AstFormat := [("text", .text), ("json", .json), ("yaml", .yaml)]

def ColorMode.choices : Choices ColorMode :=
  [("auto", .auto), ("always", .always), ("never", .never)]

def Emit.word : Emit → Bytes
  | .tokens => "tokens"
  | .ast => "ast"
  | .code => "code"

def AstFormat.word : AstFormat → Bytes
  | .text => "text"
  | .json => "json"
  | .yaml => "yaml"

def ColorMode.word : ColorMode → Bytes
  | .auto => "auto"
  | .always => "always"
  | .never => "never"

end Ifj24
