import CilMmix.Assembly.Opcode
import CilMmix.Assembly.Register

/-! Lines of assembly text. -/

namespace CilMmix

inductive Operand where
  | reg (r : Reg)
  | imm (n : Nat)
  | sym (name : String)
  /-- A number in hexadecimal with at least so many places. -/
  | hex (places n : Nat)
  deriving DecidableEq

def Operand.text : Operand → String
  | reg r => r.text
  | imm n => toString n
  | sym name => name
  | hex places n => "#" ++ Text.upperHex places n

inductive Line where
  /-- An operation, perhaps with a label. -/
  | op (label : Option String) (code : Opcode) (operands : List Operand)
  /-- An operation without effect that carries a remark. -/
  | note (label : Option String) (text : String)
  | comment (text : String)
  | blank
  /-- Text from elsewhere, its line ends included. -/
  | verbatim (text : String)
  deriving DecidableEq

namespace Line

/-- An operation without a label. -/
def ins (code : Opcode) (operands : List Operand) : Line := .op none code operands

/-- An operation without effect that only carries a label. -/
def bare (label : String) : Line := .op (some label) .swym []

def operandsText : List Operand → String
  | [] => ""
  | operands => " " ++ String.intercalate "," (operands.map Operand.text)

def text : Line → String
  | op label code operands => label.getD "" ++ " " ++ code.text ++ operandsText operands ++ "\n"
  | note label remark => label.getD "" ++ " SWYM % " ++ remark ++ "\n"
  | comment remark => " % " ++ remark ++ "\n"
  | blank => "\n"
  | verbatim t => t

/-- The text of several lines. -/
def render (lines : List Line) : String := String.join (lines.map text)

end Line

/-- A name as a symbol of the assembly language: letters and digits stay, all else becomes an
underscore, and a digit does not come first. -/
def mangle (name : String) : String :=
  let cs := name.toList.map fun c => if c.isAlphanum then c else '_'
  match cs with
  | [] => "_"
  | c :: _ => String.ofList (if c.isDigit then '_' :: cs else cs)

end CilMmix
