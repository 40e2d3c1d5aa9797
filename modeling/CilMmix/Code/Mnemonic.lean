import CilMmix.Code.Op
import CilMmix.Numeric.Shortest
import CilMmix.Text.Quoted

/-! Instructions as listings and annotations show them. -/

namespace CilMmix

def Variable.text : Variable → String
  | arg _ => "arg"
  | loc _ => "loc"

def Variable.index : Variable → UInt16
  | arg i | loc i => i

def Arith.text : Arith → String
  | add => "add"
  | sub => "sub"
  | mul => "mul"
  | div => "div"
  | divUn => "div.un"
  | rem => "rem"
  | remUn => "rem.un"
  | and => "and"
  | or => "or"
  | xor => "xor"
  | shl => "shl"
  | shr => "shr"
  | shrUn => "shr.un"

def CheckedArith.text : CheckedArith → String
  | add => "add.ovf"
  | addUn => "add.ovf.un"
  | sub => "sub.ovf"
  | subUn => "sub.ovf.un"
  | mul => "mul.ovf"
  | mulUn => "mul.ovf.un"

def Comparison.text : Comparison → String
  | eq => "ceq"
  | gt => "cgt"
  | gtUn => "cgt.un"
  | lt => "clt"
  | ltUn => "clt.un"

def Condition.text : Condition → String
  | eq => "beq"
  | ge => "bge"
  | gt => "bgt"
  | le => "ble"
  | lt => "blt"
  | neUn => "bne.un"
  | geUn => "bge.un"
  | gtUn => "bgt.un"
  | leUn => "ble.un"
  | ltUn => "blt.un"

namespace Op

/-- The name of the instruction without its operand. -/
def mnemonic : Op → String
  | nop => "nop"
  | breakpoint => "break"
  | load v => "ld" ++ v.text
  | address v => "ld" ++ v.text ++ "a"
  | store v => "st" ++ v.text
  | push .null => "ldnull"
  | push (.int32 _) => "ldc.i4"
  | push (.int64 _) => "ldc.i8"
  | push (.real32 _) => "ldc.r4"
  | push (.real64 _) => "ldc.r8"
  | push (.str _) => "ldstr"
  | dup => "dup"
  | pop => "pop"
  | jmp _ => "jmp"
  | call _ => "call"
  | calli => "calli"
  | callvirt _ => "callvirt"
  | ret => "ret"
  | br _ => "br"
  | brFalse _ => "brfalse"
  | brTrue _ => "brtrue"
  | brIf c _ => c.text
  | switch _ => "switch"
  | leave _ => "leave"
  | endfinally => "endfinally"
  | endfilter => "endfilter"
  | throw => "throw"
  | rethrow => "rethrow"
  | ldind w => "ldind." ++ w.text
  | stind w => "stind." ++ w.text
  | cpblk => "cpblk"
  | initblk => "initblk"
  | localloc => "localloc"
  | arith a => a.text
  | neg => "neg"
  | not => "not"
  | checked a => a.text
  | ckfinite => "ckfinite"
  | conv .none k => "conv." ++ k.text
  | conv .signed k => "conv.ovf." ++ k.text
  | conv .unsigned k => "conv.ovf." ++ k.text ++ ".un"
  | compare c => c.text
  | newobj _ => "newobj"
  | castclass _ => "castclass"
  | isinst _ => "isinst"
  | box _ => "box"
  | unbox _ => "unbox"
  | unboxAny _ => "unbox.any"
  | field .load _ => "ldfld"
  | field .address _ => "ldflda"
  | field .store _ => "stfld"
  | staticField .load _ => "ldsfld"
  | staticField .address _ => "ldsflda"
  | staticField .store _ => "stsfld"
  | ldobj _ => "ldobj"
  | stobj _ => "stobj"
  | cpobj _ => "cpobj"
  | initobj _ => "initobj"
  | sizeof _ => "sizeof"
  | ldtoken => "ldtoken"
  | ldftn _ => "ldftn"
  | ldvirtftn _ => "ldvirtftn"
  | mkrefany _ => "mkrefany"
  | refanyval _ => "refanyval"
  | refanytype => "refanytype"
  | arglist => "arglist"
  | newarr _ => "newarr"
  | ldlen => "ldlen"
  | ldelema _ => "ldelema"
  | ldelem w => "ldelem." ++ w.text
  | stelem w => "stelem." ++ w.text
  | ldelemAny _ => "ldelem"
  | stelemAny _ => "stelem"
  | unaligned _ => "unaligned."
  | volatile => "volatile."
  | tail => "tail."
  | constrained _ => "constrained."
  | readonly => "readonly."
  | no _ => "no."

/-- The operand, where the mnemonic does not say it already. -/
def operandText? : Op → Option String
  | load v | address v | store v => some (toString v.index.toNat)
  | push (.int32 n) => some (toString n.toInt)
  | push (.int64 n) => some (toString n.toInt)
  | push (.real32 x) => some x.text
  | push (.real64 x) => some x.text
  | push (.str s) => some (Text.quoted s)
  | jmp m | call m | callvirt m | newobj m | ldftn m | ldvirtftn m => some m.text
  | br t | brFalse t | brTrue t | brIf _ t | leave t => some (Text.codeOffset t)
  | switch ts => some ("(" ++ Text.commaList (ts.map Text.codeOffset) ++ ")")
  | field _ f | staticField _ f => some f.text
  | castclass t | isinst t | box t | unbox t | unboxAny t | ldobj t | stobj t | cpobj t | initobj t
  | sizeof t | mkrefany t | refanyval t | newarr t | ldelema t | ldelemAny t | stelemAny t
  | constrained t => some t.text
  | unaligned n | no n => some (toString n.toNat)
  | push .null | nop | breakpoint | dup | pop | calli | ret | endfinally | endfilter | throw | rethrow
  | ldind _ | stind _ | cpblk | initblk | localloc | arith _ | neg | not | checked _ | ckfinite
  | conv _ _ | compare _ | ldtoken | refanytype | arglist | ldlen | ldelem _ | stelem _ | volatile
  | tail | readonly => none

def text (op : Op) : String :=
  match op.operandText? with
  | some operand => op.mnemonic ++ " " ++ operand
  | none => op.mnemonic

end Op

def Instruction.text (i : Instruction) : String :=
  Text.codeOffset i.offset ++ ": " ++ i.op.text

end CilMmix
