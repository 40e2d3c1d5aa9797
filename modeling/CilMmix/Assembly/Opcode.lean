/-! Operation codes of the assembly language, machine instructions and directives. -/

namespace CilMmix

inductive Opcode where
  | set
  | setl
  | setml
  | setmh
  | seth
  | orl
  | orml
  | ormh
  | orh
  | neg
  | nor
  | add
  | addu
  | sub
  | mul
  | mulu
  | div
  | divu
  | and
  | or
  | xor
  | slu
  | sr
  | sru
  | cmp
  | cmpu
  | zsz
  | zsp
  | zsn
  | bz
  | bnz
  | bnn
  | bp
  | bnp
  | bn
  | jmp
  | ldb
  | ldbu
  | ldw
  | ldwu
  | ldt
  | ldtu
  | ldo
  | ldou
  | stb
  | stw
  | stt
  | sto
  | stou
  | stco
  | get
  | put
  | pushj
  | pop
  | trap
  | swym
  | loc
  | octa
  | byte
  /-- Any other operation, by its name. -/
  | other (name : String)
  deriving DecidableEq

def Opcode.text : Opcode → String
  | set => "SET"
  | setl => "SETL"
  | setml => "SETML"
  | setmh => "SETMH"
  | seth => "SETH"
  | orl => "ORL"
  | orml => "ORML"
  | ormh => "ORMH"
  | orh => "ORH"
  | neg => "NEG"
  | nor => "NOR"
  | add => "ADD"
  | addu => "ADDU"
  | sub => "SUB"
  | mul => "MUL"
  | mulu => "MULU"
  | div => "DIV"
  | divu => "DIVU"
  | and => "AND"
  | or => "OR"
  | xor => "XOR"
  | slu => "SLU"
  | sr => "SR"
  | sru => "SRU"
  | cmp => "CMP"
  | cmpu => "CMPU"
  | zsz => "ZSZ"
  | zsp => "ZSP"
  | zsn => "ZSN"
  | bz => "BZ"
  | bnz => "BNZ"
  | bnn => "BNN"
  | bp => "BP"
  | bnp => "BNP"
  | bn => "BN"
  | jmp => "JMP"
  | ldb => "LDB"
  | ldbu => "LDBU"
  | ldw => "LDW"
  | ldwu => "LDWU"
  | ldt => "LDT"
  | ldtu => "LDTU"
  | ldo => "LDO"
  | ldou => "LDOU"
  | stb => "STB"
  | stw => "STW"
  | stt => "STT"
  | sto => "STO"
  | stou => "STOU"
  | stco => "STCO"
  | get => "GET"
  | put => "PUT"
  | pushj => "PUSHJ"
  | pop => "POP"
  | trap => "TRAP"
  | swym => "SWYM"
  | loc => "LOC"
  | octa => "OCTA"
  | byte => "BYTE"
  | other name => name

end CilMmix
