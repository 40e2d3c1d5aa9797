import CilMmix.Assembly.Line

/-! Routines of the runtime library, which methods with an empty body stand for. An array arrives as
its data pointer and its count; its memory begins one word before the data. -/

namespace CilMmix.Routine

/-- Reads a line into the buffer, through a descriptor built on the heap. -/
def cread : List Line :=
  [.note (some "cread") "(uint8[] buffer) -> void  runtime: read line",
   .ins .get [.reg ⟨2⟩, .sym "rJ"],
   .ins .set [.reg ⟨4⟩, .imm 16],
   .ins .pushj [.reg ⟨3⟩, .sym "malloc"],
   .ins .stou [.reg ⟨0⟩, .reg ⟨3⟩, .imm 0],
   .ins .stou [.reg ⟨1⟩, .reg ⟨3⟩, .imm 8],
   .ins .set [.reg .trap, .reg ⟨3⟩],
   .ins .trap [.imm 0, .sym "Fgets", .sym "StdIn"],
   .ins .set [.reg ⟨4⟩, .reg ⟨3⟩],
   .ins .pushj [.reg ⟨3⟩, .sym "free"],
   .ins .put [.sym "rJ", .reg ⟨2⟩],
   .ins .pop [.imm 0, .imm 0],
   .blank]

def cwrite : List Line :=
  [.note (some "cwrite") "(uint8* text) -> void  runtime: write string",
   .ins .set [.reg .trap, .reg ⟨0⟩],
   .ins .trap [.imm 0, .sym "Fputs", .sym "StdOut"],
   .ins .pop [.imm 0, .imm 0],
   .blank]

/-- Frees an array. -/
def delarr : List Line :=
  [.note (some "delarr") "(T[] array) -> void  runtime: free array",
   .ins .get [.reg ⟨1⟩, .sym "rJ"],
   .ins .sub [.reg ⟨3⟩, .reg ⟨0⟩, .imm 8],
   .ins .pushj [.reg ⟨2⟩, .sym "free"],
   .ins .put [.sym "rJ", .reg ⟨1⟩],
   .ins .pop [.imm 0, .imm 0],
   .blank]

/-- Reads nothing yet. -/
def readFile : List Line :=
  [.note (some "read_file") "(string path, int32 mode) -> void  runtime: read file",
   .ins .get [.reg ⟨1⟩, .sym "rJ"],
   .ins .put [.sym "rJ", .reg ⟨1⟩],
   .ins .pop [.imm 0, .imm 0],
   .blank]

def named (name : String) : Except Fault (List Line) :=
  if name = "cread" then .ok cread
  else if name = "cwrite" then .ok cwrite
  else if name = "delarr" then .ok delarr
  else if name = "read_file" then .ok readFile
  else .error (.unknownRoutine name)

end CilMmix.Routine
